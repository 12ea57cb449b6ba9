import BinaryCodec.Proofs.Buffer.Reading
import BinaryCodec.Proofs.Schema.Output
import BinaryCodec.Proofs.Store.Acceptance

namespace BinaryCodec.Buffer

def Accepts (b : Buffer) : Prop := b.store.Accepts

def written (b : Buffer) (bytes : List UInt8) : Buffer := ⟨b.store.written bytes, b.bits⟩

variable {b : Buffer}

theorem Accepts.written (accepts : b.Accepts) (bytes : List UInt8) : (b.written bytes).Accepts :=
  Store.Accepts.written accepts bytes

theorem written_written (front back : List UInt8) :
    (b.written front).written back = b.written (front ++ back) := by
  simp only [written, Store.written_written]

theorem written_nil : b.written [] = b := by
  simp only [written, Store.written_nil]

theorem writeBytes_eq (accepts : b.Accepts) (bytes : List UInt8) :
    writeBytes bytes b = .ok () (b.written bytes) := by
  obtain ⟨store, bits⟩ := b
  simp only [writeBytes, onStore, Store.write_eq accepts]
  rfl

theorem writePieces_eq (accepts : b.Accepts) (pieces : List (List UInt8)) :
    pieces.forM writeBytes b = .ok () (b.written pieces.flatten) := by
  induction pieces generalizing b with
  | nil =>
    rw [List.flatten_nil, written_nil]
    rfl
  | cons piece rest ih =>
    change (writeBytes piece >>= fun _ => rest.forM writeBytes) b = _
    rw [bind_apply, writeBytes_eq accepts]
    simp only [ih (accepts.written piece), written_written, List.flatten_cons]

theorem writeOutput_eq (accepts : b.Accepts) (output : Output) :
    writeOutput output b = match output.error with
      | none => .ok () (b.written output.bytes)
      | some e => .error e (b.written output.bytes) := by
  simp only [writeOutput, bind_apply, writePieces_eq accepts]
  cases output.error <;> rfl

theorem writeOutput_error_iff (accepts : b.Accepts) (output : Output) (e : Error) :
    (∃ after, writeOutput output b = .error e after) ↔ output.error = some e := by
  rw [writeOutput_eq accepts]
  cases output.error <;> simp

end BinaryCodec.Buffer
