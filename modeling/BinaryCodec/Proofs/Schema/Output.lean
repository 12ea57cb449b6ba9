import BinaryCodec.Schema.Output
import BinaryCodec.Proofs.Varint

namespace BinaryCodec.Output

variable {first second output : Output}

@[simp] theorem bytes_none : none.bytes = [] := rfl

@[simp] theorem bytes_piece (bytes : List UInt8) : (piece bytes).bytes = bytes :=
  List.append_nil bytes

@[simp] theorem bytes_fail (e : Error) : (fail e).bytes = [] := rfl

@[simp] theorem error_none : none.error = .none := rfl

@[simp] theorem error_piece (bytes : List UInt8) : (piece bytes).error = .none := rfl

@[simp] theorem error_fail (e : Error) : (fail e).error = some e := rfl

@[simp] theorem append_none : output ++ none = output := by
  obtain ⟨pieces, error⟩ := output
  cases error with
  | none => exact congrArg (Output.mk · .none) (List.append_nil pieces)
  | some e => rfl

theorem append_of_error {e : Error} (failed : first.error = some e) : first ++ second = first := by
  change append first second = first
  simp only [append, failed]

theorem error_append : (first ++ second).error = first.error.or second.error := by
  change (append first second).error = _
  cases h : first.error <;> simp [append, h]

theorem bytes_append (succeeded : first.error = .none) :
    (first ++ second).bytes = first.bytes ++ second.bytes := by
  change (append first second).bytes = _
  simp only [append, succeeded, bytes, List.flatten_append]

theorem length_bytes_le_append (first second : Output) :
    first.bytes.length ≤ (first ++ second).bytes.length := by
  cases h : first.error with
  | some e => exact Nat.le_of_eq (by rw [append_of_error h])
  | none =>
    rw [bytes_append h, List.length_append]
    exact Nat.le_add_right ..

theorem append_assoc (first second third : Output) :
    first ++ second ++ third = first ++ (second ++ third) := by
  cases h : first.error with
  | some e =>
    have front : first ++ second = first := append_of_error h
    rw [front, append_of_error h, append_of_error h]
  | none =>
    change append (append first second) third = append first (append second third)
    simp only [append, h]
    cases k : second.error with
    | none => simp [List.append_assoc]
    | some e => simp [k]

def Writes (output : Output) (bytes : List UInt8) : Prop :=
  output.error = .none ∧ output.bytes = bytes

namespace Writes

variable {front back bytes : List UInt8}

theorem none : Writes Output.none [] := ⟨rfl, rfl⟩

theorem piece (bytes : List UInt8) : Writes (Output.piece bytes) bytes := ⟨rfl, bytes_piece bytes⟩

theorem append (begins : Writes first front) (ends : Writes second back) :
    Writes (first ++ second) (front ++ back) := by
  refine ⟨?_, ?_⟩
  · rw [error_append, begins.1, ends.1]
    rfl
  · rw [bytes_append begins.1, begins.2, ends.2]

theorem unsigned (n : Nat) : Writes (Output.unsigned n) (Varint.encodeUnsigned n) := piece _

theorem limited (bytes : List UInt8) :
    Writes (Output.limited bytes) (Varint.encodeUnsigned bytes.length ++ bytes) :=
  (unsigned bytes.length).append (piece bytes)

end Writes

def Same (first second : Output) : Prop :=
  first.bytes = second.bytes ∧ first.error = second.error

namespace Same

variable {third fourth : Output}

theorem refl (output : Output) : Same output output := ⟨rfl, rfl⟩

theorem of_eq (equal : first = second) : Same first second := equal ▸ refl first

theorem symm (same : Same first second) : Same second first := ⟨same.1.symm, same.2.symm⟩

theorem trans (same : Same first second) (next : Same second third) : Same first third :=
  ⟨same.1.trans next.1, same.2.trans next.2⟩

theorem append (begins : Same first second) (ends : Same third fourth) :
    Same (first ++ third) (second ++ fourth) := by
  cases h : second.error with
  | some e => rwa [append_of_error (begins.2.trans h), append_of_error h]
  | none =>
    refine ⟨?_, ?_⟩
    · rw [bytes_append (begins.2.trans h), bytes_append h, begins.1, ends.1]
    · rw [error_append, error_append, begins.2, ends.2]

theorem piece_nil (output : Output) : Same output (piece [] ++ output) := by
  refine ⟨?_, ?_⟩
  · rw [bytes_append rfl, bytes_piece, List.nil_append]
  · rw [error_append, error_piece, Option.none_or]

theorem writes {bytes : List UInt8} (same : Same first second) (writes : Writes second bytes) :
    Writes first bytes := ⟨same.2.trans writes.1, same.1.trans writes.2⟩

end Same

end BinaryCodec.Output
