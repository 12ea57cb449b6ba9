import BinaryCodec.Proofs.Buffer.History
import BinaryCodec.Proofs.Buffer.Progress
import BinaryCodec.Proofs.Buffer.Seeking
import BinaryCodec.Proofs.Store.Acceptance

namespace BinaryCodec

theorem Content.size_overwrite {content : Content} {position : Nat} (within : position ≤ content.size)
    (bytes : List UInt8) :
    (content.overwrite position bytes).size = max content.size (position + bytes.length) := by
  rw [← Array.length_toList, Content.toList_overwrite within]
  simp only [List.length_append, List.length_take, List.length_drop, Array.length_toList]
  omega

theorem Content.within_overwrite {content : Content} {reading writing : Nat}
    (reads : reading ≤ content.size) (writes : writing ≤ content.size) (bytes : List UInt8) :
    reading ≤ (content.overwrite writing bytes).size ∧
      writing + bytes.length ≤ (content.overwrite writing bytes).size := by
  rw [Content.size_overwrite writes]
  exact ⟨Nat.le_trans reads (Nat.le_max_left ..), Nat.le_max_right ..⟩

namespace Store

inductive Opened : Store → Prop
  | memory (bytes : List UInt8) (mode : ReadMode) : Opened (.memory (.ofList bytes mode))
  | slice (bytes : List UInt8) : Opened (.slice (.ofList bytes))
  | reader (content : Content) (limit : Nat → Nat) (failsAt : Option Failure) :
      Opened (.reader ⟨content, limit, failsAt, 0⟩)
  | seekable {s : SeekableReader} (placed : s.streamPosition = s.readPosition) : Opened (.seekable s)
  | writer (failsAt : Option Failure) (flushFault : Option IoFault) :
      Opened (.writer ⟨#[], failsAt, flushFault, 0⟩)
  | file (content : Option (List UInt8)) : Opened (.file (.openFile content))
  | readOnlyFile {content : Option (List UInt8)} {f : File} (found : File.openReadOnly content = .ok f) :
      Opened (.file f)

/-- Where the cursors stand. A seekable reader may have been opened past its end, and loses its place
only when its stream fails. -/
def Placed : Store → Prop
  | .memory m => m.readPosition ≤ m.content.size ∧ m.writePosition ≤ m.content.size
  | .slice s => s.readPosition ≤ s.content.size
  | .seekable s => s.Steady → s.streamPosition = s.readPosition
  | .file f => f.readPosition ≤ f.content.size ∧ f.writePosition ≤ f.content.size
  | .reader _ | .writer _ => True

variable {s after : Store}

theorem Opened.placed (opened : s.Opened) : s.Placed := by
  cases opened with
  | memory bytes mode => exact ⟨Nat.zero_le _, Nat.le_of_eq List.size_toArray.symm⟩
  | slice bytes => exact Nat.zero_le _
  | seekable placed => exact fun _ => placed
  | file content => exact ⟨Nat.zero_le _, Nat.zero_le _⟩
  | @readOnlyFile content f found =>
    cases content with
    | none => cases found
    | some bytes =>
      cases found
      exact ⟨Nat.zero_le _, Nat.zero_le _⟩
  | reader | writer => exact True.intro

theorem Placed.advance (placed : s.Placed) {k : Nat} (within : k ≤ s.upcoming.length) :
    (s.advance k).Placed := by
  cases s with
  | memory m | slice s | file f =>
    simp only [upcoming, List.length_drop, Array.length_toList] at within
    simp only [Placed, Store.advance] at placed ⊢
    omega
  | seekable s => exact fun steady => congrArg (· + k) (placed steady)
  | reader | writer => exact True.intro

theorem Placed.read (placed : s.Placed) (n : Nat) : (settled (s.read n)).2.Placed := by
  cases came : s.read n with
  | ok bytes after =>
    obtain ⟨k, within, -, rfl⟩ := advance_of_read came
    exact placed.advance within
  | error e after =>
    obtain rfl := read_error came
    exact placed

theorem Placed.write (placed : s.Placed) (bytes : List UInt8) :
    (settled (s.write bytes)).2.Placed := by
  cases s with
  | memory m => exact Content.within_overwrite placed.1 placed.2 bytes
  | file f =>
    obtain ⟨content, reading, writing, readOnly, isOpen⟩ := f
    cases readOnly with
    | true => exact placed
    | false =>
      cases isOpen with
      | false => exact placed
      | true => exact Content.within_overwrite placed.1 placed.2 bytes
  | writer w =>
    simp only [Store.write]
    obtain ⟨result, w⟩ := w.write bytes
    cases result <;> exact True.intro
  | slice | reader | seekable => exact placed

theorem Placed.move {σ : Type} (placed : s.Placed) (rebuild : σ → Store) (build : Nat → σ)
    {position size : Nat} (next : position ≤ size → (rebuild (build position)).Placed) :
    (settled (s.move rebuild ((checkPosition position size).map build))).2.Placed := by
  rw [move_checkPosition]
  by_cases within : position ≤ size
  · rw [if_pos within]
    exact next within
  · rw [if_neg within]
    exact placed

theorem Placed.seekRead (placed : s.Placed) (position : Nat) :
    (settled (s.seekRead position)).2.Placed := by
  cases s with
  | memory m =>
    exact placed.move .memory (fun place => { m with readPosition := place }) fun within =>
      ⟨within, placed.2⟩
  | slice s => exact placed.move .slice (fun place => { s with readPosition := place }) id
  | seekable s =>
    simp only [Store.seekRead]
    cases came : s.seekRead position with
    | error e => exact placed
    | ok moved => exact fun _ => SeekableReader.placed_of_seekRead came
  | file f =>
    obtain ⟨content, reading, writing, readOnly, isOpen⟩ := f
    cases isOpen with
    | false => exact placed
    | true =>
      exact placed.move .file (⟨content, ·, writing, readOnly, true⟩) fun within =>
        ⟨within, placed.2⟩
  | reader | writer => exact True.intro

theorem Placed.seekWrite (placed : s.Placed) (position : Nat) :
    (settled (s.seekWrite position)).2.Placed := by
  cases s with
  | memory m =>
    exact placed.move .memory (fun place => { m with writePosition := place }) fun within =>
      ⟨placed.1, within⟩
  | file f =>
    obtain ⟨content, reading, writing, readOnly, isOpen⟩ := f
    cases readOnly with
    | true => exact placed
    | false =>
      cases isOpen with
      | false => exact placed
      | true =>
        exact placed.move .file (⟨content, reading, ·, false, true⟩) fun within =>
          ⟨placed.1, within⟩
  | slice | reader | seekable | writer => exact placed

theorem Placed.erase (placed : s.Placed) : (settled s.erase).2.Placed := by
  cases s with
  | memory m => exact ⟨Nat.le_refl 0, Nat.le_refl 0⟩
  | file f =>
    obtain ⟨content, reading, writing, readOnly, isOpen⟩ := f
    cases readOnly with
    | true => exact placed
    | false =>
      cases isOpen with
      | false => exact placed
      | true => exact ⟨Nat.le_refl 0, Nat.le_refl 0⟩
  | slice | reader | seekable | writer => exact placed

theorem Placed.contents (placed : s.Placed) : (settled s.contents).2.Placed := by
  cases s with
  | seekable s =>
    simp only [Store.contents]
    cases came : s.contents with
    | mk result after =>
      have moved (steady : after.Steady) : after.streamPosition = after.readPosition := by
        have same := @SeekableReader.steady_contents s
        rw [came] at same
        have whole := came.symm.trans (SeekableReader.contents_eq (same.mp steady))
        cases whole
        rfl
      cases result <;> exact moved
  | file f =>
    obtain ⟨content, reading, writing, readOnly, isOpen⟩ := f
    cases isOpen <;> exact placed
  | memory | slice | reader | writer => exact placed

theorem Placed.flush (placed : s.Placed) : (settled s.flush).2.Placed := by
  cases s with
  | file f =>
    obtain ⟨content, reading, writing, readOnly, isOpen⟩ := f
    cases readOnly <;> cases isOpen <;> exact placed
  | writer w =>
    simp only [Store.flush]
    cases w.flush <;> exact placed
  | memory | slice | reader | seekable => exact placed

theorem Placed.close (placed : s.Placed) : (settled s.close).2.Placed := by
  cases s with
  | writer w => exact placed.flush
  | _ => exact placed

theorem Placed.answer (placed : s.Placed) (call : StoreCall) : (call.answer s).2.Placed := by
  cases call with
  | read n => exact placed.read n
  | write bytes => exact placed.write bytes
  | seekRead position => exact placed.seekRead position
  | seekWrite position => exact placed.seekWrite position
  | readPosition | writePosition | size => exact placed
  | contents => exact placed.contents
  | erase => exact placed.erase
  | flush => exact placed.flush
  | close => exact placed.close

end Store

theorem Program.placed_run {α : Type} {p : Program α} {b : Buffer} (placed : b.store.Placed) :
    (settled (p.run b)).2.store.Placed := by
  induction p generalizing b with
  | done outcome => cases outcome <;> exact placed
  | call c next ih => exact ih _ (b := ⟨_, b.bits⟩) (placed.answer c)
  | unread next ih => exact ih _ placed
  | pending next ih => exact ih _ placed
  | keep bits next ih => exact ih (b := ⟨b.store, bits⟩) placed

namespace Buffer

/-- Buffers that some operation after another leads to, each of them a program of calls on the store. -/
inductive Reached : Buffer → Prop
  | opened {s : Store} (opened : s.Opened) : Reached (ofStore s)
  | ran {α : Type} {b : Buffer} (p : Program α) (reached : Reached b) : Reached (settled (p.run b)).2

variable {b : Buffer}

theorem Reached.placed (reached : b.Reached) : b.store.Placed := by
  induction reached with
  | opened opened => exact opened.placed
  | ran p reached ih => exact Program.placed_run ih

theorem Reached.step (reached : b.Reached) (request : BufferRequest) : (request.step b).after.Reached := by
  have ran := reached.ran request.program
  rwa [request.run_program] at ran

theorem Reached.afterAll (reached : b.Reached) (requests : List BufferRequest) :
    (afterAll requests b).Reached := by
  induction requests generalizing b with
  | nil => exact reached
  | cons request rest ih => exact ih (reached.step request)

end Buffer

end BinaryCodec
