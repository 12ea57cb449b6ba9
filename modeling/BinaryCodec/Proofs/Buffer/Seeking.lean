import BinaryCodec.Proofs.Buffer.Locked
import BinaryCodec.Proofs.Buffer.Pieces

namespace BinaryCodec

namespace Store

variable {s : Store} {position n r : Nat}

theorem move_checkPosition {σ : Type} (s : Store) (rebuild : σ → Store) (build : Nat → σ)
    (position size : Nat) :
    move s rebuild ((checkPosition position size).map build) =
      if position ≤ size then .ok () (rebuild (build position))
      else .error (.seekOutOfBounds position size) s := by
  unfold checkPosition
  split <;> rfl

def Seeks : Store → Prop
  | .memory m => m.mode = .short
  | .slice _ => True
  | .seekable s => s.Steady ∧ s.streamPosition = s.readPosition
  | .file f => f.isOpen = true
  | .reader _ | .writer _ => False

def readingFrom (position : Nat) : Store → Store
  | .memory m => .memory { m with readPosition := position }
  | .slice s => .slice { s with readPosition := position }
  | .reader r => .reader { r with position }
  | .seekable s => .seekable (s.moveTo position position)
  | .writer w => .writer w
  | .file f => .file { f with readPosition := position }

@[simp] theorem readingFrom_readingFrom :
    (s.readingFrom position).readingFrom r = s.readingFrom r := by
  cases s <;> rfl

@[simp] theorem stored_readingFrom : (s.readingFrom position).stored = s.stored := by
  cases s <;> rfl

theorem advance_readingFrom : (s.readingFrom position).advance n = s.readingFrom (position + n) := by
  cases s <;> rfl

namespace Seeks

variable (seeks : s.Seeks)
include seeks

theorem delivers : s.Delivers := by
  cases s with
  | reader r => exact seeks.elim
  | seekable s => exact ⟨seeks.1.1, seeks.2⟩
  | _ => exact seeks

theorem ending : s.ending = .known := by
  cases s with
  | reader r => exact seeks.elim
  | writer w => exact seeks.elim
  | seekable s => exact congrArg (Ending.ofFailure .known) seeks.1.1
  | _ => rfl

theorem advance (n : Nat) : (s.advance n).Seeks := by
  cases s with
  | seekable s => exact ⟨seeks.1, congrArg (· + n) seeks.2⟩
  | _ => exact seeks

theorem readingFrom (position : Nat) : (s.readingFrom position).Seeks := by
  cases s with
  | seekable s => exact ⟨seeks.1, rfl⟩
  | _ => exact seeks

theorem readingFrom_self (begins : s.readPosition = .ok r) : s.readingFrom r = s := by
  cases s with
  | writer w => exact seeks.elim
  | seekable s =>
    obtain ⟨⟨content, limit, failsAt, place⟩, progress, seekFault, reading⟩ := s
    cases begins
    obtain rfl : place = reading := seeks.2
    rfl
  | _ =>
    cases begins
    rfl

theorem upcoming_readingFrom : (s.readingFrom position).upcoming = s.stored.toList.drop position := by
  cases s with
  | reader r => exact seeks.elim
  | writer w => exact seeks.elim
  | seekable s => exact Reader.left_whole seeks.1.1
  | _ => rfl

theorem upcoming_eq (begins : s.readPosition = .ok r) : s.upcoming = s.stored.toList.drop r := by
  rw [← seeks.upcoming_readingFrom, seeks.readingFrom_self begins]

theorem seekRead (position : Nat) :
    s.seekRead position =
      if position ≤ s.stored.size then .ok () (s.readingFrom position)
      else .error (.seekOutOfBounds position s.stored.size) s := by
  cases s with
  | memory m => exact move_checkPosition _ .memory (fun place => { m with readPosition := place }) ..
  | slice s => exact move_checkPosition _ .slice (fun place => { s with readPosition := place }) ..
  | seekable s =>
    rw [Store.seekRead, SeekableReader.seekRead_eq seeks.1]
    exact move_checkPosition _ .seekable (fun place => s.moveTo place place) ..
  | file f =>
    obtain ⟨content, reading, writing, readOnly, isOpen⟩ := f
    cases seeks
    exact move_checkPosition _ .file (⟨content, ·, writing, readOnly, true⟩) ..
  | reader r => exact seeks.elim
  | writer w => exact seeks.elim

end Seeks

end Store

namespace Buffer

variable {b : Buffer} {n r : Nat}

def readingFrom (b : Buffer) (position : Nat) : Buffer := ⟨b.store.readingFrom position, b.bits⟩

theorem advance_readingFrom {position : Nat} :
    (b.readingFrom position).advance n = b.readingFrom (position + n) := by
  simp only [readingFrom, advance, Store.advance_readingFrom]

theorem readPosition_eq (begins : b.store.readPosition = .ok r) : readPosition b = .ok r b := by
  simp only [readPosition, ask, begins]

section seeks

variable (seeks : b.store.Seeks)
include seeks

theorem seekRead_eq (position : Nat) :
    seekRead position b =
      if position ≤ b.store.stored.size then .ok () (b.readingFrom position)
      else .error (.seekOutOfBounds position b.store.stored.size) b := by
  obtain ⟨store, bits⟩ := b
  have run : store.seekRead position = _ := Store.Seeks.seekRead seeks position
  by_cases within : position ≤ store.stored.size
  · rw [if_pos within] at run ⊢
    simp only [seekRead, onStore, run, readingFrom]
  · rw [if_neg within] at run ⊢
    simp only [seekRead, onStore, run]

theorem live_of_seeks : b.ending.fault? = none := by
  rw [show b.ending = .known from seeks.ending]
  rfl

theorem readingFrom_self (begins : b.store.readPosition = .ok r) : b.readingFrom r = b := by
  simp only [readingFrom, seeks.readingFrom_self begins]

theorem advance_eq_readingFrom (begins : b.store.readPosition = .ok r) :
    b.advance n = b.readingFrom (r + n) := by
  rw [← advance_readingFrom, readingFrom_self seeks begins]

theorem seekRead_readingFrom (begins : b.store.readPosition = .ok r) (within : r ≤ b.store.stored.size)
    (place : Nat) : seekRead r (b.readingFrom place) = .ok () b := by
  have again : (b.readingFrom place).store.Seeks := seeks.readingFrom place
  have stored : (b.readingFrom place).store.stored = b.store.stored := Store.stored_readingFrom
  have back : (b.readingFrom place).readingFrom r = b.readingFrom r := by
    simp only [readingFrom, Store.readingFrom_readingFrom]
  rw [seekRead_eq again, stored, if_pos within, back, readingFrom_self seeks begins]

end seeks

end Buffer

end BinaryCodec
