import BinaryCodec.Proofs.Schema.GuardedDecode

namespace BinaryCodec

namespace Store

variable {s after : Store} {n : Nat} {bytes : List UInt8}

theorem advance_of_read (run : s.read n = .ok bytes after) :
    ∃ k, k ≤ s.upcoming.length ∧ (bytes ≠ [] → 0 < k) ∧ after = s.advance k := by
  have some (piece : List UInt8) : piece ≠ [] → 0 < piece.length := List.length_pos_iff.mpr
  have streamed {r : Reader} {piece : List UInt8} (delivered : r.deliver n = .ok piece) :
      piece.length ≤ r.left.length := by
    simp only [Reader.deliver] at delivered
    split at delivered <;> cases delivered
    rw [Reader.length_left, Content.piece_eq, List.length_take]
    omega
  cases s with
  | memory m =>
    refine ⟨(m.content.piece m.readPosition n).length, ?_, ?_, ?_⟩
    · rw [Content.piece_eq, List.length_take]
      exact Nat.min_le_right ..
    · intro filled
      apply some
      rintro empty
      simp only [read, Memory.read, empty] at run
      split at run <;> cases run
      · exact filled rfl
      · exact filled rfl
      · next nonempty => exact nonempty rfl
    · simp only [read, Memory.read] at run
      split at run <;> · cases run; rfl
  | slice s =>
    cases run
    refine ⟨(s.content.piece s.readPosition n).length, ?_, some _, rfl⟩
    rw [Content.piece_eq, List.length_take]
    exact Nat.min_le_right ..
  | reader r =>
    rw [read_reader] at run
    cases delivered : r.deliver n <;> rw [delivered] at run <;> cases run
    exact ⟨_, streamed delivered, some _, rfl⟩
  | seekable s =>
    rw [read_seekable] at run
    cases delivered : s.stream.deliver n <;> rw [delivered] at run <;> cases run
    exact ⟨_, streamed delivered, some _, rfl⟩
  | writer w => cases run
  | file f =>
    cases isOpen : f.isOpen with
    | false =>
      simp only [read, File.read, File.checkOpen, isOpen] at run
      cases run
    | true =>
      have held := read_held (s := .file f) isOpen ⟨by simp, by simp⟩ n
      rw [held] at run
      cases run
      refine ⟨_, Nat.min_le_right .., fun filled => ?_, rfl⟩
      rw [← List.length_take]
      exact some _ filled

theorem read_error {e : Error} (failed : s.read n = .error e after) : after = s := by
  cases s with
  | memory m | slice s => cases failed
  | writer w =>
    cases failed
    rfl
  | seekable s =>
    simp only [read] at failed
    cases came : s.read n <;> rw [came] at failed <;> cases failed
    rfl
  | reader r =>
    simp only [read] at failed
    cases came : r.read n <;> rw [came] at failed <;> cases failed
    rfl
  | file f =>
    simp only [read] at failed
    cases came : f.read n <;> rw [came] at failed <;> cases failed
    rfl

theorem advance_answer {call : StoreCall} (advances : call.advances = true) (s : Store) :
    ∃ k, k ≤ s.upcoming.length ∧ (call.answer s).2 = s.advance k := by
  cases call with
  | read n =>
    simp only [StoreCall.answer]
    cases came : s.read n with
    | ok bytes after =>
      obtain ⟨k, within, -, rfl⟩ := advance_of_read came
      exact ⟨k, within, rfl⟩
    | error e after => exact ⟨0, Nat.zero_le _, (read_error came).trans advance_zero.symm⟩
  | readPosition | writePosition | size => exact ⟨0, Nat.zero_le _, advance_zero.symm⟩
  | _ => cases advances

def TellsRest (s : Store) : Prop := s.available = some s.unread

theorem TellsRest.advance (tells : s.TellsRest) (within : n ≤ s.upcoming.length) :
    (s.advance n).TellsRest := by
  unfold TellsRest at tells ⊢
  cases s with
  | memory m | slice s => rfl
  | reader r => cases tells
  | seekable s =>
    have reach : (s.moveTo (s.streamPosition + n) (s.readPosition + n)).stream.reach =
        s.stream.reach - n := by
      simp only [SeekableReader.moveTo, Reader.reach, SeekableReader.streamPosition]
      omega
    simp only [available, unread, upcoming, Reader.length_left, Option.some_inj] at tells within
    simp only [available, unread, Store.advance, SeekableReader.content_moveTo,
      SeekableReader.readPosition_moveTo, reach, Option.some_inj]
    omega
  | writer w => cases tells
  | file f =>
    simp only [available, unread] at tells
    split at tells
    · next isOpen => simp only [available, unread, Store.advance, isOpen, if_true]
    · cases tells

theorem TellsRest.supplies_or_memory (tells : s.TellsRest) : s.Supplies ∨ ∃ m, s = .memory m := by
  cases s with
  | memory m => exact .inr ⟨m, rfl⟩
  | slice s => exact .inl True.intro
  | reader r => cases tells
  | seekable s => exact .inl True.intro
  | writer w => cases tells
  | file f =>
    simp only [TellsRest, available] at tells
    split at tells
    · next isOpen => exact .inl isOpen
    · cases tells

theorem read_memory {m : Memory} (memory : s = .memory m) (within : n ≤ s.upcoming.length) :
    s.read n = .ok (s.upcoming.take n) (s.advance n) := by
  subst memory
  have length : (m.content.piece m.readPosition n).length = n := by
    rw [Content.piece_eq, List.length_take]
    exact Nat.min_eq_left within
  have filled : (m.content.piece m.readPosition n).rightpad n 0 =
      m.content.piece m.readPosition n := by
    simp [List.rightpad, length]
  simp only [upcoming, Store.advance]
  rw [← Content.piece_eq]
  simp only [read, Memory.read]
  split
  · rw [length]
  · next empty =>
    rw [empty] at length ⊢
    rw [← length]
  · rw [length, filled]

end Store

theorem Program.Confined.advance_run {α : Type} {p : Program α} (confined : p.Confined false false)
    (b : Buffer) : ∃ k, k ≤ b.upcoming.length ∧ (settled (p.run b)).2 = b.advance k := by
  induction p generalizing b with
  | done outcome => cases outcome <;> exact ⟨0, Nat.zero_le _, Buffer.advance_zero.symm⟩
  | call c next ih =>
    obtain ⟨first, within, answered⟩ := Store.advance_answer (by simpa using confined.1) b.store
    obtain ⟨more, rest, ends⟩ := ih _ (confined.2 _) ⟨(c.answer b.store).2, b.bits⟩
    have place : (⟨(c.answer b.store).2, b.bits⟩ : Buffer) = b.advance first := by
      rw [answered]
      rfl
    rw [place, Buffer.upcoming_advance, List.length_drop] at rest
    rw [place, Buffer.advance_advance] at ends
    have whole : b.store.upcoming.length = b.upcoming.length := rfl
    refine ⟨first + more, by omega, ?_⟩
    rw [← ends, ← place]
    rfl
  | unread next ih => exact ih _ (confined _) b
  | pending next ih => exact ih _ (confined _) b
  | keep bits next ih => cases confined.1

namespace Buffer

variable {α β : Type} {b after : Buffer} {n : Nat}

class Forward (m : BufferM α) : Prop where
  advance_of_run (b after : Buffer) (v : α) (run : m b = .ok v after) :
    ∃ k, k ≤ b.upcoming.length ∧ after = b.advance k

instance forward_of_guarded (m : BufferM α) [guarded : Guarded false false id m] : Forward m := by
  constructor
  intro b after v run
  rw [← guarded.run_program] at run
  obtain ⟨k, within, ends⟩ := guarded.confined.advance_run b
  rw [run] at ends
  exact ⟨k, within, ends⟩

theorem advance_of_read {bytes : List UInt8} (run : read n b = .ok bytes after) :
    ∃ k, k ≤ b.upcoming.length ∧ (bytes ≠ [] → 0 < k) ∧ after = b.advance k := by
  obtain ⟨store, bits⟩ := b
  simp only [read, onStore] at run
  cases came : store.read n with
  | error e store => rw [came] at run; cases run
  | ok delivered next =>
    rw [came] at run
    cases run
    obtain ⟨k, within, some, rfl⟩ := Store.advance_of_read came
    exact ⟨k, within, some, rfl⟩

def Consumes (m : BufferM α) : Prop :=
  ∀ b v after, m b = .ok v after → ∃ k, 0 < k ∧ k ≤ b.upcoming.length ∧ after = b.advance k

section consumes

theorem Consumes.bind {m : BufferM α} {f : α → BufferM β} (first : Consumes m)
    [next : ∀ v, Forward (f v)] : Consumes (m >>= f) := by
  intro b w after run
  rw [bind_apply] at run
  cases began : m b with
  | error e b => rw [began] at run; cases run
  | ok v middle =>
    rw [began] at run
    obtain ⟨k, positive, within, rfl⟩ := first b v middle began
    obtain ⟨more, rest, rfl⟩ := (next v).advance_of_run _ after w run
    rw [upcoming_advance, List.length_drop] at rest
    exact ⟨k + more, by omega, by omega, advance_advance⟩

theorem advance_of_readUpTo {bytes : List UInt8} (run : readUpTo n b = .ok bytes after)
    (filled : bytes ≠ []) : ∃ k, 0 < k ∧ k ≤ b.upcoming.length ∧ after = b.advance k := by
  rw [readUpTo] at run
  split at run
  · cases run
    exact absurd rfl filled
  · rw [bind_apply] at run
    cases came : read n b with
    | error e b => rw [came] at run; cases run
    | ok delivered middle =>
      rw [came] at run
      obtain ⟨k, within, some, rfl⟩ := advance_of_read came
      dsimp only at run
      split at run
      · cases run
        exact absurd rfl filled
      · next there =>
        have positive : 0 < k := some fun empty => there (by rw [empty]; rfl)
        have rest : Forward (readUpTo (n - delivered.length) >>= fun rest =>
            (pure (delivered ++ rest) : BufferM (List UInt8))) := inferInstance
        obtain ⟨more, further, rfl⟩ := rest.advance_of_run _ after bytes run
        rw [upcoming_advance, List.length_drop] at further
        exact ⟨k + more, by omega, by omega, advance_advance⟩

theorem consumes_readExact (positive : 0 < n) : Consumes (readExact n) := by
  intro b bytes after run
  unfold readExact at run
  rw [bind_apply] at run
  cases came : readUpTo n b with
  | error e b => rw [came] at run; cases run
  | ok piece middle =>
    rw [came] at run
    by_cases short : piece.length < n
    · simp only [if_pos short] at run
      cases run
    · have filled : piece ≠ [] := List.ne_nil_of_length_pos (by omega)
      simp only [if_neg short] at run
      cases run
      exact advance_of_readUpTo came filled

theorem consumes_readByte : Consumes readByte := by
  have first : Consumes (readExact 1) := consumes_readExact Nat.one_pos
  exact first.bind (f := fun bytes => pure (bytes.headD 0))

theorem consumes_readUnsigned (bits : Nat) : Consumes (readUnsigned bits) := by
  rw [readUnsigned_eq]
  cases Varint.groupCount bits with
  | zero =>
    intro b v after run
    cases run
  | succ left =>
    unfold readGroups
    rw [bind_assoc]
    exact consumes_readByte.bind

theorem checkRoom_apply (itemSize length : Nat) (b : Buffer) :
    checkRoom itemSize length b =
      if b.store.available.any (· < needed length itemSize) then
        .error (.lengthExceedsInput length (b.store.available.getD 0)) b
      else .ok () b := by
  change (if b.store.available.any (· < needed length itemSize) then
    throw (.lengthExceedsInput length (b.store.available.getD 0)) else pure () : BufferM Unit) b = _
  split <;> rfl

theorem consumes_readLength (itemSize : Nat) : Consumes (readLength itemSize) := by
  have checks (length : Nat) : Forward (checkRoom itemSize length >>= fun _ => pure length) := by
    constructor
    intro b after v run
    rw [bind_apply, checkRoom_apply] at run
    by_cases short : b.store.available.any (· < needed length itemSize)
    · rw [if_pos short] at run
      cases run
    · rw [if_neg short] at run
      cases run
      exact ⟨0, Nat.zero_le _, advance_zero.symm⟩
  rw [readLength_eq]
  exact (consumes_readUnsigned 64).bind

end consumes

section within

def TellsRest (b : Buffer) : Prop := b.store.TellsRest

theorem TellsRest.advance (tells : b.TellsRest) (within : n ≤ b.upcoming.length) :
    (b.advance n).TellsRest := Store.TellsRest.advance tells within

section memory

variable {m : Memory} (memory : b.store = .memory m)
include memory

theorem read_memory (within : n ≤ b.upcoming.length) :
    read n b = .ok (b.upcoming.take n) (b.advance n) := by
  have run := Store.read_memory memory within
  obtain ⟨store, bits⟩ := b
  simp only [read, onStore, run]
  rfl

theorem readExact_memory (within : n ≤ b.upcoming.length) :
    readExact n b = .ok (b.upcoming.take n) (b.advance n) := by
  have all : (b.upcoming.take n).length = n := by
    rw [List.length_take]
    exact Nat.min_eq_left within
  have piece : readUpTo n b = .ok (b.upcoming.take n) (b.advance n) := by
    rw [readUpTo]
    by_cases zero : n = 0
    · subst zero
      rw [dif_pos rfl, advance_zero]
      rfl
    · have stop : readUpTo 0 = pure [] := by
        rw [readUpTo]
        rfl
      rw [dif_neg zero, bind_apply, read_memory memory within]
      simp only [all, zero, dite_false, Nat.sub_self, stop, pure_bind, List.append_nil]
      rfl
  have enough : ¬(b.upcoming.take n).length < n := by omega
  unfold readExact
  rw [bind_apply, piece]
  simp only [if_neg enough]
  rfl

theorem readRest_memory {got : Nat} (within : n - got ≤ b.upcoming.length) :
    readRest n got b = .ok (b.upcoming.take (n - got)) (b.advance (n - got)) := by
  -- Each chunk is read as it is, and what is missing lies within the rest.
  induction missing : n - got using Nat.strongRecOn generalizing b m got with
  | ind size ih =>
    rw [readRest]
    by_cases more : got < n
    · have least : min (n - got) chunkSize ≤ b.upcoming.length := by omega
      have length : (b.upcoming.take (min (n - got) chunkSize)).length = min (n - got) chunkSize := by
        rw [List.length_take]
        omega
      have positive : 0 < min (n - got) chunkSize := by
        simp only [chunkSize]
        omega
      have filled : ¬min (n - got) chunkSize = 0 := by omega
      have rest : n - (got + min (n - got) chunkSize) ≤
          (b.advance (min (n - got) chunkSize)).upcoming.length := by
        rw [upcoming_advance, List.length_drop]
        omega
      have further : (b.advance (min (n - got) chunkSize)).store =
          .memory { m with readPosition := m.readPosition + min (n - got) chunkSize } := by
        rw [advance, memory]
        rfl
      have tail := ih (n - (got + min (n - got) chunkSize)) (by omega) further rest rfl
      rw [dif_pos more, bind_apply, read_memory memory least]
      simp only [length, filled, dite_false]
      rw [bind_apply, tail, advance_advance, upcoming_advance, Nat.sub_add_eq, ← missing,
        Nat.add_sub_cancel' (Nat.min_le_left ..),
        ← take_append_take_drop _ _ (Nat.min_le_left (n - got) chunkSize) b.upcoming]
      rfl
    · have done : size = 0 := by omega
      rw [dif_neg more, done, advance_zero]
      rfl

end memory

theorem exactly_within (ending : Ending) {bytes : List UInt8} (within : n ≤ bytes.length) :
    exactly n 0 ending bytes = ⟨.ok (bytes.take n), n⟩ := by
  rw [exactly, if_neg (by omega), Nat.sub_zero]

theorem readExact_within (tells : b.TellsRest) (within : n ≤ b.upcoming.length) :
    readExact n b = .ok (b.upcoming.take n) (b.advance n) := by
  rcases Store.TellsRest.supplies_or_memory tells with supplies | ⟨m, memory⟩
  · rw [readExact_eq supplies, exactly_within _ within, conclude_ok]
  · exact readExact_memory memory within

theorem readByte_within (tells : b.TellsRest) {byte : UInt8} {rest : List UInt8}
    (starts : b.upcoming = byte :: rest) : readByte b = .ok byte (b.advance 1) := by
  have within : 1 ≤ b.upcoming.length := by
    rw [starts, List.length_cons]
    omega
  unfold readByte
  rw [bind_apply, readExact_within tells within, starts]
  rfl

theorem readBytes_within (tells : b.TellsRest) (within : n ≤ b.upcoming.length) :
    readBytes n b = .ok (b.upcoming.take n) (b.advance n) := by
  rcases Store.TellsRest.supplies_or_memory tells with supplies | ⟨m, memory⟩
  · rw [readBytes_eq supplies, exactly_within _ within, conclude_ok]
  · exact readRest_memory memory within

theorem room_of_readLength (tells : b.TellsRest) {itemSize : Nat}
    (run : readLength itemSize b = .ok n after) :
    after.TellsRest ∧ n < Word.count 64 ∧ needed n itemSize ≤ after.upcoming.length := by
  rw [readLength_eq, bind_apply] at run
  cases came : readUnsigned 64 b with
  | error e middle => rw [came] at run; cases run
  | ok length middle =>
    obtain ⟨k, within, rfl⟩ := Forward.advance_of_run b middle length came
    have further := tells.advance within
    have rest : (b.advance k).store.available = some (b.advance k).upcoming.length := by
      rw [further, Store.unread_eq]
      rfl
    rw [came] at run
    simp only [bind_apply, checkRoom_apply, rest, Option.any_some, decide_eq_true_eq] at run
    by_cases short : (b.advance k).upcoming.length < needed length itemSize
    · rw [if_pos short] at run
      cases run
    · rw [if_neg short] at run
      cases run
      exact ⟨further, lt_of_readUnsigned came, Nat.le_of_not_lt short⟩

end within

end Buffer

end BinaryCodec
