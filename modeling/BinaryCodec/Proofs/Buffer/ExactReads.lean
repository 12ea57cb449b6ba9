import BinaryCodec.Proofs.Buffer.Chunking
import BinaryCodec.Proofs.Buffer.ZeroFill

namespace BinaryCodec

theorem Store.Placed.reads {s : Store} (placed : s.Placed)
    (progress : ∀ r, s = .reader r → ∀ place, 0 < r.limit place) :
    s.Fills ∨ ¬s.Fills ∧ (s.Supplies ∨ ∃ e, ∀ n, s.read n = .error e s) := by
  cases s with
  | memory m =>
    cases mode : m.mode with
    | short => exact .inr ⟨fun fills => (nomatch mode.symm.trans fills), .inl mode⟩
    | zeroFill => exact .inl mode
  | slice s => exact .inr ⟨id, .inl True.intro⟩
  | reader r => exact .inr ⟨id, .inl (progress r rfl)⟩
  | seekable s => exact .inr ⟨id, .inl True.intro⟩
  | writer w => exact .inr ⟨id, .inr ⟨_, fun _ => rfl⟩⟩
  | file f =>
    refine .inr ⟨id, ?_⟩
    obtain ⟨content, reading, writing, readOnly, isOpen⟩ := f
    cases isOpen with
    | true => exact .inl rfl
    | false => exact .inr ⟨_, fun _ => rfl⟩

namespace Buffer

variable {b : Buffer}

section refused

variable {e : Error} (refused : ∀ n, b.store.read n = .error e b.store)
include refused

theorem read_refused (n : Nat) : read n b = .error e b := by
  simp only [read, onStore, refused]

theorem readExact_refused (n : Nat) :
    readExact n b = if n = 0 then .ok [] b else .error e b := by
  simp only [readExact]
  rw [bind_apply, readUpTo]
  by_cases zero : n = 0
  · subst zero
    rfl
  · rw [dif_neg zero, if_neg zero, bind_apply, read_refused refused]

theorem readBytes_refused (n : Nat) :
    readBytes n b = if n = 0 then .ok [] b else .error e b := by
  rw [readBytes, readRest]
  by_cases zero : n = 0
  · subst zero
    rfl
  · rw [dif_pos (Nat.pos_of_ne_zero zero), if_neg zero, bind_apply, read_refused refused]

end refused

section fills

variable {n : Nat} (fills : b.store.Fills)
include fills

theorem readBytes_fills :
    readBytes n b =
      if n ≤ chunked b.upcoming.length then
        .ok (filled n b.upcoming) (b.advance (min n b.upcoming.length))
      else .error (.endOfData n (chunked b.upcoming.length)) (b.advance b.upcoming.length) := by
  have run := readRest_fills fills n 0
  rwa [Nat.sub_zero, Nat.zero_add] at run

theorem readExact_beyond (some : b.upcoming ≠ []) (beyond : b.upcoming.length ≤ n) :
    readExact n b = .ok (filled n b.upcoming) (b.advance b.upcoming.length) := by
  rw [readExact_fills fills, if_neg fun ⟨empty, _⟩ => some empty, Nat.min_eq_right beyond]

theorem readExact_eq_readBytes_inside (inside : b.upcoming ≠ [] → n ≤ chunked b.upcoming.length) :
    readExact n b = readBytes n b := by
  rw [readExact_fills fills, readBytes_fills fills]
  by_cases empty : b.upcoming = []
  · by_cases zero : n = 0
    · simp only [zero, Nat.lt_irrefl, and_false, if_false, Nat.zero_le, if_true]
    · have positive : 0 < n := Nat.pos_of_ne_zero zero
      have beyond : ¬n ≤ chunked 0 := Nat.not_le_of_lt positive
      simp only [empty, positive, and_self, if_true, List.length_nil, if_neg beyond, advance_zero]
      rfl
  · simp only [empty, false_and, if_false, if_pos (inside empty)]

end fills

/-- Exact reads at once and chunk by chunk come to the same, except that past the last chunk that holds any
content of a memory that fills reads up the one gives zeros and the other an end. -/
theorem readExact_eq_readBytes_iff {b : Buffer} (reached : b.Reached)
    (progress : ∀ r, b.store = .reader r → ∀ place, 0 < r.limit place) (n : Nat) :
    let last := chunked b.upcoming.length
    let after := b.advance b.upcoming.length
    let outruns := b.store.Fills ∧ b.upcoming ≠ [] ∧ last < n
    (readExact n b = readBytes n b ↔ ¬outruns) ∧
      (outruns → readExact n b = .ok (filled n b.upcoming) after ∧
        readBytes n b = .error (.endOfData n last) after) ∧
      ∀ c, Recut b c → SameOutcome (readExact n b) (readBytes n c) := by
  intro last after outruns
  have beyond (outrun : outruns) :
      readExact n b = .ok (filled n b.upcoming) after ∧
        readBytes n b = .error (.endOfData n last) after := by
    obtain ⟨fills, some, further⟩ := outrun
    have longer : b.upcoming.length ≤ last := le_chunked _
    refine ⟨readExact_beyond fills some (by omega), ?_⟩
    rw [readBytes_fills fills, if_neg (Nat.not_le_of_lt further)]
  have same (inside : ¬outruns) : readExact n b = readBytes n b := by
    rcases reached.placed.reads progress with fills | ⟨-, supplies | ⟨e, refused⟩⟩
    · exact readExact_eq_readBytes_inside fills fun some =>
        Nat.le_of_not_lt fun further => inside ⟨fills, some, further⟩
    · rw [readExact_eq supplies, readBytes_eq supplies]
    · rw [readExact_refused refused, readBytes_refused refused]
  refine ⟨⟨fun equal outrun => ?_, same⟩, beyond, fun c recut => ?_⟩
  · obtain ⟨whole, failed⟩ := beyond outrun
    rw [whole, failed] at equal
    cases equal
  · have streamed : ¬outruns := by
      rintro ⟨fills, -⟩
      cases recut
      exact fills
    rw [same streamed]
    exact Indifferent.run b c recut

theorem readExact_eq_readBytes_iff_lastTwo :
    lastTwo.Reached ∧ (∀ r, lastTwo.store = .reader r → ∀ place, 0 < r.limit place) ∧
      readExact 4096 lastTwo = readBytes 4096 lastTwo ∧
      readExact 4097 lastTwo ≠ readBytes 4097 lastTwo := by
  have reached : lastTwo.Reached := Reached.afterAll (.opened (.memory [96, 97, 98] .zeroFill)) _
  have progress (r : Reader) (same : lastTwo.store = .reader r) : ∀ place, 0 < r.limit place := by
    cases same
  obtain ⟨agrees, -, -⟩ := readExact_eq_readBytes_iff reached progress 4096
  obtain ⟨differs, -, -⟩ := readExact_eq_readBytes_iff reached progress 4097
  refine ⟨reached, progress, agrees.mpr fun ⟨_, _, further⟩ => ?_, fun equal => ?_⟩
  · exact absurd further (by decide)
  · exact differs.mp equal ⟨rfl, by decide, by decide⟩

/-- One byte in a memory that fills reads up is enough for any number of them at once, but not for more than
a chunk of them one after another. -/
theorem readBytes_stops_in_padding :
    let b := ofStore (.memory (.ofList [7] .zeroFill))
    readExact 4097 b = .ok ([7] ++ List.replicate 4096 0) (b.advance 1) ∧
      readBytes 4097 b = .error (.endOfData 4097 4096) (b.advance 1) := by
  intro b
  have fills : b.store.Fills := rfl
  have some : b.upcoming ≠ [] := by decide
  have short : b.upcoming.length ≤ 4097 := by decide
  have bytes : filled 4097 b.upcoming = [7] ++ List.replicate 4096 0 := filled_eq_append short
  have beyond : ¬4097 ≤ chunked b.upcoming.length := by decide
  constructor
  · rw [readExact_beyond fills some short, bytes]
    rfl
  · rw [readBytes_fills fills, if_neg beyond]
    rfl

end Buffer

end BinaryCodec
