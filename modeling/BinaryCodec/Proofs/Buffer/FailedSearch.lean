import BinaryCodec.Proofs.Buffer.Search

namespace BinaryCodec

namespace Buffer

variable {b after : Buffer} {needle : List UInt8} {e : Error} {start : Nat}

theorem seekRead_error {position : Nat} (failed : seekRead position b = .error e after) : after = b := by
  obtain ⟨store, bits⟩ := b
  have same {s : Store} (refused : store.seekRead position = .error e s) : s = store := by
    cases store with
    | memory m | slice m | seekable m | file m =>
      simp only [Store.seekRead, Store.move] at refused
      split at refused <;> cases refused
      rfl
    | reader r | writer w =>
      cases refused
      rfl
  simp only [seekRead, onStore] at failed
  cases came : store.seekRead position <;> rw [came] at failed <;> cases failed
  rw [same came]

theorem find_error (supplies : b.Supplies) (begins : b.store.readPosition = .ok start)
    (filled : needle ≠ []) (failed : find needle b = .error e after) :
    ∃ k, after = b.advance k ∧ k ≤ b.upcoming.length ∧ (b.upcoming ≠ [] → 0 < k) := by
  obtain ⟨k, within, moved, came | ⟨fault, -, came⟩⟩ := searchChunks_cases [] start supplies
    (Nat.lt_succ_self b.upcoming.length) (List.length_pos_iff.mpr filled)
  · rw [find_apply begins filled, came] at failed
    cases back : seekRead start (b.advance k) with
    | ok _ there => simp only [back, reduceCtorEq] at failed
    | error reported there =>
      simp only [back] at failed
      cases failed
      exact ⟨k, seekRead_error back, within, moved⟩
  · rw [find_apply begins filled, came] at failed
    cases failed
    exact ⟨k, rfl, within, moved⟩

/-- Buffers over a stream that something else holds, which may fail at any place. -/
inductive Streamed : Buffer → Prop
  | reader {r : Reader} (bits : PendingBits) (delivers : ∀ position, 0 < r.limit position) :
      Streamed ⟨.reader r, bits⟩
  | seekable (s : SeekableReader) (bits : PendingBits) : Streamed ⟨.seekable s, bits⟩

theorem Streamed.supplies (streamed : Streamed b) : b.Supplies := by
  cases streamed with
  | reader bits delivers => exact delivers
  | seekable s bits => exact True.intro

theorem Streamed.begins (streamed : Streamed b) : ∃ start, b.store.readPosition = .ok start := by
  cases streamed <;> exact ⟨_, rfl⟩

/-- A search that fails leaves the read cursor and what is upcoming as they were exactly when there was
nothing to read. -/
theorem find_failed_iff {b after : Buffer} (streamed : Streamed b) {needle : List UInt8} {e : Error}
    (failed : find needle b = .error e after) :
    (after.store.readPosition = b.store.readPosition ∧ after.upcoming = b.upcoming) ↔
      b.upcoming = [] := by
  obtain ⟨start, begins⟩ := streamed.begins
  have filled : needle ≠ [] := by
    rintro rfl
    rw [find_nil begins] at failed
    cases failed
  obtain ⟨k, rfl, within, moved⟩ := find_error streamed.supplies begins filled failed
  constructor
  · rintro ⟨-, same⟩
    by_contra filled
    have shorter := congrArg List.length same
    rw [upcoming_advance, List.length_drop] at shorter
    have := moved filled
    omega
  · intro empty
    rw [empty] at within
    obtain rfl : k = 0 := Nat.le_zero.mp within
    rw [advance_zero]
    exact ⟨rfl, rfl⟩

/-- A reader over three bytes that has delivered `position` of them. -/
def threeBytes (position : Nat) : Buffer :=
  ofStore (.reader ⟨#[97, 98, 99], fun _ => 4096, none, position⟩)

theorem supplies_threeBytes (position : Nat) : (threeBytes position).Supplies := fun _ =>
  Nat.zero_lt_succ 4095

theorem find_failed_iff_midway :
    Streamed (threeBytes 1) ∧
      find [99] (threeBytes 1) = .error (.unsupported .reader .seek) (threeBytes 3) ∧
      ¬((threeBytes 3).store.readPosition = (threeBytes 1).store.readPosition ∧
        (threeBytes 3).upcoming = (threeBytes 1).upcoming) := by
  have delivers := supplies_threeBytes 1
  have streamed : Streamed (threeBytes 1) := .reader _ delivers
  have failed : find [99] (threeBytes 1) = .error (.unsupported .reader .seek) (threeBytes 3) := by
    rw [find_apply rfl (by decide), searchChunks_chunk delivers (by decide) fun _ => rfl]
    rfl
  have lost : (threeBytes 1).upcoming ≠ [] := by decide
  exact ⟨streamed, failed, fun kept => lost ((find_failed_iff streamed failed).mp kept)⟩

/-- The search reads on to the end, and the bytes that it read are gone. -/
theorem find_loses_bytes :
    (threeBytes 0).store.readPosition = .ok 0 ∧ (threeBytes 0).upcoming = [97, 98, 99] ∧
      find [98] (threeBytes 0) = .error (.unsupported .reader .seek) (threeBytes 3) ∧
      (threeBytes 3).store.readPosition = .ok 3 ∧ (threeBytes 3).upcoming = [] := by
  refine ⟨rfl, rfl, ?_, rfl, rfl⟩
  rw [find_apply rfl (by decide),
    searchChunks_chunk (supplies_threeBytes 0) (by decide) fun _ => rfl]
  rfl

end Buffer

end BinaryCodec
