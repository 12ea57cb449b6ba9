import BinaryCodec.Proofs.Buffer.Search

namespace BinaryCodec

def chunked (length : Nat) : Nat :=
  length + (Buffer.chunkSize - length % Buffer.chunkSize) % Buffer.chunkSize

theorem le_chunked (length : Nat) : length ≤ chunked length := Nat.le_add_right ..

theorem chunked_eq_add {length : Nat} (positive : 0 < length) :
    chunked length = Buffer.chunkSize + chunked (length - Buffer.chunkSize) := by
  simp only [chunked, Buffer.chunkSize]
  omega

theorem sub_le_chunked_iff {length : Nat} (positive : 0 < length) (m : Nat) :
    m - min m Buffer.chunkSize ≤ chunked (length - min m Buffer.chunkSize) ↔ m ≤ chunked length := by
  have chunks := chunked_eq_add positive
  rcases Nat.le_total m Buffer.chunkSize with within | beyond
  · omega
  · rw [Nat.min_eq_right beyond]
    omega

theorem chunked_eq_self_iff {length : Nat} : chunked length = length ↔ Buffer.chunkSize ∣ length := by
  simp only [chunked, Buffer.chunkSize]
  omega

variable {bytes : List UInt8} {k n : Nat}

/-- The first `n` bytes, with zeros for those that are missing. -/
def filled (n : Nat) (bytes : List UInt8) : List UInt8 := (bytes.take n).rightpad n 0

def padded (bytes : List UInt8) : List UInt8 := filled (chunked bytes.length) bytes

@[simp] theorem length_filled (n : Nat) (bytes : List UInt8) : (filled n bytes).length = n := by
  simp only [filled, List.rightpad, List.length_append, List.length_replicate, List.length_take]
  omega

theorem filled_eq_append (within : bytes.length ≤ n) :
    filled n bytes = bytes ++ List.replicate (n - bytes.length) 0 := by
  rw [filled, List.take_of_length_le within, List.rightpad]

theorem filled_ne_nil (positive : 0 < n) (bytes : List UInt8) : filled n bytes ≠ [] := by
  rw [← List.length_pos_iff, length_filled]
  exact positive

theorem filled_cut (within : k ≤ n) (bytes : List UInt8) :
    filled n bytes = filled k bytes ++ filled (n - k) (bytes.drop k) := by
  ext i : 1
  simp only [filled, List.rightpad, List.getElem?_append, List.getElem?_take, List.getElem?_replicate,
    List.getElem?_drop, List.length_append, List.length_take, List.length_drop, List.length_replicate]
  grind

theorem padded_cut (some : bytes ≠ []) :
    padded bytes = filled Buffer.chunkSize bytes ++ padded (bytes.drop Buffer.chunkSize) := by
  rw [padded, chunked_eq_add (List.length_pos_iff.mpr some), filled_cut (Nat.le_add_right ..),
    Nat.add_sub_cancel_left, padded, List.length_drop]

theorem padded_eq_append (bytes : List UInt8) :
    padded bytes = bytes ++ List.replicate (chunked bytes.length - bytes.length) 0 :=
  filled_eq_append (le_chunked _)

theorem padded_eq_self_iff : padded bytes = bytes ↔ Buffer.chunkSize ∣ bytes.length := by
  have longer := le_chunked bytes.length
  rw [← chunked_eq_self_iff, padded_eq_append, List.append_right_eq_self, List.replicate_eq_nil_iff]
  omega

namespace Store

variable {s : Store}

def Fills : Store → Prop
  | .memory m => m.mode = .zeroFill
  | _ => False

theorem Fills.advance (fills : s.Fills) (n : Nat) : (s.advance n).Fills := by
  cases s with
  | memory m => exact fills
  | _ => exact fills.elim

theorem Fills.read_end (fills : s.Fills) (empty : s.upcoming = []) (n : Nat) : s.read n = .ok [] s := by
  cases s with
  | memory m =>
    obtain ⟨content, reading, writing, mode⟩ := m
    obtain rfl : mode = .zeroFill := fills
    have none : content.piece reading n = [] := by
      rw [Content.piece_eq, show content.toList.drop reading = [] from empty, List.take_nil]
    simp only [read, Memory.read, none]
    rfl
  | _ => exact fills.elim

theorem Fills.read_some (fills : s.Fills) (some : s.upcoming ≠ []) {n : Nat} (positive : 0 < n) :
    s.read n = .ok (filled n s.upcoming) (s.advance (min n s.upcoming.length)) := by
  cases s with
  | memory m =>
    obtain ⟨content, reading, writing, mode⟩ := m
    obtain rfl : mode = .zeroFill := fills
    simp only [read, Memory.read, Content.piece_eq, upcoming, filled, ← List.length_take]
    obtain ⟨x, rest, same⟩ := List.exists_cons_of_ne_nil some
    obtain ⟨k, rfl⟩ := Nat.exists_eq_succ_of_ne_zero (Nat.ne_of_gt positive)
    rw [show content.toList.drop reading = x :: rest from same]
    rfl
  | _ => exact fills.elim

theorem Fills.seekRead_advance (fills : s.Fills) {r : Nat} (begins : s.readPosition = .ok r)
    (placed : s.Placed) (k : Nat) : (s.advance k).seekRead r = .ok () s := by
  cases s with
  | memory m =>
    cases begins
    have back := move_checkPosition (.memory { m with readPosition := m.readPosition + k }) .memory
      (fun place => { m with readPosition := place }) m.readPosition m.content.size
    rwa [if_pos placed.1] at back
  | _ => exact fills.elim

/-- The store with a memory's reads past the end in the given mode. -/
def inMode (mode : ReadMode) : Store → Store
  | .memory m => .memory { m with mode }
  | s => s

@[simp] theorem upcoming_inMode {mode : ReadMode} : (s.inMode mode).upcoming = s.upcoming := by
  cases s <;> rfl

@[simp] theorem stored_inMode {mode : ReadMode} : (s.inMode mode).stored = s.stored := by
  cases s <;> rfl

@[simp] theorem readPosition_inMode {mode : ReadMode} : (s.inMode mode).readPosition = s.readPosition := by
  cases s <;> rfl

theorem Fills.seeks_inMode (fills : s.Fills) : (s.inMode .short).Seeks := by
  cases s with
  | memory m => rfl
  | _ => exact fills.elim

theorem Fills.position_le (fills : s.Fills) {r : Nat} (begins : s.readPosition = .ok r) (placed : s.Placed) :
    r ≤ s.stored.size := by
  cases s with
  | memory m =>
    cases begins
    exact placed.1
  | _ => exact fills.elim

end Store

namespace Buffer

variable {b : Buffer} (fills : b.store.Fills)
include fills

theorem read_end (empty : b.upcoming = []) (n : Nat) : read n b = .ok [] b := by
  obtain ⟨store, bits⟩ := b
  simp only [read, onStore, Store.Fills.read_end fills empty]

theorem read_some (some : b.upcoming ≠ []) {n : Nat} (positive : 0 < n) :
    read n b = .ok (filled n b.upcoming) (b.advance (min n b.upcoming.length)) := by
  obtain ⟨store, bits⟩ := b
  simp only [read, onStore, Store.Fills.read_some fills some positive]
  rfl

theorem readUpTo_fills (n : Nat) :
    readUpTo n b =
      .ok (if b.upcoming = [] then [] else filled n b.upcoming)
        (b.advance (min n b.upcoming.length)) := by
  have done (b : Buffer) : readUpTo 0 b = .ok [] b := by
    rw [readUpTo]
    rfl
  by_cases zero : n = 0
  · subst zero
    rw [done, Nat.zero_min, advance_zero, List.eq_nil_of_length_eq_zero (length_filled 0 b.upcoming), ite_self]
  rw [readUpTo, dif_neg zero, bind_apply]
  by_cases empty : b.upcoming = []
  · rw [read_end fills empty, if_pos empty, empty, List.length_nil, Nat.min_zero, advance_zero]
    rfl
  · rw [read_some fills empty (Nat.pos_of_ne_zero zero), if_neg empty]
    simp only [length_filled, zero, dite_false, Nat.sub_self, bind_apply, done]
    rw [List.append_nil]
    rfl

theorem readChunks_fills {fuel : Nat} (enough : b.upcoming.length < fuel) :
    readChunks fuel b = .ok (padded b.upcoming) (b.advance b.upcoming.length) := by
  induction fuel generalizing b with
  | zero => omega
  | succ fuel ih =>
    simp only [readChunks]
    by_cases empty : b.upcoming = []
    · rw [bind_apply, read_end fills empty, empty, List.length_nil, advance_zero]
      rfl
    · have some := List.length_pos_iff.mpr empty
      have positive : 0 < chunkSize := by decide
      have more : (filled chunkSize b.upcoming).isEmpty = false :=
        List.isEmpty_eq_false_iff.mpr (filled_ne_nil positive _)
      have left : (b.advance (min chunkSize b.upcoming.length)).upcoming = _ := upcoming_piece chunkSize
      have fewer : (b.advance (min chunkSize b.upcoming.length)).upcoming.length < fuel := by
        rw [left, List.length_drop]
        omega
      have all : min chunkSize b.upcoming.length + (b.upcoming.length - chunkSize) = b.upcoming.length := by
        omega
      rw [bind_apply, read_some fills empty positive]
      simp only [more, Bool.false_eq_true, if_false, bind_apply, ih (fills.advance _) fewer, left,
        advance_advance, List.length_drop, all]
      rw [padded_cut empty]
      rfl

theorem readRest_piece (some : b.upcoming ≠ []) {n got : Nat} (more : got < n) :
    let piece := min (n - got) chunkSize
    readRest n got b =
      (readRest n (got + piece) >>= fun rest => pure (filled piece b.upcoming ++ rest))
        (b.advance (min piece b.upcoming.length)) := by
  intro piece
  have positive : 0 < piece := Nat.lt_min.mpr ⟨by omega, by decide⟩
  rw [readRest, dif_pos more, bind_apply, read_some fills some positive]
  simp only [length_filled]
  rw [dif_neg (Nat.ne_of_gt positive)]

theorem readRest_fills (n got : Nat) :
    readRest n got b =
      if n - got ≤ chunked b.upcoming.length then
        .ok (filled (n - got) b.upcoming) (b.advance (min (n - got) b.upcoming.length))
      else
        .error (.endOfData n (got + chunked b.upcoming.length)) (b.advance b.upcoming.length) := by
  induction missing : n - got using Nat.strongRecOn generalizing b got with
  | ind m ih =>
    by_cases more : got < n
    · by_cases empty : b.upcoming = []
      · have beyond : ¬m ≤ chunked 0 := by
          rw [show chunked 0 = 0 from rfl]
          omega
        rw [readRest, dif_pos more, bind_apply, read_end fills empty, empty, List.length_nil, if_neg beyond,
          advance_zero]
        rfl
      · have some := List.length_pos_iff.mpr empty
        have chunks := chunked_eq_add some
        have again := sub_le_chunked_iff some m
        have piece : min m chunkSize ≤ m := Nat.min_le_left ..
        have positive : 0 < min m chunkSize := Nat.lt_min.mpr ⟨by omega, by decide⟩
        have left : (b.advance (min (min m chunkSize) b.upcoming.length)).upcoming = _ :=
          upcoming_piece (min m chunkSize)
        rw [readRest_piece fills empty more, missing, bind_apply,
          ih (m - min m chunkSize) (by omega) (fills.advance _) (got + min m chunkSize) (by omega), left,
          List.length_drop]
        by_cases enough : m ≤ chunked b.upcoming.length
        · have all : min (min m chunkSize) b.upcoming.length +
              min (m - min m chunkSize) (b.upcoming.length - min m chunkSize) =
                min m b.upcoming.length := by
            omega
          simp only [if_pos enough, if_pos (again.mpr enough), advance_advance, all]
          rw [filled_cut piece b.upcoming]
          rfl
        · have chunk : min m chunkSize = chunkSize := by omega
          have total : got + chunkSize + chunked (b.upcoming.length - chunkSize) =
              got + chunked b.upcoming.length := by
            omega
          have all : min chunkSize b.upcoming.length + (b.upcoming.length - chunkSize) =
              b.upcoming.length := by
            omega
          rw [if_neg enough, if_neg fun within => enough (again.mp within)]
          simp only [chunk, advance_advance, total, all]
    · have done : m = 0 := by omega
      subst done
      rw [readRest, dif_neg more, if_pos (Nat.zero_le _), Nat.zero_min, advance_zero,
        List.eq_nil_of_length_eq_zero (length_filled 0 b.upcoming)]
      rfl

theorem readExact_fills (n : Nat) :
    readExact n b =
      if b.upcoming = [] ∧ 0 < n then .error (.endOfData n 0) b
      else .ok (filled n b.upcoming) (b.advance (min n b.upcoming.length)) := by
  simp only [readExact]
  rw [bind_apply, readUpTo_fills fills]
  by_cases empty : b.upcoming = []
  · by_cases positive : 0 < n
    · simp only [empty, positive, if_true, and_self, List.length_nil, Nat.min_zero, advance_zero]
      rfl
    · obtain rfl : n = 0 := Nat.eq_zero_of_not_pos positive
      simp only [empty, Nat.lt_irrefl, and_false, if_true, if_false, List.length_nil]
      rfl
  · simp only [empty, false_and, if_false, length_filled, Nat.lt_irrefl]
    rfl

theorem readRemainder_fills :
    readRemainder b = .ok (padded b.upcoming) (b.advance b.upcoming.length) := by
  simp only [readRemainder]
  rw [bind_apply, unread_apply]
  exact readChunks_fills fills (Nat.lt_succ_self _)

variable {needle : List UInt8} {fuel : Nat}

theorem searchChunks_fills (window : List UInt8) (start : Nat) (enough : b.upcoming.length < fuel)
    (short : window.length < needle.length) :
    ∃ k, searchChunks needle fuel window start b =
      .ok ((firstMatch? needle (window ++ padded b.upcoming)).map (start + ·)) (b.advance k) := by
  have needed : needle ≠ [] := List.ne_nil_of_length_pos (by omega)
  -- As for `searchChunks_cases`: a window that is shorter than the needle has no match.
  induction fuel generalizing b window start with
  | zero => omega
  | succ fuel ih =>
    have chunk := readUpTo_fills fills chunkSize
    by_cases empty : b.upcoming = []
    · refine ⟨0, ?_⟩
      rw [if_pos empty, empty, List.length_nil, Nat.min_zero, advance_zero] at chunk
      simp only [searchChunks]
      rw [bind_apply, chunk, empty, show padded [] = [] from rfl, List.append_nil, firstMatch?_of_short short,
        advance_zero]
      rfl
    · have some := List.length_pos_iff.mpr empty
      have positive : 0 < chunkSize := by decide
      have more := filled_ne_nil positive b.upcoming
      rw [if_neg empty] at chunk
      rw [searchChunks_read chunk more, padded_cut empty, ← List.append_assoc]
      generalize window ++ filled chunkSize b.upcoming = window
      cases found : firstMatch? needle window with
      | some i =>
        refine ⟨min chunkSize b.upcoming.length, ?_⟩
        rw [firstMatch?_append found]
        simp only [found]
        rfl
      | none =>
        have rest : (b.advance (min chunkSize b.upcoming.length)).upcoming = _ := upcoming_piece chunkSize
        have left : (b.advance (min chunkSize b.upcoming.length)).upcoming.length < fuel := by
          rw [rest, List.length_drop]
          omega
        obtain ⟨k, came⟩ := ih (fills.advance _) (window.drop (passed needle window))
          (start + passed needle window) left (length_drop_passed needed)
        refine ⟨min chunkSize b.upcoming.length + k, ?_⟩
        rw [rest, advance_advance] at came
        simp only [found]
        rw [firstMatch?_window_from found]
        exact came

section position

variable {r : Nat} (begins : b.store.readPosition = .ok r) (placed : b.store.Placed)
include begins placed

theorem seekRead_advance (k : Nat) : seekRead r (b.advance k) = .ok () b := by
  obtain ⟨store, bits⟩ := b
  have back : (store.advance k).seekRead r = .ok () store := fills.seekRead_advance begins placed k
  simp only [seekRead, onStore, advance, back]

theorem find_fills (needle : List UInt8) :
    find needle b = .ok ((firstMatch? needle (padded b.upcoming)).map (r + ·)) b := by
  by_cases empty : needle = []
  · have first : firstMatch? [] (padded b.upcoming) = some 0 := by
      cases padded b.upcoming <;> rfl
    rw [empty, find_nil begins, first]
    rfl
  · obtain ⟨k, came⟩ := searchChunks_fills fills [] r (Nat.lt_succ_self _) (List.length_pos_iff.mpr empty)
    rw [find_apply begins empty, came]
    simp only [seekRead_advance fills begins placed]
    rfl

end position

omit fills

def inMode (mode : ReadMode) (b : Buffer) : Buffer := ⟨b.store.inMode mode, b.bits⟩

@[simp] theorem upcoming_inMode {mode : ReadMode} : (b.inMode mode).upcoming = b.upcoming :=
  Store.upcoming_inMode

theorem readRemainder_inMode (fills : b.store.Fills) :
    readRemainder (b.inMode .short) =
      .ok b.upcoming ((b.inMode .short).advance b.upcoming.length) := by
  have seeks : (b.inMode .short).store.Seeks := fills.seeks_inMode
  rw [performs_readRemainder.run _ seeks.delivers, whole_of_live (live_of_seeks seeks), conclude_ok,
    upcoming_inMode]

theorem find_inMode (fills : b.store.Fills) {r : Nat} (begins : b.store.readPosition = .ok r)
    (placed : b.store.Placed) (needle : List UInt8) :
    find needle (b.inMode .short) =
      .ok ((firstMatch? needle b.upcoming).map (r + ·)) (b.inMode .short) := by
  have seeks : (b.inMode .short).store.Seeks := fills.seeks_inMode
  have same : (b.inMode .short).store.readPosition = .ok r := Store.readPosition_inMode.trans begins
  have within : r ≤ (b.inMode .short).store.stored.size := by
    rw [show (b.inMode .short).store.stored = b.store.stored from Store.stored_inMode]
    exact fills.position_le begins placed
  have upcoming : (b.inMode .short).upcoming = _ := seeks.upcoming_eq same
  rw [find_eq same seeks within, firstMatchFrom?, ← upcoming, upcoming_inMode]

theorem firstMatch?_padded_iff (needle bytes : List UInt8) :
    firstMatch? needle (padded bytes) = firstMatch? needle bytes ↔
      (∃ i, StandsAt needle bytes i) ∨ ∀ i, ¬StandsAt needle (padded bytes) i := by
  rcases firstMatch?_cases needle bytes with ⟨i, found, first⟩ | ⟨found, nowhere⟩
  · rw [padded_eq_append, firstMatch?_append found, found]
    exact ⟨fun _ => .inl ⟨i, first.1⟩, fun _ => rfl⟩
  · rw [found, firstMatch?_eq_none_iff]
    exact ⟨.inr, fun either => either.resolve_left fun ⟨i, stands⟩ => nowhere i stands⟩

def Locates (needle bytes : List UInt8) (r : Nat) (found : Option Nat) : Prop :=
  (∀ i, found = some (r + i) ↔ IsLeast {i | StandsAt needle bytes i} i) ∧
    (found = none ↔ ∀ i, ¬StandsAt needle bytes i)

theorem map_add_injective (r : Nat) : Function.Injective (Option.map (r + ·)) :=
  Option.map_injective fun _ _ => Nat.add_left_cancel

theorem locates_firstMatch? (needle bytes : List UInt8) (r : Nat) :
    Locates needle bytes r ((firstMatch? needle bytes).map (r + ·)) := by
  constructor
  · intro i
    rw [← firstMatch?_eq_some_iff, ← Option.map_some]
    exact (map_add_injective r).eq_iff
  · rw [Option.map_eq_none_iff, firstMatch?_eq_none_iff]

/-- Where a memory fills reads up with zeros, those that complete the last chunk are read and searched as if
they were content. -/
theorem padding_as_content {b : Buffer} (reached : b.Reached) (fills : b.store.Fills) {r : Nat}
    (begins : b.store.readPosition = .ok r) (needle : List UInt8) :
    let short := b.inMode .short
    readRemainder short = .ok b.upcoming (short.advance b.upcoming.length) ∧
      readRemainder b = .ok (padded b.upcoming) (b.advance b.upcoming.length) ∧
      (padded b.upcoming = b.upcoming ↔ chunkSize ∣ b.upcoming.length) ∧
      ∃ real found, find needle short = .ok real short ∧ Locates needle b.upcoming r real ∧
        find needle b = .ok found b ∧ Locates needle (padded b.upcoming) r found ∧
        (found = real ↔ (∃ i, StandsAt needle b.upcoming i) ∨ found = none) := by
  have placed := reached.placed
  have located := locates_firstMatch? needle (padded b.upcoming) r
  refine ⟨readRemainder_inMode fills, readRemainder_fills fills, padded_eq_self_iff, _, _,
    find_inMode fills begins placed needle, locates_firstMatch? needle b.upcoming r,
    find_fills fills begins placed needle, located, ?_⟩
  rw [located.2, ← firstMatch?_padded_iff]
  exact (map_add_injective r).eq_iff

/-- A memory over three bytes that fills reads up, with one of them read. -/
def lastTwo : Buffer := afterAll [.call (.seekRead 1)] (ofStore (.memory (.ofList [96, 97, 98] .zeroFill)))

theorem padded_lastTwo : padded [97, 98] = [97, 98] ++ List.replicate 4094 0 := padded_eq_append _

theorem firstMatch?_lastTwo : firstMatch? [98, 0] (padded [97, 98]) = some 1 := by
  rw [padded_lastTwo, List.replicate_succ]
  rfl

theorem padding_as_content_lastTwo :
    lastTwo.Reached ∧ lastTwo.store.Fills ∧ lastTwo.store.readPosition = .ok 1 ∧
      readRemainder lastTwo = .ok ([97, 98] ++ List.replicate 4094 0) (lastTwo.advance 2) ∧
      find [98, 0] lastTwo = .ok (some 2) lastTwo ∧
      find [98, 0] (lastTwo.inMode .short) = .ok none (lastTwo.inMode .short) := by
  have reached : lastTwo.Reached := Reached.afterAll (.opened (.memory [96, 97, 98] .zeroFill)) _
  have upcoming : lastTwo.upcoming = [97, 98] := rfl
  obtain ⟨-, whole, -, real, found, shortly, missed, run, located, -⟩ :=
    padding_as_content reached rfl rfl [98, 0]
  rw [upcoming] at whole missed located
  rw [padded_lastTwo] at whole
  have two : found = some 2 := (located.1 1).mpr (firstMatch?_eq_some_iff.mp firstMatch?_lastTwo)
  have none : real = none := missed.2.mpr (firstMatch?_eq_none_iff.mp rfl)
  subst two none
  exact ⟨reached, rfl, rfl, whole, run, shortly⟩

theorem find_past_content :
    let b := ofStore (.memory (.ofList [97, 98] .zeroFill))
    b.store.Fills ∧ b.upcoming = [97, 98] ∧ find [98, 0] b = .ok (some 1) b ∧
      ¬StandsAt [98, 0] [97, 98] 1 ∧
      readRemainder b = .ok ([97, 98] ++ List.replicate 4094 0) (b.advance 2) := by
  intro b
  have fills : b.store.Fills := rfl
  refine ⟨fills, rfl, ?_, fun stands => absurd stands.length_le (by decide), ?_⟩
  · rw [find_fills fills rfl ⟨Nat.zero_le _, Nat.le_refl _⟩, show b.upcoming = [97, 98] from rfl,
      firstMatch?_lastTwo]
    rfl
  · rw [readRemainder_fills fills, show b.upcoming = [97, 98] from rfl, padded_lastTwo]
    rfl

end Buffer

end BinaryCodec
