import BinaryCodec.Proofs.Buffer.Reached
import BinaryCodec.Proofs.Buffer.TwoCursor

namespace BinaryCodec

namespace Buffer

section excursion

variable {α : Type} {question : BufferM Nat} {seek : Nat → BufferM Unit} {action : BufferM α}
  {b there acted back : Buffer} {saved position : Nat}

theorem excursion {v : α} (asks : question b = .ok saved b) (goes : seek position b = .ok () there)
    (acts : action there = .ok v acted) (returns : seek saved acted = .ok () back) :
    (do
      let saved ← question
      seek position
      let outcome ← attempt action
      seek saved
      settle outcome) b = .ok v back := by
  have attempts : attempt action there = .ok (.ok v) acted := by
    simp only [attempt, acts]
  rw [bind_apply, asks]
  simp only
  rw [bind_apply, goes]
  simp only
  rw [bind_apply, attempts]
  simp only
  rw [bind_apply, returns]
  rfl

theorem excursion_refused {e : Error} (asks : question b = .ok saved b)
    (stays : seek position b = .error e b) :
    (do
      let saved ← question
      seek position
      let outcome ← attempt action
      seek saved
      settle outcome) b = .error e b := by
  rw [bind_apply, asks]
  simp only
  rw [bind_apply, stays]

end excursion

end Buffer

namespace TwoCursor

def overwriteAt (position : Nat) (bytes : List UInt8) (t : TwoCursor)
    (within : position ≤ t.content.length) : TwoCursor where
  content := t.content.take position ++ bytes ++ t.content.drop (position + bytes.length)
  readCursor := t.readCursor
  writeCursor := t.writeCursor
  read_le := by
    have := t.read_le
    simp only [List.length_append, List.length_take, List.length_drop]
    omega
  write_le := by
    have := t.write_le
    simp only [List.length_append, List.length_take, List.length_drop]
    omega

variable {t : TwoCursor} {position : Nat}

theorem seekWrite_within (within : position ≤ t.content.length) :
    t.seekWrite position = .ok { t with writeCursor := position, write_le := within } :=
  dif_pos within

theorem seekWrite_beyond (beyond : ¬position ≤ t.content.length) :
    t.seekWrite position = .error (.seekOutOfBounds position t.content.length) :=
  dif_neg beyond

structure Shows (image : TwoCursor → PendingBits → Buffer) : Prop extends Presents image where
  reads : ∀ t bits, (image t bits).store.readPosition = .ok t.readCursor
  writes : ∀ t bits, (image t bits).store.writePosition = .ok t.writeCursor
  stored : ∀ t bits, (image t bits).store.stored = t.content.toArray
  pending : ∀ t bits, (image t bits).bits = bits
  unlocked : ∀ t bits, ¬(image t bits).store.ReadOnly

theorem shows_memory : Shows memory where
  toPresents := presents_memory
  reads _ _ := rfl
  writes _ _ := rfl
  stored _ _ := rfl
  pending _ _ := rfl
  unlocked _ _ := not_false

theorem shows_file : Shows file where
  toPresents := presents_file
  reads _ _ := rfl
  writes _ _ := rfl
  stored _ _ := rfl
  pending _ _ := rfl
  unlocked _ _ := Bool.false_ne_true

section Shows

variable {image : TwoCursor → PendingBits → Buffer} (shows : Shows image) (bits : PendingBits)
  (bytes : List UInt8)
include shows

theorem Shows.writePosition (t : TwoCursor) :
    Buffer.writePosition (image t bits) = .ok t.writeCursor (image t bits) := by
  simp only [Buffer.writePosition, Buffer.ask, shows.writes]

theorem Shows.writeAt_within (within : position ≤ t.content.length) :
    Buffer.writeAt position bytes (image t bits) =
      .ok () (image (t.overwriteAt position bytes within) bits) := by
  let there : TwoCursor := { t with writeCursor := position, write_le := within }
  have goes : Buffer.seekWrite position (image t bits) = .ok () (image there bits) := by
    rw [shows.seekWrite, seekWrite_within within]
    rfl
  have inside : t.writeCursor ≤ (there.write bytes).content.length :=
    (t.overwriteAt position bytes within).write_le
  have returns : Buffer.seekWrite t.writeCursor (image (there.write bytes) bits) =
      .ok () (image (t.overwriteAt position bytes within) bits) := by
    rw [shows.seekWrite, seekWrite_within inside]
    rfl
  exact Buffer.excursion (shows.writePosition bits t) goes (shows.write there bits bytes) returns

theorem Shows.writeAt_beyond (beyond : ¬position ≤ t.content.length) :
    Buffer.writeAt position bytes (image t bits) =
      .error (.seekOutOfBounds position t.content.length) (image t bits) := by
  refine Buffer.excursion_refused (shows.writePosition bits t) ?_
  rw [shows.seekWrite, seekWrite_beyond beyond]
  rfl

end Shows

end TwoCursor

namespace Store

/-- Stores whose bytes can be taken from any place. -/
def Indexed : Store → Prop
  | .memory m => m.mode = .short
  | .slice _ => True
  | .file f => f.isOpen = true
  | .reader _ | .seekable _ | .writer _ => False

variable {s : Store} (indexed : s.Indexed)
include indexed

theorem Indexed.seeks : s.Seeks := by
  cases s with
  | memory | slice | file => exact indexed
  | reader | seekable | writer => exact indexed.elim

theorem Indexed.exists_readPosition (placed : s.Placed) :
    ∃ r, s.readPosition = .ok r ∧ r ≤ s.stored.size := by
  cases s with
  | memory m => exact ⟨m.readPosition, rfl, placed.1⟩
  | slice s => exact ⟨s.readPosition, rfl, placed⟩
  | file f => exact ⟨f.readPosition, rfl, placed.1⟩
  | reader | seekable | writer => exact indexed.elim

end Store

namespace Buffer

variable {b : Buffer} {r : Nat}

theorem readAt_eq (seeks : b.store.Seeks) (begins : b.store.readPosition = .ok r)
    (within : r ≤ b.store.stored.size) (position n : Nat) :
    readAt position n b =
      if position ≤ b.store.stored.size then .ok ((b.store.stored.toList.drop position).take n) b
      else .error (.seekOutOfBounds position b.store.stored.size) b := by
  have seek := seekRead_eq seeks position
  by_cases there : position ≤ b.store.stored.size
  · rw [if_pos there] at seek ⊢
    have again : (b.readingFrom position).store.Seeks := seeks.readingFrom position
    have upcoming : (b.readingFrom position).upcoming = b.store.stored.toList.drop position :=
      seeks.upcoming_readingFrom
    have reads : readUpTo n (b.readingFrom position) = _ := readUpTo_eq again.delivers.supplies n
    rw [upTo_of_live (live_of_seeks again), conclude_ok, upcoming, advance_readingFrom] at reads
    exact excursion (readPosition_eq begins) seek reads (seekRead_readingFrom seeks begins within _)
  · rw [if_neg there] at seek ⊢
    exact excursion_refused (readPosition_eq begins) seek

/-- Whether both cursors and the pending bits are where they were. -/
def Steady (b after : Buffer) : Prop :=
  after.store.readPosition = b.store.readPosition ∧
    after.store.writePosition = b.store.writePosition ∧ after.bits = b.bits

inductive WritesAt (position : Nat) (bytes : List UInt8) (b : Buffer) :
    EStateM.Result Error Buffer Unit → Prop
  | written {after : Buffer} (within : position ≤ b.store.stored.size) (unlocked : ¬b.store.ReadOnly)
      (steady : Steady b after)
      (stored : after.store.stored.toList = b.store.stored.toList.take position ++ bytes ++
        b.store.stored.toList.drop (position + bytes.length)) :
      WritesAt position bytes b (.ok () after)
  | refused {e : Error} (closed : ¬(position ≤ b.store.stored.size ∧ ¬b.store.ReadOnly)) :
      WritesAt position bytes b (.error e b)

theorem writesAt_image {image : TwoCursor → PendingBits → Buffer} (shows : TwoCursor.Shows image)
    (t : TwoCursor) (bits : PendingBits) (position : Nat) (bytes : List UInt8) :
    WritesAt position bytes (image t bits) (writeAt position bytes (image t bits)) := by
  have stored := shows.stored
  have size : (image t bits).store.stored.size = t.content.length := by
    rw [stored, List.size_toArray]
  by_cases within : position ≤ t.content.length
  · rw [shows.writeAt_within bits bytes within]
    refine .written (by rwa [size]) (shows.unlocked t bits) ⟨?_, ?_, ?_⟩ ?_
    · rw [shows.reads, shows.reads]
      rfl
    · rw [shows.writes, shows.writes]
      rfl
    · rw [shows.pending, shows.pending]
    · rw [stored, stored]
      rfl
  · rw [shows.writeAt_beyond bits bytes within]
    refine .refused fun allowed => within ?_
    rw [← size]
    exact allowed.1

theorem writeAt_writesAt (placed : b.store.Placed) (indexed : b.store.Indexed) (position : Nat)
    (bytes : List UInt8) : WritesAt position bytes b (writeAt position bytes b) := by
  obtain ⟨store, bits⟩ := b
  cases store with
  | memory m =>
    obtain ⟨content, reading, writing, mode⟩ := m
    obtain rfl : mode = .short := indexed
    exact writesAt_image TwoCursor.shows_memory ⟨content.toList, reading, writing, placed.1, placed.2⟩
      bits position bytes
  | file f =>
    obtain ⟨content, reading, writing, readOnly, isOpen⟩ := f
    obtain rfl : isOpen = true := indexed
    cases readOnly with
    | false =>
      exact writesAt_image TwoCursor.shows_file ⟨content.toList, reading, writing, placed.1, placed.2⟩
        bits position bytes
    | true =>
      have denied : writeAt position bytes ⟨.file ⟨content, reading, writing, true, true⟩, bits⟩ =
          .error (.readOnly .file) ⟨.file ⟨content, reading, writing, true, true⟩, bits⟩ :=
        excursion_refused rfl rfl
      rw [denied]
      exact .refused fun allowed => allowed.2 rfl
  | slice s =>
    have denied : writeAt position bytes ⟨.slice s, bits⟩ = .error (.readOnly .slice) ⟨.slice s, bits⟩ :=
      excursion_refused rfl rfl
    rw [denied]
    exact .refused fun allowed => allowed.2 True.intro
  | reader | seekable | writer => exact indexed.elim

theorem readAt_answer (seeks : b.store.Seeks) (begins : b.store.readPosition = .ok r)
    (within : r ≤ b.store.stored.size) (position n : Nat) :
    (settled (readAt position n b)).2 = b ∧
      ((∃ got, readAt position n b = .ok got b) ↔ position ≤ b.store.stored.size) ∧
      ∀ got after, readAt position n b = .ok got after →
        got = (b.store.stored.toList.drop position).take n ∧
          got.length = min n (b.store.stored.size - position) := by
  have reads := readAt_eq seeks begins within position n
  by_cases there : position ≤ b.store.stored.size
  · rw [if_pos there] at reads
    rw [reads]
    refine ⟨rfl, ⟨fun _ => there, fun _ => ⟨_, rfl⟩⟩, fun got after came => ?_⟩
    cases came
    exact ⟨rfl, by rw [List.length_take, List.length_drop, Array.length_toList]⟩
  · rw [if_neg there] at reads
    rw [reads]
    refine ⟨rfl, ⟨fun ⟨_, came⟩ => ?_, fun allowed => absurd allowed there⟩, fun _ _ came => ?_⟩
    · cases came
    · cases came

/-- Reading and writing at a place leave both cursors and the pending bits where they were. A read answers
with the bytes there, as many as there are; a write puts its bytes in the place of those there, past the end
if there are fewer. Where either fails, nothing changes. -/
theorem randomAccess_steady {b : Buffer} (reached : b.Reached) (indexed : b.store.Indexed)
    (position n : Nat) (bytes : List UInt8) :
    ((settled (readAt position n b)).2 = b ∧
      ((∃ got, readAt position n b = .ok got b) ↔ position ≤ b.store.stored.size) ∧
      ∀ got after, readAt position n b = .ok got after →
        got = (b.store.stored.toList.drop position).take n ∧
          got.length = min n (b.store.stored.size - position)) ∧
    Steady b (settled (writeAt position bytes b)).2 ∧
      ((∃ after, writeAt position bytes b = .ok () after) ↔
        position ≤ b.store.stored.size ∧ ¬b.store.ReadOnly) ∧
      (∀ after, writeAt position bytes b = .ok () after →
        after.store.stored.toList = b.store.stored.toList.take position ++ bytes ++
          b.store.stored.toList.drop (position + bytes.length)) ∧
      ∀ e after, writeAt position bytes b = .error e after → after = b := by
  obtain ⟨r, begins, within⟩ := indexed.exists_readPosition reached.placed
  refine ⟨readAt_answer indexed.seeks begins within position n, ?_⟩
  have writes := writeAt_writesAt reached.placed indexed position bytes
  generalize writeAt position bytes b = result at writes
  cases writes with
  | @written after there unlocked steady stored =>
    refine ⟨steady, ⟨fun _ => ⟨there, unlocked⟩, fun _ => ⟨after, rfl⟩⟩, fun _ came => ?_,
      fun _ _ came => ?_⟩
    · cases came
      exact stored
    · cases came
  | refused closed =>
    refine ⟨⟨rfl, rfl, rfl⟩, ⟨fun ⟨_, came⟩ => ?_, fun allowed => absurd allowed closed⟩,
      fun _ came => ?_, fun _ _ came => ?_⟩
    · cases came
    · cases came
    · cases came
      rfl

/-- Three bytes in memory, of which one has been read. -/
def oneRead : Buffer := afterAll [.call (.read 1)] (ofList [1, 2, 3])

theorem randomAccess_steady_extending :
    oneRead.Reached ∧ oneRead.store.Indexed ∧
      (∃ got, readAt 2 5 oneRead = .ok got oneRead ∧ got = [3]) ∧
      ∃ after, writeAt 2 [8, 9] oneRead = .ok () after ∧ Steady oneRead after ∧
        after.store.stored.toList = [1, 2, 8, 9] := by
  have reached : oneRead.Reached := Reached.afterAll (.opened (.memory [1, 2, 3] .short)) _
  have indexed : oneRead.store.Indexed := rfl
  obtain ⟨⟨-, reads, answer⟩, steady, writes, stored, -⟩ :=
    randomAccess_steady reached indexed 2 5 [8, 9]
  have size : 2 ≤ oneRead.store.stored.size := by decide
  obtain ⟨got, came⟩ := reads.mpr size
  obtain ⟨after, wrote⟩ := writes.mpr ⟨size, not_false⟩
  rw [wrote] at steady
  exact ⟨reached, indexed, ⟨got, came, (answer got oneRead came).1⟩, after, wrote, steady,
    stored after wrote⟩

end Buffer

end BinaryCodec
