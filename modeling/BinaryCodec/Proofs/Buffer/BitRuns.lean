import BinaryCodec.Proofs.Buffer.BitSlots
import BinaryCodec.Proofs.Buffer.Primitive
import Mathlib.Data.List.Forall2

namespace BinaryCodec.Buffer

variable {order : BitOrder} {byte : UInt8} {count : Nat}

theorem length_packFrom (within : count < 8) (bits : List Bool) :
    (packFrom order byte count bits).length = (count + bits.length + 7) / 8 := by
  induction bits generalizing byte count with
  | nil =>
    rw [packFrom]
    split
    · next empty =>
      rw [empty]
      rfl
    · simp only [List.length_cons, List.length_nil]
      omega
  | cons bit rest ih =>
    rw [packFrom]
    split
    · next last =>
      simp only [List.length_cons, ih (Nat.zero_lt_succ 7)]
      omega
    · simp only [List.length_cons, @ih (putBit order byte count bit) (count + 1) (by omega)]
      omega

theorem testBit_packFrom (free : FreeFrom order byte count) (within : count < 8) (bits : List Bool) (i : Nat) :
    ((packFrom order byte count bits).getD (i / 8) 0).toNat.testBit (order.place (i % 8)) =
      if i < count then byte.toNat.testBit (order.place i) else bits.getD (i - count) false := by
  have zero (j : Nat) : (0 : UInt8).toNat.testBit j = false := Nat.zero_testBit j
  induction bits generalizing byte count i with
  | nil =>
    rw [packFrom, List.getD_nil]
    by_cases empty : count = 0
    · rw [if_pos empty, List.getD_nil, zero, if_neg (by omega)]
    · rw [if_neg empty]
      by_cases inside : i < 8
      · rw [Nat.div_eq_of_lt inside, Nat.mod_eq_of_lt inside, List.getD_cons_zero]
        split
        · rfl
        · next behind => exact free i (by omega) inside
      · obtain ⟨k, more⟩ := Nat.exists_eq_succ_of_ne_zero (show i / 8 ≠ 0 by omega)
        rw [more, List.getD_cons_succ, List.getD_nil, zero, if_neg (by omega)]
  | cons bit rest ih =>
    rw [packFrom]
    by_cases last : count = 7
    · subst last
      rw [if_pos rfl]
      by_cases inside : i < 8
      · rw [Nat.div_eq_of_lt inside, Nat.mod_eq_of_lt inside, List.getD_cons_zero]
        split
        · exact testBit_putBit_of_ne byte bit within (by omega) inside
        · obtain rfl : i = 7 := by omega
          exact testBit_putBit free bit within
      · obtain ⟨k, rfl⟩ := Nat.exists_eq_add_of_le (Nat.le_of_not_lt inside)
        have next := ih freeFrom_zero (Nat.zero_lt_succ 7) k
        rw [if_neg (Nat.not_lt_zero k)] at next
        rw [Nat.add_div_left k (by decide), List.getD_cons_succ, Nat.add_mod_left, next,
          if_neg (by omega), show 8 + k - 7 = k + 1 by omega, List.getD_cons_succ]
        rfl
    · rw [if_neg last, ih (free.putBit bit within) (by omega)]
      by_cases here : i = count
      · subst here
        rw [if_pos (Nat.lt_succ_self i), if_neg (Nat.lt_irrefl i), testBit_putBit free bit within, Nat.sub_self]
        rfl
      · by_cases before : i < count
        · rw [if_pos (by omega), if_pos before]
          exact testBit_putBit_of_ne byte bit within here (by omega)
        · obtain ⟨k, rfl⟩ := Nat.exists_eq_add_of_lt (show count < i by omega)
          rw [if_neg (by omega), if_neg before, show count + k + 1 - (count + 1) = k by omega,
            show count + k + 1 - count = k + 1 by omega, List.getD_cons_succ]

theorem packFrom_zeros (positive : 0 < count) {k : Nat} (full : count + k = 8) :
    packFrom order byte count (List.replicate k false) = [byte] := by
  induction k generalizing count with
  | zero => exact if_neg (Nat.ne_of_gt positive)
  | succ k ih =>
    rw [List.replicate_succ, packFrom]
    by_cases last : count = 7
    · obtain rfl : k = 0 := by omega
      rw [if_pos last]
      rfl
    · rw [if_neg last]
      exact ih (Nat.succ_pos count) (by omega)

theorem packFrom_append_zeros (within : count < 8) (bits : List Bool) {k : Nat} (short : k < 8)
    (full : 8 ∣ count + bits.length + k) :
    packFrom order byte count (bits ++ List.replicate k false) = packFrom order byte count bits := by
  induction bits generalizing byte count with
  | nil =>
    rw [List.length_nil] at full
    by_cases empty : count = 0
    · obtain rfl : k = 0 := by omega
      rfl
    · rw [packFrom, if_neg empty]
      exact packFrom_zeros (Nat.pos_of_ne_zero empty) (by omega)
  | cons bit rest ih =>
    rw [List.length_cons] at full
    rw [List.cons_append, packFrom, packFrom]
    by_cases last : count = 7
    · rw [if_pos last, if_pos last, ih (Nat.zero_lt_succ 7) (by omega)]
    · rw [if_neg last, if_neg last, ih (by omega) (by omega)]

theorem readBit_end {b : Buffer} (delivers : b.Delivers) (live : b.ending.fault? = none)
    (done : 8 ≤ b.bits.used) (empty : b.upcoming = []) : readBit order b = .error (.endOfData 1 0) b := by
  have failed : readByte b = .error (.endOfData 1 0) b := by
    have run := Sequential.run (m := readByte) b delivers
    rw [empty, outcome_readByte_nil, Ending.shortage, live, conclude_error, advance_zero] at run
    exact run
  rw [readBit_eq, bind_apply, get_apply]
  simp only [done, if_true]
  rw [bind_apply, failed]

theorem used_of_readBits {n : Nat} {b after : Buffer} {run : List Bool}
    (ran : readBits order n b = .ok run after) (begun : 0 < b.bits.used) (within : b.bits.used ≤ 8) :
    0 < after.bits.used ∧ after.bits.used ≤ 8 ∧ after.bits.used % 8 = (b.bits.used + n) % 8 := by
  induction n generalizing b run with
  | zero =>
    cases ran
    exact ⟨begun, within, rfl⟩
  | succ n ih =>
    rw [readBits, bind_apply] at ran
    rcases readBit_cases order b with ⟨e, stage, came, -⟩ | ⟨bit, stage, came, -, used⟩
    · rw [came] at ran
      cases ran
    · rw [came] at ran
      simp only [bind_apply] at ran
      cases more : readBits order n stage with
      | error e last =>
        rw [more] at ran
        cases ran
      | ok rest last =>
        rw [more] at ran
        cases ran
        have next : stage.bits.used ≤ 8 ∧ stage.bits.used % 8 = (b.bits.used + 1) % 8 := by
          rw [used]
          split <;> omega
        obtain ⟨positive, inside, places⟩ := ih more (by omega) next.1
        refine ⟨positive, inside, ?_⟩
        omega

/-- A run of bits in one order, to be closed by a flush. -/
structure BitRun where
  order : BitOrder
  bits : List Bool
  deriving DecidableEq, Repr

namespace BitRun

def kind (run : BitRun) : Primitive := .bits run.order run.bits.length

def item (run : BitRun) : Item := ⟨run.kind, run.bits⟩

/-- Number of places that stay free in the last byte. -/
def padding (run : BitRun) : Nat := (8 - run.bits.length % 8) % 8

def Packed (run : BitRun) (bytes : List UInt8) : Prop :=
  bytes.length = (run.bits.length + 7) / 8 ∧
    ∀ i byte, bytes[i / 8]? = some byte →
      byte.toNat.testBit (match run.order with | .highFirst => 7 - i % 8 | .lowFirst => i % 8) =
        run.bits.getD i false

theorem packed_packBits (run : BitRun) : run.Packed (packBits run.order run.bits) := by
  constructor
  · rw [packBits, length_packFrom (Nat.zero_lt_succ 7), Nat.zero_add]
  · intro i byte there
    have clean : FreeFrom run.order 0 0 := freeFrom_zero
    have bit := testBit_packFrom clean (Nat.zero_lt_succ 7) run.bits i
    rw [if_neg (Nat.not_lt_zero i), Nat.sub_zero, ← packBits, List.getD_eq_getElem?_getD, there] at bit
    exact bit

theorem fits_item (runs : List BitRun) : ∀ item ∈ runs.map BitRun.item, item.Fits := by
  intro item member
  obtain ⟨run, -, rfl⟩ := List.mem_map.mp member
  rfl

theorem packBits_padding (run : BitRun) :
    packBits run.order (run.bits ++ List.replicate run.padding false) = packBits run.order run.bits := by
  refine packFrom_append_zeros (Nat.zero_lt_succ 7) run.bits ?_ ?_
  · exact Nat.mod_lt _ (by decide)
  · rw [padding]
    omega

end BitRun

/-- Bytes that hold the runs one after the other. -/
def Packs (runs : List BitRun) (bytes : List UInt8) : Prop :=
  ∃ pieces, List.Forall₂ BitRun.Packed runs pieces ∧ bytes = pieces.flatten

def packed (runs : List BitRun) : List UInt8 := (runs.map BitRun.item).flatMap Item.encoding

theorem packs_packed (runs : List BitRun) : Packs runs (packed runs) := by
  refine ⟨runs.map fun run => packBits run.order run.bits, ?_, ?_⟩
  · rw [List.forall₂_map_right_iff, List.forall₂_same]
    exact fun run _ => run.packed_packBits
  · rw [packed, List.flatMap, List.map_map]
    rfl

/-- A memory that holds the bytes, to be read at `place` and written at the end, with no bits pending. -/
def holding (bytes : List UInt8) (place : Nat) : Buffer :=
  ⟨.memory ⟨bytes.toArray, place, bytes.length, .short⟩, .none⟩

theorem delivers_holding (bytes : List UInt8) (place : Nat) : (holding bytes place).Delivers := rfl

theorem written_empty (bytes : List UInt8) : Buffer.empty.written bytes = holding bytes 0 := by
  have content : Content.overwrite #[] 0 bytes = bytes.toArray :=
    Array.toList_inj.mp (toList_written_empty bytes)
  show (⟨.memory ⟨Content.overwrite #[] 0 bytes, 0, 0 + bytes.length, .short⟩, .none⟩ : Buffer) = _
  rw [content, Nat.zero_add]
  rfl

theorem writeItems_runs (runs : List BitRun) :
    writeItems (runs.map BitRun.item) .empty = .ok () (holding (packed runs) 0) := by
  rw [← written_empty]
  exact writeItems_eq accepts_empty rfl (BitRun.fits_item runs)

theorem readItems_holding (runs : List BitRun) (rest : List UInt8) :
    readItems (runs.map BitRun.kind) (holding (packed runs ++ rest) 0) =
      .ok (runs.map BitRun.item) (holding (packed runs ++ rest) (packed runs).length) := by
  have read := readItems_eq (delivers_holding (packed runs ++ rest) 0) rfl (BitRun.fits_item runs) rfl
  rw [List.map_map] at read
  rw [← Nat.zero_add (packed runs).length]
  exact read

theorem readBit_holding_end (bytes : List UInt8) :
    readBit order (holding bytes bytes.length) = .error (.endOfData 1 0) (holding bytes bytes.length) :=
  readBit_end (delivers_holding ..) rfl (Nat.le_refl 8) List.drop_length

theorem readBits_padding (run : BitRun) (front : List UInt8) :
    let bytes := front ++ packBits run.order run.bits
    ∃ after, readBits run.order (run.bits.length + run.padding) (holding bytes front.length) =
        .ok (run.bits ++ List.replicate run.padding false) after ∧
      ∀ order, readBit order after = .error (.endOfData 1 0) after := by
  intro bytes
  have upcoming : (holding bytes front.length).store.upcoming =
      packBits run.order (run.bits ++ List.replicate run.padding false) ++ [] := by
    rw [run.packBits_padding, List.append_nil]
    exact List.drop_left
  obtain ⟨⟨store, bits⟩, read, moved, -⟩ :
      ReadsRun run.order _ (holding bytes front.length) _ :=
    (readsRun_packed _).1 (delivers_holding ..) (Nat.le_refl 8) upcoming
  rw [List.length_append, List.length_replicate] at read
  obtain rfl : store = (holding bytes bytes.length).store := by
    rw [run.packBits_padding] at moved
    rw [List.length_append]
    exact moved
  have used : bits.used = 8 := by
    obtain ⟨positive, within, places⟩ := used_of_readBits read (Nat.zero_lt_succ 7) (Nat.le_refl 8)
    have whole : (8 + (run.bits.length + run.padding)) % 8 = 0 := by
      rw [BitRun.padding]
      omega
    have full : bits.used % 8 = 0 := places.trans whole
    simp only at positive within
    omega
  refine ⟨_, read, fun order => ?_⟩
  exact readBit_end (delivers_holding bytes bytes.length) rfl (Nat.le_of_eq used.symm) List.drop_length

/-- Runs of bits that are written to an empty memory are packed in it one after the other, and are read back
from it; behind the last run there are the zeros of its byte, and then the end. The next place to write
and the next one to read lie in a byte whatever is asked of a buffer. -/
theorem bitRuns_packed (runs : List BitRun) :
    (∃ bytes, Packs runs bytes ∧
      writeItems (runs.map BitRun.item) .empty = .ok () (holding bytes 0) ∧
      readItems (runs.map BitRun.kind) (holding bytes 0) =
        .ok (runs.map BitRun.item) (holding bytes bytes.length) ∧
      (∀ order, readBit order (holding bytes bytes.length) =
        .error (.endOfData 1 0) (holding bytes bytes.length)) ∧
      ∀ front last, runs = front ++ [last] → ∃ stage after,
        readItems (front.map BitRun.kind) (holding bytes 0) = .ok (front.map BitRun.item) stage ∧
        readBits last.order (last.bits.length + last.padding) stage =
          .ok (last.bits ++ List.replicate last.padding false) after ∧
        ∀ order, readBit order after = .error (.endOfData 1 0) after) ∧
    ∀ (s : Store) (requests : List BufferRequest) (order : BitOrder),
      let bits := (afterAll requests (ofStore s)).bits
      (0 ≤ bits.writeSlot order ∧ bits.writeSlot order ≤ 7 ∧
        bits.writeSlot order = order.place (8 - bits.free)) ∧
      0 ≤ bits.readSlot order ∧ bits.readSlot order ≤ 7 ∧
        bits.readSlot order = order.place (if 8 ≤ bits.used then 0 else bits.used) := by
  constructor
  · have read := readItems_holding runs []
    rw [List.append_nil] at read
    refine ⟨packed runs, packs_packed runs, writeItems_runs runs, read,
      fun order => readBit_holding_end _, ?_⟩
    rintro front last rfl
    obtain ⟨after, beyond, ends⟩ := readBits_padding last (packed front)
    have first := readItems_holding front (packBits last.order last.bits)
    have all : packed (front ++ [last]) = packed front ++ packBits last.order last.bits := by
      rw [packed, List.map_append, List.flatMap_append, List.map_singleton, List.flatMap_singleton]
      rfl
    rw [all]
    exact ⟨_, after, first, beyond, ends⟩
  · intro s requests order bits
    have orderly : bits.Orderly := orderly_afterAll requests PendingBits.orderly_none
    exact ⟨orderly.writeSlot order, bits.readSlot_within order⟩

/-- A run of eleven bits, an empty one, and one of three bits in the other order. -/
def threeRuns : List BitRun :=
  [⟨.highFirst, [true, false, true, true, false, false, false, true, true, true, false]⟩,
    ⟨.highFirst, []⟩, ⟨.lowFirst, [true, true, false]⟩]

theorem bitRuns_packed_three :
    writeItems (threeRuns.map BitRun.item) .empty = .ok () (holding [177, 192, 3] 0) ∧
      ∃ stage after, readItems ((threeRuns.take 2).map BitRun.kind) (holding [177, 192, 3] 0) =
          .ok ((threeRuns.take 2).map BitRun.item) stage ∧
        readBits .lowFirst 8 stage = .ok [true, true, false, false, false, false, false, false] after ∧
        ∀ order, readBit order after = .error (.endOfData 1 0) after := by
  obtain ⟨⟨bytes, -, wrote, -, -, past⟩, -⟩ := bitRuns_packed threeRuns
  have same : holding (packed threeRuns) 0 = holding bytes 0 := by
    rw [writeItems_runs] at wrote
    injection wrote
  obtain rfl : [177, 192, 3] = bytes := congrArg upcoming same
  exact ⟨wrote, past (threeRuns.take 2) _ rfl⟩

end BinaryCodec.Buffer
