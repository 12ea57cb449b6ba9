import BinaryCodec.Buffer.Bits
import BinaryCodec.Proofs.Buffer.Contract
import BinaryCodec.Proofs.Buffer.Writing

namespace BinaryCodec.Buffer

variable {order : BitOrder}

theorem place_ne {i j : Nat} (different : i ≠ j) (first : i < 8) (second : j < 8) :
    order.place i ≠ order.place j := by
  cases order with
  | highFirst =>
    simp only [BitOrder.place]
    omega
  | lowFirst => exact different

theorem place_lt {i : Nat} (within : i < 8) : order.place i < 8 := by
  cases order with
  | highFirst =>
    simp only [BitOrder.place]
    omega
  | lowFirst => exact within

theorem testBit_setBit (byte : UInt8) {i j : Nat} (within : i < 8) :
    (setBit byte i).toNat.testBit j = (byte.toNat.testBit j || decide (i = j)) := by
  have small : Word.count i < 256 := Nat.pow_lt_pow_right (by decide) (show i < 8 from within)
  have power : (UInt8.ofNat (Word.count i)).toNat = 2 ^ i := by
    rw [UInt8.toNat_ofNat']
    exact Nat.mod_eq_of_lt small
  rw [setBit, UInt8.toNat_or, Nat.testBit_or, power, Nat.testBit_two_pow]

def putBit (order : BitOrder) (byte : UInt8) (count : Nat) (bit : Bool) : UInt8 :=
  if bit then setBit byte (order.place count) else byte

def packFrom (order : BitOrder) (byte : UInt8) (count : Nat) : List Bool → List UInt8
  | [] => if count = 0 then [] else [byte]
  | bit :: rest =>
    if count = 7 then putBit order byte count bit :: packFrom order 0 0 rest
    else packFrom order (putBit order byte count bit) (count + 1) rest

def packBits (order : BitOrder) (bits : List Bool) : List UInt8 := packFrom order 0 0 bits

def FreeFrom (order : BitOrder) (byte : UInt8) (count : Nat) : Prop :=
  ∀ i, count ≤ i → i < 8 → byte.toNat.testBit (order.place i) = false

theorem testBit_putBit_of_ne (byte : UInt8) {count i : Nat} (bit : Bool) (within : count < 8)
    (other : i ≠ count) (inside : i < 8) :
    (putBit order byte count bit).toNat.testBit (order.place i) =
      byte.toNat.testBit (order.place i) := by
  have apart : order.place count ≠ order.place i := place_ne other.symm within inside
  unfold putBit
  split
  · simp [testBit_setBit byte (place_lt within), apart]
  · rfl

theorem testBit_putBit {byte : UInt8} {count : Nat} (free : FreeFrom order byte count) (bit : Bool)
    (within : count < 8) :
    (putBit order byte count bit).toNat.testBit (order.place count) = bit := by
  have empty := free count (Nat.le_refl count) within
  unfold putBit
  cases bit with
  | true => simp [testBit_setBit byte (place_lt within)]
  | false => simpa using empty

theorem FreeFrom.putBit {byte : UInt8} {count : Nat} (free : FreeFrom order byte count) (bit : Bool)
    (within : count < 8) : FreeFrom order (Buffer.putBit order byte count bit) (count + 1) := by
  intro i behind inside
  rw [testBit_putBit_of_ne byte bit within (by omega) inside]
  exact free i (by omega) inside

theorem freeFrom_zero : FreeFrom order 0 0 := by
  intro i _ _
  exact Nat.zero_testBit _

theorem packFrom_eq_cons (order : BitOrder) (byte : UInt8) {count : Nat} (positive : 0 < count)
    (within : count < 8) (bits : List Bool) :
    ∃ full rest, packFrom order byte count bits = full :: rest ∧
      ∀ i < count, full.toNat.testBit (order.place i) = byte.toNat.testBit (order.place i) := by
  induction bits generalizing byte count with
  | nil => exact ⟨byte, [], if_neg (by omega), fun i _ => rfl⟩
  | cons bit rest ih =>
    unfold packFrom
    split
    · refine ⟨_, _, rfl, fun i before => ?_⟩
      exact testBit_putBit_of_ne byte bit within (by omega) (by omega)
    · obtain ⟨full, more, same, kept⟩ :=
        ih (putBit order byte count bit) (Nat.succ_pos count) (by omega)
      refine ⟨full, more, same, fun i before => ?_⟩
      rw [kept i (by omega)]
      exact testBit_putBit_of_ne byte bit within (by omega) (by omega)

section writing

variable {store : Store} {byte readByte : UInt8} {count used : Nat}

theorem writeBit_within (bit : Bool) (within : count < 7) :
    writeBit order bit ⟨store, ⟨byte, 8 - count, readByte, used⟩⟩ =
      .ok () ⟨store, ⟨putBit order byte count bit, 8 - (count + 1), readByte, used⟩⟩ := by
  have more : ¬8 - count = 1 := by omega
  have place : 8 - (8 - count) = count := by omega
  unfold writeBit
  rw [bind_apply]
  simp only [get_apply, more, if_false, place]
  rfl

theorem writeBit_last (accepts : store.Accepts) (bit : Bool) :
    writeBit order bit ⟨store, ⟨byte, 8 - 7, readByte, used⟩⟩ =
      .ok () ⟨store.written [putBit order byte 7 bit], ⟨0, 8, readByte, used⟩⟩ := by
  have wrote := writeBytes_eq (b := ⟨store, ⟨0, 8, readByte, used⟩⟩) accepts
    [putBit order byte 7 bit]
  unfold writeBit
  rw [bind_apply]
  simp only [get_apply, if_true]
  exact wrote

theorem flushBits_eq (accepts : store.Accepts) (within : count < 8) :
    flushBits ⟨store, ⟨byte, 8 - count, readByte, used⟩⟩ =
      .ok () ⟨store.written (packFrom order byte count []), .none⟩ := by
  unfold flushBits
  rw [bind_apply]
  by_cases empty : count = 0
  · subst empty
    simp only [packFrom, if_true, Store.written_nil]
    rfl
  · have partly : 8 - count < 8 := by omega
    have wrote := writeBytes_eq (b := ⟨store, .none⟩) accepts [byte]
    simp only [get_apply, partly, packFrom, empty, if_true, if_false]
    exact wrote

theorem writeBits_eq (accepts : store.Accepts) (within : count < 8) (bits : List Bool) :
    (do bits.forM (writeBit order); flushBits) ⟨store, ⟨byte, 8 - count, readByte, used⟩⟩ =
      .ok () ⟨store.written (packFrom order byte count bits), .none⟩ := by
  induction bits generalizing store byte count with
  | nil => exact flushBits_eq accepts within
  | cons bit rest ih =>
    change ((writeBit order bit >>= fun _ => rest.forM (writeBit order)) >>= fun _ => flushBits) _ = _
    rw [bind_assoc, bind_apply, packFrom]
    by_cases last : count = 7
    · subst last
      rw [writeBit_last accepts, if_pos rfl]
      have next := @ih (store.written [putBit order byte 7 bit]) 0 0 (accepts.written _)
        (Nat.zero_lt_succ 7)
      rw [Store.written_written] at next
      exact next
    · rw [writeBit_within bit (by omega), if_neg last]
      exact ih accepts (by omega)

end writing

def readBits (order : BitOrder) : (n : Nat) → BufferM (List Bool)
  | 0 => return []
  | n + 1 => do
    let bit ← readBit order
    return bit :: (← readBits order n)

section reading

variable {store : Store} {writeByte readByte : UInt8} {free used : Nat}

theorem readBit_within (within : used < 8) :
    readBit order ⟨store, ⟨writeByte, free, readByte, used⟩⟩ =
      .ok (readByte.toNat.testBit (order.place used))
        ⟨store, ⟨writeByte, free, readByte, used + 1⟩⟩ := by
  have more : ¬8 ≤ used := by omega
  unfold readBit
  rw [bind_apply]
  simp only [get_apply, more, if_false]
  rfl

theorem readBit_fresh (delivers : store.Delivers) (done : 8 ≤ used) {byte : UInt8}
    {rest : List UInt8} (upcoming : store.upcoming = byte :: rest) :
    readBit order ⟨store, ⟨writeByte, free, readByte, used⟩⟩ =
      .ok (byte.toNat.testBit (order.place 0)) ⟨store.advance 1, ⟨writeByte, free, byte, 1⟩⟩ := by
  have run : Buffer.readByte ⟨store, ⟨writeByte, free, readByte, used⟩⟩ =
      .ok byte ⟨store.advance 1, ⟨writeByte, free, readByte, used⟩⟩ := by
    have came := Sequential.run (m := Buffer.readByte)
      ⟨store, ⟨writeByte, free, readByte, used⟩⟩ delivers
    rw [Buffer.upcoming, upcoming, outcome_readByte_cons] at came
    exact came
  unfold readBit
  rw [bind_apply]
  simp only [get_apply, done, if_true]
  rw [bind_apply, run]
  rfl

theorem packFrom_cons {byte full : UInt8} {count : Nat} {bit : Bool} {bits : List Bool}
    {rest : List UInt8} (free : FreeFrom order byte count) (within : count < 8)
    (packed : packFrom order byte count (bit :: bits) = full :: rest) :
    full.toNat.testBit (order.place count) = bit ∧
      (if count = 7 then rest = packBits order bits
        else packFrom order (putBit order byte count bit) (count + 1) bits = full :: rest) := by
  have put := testBit_putBit free bit within
  rw [packFrom] at packed
  by_cases last : count = 7
  · rw [if_pos last] at packed ⊢
    obtain ⟨rfl, rfl⟩ := List.cons.inj packed
    exact ⟨put, rfl⟩
  · rw [if_neg last] at packed ⊢
    obtain ⟨first, more, same, kept⟩ :=
      packFrom_eq_cons order (putBit order byte count bit) (Nat.succ_pos count) (by omega) bits
    rw [packed] at same
    obtain ⟨rfl, rfl⟩ := List.cons.inj same
    rw [kept count (Nat.lt_succ_self count)]
    exact ⟨put, packed⟩

def ReadsRun (order : BitOrder) (bits : List Bool) (b : Buffer) (n : Nat) : Prop :=
  ∃ after, readBits order bits.length b = .ok bits after ∧ after.store = b.store.advance n ∧
    after.bits.free = b.bits.free

theorem ReadsRun.cons {bit : Bool} {bits : List Bool} {b next : Buffer} {m n : Nat}
    (first : readBit order b = .ok bit next) (moved : next.store = b.store.advance m)
    (same : next.bits.free = b.bits.free) (rest : ReadsRun order bits next n) :
    ReadsRun order (bit :: bits) b (m + n) := by
  obtain ⟨after, run, place, kept⟩ := rest
  refine ⟨after, ?_, ?_, kept.trans same⟩
  · rw [List.length_cons, readBits, bind_apply, first]
    simp only [bind_apply, run]
    rfl
  · rw [place, moved, Store.advance_advance]

theorem readsRun_packed (bits : List Bool) :
    (∀ {store : Store} {readByte : UInt8} {used : Nat} {rest : List UInt8}, store.Delivers →
      8 ≤ used → store.upcoming = packBits order bits ++ rest →
      ReadsRun order bits ⟨store, ⟨writeByte, free, readByte, used⟩⟩ (packBits order bits).length) ∧
    ∀ {store : Store} {byte readByte : UInt8} {count : Nat} {tail rest : List UInt8}, store.Delivers →
      FreeFrom order byte count → 0 < count → count < 8 →
      packFrom order byte count bits = readByte :: tail → store.upcoming = tail ++ rest →
      ReadsRun order bits ⟨store, ⟨writeByte, free, readByte, count⟩⟩ tail.length := by
  -- Both at once: a run enters a byte from between two bytes, and leaves a full one to between two.
  induction bits with
  | nil =>
    constructor
    · intro store readByte used rest delivers done upcoming
      exact ⟨_, rfl, Store.advance_zero.symm, rfl⟩
    · intro store byte readByte count tail rest delivers clean positive within packed upcoming
      rw [packFrom, if_neg (by omega)] at packed
      obtain ⟨rfl, rfl⟩ := List.cons.inj packed
      exact ⟨_, rfl, Store.advance_zero.symm, rfl⟩
  | cons bit bits ih =>
    obtain ⟨fresh, inside⟩ := ih
    constructor
    · intro store readByte used rest delivers done upcoming
      obtain ⟨full, tail, packed, -⟩ :=
        packFrom_eq_cons order (putBit order 0 0 bit) Nat.one_pos (by decide) bits
      have whole : packBits order (bit :: bits) = full :: tail := packed
      obtain ⟨first, -⟩ := packFrom_cons freeFrom_zero (by decide) whole
      rw [whole, List.cons_append] at upcoming
      have next : (store.advance 1).upcoming = tail ++ rest := by
        rw [Store.upcoming_advance, upcoming, List.drop_succ_cons, List.drop_zero]
      have read : readBit order ⟨store, ⟨writeByte, free, readByte, used⟩⟩ =
          .ok bit ⟨store.advance 1, ⟨writeByte, free, full, 1⟩⟩ := by
        rw [readBit_fresh delivers done upcoming, first]
      rw [whole, List.length_cons, Nat.add_comm]
      exact .cons read rfl rfl (inside (delivers.advance 1) (freeFrom_zero.putBit bit (by decide))
        Nat.one_pos (by decide) packed next)
    · intro store byte readByte count tail rest delivers clean positive within packed upcoming
      obtain ⟨first, behind⟩ := packFrom_cons clean within packed
      have read : readBit order ⟨store, ⟨writeByte, free, readByte, count⟩⟩ =
          .ok bit ⟨store, ⟨writeByte, free, readByte, count + 1⟩⟩ := by
        rw [readBit_within within, first]
      rw [← Nat.zero_add tail.length]
      by_cases last : count = 7
      · rw [if_pos last] at behind
        subst last behind
        exact .cons read Store.advance_zero.symm rfl (fresh delivers (Nat.le_refl 8) upcoming)
      · rw [if_neg last] at behind
        exact .cons read Store.advance_zero.symm rfl (inside delivers (clean.putBit bit within)
          (Nat.succ_pos count) (by omega) behind upcoming)

theorem readBits_flush (bits : List Bool) {b : Buffer} (delivers : b.Delivers) (clean : b.bits = .none)
    {rest : List UInt8} (upcoming : b.upcoming = packBits order bits ++ rest) :
    (do let run ← readBits order bits.length; flushBits; return run) b =
      .ok bits (b.advance (packBits order bits).length) := by
  obtain ⟨store, pending⟩ := b
  obtain rfl : pending = .none := clean
  obtain ⟨after, run, moved, same⟩ :
      ReadsRun order bits ⟨store, .none⟩ (packBits order bits).length :=
    (readsRun_packed bits).1 delivers (Nat.le_refl 8) upcoming
  have flushed : flushBits after = .ok () ⟨after.store, .none⟩ := by
    have full : ¬after.bits.free < 8 := by
      rw [same]
      exact Nat.lt_irrefl 8
    unfold flushBits
    rw [bind_apply]
    simp only [get_apply, full, if_false]
    rfl
  rw [bind_apply, run]
  simp only [bind_apply, flushed, moved]
  rfl

end reading

end BinaryCodec.Buffer
