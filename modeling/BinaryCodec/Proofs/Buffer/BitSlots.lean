import BinaryCodec.Proofs.Buffer.PendingBits

namespace BinaryCodec

open Buffer

namespace PendingBits

structure Orderly (bits : PendingBits) : Prop where
  free_pos : 0 < bits.free
  free_le : bits.free ≤ 8
  used_le : bits.used ≤ 8

variable {bits : PendingBits} (order : BitOrder)

theorem orderly_none : PendingBits.none.Orderly := ⟨by decide, by decide, by decide⟩

theorem Orderly.push (orderly : bits.Orderly) (bit : Bool) : (bits.push order bit).Orderly := by
  obtain ⟨positive, within, used⟩ := orderly
  unfold PendingBits.push
  by_cases last : bits.free = 1
  · rw [if_pos last]
    exact ⟨Nat.zero_lt_succ 7, Nat.le_refl 8, used⟩
  · have more : 0 < bits.free - 1 := by omega
    rw [if_neg last]
    exact ⟨more, Nat.le_trans (Nat.sub_le ..) within, used⟩

def writeSlot (bits : PendingBits) : Int :=
  match order with
  | .highFirst => bits.free - 1
  | .lowFirst => 8 - bits.free

/-- Where the next bit is read in its byte, which is a new one if there is none to read from. -/
def readSlot (bits : PendingBits) : Int :=
  let used := if 8 ≤ bits.used then 0 else bits.used
  match order with
  | .highFirst => 7 - (used : Int)
  | .lowFirst => used

theorem Orderly.writeSlot (orderly : bits.Orderly) :
    0 ≤ bits.writeSlot order ∧ bits.writeSlot order ≤ 7 ∧
      bits.writeSlot order = order.place (8 - bits.free) := by
  obtain ⟨positive, within, -⟩ := orderly
  cases order with
  | highFirst | lowFirst =>
    simp only [PendingBits.writeSlot, BitOrder.place]
    omega

theorem readSlot_within (bits : PendingBits) :
    0 ≤ bits.readSlot order ∧ bits.readSlot order ≤ 7 ∧
      bits.readSlot order = order.place (if 8 ≤ bits.used then 0 else bits.used) := by
  have within : (if 8 ≤ bits.used then 0 else bits.used) ≤ 7 := by
    split <;> omega
  unfold PendingBits.readSlot
  generalize (if 8 ≤ bits.used then 0 else bits.used) = used at within ⊢
  cases order with
  | highFirst =>
    simp only [BitOrder.place]
    omega
  | lowFirst => exact ⟨Int.natCast_nonneg used, Int.ofNat_le.mpr within, rfl⟩

end PendingBits

theorem BufferRequest.orderly_step (request : BufferRequest) {b : Buffer} (orderly : b.bits.Orderly) :
    (request.step b).after.bits.Orderly := by
  show (settled (request.perform b)).2.bits.Orderly
  rcases request.onBits_or_keeps with onBits | keeps
  · cases onBits with
    | writeBit order bit => exact (bits_writeBit order bit).symm ▸ orderly.push order bit
    | readBit order =>
      show (settled (Buffer.readBit order b)).2.bits.Orderly
      rcases readBit_cases order b with ⟨e, after, came, same⟩ | ⟨bit, after, came, free, used⟩
      · rw [came]
        exact same.symm ▸ orderly
      · obtain ⟨positive, within, -⟩ := orderly
        rw [came]
        refine ⟨by rwa [← free] at positive, by rwa [← free] at within, ?_⟩
        simp only [settled, used]
        split <;> omega
    | flushBits => exact bits_flushBits.symm ▸ PendingBits.orderly_none
    | finish => exact bits_finish.symm ▸ PendingBits.orderly_none
    | erase => exact bits_erase.symm ▸ PendingBits.orderly_none
  · rw [keeps b]
    exact orderly

namespace Buffer

theorem orderly_afterAll (requests : List BufferRequest) {b : Buffer} (orderly : b.bits.Orderly) :
    (afterAll requests b).bits.Orderly := by
  induction requests generalizing b with
  | nil => exact orderly
  | cons request rest ih => exact ih (request.orderly_step orderly)

end Buffer

end BinaryCodec
