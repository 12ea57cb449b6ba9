import BinaryCodec.Proofs.Buffer.PendingBits

namespace BinaryCodec

open Buffer

variable {b after : Buffer} {e : Error}

namespace Buffer

theorem writeBit_error {order : BitOrder} {bit : Bool} (failed : writeBit order bit b = .error e after) :
    b.bits.free = 1 ∧ after.bits = { b.bits with writeByte := 0, free := 8 } := by
  have left := bits_writeBit (b := b) order bit
  rw [failed] at left
  by_cases last : b.bits.free = 1
  · exact ⟨last, left.trans (if_pos last)⟩
  · unfold writeBit at failed
    rw [bind_apply, get_apply] at failed
    simp only [last, if_false] at failed
    cases failed

theorem readBit_error {order : BitOrder} (failed : readBit order b = .error e after) :
    after.bits = b.bits := by
  rcases readBit_cases order b with ⟨_, _, came, same⟩ | ⟨_, _, came, -⟩
  · cases failed.symm.trans came
    exact same
  · cases failed.symm.trans came

end Buffer

/-- The bits that a failed request leaves pending. -/
def BufferRequest.leaves : BufferRequest → PendingBits → PendingBits
  | .read (.bit _), bits => bits
  | .write (.bit _ _), bits => { bits with writeByte := 0, free := 8 }
  | _, _ => .none

namespace BufferRequest

variable {request : BufferRequest}

theorem bits_of_cleared (clears : (settled (request.perform b)).2.bits = .none)
    (failed : request.perform b = .error e after) (writes : ∀ order, request ≠ .read (.bit order)) :
    after.bits = .none ∧
      (after.bits = b.bits ↔ (∃ order, request = .read (.bit order)) ∨ b.bits = .none) := by
  have cleared : after.bits = .none := by rwa [failed] at clears
  refine ⟨cleared, ?_⟩
  rw [cleared]
  constructor
  · intro clean
    exact .inr clean.symm
  · rintro (⟨order, reads⟩ | clean)
    · exact absurd reads (writes order)
    · exact clean.symm

/-- A request on bits that fails leaves them as they were if it was to read one, or if none were pending. -/
theorem bits_of_error (onBits : request.OnBits) (failed : request.perform b = .error e after) :
    after.bits = request.leaves b.bits ∧
      (after.bits = b.bits ↔ (∃ order, request = .read (.bit order)) ∨ b.bits = .none) := by
  cases onBits with
  | readBit order =>
    have same := readBit_error failed
    exact ⟨same, fun _ => .inl ⟨order, rfl⟩, fun _ => same⟩
  | writeBit order bit =>
    obtain ⟨last, left⟩ := writeBit_error failed
    refine ⟨left, fun same => ?_, ?_⟩
    · rw [← same, left] at last
      cases last
    · rintro (⟨order, reads⟩ | clean)
      · cases reads
      · rw [clean] at last
        cases last
  | flushBits => exact bits_of_cleared bits_flushBits failed fun _ => nofun
  | finish => exact bits_of_cleared bits_finish failed fun _ => nofun
  | erase => exact bits_of_cleared bits_erase failed fun _ => nofun

def sinkFault : IoFault := ⟨.other, "writer failed"⟩

/-- A sink that takes nothing, with seven bits waiting for the eighth. -/
def sevenBits : Buffer :=
  afterAll (List.replicate 7 (.write (.bit .highFirst true)))
    (ofStore (.writer (.onto (some ⟨0, sinkFault⟩))))

theorem bits_of_error_full :
    sevenBits.bits = ⟨254, 1, 0, 8⟩ ∧ OnBits (.write (.bit .lowFirst true)) ∧
      ∃ after, writeBit .lowFirst true sevenBits = .error (.io sinkFault) after ∧
        after.bits = .none ∧ after.bits ≠ sevenBits.bits := by
  have failed : writeBit .lowFirst true sevenBits =
      .error (.io sinkFault) ⟨sevenBits.store, .none⟩ := rfl
  obtain ⟨left, kept⟩ := bits_of_error (.writeBit .lowFirst true) failed
  refine ⟨rfl, .writeBit .lowFirst true, _, failed, left, fun same => ?_⟩
  rcases kept.mp same with ⟨order, reads⟩ | clean
  · cases reads
  · cases clean

/-- The sink cannot be erased, and never receives the bit that was accepted before the attempt. -/
theorem erase_drops_bit :
    let b := afterAll [.write (.bit .highFirst true)] (ofStore (.writer (.onto none)))
    let after := afterAll [.write .erase] b
    erase b = .error (.unsupported .writer .erase) after ∧ after.bits ≠ b.bits ∧
      (afterAll [.write .flushBits] after).store.size = .ok 0 ∧
      (afterAll [.write .flushBits] b).store.size = .ok 1 := by
  refine ⟨rfl, fun same => ?_, rfl, rfl⟩
  cases same

end BufferRequest

end BinaryCodec
