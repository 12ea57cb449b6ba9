import BinaryCodec.Proofs.Bytes.Word
import BinaryCodec.Varint

namespace BinaryCodec.Varint

def Grouped (groups : List UInt8) : Prop :=
  ∃ continued last, groups = continued ++ [last] ∧ (∀ b ∈ continued, 128 ≤ b) ∧ last < 128

theorem Grouped.cons {groups : List UInt8} (grouped : Grouped groups) {b : UInt8} (h : 128 ≤ b) :
    Grouped (b :: groups) := by
  obtain ⟨continued, last, rfl, all, ends⟩ := grouped
  refine ⟨b :: continued, last, rfl, ?_, ends⟩
  intro c member
  rcases List.mem_cons.mp member with rfl | member
  · exact h
  · exact all c member

theorem grouped_singleton {b : UInt8} (h : b < 128) : Grouped [b] :=
  ⟨[], b, rfl, by simp, h⟩

theorem Grouped.length_pos {groups : List UInt8} (grouped : Grouped groups) :
    0 < groups.length := by
  obtain ⟨continued, last, rfl, -, -⟩ := grouped
  simp

theorem ofNat_lt_128 {n : Nat} (h : n < 128) : UInt8.ofNat n < 128 := by
  rw [UInt8.lt_iff_toNat_lt, UInt8.toNat_ofNat']
  have : (128 : UInt8).toNat = 128 := rfl
  omega

theorem le_ofNat_add_128 {n : Nat} (h : n < 128) : 128 ≤ UInt8.ofNat (n + 128) := by
  rw [UInt8.le_iff_toNat_le, UInt8.toNat_ofNat']
  have : (128 : UInt8).toNat = 128 := rfl
  omega

theorem payload_ofNat (n : Nat) : (UInt8.ofNat n).toNat % 128 = n % 128 := by
  rw [UInt8.toNat_ofNat']
  omega

theorem bitLength_le_iff {n k : Nat} : bitLength n ≤ k ↔ n < Word.count k := by
  unfold bitLength
  by_cases zero : n = 0
  · have := Word.count_pos k
    simp only [zero, if_true]
    omega
  · simp only [zero, if_false]
    exact Nat.log2_lt zero

theorem bitLength_div (n : Nat) : bitLength (n / 128) = bitLength n - 7 := by
  have shift (k : Nat) : bitLength (n / 128) ≤ k ↔ bitLength n ≤ k + 7 := by
    rw [bitLength_le_iff, bitLength_le_iff, Word.count_add, Nat.div_lt_iff_lt_mul (by decide)]
    exact Iff.rfl
  have low := (shift (bitLength n - 7)).mpr (by omega)
  have high := (shift (bitLength (n / 128))).mp (Nat.le_refl _)
  omega

section unsigned

theorem grouped_encodeUnsigned (n : Nat) : Grouped (encodeUnsigned n) := by
  induction n using Nat.strongRecOn with
  | ind n ih =>
    rw [encodeUnsigned]
    split
    · next small => exact grouped_singleton (ofNat_lt_128 small)
    · exact (ih (n / 128) (by omega)).cons (le_ofNat_add_128 (by omega))

theorem unsignedValue_encodeUnsigned (n : Nat) : unsignedValue (encodeUnsigned n) = n := by
  induction n using Nat.strongRecOn with
  | ind n ih =>
    rw [encodeUnsigned]
    split
    · simp only [unsignedValue, payload_ofNat]
      omega
    · simp only [unsignedValue, payload_ofNat, ih (n / 128) (by omega)]
      omega

theorem unsignedLength_eq (n : Nat) :
    unsignedLength n = if n < 128 then 1 else unsignedLength (n / 128) + 1 := by
  have small : bitLength n ≤ 7 ↔ n < 128 := bitLength_le_iff
  have div := bitLength_div n
  unfold unsignedLength groupCount
  split <;> omega

@[simp] theorem length_encodeUnsigned (n : Nat) : (encodeUnsigned n).length = unsignedLength n := by
  induction n using Nat.strongRecOn with
  | ind n ih =>
    rw [encodeUnsigned, unsignedLength_eq]
    split
    · rfl
    · rw [List.length_cons, ih (n / 128) (by omega)]

theorem unsignedLength_pos (n : Nat) : 0 < unsignedLength n := by
  unfold unsignedLength
  omega

theorem unsignedLength_le {bits n : Nat} (positive : 0 < bits) (h : n < Word.count bits) :
    unsignedLength n ≤ groupCount bits := by
  have := bitLength_le_iff.mpr h
  unfold unsignedLength groupCount
  omega

theorem lt_of_unsigned? {bits n : Nat} {groups : List UInt8} (h : unsigned? bits groups = .ok n) :
    n < Word.count bits := by
  simp only [unsigned?] at h
  split at h
  · next fits =>
    cases h
    exact fits
  · cases h

theorem unsigned?_encodeUnsigned {bits n : Nat} (h : n < Word.count bits) :
    unsigned? bits (encodeUnsigned n) = .ok n := by
  simp only [unsigned?, unsignedValue_encodeUnsigned, h, if_true]

end unsigned

section signed

def magnitude (n : Int) : Nat := (if n < 0 then -n - 1 else n).toNat

theorem grouped_encodeSigned (n : Int) : Grouped (encodeSigned n) := by
  induction size : n.natAbs using Nat.strongRecOn generalizing n with
  | ind m ih =>
    rw [encodeSigned]
    split
    · exact grouped_singleton (ofNat_lt_128 (by omega))
    · exact (ih (n / 128).natAbs (by omega) _ rfl).cons (le_ofNat_add_128 (by omega))

theorem signedValue_cons {b : UInt8} {rest : List UInt8} (h : rest ≠ []) :
    signedValue (b :: rest) = (b.toNat % 128 : Int) + 128 * signedValue rest := by
  cases rest with
  | nil => exact absurd rfl h
  | cons c rest => rfl

theorem signedValue_encodeSigned (n : Int) : signedValue (encodeSigned n) = n := by
  induction size : n.natAbs using Nat.strongRecOn generalizing n with
  | ind m ih =>
    rw [encodeSigned]
    split
    · have payload := payload_ofNat (n % 128).toNat
      simp only [signedValue]
      split <;> omega
    · have payload := payload_ofNat ((n % 128).toNat + 128)
      have filled := (grouped_encodeSigned (n / 128)).length_pos
      rw [signedValue_cons (List.length_pos_iff.mp filled),
        ih (n / 128).natAbs (by omega) _ rfl]
      omega

theorem signedLength_eq (n : Int) :
    signedLength n = if -64 ≤ n ∧ n < 64 then 1 else signedLength (n / 128) + 1 := by
  change groupCount (bitLength (magnitude n) + 1) =
    if -64 ≤ n ∧ n < 64 then 1 else groupCount (bitLength (magnitude (n / 128)) + 1) + 1
  have small : bitLength (magnitude n) ≤ 6 ↔ magnitude n < 64 := bitLength_le_iff
  have same : magnitude (n / 128) = magnitude n / 128 := by
    unfold magnitude
    split <;> split <;> omega
  have bounds : magnitude n < 64 ↔ -64 ≤ n ∧ n < 64 := by
    unfold magnitude
    split <;> omega
  have div := bitLength_div (magnitude n)
  rw [same]
  unfold groupCount
  split <;> omega

@[simp] theorem length_encodeSigned (n : Int) : (encodeSigned n).length = signedLength n := by
  induction size : n.natAbs using Nat.strongRecOn generalizing n with
  | ind m ih =>
    rw [encodeSigned, signedLength_eq]
    split
    · rfl
    · rw [List.length_cons, ih (n / 128).natAbs (by omega) _ rfl]

theorem signedLength_le {bits : Nat} {n : Int} (positive : 0 < bits)
    (h : Word.holdsSigned bits n = true) : signedLength n ≤ groupCount bits := by
  obtain ⟨low, high⟩ := Word.holdsSigned_iff.mp h
  have small : magnitude n < Word.count (bits - 1) := by
    unfold magnitude
    split <;> omega
  have := bitLength_le_iff.mpr small
  change groupCount (bitLength (magnitude n) + 1) ≤ _
  unfold groupCount
  omega

theorem holds_of_signed? {bits : Nat} {n : Int} {groups : List UInt8}
    (h : signed? bits groups = .ok n) : Word.holdsSigned bits n = true := by
  simp only [signed?] at h
  split at h
  · next fits =>
    cases h
    exact fits
  · cases h

theorem signed?_encodeSigned {bits : Nat} {n : Int} (h : Word.holdsSigned bits n = true) :
    signed? bits (encodeSigned n) = .ok n := by
  simp only [signed?, signedValue_encodeSigned, h, if_true]

end signed

end BinaryCodec.Varint
