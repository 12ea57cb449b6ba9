import BinaryCodec.Bytes.Endian
import BinaryCodec.Bytes.Word

namespace BinaryCodec

namespace Word

theorem count_add (m n : Nat) : count (m + n) = count m * count n := Nat.pow_add 2 m n

theorem count_pos (bits : Nat) : 0 < count bits := Nat.two_pow_pos bits

theorem count_le {m n : Nat} (h : m ≤ n) : count m ≤ count n := Nat.pow_le_pow_right (by decide) h

theorem count_succ (bits : Nat) : count (bits + 1) = 2 * count bits := by
  rw [count_add, Nat.mul_comm]
  rfl

theorem le_last_iff {bits n : Nat} : n ≤ last bits ↔ n < count bits := by
  have := count_pos bits
  unfold last
  omega

theorem double_half {bits : Nat} (positive : 0 < bits) : 2 * count (bits - 1) = count bits := by
  rw [← count_succ, Nat.sub_add_cancel positive]

theorem holdsUnsigned_iff {bits : Nat} {n : Int} :
    holdsUnsigned bits n = true ↔ 0 ≤ n ∧ n < count bits := by
  simp only [holdsUnsigned, Bool.and_eq_true, decide_eq_true_eq]

theorem holdsSigned_iff {bits : Nat} {n : Int} :
    holdsSigned bits n = true ↔ -(count (bits - 1) : Int) ≤ n ∧ n < count (bits - 1) := by
  simp only [holdsSigned, Bool.and_eq_true, decide_eq_true_eq]

theorem holdsSigned_mono {m n : Nat} (h : m ≤ n) {k : Int} (holds : holdsSigned m k = true) :
    holdsSigned n k = true := by
  obtain ⟨low, high⟩ := holdsSigned_iff.mp holds
  have := count_le (show m - 1 ≤ n - 1 by omega)
  exact holdsSigned_iff.mpr ⟨by omega, by omega⟩

theorem wrap_lt (bits : Nat) (n : Int) : wrap bits n < count bits := by
  have positive : (0 : Int) < count bits := Int.natCast_pos.mpr (count_pos bits)
  have nonnegative := Int.emod_nonneg n (Int.ne_of_gt positive)
  have below := Int.emod_lt_of_pos n positive
  unfold wrap
  omega

theorem unwrap_wrap {bits : Nat} (positive : 0 < bits) {n : Int}
    (holds : holdsSigned bits n = true) : unwrap bits (wrap bits n) = n := by
  obtain ⟨low, high⟩ := holdsSigned_iff.mp holds
  have double := double_half positive
  unfold unwrap wrap
  by_cases negative : n < 0
  · have wrapped : n % (count bits : Int) = n + count bits := by
      rw [← Int.add_emod_right, Int.emod_eq_of_lt (by omega) (by omega)]
    rw [wrapped, if_neg (by omega)]
    omega
  · rw [Int.emod_eq_of_lt (by omega) (by omega), if_pos (by omega)]
    omega

theorem wrap_of_holdsUnsigned {bits : Nat} {n : Int} (holds : holdsUnsigned bits n = true) :
    (wrap bits n : Int) = n := by
  obtain ⟨low, high⟩ := holdsUnsigned_iff.mp holds
  unfold wrap
  rw [Int.emod_eq_of_lt low high]
  omega

theorem holdsSigned_unwrap {bits n : Nat} (positive : 0 < bits) (h : n < count bits) :
    holdsSigned bits (unwrap bits n) = true := by
  have double := double_half positive
  rw [holdsSigned_iff]
  unfold unwrap
  split <;> omega

end Word

namespace Endian

@[simp] theorem length_toLittle (width n : Nat) : (toLittle width n).length = width := by
  induction width generalizing n with
  | zero => rfl
  | succ width ih => simp only [toLittle, List.length_cons, ih]

@[simp] theorem length_encode (order : ByteOrder) (width n : Nat) :
    (encode order width n).length = width := by
  cases order <;> simp [encode]

theorem ofLittle_toLittle {width n : Nat} (h : n < Word.count (8 * width)) :
    ofLittle (toLittle width n) = n := by
  induction width generalizing n with
  | zero =>
    have : n = 0 := Nat.lt_one_iff.mp h
    simp [toLittle, ofLittle, this]
  | succ width ih =>
    have split : Word.count (8 * (width + 1)) = Word.count (8 * width) * 256 := Word.count_add _ 8
    simp only [toLittle, ofLittle, UInt8.toNat_ofNat']
    rw [ih (by omega)]
    omega

theorem decode_encode (order : ByteOrder) {width n : Nat} (h : n < Word.count (8 * width)) :
    decode order (encode order width n) = n := by
  cases order <;> simp [decode, encode, ofLittle_toLittle h]

theorem ofLittle_lt (bytes : List UInt8) : ofLittle bytes < Word.count (8 * bytes.length) := by
  induction bytes with
  | nil => decide
  | cons b rest ih =>
    have split : Word.count (8 * (rest.length + 1)) = Word.count (8 * rest.length) * 256 :=
      Word.count_add _ 8
    have := b.toNat_lt
    simp only [ofLittle, List.length_cons]
    omega

theorem decode_lt (order : ByteOrder) (bytes : List UInt8) :
    decode order bytes < Word.count (8 * bytes.length) := by
  cases order with
  | little => exact ofLittle_lt bytes
  | big => simpa [decode] using ofLittle_lt bytes.reverse

end Endian

end BinaryCodec
