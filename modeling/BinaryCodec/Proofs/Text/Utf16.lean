import BinaryCodec.Proofs.Text.Utf8
import BinaryCodec.Text.Utf16

namespace BinaryCodec.Utf16

theorem isHigh_iff {unit : UInt16} : isHigh unit = true ↔ 0xd800 ≤ unit.toNat ∧ unit.toNat < 0xdc00 := by
  simp [isHigh, UInt16.le_iff_toNat_le, UInt16.lt_iff_toNat_lt]

theorem isLow_iff {unit : UInt16} : isLow unit = true ↔ 0xdc00 ≤ unit.toNat ∧ unit.toNat < 0xe000 := by
  simp [isLow, UInt16.le_iff_toNat_le, UInt16.lt_iff_toNat_lt]

theorem decodeChars_single {unit : UInt16} (high : isHigh unit = false) (low : isLow unit = false)
    (rest : List UInt16) :
    decodeChars (unit :: rest) = Char.ofNat unit.toNat :: decodeChars rest := by
  cases rest with
  | nil => simp [decodeChars, high, low]
  | cons next rest => simp [decodeChars, high, low]

theorem decodeChars_pair {high low : UInt16} (first : isHigh high = true) (second : isLow low = true)
    (rest : List UInt16) :
    decodeChars (high :: low :: rest) = pairChar high low :: decodeChars rest := by
  rw [decodeChars]
  simp [first, second]

theorem decodeChars_encodeChar (c : Char) (rest : List UInt16) :
    decodeChars (encodeChar c ++ rest) = c :: decodeChars rest := by
  have bound := Utf8.char_lt c
  have scalar := c.valid
  have whole : Char.ofNat c.toNat = c := Char.ofNat_toNat c
  unfold encodeChar
  by_cases small : c.toNat < 0x10000
  · have same : (UInt16.ofNat c.toNat).toNat = c.toNat := by
      rw [UInt16.toNat_ofNat']
      exact Nat.mod_eq_of_lt small
    have outside : c.toNat < 0xd800 ∨ 0xdfff < c.toNat := scalar.imp_right And.left
    have high : isHigh (UInt16.ofNat c.toNat) = false := by
      rw [Bool.eq_false_iff, Ne, isHigh_iff, same]
      omega
    have low : isLow (UInt16.ofNat c.toNat) = false := by
      rw [Bool.eq_false_iff, Ne, isLow_iff, same]
      omega
    simp only [small, if_true, List.singleton_append]
    rw [decodeChars_single high low, same, whole]
  · have first : (UInt16.ofNat (0xd800 + (c.toNat - 0x10000) / 0x400)).toNat =
        0xd800 + (c.toNat - 0x10000) / 0x400 := by
      rw [UInt16.toNat_ofNat']
      omega
    have second : (UInt16.ofNat (0xdc00 + (c.toNat - 0x10000) % 0x400)).toNat =
        0xdc00 + (c.toNat - 0x10000) % 0x400 := by
      rw [UInt16.toNat_ofNat']
      omega
    have high : isHigh (UInt16.ofNat (0xd800 + (c.toNat - 0x10000) / 0x400)) = true := by
      rw [isHigh_iff, first]
      omega
    have low : isLow (UInt16.ofNat (0xdc00 + (c.toNat - 0x10000) % 0x400)) = true := by
      rw [isLow_iff, second]
      omega
    have joined : 0x10000 + (0xd800 + (c.toNat - 0x10000) / 0x400 - 0xd800) * 0x400 +
        (0xdc00 + (c.toNat - 0x10000) % 0x400 - 0xdc00) = c.toNat := by
      omega
    simp only [small, if_false, List.cons_append, List.nil_append]
    rw [decodeChars_pair high low, pairChar, first, second, joined, whole]

theorem decodeChars_encode (chars : List Char) : decodeChars (chars.flatMap encodeChar) = chars := by
  induction chars with
  | nil => rw [List.flatMap_nil, decodeChars]
  | cons c rest ih => rw [List.flatMap_cons, decodeChars_encodeChar, ih]

theorem decode_encode (text : String) : decode (encode text) = text := by
  unfold decode encode
  rw [decodeChars_encode, String.ofList_toList]

end BinaryCodec.Utf16
