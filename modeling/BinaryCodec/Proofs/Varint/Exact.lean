import BinaryCodec.Proofs.Varint.Decoding
import Mathlib.Tactic.Ring

namespace BinaryCodec.Varint

variable {bits k used : Nat} {bytes groups : List UInt8}

section sums

/-- The sum of the payloads of the groups up to number `k`. -/
def payloadSum (bytes : List UInt8) (k : Nat) : Nat :=
  ∑ i ∈ Finset.range (k + 1), (bytes.getD i 0 &&& 0x7f).toNat * 128 ^ i

/-- That sum, less the first power beyond it if bit 6 of group `k` is set. -/
def signedSum (bytes : List UInt8) (k : Nat) : Int :=
  if bytes.getD k 0 &&& 0x40 ≠ 0 then payloadSum bytes k - 128 ^ (k + 1) else payloadSum bytes k

theorem unsignedValue_eq_sum (groups : List UInt8) :
    unsignedValue groups =
      ∑ i ∈ Finset.range groups.length, (groups.getD i 0 &&& 0x7f).toNat * 128 ^ i := by
  induction groups with
  | nil => rfl
  | cons group rest ih =>
    have shift (i : Nat) : (rest.getD i 0 &&& 0x7f).toNat * 128 ^ (i + 1) =
        128 * ((rest.getD i 0 &&& 0x7f).toNat * 128 ^ i) := by
      rw [pow_succ]
      ring
    have first : (group &&& 0x7f).toNat = group.toNat % 128 := toNat_payload group
    simp only [unsignedValue, List.length_cons, Finset.sum_range_succ', List.getD_cons_succ,
      List.getD_cons_zero, shift, ← Finset.mul_sum, ← ih, first, pow_zero, mul_one]
    exact Nat.add_comm ..

theorem unsignedValue_take (found : lastGroup? bytes = some k) :
    unsignedValue (bytes.take (k + 1)) = payloadSum bytes k := by
  rw [unsignedValue_eq_sum, length_take_lastGroup? found, payloadSum]
  refine Finset.sum_congr rfl fun i member => ?_
  rw [List.getD_eq_getElem?_getD, List.getD_eq_getElem?_getD,
    List.getElem?_take_of_lt (Finset.mem_range.mp member)]

theorem signedValue_append (continued : List UInt8) (last : UInt8) :
    signedValue (continued ++ [last]) = unsignedValue (continued ++ [last]) -
      if isNegative last then 128 ^ (continued.length + 1) else 0 := by
  induction continued with
  | nil =>
    rw [List.nil_append, signedValue_singleton]
    simp [unsignedValue]
  | cons group continued ih =>
    rw [List.cons_append, signedValue_cons (by simp), ih, unsignedValue, List.length_cons]
    push_cast
    split <;> ring

theorem signedValue_take (found : lastGroup? bytes = some k) :
    signedValue (bytes.take (k + 1)) = signedSum bytes k := by
  have inside := lt_of_lastGroup? found
  have last : bytes.take (k + 1) = bytes.take k ++ [bytes.getD k 0] := by
    rw [List.take_succ_eq_append_getElem inside, List.getD_eq_getElem?_getD,
      List.getElem?_eq_getElem inside, Option.getD_some]
  have length : (bytes.take k).length = k := by
    rw [List.length_take]
    omega
  rw [last, signedValue_append, ← last, unsignedValue_take found, length, signedSum]
  simp only [isNegative, bne_iff_ne]
  split
  · rfl
  · exact Int.sub_zero _

end sums

section exactness

theorem unsigned?_ok_iff {value : Nat} :
    unsigned? bits groups = .ok value ↔
      unsignedValue groups < Word.count bits ∧ value = unsignedValue groups := by
  simp only [unsigned?]
  split
  · next fits => simp [fits, eq_comm]
  · next wide => simp [wide]

theorem signed?_ok_iff {value : Int} :
    signed? bits groups = .ok value ↔
      Word.holdsSigned bits (signedValue groups) = true ∧ value = signedValue groups := by
  simp only [signed?]
  split
  · next fits => simp [fits, eq_comm]
  · next wide => simp [wide]

theorem unsigned?_error {e : Error} (fails : unsigned? bits groups = .error e) :
    e = .varintOverflow bits := by
  simp only [unsigned?] at fails
  split at fails <;> cases fails
  rfl

theorem signed?_error {e : Error} (fails : signed? bits groups = .error e) :
    e = .varintOverflow bits := by
  simp only [signed?] at fails
  split at fails <;> cases fails
  rfl

theorem decodeUnsigned_ok_iff (narrow : bits ≤ 128) {value : Nat} :
    decodeUnsigned bits bytes = .ok (value, used) ↔
      ∃ k, lastGroup? bytes = some k ∧ k < groupCount bits ∧ payloadSum bytes k < 2 ^ bits ∧
        value = payloadSum bytes k ∧ used = k + 1 := by
  rw [decodeUnsigned_eq narrow, frontGroups_ok_iff]
  refine exists_congr fun k => and_congr_right fun found => and_congr_right fun _ => ?_
  rw [unsigned?_ok_iff, unsignedValue_take found, and_assoc]
  exact Iff.rfl

theorem decodeSigned_ok_iff (positive : 0 < bits) (narrow : bits ≤ 128) {value : Int} :
    decodeSigned bits bytes = .ok (value, used) ↔
      ∃ k, lastGroup? bytes = some k ∧ k < groupCount bits ∧
        -2 ^ (bits - 1) ≤ signedSum bytes k ∧ signedSum bytes k < 2 ^ (bits - 1) ∧
        value = signedSum bytes k ∧ used = k + 1 := by
  have count : ((Word.count (bits - 1) : Nat) : Int) = 2 ^ (bits - 1) := Nat.cast_pow 2 (bits - 1)
  rw [decodeSigned_eq positive narrow, frontGroups_ok_iff]
  refine exists_congr fun k => and_congr_right fun found => and_congr_right fun _ => ?_
  rw [signed?_ok_iff, signedValue_take found, Word.holdsSigned_iff, count, and_assoc, and_assoc]

theorem readUnsigned_word (narrow : bits ≤ 128) {word : BitVec 128}
    (answer : decodeWith bytes (fun next => readUnsigned next bits) = .ok (word, used)) :
    ∃ k, lastGroup? bytes = some k ∧ word.toNat = payloadSum bytes k := by
  rw [decodeWith_readUnsigned narrow] at answer
  obtain ⟨k, value, found, fits, rfl⟩ := frontGroups_map_ok answer
  obtain ⟨small, rfl⟩ := unsigned?_ok_iff.mp fits
  have inside : unsignedValue (bytes.take (k + 1)) < 2 ^ 128 :=
    Nat.lt_of_lt_of_le small (Word.count_le narrow)
  refine ⟨k, found, ?_⟩
  rw [BitVec.toNat_ofNat, Nat.mod_eq_of_lt inside, unsignedValue_take found]

theorem readSigned_word (positive : 0 < bits) (narrow : bits ≤ 128) {word : BitVec 128}
    (answer : decodeWith bytes (fun next => readSigned next bits) = .ok (word, used)) :
    ∃ k, lastGroup? bytes = some k ∧ word.toInt = signedSum bytes k := by
  rw [decodeWith_readSigned positive narrow] at answer
  obtain ⟨k, value, found, fits, rfl⟩ := frontGroups_map_ok answer
  obtain ⟨holds, rfl⟩ := signed?_ok_iff.mp fits
  refine ⟨k, found, ?_⟩
  rw [toInt_ofInt (by decide) (Word.holdsSigned_mono narrow holds), signedValue_take found]

/-- The decoders answer with the sum of the groups exactly where there are not too many and the asked
width holds it, and the word that they compute it in holds all of it. They fail with the end of the
data exactly where the groups go on to the end of too few bytes. -/
theorem decoding_exact (positive : 0 < bits) (narrow : bits ≤ 128) (bytes : List UInt8) :
    (∀ value used, decodeUnsigned bits bytes = .ok (value, used) ↔
      ∃ k, lastGroup? bytes = some k ∧ k < groupCount bits ∧ payloadSum bytes k < 2 ^ bits ∧
        value = payloadSum bytes k ∧ used = k + 1) ∧
    (∀ value used, decodeSigned bits bytes = .ok (value, used) ↔
      ∃ k, lastGroup? bytes = some k ∧ k < groupCount bits ∧
        -2 ^ (bits - 1) ≤ signedSum bytes k ∧ signedSum bytes k < 2 ^ (bits - 1) ∧
        value = signedSum bytes k ∧ used = k + 1) ∧
    (∀ e, decodeUnsigned bits bytes = .error e ∨ decodeSigned bits bytes = .error e →
      e = if lastGroup? bytes = none ∧ bytes.length < groupCount bits then
        .endOfData (bytes.length + 1) bytes.length else .varintOverflow bits) ∧
    (∀ word used, decodeWith bytes (fun next => readUnsigned next bits) = .ok (word, used) →
      ∃ k, lastGroup? bytes = some k ∧ word.toNat = payloadSum bytes k) ∧
    (∀ word used, decodeWith bytes (fun next => readSigned next bits) = .ok (word, used) →
      ∃ k, lastGroup? bytes = some k ∧ word.toInt = signedSum bytes k) := by
  refine ⟨fun _ _ => decodeUnsigned_ok_iff narrow, fun _ _ => decodeSigned_ok_iff positive narrow,
    ?_, fun _ _ => readUnsigned_word narrow, fun _ _ => readSigned_word positive narrow⟩
  rintro e (fails | fails)
  · rw [decodeUnsigned_eq narrow] at fails
    exact frontGroups_error (fun _ _ => unsigned?_error) fails
  · rw [decodeSigned_eq positive narrow] at fails
    exact frontGroups_error (fun _ _ => signed?_error) fails

/-- A padded encoding, a negative integer of one group, and the end of the data after a group that
continues. -/
theorem decoding_exact_padded :
    decodeUnsigned 64 [0x80, 0x81, 0x00] = .ok (128, 3) ∧ decodeSigned 128 [0x40] = .ok (-64, 1) ∧
      ∀ e, decodeSigned 64 [0xff] = .error e → e = .endOfData 2 1 := by
  refine ⟨?_, ?_, fun e fails => ?_⟩
  · exact ((decoding_exact (by decide) (by decide) _).1 _ _).mpr
      ⟨2, by decide, by decide, by decide, by decide, rfl⟩
  · exact ((decoding_exact (by decide) (by decide) _).2.1 _ _).mpr
      ⟨0, by decide, by decide, by decide, by decide, by decide, rfl⟩
  · exact (decoding_exact (by decide) (by decide) [0xff]).2.2.1 e (.inr fails)

end exactness

section encodings

theorem decodeUnsigned_encodeUnsigned (positive : 0 < bits) (narrow : bits ≤ 128) (n : Nat)
    (rest : List UInt8) :
    decodeUnsigned bits (encodeUnsigned n ++ rest) =
      if n < 2 ^ bits then .ok (n, (encodeUnsigned n).length) else .error (.varintOverflow bits) := by
  rw [decodeUnsigned_eq narrow]
  refine frontGroups_encoded (grouped_encodeUnsigned n) (fun fits => ?_) ?_ rest
  · rw [length_encodeUnsigned]
    exact unsignedLength_le positive fits
  · simp only [unsigned?, unsignedValue_encodeUnsigned]
    rfl

theorem decodeSigned_encodeSigned (positive : 0 < bits) (narrow : bits ≤ 128) (n : Int)
    (rest : List UInt8) :
    decodeSigned bits (encodeSigned n ++ rest) =
      if Word.holdsSigned bits n then .ok (n, (encodeSigned n).length)
      else .error (.varintOverflow bits) := by
  rw [decodeSigned_eq positive narrow]
  refine frontGroups_encoded (grouped_encodeSigned n) (fun fits => ?_) ?_ rest
  · rw [length_encodeSigned]
    exact signedLength_le positive fits
  · simp only [signed?, signedValue_encodeSigned]

theorem unsignedValue_lt (groups : List UInt8) :
    unsignedValue groups < Word.count (7 * groups.length) := by
  induction groups with
  | nil => decide
  | cons group rest ih =>
    have split : Word.count (7 * (rest.length + 1)) = Word.count (7 * rest.length) * 128 :=
      Word.count_add _ 7
    simp only [unsignedValue, List.length_cons]
    omega

theorem holdsSigned_signedValue (groups : List UInt8) :
    Word.holdsSigned (7 * groups.length) (signedValue groups) = true := by
  induction groups with
  | nil => decide
  | cons group rest ih =>
    by_cases last : rest = []
    · subst last
      have half : Word.count (7 * 1 - 1) = 64 := by decide
      rw [Word.holdsSigned_iff, List.length_singleton, half]
      simp only [signedValue]
      split <;> omega
    · have filled := List.length_pos_iff.mpr last
      have split : Word.count (7 * (rest.length + 1) - 1) = Word.count (7 * rest.length - 1) * 128 := by
        rw [show 7 * (rest.length + 1) - 1 = (7 * rest.length - 1) + 7 by omega, Word.count_add]
        rfl
      rw [Word.holdsSigned_iff] at ih
      rw [Word.holdsSigned_iff, signedValue_cons last, List.length_cons, split]
      omega

theorem unsignedLength_le_used (narrow : bits ≤ 128) {n : Nat}
    (answer : decodeUnsigned bits bytes = .ok (n, used)) : unsignedLength n ≤ used := by
  rw [decodeUnsigned_eq narrow, frontGroups_ok_iff] at answer
  obtain ⟨k, found, -, value, rfl⟩ := answer
  obtain ⟨-, rfl⟩ := unsigned?_ok_iff.mp value
  have bound := unsignedValue_lt (bytes.take (k + 1))
  rw [length_take_lastGroup? found] at bound
  have shortest := unsignedLength_le (by omega) bound
  unfold groupCount at shortest
  omega

theorem signedLength_le_used (positive : 0 < bits) (narrow : bits ≤ 128) {n : Int}
    (answer : decodeSigned bits bytes = .ok (n, used)) : signedLength n ≤ used := by
  rw [decodeSigned_eq positive narrow, frontGroups_ok_iff] at answer
  obtain ⟨k, found, -, value, rfl⟩ := answer
  obtain ⟨-, rfl⟩ := signed?_ok_iff.mp value
  have bound := holdsSigned_signedValue (bytes.take (k + 1))
  rw [length_take_lastGroup? found] at bound
  have shortest := signedLength_le (by omega) bound
  unfold groupCount at shortest
  omega

/-- Decoding undoes encoding whatever follows, at 64 bits just where the integer fits, and no decoder
takes fewer bytes for the same integer. -/
theorem encoding_inverted_shortest (v : BitVec 128) :
    ((∀ rest, decodeUnsigned 128 (encodeUnsigned v.toNat ++ rest) =
        .ok (v.toNat, (encodeUnsigned v.toNat).length)) ∧
      (∀ rest, decodeUnsigned 64 (encodeUnsigned v.toNat ++ rest) =
        if v.toNat < 2 ^ 64 then .ok (v.toNat, (encodeUnsigned v.toNat).length)
        else .error (.varintOverflow 64)) ∧
      (encodeUnsigned v.toNat).length = unsignedLength v.toNat ∧
      ∀ bits ∈ [64, 128], ∀ bytes used, decodeUnsigned bits bytes = .ok (v.toNat, used) →
        (encodeUnsigned v.toNat).length ≤ used) ∧
    (∀ rest, decodeSigned 128 (encodeSigned v.toInt ++ rest) =
        .ok (v.toInt, (encodeSigned v.toInt).length)) ∧
      (∀ rest, decodeSigned 64 (encodeSigned v.toInt ++ rest) =
        if -2 ^ 63 ≤ v.toInt ∧ v.toInt < 2 ^ 63 then .ok (v.toInt, (encodeSigned v.toInt).length)
        else .error (.varintOverflow 64)) ∧
      (encodeSigned v.toInt).length = signedLength v.toInt ∧
      ∀ bits ∈ [64, 128], ∀ bytes used, decodeSigned bits bytes = .ok (v.toInt, used) →
        (encodeSigned v.toInt).length ≤ used := by
  have width {bits : Nat} (member : bits ∈ [64, 128]) : 0 < bits ∧ bits ≤ 128 := by
    simp only [List.mem_cons, List.not_mem_nil, or_false] at member
    omega
  have fits : Word.holdsSigned 128 v.toInt = true :=
    Word.holdsSigned_iff.mpr ⟨BitVec.le_toInt v, BitVec.toInt_lt⟩
  refine ⟨⟨fun rest => ?_, fun rest => ?_, length_encodeUnsigned _, fun bits member bytes used ok => ?_⟩,
    fun rest => ?_, fun rest => ?_, length_encodeSigned _, fun bits member bytes used ok => ?_⟩
  · rw [decodeUnsigned_encodeUnsigned (by decide) (by decide), if_pos v.isLt]
  · exact decodeUnsigned_encodeUnsigned (by decide) (by decide) _ rest
  · rw [length_encodeUnsigned]
    exact unsignedLength_le_used (width member).2 ok
  · rw [decodeSigned_encodeSigned (by decide) (by decide), if_pos fits]
  · rw [decodeSigned_encodeSigned (by decide) (by decide)]
    exact if_congr Word.holdsSigned_iff rfl rfl
  · rw [length_encodeSigned]
    exact signedLength_le_used (width member).1 (width member).2 ok

/-- The least integer beyond 64 bits, a negative integer of one group, and a padded zero. -/
theorem encoding_inverted_shortest_power :
    decodeUnsigned 64 (encodeUnsigned (18446744073709551616 : BitVec 128).toNat ++ [7]) =
        .error (.varintOverflow 64) ∧
      decodeSigned 64 (encodeSigned (-64 : BitVec 128).toInt ++ [7]) =
        .ok ((-64 : BitVec 128).toInt, (encodeSigned (-64 : BitVec 128).toInt).length) ∧
      decodeUnsigned 64 [0x80, 0x00] = .ok ((0 : BitVec 128).toNat, 2) ∧
      (encodeUnsigned (0 : BitVec 128).toNat).length ≤ 2 := by
  have padded : decodeUnsigned 64 [0x80, 0x00] = .ok ((0 : BitVec 128).toNat, 2) := rfl
  refine ⟨?_, ?_, padded, ?_⟩
  · exact ((encoding_inverted_shortest _).1.2.1 [7]).trans (if_neg (by decide))
  · exact ((encoding_inverted_shortest _).2.2.1 [7]).trans (if_pos (by decide))
  · exact (encoding_inverted_shortest 0).1.2.2.2 64 (by decide) _ _ padded

end encodings

end BinaryCodec.Varint
