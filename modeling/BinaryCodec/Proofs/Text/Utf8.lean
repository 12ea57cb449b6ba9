import BinaryCodec.Text.Utf8

namespace BinaryCodec.Utf8

theorem char_lt (c : Char) : c.toNat < 1114112 := by
  rcases c.valid with low | ⟨-, high⟩
  · change c.toNat < 55296 at low
    omega
  · exact high

theorem isContinuation_iff {b : UInt8} :
    isContinuation b = true ↔ 128 ≤ b.toNat ∧ b.toNat < 192 := by
  simp [isContinuation, UInt8.le_iff_toNat_le, UInt8.lt_iff_toNat_lt]

theorem scalar?_eq_some_iff {least n : Nat} {c : Char} :
    scalar? least n = some c ↔ least ≤ n ∧ c.toNat = n := by
  unfold scalar?
  by_cases valid : n.isValidChar
  · rw [dif_pos valid]
    constructor
    · intro h
      obtain ⟨reaches, h⟩ := Option.ite_none_right_eq_some.mp h
      cases h
      exact ⟨reaches, rfl⟩
    · rintro ⟨reaches, value⟩
      rw [if_pos reaches]
      exact congrArg some (Char.ext (UInt32.toNat_inj.mp value.symm))
  · rw [dif_neg valid]
    constructor
    · intro h
      cases h
    · rintro ⟨-, rfl⟩
      exact absurd c.valid valid

theorem ofNat_eq_iff {n : Nat} (h : n < 256) {b : UInt8} : b = UInt8.ofNat n ↔ b.toNat = n := by
  rw [← UInt8.toNat_inj, UInt8.toNat_ofNat', Nat.mod_eq_of_lt h]

section widths

variable {c : Char}

theorem encodeChar_one (h : c.toNat < 128) :
    String.utf8EncodeChar c = [UInt8.ofNat c.toNat] := by
  rw [String.utf8EncodeChar]
  exact if_pos (Nat.le_of_lt_succ h)

theorem encodeChar_two (low : 128 ≤ c.toNat) (high : c.toNat < 2048) :
    String.utf8EncodeChar c =
      [UInt8.ofNat (c.toNat / 64 + 192), UInt8.ofNat (c.toNat % 64 + 128)] := by
  rw [String.utf8EncodeChar, Char.toNat_val, if_neg (by omega), if_pos (by omega),
    Nat.mod_eq_of_lt (by omega : c.toNat / 64 < 32)]

theorem encodeChar_three (low : 2048 ≤ c.toNat) (high : c.toNat < 65536) :
    String.utf8EncodeChar c =
      [UInt8.ofNat (c.toNat / 4096 + 224), UInt8.ofNat (c.toNat / 64 % 64 + 128),
        UInt8.ofNat (c.toNat % 64 + 128)] := by
  rw [String.utf8EncodeChar, Char.toNat_val, if_neg (by omega), if_neg (by omega),
    if_pos (by omega), Nat.mod_eq_of_lt (by omega : c.toNat / 4096 < 16)]

theorem encodeChar_four (low : 65536 ≤ c.toNat) :
    String.utf8EncodeChar c =
      [UInt8.ofNat (c.toNat / 262144 + 240), UInt8.ofNat (c.toNat / 4096 % 64 + 128),
        UInt8.ofNat (c.toNat / 64 % 64 + 128), UInt8.ofNat (c.toNat % 64 + 128)] := by
  have := char_lt c
  rw [String.utf8EncodeChar, Char.toNat_val, if_neg (by omega), if_neg (by omega),
    if_neg (by omega), Nat.mod_eq_of_lt (by omega : c.toNat / 262144 < 8)]

theorem encodeChar_cases (c : Char) :
    c.toNat < 128 ∨ 128 ≤ c.toNat ∧ c.toNat < 2048 ∨
      2048 ≤ c.toNat ∧ c.toNat < 65536 ∨ 65536 ≤ c.toNat := by
  omega

theorem length_of_ascii {chars : List Char} (ascii : ∀ c ∈ chars, c.toNat < 128) :
    (chars.flatMap String.utf8EncodeChar).length = chars.length := by
  have single : ∀ c ∈ chars, (String.utf8EncodeChar c).length = 1 := by
    intro c inside
    rw [encodeChar_one (ascii c inside)]
    rfl
  rw [List.length_flatMap, List.map_congr_left single, List.map_const', List.sum_replicate_nat,
    Nat.mul_one]

end widths

theorem char?_encodeChar (c : Char) : char? (String.utf8EncodeChar c) = some c := by
  have bound := char_lt c
  rcases encodeChar_cases c with one | ⟨low, high⟩ | ⟨low, high⟩ | low
  · rw [encodeChar_one one, char?, if_pos, scalar?_eq_some_iff]
    · simp only [UInt8.toNat_ofNat']
      omega
    · simp only [UInt8.lt_iff_toNat_lt, UInt8.toNat_ofNat', UInt8.reduceToNat]
      omega
  · rw [encodeChar_two low high, char?, if_pos, scalar?_eq_some_iff]
    · simp only [UInt8.toNat_ofNat']
      omega
    · simp only [UInt8.lt_iff_toNat_lt, UInt8.le_iff_toNat_le, isContinuation_iff,
        UInt8.toNat_ofNat', UInt8.reduceToNat]
      omega
  · rw [encodeChar_three low high, char?, if_pos, scalar?_eq_some_iff]
    · simp only [UInt8.toNat_ofNat']
      omega
    · simp only [UInt8.lt_iff_toNat_lt, UInt8.le_iff_toNat_le, isContinuation_iff,
        UInt8.toNat_ofNat', UInt8.reduceToNat]
      omega
  · rw [encodeChar_four low, char?, if_pos, scalar?_eq_some_iff]
    · simp only [UInt8.toNat_ofNat']
      omega
    · simp only [UInt8.lt_iff_toNat_lt, UInt8.le_iff_toNat_le, isContinuation_iff,
        UInt8.toNat_ofNat', UInt8.reduceToNat]
      omega

theorem encodeChar_of_char? {bytes : List UInt8} {c : Char} (h : char? bytes = some c) :
    String.utf8EncodeChar c = bytes := by
  have bound := char_lt c
  match bytes with
  | [] => cases h
  | [a] =>
    obtain ⟨front, h⟩ := Option.ite_none_right_eq_some.mp h
    obtain ⟨least, value⟩ := scalar?_eq_some_iff.mp h
    simp only [UInt8.lt_iff_toNat_lt, UInt8.reduceToNat] at front
    rw [encodeChar_one (by omega), value, UInt8.ofNat_toNat]
  | [a, b] =>
    obtain ⟨front, h⟩ := Option.ite_none_right_eq_some.mp h
    obtain ⟨least, value⟩ := scalar?_eq_some_iff.mp h
    simp only [UInt8.lt_iff_toNat_lt, UInt8.le_iff_toNat_le, isContinuation_iff,
      UInt8.reduceToNat] at front
    rw [encodeChar_two (by omega) (by omega), eq_comm]
    simp only [List.cons.injEq, and_true]
    rw [ofNat_eq_iff (by omega), ofNat_eq_iff (by omega)]
    omega
  | [a, b, d] =>
    obtain ⟨front, h⟩ := Option.ite_none_right_eq_some.mp h
    obtain ⟨least, value⟩ := scalar?_eq_some_iff.mp h
    simp only [UInt8.lt_iff_toNat_lt, UInt8.le_iff_toNat_le, isContinuation_iff,
      UInt8.reduceToNat] at front
    rw [encodeChar_three (by omega) (by omega), eq_comm]
    simp only [List.cons.injEq, and_true]
    rw [ofNat_eq_iff (by omega), ofNat_eq_iff (by omega), ofNat_eq_iff (by omega)]
    omega
  | [a, b, d, e] =>
    obtain ⟨front, h⟩ := Option.ite_none_right_eq_some.mp h
    obtain ⟨least, value⟩ := scalar?_eq_some_iff.mp h
    simp only [UInt8.lt_iff_toNat_lt, UInt8.le_iff_toNat_le, isContinuation_iff,
      UInt8.reduceToNat] at front
    rw [encodeChar_four (by omega), eq_comm]
    simp only [List.cons.injEq, and_true]
    rw [ofNat_eq_iff (by omega), ofNat_eq_iff (by omega), ofNat_eq_iff (by omega),
      ofNat_eq_iff (by omega)]
    omega
  | _ :: _ :: _ :: _ :: _ :: _ => cases h

theorem widthOf_ofNat {n : Nat} (h : n < 256) : widthOf (UInt8.ofNat n) =
    if n < 128 then some 1 else if 194 ≤ n ∧ n ≤ 223 then some 2
    else if 224 ≤ n ∧ n ≤ 239 then some 3 else if 240 ≤ n ∧ n ≤ 244 then some 4 else none := by
  simp [widthOf, UInt8.lt_iff_toNat_lt, UInt8.le_iff_toNat_le, Nat.mod_eq_of_lt h]

theorem encodeChar_eq_cons (c : Char) :
    ∃ lead rest, String.utf8EncodeChar c = lead :: rest ∧ widthOf lead = some (rest.length + 1) := by
  have bound := char_lt c
  rcases encodeChar_cases c with one | ⟨low, high⟩ | ⟨low, high⟩ | low
  · refine ⟨_, _, encodeChar_one one, ?_⟩
    rw [widthOf_ofNat (by omega), if_pos one]
    rfl
  · refine ⟨_, _, encodeChar_two low high, ?_⟩
    rw [widthOf_ofNat (by omega), if_neg (by omega), if_pos (by omega)]
    rfl
  · refine ⟨_, _, encodeChar_three low high, ?_⟩
    rw [widthOf_ofNat (by omega), if_neg (by omega), if_neg (by omega), if_pos (by omega)]
    rfl
  · refine ⟨_, _, encodeChar_four low, ?_⟩
    rw [widthOf_ofNat (by omega), if_neg (by omega), if_neg (by omega), if_neg (by omega),
      if_pos (by omega)]
    rfl

theorem lt_of_encodeChar_lt {c : Char} (small : ∀ b ∈ String.utf8EncodeChar c, b.toNat < 128) :
    c.toNat < 128 := by
  obtain ⟨lead, rest, encoded, width⟩ := encodeChar_eq_cons c
  rw [encoded] at small
  have front : lead < 0x80 := UInt8.lt_iff_toNat_lt.mpr (small lead List.mem_cons_self)
  rw [widthOf, if_pos front, Option.some.injEq] at width
  have single : c.utf8Size = 1 := by
    rw [← String.length_utf8EncodeChar, encoded, List.length_cons, ← width]
  exact Nat.lt_succ_of_le (UInt32.le_iff_toNat_le.mp (Char.utf8Size_eq_one_iff.mp single))

theorem zero_mem_encodeChar_iff {c : Char} : 0 ∈ String.utf8EncodeChar c ↔ c.toNat = 0 := by
  have bound := char_lt c
  rcases encodeChar_cases c with one | ⟨low, high⟩ | ⟨low, high⟩ | low
  · rw [encodeChar_one one, List.mem_singleton, ofNat_eq_iff (by omega), eq_comm]
    rfl
  · rw [encodeChar_two low high]
    simp only [List.mem_cons, List.not_mem_nil, or_false]
    rw [ofNat_eq_iff (by omega), ofNat_eq_iff (by omega), UInt8.toNat_zero]
    omega
  · rw [encodeChar_three low high]
    simp only [List.mem_cons, List.not_mem_nil, or_false]
    rw [ofNat_eq_iff (by omega), ofNat_eq_iff (by omega), ofNat_eq_iff (by omega),
      UInt8.toNat_zero]
    omega
  · rw [encodeChar_four low]
    simp only [List.mem_cons, List.not_mem_nil, or_false]
    rw [ofNat_eq_iff (by omega), ofNat_eq_iff (by omega), ofNat_eq_iff (by omega),
      ofNat_eq_iff (by omega), UInt8.toNat_zero]
    omega

section texts

theorem decodeChars?_encodeChar_append (c : Char) (rest : List UInt8) :
    decodeChars? (String.utf8EncodeChar c ++ rest) = (decodeChars? rest).map (c :: ·) := by
  obtain ⟨lead, tail, encoded, width⟩ := encodeChar_eq_cons c
  have whole := char?_encodeChar c
  rw [encoded] at whole ⊢
  rw [List.cons_append, decodeChars?, width]
  simp only [Nat.add_sub_cancel, List.take_left, List.drop_left, whole]
  cases decodeChars? rest <;> rfl

theorem decodeChars?_encode (chars : List Char) :
    decodeChars? (chars.flatMap String.utf8EncodeChar) = some chars := by
  induction chars with
  | nil => rw [List.flatMap_nil, decodeChars?]
  | cons c rest ih => rw [List.flatMap_cons, decodeChars?_encodeChar_append, ih, Option.map_some]

theorem encode_of_decodeChars? {bytes : List UInt8} {chars : List Char}
    (h : decodeChars? bytes = some chars) : chars.flatMap String.utf8EncodeChar = bytes := by
  induction size : bytes.length using Nat.strongRecOn generalizing bytes chars with
  | ind n ih =>
    cases bytes with
    | nil =>
      rw [decodeChars?] at h
      cases h
      rfl
    | cons lead rest =>
      rw [decodeChars?] at h
      split at h
      · cases h
      · next width found =>
        obtain ⟨c, first, h⟩ := Option.bind_eq_some_iff.mp h
        obtain ⟨more, others, h⟩ := Option.bind_eq_some_iff.mp h
        cases h
        have shorter : (rest.drop (width - 1)).length < n := by
          rw [List.length_drop, ← size, List.length_cons]
          omega
        rw [List.flatMap_cons, encodeChar_of_char? first, ih _ shorter others rfl, List.cons_append,
          List.take_append_drop]

theorem decode?_encode (s : String) : decode? (encode s) = some s := by
  rw [decode?, encode, decodeChars?_encode, Option.map_some, String.ofList_toList]

theorem decodeOrEmpty_encode (s : String) : decodeOrEmpty (encode s) = s := by
  rw [decodeOrEmpty, decode?_encode]
  rfl

theorem decodeOrEmpty_cases (bytes : List UInt8) :
    decodeOrEmpty bytes = "" ∨ encode (decodeOrEmpty bytes) = bytes := by
  unfold decodeOrEmpty decode?
  cases h : decodeChars? bytes with
  | none => exact .inl rfl
  | some chars =>
    right
    rw [encode, Option.map_some, Option.getD_some, String.toList_ofList, encode_of_decodeChars? h]

theorem size_decodeOrEmpty_le (bytes : List UInt8) : size (decodeOrEmpty bytes) ≤ bytes.length := by
  unfold size
  rcases decodeOrEmpty_cases bytes with empty | encoded
  · rw [empty]
    exact Nat.zero_le _
  · exact Nat.le_of_eq (congrArg List.length encoded)

theorem zero_mem_encode_iff {s : String} : 0 ∈ encode s ↔ '\x00' ∈ s.toList := by
  unfold encode
  rw [List.mem_flatMap]
  constructor
  · rintro ⟨c, member, zero⟩
    have same : c = '\x00' := Char.ext (UInt32.toNat_inj.mp (zero_mem_encodeChar_iff.mp zero))
    rwa [← same]
  · intro member
    exact ⟨'\x00', member, zero_mem_encodeChar_iff.mpr rfl⟩

end texts

end BinaryCodec.Utf8
