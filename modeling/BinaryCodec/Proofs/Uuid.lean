import BinaryCodec.Proofs.Bytes.Hex
import BinaryCodec.Proofs.Text.Utf8
import BinaryCodec.Uuid
import Mathlib.Algebra.GroupWithZero.Nat
import Mathlib.Data.List.SplitLengths

namespace BinaryCodec.Uuid

open Hex (Pairs alphabet)

variable {text : String} {digits : List Char} {id : Uuid}

/-- Five groups of hexadecimal digits of either case, which take 8, 4, 4, 4 and 12 bytes, joined by single
hyphens. -/
def Hyphenated (text : String) : Prop :=
  ∃ groups : List String, groups.map Utf8.size = [8, 4, 4, 4, 12] ∧
    (∀ group ∈ groups, ∀ c ∈ group.toList, c ∈ alphabet) ∧ "-".intercalate groups = text

section hyphens

variable {sizes : List Nat}

theorem hyphen_not_mem (mem : ∀ c ∈ digits, c ∈ alphabet) : '-' ∉ digits := fun inside =>
  (by decide : '-' ∉ alphabet) (mem '-' inside)

theorem hyphenGroups_eq_splitOn (chars : List Char) : hyphenGroups chars = chars.splitOn '-' := by
  induction chars with
  | nil => rfl
  | cons c rest ih =>
    obtain ⟨group, more, split⟩ := List.exists_cons_of_ne_nil (List.splitOn_ne_nil '-' rest)
    rw [hyphenGroups, ih, List.splitOn_cons_eq_if_modifyHead, split]
    by_cases hyphen : c = '-'
    · simp [hyphen]
    · simp [hyphen]

theorem hyphenate_flatten (groups : List (List Char)) :
    hyphenate (groups.map List.length) groups.flatten = ['-'].intercalate groups := by
  induction groups with
  | nil => rfl
  | cons group more ih =>
    cases more with
    | nil => simp [hyphenate]
    | cons next more =>
      rw [List.intercalate_cons_cons, ← ih]
      simp [hyphenate]

theorem mem_of_mem_splitLengths {group : List Char} {c : Char} (whole : digits.length = sizes.sum)
    (listed : group ∈ sizes.splitLengths digits) (inside : c ∈ group) : c ∈ digits := by
  rw [← List.flatten_splitLengths digits sizes whole.le]
  exact List.mem_flatten_of_mem listed inside

theorem hyphenate_eq_intercalate (whole : digits.length = sizes.sum) :
    hyphenate sizes digits = ['-'].intercalate (sizes.splitLengths digits) := by
  rw [← hyphenate_flatten, List.map_splitLengths_length _ _ whole.ge,
    List.flatten_splitLengths _ _ whole.le]

theorem map_hyphenate (f : Char → Char) (hyphen : f '-' = '-') (sizes : List Nat) (digits : List Char) :
    (hyphenate sizes digits).map f = hyphenate sizes (digits.map f) := by
  fun_induction hyphenate sizes digits with
  | case1 => rfl
  | case2 => rfl
  | case3 size sizes digits several ih =>
    rw [hyphenate, List.map_append, List.map_cons, ih, hyphen, List.map_take, List.map_drop]
    exact several

theorem filter_of_hyphenless (hyphenless : '-' ∉ digits) : digits.filter (· ≠ '-') = digits := by
  refine List.filter_eq_self.mpr fun c inside => decide_eq_true ?_
  rintro rfl
  exact hyphenless inside

theorem filter_hyphenate (sizes : List Nat) (digits : List Char) (hyphenless : '-' ∉ digits) :
    (hyphenate sizes digits).filter (· ≠ '-') = digits := by
  fun_induction hyphenate sizes digits with
  | case1 => exact filter_of_hyphenless hyphenless
  | case2 => exact filter_of_hyphenless hyphenless
  | case3 size sizes digits _ ih =>
    rw [← List.take_append_drop size digits, List.mem_append, not_or] at hyphenless
    obtain ⟨front, back⟩ := hyphenless
    rw [List.filter_append, filter_of_hyphenless front, List.filter_cons_of_neg (by decide), ih back,
      List.take_append_drop]

theorem hyphenGroups_hyphenate (hyphenless : '-' ∉ digits) (whole : digits.length = sizes.sum)
    (nonempty : sizes ≠ []) : hyphenGroups (hyphenate sizes digits) = sizes.splitLengths digits := by
  rw [hyphenGroups_eq_splitOn, hyphenate_eq_intercalate whole]
  refine List.splitOn_intercalate '-' (fun group listed inside => ?_) ?_
  · exact hyphenless (mem_of_mem_splitLengths whole listed inside)
  · rw [← List.length_pos_iff, List.length_splitLengths]
    exact List.length_pos_iff.mpr nonempty

end hyphens

section groups

variable {c : Char} {size : Nat} {sizes : List Nat} {group : List Char} {groups : List (List Char)}

theorem lt_of_mem_alphabet (mem : c ∈ alphabet) : c.toNat < 128 :=
  Hex.lt_of_isDigit (Hex.isDigit_iff.mpr mem)

theorem all_isDigit_iff :
    (∀ b ∈ String.utf8EncodeChar c, Hex.isDigit (Char.ofUInt8 b) = true) ↔ c ∈ alphabet := by
  have single (ascii : c.toNat < 128) :
      (∀ b ∈ String.utf8EncodeChar c, Hex.isDigit (Char.ofUInt8 b) = true) ↔ c ∈ alphabet := by
    have same : Char.ofUInt8 (UInt8.ofNat c.toNat) = c := by
      rw [← Char.toNat_inj]
      change (UInt8.ofNat c.toNat).toNat = c.toNat
      rw [UInt8.toNat_ofNat']
      omega
    rw [Utf8.encodeChar_one ascii, List.forall_mem_singleton, same, Hex.isDigit_iff]
  constructor
  · intro digits
    have ascii := Utf8.lt_of_encodeChar_lt fun b inside => Hex.lt_of_isDigit (digits b inside)
    exact (single ascii).mp digits
  · intro mem
    exact (single (lt_of_mem_alphabet mem)).mpr mem

theorem isGroup_iff :
    isGroup size group = true ↔ group.length = size ∧ ∀ c ∈ group, c ∈ alphabet := by
  have digits : ((group.flatMap String.utf8EncodeChar).all fun b => Hex.isDigit (Char.ofUInt8 b)) = true ↔
      ∀ c ∈ group, c ∈ alphabet := by
    simp only [List.all_flatMap, List.all_eq_true, all_isDigit_iff]
  rw [isGroup, Bool.and_eq_true, decide_eq_true_eq, digits, and_congr_left_iff]
  intro mem
  rw [Utf8.length_of_ascii fun c inside => lt_of_mem_alphabet (mem c inside)]

theorem areGroups_iff : areGroups sizes groups = true ↔
    groups.map List.length = sizes ∧ ∀ c ∈ groups.flatten, c ∈ alphabet := by
  fun_induction areGroups sizes groups with
  | case1 groups => cases groups <;> simp
  | case2 => simp
  | case3 size sizes group groups ih =>
    rw [Bool.and_eq_true, isGroup_iff, ih, and_and_and_comm, List.map_cons, List.cons.injEq,
      List.flatten_cons, List.forall_mem_append]

theorem areGroups_hyphenGroups_iff :
    areGroups groupSizes (hyphenGroups text.toList) = true ↔
      ∃ digits, text.toList = hyphenate groupSizes digits ∧ digits.length = groupSizes.sum ∧
        ∀ c ∈ digits, c ∈ alphabet := by
  rw [areGroups_iff]
  constructor
  · rintro ⟨sizes, mem⟩
    refine ⟨(hyphenGroups text.toList).flatten, ?_, ?_, mem⟩
    · rw [← sizes, hyphenate_flatten, hyphenGroups_eq_splitOn, List.intercalate_splitOn]
    · rw [List.length_flatten, sizes]
  · rintro ⟨digits, written, whole, mem⟩
    have groups := hyphenGroups_hyphenate (hyphen_not_mem mem) whole (by decide)
    rw [written, groups, List.flatten_splitLengths _ _ whole.le]
    exact ⟨List.map_splitLengths_length _ _ whole.ge, mem⟩

end groups

section grammar

theorem size_eq_length (mem : ∀ c ∈ text.toList, c ∈ alphabet) : Utf8.size text = text.toList.length :=
  Utf8.length_of_ascii fun c inside => lt_of_mem_alphabet (mem c inside)

theorem hyphenated_iff : Hyphenated text ↔ ∃ digits, text.toList = hyphenate groupSizes digits ∧
    digits.length = groupSizes.sum ∧ ∀ c ∈ digits, c ∈ alphabet := by
  constructor
  · rintro ⟨groups, sizes, mem, rfl⟩
    have lengths : (groups.map String.toList).map List.length = groupSizes := by
      rw [List.map_map, ← show groups.map Utf8.size = groupSizes from sizes]
      exact List.map_congr_left fun group listed => (size_eq_length (mem group listed)).symm
    refine ⟨(groups.map String.toList).flatten, ?_, ?_, fun c inside => ?_⟩
    · rw [String.toList_intercalate, ← lengths, hyphenate_flatten]
      rfl
    · rw [List.length_flatten, lengths]
    · obtain ⟨chars, among, inside⟩ := List.mem_flatten.mp inside
      obtain ⟨group, listed, rfl⟩ := List.mem_map.mp among
      exact mem group listed c inside
  · rintro ⟨digits, written, whole, mem⟩
    have lengths := List.map_splitLengths_length digits groupSizes whole.ge
    have within : ∀ chars ∈ groupSizes.splitLengths digits, ∀ c ∈ chars, c ∈ alphabet :=
      fun chars listed c inside => mem c (mem_of_mem_splitLengths whole listed inside)
    refine ⟨(groupSizes.splitLengths digits).map String.ofList, ?_, fun group among => ?_, ?_⟩
    · rw [List.map_map]
      refine Eq.trans (List.map_congr_left fun chars listed => ?_) lengths
      have mem := within chars listed
      rw [Function.comp_apply, size_eq_length (by rwa [String.toList_ofList]), String.toList_ofList]
    · obtain ⟨chars, listed, rfl⟩ := List.mem_map.mp among
      rw [String.toList_ofList]
      exact within chars listed
    · rw [← String.toList_inj, String.toList_intercalate, List.map_map, written,
        hyphenate_eq_intercalate whole]
      simp

theorem areGroups_iff_hyphenated :
    areGroups groupSizes (hyphenGroups text.toList) = true ↔ Hyphenated text :=
  areGroups_hyphenGroups_iff.trans hyphenated_iff.symm

end grammar

section reading

theorem ofList?_eq_some_iff {bytes : List UInt8} : ofList? bytes = some id ↔ id.bytes.toList = bytes := by
  constructor
  · intro h
    obtain ⟨size, h⟩ := Option.dite_none_right_eq_some.mp h
    cases h
    rfl
  · rintro rfl
    exact dif_pos id.bytes.length_toList

theorem ofDigits?_eq_some_iff :
    ofDigits? text = some id ↔ Pairs (text.toList.filter (· ≠ '-')) id.bytes.toList := by
  rw [ofDigits?, Option.bind_eq_some_iff]
  constructor
  · rintro ⟨bytes, decoded, h⟩
    rw [ofList?_eq_some_iff.mp h]
    exact Hex.decode?_eq_some_iff.mp decoded
  · intro pairs
    exact ⟨_, Hex.decode?_eq_some_iff.mpr pairs, ofList?_eq_some_iff.mpr rfl⟩

theorem exists_ofDigits? (hyphenated : Hyphenated text) : ∃ id, ofDigits? text = some id := by
  obtain ⟨digits, written, whole, mem⟩ := hyphenated_iff.mp hyphenated
  obtain ⟨bytes, pairs⟩ := Hex.exists_pairs (n := 16) whole mem
  have sixteen : bytes.length = 16 := by
    have paired : digits.length = 2 * bytes.length := pairs.length_eq
    have total : groupSizes.sum = 32 := rfl
    omega
  obtain ⟨id, rfl⟩ : ∃ id : Uuid, id.bytes.toList = bytes :=
    ⟨_, ofList?_eq_some_iff.mp (dif_pos sixteen)⟩
  refine ⟨id, ofDigits?_eq_some_iff.mpr ?_⟩
  rwa [written, filter_hyphenate groupSizes digits (hyphen_not_mem mem)]

theorem parse_of_hyphenated (hyphenated : Hyphenated text) :
    ∃ id, parse text = .ok id ∧ ofDigits? text = some id := by
  obtain ⟨id, read⟩ := exists_ofDigits? hyphenated
  refine ⟨id, ?_, read⟩
  rw [parse, if_pos (areGroups_iff_hyphenated.mpr hyphenated), read]

theorem parse_of_not_hyphenated (otherwise : ¬Hyphenated text) :
    parse text = .error (.invalidUuid text) :=
  if_neg (mt areGroups_iff_hyphenated.mp otherwise)

theorem parse_eq_ok_iff :
    parse text = .ok id ↔ Hyphenated text ∧ Pairs (text.toList.filter (· ≠ '-')) id.bytes.toList := by
  rw [← ofDigits?_eq_some_iff]
  by_cases hyphenated : Hyphenated text
  · obtain ⟨other, parsed, read⟩ := parse_of_hyphenated hyphenated
    simp [parsed, read, hyphenated]
  · simp [parse_of_not_hyphenated hyphenated, hyphenated]

theorem toList_toText (id : Uuid) :
    id.toText.toList = hyphenate groupSizes (Hex.encode id.bytes.toList) :=
  String.toList_ofList

theorem parse_toText (id : Uuid) : parse id.toText = .ok id := by
  have pairs := Hex.pairs_encode id.bytes.toList
  have whole : (Hex.encode id.bytes.toList).length = groupSizes.sum := by
    rw [pairs.length_eq, id.bytes.length_toList]
    rfl
  refine parse_eq_ok_iff.mpr ⟨hyphenated_iff.mpr ⟨_, toList_toText id, whole, pairs.mem⟩, ?_⟩
  rwa [toList_toText, filter_hyphenate _ _ (hyphen_not_mem pairs.mem)]

theorem toText_of_parse (read : parse text = .ok id) : id.toText = text.toLower := by
  obtain ⟨hyphenated, pairs⟩ := parse_eq_ok_iff.mp read
  obtain ⟨digits, written, -, mem⟩ := hyphenated_iff.mp hyphenated
  rw [written, filter_hyphenate groupSizes digits (hyphen_not_mem mem)] at pairs
  have small : text.toLower.toList = text.toList.map Char.toLower := String.toList_map
  rw [← String.toList_inj, small, toList_toText, pairs.encode_eq, written]
  exact (map_hyphenate Char.toLower (by decide) groupSizes digits).symm

end reading

/-- A text is read just if it is five groups of digits joined by hyphens. The sixteen bytes are then its pairs
of digits in order, and written they are the text with small letters. Every other text is refused, with the
text in the error. What is written for sixteen bytes is read as these bytes. -/
theorem parse_exact (text : String) :
    ((∃ id, parse text = .ok id) ↔ Hyphenated text) ∧
    (∀ id, parse text = .ok id →
      Pairs (text.toList.filter (· ≠ '-')) id.bytes.toList ∧ id.toText = text.toLower) ∧
    (¬Hyphenated text → parse text = .error (.invalidUuid text)) ∧
    ∀ id : Uuid, parse id.toText = .ok id := by
  refine ⟨⟨?_, ?_⟩, fun id read => ?_, parse_of_not_hyphenated, parse_toText⟩
  · rintro ⟨id, read⟩
    exact (parse_eq_ok_iff.mp read).1
  · intro hyphenated
    obtain ⟨id, read, -⟩ := parse_of_hyphenated hyphenated
    exact ⟨id, read⟩
  · exact ⟨(parse_eq_ok_iff.mp read).2, toText_of_parse read⟩

theorem parse_exact_mixed :
    let mixed := "123E4567-e89b-12d3-A456-426655440000"
    let braced := "\x7b123e4567-e89b-12d3-a456-426655440000\x7d"
    (∃ id, parse mixed = .ok id ∧ Pairs (mixed.toList.filter (· ≠ '-')) id.bytes.toList ∧
      id.toText = mixed.toLower) ∧
    ¬Hyphenated braced ∧ parse braced = .error (.invalidUuid braced) := by
  have read : parse "123E4567-e89b-12d3-A456-426655440000" = .ok ⟨#v[0x12, 0x3e, 0x45, 0x67, 0xe8, 0x9b,
      0x12, 0xd3, 0xa4, 0x56, 0x42, 0x66, 0x55, 0x44, 0x00, 0x00]⟩ := by rfl
  have unread : ¬∃ id, parse "\x7b123e4567-e89b-12d3-a456-426655440000\x7d" = .ok id := by
    rintro ⟨id, read⟩
    have refused : (parse "\x7b123e4567-e89b-12d3-a456-426655440000\x7d").toOption = none := by rfl
    rw [read] at refused
    cases refused
  intro mixed braced
  obtain ⟨-, spelled, -⟩ := parse_exact mixed
  obtain ⟨reads, -, refuses, -⟩ := parse_exact braced
  have foreign := mt reads.mpr unread
  exact ⟨⟨_, read, spelled _ read⟩, foreign, refuses foreign⟩

end BinaryCodec.Uuid
