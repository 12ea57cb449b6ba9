import BinaryCodec.Proofs.Buffer.Text
import BinaryCodec.Proofs.Buffer.Transfer
import Mathlib.Data.List.DropRight
import Mathlib.Data.List.Infix

namespace BinaryCodec.Buffer

variable {s kept : String} {width : Nat} {chars front back : List Char}

/-- Whether `front` is the longest front of `chars` that takes at most `width` bytes. -/
def LongestFront (width : Nat) (chars front : List Char) : Prop :=
  front <+: chars ∧ (front.flatMap String.utf8EncodeChar).length ≤ width ∧
    ∀ other, other <+: chars → (other.flatMap String.utf8EncodeChar).length ≤ width → other <+: front

/-- Whether `back` is the longest back of `chars` that takes at most `width` bytes. -/
def LongestBack (width : Nat) (chars back : List Char) : Prop :=
  back <:+ chars ∧ (back.flatMap String.utf8EncodeChar).length ≤ width ∧
    ∀ other, other <:+ chars → (other.flatMap String.utf8EncodeChar).length ≤ width → other <:+ back

section longest

theorem fitting_isPrefix (width : Nat) (chars : List Char) : Utf8.fitting width chars <+: chars := by
  induction chars generalizing width with
  | nil => exact List.prefix_refl []
  | cons c rest ih =>
    unfold Utf8.fitting
    split
    · exact (List.prefix_cons_inj c).mpr (ih _)
    · exact List.nil_prefix

theorem isPrefix_fitting (part : front <+: chars)
    (fits : (front.flatMap String.utf8EncodeChar).length ≤ width) : front <+: Utf8.fitting width chars := by
  induction front generalizing width chars with
  | nil => exact List.nil_prefix
  | cons c others ih =>
    cases chars with
    | nil => cases List.prefix_nil.mp part
    | cons first rest =>
      obtain ⟨rfl, others⟩ := List.cons_prefix_cons.mp part
      rw [List.flatMap_cons, List.length_append, String.length_utf8EncodeChar] at fits
      rw [Utf8.fitting, if_pos (by omega)]
      exact (List.prefix_cons_inj c).mpr (ih others (by omega))

theorem longestFront_fitting (width : Nat) (chars : List Char) :
    LongestFront width chars (Utf8.fitting width chars) :=
  ⟨fitting_isPrefix width chars, length_fitting_le width chars, fun _ => isPrefix_fitting⟩

theorem length_encode_reverse (chars : List Char) :
    (chars.reverse.flatMap String.utf8EncodeChar).length = (chars.flatMap String.utf8EncodeChar).length :=
  (chars.reverse_perm.flatMap_right _).length_eq

theorem LongestFront.reverse (longest : LongestFront width chars.reverse front) :
    LongestBack width chars front.reverse := by
  obtain ⟨part, fits, most⟩ := longest
  refine ⟨List.reverse_prefix.mp ?_, ?_, fun other otherPart otherFits => ?_⟩
  · rwa [List.reverse_reverse]
  · rwa [length_encode_reverse]
  · rw [← length_encode_reverse] at otherFits
    have within := most _ (List.reverse_prefix.mpr otherPart) otherFits
    rw [← List.reverse_prefix, List.reverse_reverse]
    exact within

end longest

section trim

def trimmed (chars : List Char) : List Char := chars.rdropWhile (· = '\x00')

theorem trimmed_isPrefix (chars : List Char) : trimmed chars <+: chars := List.rdropWhile_prefix _ _

theorem getLast?_trimmed (chars : List Char) : (trimmed chars).getLast? ≠ some '\x00' := by
  intro last
  have filled : trimmed chars ≠ [] := by
    rintro empty
    rw [empty] at last
    cases last
  rw [List.getLast?_eq_some_getLast filled] at last
  exact List.rdropWhile_last_not _ _ filled (decide_eq_true (Option.some.inj last))

theorem exists_zeros (chars : List Char) :
    ∃ n, chars = trimmed chars ++ List.replicate n '\x00' := by
  have zeros (c : Char) (member : c ∈ chars.rtakeWhile (· = '\x00')) : c = '\x00' := by
    simpa using List.mem_rtakeWhile_imp member
  refine ⟨(chars.rtakeWhile (· = '\x00')).length, ?_⟩
  rw [← List.eq_replicate_iff.mpr ⟨rfl, zeros⟩]
  exact (List.rdropWhile_append_rtakeWhile ..).symm

theorem encode_zeros (n : Nat) :
    (List.replicate n '\x00').flatMap String.utf8EncodeChar = List.replicate n 0 := by
  induction n with
  | zero => rfl
  | succ n ih =>
    rw [List.replicate_succ, List.flatMap_cons, ih]
    rfl

theorem rightpad_append_zeros {bytes : List UInt8} {n : Nat} (fits : bytes.length + n ≤ width) :
    (bytes ++ List.replicate n 0).rightpad width 0 = bytes.rightpad width 0 := by
  unfold List.rightpad
  rw [List.length_append, List.length_replicate, List.append_assoc, List.replicate_append_replicate]
  congr 2
  omega

end trim

section field

def fieldText (width : Nat) (s : String) : String :=
  String.ofList (trimmed (Utf8.fitting width s.toList))

theorem fitsField_fieldText (width : Nat) (s : String) : FitsField width (fieldText width s) := by
  unfold FitsField Utf8.size Utf8.encode fieldText
  rw [String.toList_ofList]
  refine ⟨Nat.le_trans ?_ (length_fitting_le width s.toList), getLast?_trimmed _⟩
  exact (List.IsPrefix.flatMap (trimmed_isPrefix _) _).length_le

theorem fixedField_eq (width : Nat) (s : String) :
    fixedField width s.toList = (Utf8.encode (fieldText width s)).rightpad width 0 := by
  have fits := length_fitting_le width s.toList
  unfold fixedField Utf8.encode fieldText
  rw [String.toList_ofList]
  -- the front stands within `trimmed` as well, and is split outside of it only
  generalize Utf8.fitting width s.toList = front at fits
  obtain ⟨n, split⟩ := exists_zeros front
  have bytes := congrArg (List.flatMap String.utf8EncodeChar) split
  rw [List.flatMap_append, encode_zeros] at bytes
  rw [bytes, List.length_append, List.length_replicate] at fits
  rw [bytes, rightpad_append_zeros fits]

theorem fixedField_fieldText (width : Nat) (s : String) :
    fixedField width (fieldText width s).toList = fixedField width s.toList := by
  rw [fixedField_eq width s, fixedField, fitting_eq (fitsField_fieldText width s).1]
  rfl

/-- Written in a field of `width` bytes, `s` fills it with `bytes`. They read as `kept`, which fills the field with
them again. -/
structure InField (write : String → Nat → BufferM Unit) (read : Nat → BufferM String) (width : Nat)
    (s kept : String) (bytes : List UInt8) : Prop where
  length : bytes.length = width
  written : Puts (write s width) bytes
  taken : Takes (read width) bytes kept
  rewritten : Puts (write kept width) bytes

section room

variable (room : width ≤ maxCapacity) (s : String)
include room

theorem puts_writeFixedString : Puts (writeFixedString s width) (fixedField width s.toList) := by
  rw [writeFixedString_eq room]
  exact puts_writeBytes _

theorem inField_fixed :
    InField writeFixedString readFixedString width s (fieldText width s) (fixedField width s.toList) where
  length := length_fixedField width s.toList
  written := puts_writeFixedString room s
  taken := by
    have read := (takes_readBytes (fixedField width s.toList)).map
      fun bytes => Utf8.decodeOrEmpty (trimZeros bytes)
    have trims := trimZeros_fixedField (fitsField_fieldText width s)
    rw [fixedField_fieldText] at trims
    rwa [length_fixedField, trims, Utf8.decodeOrEmpty_encode, ← readFixedString_eq room] at read
  rewritten := by
    rw [← fixedField_fieldText]
    exact puts_writeFixedString room _

theorem inField_inverted :
    InField writeInvertedString readInvertedString width s (invert (fieldText width (invert s)))
      (fixedField width (invert s).toList) := by
  obtain ⟨length, written, taken, rewritten⟩ := inField_fixed room (invert s)
  refine ⟨length, written, taken.map invert, ?_⟩
  rw [writeInvertedString, invert_invert]
  exact rewritten

end room

/-- What comes back from a field is the longest front that fits, without the zeros at its end. From a field
written from last to first it is the longest back, without the zeros before it. No character is split. -/
theorem fields_exact (s : String) {width : Nat} (room : width ≤ maxCapacity) :
    (∃ front kept, LongestFront width s.toList front ∧
      kept = String.ofList (front.rdropWhile (· = '\x00')) ∧
      InField writeFixedString readFixedString width s kept ((Utf8.encode kept).rightpad width 0)) ∧
    ∃ back kept, LongestBack width s.toList back ∧ kept = String.ofList (back.dropWhile (· = '\x00')) ∧
      InField writeInvertedString readInvertedString width s kept
        ((Utf8.encode (invert kept)).rightpad width 0) := by
  constructor
  · refine ⟨_, fieldText width s, longestFront_fitting width s.toList, rfl, ?_⟩
    rw [← fixedField_eq]
    exact inField_fixed room s
  · have longest := longestFront_fitting width s.toList.reverse
    refine ⟨_, invert (fieldText width (invert s)), longest.reverse, ?_, ?_⟩
    · rw [invert, fieldText, invert, String.toList_ofList, String.toList_ofList, trimmed, List.rdropWhile,
        List.reverse_reverse]
    · rw [invert_invert, ← fixedField_eq]
      exact inField_inverted room s

/-- The euro sign does not fit, and the zero before it looks like one that fills the field up. -/
theorem fields_exact_euro :
    4 ≤ maxCapacity ∧ ∃ front kept, LongestFront 4 ['a', '\x00', '€', 'b'] front ∧
      kept = String.ofList (front.rdropWhile (· = '\x00')) ∧
      InField writeFixedString readFixedString 4 "a\x00€b" kept ((Utf8.encode kept).rightpad 4 0) := by
  have room : 4 ≤ maxCapacity := by decide
  exact ⟨room, (fields_exact "a\x00€b" room).1⟩

/-- No vector holds a field of this width, so there is nothing to write it from. -/
theorem fields_unwritten :
    writeFixedString "" (Word.last 64) .empty = .error .capacityOverflow .empty ∧
      writeInvertedString "" (Word.last 64) .empty = .error .capacityOverflow .empty := by
  have wide : ¬Word.last 64 ≤ maxCapacity := by decide
  rw [writeInvertedString, writeFixedString_wide wide, writeFixedString_wide wide]
  exact ⟨rfl, rfl⟩

end field

end BinaryCodec.Buffer
