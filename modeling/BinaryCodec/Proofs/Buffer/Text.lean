import BinaryCodec.Buffer.Text
import BinaryCodec.Proofs.Buffer.Number
import BinaryCodec.Proofs.Text.Utf16
import BinaryCodec.Proofs.Text.Utf8

namespace BinaryCodec

namespace Buffer

section strings

instance sequential_readString : Sequential readString :=
  inferInstanceAs (Sequential (readLimited >>= fun bytes => pure (Utf8.decodeOrEmpty bytes)))

theorem decodes_readString {s : String} (h : Utf8.size s < Word.count 64) :
    Decodes readString (Varint.encodeUnsigned (Utf8.size s) ++ Utf8.encode s) s := by
  have read := (decodes_readLimited h).map Utf8.decodeOrEmpty
  rwa [Utf8.decodeOrEmpty_encode] at read

theorem yields_readString :
    Yields readString fun s used => Utf8.size s < Word.count 64 ∧ 0 < used := by
  refine yields_readLimited.map fun bytes used read => ⟨?_, Nat.zero_lt_of_lt read.2⟩
  exact Nat.lt_of_le_of_lt (Utf8.size_decodeOrEmpty_le bytes) read.1

theorem agrees_readString : Agrees readString := agrees_readLimited.map

end strings

section fields

/-- Whether a field of `width` bytes gives `s` back: it is large enough, and the zeros that fill it
up can be told from `s`. -/
def FitsField (width : Nat) (s : String) : Prop :=
  Utf8.size s ≤ width ∧ s.toList.getLast? ≠ some '\x00'

theorem length_fitting_le (width : Nat) (chars : List Char) :
    ((Utf8.fitting width chars).flatMap String.utf8EncodeChar).length ≤ width := by
  induction chars generalizing width with
  | nil => exact Nat.zero_le _
  | cons c rest ih =>
    unfold Utf8.fitting
    split
    · have := ih (width - c.utf8Size)
      rw [List.flatMap_cons, List.length_append, String.length_utf8EncodeChar]
      omega
    · exact Nat.zero_le _

theorem fitting_eq {width : Nat} {chars : List Char}
    (h : (chars.flatMap String.utf8EncodeChar).length ≤ width) : Utf8.fitting width chars = chars := by
  induction chars generalizing width with
  | nil => rfl
  | cons c rest ih =>
    rw [List.flatMap_cons, List.length_append, String.length_utf8EncodeChar] at h
    rw [Utf8.fitting, if_pos (by omega), ih (by omega)]

@[simp] theorem length_fixedField (width : Nat) (chars : List Char) :
    (fixedField width chars).length = width := by
  have := length_fitting_le width chars
  unfold fixedField
  rw [List.length_rightpad]
  omega

theorem trimZeros_append_zeros {bytes : List UInt8} (ends : bytes.getLast? ≠ some 0) (n : Nat) :
    trimZeros (bytes ++ List.replicate n 0) = bytes := by
  unfold trimZeros
  rw [List.reverse_append, List.reverse_replicate, List.dropWhile_append_of_pos]
  · cases h : bytes.reverse with
    | nil => exact (List.reverse_eq_nil_iff.mp h).symm
    | cons b rest =>
      have last : bytes.getLast? = some b := by rw [List.getLast?_eq_head?_reverse, h, List.head?_cons]
      have filled : ¬b = 0 := fun zero => ends (by rw [last, zero])
      rw [List.dropWhile_cons_of_neg (by simpa using filled), ← h, List.reverse_reverse]
  · intro b member
    simpa using List.eq_of_mem_replicate member

theorem length_trimZeros_le (bytes : List UInt8) : (trimZeros bytes).length ≤ bytes.length := by
  unfold trimZeros
  rw [List.length_reverse]
  exact Nat.le_trans (List.dropWhile_sublist _).length_le (Nat.le_of_eq List.length_reverse)

theorem getLast?_trimZeros (bytes : List UInt8) : (trimZeros bytes).getLast? ≠ some 0 := by
  unfold trimZeros
  rw [List.getLast?_reverse]
  intro last
  have zero := List.head?_dropWhile_not (· = 0) bytes.reverse
  rw [last] at zero
  simp at zero

theorem getLast?_encode_eq_zero_iff {s : String} :
    (Utf8.encode s).getLast? = some 0 ↔ s.toList.getLast? = some '\x00' := by
  unfold Utf8.encode
  rcases List.eq_nil_or_concat s.toList with empty | ⟨front, c, split⟩
  · rw [empty]
    simp
  · rw [split, List.concat_eq_append, List.flatMap_append, List.flatMap_singleton,
      List.getLast?_append, List.getLast?_concat]
    rw [List.getLast?_eq_some_getLast String.utf8EncodeChar_ne_nil, Option.some_or,
      ← List.getLast?_eq_some_getLast]
    constructor
    · intro last
      have zero := Utf8.zero_mem_encodeChar_iff.mp (List.mem_of_getLast? last)
      exact congrArg some (Char.ext (UInt32.toNat_inj.mp zero))
    · intro same
      cases same
      rfl

theorem trimZeros_fixedField {width : Nat} {s : String} (fits : FitsField width s) :
    trimZeros (fixedField width s.toList) = Utf8.encode s := by
  unfold fixedField
  rw [fitting_eq fits.1]
  exact trimZeros_append_zeros (fun last => fits.2 (getLast?_encode_eq_zero_iff.mp last)) _

instance sequential_checkCapacity (size : Nat) : Sequential (checkCapacity size) := by
  unfold checkCapacity
  infer_instance

theorem checkCapacity_eq {size : Nat} (room : size ≤ maxCapacity) : checkCapacity size = pure () := if_pos room

theorem writeFixedString_eq {width : Nat} (room : width ≤ maxCapacity) (s : String) :
    writeFixedString s width = writeBytes (fixedField width s.toList) := by
  unfold writeFixedString
  simp only [checkCapacity_eq room, pure_bind]

theorem writeFixedString_wide {width : Nat} (wide : ¬width ≤ maxCapacity) (s : String) :
    writeFixedString s width = throw .capacityOverflow := by
  unfold writeFixedString checkCapacity
  simp only [if_neg wide]
  rfl

theorem readFixedString_eq {width : Nat} (room : width ≤ maxCapacity) : readFixedString width =
    (fun bytes => Utf8.decodeOrEmpty (trimZeros bytes)) <$> readBytes width := by
  unfold readFixedString
  simp only [checkCapacity_eq room, pure_bind, map_eq_pure_bind]

theorem readFixedString_wide {width : Nat} (wide : ¬width ≤ maxCapacity) : readFixedString width =
    readBytes width >>= fun _ => throw .capacityOverflow := by
  unfold readFixedString checkCapacity
  simp only [if_neg wide]
  rfl

instance sequential_readFixedString (width : Nat) : Sequential (readFixedString width) :=
  inferInstanceAs (Sequential (readBytes width >>= fun bytes => checkCapacity width >>= fun _ =>
    pure (Utf8.decodeOrEmpty (trimZeros bytes))))

theorem decodes_readFixedString {width : Nat} (room : width ≤ maxCapacity) {s : String}
    (fits : FitsField width s) : Decodes (readFixedString width) (fixedField width s.toList) s := by
  have read := (decodes_readBytes (length_fixedField width s.toList)).map
    fun bytes => Utf8.decodeOrEmpty (trimZeros bytes)
  rwa [← readFixedString_eq room, trimZeros_fixedField fits, Utf8.decodeOrEmpty_encode] at read

theorem yields_readFixedString (width : Nat) :
    Yields (readFixedString width) fun s used =>
      (FitsField width s ∧ width ≤ maxCapacity) ∧ used = width := by
  by_cases room : width ≤ maxCapacity
  · rw [readFixedString_eq room]
    refine (yields_readBytes width).map fun bytes used read => ⟨⟨⟨?_, ?_⟩, room⟩, read.2⟩
    · have short := Utf8.size_decodeOrEmpty_le (trimZeros bytes)
      have trimmed := length_trimZeros_le bytes
      omega
    · rw [Ne, ← getLast?_encode_eq_zero_iff]
      rcases Utf8.decodeOrEmpty_cases (trimZeros bytes) with empty | encoded
      · rw [empty]
        simp [Utf8.encode]
      · rw [encoded]
        exact getLast?_trimZeros bytes
  · rw [readFixedString_wide room]
    exact (yields_readBytes width).bind fun _ _ _ => .throw _

theorem uniform_readFixedString (width : Nat) : Uniform (readFixedString width) := by
  by_cases room : width ≤ maxCapacity
  · rw [readFixedString_eq room]
    exact (uniform_readBytes width).map
  · rw [readFixedString_wide room]
    exact (uniform_readBytes width).bind fun _ => .throw _

theorem invert_invert (s : String) : invert (invert s) = s := by
  simp [invert]

theorem fitsField_invert_iff {width : Nat} {s : String} :
    FitsField width (invert s) ↔ Utf8.size s ≤ width ∧ s.toList.head? ≠ some '\x00' := by
  have same : Utf8.size (invert s) = Utf8.size s := by
    simp [Utf8.size, Utf8.encode, invert]
  rw [FitsField, same, invert, String.toList_ofList, List.getLast?_reverse]

instance sequential_readInvertedString (width : Nat) : Sequential (readInvertedString width) :=
  inferInstanceAs (Sequential (readFixedString width >>= fun s => pure (invert s)))

theorem decodes_readInvertedString {width : Nat} (room : width ≤ maxCapacity) {s : String}
    (fits : FitsField width (invert s)) :
    Decodes (readInvertedString width) (fixedField width (invert s).toList) s := by
  have read := (decodes_readFixedString room fits).map invert
  rwa [invert_invert] at read

end fields

section marks

theorem readToMark_succ (mark : UInt8) (fuel : Nat) :
    readToMark mark (fuel + 1) = readUpTo 1 >>= fun bytes =>
      if bytes.headD 0 = 0 ∨ bytes.headD 0 = mark then pure []
      else (bytes.headD 0 :: ·) <$> readToMark mark fuel := by
  rw [readToMark]
  congr
  funext bytes
  cases bytes with
  | nil => rfl
  | cons b rest =>
    by_cases stops : b = 0 ∨ b = mark
    · rw [List.headD_cons, if_pos stops]
      exact if_neg fun goes => stops.elim goes.1 goes.2
    · rw [List.headD_cons, if_neg stops]
      exact if_pos (not_or.mp stops)

instance sequential_readToMark (mark : UInt8) (fuel : Nat) : Sequential (readToMark mark fuel) := by
  induction fuel with
  | zero => exact sequential_pure []
  | succ fuel ih =>
    rw [readToMark_succ]
    infer_instance

theorem decodes_readUpTo_one (b : UInt8) : Decodes (readUpTo 1) [b] [b] := by
  intro ending rest
  simp [outcome_readUpTo, upTo]

theorem uniform_readUpTo (n : Nat) : Uniform (readUpTo n) := by
  funext bytes
  simp [outcome_readUpTo, upTo]

theorem decodes_readToMark {bytes : List UInt8} (clean : 0 ∉ bytes) {fuel : Nat}
    (enough : bytes.length < fuel) : Decodes (readToMark 0 fuel) (bytes ++ [0]) bytes := by
  induction bytes generalizing fuel with
  | nil =>
    cases fuel with
    | zero => simp at enough
    | succ fuel =>
      rw [readToMark_succ]
      exact (decodes_readUpTo_one 0).bind_pure (.pure [])
  | cons b rest ih =>
    cases fuel with
    | zero => simp at enough
    | succ fuel =>
      simp only [List.mem_cons, not_or, List.length_cons] at clean enough
      have goes : ¬(b = 0 ∨ b = 0) := fun zero => zero.elim (clean.1 ·.symm) (clean.1 ·.symm)
      rw [readToMark_succ]
      apply (decodes_readUpTo_one b).bind
      rw [List.headD_cons, if_neg goes]
      exact (ih clean.2 (by omega)).map (b :: ·)

theorem yields_readToMark (mark : UInt8) (fuel : Nat) :
    Yields (readToMark mark fuel) fun bytes _ => 0 ∉ bytes := by
  induction fuel with
  | zero => exact .pure List.not_mem_nil
  | succ fuel ih =>
    rw [readToMark_succ]
    refine (Yields.trivial _).bind fun bytes _ _ => ?_
    split
    · exact .pure List.not_mem_nil
    · next goes =>
      refine ih.map fun rest _ clean => ?_
      rw [List.mem_cons, not_or]
      exact ⟨fun zero => goes (.inl zero.symm), clean⟩

theorem uniform_readToMark (mark : UInt8) (fuel : Nat) : Uniform (readToMark mark fuel) := by
  induction fuel with
  | zero => exact .pure []
  | succ fuel ih =>
    rw [readToMark_succ]
    apply (uniform_readUpTo 1).bind
    intro bytes
    split
    · exact .pure []
    · exact ih.map

instance sequential_readCString : Sequential readCString :=
  inferInstanceAs (Sequential (unread >>= fun n =>
    readToMark 0 (n + 1) >>= fun bytes => pure (Utf8.decodeOrEmpty bytes)))

theorem decodes_readCString {s : String} (clean : '\x00' ∉ s.toList) :
    Decodes readCString (Utf8.encode s ++ [0]) s := by
  have bytes : 0 ∉ Utf8.encode s := fun zero => clean (Utf8.zero_mem_encode_iff.mp zero)
  refine .unread fun n long => ?_
  rw [List.length_append] at long
  have read := (decodes_readToMark bytes (by omega : _ < n + 1)).map Utf8.decodeOrEmpty
  rwa [Utf8.decodeOrEmpty_encode] at read

theorem yields_readCString : Yields readCString fun s _ => '\x00' ∉ s.toList := by
  refine .unread fun n => (yields_readToMark 0 (n + 1)).map fun bytes _ clean => ?_
  rw [← Utf8.zero_mem_encode_iff]
  rcases Utf8.decodeOrEmpty_cases bytes with empty | encoded
  · rw [empty]
    exact List.not_mem_nil
  · rwa [encoded]

theorem uniform_readCString : Uniform readCString :=
  Uniform.unread.bind fun n => (uniform_readToMark 0 (n + 1)).map

end marks

section chars

def readTail (lead : UInt8) : BufferM Char :=
  match Utf8.widthOf lead with
  | none => throw .invalidChar
  | some width => readExact (width - 1) >>= fun tail => settle (match Utf8.char? (lead :: tail) with
    | some c => .ok c
    | none => .error .invalidChar)

theorem readChar_eq : readChar = readByte >>= readTail := by
  unfold readChar readTail
  congr
  funext lead
  cases Utf8.widthOf lead with
  | none => rfl
  | some width =>
    simp only
    congr
    funext tail
    cases Utf8.char? (lead :: tail) <;> rfl

instance sequential_readTail (lead : UInt8) : Sequential (readTail lead) := by
  unfold readTail
  cases Utf8.widthOf lead <;> infer_instance

instance sequential_readChar : Sequential readChar := by
  rw [readChar_eq]
  infer_instance

theorem decodes_readChar (c : Char) : Decodes readChar (String.utf8EncodeChar c) c := by
  obtain ⟨lead, tail, encoded, width⟩ := Utf8.encodeChar_eq_cons c
  have whole := Utf8.char?_encodeChar c
  rw [encoded] at whole
  rw [readChar_eq, encoded, ← List.singleton_append]
  apply (decodes_readByte lead).bind
  unfold readTail
  rw [width]
  apply (decodes_readExact (Nat.add_sub_cancel tail.length 1).symm).bind_pure
  rw [whole]
  exact .settle c

end chars

section units

def unitBytes (unit : UInt16) : List UInt8 := Endian.encode .little 2 unit.toNat

instance sequential_readUnits (count : Nat) : Sequential (readUnits count) := by
  induction count with
  | zero => exact sequential_pure []
  | succ count ih =>
    unfold readUnits
    infer_instance

theorem decodes_readUnits (units : List UInt16) :
    Decodes (readUnits units.length) (units.flatMap unitBytes) units := by
  induction units with
  | nil => exact .pure []
  | cons unit rest ih =>
    apply (decodes_readFixed .little unit.toNat_lt).bind
    rw [UInt16.ofNat_toNat]
    exact ih.bind_pure (.pure _)

instance sequential_readUtf16 (units : Nat) : Sequential (readUtf16 units) :=
  inferInstanceAs (Sequential (readUnits units >>= fun words => pure (Utf16.decode words)))

theorem decodes_readUtf16 (s : String) :
    Decodes (readUtf16 (Utf16.encode s).length) ((Utf16.encode s).flatMap unitBytes) s := by
  have read := (decodes_readUnits (Utf16.encode s)).map Utf16.decode
  rwa [Utf16.decode_encode] at read

end units

end Buffer

end BinaryCodec
