import BinaryCodec.Proofs.Schema.Output
import BinaryCodec.Proofs.Schema.Typing

namespace BinaryCodec.Schema

open Buffer

section integers

variable (type : IntType) (order : ByteOrder)

def isSingleByte (type : IntType) : Bool := type.bits = 8

theorem readInteger_eq (wide : isSingleByte type = false) :
    readInteger type = if type.isSigned then readSigned type.varintBits >>= checkRange type
      else readUnsigned type.varintBits >>= fun n => checkRange type n := by
  cases type <;> first | rfl | cases wide

theorem readInteger_single (narrow : isSingleByte type = true) :
    readInteger type = (fun b => .int (if type.isSigned then Word.unwrap 8 b.toNat else b.toNat)) <$>
      readByte := by
  cases type <;> first | rfl | cases narrow

theorem integerOutput_eq (wide : isSingleByte type = false) (n : Int) :
    integerOutput type n = if type.isSigned then .signed n else .unsigned n.toNat := by
  cases type <;> first | rfl | cases wide

theorem integerOutput_single (narrow : isSingleByte type = true) (n : Int) :
    integerOutput type n = .piece [UInt8.ofNat (Word.wrap 8 n)] := by
  cases type <;> first | rfl | cases narrow

instance sequential_checkRange (n : Int) : Sequential (checkRange type n) := by
  unfold checkRange
  infer_instance

instance sequential_readInteger : Sequential (readInteger type) := by
  cases narrow : isSingleByte type with
  | true =>
    rw [readInteger_single type narrow]
    infer_instance
  | false =>
    rw [readInteger_eq type narrow]
    infer_instance

theorem decodes_checkRange {n : Int} (holds : type.holds n = true) :
    Decodes (checkRange type n) [] (.int n) := by
  unfold checkRange
  rw [if_pos holds]
  exact .pure _

theorem yields_checkRange (n : Int) :
    Yields (checkRange type n) fun v _ => ∃ n, v = .int n ∧ type.holds n = true := by
  unfold checkRange
  split
  · next holds => exact .pure ⟨n, rfl, holds⟩
  · exact .throw _

theorem uniform_checkRange (n : Int) : Uniform (checkRange type n) := by
  unfold checkRange
  split
  · exact .pure _
  · exact .throw _

theorem holds_byte (narrow : isSingleByte type = true) (b : UInt8) :
    type.holds (if type.isSigned then Word.unwrap 8 b.toNat else b.toNat) = true := by
  have bound := b.toNat_lt
  have bits : type.bits = 8 := of_decide_eq_true narrow
  unfold IntType.holds
  rw [bits]
  cases type.isSigned with
  | true => exact Word.holdsSigned_unwrap (by decide) bound
  | false => exact Word.holdsUnsigned_iff.mpr ⟨Int.natCast_nonneg _, Int.ofNat_lt.mpr bound⟩

theorem unwrap_of_holds {type : IntType} {n : Int} (holds : type.holds n = true) :
    (if type.isSigned then Word.unwrap type.bits (Word.wrap type.bits n)
      else (Word.wrap type.bits n : Int)) = n := by
  unfold IntType.holds at holds
  cases signed : type.isSigned with
  | true =>
    rw [signed] at holds
    exact Word.unwrap_wrap (by cases type <;> decide) holds
  | false =>
    rw [signed] at holds
    exact Word.wrap_of_holdsUnsigned holds

theorem decodes_readInteger {n : Int} (holds : type.holds n = true) :
    ∃ bytes, (integerOutput type n).Writes bytes ∧ Decodes (readInteger type) bytes (.int n) := by
  cases narrow : isSingleByte type with
  | true =>
    have bits : type.bits = 8 := of_decide_eq_true narrow
    have whole := unwrap_of_holds holds
    have bound : Word.wrap 8 n < 256 := Word.wrap_lt 8 n
    have read := (decodes_readByte (UInt8.ofNat (Word.wrap 8 n))).map
      fun b => Value.int (if type.isSigned then Word.unwrap 8 b.toNat else b.toNat)
    rw [bits] at whole
    rw [UInt8.toNat_ofNat', Nat.mod_eq_of_lt bound, whole] at read
    rw [readInteger_single type narrow, integerOutput_single type narrow]
    exact ⟨_, .piece _, read⟩
  | false =>
    have within : type.bits ≤ type.varintBits := by cases type <;> decide
    have positive : 0 < type.varintBits := by cases type <;> decide
    have checked := decodes_checkRange type holds
    rw [readInteger_eq type narrow, integerOutput_eq type narrow]
    unfold IntType.holds at holds
    cases signed : type.isSigned with
    | true =>
      rw [signed] at holds
      have read := decodes_readSigned positive (Word.holdsSigned_mono within holds)
      exact ⟨_, .piece _, read.bind_pure checked⟩
    | false =>
      rw [signed] at holds
      obtain ⟨low, high⟩ := Word.holdsUnsigned_iff.mp holds
      have wide := Word.count_le within
      have read := decodes_readUnsigned positive (show n.toNat < Word.count type.varintBits by omega)
      have same : (n.toNat : Int) = n := Int.toNat_of_nonneg low
      refine ⟨_, .unsigned n.toNat, read.bind_pure ?_⟩
      rw [same]
      exact checked

theorem yields_readInteger :
    Yields (readInteger type) fun v used => (∃ n, v = .int n ∧ type.holds n = true) ∧ 1 ≤ used := by
  cases narrow : isSingleByte type with
  | true =>
    rw [readInteger_single type narrow]
    refine yields_readByte.map fun b used taken => ⟨⟨_, rfl, holds_byte type narrow b⟩, ?_⟩
    omega
  | false =>
    rw [readInteger_eq type narrow]
    split
    · refine (yields_readSigned _).bind fun n used read => ?_
      exact (yields_checkRange type n).mono fun v k holds => ⟨holds, by omega⟩
    · refine (yields_readUnsigned _).bind fun n used read => ?_
      exact (yields_checkRange type n).mono fun v k holds => ⟨holds, by omega⟩

theorem uniform_readInteger : Uniform (readInteger type) := by
  cases narrow : isSingleByte type with
  | true =>
    rw [readInteger_single type narrow]
    exact uniform_readByte.map
  | false =>
    rw [readInteger_eq type narrow]
    split
    · exact (uniform_readSigned _).bind (uniform_checkRange type)
    · exact (uniform_readUnsigned _).bind fun n => uniform_checkRange type n

theorem bits_eq_width : 8 * type.width = type.bits := by
  cases type <;> rfl

instance sequential_readFixedInteger : Sequential (readFixedInteger order type) :=
  inferInstanceAs (Sequential (readFixed order type.width >>= fun n =>
    pure (Value.int (if type.isSigned then Word.unwrap type.bits n else n))))

theorem decodes_readFixedInteger {n : Int} (holds : type.holds n = true) :
    Decodes (readFixedInteger order type)
      (Endian.encode order type.width (Word.wrap type.bits n)) (.int n) := by
  have bound : Word.wrap type.bits n < Word.count (8 * type.width) := by
    rw [bits_eq_width]
    exact Word.wrap_lt _ n
  have read := (decodes_readFixed order bound).map
    fun n => Value.int (if type.isSigned then Word.unwrap type.bits n else n)
  rwa [unwrap_of_holds holds] at read

theorem yields_readFixedInteger :
    Yields (readFixedInteger order type) fun v used =>
      (∃ n, v = .int n ∧ type.holds n = true) ∧ type.width ≤ used := by
  refine (yields_readFixed order type.width).map fun n used read => ⟨⟨_, rfl, ?_⟩, by omega⟩
  obtain ⟨bound, -⟩ := read
  rw [bits_eq_width] at bound
  unfold IntType.holds
  cases type.isSigned with
  | true => exact Word.holdsSigned_unwrap (by cases type <;> decide) bound
  | false => exact Word.holdsUnsigned_iff.mpr ⟨Int.natCast_nonneg _, Int.ofNat_lt.mpr bound⟩

theorem uniform_readFixedInteger : Uniform (readFixedInteger order type) :=
  (uniform_readFixed order type.width).map

end integers

section characters

def singleChar : Option (List Char) → Except Error Value
  | some [c] => .ok (.char c)
  | _ => .error .invalidChar

theorem readSingleChar_eq :
    readSingleChar = readLimited >>= fun bytes => settle (singleChar (Utf8.decodeChars? bytes)) := by
  unfold readSingleChar
  congr
  funext bytes
  generalize Utf8.decodeChars? bytes = chars
  match chars with
  | none | some [] | some [_] | some (_ :: _ :: _) => rfl

instance sequential_readSingleChar : Sequential readSingleChar := by
  rw [readSingleChar_eq]
  infer_instance

theorem decodes_readSingleChar (c : Char) :
    Decodes readSingleChar
      (Varint.encodeUnsigned (String.utf8EncodeChar c).length ++ String.utf8EncodeChar c)
      (.char c) := by
  have short : (String.utf8EncodeChar c).length < Word.count 64 := by
    have bound := c.utf8Size_le_four
    have room : 4 < Word.count 64 := by decide
    rw [String.length_utf8EncodeChar]
    omega
  have chars : Utf8.decodeChars? (String.utf8EncodeChar c) = some [c] := by
    have decoded := Utf8.decodeChars?_encode [c]
    rwa [List.flatMap_singleton] at decoded
  rw [readSingleChar_eq]
  apply (decodes_readLimited short).bind_pure
  rw [chars]
  exact .settle _

theorem yields_readSingleChar :
    Yields readSingleChar fun v used => (∃ c, v = .char c) ∧ 2 ≤ used := by
  rw [readSingleChar_eq]
  refine yields_readLimited.bind fun bytes used read => .settle fun v result => ?_
  unfold singleChar at result
  split at result
  · next c chars =>
    cases result
    have encoded := Utf8.encode_of_decodeChars? chars
    rw [List.flatMap_singleton] at encoded
    have filled := List.length_pos_iff.mpr (String.utf8EncodeChar_ne_nil (c := c))
    rw [encoded] at filled
    exact ⟨⟨c, rfl⟩, by omega⟩
  · cases result

theorem agrees_readSingleChar : Agrees readSingleChar := by
  rw [readSingleChar_eq]
  exact agrees_readLimited.bind fun _ => (Uniform.settle _).agrees

end characters

section leaves

variable {registry : Registry} {declared : String → BufferM Value} {schema : Schema} {v : Value}

theorem map_toByte (bytes : List UInt8) :
    (bytes.map fun b => Value.int b.toNat).map Value.toByte = bytes := by
  rw [List.map_map, List.map_congr_left (g := id), List.map_id]
  intro b _
  change UInt8.ofNat (b.toNat : Int).toNat = b
  rw [Int.toNat_natCast, UInt8.ofNat_toNat]

theorem sequential_leaf (leaf : schema.isLeaf = true) :
    Sequential (decodeWith registry declared schema) := by
  cases schema with
  | sequence | array | set | map | pointer | option | tuple | named => cases leaf
  | _ =>
    unfold decodeWith
    infer_instance

theorem decodes_leaf (leaf : schema.isLeaf = true) (holds : RepresentableLeaf schema v) :
    ∃ bytes, (leafOutput registry schema v).Writes bytes ∧
      ∀ declared, Decodes (decodeWith registry declared schema) bytes v := by
  cases schema with
  | unit | phantom =>
    subst holds
    exact ⟨[], .none, fun _ => .pure Value.unit⟩
  | bool =>
    obtain ⟨b, rfl⟩ := holds
    exact ⟨_, .piece _, fun _ => (decodes_readBool b).map Value.bool⟩
  | integer type =>
    obtain ⟨n, rfl, holds⟩ := holds
    obtain ⟨bytes, writes, read⟩ := decodes_readInteger type holds
    exact ⟨bytes, writes, fun _ => read⟩
  | fixed order type =>
    obtain ⟨n, rfl, holds⟩ := holds
    exact ⟨_, .piece _, fun _ => decodes_readFixedInteger type order holds⟩
  | float order type =>
    obtain ⟨pattern, rfl, bound⟩ := holds
    exact ⟨_, .piece _, fun _ => (decodes_readFixed order bound).map Value.float⟩
  | char =>
    obtain ⟨c, rfl⟩ := holds
    exact ⟨_, .limited _, fun _ => decodes_readSingleChar c⟩
  | string =>
    obtain ⟨s, rfl, bound⟩ := holds
    have read := (decodes_readString (Word.le_last_iff.mp bound)).map Value.text
    exact ⟨_, .limited _, fun _ => read⟩
  | fixedString width =>
    obtain ⟨s, rfl, fits, room⟩ := holds
    have written : leafOutput registry (.fixedString width) (.text s) = .piece (fixedField width s.toList) :=
      if_pos room
    rw [written]
    exact ⟨_, .piece _, fun _ => (decodes_readFixedString room fits).map Value.text⟩
  | cstring =>
    obtain ⟨s, rfl, clean⟩ := holds
    have read := (decodes_readCString clean).map Value.text
    exact ⟨_, (Output.Writes.piece _).append (.piece _), fun _ => read⟩
  | bytes =>
    obtain ⟨bytes, rfl, bound⟩ := holds
    have read := (decodes_readLimited (Word.le_last_iff.mp bound)).map Value.ofBytes
    have written : leafOutput registry .bytes (.ofBytes bytes) = .limited bytes :=
      congrArg Output.limited (map_toByte bytes)
    rw [written]
    exact ⟨_, .limited bytes, fun _ => read⟩
  | uuid =>
    obtain ⟨id, rfl⟩ := holds
    exact ⟨_, .piece _, fun _ => (decodes_readUuid id).map Value.uuid⟩
  | time =>
    obtain ⟨t, rfl, time⟩ := holds
    have written : Output.time t = .signed t.toNanos := by simp only [Output.time, time.timeNanos]
    change ∃ bytes, (Output.time t).Writes bytes ∧ _
    rw [written]
    exact ⟨_, .piece _, fun _ => (decodes_readTime time).map Value.instant⟩
  | date =>
    obtain ⟨t, rfl, date⟩ := holds
    have written : Output.date t = .unsigned t.toMillis.toNat := by
      simp only [Output.date, date.dateMillis]
    change ∃ bytes, (Output.date t).Writes bytes ∧ _
    rw [written]
    exact ⟨_, .unsigned _, fun _ => (decodes_readDate date).map Value.instant⟩
  | unsupported => exact holds.elim
  | sequence | array | set | map | pointer | option | tuple | named => cases leaf

theorem yields_leaf (leaf : schema.isLeaf = true) (least : String → Nat) :
    Yields (decodeWith registry declared schema) fun v used =>
      RepresentableLeaf schema v ∧ minSizeWith least schema ≤ used := by
  cases schema with
  | unit | phantom => exact .pure ⟨rfl, Nat.le_refl 0⟩
  | bool => exact yields_readBool.map fun b used taken => ⟨⟨b, rfl⟩, Nat.le_of_eq taken.symm⟩
  | integer type => exact yields_readInteger type
  | fixed order type => exact yields_readFixedInteger type order
  | float order type =>
    exact (yields_readFixed order type.width).map fun pattern used read =>
      ⟨⟨pattern, rfl, read.1⟩, Nat.le_of_eq read.2.symm⟩
  | char => exact yields_readSingleChar
  | string =>
    exact yields_readString.map fun s used read =>
      ⟨⟨s, rfl, Word.le_last_iff.mpr read.1⟩, read.2⟩
  | fixedString width =>
    exact (yields_readFixedString width).map fun s used read =>
      ⟨⟨s, rfl, read.1.1, read.1.2⟩, Nat.le_of_eq read.2.symm⟩
  | cstring => exact yields_readCString.map fun s used clean => ⟨⟨s, rfl, clean⟩, Nat.zero_le _⟩
  | bytes =>
    exact yields_readLimited.map fun bytes used read =>
      ⟨⟨bytes, rfl, Word.le_last_iff.mpr read.1⟩, Nat.one_le_of_lt read.2⟩
  | uuid => exact yields_readUuid.map fun id used taken => ⟨⟨id, rfl⟩, Nat.le_of_eq taken.symm⟩
  | time => exact yields_readTime.map fun t used read => ⟨⟨t, rfl, read.1⟩, read.2⟩
  | date => exact yields_readDate.map fun t used read => ⟨⟨t, rfl, read.1⟩, read.2⟩
  | unsupported => exact .throw _
  | sequence | array | set | map | pointer | option | tuple | named => cases leaf

theorem agrees_leaf (leaf : schema.isLeaf = true) : Agrees (decodeWith registry declared schema) := by
  cases schema with
  | unit | phantom => exact .pure _
  | bool => exact uniform_readBool.map.agrees
  | integer type => exact (uniform_readInteger type).agrees
  | fixed order type => exact (uniform_readFixedInteger type order).agrees
  | float order type => exact (uniform_readFixed order type.width).map.agrees
  | char => exact agrees_readSingleChar
  | string => exact agrees_readString.map
  | fixedString width => exact (uniform_readFixedString width).map.agrees
  | cstring => exact uniform_readCString.map.agrees
  | bytes => exact agrees_readLimited.map
  | uuid => exact uniform_readUuid.map.agrees
  | time => exact uniform_readTime.map.agrees
  | date => exact uniform_readDate.map.agrees
  | unsupported target => exact (Uniform.throw _).agrees
  | sequence | array | set | map | pointer | option | tuple | named => cases leaf

end leaves

end BinaryCodec.Schema
