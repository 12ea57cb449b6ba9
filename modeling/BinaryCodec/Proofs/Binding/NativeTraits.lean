import BinaryCodec.Proofs.Binding.LineEnd
import BinaryCodec.Proofs.Binding.NativeMethods
import Mathlib.Data.List.Induction

namespace BinaryCodec.Binding

open Definition Form

namespace NativeWire

section reading

variable (runtime : String)

def implemented? (clause head : String) : Option String := do
  let (name, front) := lastWord head.toList.reverse
  let front ← before? "impl " (← before? runtime (← before? clause front))
  if front = [] then some name else none

def implementation? (clause : String) : Outline → Option (String × List Outline)
  | .line _ => none
  | .block head body _ => (implemented? runtime clause head).map fun type => (type, body)

def implementations (clause : String) (pieces : List Outline) : List (String × List Outline) :=
  pieces.filterMap (implementation? runtime clause)

def traitMethodRules : List (Rule String) := [⟨[.text "fn ", .word, .text "(", .rest], List.head?⟩]

def traitMethod? (name : String) (body : List Outline) : Option (List Outline) :=
  body.findSome? fun
    | .line _ => none
    | .block head body _ => if readLine traitMethodRules head = some name then some body else none

/-- How the size of a value is told: by the sum over fields, each of a type, or as that of a number. -/
inductive Measure where
  | fields (fields : List (String × NativeType))
  | choice
  deriving DecidableEq, Repr

def addend? (line : String) : Option (String × NativeType) := do
  let front ← before? runtime (← before? "::error::size_of_overflow)?;" line.toList.reverse)
  let (name, front) := lastWord (← before? ")?).ok_or_else(" front)
  let front ← before? runtime (← before? "::Encode>::size_of(&src." front)
  let (type, front) ← fieldTypeEnd? runtime (← before? " as " front)
  let front ← before? "total = total.checked_add(" (← before? "<" front)
  if front = [] then some (name, type) else none

def addends? : List Outline → Option (List (String × NativeType))
  | [.line text] => if text = "Ok(total)" then some [] else none
  | .line text :: rest => do return (← addend? runtime text) :: (← addends? rest)
  | _ => none

def summed? : List Outline → Option (List (String × NativeType))
  | [.line text] => if text = "Ok(0)" then some [] else none
  | .line text :: rest => if text = "let mut total = 0usize;" then addends? runtime rest else none
  | _ => none

def measured? (body : List Outline) : Option Measure := do
  let size ← traitMethod? "size_of" body
  match ← traitMethod? "encode" body, size with
  | [.line "src.encode_into(buf)"], _ => .fields <$> summed? runtime size
  | [.line "buf.write_uvarint(u64::from(*src))"], [.line text] =>
    if text = "Ok(" ++ runtime ++ "::varint::unsigned_len(u64::from(*src)))" then some .choice else none
  | _, _ => none

inductive Least where
  | sum (types : List NativeType)
  | one
  deriving DecidableEq, Repr

def leastTypes? : (count : Nat) → List Char → Option (List NativeType)
  | 0, _ => none
  | count + 1, chars =>
    match before? "const MIN_SIZE: usize = 0" chars with
    | some front => if front = [] then some [] else none
    | none => do
      let front ← before? runtime (← before? "::Decode>::MIN_SIZE" chars)
      let (type, front) ← fieldTypeEnd? runtime (← before? " as " front)
      return (← leastTypes? count (← before? " + " (← before? "<" front))) ++ [type]

def leastLine? (line : String) : Option Least := do
  let front ← before? ";" line.toList.reverse
  if before? "const MIN_SIZE: usize = 1" front = some [] then some .one
  else .sum <$> leastTypes? runtime front.length front

def least? (body : List Outline) : Option Least := do
  let least ← body.findSome? fun
    | .line text => leastLine? runtime text
    | .block .. => none
  match ← traitMethod? "decode" body, least with
  | [.line "Self::decode_from(buf)"], .sum types => some (.sum types)
  | [.line "Self::try_from(buf.read_uvarint()?)"], .one => some .one
  | _, _ => none

def lengthType? (line : String) : Option NativeType := do
  let front ← before? runtime (← before? "::Decode>::MIN_SIZE)?;" line.toList.reverse)
  let (type, front) ← fieldTypeEnd? runtime (← before? " as " front)
  let front ← before? "let len = buf.read_length(" (← before? "<" front)
  if front = [] then some type else none

def checked? : Outline → Option (List (String × NativeType))
  | .line _ => some []
  | .block head (.line length :: _) _ => do return [(← readLine nameRules head, ← lengthType? runtime length)]
  | .block .. => none

def packs? : List Outline → Option Bool
  | [.line bytes] =>
    if bytes = "<Self as " ++ runtime ++ "::Marshal>::marshal(self)" then some false else none
  | [.line bytes, .line packed] =>
    if bytes = "let bytes = <Self as " ++ runtime ++ "::Marshal>::marshal(self)?;" ∧
      packed = runtime ++ "::zlib::compress(&bytes)" then some true else none
  | _ => none

def unpacks? : List Outline → Option Bool
  | [.line buffer, .line value] =>
    if buffer = "let mut buf = " ++ runtime ++ "::Buffer::from_slice(bytes);" ∧
      value = "Self::decode_from(&mut buf)" then some false else none
  | [.line bytes, .line buffer, .line value] =>
    if bytes = "let bytes = " ++ runtime ++ "::zlib::decompress(bytes)?;" ∧
      buffer = "let mut buf = " ++ runtime ++ "::Buffer::from_slice(&bytes);" ∧
      value = "Self::decode_from(&mut buf)" then some true else none
  | _ => none

variable (pieces : List Outline)

/-- For each type that can be written, how its size is told. -/
def measures : List (String × Option Measure) :=
  (implementations runtime "::Encode for " pieces).map fun found => (found.1, measured? runtime found.2)

/-- For each type that can be read, its least size. -/
def leasts : List (String × Option Least) :=
  (implementations runtime "::Decode for " pieces).map fun found => (found.1, least? runtime found.2)

/-- For each type with a method that reads, the fields of which lengths are checked, and the types by which. -/
def checks : List (String × Option (List (String × NativeType))) :=
  (methods "decode_from" pieces).map fun found =>
    (found.1, entries? found.2 >>= fun entries => (entries.mapM (checked? runtime)).map List.flatten)

/-- For each type with a method that makes bytes, whether they are compressed. -/
def packings : List (String × Option Bool) :=
  (methods "marshal" pieces).map fun found => (found.1, packs? runtime found.2)

def unpackings : List (String × Option Bool) :=
  (methods "unmarshal" pieces).map fun found => (found.1, unpacks? runtime found.2)

end reading

section heads

variable {runtime clause name head : String}

theorem implemented?_impl (plain : IsWord name)
    (stops : clause.toList.reverse.head?.any (!isWordChar ·) = true) :
    implemented? runtime clause ("impl " ++ runtime ++ clause ++ name) = some name := by
  have line : ("impl " ++ runtime ++ clause ++ name).toList.reverse =
      backwards [name, clause, runtime, "impl "] := by
    simp [backwards]
  rw [implemented?, line]
  simp (disch := assumption)

theorem implemented?_other {stop : String} (parts : List String)
    (line : head.toList.reverse = backwards (name :: stop :: parts)) (plain : IsWord name)
    (stops : stop.toList.reverse.head?.any (!isWordChar ·) = true)
    (differ : (clause.toList.reverse.zip stop.toList.reverse).all (fun p => p.1 == p.2) = false) :
    implemented? runtime clause head = none := by
  rw [implemented?, line]
  simp (disch := assumption)

theorem implemented?_word {stop : String} (plain : IsWord name)
    (stops : stop.toList.reverse.head?.any (!isWordChar ·) = true)
    (differ : (clause.toList.reverse.zip stop.toList.reverse).all (fun p => p.1 == p.2) = false) :
    implemented? runtime clause (stop ++ name) = none :=
  implemented?_other [] (by simp [backwards]) plain stops differ

theorem implemented?_clause {other : String} (plain : IsWord name)
    (stops : other.toList.reverse.head?.any (!isWordChar ·) = true)
    (differ : (clause.toList.reverse.zip other.toList.reverse).all (fun p => p.1 == p.2) = false) :
    implemented? runtime clause ("impl " ++ runtime ++ other ++ name) = none :=
  implemented?_other [runtime, "impl "] (by simp [backwards]) plain stops differ

theorem readLine_traitMethodRules {word : String} (plain : IsWord word) (parts : List String)
    (line : head.toList = joined ("fn " :: word :: "(" :: parts)) :
    readLine traitMethodRules head = some word := by
  simp (disch := first | assumption | decide) [line, traitMethodRules]

end heads

section fields

variable {runtime : String} {field : MessageField}
  (named : ∀ name, field.type = .message name ∨ field.type = .enumeration name → Alphanumeric name)
include named

theorem addend?_measuring (plain : IsWord (fieldIdentifier field.name)) :
    ∃ text, (NativeField.ofField field).measuring runtime = .line text ∧ addend? runtime text =
      some (fieldIdentifier field.name, (NativeField.ofField field).wireType.spelled) := by
  refine ⟨_, rfl, ?_⟩
  have line : ("total = total.checked_add(<" ++ (NativeField.ofField field).wireType.text runtime ++
      " as " ++ runtime ++ "::Encode>::size_of(&src." ++ (NativeField.ofField field).name ++
      ")?).ok_or_else(" ++ runtime ++ "::error::size_of_overflow)?;").toList.reverse = backwards
        ["::error::size_of_overflow)?;", runtime, ")?).ok_or_else(", fieldIdentifier field.name,
          "::Encode>::size_of(&src.", runtime, " as ", (NativeField.ofField field).wireType.text runtime,
          "<", "total = total.checked_add("] := by
    simp [backwards, NativeField.ofField]
  rw [addend?, line]
  simp (disch := first | assumption | decide) [fieldTypeEnd?_wireType named]

theorem lengthType?_reading : lengthType? runtime ("let len = buf.read_length(<" ++
    (NativeType.wireOf field.type).text runtime ++ " as " ++ runtime ++ "::Decode>::MIN_SIZE)?;") =
      some (NativeField.ofField field).wire.spelled := by
  have line : ("let len = buf.read_length(<" ++ (NativeType.wireOf field.type).text runtime ++ " as " ++
      runtime ++ "::Decode>::MIN_SIZE)?;").toList.reverse = backwards ["::Decode>::MIN_SIZE)?;", runtime,
        " as ", (NativeField.ofField field).wire.text runtime, "<", "let len = buf.read_length("] := by
    simp [backwards, NativeField.ofField]
  rw [lengthType?, line]
  simp (disch := first | assumption | decide) [fieldTypeEnd?_wire named]

end fields

section records

variable {runtime : String} {m : Message} {e : NativeEnumeration}

def encodeImplementation (runtime : String) (record : NativeRecord) : List Outline := [
  .line "type Src = Self;",
  Outline.blank,
  record.sizeMethod runtime,
  Outline.blank,
  .block ("fn encode(buf: &mut " ++ runtime ++ "::Buffer<'_>, src: &Self) -> " ++ runtime ++
    "::Result<()>") [.line "src.encode_into(buf)"] ""]

def decodeImplementation (runtime : String) (record : NativeRecord) : List Outline := [
  .line "type Dst = Self;",
  .line ("const MIN_SIZE: usize = " ++ record.minSizeText runtime ++ ";"),
  Outline.blank,
  .block ("fn decode(buf: &mut " ++ runtime ++ "::Buffer<'_>) -> " ++ runtime ++ "::Result<Self>")
    [.line "Self::decode_from(buf)"] ""]

def sizeBody (runtime : String) (record : NativeRecord) : List Outline :=
  if record.fields.isEmpty then [.line "Ok(0)"]
  else .line "let mut total = 0usize;" :: record.fields.map (NativeField.measuring runtime) ++
    [.line "Ok(total)"]

theorem sizeMethod_eq (runtime : String) (record : NativeRecord) :
    ∃ head, readLine traitMethodRules head = some "size_of" ∧
      record.sizeMethod runtime = .block head (sizeBody runtime record) "" := by
  have word : IsWord "size_of" := by decide
  have used : readLine traitMethodRules ("fn size_of(src: &Self) -> " ++ runtime ++
      "::Result<usize>") = some "size_of" :=
    readLine_traitMethodRules word ["src: &Self) -> ", runtime, "::Result<usize>"] (by simp [joined])
  have unused : readLine traitMethodRules ("fn size_of(_src: &Self) -> " ++ runtime ++
      "::Result<usize>") = some "size_of" :=
    readLine_traitMethodRules word ["_src: &Self) -> ", runtime, "::Result<usize>"] (by simp [joined])
  unfold NativeRecord.sizeMethod sizeBody
  split
  · exact ⟨_, unused, rfl⟩
  · exact ⟨_, used, rfl⟩

theorem readLine_encode (runtime : String) : readLine traitMethodRules ("fn encode(buf: &mut " ++
    runtime ++ "::Buffer<'_>, src: &Self) -> " ++ runtime ++ "::Result<()>") = some "encode" :=
  readLine_traitMethodRules (by decide)
    ["buf: &mut ", runtime, "::Buffer<'_>, src: &Self) -> ", runtime, "::Result<()>"]
    (by simp [joined])

theorem readLine_decode (runtime : String) : readLine traitMethodRules ("fn decode(buf: &mut " ++
    runtime ++ "::Buffer<'_>) -> " ++ runtime ++ "::Result<Self>") = some "decode" :=
  readLine_traitMethodRules (by decide)
    ["buf: &mut ", runtime, "::Buffer<'_>) -> ", runtime, "::Result<Self>"] (by simp [joined])

def Message.Named (m : Message) : Prop :=
  ∀ field ∈ m.fields, IsWord (fieldIdentifier field.name) ∧
    ∀ name, field.type = .message name ∨ field.type = .enumeration name → Alphanumeric name

theorem addends?_cons {text : String} {rest : List Outline} (more : rest ≠ []) :
    addends? runtime (.line text :: rest) =
      (addend? runtime text).bind fun first => (addends? runtime rest).map (first :: ·) := by
  cases rest with
  | nil => exact absurd rfl more
  | cons piece rest =>
    rw [addends?.eq_2 _ _ _ more]
    cases addend? runtime text <;> cases addends? runtime (piece :: rest) <;> rfl

def measuredFields (m : Message) : List (String × NativeType) :=
  (NativeRecord.ofMessage m).fields.map fun field => (field.name, field.wireType.spelled)

theorem summed?_sizeBody (named : Message.Named m) :
    summed? runtime (sizeBody runtime (.ofMessage m)) = some (measuredFields m) := by
  have adds (fields : List MessageField) (among : ∀ field ∈ fields, field ∈ m.fields) :
      addends? runtime (((fields.map NativeField.ofField).map (NativeField.measuring runtime)) ++
        [.line "Ok(total)"]) =
          some ((fields.map NativeField.ofField).map fun field => (field.name, field.wireType.spelled)) := by
    induction fields with
    | nil => rfl
    | cons field rest ih =>
      obtain ⟨here, later⟩ := List.forall_mem_cons.mp among
      obtain ⟨text, same, adds⟩ := addend?_measuring (named field here).2 (named field here).1
      rw [List.map_cons, List.map_cons, List.cons_append, same, addends?_cons (by simp), adds, ih later]
      rfl
  unfold sizeBody measuredFields NativeRecord.ofMessage
  cases fields : m.fields with
  | nil => rfl
  | cons field rest =>
    have all := adds m.fields fun _ member => member
    rw [fields] at all
    rw [← all]
    rfl

theorem measured?_record (named : Message.Named m) :
    measured? runtime (encodeImplementation runtime (.ofMessage m)) =
      some (.fields (measuredFields m)) := by
  obtain ⟨head, size, method⟩ := sizeMethod_eq runtime (.ofMessage m)
  have sizes : traitMethod? "size_of" (encodeImplementation runtime (.ofMessage m)) =
      some (sizeBody runtime (.ofMessage m)) := by
    simp [traitMethod?, encodeImplementation, method, size, Outline.blank]
  have encodes : traitMethod? "encode" (encodeImplementation runtime (.ofMessage m)) =
      some [.line "src.encode_into(buf)"] := by
    simp [traitMethod?, encodeImplementation, method, size, readLine_encode, Outline.blank]
  rw [measured?, sizes, encodes]
  simp [summed?_sizeBody named]

def leastTypes (m : Message) : List NativeType :=
  (NativeRecord.ofMessage m).fields.map fun field => field.wireType.spelled

def leastText (runtime : String) (fields : List NativeField) : String :=
  "const MIN_SIZE: usize = " ++ NativeRecord.minSizeText runtime ⟨"", fields⟩

theorem leastText_nil (runtime : String) : leastText runtime [] = "const MIN_SIZE: usize = 0" := rfl

theorem minSizeText_append (runtime : String) (fields : List NativeField) (field : NativeField) :
    NativeRecord.minSizeText runtime ⟨"", fields ++ [field]⟩ =
      NativeRecord.minSizeText runtime ⟨"", fields⟩ ++ (" + <" ++ field.wireType.text runtime ++ " as " ++
        runtime ++ "::Decode>::MIN_SIZE") := by
  simp only [NativeRecord.minSizeText, List.map_append, List.map_singleton, String.join_append,
    String.append_assoc, String.join_cons, String.join_nil, String.append_empty]

theorem backwards_leastText (runtime : String) (fields : List NativeField) (field : NativeField) :
    backwards [leastText runtime (fields ++ [field])] = backwards ["::Decode>::MIN_SIZE", runtime,
      " as ", field.wireType.text runtime, "<", " + ", leastText runtime fields] := by
  unfold leastText
  rw [minSizeText_append]
  generalize NativeRecord.minSizeText runtime _ = sum
  simp [backwards]

theorem leastTypes?_fields {fields : List MessageField} (named : ∀ field ∈ fields, ∀ name,
      field.type = .message name ∨ field.type = .enumeration name → Alphanumeric name) {count : Nat}
    (enough : fields.length < count) :
    leastTypes? runtime count (backwards [leastText runtime (fields.map NativeField.ofField)]) =
      some ((fields.map NativeField.ofField).map fun field => field.wireType.spelled) := by
  obtain ⟨count, rfl⟩ : ∃ less, count = less + 1 := ⟨count - 1, by omega⟩
  induction fields using List.reverseRecOn generalizing count with
  | nil =>
    rw [List.map_nil, leastText_nil, leastTypes?, before?_text]
    rfl
  | append_singleton fields field ih =>
    obtain ⟨earlier, last⟩ := List.forall_mem_append.mp named
    have last := List.forall_mem_singleton.mp last
    rw [List.length_append, List.length_singleton] at enough
    obtain ⟨less, rfl⟩ : ∃ less, count = less + 1 := ⟨count - 1, by omega⟩
    have front := ih earlier less (by omega)
    rw [List.map_append, List.map_singleton, backwards_leastText, leastTypes?]
    generalize leastText runtime (fields.map NativeField.ofField) = sum at front ⊢
    simp (disch := decide) [fieldTypeEnd?_wireType last, front]

theorem length_lt_leastText (runtime : String) (fields : List NativeField) :
    fields.length < (backwards [leastText runtime fields]).length := by
  induction fields using List.reverseRecOn with
  | nil =>
    rw [leastText_nil]
    decide
  | append_singleton fields field ih =>
    rw [backwards_leastText, backwards_cons, backwards_cons, backwards_cons, backwards_cons,
      backwards_cons, backwards_cons]
    generalize backwards [leastText runtime fields] = front at ih ⊢
    simp only [List.length_append, List.length_singleton, List.length_reverse, String.length_toList]
    have plus : " + ".length = 3 := rfl
    omega

theorem leastLine?_record (named : Message.Named m) : leastLine? runtime ("const MIN_SIZE: usize = " ++
    NativeRecord.minSizeText runtime (.ofMessage m) ++ ";") = some (.sum (leastTypes m)) := by
  have line : ("const MIN_SIZE: usize = " ++ NativeRecord.minSizeText runtime (.ofMessage m) ++
      ";").toList.reverse = backwards [";", leastText runtime (m.fields.map NativeField.ofField)] := by
    change ((leastText runtime (m.fields.map NativeField.ofField)) ++ ";").toList.reverse = _
    generalize leastText runtime _ = least
    simp [backwards]
  have other (fields : List NativeField) :
      before? "const MIN_SIZE: usize = 1" (backwards [leastText runtime fields]) = none := by
    rcases List.eq_nil_or_concat fields with rfl | ⟨front, last, rfl⟩
    · rw [leastText_nil]
      exact before?_other (by decide)
    · rw [List.concat_eq_append, backwards_leastText]
      exact before?_other (by decide)
  have enough := length_lt_leastText runtime (m.fields.map NativeField.ofField)
  rw [List.length_map] at enough
  rw [leastLine?, line, before?_text]
  change (if before? _ _ = _ then _ else _) = _
  rw [other, if_neg (by simp),
    leastTypes?_fields (fun field member => (named field member).2) enough]
  rfl

theorem leastLine?_destination (runtime : String) : leastLine? runtime "type Dst = Self;" = none := by
  have line : "type Dst = Self;".toList.reverse = backwards [";", "type Dst = Self"] := by
    simp [backwards]
  have none (count : Nat) : leastTypes? runtime count (backwards ["type Dst = Self"]) = none := by
    cases count with
    | zero => rfl
    | succ count =>
      rw [leastTypes?]
      simp (disch := decide)
  rw [leastLine?, line]
  simp (disch := decide) [none]

theorem least?_record (named : Message.Named m) :
    least? runtime (decodeImplementation runtime (.ofMessage m)) = some (.sum (leastTypes m)) := by
  have decodes : traitMethod? "decode" (decodeImplementation runtime (.ofMessage m)) =
      some [.line "Self::decode_from(buf)"] := by
    simp [traitMethod?, decodeImplementation, readLine_decode, Outline.blank]
  rw [least?, decodes]
  simp [decodeImplementation, leastLine?_destination, leastLine?_record named]

def checkedFields (m : Message) : List (String × NativeType) :=
  (NativeRecord.ofMessage m).fields.flatMap fun field =>
    if field.repeated then [(field.name, field.wire.spelled)] else []

theorem checks_decoderBody (named : Message.Named m) : (entries? (decoderBody runtime m) >>=
    fun entries => (entries.mapM (checked? runtime)).map List.flatten) = some (checkedFields m) := by
  have each : ∀ field ∈ m.fields, checked? runtime ((NativeField.ofField field).reading runtime) =
      some (if (NativeField.ofField field).repeated then
        [((NativeField.ofField field).name, (NativeField.ofField field).wire.spelled)] else []) := by
    intro field member
    obtain ⟨word, types⟩ := named field member
    cases array : field.isArray with
    | false =>
      rw [reading_single array, NativeField.ofField, array]
      rfl
    | true =>
      rw [reading_array array, checked?, readLine_nameRules word, lengthType?_reading types,
        NativeField.ofField, array]
      rfl
  have all := mapM_eq_some each
  have fields : (NativeRecord.ofMessage m).fields.map (NativeField.reading runtime) =
      m.fields.map fun field => (NativeField.ofField field).reading runtime := List.map_map ..
  rw [entries_decoderBody, fields]
  change Option.map _ (List.mapM _ _) = _
  rw [List.mapM_map]
  refine (congrArg (Option.map List.flatten) all).trans ?_
  rw [checkedFields, NativeRecord.ofMessage, List.flatMap_map]
  rfl

theorem packs?_marshalBody (runtime : String) (compressed : Bool) :
    packs? runtime (NativeRecord.marshalBody runtime compressed) = some compressed := by
  cases compressed with
  | false => exact if_pos rfl
  | true =>
    refine if_pos ⟨?_, rfl⟩
    simp [← String.toList_inj]

theorem unpacks?_unmarshalBody (runtime : String) (compressed : Bool) :
    unpacks? runtime (NativeRecord.unmarshalBody runtime compressed) = some compressed := by
  cases compressed with
  | false =>
    refine if_pos ⟨?_, rfl⟩
    simp [← String.toList_inj]
  | true =>
    refine if_pos ⟨rfl, ?_, rfl⟩
    simp [← String.toList_inj]

theorem implementations_record (plain : IsWord (typeIdentifier m.name)) (compressed : Bool) :
    implementations runtime "::Encode for " ((NativeRecord.ofMessage m).outline runtime compressed) =
        [(typeIdentifier m.name, encodeImplementation runtime (.ofMessage m))] ∧
      implementations runtime "::Decode for " ((NativeRecord.ofMessage m).outline runtime compressed) =
        [(typeIdentifier m.name, decodeImplementation runtime (.ofMessage m))] := by
  have name : (NativeRecord.ofMessage m).name = typeIdentifier m.name := rfl
  unfold implementations NativeRecord.outline
  rw [name]
  constructor
  · simp (disch := first | assumption | decide) only [Outline.blank, List.filterMap_cons, implementation?,
      implemented?_word, implemented?_impl, implemented?_clause]
    rfl
  · simp (disch := first | assumption | decide) only [Outline.blank, List.filterMap_cons, implementation?,
      implemented?_word, implemented?_impl, implemented?_clause]
    rfl

end records

section modules

variable {runtime clause : String} {doc : Document} (settings : Settings)

def encodeChoice (runtime : String) : List Outline := [
  .line "type Src = Self;",
  Outline.blank,
  .block ("fn size_of(src: &Self) -> " ++ runtime ++ "::Result<usize>")
    [.line ("Ok(" ++ runtime ++ "::varint::unsigned_len(u64::from(*src)))")] "",
  Outline.blank,
  .block ("fn encode(buf: &mut " ++ runtime ++ "::Buffer<'_>, src: &Self) -> " ++ runtime ++
    "::Result<()>") [.line "buf.write_uvarint(u64::from(*src))"] ""]

def decodeChoice (runtime : String) : List Outline := [
  .line "type Dst = Self;",
  .line "const MIN_SIZE: usize = 1;",
  Outline.blank,
  .block ("fn decode(buf: &mut " ++ runtime ++ "::Buffer<'_>) -> " ++ runtime ++ "::Result<Self>")
    [.line "Self::try_from(buf.read_uvarint()?)"] ""]

theorem measured?_choice (runtime : String) :
    measured? runtime (encodeChoice runtime) = some .choice := by
  have size : readLine traitMethodRules ("fn size_of(src: &Self) -> " ++ runtime ++
      "::Result<usize>") = some "size_of" :=
    readLine_traitMethodRules (by decide) ["src: &Self) -> ", runtime, "::Result<usize>"]
      (by simp [joined])
  have sizes : traitMethod? "size_of" (encodeChoice runtime) =
      some [.line ("Ok(" ++ runtime ++ "::varint::unsigned_len(u64::from(*src)))")] := by
    simp [traitMethod?, encodeChoice, size, Outline.blank]
  have encodes : traitMethod? "encode" (encodeChoice runtime) =
      some [.line "buf.write_uvarint(u64::from(*src))"] := by
    simp [traitMethod?, encodeChoice, size, readLine_encode, Outline.blank]
  rw [measured?, sizes, encodes]
  simp

theorem least?_choice (runtime : String) : least? runtime (decodeChoice runtime) = some .one := by
  have decodes : traitMethod? "decode" (decodeChoice runtime) =
      some [.line "Self::try_from(buf.read_uvarint()?)"] := by
    simp [traitMethod?, decodeChoice, readLine_decode, Outline.blank]
  have line : "const MIN_SIZE: usize = 1;".toList.reverse =
      backwards [";", "const MIN_SIZE: usize = 1"] := by
    simp [backwards]
  have one : leastLine? runtime "const MIN_SIZE: usize = 1;" = some .one := by
    rw [leastLine?, line]
    simp
  rw [least?, decodes]
  simp [decodeChoice, leastLine?_destination, one]

theorem implementations_enumeration {e : NativeEnumeration} (plain : IsWord e.name) :
    implementations runtime "::Encode for " (e.outline runtime) = [(e.name, encodeChoice runtime)] ∧
      implementations runtime "::Decode for " (e.outline runtime) = [(e.name, decodeChoice runtime)] := by
  have number (clause : String)
      (differ : (clause.toList.reverse.zip "> for ".toList.reverse).all (fun p => p.1 == p.2) = false) :
      implemented? runtime clause ("impl ::core::convert::From<" ++ e.name ++ "> for u64") = none := by
    have line : ("impl ::core::convert::From<" ++ e.name ++ "> for u64").toList.reverse =
        backwards ["u64", "> for ", e.name, "impl ::core::convert::From<"] := by
      simp [backwards]
    exact implemented?_other _ line (by decide) (by decide) differ
  unfold implementations NativeEnumeration.outline
  constructor
  · simp (disch := first | assumption | decide) only [Outline.blank, List.filterMap_cons, implementation?,
      implemented?_word, implemented?_impl, implemented?_clause, number]
    rfl
  · simp (disch := first | assumption | decide) only [Outline.blank, List.filterMap_cons, implementation?,
      implemented?_word, implemented?_impl, implemented?_clause, number]
    rfl

theorem implementations_trait {t : NativeTrait} (plain : IsWord t.name) :
    implementations runtime "::Encode for " t.outline = [] ∧
      implementations runtime "::Decode for " t.outline = [] := by
  unfold implementations NativeTrait.outline
  constructor <;>
  · simp (disch := first | assumption | decide) only [Outline.blank, List.filterMap_cons, implementation?,
      implemented?_word]
    rfl

/-- What is found piece by piece in a module is what is found in its parts. -/
theorem filterMap_ofDocument {α : Type} {find : Outline → Option α} (line : ∀ text, find (.line text) = none)
    {choice : Enumeration → List α} {record : Message → List α}
    (choices : ∀ e ∈ doc.enumerations,
      ((NativeEnumeration.ofEnumeration e).outline settings.runtime).filterMap find = choice e)
    (records : ∀ m ∈ doc.messages, ((NativeRecord.ofMessage m).outline settings.runtime
      (doc.hasPragma compressionPragma)).filterMap find = record m)
    (traits : ∀ s ∈ doc.services, (NativeTrait.ofService s).outline.filterMap find = []) :
    (NativeModule.ofDocument settings doc).pieces.filterMap find =
      doc.enumerations.flatMap choice ++ doc.messages.flatMap record := by
  have first : [.line (banner doc.package), Outline.blank].filterMap find = [] := by
    rw [List.filterMap_cons_none (line _), Outline.blank, List.filterMap_cons_none (line _), List.filterMap_nil]
  have last : (if settings.services then doc.services.map NativeTrait.ofService else []).flatMap
      (fun t => t.outline.filterMap find) = [] := by
    split
    · rw [List.flatMap_map, List.flatMap_eq_nil_iff]
      exact traits
    · rfl
  rw [NativeModule.pieces, NativeModule.ofDocument]
  simp only [List.filterMap_append, List.filterMap_flatMap, first, last, List.flatMap_map,
    List.nil_append, List.append_nil]
  rw [List.flatMap_congr choices, List.flatMap_congr records]

theorem implementations_ofDocument {choice : List Outline} {record : Message → List Outline}
    (choices : ∀ e ∈ doc.enumerations, implementations settings.runtime clause
      ((NativeEnumeration.ofEnumeration e).outline settings.runtime) = [(typeIdentifier e.name, choice)])
    (records : ∀ m ∈ doc.messages, implementations settings.runtime clause
      ((NativeRecord.ofMessage m).outline settings.runtime (doc.hasPragma compressionPragma)) =
        [(typeIdentifier m.name, record m)])
    (traits : ∀ s ∈ doc.services, implementations settings.runtime clause
      (NativeTrait.ofService s).outline = []) :
    implementations settings.runtime clause (NativeModule.ofDocument settings doc).pieces =
      (doc.enumerations.map fun e => (typeIdentifier e.name, choice)) ++
        doc.messages.map fun m => (typeIdentifier m.name, record m) :=
  (filterMap_ofDocument settings (fun _ => rfl) choices records traits).trans
    (congrArg₂ (· ++ ·) (List.flatMap_pure_eq_map ..) (List.flatMap_pure_eq_map ..))

end modules

section documents

variable {doc : Document} (settings : Settings) (wellFormed : doc.WellFormed)
include wellFormed

theorem named_of_wellFormed {m : Message} (member : m ∈ doc.messages) : Message.Named m := by
  intro field among
  refine ⟨(isWord_of_wellFormed wellFormed member).2.1 field among, fun name refers => ?_⟩
  have resolved := (wellFormed.messages m member).resolved field among
  rcases refers with same | same <;> rw [same] at resolved
  · exact wellFormed.typesNamed name (List.mem_append_left _ resolved)
  · exact wellFormed.typesNamed name (List.mem_append_right _ resolved.2)

theorem isWord_enumeration {e : Enumeration} (member : e ∈ doc.enumerations) :
    IsWord (NativeEnumeration.ofEnumeration e).name :=
  isWord_typeIdentifier (wellFormed.typesNamed _ (List.mem_append_right _ (List.mem_map_of_mem member)))

theorem isWord_service {s : Service} (member : s ∈ doc.services) :
    IsWord (NativeTrait.ofService s).name :=
  isWord_typeIdentifier (wellFormed.servicesNamed s member)

theorem encodes_ofDocument : implementations settings.runtime "::Encode for "
    (NativeModule.ofDocument settings doc).pieces =
      (doc.enumerations.map fun e => (typeIdentifier e.name, encodeChoice settings.runtime)) ++
        doc.messages.map fun m =>
          (typeIdentifier m.name, encodeImplementation settings.runtime (.ofMessage m)) := by
  apply implementations_ofDocument
  · exact fun e member => (implementations_enumeration (isWord_enumeration wellFormed member)).1
  · exact fun m member => (implementations_record (isWord_of_wellFormed wellFormed member).1 _).1
  · exact fun s member => (implementations_trait (isWord_service wellFormed member)).1

theorem decodes_ofDocument : implementations settings.runtime "::Decode for "
    (NativeModule.ofDocument settings doc).pieces =
      (doc.enumerations.map fun e => (typeIdentifier e.name, decodeChoice settings.runtime)) ++
        doc.messages.map fun m =>
          (typeIdentifier m.name, decodeImplementation settings.runtime (.ofMessage m)) := by
  apply implementations_ofDocument
  · exact fun e member => (implementations_enumeration (isWord_enumeration wellFormed member)).2
  · exact fun m member => (implementations_record (isWord_of_wellFormed wellFormed member).1 _).2
  · exact fun s member => (implementations_trait (isWord_service wellFormed member)).2

theorem measures_ofDocument : measures settings.runtime (NativeModule.ofDocument settings doc).pieces =
    (doc.enumerations.map fun e => (typeIdentifier e.name, some .choice)) ++
      doc.messages.map fun m => (typeIdentifier m.name, some (.fields (measuredFields m))) := by
  rw [measures, encodes_ofDocument settings wellFormed, List.map_append, List.map_map, List.map_map]
  congr 1
  · refine List.map_congr_left fun e _ => ?_
    rw [Function.comp_apply, measured?_choice]
  · refine List.map_congr_left fun m member => ?_
    rw [Function.comp_apply, measured?_record (named_of_wellFormed wellFormed member)]

theorem leasts_ofDocument : leasts settings.runtime (NativeModule.ofDocument settings doc).pieces =
    (doc.enumerations.map fun e => (typeIdentifier e.name, some .one)) ++
      doc.messages.map fun m => (typeIdentifier m.name, some (.sum (leastTypes m))) := by
  rw [leasts, decodes_ofDocument settings wellFormed, List.map_append, List.map_map, List.map_map]
  congr 1
  · refine List.map_congr_left fun e _ => ?_
    rw [Function.comp_apply, least?_choice]
  · refine List.map_congr_left fun m member => ?_
    rw [Function.comp_apply, least?_record (named_of_wellFormed wellFormed member)]

theorem checks_ofDocument : checks settings.runtime (NativeModule.ofDocument settings doc).pieces =
    doc.messages.map fun m => (typeIdentifier m.name, some (checkedFields m)) := by
  have found := methods_ofDocument settings fun m member =>
    (methods_record (isWord_of_wellFormed wellFormed member).1).2.1
  rw [checks, found, List.map_map]
  exact List.map_congr_left fun m member =>
    congrArg (Prod.mk _) (checks_decoderBody (named_of_wellFormed wellFormed member))

theorem packings_ofDocument : packings settings.runtime (NativeModule.ofDocument settings doc).pieces =
      (doc.messages.map fun m => (typeIdentifier m.name, some (doc.hasPragma compressionPragma))) ∧
    unpackings settings.runtime (NativeModule.ofDocument settings doc).pieces =
      doc.messages.map fun m => (typeIdentifier m.name, some (doc.hasPragma compressionPragma)) := by
  have packs := methods_ofDocument settings fun m member =>
    (methods_record (isWord_of_wellFormed wellFormed member).1).2.2.1
  have unpacks := methods_ofDocument settings fun m member =>
    (methods_record (isWord_of_wellFormed wellFormed member).1).2.2.2
  rw [packings, unpackings, packs, unpacks, List.map_map, List.map_map]
  exact ⟨List.map_congr_left fun m _ => congrArg (Prod.mk _) (packs?_marshalBody ..),
    List.map_congr_left fun m _ => congrArg (Prod.mk _) (unpacks?_unmarshalBody ..)⟩

end documents

end NativeWire

end BinaryCodec.Binding
