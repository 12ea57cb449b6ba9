import BinaryCodec.Binding.Native
import BinaryCodec.Binding.Outline

namespace BinaryCodec.Binding

open Outline

def vectorText (item : String) : String := "::std::vec::Vec<" ++ item ++ ">"

/-- The text of a type, where `runtime` is the path of the library. -/
def NativeType.text (runtime : String) : NativeType → String
  | .bool => "bool"
  | .string => "::std::string::String"
  | .integer type => type.name
  | .float type => type.name
  | .uuid => runtime ++ "::Uuid"
  | .instant => runtime ++ "::DateTime<" ++ runtime ++ "::Utc>"
  | .fixed type => runtime ++ "::containers::Fixed<" ++ type.name ++ ">"
  | .date => runtime ++ "::containers::Date"
  | .vector item => vectorText (item.text runtime)
  | .declared name => typeIdentifier name

inductive Place where
  | field (name : String)
  | item
  deriving DecidableEq, Repr, Inhabited

namespace Place

def value : Place → String
  | .field name => "self." ++ name
  | .item => "*item"

def reference : Place → String
  | .field name => "&self." ++ name
  | .item => "item"

def receiver : Place → String
  | .field name => "self." ++ name
  | .item => "item"

end Place

def takesReference : Method → Bool
  | .string | .limitedBytes | .uuid | .date => true
  | _ => false

def writeStatement (place : Place) : Move → String
  | .call method =>
    let argument := if takesReference method then place.reference else place.value
    "buf.write_" ++ method.suffix ++ "(" ++ argument ++ ")?;"
  | .message _ => place.receiver ++ ".encode_into(buf)?;"
  | .choice _ => "buf.write_uvarint(u64::from(" ++ place.value ++ "))?;"

def readExpression : Move → String
  | .call method => "buf.read_" ++ method.suffix ++ "()?"
  | .message name => typeIdentifier name ++ "::decode_from(buf)?"
  | .choice name => typeIdentifier name ++ "::try_from(buf.read_uvarint()?)?"

namespace NativeField

def writing (field : NativeField) : List Outline :=
  if field.repeated then
    [.line ("buf.write_uvarint(self." ++ field.name ++ ".len() as u64)?;"),
      .block ("for item in &self." ++ field.name) [.line (writeStatement .item field.write)] ""]
  else [.line (writeStatement (.field field.name) field.write)]

/-- The entry of a record expression that reads a field. -/
def reading (runtime : String) (field : NativeField) : Outline :=
  let item := readExpression field.read
  if field.repeated then
    .block (field.name ++ ":") [
      .line ("let len = buf.read_length(<" ++ field.wire.text runtime ++ " as " ++ runtime ++
        "::Decode>::MIN_SIZE)?;"),
      .line ("let mut items = ::std::vec::Vec::with_capacity(buf.limits().capacity_for::<" ++
        field.item.text runtime ++ ">(len));"),
      .block "for _ in 0..len" [.line ("items.push(" ++ item ++ ");")] "",
      .line "items"] ","
  else .line (field.name ++ ": " ++ item ++ ",")

def measuring (runtime : String) (field : NativeField) : Outline :=
  .line ("total = total.checked_add(<" ++ field.wireType.text runtime ++ " as " ++ runtime ++
    "::Encode>::size_of(&src." ++ field.name ++ ")?).ok_or_else(" ++ runtime ++
    "::error::size_of_overflow)?;")

end NativeField

def unusedBuffer (fields : List NativeField) : List Outline :=
  if fields.isEmpty then [.line "let _ = buf;"] else []

namespace NativeRecord

def minSizeText (runtime : String) (record : NativeRecord) : String :=
  "0" ++ String.join (record.fields.map fun field =>
    " + <" ++ field.wireType.text runtime ++ " as " ++ runtime ++ "::Decode>::MIN_SIZE")

def marshalBody (runtime : String) (compressed : Bool) : List Outline :=
  let bytes := "<Self as " ++ runtime ++ "::Marshal>::marshal(self)"
  if compressed then
    [.line ("let bytes = " ++ bytes ++ "?;"), .line (runtime ++ "::zlib::compress(&bytes)")]
  else [.line bytes]

def unmarshalBody (runtime : String) (compressed : Bool) : List Outline :=
  let buffer := "let mut buf = " ++ runtime ++ "::Buffer::from_slice("
  (if compressed then
    [.line ("let bytes = " ++ runtime ++ "::zlib::decompress(bytes)?;"),
      .line (buffer ++ "&bytes);")]
  else [.line (buffer ++ "bytes);")]) ++
  [.line "Self::decode_from(&mut buf)"]

def sizeMethod (runtime : String) (record : NativeRecord) : Outline :=
  if record.fields.isEmpty then
    .block ("fn size_of(_src: &Self) -> " ++ runtime ++ "::Result<usize>") [.line "Ok(0)"] ""
  else
    .block ("fn size_of(src: &Self) -> " ++ runtime ++ "::Result<usize>")
      (.line "let mut total = 0usize;" :: record.fields.map (NativeField.measuring runtime) ++
        [.line "Ok(total)"]) ""

def outline (runtime : String) (compressed : Bool) (record : NativeRecord) : List Outline := [
  .line "#[derive(Debug, Clone, PartialEq, Default)]",
  .block ("pub struct " ++ record.name)
    (record.fields.map fun field =>
      .line ("pub " ++ field.name ++ ": " ++ field.type.text runtime ++ ",")) "",
  blank,
  .block ("impl " ++ record.name) [
    .block ("pub fn marshal(&self) -> " ++ runtime ++ "::Result<::std::vec::Vec<u8>>")
      (marshalBody runtime compressed) "",
    blank,
    .block ("pub fn unmarshal(bytes: &[u8]) -> " ++ runtime ++ "::Result<Self>")
      (unmarshalBody runtime compressed) "",
    blank,
    .block ("pub fn encode_into(&self, buf: &mut " ++ runtime ++ "::Buffer<'_>) -> " ++ runtime ++
        "::Result<()>")
      (unusedBuffer record.fields ++ record.fields.flatMap NativeField.writing ++
        [.line "Ok(())"]) "",
    blank,
    .block ("pub fn decode_from(buf: &mut " ++ runtime ++ "::Buffer<'_>) -> " ++ runtime ++
        "::Result<Self>")
      (unusedBuffer record.fields ++
        [.block "Ok(Self" (record.fields.map (NativeField.reading runtime)) ")"]) ""] "",
  blank,
  .block ("impl " ++ runtime ++ "::Encode for " ++ record.name) [
    .line "type Src = Self;",
    blank,
    record.sizeMethod runtime,
    blank,
    .block ("fn encode(buf: &mut " ++ runtime ++ "::Buffer<'_>, src: &Self) -> " ++ runtime ++
        "::Result<()>")
      [.line "src.encode_into(buf)"] ""] "",
  blank,
  .block ("impl " ++ runtime ++ "::Decode for " ++ record.name) [
    .line "type Dst = Self;",
    .line ("const MIN_SIZE: usize = " ++ record.minSizeText runtime ++ ";"),
    blank,
    .block ("fn decode(buf: &mut " ++ runtime ++ "::Buffer<'_>) -> " ++ runtime ++ "::Result<Self>")
      [.line "Self::decode_from(buf)"] ""] "",
  blank]

end NativeRecord

namespace NativeEnumeration

def caseLines (e : NativeEnumeration) : List Outline :=
  e.cases.zipIdx.flatMap fun (c, index) =>
    (if index = 0 then [.line "#[default]"] else []) ++ [.line (c.name ++ s!" = {c.number},")]

def arms (runtime : String) (e : NativeEnumeration) : List Outline :=
  (e.cases.map fun c => .line (s!"{c.number} => Ok(Self::" ++ c.name ++ "),")) ++
    [.line ("_ => Err(" ++ runtime ++ "::error::invalid_tag_encoding(value)),")]

def outline (runtime : String) (e : NativeEnumeration) : List Outline := [
  .line "#[derive(Debug, Clone, Copy, PartialEq, Eq, Hash, Default)]",
  .block ("pub enum " ++ e.name) e.caseLines "",
  blank,
  .block ("impl ::core::convert::From<" ++ e.name ++ "> for u64") [
    .block ("fn from(value: " ++ e.name ++ ") -> u64") [.line "value as u64"] ""] "",
  blank,
  .block ("impl ::core::convert::TryFrom<u64> for " ++ e.name) [
    .line ("type Error = " ++ runtime ++ "::Error;"),
    blank,
    .block ("fn try_from(value: u64) -> " ++ runtime ++ "::Result<Self>")
      [.block "match value" (e.arms runtime) ""] ""] "",
  blank,
  .block ("impl " ++ runtime ++ "::Encode for " ++ e.name) [
    .line "type Src = Self;",
    blank,
    .block ("fn size_of(src: &Self) -> " ++ runtime ++ "::Result<usize>")
      [.line ("Ok(" ++ runtime ++ "::varint::unsigned_len(u64::from(*src)))")] "",
    blank,
    .block ("fn encode(buf: &mut " ++ runtime ++ "::Buffer<'_>, src: &Self) -> " ++ runtime ++
        "::Result<()>")
      [.line "buf.write_uvarint(u64::from(*src))"] ""] "",
  blank,
  .block ("impl " ++ runtime ++ "::Decode for " ++ e.name) [
    .line "type Dst = Self;",
    .line "const MIN_SIZE: usize = 1;",
    blank,
    .block ("fn decode(buf: &mut " ++ runtime ++ "::Buffer<'_>) -> " ++ runtime ++ "::Result<Self>")
      [.line "Self::try_from(buf.read_uvarint()?)"] ""] "",
  blank]

end NativeEnumeration

def NativeMethod.text (method : NativeMethod) : String :=
  let request := match method.request with
    | some type => ", request: " ++ type
    | none => ""
  "fn " ++ method.name ++ "(&mut self" ++ request ++ ") -> ::core::result::Result<" ++
    method.response.getD "()" ++ ", Self::Error>;"

def NativeTrait.outline (t : NativeTrait) : List Outline := [
  .block ("pub trait " ++ t.name)
    (.line "type Error;" :: t.methods.flatMap fun method => [blank, .line method.text]) "",
  blank]

/-- The text of a module: enumerations, records, then traits. -/
def NativeModule.text (m : NativeModule) : String :=
  Outline.text 4 (
    [.line (banner m.package), blank] ++
    m.enumerations.flatMap (NativeEnumeration.outline m.runtime) ++
    m.records.flatMap (NativeRecord.outline m.runtime m.compressed) ++
    m.traits.flatMap NativeTrait.outline)

end BinaryCodec.Binding
