import BinaryCodec.Binding.Native
import BinaryCodec.Schema.Decode

namespace BinaryCodec.Binding

open Definition

def declareMessage (path : String) (m : Message) : String × Declaration :=
  (m.name, ⟨path ++ typeIdentifier m.name,
    .message ((NativeRecord.ofMessage m).fields.map NativeField.step)⟩)

def declareEnumeration (path : String) (e : Enumeration) : String × Declaration :=
  (e.name, ⟨path ++ typeIdentifier e.name,
    .choices ((NativeEnumeration.ofEnumeration e).cases.map NativeCase.name)⟩)

/-- The declarations of a document, by the names that it gives them. -/
def declarations (path : String) (doc : Document) : Registry :=
  doc.messages.map (declareMessage path) ++ doc.enumerations.map (declareEnumeration path)

def defaultBuiltin : Builtin → Value
  | .bool => .bool false
  | .string => .text ""
  | .uint8 | .uint16 | .uint32 | .uint64 | .int | .uint | .bigint | .time => .int 0
  | .bytes => .list []
  | .float32 | .float64 => .float 0
  | .uuid => .uuid .zero
  | .date => .instant .epoch

/-- The value of a field that nothing was put into, where `message` answers for messages. -/
def defaultField (message : String → Value) (field : MessageField) : Value :=
  if field.isArray then .list []
  else match field.type with
    | .builtin type => defaultBuiltin type
    | .message name => message name
    | .enumeration _ => .variant 0 []

/-- The message that nothing was put into, with at most `fuel` messages inside one another. -/
def defaultWithin (doc : Document) : (fuel : Nat) → (name : String) → Value
  | 0, _ => .record []
  | fuel + 1, name =>
    match doc.message? name with
    | some m => .record (m.fields.map (defaultField (defaultWithin doc fuel)))
    | none => .record []

def defaultMessage (doc : Document) (name : String) : Value :=
  defaultWithin doc doc.messages.length name

/-- What packs bytes and what unpacks them; neither is a part of this library. -/
structure Compression where
  compress : List UInt8 → Except Error (List UInt8)
  decompress : List UInt8 → Except Error (List UInt8)

def Compression.Inverts (zlib : Compression) : Prop :=
  ∀ bytes packed, zlib.compress bytes = .ok packed → zlib.decompress packed = .ok bytes

section messages

variable (zlib : Compression) (doc : Document) (name : String)

/-- The bytes of a message, packed if the document says so. -/
def marshalMessage (v : Value) : Except Error (List UInt8) := do
  let bytes ← Schema.marshal (declarations "" doc) (.named name) v
  if doc.hasPragma compressionPragma then zlib.compress bytes else return bytes

/-- The message of some bytes, unpacked before if the document says so. -/
def unmarshalMessage (bytes : List UInt8) : Except Error Value := do
  let bytes ← if doc.hasPragma compressionPragma then zlib.decompress bytes else pure bytes
  Schema.unmarshal (declarations "" doc) (.named name) bytes

end messages

end BinaryCodec.Binding
