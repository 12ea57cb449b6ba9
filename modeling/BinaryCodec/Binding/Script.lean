import BinaryCodec.Binding.Settings
import BinaryCodec.Definition.Document

namespace BinaryCodec.Binding

open Definition

inductive ScriptMethod where
  | boolean
  | string
  | byte
  | uint16
  | uint32
  | uint64
  | limitedBytes
  | float32
  | float64
  | uuid
  | signedVarint
  | unsignedVarint
  | date
  deriving DecidableEq, Repr, Inhabited

namespace ScriptMethod

def suffix : ScriptMethod → String
  | .boolean => "Boolean"
  | .string => "String"
  | .byte => "Byte"
  | .uint16 => "Uint16"
  | .uint32 => "Uint32"
  | .uint64 => "Uint64"
  | .limitedBytes => "LimitedBytes"
  | .float32 => "Float32"
  | .float64 => "Float64"
  | .uuid => "UUID"
  | .signedVarint => "SignedVarint"
  | .unsignedVarint => "UnsignedVarint"
  | .date => "Date"

def ofBuiltin : Builtin → ScriptMethod
  | .bool => .boolean
  | .string => .string
  | .uint8 => .byte
  | .uint16 => .uint16
  | .uint32 => .uint32
  | .uint64 => .uint64
  | .bytes => .limitedBytes
  | .float32 => .float32
  | .float64 => .float64
  | .uuid => .uuid
  | .int | .bigint => .signedVarint
  | .uint | .time => .unsignedVarint
  | .date => .date

end ScriptMethod

inductive ScriptMove where
  | call (method : ScriptMethod)
  | message (name : String)
  | choice
  deriving DecidableEq, Repr, Inhabited

namespace ScriptMove

def writing : FieldType → ScriptMove
  | .builtin type => .call (.ofBuiltin type)
  | .message name => .message name
  | .enumeration _ => .choice

def reading : FieldType → ScriptMove
  | .builtin type => .call (.ofBuiltin type)
  | .message name => .message name
  | .enumeration _ => .choice

end ScriptMove

inductive ScriptDefault where
  | emptyArray
  | falsehood
  | emptyText
  | zero
  | bigZero
  | emptyBytes
  | zeroFloat
  | zeroUuid
  | epoch
  | construct (name : String)
  deriving DecidableEq, Repr, Inhabited

namespace ScriptDefault

def ofBuiltin : Builtin → ScriptDefault
  | .bool => .falsehood
  | .string => .emptyText
  | .uint8 | .uint16 | .uint32 => .zero
  | .uint64 | .int | .uint | .bigint | .time => .bigZero
  | .bytes => .emptyBytes
  | .float32 | .float64 => .zeroFloat
  | .uuid => .zeroUuid
  | .date => .epoch

def ofField (field : MessageField) : ScriptDefault :=
  if field.isArray then .emptyArray
  else match field.type with
    | .builtin type => ofBuiltin type
    | .message name => .construct name
    | .enumeration _ => .zero

end ScriptDefault

structure ScriptField where
  name : String
  repeated : Bool
  initial : ScriptDefault
  write : ScriptMove
  read : ScriptMove
  deriving DecidableEq, Repr, Inhabited

def ScriptField.ofField (field : MessageField) : ScriptField :=
  ⟨field.name, field.isArray, .ofField field, .writing field.type, .reading field.type⟩

structure ScriptClass where
  name : String
  fields : List ScriptField
  deriving DecidableEq, Repr, Inhabited

def ScriptClass.ofMessage (m : Message) : ScriptClass := ⟨m.name, m.fields.map .ofField⟩

structure ScriptModule where
  package : String
  runtime : String
  compressed : Bool
  enumerations : List Enumeration
  classes : List ScriptClass
  deriving DecidableEq, Repr, Inhabited

/-- `items` in ascending order of their names; items of one name keep their order. -/
def sortByName {α : Type} (name : α → String) (items : List α) : List α :=
  items.mergeSort fun a b => !decide (name b < name a)

def ScriptModule.ofDocument (settings : Settings) (doc : Document) : ScriptModule where
  package := doc.package
  runtime := settings.scriptRuntime
  compressed := doc.hasPragma compressionPragma
  enumerations := sortByName Enumeration.name doc.enumerations
  classes := (sortByName Message.name doc.messages).map .ofMessage

def runtimeBinding : String := "wb"

def enumerationBinding (name : String) : String := "Enum_" ++ name

def prototypeMethods : List String := ["encodeBuf", "decodeBuf", "encode", "decode"]

def ScriptModule.bindings (m : ScriptModule) : List String :=
  runtimeBinding :: (m.enumerations.map fun e => enumerationBinding e.name) ++
    m.classes.map ScriptClass.name

end BinaryCodec.Binding
