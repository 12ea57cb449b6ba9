import BinaryCodec.Binding.Identifier
import BinaryCodec.Binding.Settings
import BinaryCodec.Definition.Document
import BinaryCodec.Schema.Registry

namespace BinaryCodec.Binding

open Definition

inductive NativeType where
  | bool
  | string
  | integer (type : IntType)
  | float (type : FloatType)
  | uuid
  | instant
  | fixed (type : IntType)
  | date
  | vector (item : NativeType)
  | declared (name : String)
  deriving DecidableEq, Repr, Inhabited

namespace NativeType

def schema : NativeType → Schema
  | .bool => .bool
  | .string => .string
  | .integer type => .integer type
  | .float type => .float .little type
  | .uuid => .uuid
  | .instant => .time
  | .fixed type => .fixed .little type
  | .date => .date
  | .vector item => .sequence .vector item.schema
  | .declared name => .named name

def ofBuiltin : Builtin → NativeType
  | .bool => .bool
  | .string => .string
  | .uint8 => .integer .u8
  | .uint16 => .integer .u16
  | .uint32 => .integer .u32
  | .uint64 | .uint | .time => .integer .u64
  | .bytes => .vector (.integer .u8)
  | .float32 => .float .f32
  | .float64 => .float .f64
  | .uuid => .uuid
  | .int => .integer .i64
  | .bigint => .integer .i128
  | .date => .instant

def ofField : FieldType → NativeType
  | .builtin type => ofBuiltin type
  | .message name | .enumeration name => .declared name

def wireOf : FieldType → NativeType
  | .builtin .uint16 => .fixed .u16
  | .builtin .uint32 => .fixed .u32
  | .builtin .uint64 => .fixed .u64
  | .builtin .date => .date
  | type => ofField type

def repeatedIf (repeated : Bool) (type : NativeType) : NativeType :=
  if repeated then .vector type else type

end NativeType

def writeMethod : Builtin → Method
  | .bool => .bool
  | .string => .string
  | .uint8 => .u8
  | .uint16 => .u16
  | .uint32 => .u32
  | .uint64 => .u64
  | .bytes => .limitedBytes
  | .float32 => .f32
  | .float64 => .f64
  | .uuid => .uuid
  | .int => .varint
  | .uint | .time => .uvarint
  | .bigint => .varint128
  | .date => .date

def readMethod : Builtin → Method
  | .bool => .bool
  | .string => .string
  | .uint8 => .u8
  | .uint16 => .u16
  | .uint32 => .u32
  | .uint64 => .u64
  | .bytes => .limitedBytes
  | .float32 => .f32
  | .float64 => .f64
  | .uuid => .uuid
  | .int => .varint
  | .uint | .time => .uvarint
  | .bigint => .varint128
  | .date => .date

def writeMove : FieldType → Move
  | .builtin type => .call (writeMethod type)
  | .message name => .message name
  | .enumeration name => .choice name

def readMove : FieldType → Move
  | .builtin type => .call (readMethod type)
  | .message name => .message name
  | .enumeration name => .choice name

structure NativeField where
  name : String
  repeated : Bool
  item : NativeType
  wire : NativeType
  write : Move
  read : Move
  deriving DecidableEq, Repr, Inhabited

namespace NativeField

def ofField (field : MessageField) : NativeField where
  name := fieldIdentifier field.name
  repeated := field.isArray
  item := .ofField field.type
  wire := .wireOf field.type
  write := writeMove field.type
  read := readMove field.type

def type (field : NativeField) : NativeType := .repeatedIf field.repeated field.item

def wireType (field : NativeField) : NativeType := .repeatedIf field.repeated field.wire

def step (field : NativeField) : Step :=
  ⟨field.name, field.repeated, field.write, field.read, field.wire.schema⟩

end NativeField

structure NativeRecord where
  name : String
  fields : List NativeField
  deriving DecidableEq, Repr, Inhabited

def NativeRecord.ofMessage (m : Message) : NativeRecord :=
  ⟨typeIdentifier m.name, m.fields.map .ofField⟩

structure NativeCase where
  name : String
  number : Nat
  deriving DecidableEq, Repr, Inhabited

def NativeCase.ofValue (v : EnumerationValue) : NativeCase := ⟨typeIdentifier v.name, v.number⟩

structure NativeEnumeration where
  name : String
  cases : List NativeCase
  deriving DecidableEq, Repr, Inhabited

def NativeEnumeration.ofEnumeration (e : Enumeration) : NativeEnumeration :=
  ⟨typeIdentifier e.name, e.values.map .ofValue⟩

/-- A method of a trait, with the types that it takes and answers with. -/
structure NativeMethod where
  name : String
  request : Option String
  response : Option String
  deriving DecidableEq, Repr, Inhabited

def NativeMethod.ofProcedure (p : Procedure) : NativeMethod :=
  ⟨fieldIdentifier p.name, p.request.map typeIdentifier, p.response.map typeIdentifier⟩

structure NativeTrait where
  name : String
  methods : List NativeMethod
  deriving DecidableEq, Repr, Inhabited

def NativeTrait.ofService (service : Service) : NativeTrait :=
  ⟨typeIdentifier service.name, service.procedures.map .ofProcedure⟩

structure NativeModule where
  package : String
  runtime : String
  compressed : Bool
  enumerations : List NativeEnumeration
  records : List NativeRecord
  traits : List NativeTrait
  deriving DecidableEq, Repr, Inhabited

def NativeModule.ofDocument (settings : Settings) (doc : Document) : NativeModule where
  package := doc.package
  runtime := settings.runtime
  compressed := doc.hasPragma compressionPragma
  enumerations := doc.enumerations.map .ofEnumeration
  records := doc.messages.map .ofMessage
  traits := if settings.services then doc.services.map .ofService else []

end BinaryCodec.Binding
