import BinaryCodec.Definition.Token

namespace BinaryCodec.Definition

inductive Builtin where
  | bool
  | string
  | uint8
  | uint16
  | uint32
  | uint64
  | bytes
  | float32
  | float64
  | uuid
  | int
  | uint
  | bigint
  | date
  /-- A number that is carried like an unsigned varint. -/
  | time
  deriving DecidableEq, Repr, Inhabited

namespace Builtin

def all : List Builtin :=
  [.bool, .string, .uint8, .uint16, .uint32, .uint64, .bytes, .float32, .float64, .uuid, .int,
    .uint, .bigint, .date, .time]

def name : Builtin → String
  | .bool => "bool"
  | .string => "string"
  | .uint8 => "uint8"
  | .uint16 => "uint16"
  | .uint32 => "uint32"
  | .uint64 => "uint64"
  | .bytes => "bytes"
  | .float32 => "float32"
  | .float64 => "float64"
  | .uuid => "uuid"
  | .int => "int"
  | .uint => "uint"
  | .bigint => "bigint"
  | .date => "date"
  | .time => "time"

def ofName? (name : String) : Option Builtin :=
  if name = "byte" then some .uint8 else all.find? fun b => b.name = name

end Builtin

inductive FieldType where
  | builtin (type : Builtin)
  | message (name : String)
  | enumeration (name : String)
  deriving DecidableEq, Repr, Inhabited

/-- A field of a message. Its place is that of its type. -/
structure MessageField where
  name : String
  type : FieldType
  isArray : Bool
  place : Position
  deriving DecidableEq, Repr, Inhabited

structure Message where
  name : String
  fields : List MessageField
  place : Position
  deriving DecidableEq, Repr, Inhabited

/-- One value of an enumeration, and the number that stands for it. -/
structure EnumerationValue where
  name : String
  number : Nat
  deriving DecidableEq, Repr, Inhabited

structure Enumeration where
  name : String
  values : List EnumerationValue
  deriving DecidableEq, Repr, Inhabited

/-- A procedure of a service, with the messages it takes and answers with. -/
structure Procedure where
  name : String
  request : Option String
  response : Option String
  deriving DecidableEq, Repr, Inhabited

structure Service where
  name : String
  procedures : List Procedure
  deriving DecidableEq, Repr, Inhabited

/-- What a definition declares. Pragmas are in ascending order, all else in the order of the text. -/
structure Document where
  package : String
  pragmas : List String
  messages : List Message
  enumerations : List Enumeration
  services : List Service
  deriving DecidableEq, Repr, Inhabited

namespace Document

def hasPragma (doc : Document) (name : String) : Bool := doc.pragmas.contains name

def message? (doc : Document) (name : String) : Option Message :=
  doc.messages.find? fun m => m.name = name

def enumeration? (doc : Document) (name : String) : Option Enumeration :=
  doc.enumerations.find? fun e => e.name = name

end Document

def compressionPragma : String := "zlib-compress"

end BinaryCodec.Definition
