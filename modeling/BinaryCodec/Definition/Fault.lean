import BinaryCodec.Definition.Token
import BinaryCodec.Text.Quoted

namespace BinaryCodec.Definition

inductive Expected where
  | declaration
  | pragmaName
  | typeName
  | serviceName
  | fieldName
  | responseType
  | openBrace
  | arrow
  | valueOrClose
  | fieldOrClose
  | procedureOrClose
  deriving DecidableEq, Repr, Inhabited

def Expected.label : Expected → String
  | .declaration => "`use`, `enum`, `struct` or `rpc`"
  | .pragmaName => "pragma name"
  | .typeName => "type name"
  | .serviceName => "service name"
  | .fieldName => "field name"
  | .responseType => "response type"
  | .openBrace => "`\x7b`"
  | .arrow => "`->`"
  | .valueOrClose => "enum value or `\x7d`"
  | .fieldOrClose => "field type or `\x7d`"
  | .procedureOrClose => "procedure or `\x7d`"

inductive Cause where
  | unexpectedToken (expected : Expected) (found : String)
  | unexpectedEnd (expected : Expected)
  | invalidName (name : String)
  | reservedName (name : String)
  | duplicateType (name : String)
  | duplicateField (name : String)
  | duplicateProcedure (name : String)
  | emptyEnumeration (name : String)
  | malformedProcedure (signature : String)
  | undefinedType (name : String)
  | recursiveType (message field : String)
  deriving DecidableEq, Repr, Inhabited

def Cause.message : Cause → String
  | .unexpectedToken expected found =>
    "expected " ++ expected.label ++ ", found " ++ Text.quoted found
  | .unexpectedEnd expected => "expected " ++ expected.label ++ ", found end of input"
  | .invalidName name => "invalid name " ++ Text.quoted name
  | .reservedName name => Text.quoted name ++ " is a built-in type name"
  | .duplicateType name => "type " ++ Text.quoted name ++ " is already defined"
  | .duplicateField name => "field " ++ Text.quoted name ++ " is already defined"
  | .duplicateProcedure name => "procedure " ++ Text.quoted name ++ " is already defined"
  | .emptyEnumeration name => "enum " ++ Text.quoted name ++ " has no values"
  | .malformedProcedure signature =>
    "malformed procedure " ++ Text.quoted signature ++ ", expected name(Request)"
  | .undefinedType name => "undefined type " ++ Text.quoted name
  | .recursiveType message field =>
    "field " ++ Text.quoted field ++ " embeds struct " ++ Text.quoted message ++
      " in itself, use an array"

structure Fault where
  place : Position
  cause : Cause
  deriving DecidableEq, Repr, Inhabited

def Fault.message (fault : Fault) : String :=
  s!"{fault.place.line}:{fault.place.column}: " ++ fault.cause.message

end BinaryCodec.Definition
