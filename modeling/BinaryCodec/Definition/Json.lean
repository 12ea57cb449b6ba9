import BinaryCodec.Definition.Document
import BinaryCodec.Text.Json

namespace BinaryCodec.Definition

def FieldType.toJson : FieldType → Json
  | .builtin type => .object [("kind", .string "builtin"), ("name", .string type.name)]
  | .message name => .object [("kind", .string "message"), ("name", .string name)]
  | .enumeration name => .object [("kind", .string "enum"), ("name", .string name)]

def MessageField.toJson (field : MessageField) : Json :=
  .object [
    ("name", .string field.name), ("ty", field.type.toJson), ("array", .bool field.isArray),
    ("line", .number field.place.line), ("column", .number field.place.column)]

def Message.toJson (m : Message) : Json :=
  .object [
    ("name", .string m.name), ("fields", .array (m.fields.map MessageField.toJson)),
    ("line", .number m.place.line), ("column", .number m.place.column)]

def Enumeration.toJson (e : Enumeration) : Json :=
  .object [
    ("name", .string e.name),
    ("values", .array (e.values.map fun v =>
      .object [("name", .string v.name), ("value", .number v.number)]))]

def optionalName : Option String → Json
  | some name => .string name
  | none => .null

def Service.toJson (service : Service) : Json :=
  .object [
    ("name", .string service.name),
    ("procedures", .array (service.procedures.map fun p =>
      .object [
        ("name", .string p.name), ("request", optionalName p.request),
        ("response", optionalName p.response)]))]

def Document.toJson (doc : Document) : Json :=
  .object [
    ("package", .string doc.package),
    ("pragmas", .object (doc.pragmas.map fun name => (name, .bool true))),
    ("messages", .array (doc.messages.map Message.toJson)),
    ("enums", .array (doc.enumerations.map Enumeration.toJson)),
    ("services", .array (doc.services.map Service.toJson))]

end BinaryCodec.Definition
