import BinaryCodec.Binding.Outline
import BinaryCodec.Binding.Script
import BinaryCodec.Text.Quoted

namespace BinaryCodec.Binding

open Outline

def runtimeMember (name : String) : String := runtimeBinding ++ "." ++ name

def bigNumber (value : String) : String := "new " ++ runtimeMember "Bn" ++ "(" ++ value ++ ")"

def ScriptDefault.text : ScriptDefault → String
  | .emptyArray => "[]"
  | .falsehood => "false"
  | .emptyText => "\"\""
  | .zero => "0"
  | .bigZero => bigNumber "0"
  | .emptyBytes => "new Uint8Array(0)"
  | .zeroFloat => "0.0"
  | .zeroUuid => runtimeMember "UUID.zero()"
  | .epoch => "new Date(0)"
  | .construct name => "new " ++ name ++ "()"

def ScriptMove.writeText (value : String) : ScriptMove → String
  | .call method => "_out.write" ++ method.suffix ++ "(" ++ value ++ ");"
  | .message _ => value ++ ".encodeBuf(_out);"
  | .choice => "_out.writeUnsignedVarint(" ++ bigNumber value ++ ");"

def ScriptMove.readText : ScriptMove → String
  | .call method => "input.read" ++ method.suffix ++ "()"
  | .message name => "new " ++ name ++ "().decodeBuf(input)"
  | .choice => "input.readUnsignedVarint().toNumber()"

def padded (width : Nat) (text : String) : String :=
  text ++ String.ofList (List.replicate (width - text.length) ' ')

def longest (texts : List String) : Nat := (texts.map String.length).foldl max 0

def comment (texts : List String) : List Outline :=
  .line "/**" :: texts.map (fun text => .line (" * " ++ text)) ++ [.line " */"]

def paramLine (type name : String) : String := "@param " ++ braced type ++ " " ++ name

def returnLine (type : String) : String := "@return " ++ braced type

namespace ScriptField

def writing (field : ScriptField) : List Outline :=
  let value := "this." ++ field.name
  if field.repeated then
    [.line ("_out.writeUnsignedVarint(" ++ bigNumber (value ++ ".length") ++ ");"),
      .block ("for (let i = 0; i < " ++ value ++ ".length; i++)")
        [.line (field.write.writeText (value ++ "[i]"))] ""]
  else [.line (field.write.writeText value)]

def reading (field : ScriptField) : List Outline :=
  let value := "this." ++ field.name
  let count := field.name ++ "_len"
  if field.repeated then
    [.line ("const " ++ count ++ " = input.readUnsignedVarint().toNumber();"),
      .line (value ++ " = new Array(" ++ count ++ ");"),
      .block ("for (let i = 0; i < " ++ count ++ "; i++)")
        [.line (value ++ "[i] = " ++ field.read.readText ++ ";")] ""]
  else [.line (value ++ " = " ++ field.read.readText ++ ";")]

end ScriptField

namespace ScriptClass

def method (c : ScriptClass) (name parameter : String) (remarks : List String)
    (body : List Outline) : List Outline :=
  comment remarks ++
    [.block (c.name ++ ".prototype." ++ name ++ " = function (" ++ parameter ++ ")") body ";",
      blank]

def constructor (c : ScriptClass) : List Outline :=
  let width := longest (c.fields.map ScriptField.name)
  comment ["@class"] ++
    [.block ("function " ++ c.name ++ "()")
      (c.fields.map fun field =>
        .line ("this." ++ padded width field.name ++ " = " ++ field.initial.text ++ ";")) "",
      blank]

def outline (compressed : Bool) (c : ScriptClass) : List Outline :=
  let buffer := runtimeMember "Buffer"
  let packed (bytes : String) : String :=
    if compressed then runtimeMember "zlibCompress(" ++ bytes ++ ")" else bytes
  let unpacked (bytes : String) : String :=
    if compressed then runtimeMember "zlibDecompress(" ++ bytes ++ ")" else bytes
  c.constructor ++
  c.method "encodeBuf" "_out" [paramLine buffer "_out", returnLine buffer]
    (c.fields.flatMap ScriptField.writing ++ [.line "return _out;"]) ++
  c.method "decodeBuf" "input" [paramLine buffer "input", returnLine c.name]
    (c.fields.flatMap ScriptField.reading ++ [.line "return this;"]) ++
  c.method "encode" ""
    ["Serializes " ++ c.name ++ " to a Uint8Array.", returnLine "Uint8Array"]
    [.line ("const _out = new " ++ buffer ++ "();"),
      .line "this.encodeBuf(_out);",
      .line ("return " ++ packed "_out.finish()" ++ ";")] ++
  c.method "decode" "input"
    ["Deserializes " ++ c.name ++ " from a Uint8Array.", paramLine "Uint8Array" "input",
      returnLine c.name]
    [.line ("return this.decodeBuf(new " ++ buffer ++ "(" ++ unpacked "input" ++ "));")]

end ScriptClass

def enumerationOutline (e : Definition.Enumeration) : List Outline :=
  [.block ("const " ++ enumerationBinding e.name ++ " =")
    (e.values.map fun v => .line (v.name ++ s!": {v.number},")) ";",
    blank]

def ScriptModule.exports (m : ScriptModule) : Outline :=
  let names := m.classes.map ScriptClass.name
  let width := longest (names.map (· ++ ":"))
  .block "module.exports ="
    ((names.map fun name => .line (padded width (name ++ ":") ++ " " ++ name ++ ",")) ++
      m.enumerations.map fun e =>
        .line (enumerationBinding e.name ++ ": " ++ enumerationBinding e.name ++ ",")) ";"

/-- The text of a module: enumerations, constructors, then what is exported. -/
def ScriptModule.text (m : ScriptModule) : String :=
  Outline.text 2 (
    [.line (banner m.package), .line "\"use strict\";", blank,
      .line ("const " ++ runtimeBinding ++ " = require(" ++ Text.quoted m.runtime ++ ");"),
      blank] ++
    m.enumerations.flatMap enumerationOutline ++
    m.classes.flatMap (ScriptClass.outline m.compressed) ++ [m.exports])

end BinaryCodec.Binding
