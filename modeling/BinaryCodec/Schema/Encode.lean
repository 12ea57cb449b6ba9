import BinaryCodec.Message.Codec

namespace BinaryCodec.Schema

def integerOutput (type : IntType) (n : Int) : Output :=
  match type with
  | .u8 | .i8 => .fixed .little 1 (Word.wrap 8 n)
  | type => if type.isSigned then .signed n else .unsigned n.toNat

def leafOutput (registry : Registry) : Schema → Value → Output
  | .unsupported target, _ => .fail (.unsupportedKind (target.typeName registry))
  | .option item, .option none => .fail (.nullReference ((Schema.option item).typeName registry))
  | .bool, .bool b => .bool b
  | .integer type, .int n => integerOutput type n
  | .fixed order type, .int n => .fixed order type.width (Word.wrap type.bits n)
  | .float order type, .float pattern => .fixed order type.width pattern
  | .char, .char c => .limited (String.utf8EncodeChar c)
  | .string, .text s => .string s
  | .fixedString width, .text s => .fixedString s width
  | .cstring, .text s => .cstring s
  | .bytes, .list items => .limited (items.map Value.toByte)
  | .uuid, .uuid id => .uuid id
  | .time, .instant t => .time t
  | .date, .instant t => .date t
  | _, _ => .none

def isByte : Schema → Bool
  | .integer .u8 => true
  | _ => false

mutual

def encode (registry : Registry) (schema : Schema) (v : Value) : Output :=
  match schema.pointee, v with
  | .option item, .option (some inner) => encode registry item inner
  | .sequence _ item, .list items =>
    Output.unsigned items.length ++
      (if item.isByte then .piece (items.map Value.toByte) else encodeEach registry item items)
  | .set _ item, .list items => Output.unsigned items.length ++ encodeEach registry item items
  | .array _ item, .list items =>
    if item.isByte then .piece (items.map Value.toByte) else encodeEach registry item items
  | .tuple schemas, .list items => encodeTuple registry schemas items
  | .map _ key value, .map entries =>
    Output.unsigned entries.length ++ encodeKeys registry key entries ++
      encodeValues registry value entries
  | .named name, .record vs =>
    match registry.shape? name with
    | some (.record fields) => encodeFields registry fields vs
    | some (.message steps) => Message.encodeSteps registry steps vs
    | _ => .none
  | .named name, .variant index vs =>
    match registry.shape? name with
    | some (.enumeration variants) =>
      Output.unsigned index ++
        encodeFields registry ((variants[index]?.map Variant.fields).getD []) vs
    | some (.choices _) => .unsigned index
    | _ => .none
  | leaf, v => leafOutput registry leaf v

def encodeEach (registry : Registry) (item : Schema) : List Value → Output
  | [] => .none
  | v :: rest => encode registry item v ++ encodeEach registry item rest

def encodeTuple (registry : Registry) (schemas : List Schema) : List Value → Output
  | [] => .none
  | v :: rest =>
    match schemas with
    | [] => .none
    | schema :: more => encode registry schema v ++ encodeTuple registry more rest

def encodeFields (registry : Registry) (fields : List Field) : List Value → Output
  | [] => .none
  | v :: rest =>
    match fields with
    | [] => .none
    | field :: more =>
      match field.skipped with
      | some _ => encodeFields registry more rest
      | none => encode registry field.schema v ++ encodeFields registry more rest

def encodeKeys (registry : Registry) (key : Schema) : List (Value × Value) → Output
  | [] => .none
  | (k, _) :: rest => encode registry key k ++ encodeKeys registry key rest

def encodeValues (registry : Registry) (value : Schema) : List (Value × Value) → Output
  | [] => .none
  | (_, v) :: rest => encode registry value v ++ encodeValues registry value rest

end

/-- The bytes of a value, in a vector that is made for as many as are measured. -/
def marshal (registry : Registry) (schema : Schema) (v : Value) : Except Error (List UInt8) := do
  let size ← encodedSize registry schema v
  unless size ≤ maxCapacity do throw .capacityOverflow
  let output := encode registry schema v
  match output.error with
  | some e => throw e
  | none => return output.bytes

end BinaryCodec.Schema
