import BinaryCodec.Schema.TypeName

namespace BinaryCodec

def maxSize : Nat := Word.last 64

def addSizes (total size : Nat) : Except Error Nat :=
  if total + size ≤ maxSize then .ok (total + size) else .error .sizeOverflow

namespace Schema

def integerSize (type : IntType) (n : Int) : Nat :=
  match type with
  | .u8 | .i8 => 1
  | type => if type.isSigned then Varint.signedLength n else Varint.unsignedLength n.toNat

def limitedSize (length : Nat) : Nat := Varint.unsignedLength length + length

def leafSize (registry : Registry) : Schema → Value → Except Error Nat
  | .unsupported target, _ => .error (.unsupportedKind (target.typeName registry))
  | .option item, .option none => .error (.nullReference ((Schema.option item).typeName registry))
  | .bool, .bool _ => .ok 1
  | .integer type, .int n => .ok (integerSize type n)
  | .fixed _ type, .int _ => .ok type.width
  | .float _ type, .float _ => .ok type.width
  | .char, .char c => .ok (1 + c.utf8Size)
  | .string, .text s => .ok (limitedSize (Utf8.size s))
  | .fixedString width, .text _ => .ok width
  | .cstring, .text s => .ok (Utf8.size s + 1)
  | .bytes, .list items => .ok (limitedSize items.length)
  | .uuid, .uuid _ => .ok 16
  | .time, .instant t => Varint.signedLength <$> Buffer.timeNanos t
  | .date, .instant t => Varint.unsignedLength <$> Buffer.dateMillis t
  | _, _ => .ok 0

mutual

/-- Number of bytes that a value takes. The sizes of its parts are added in the order in which the
parts are written. -/
def encodedSize (registry : Registry) (schema : Schema) (v : Value) : Except Error Nat :=
  match schema.pointee, v with
  | .option item, .option (some inner) => encodedSize registry item inner
  | .sequence _ item, .list items =>
    sizeEach registry item (Varint.unsignedLength items.length) items
  | .set _ item, .list items => sizeEach registry item (Varint.unsignedLength items.length) items
  | .array _ item, .list items => sizeEach registry item 0 items
  | .tuple schemas, .list items => sizeTuple registry 0 schemas items
  | .map _ key value, .map entries => do
    let keys ← sizeKeys registry key (Varint.unsignedLength entries.length) entries
    sizeValues registry value keys entries
  | .named name, .record vs =>
    match registry.shape? name with
    | some (.record fields) => sizeFields registry 0 fields vs
    | some (.message steps) => sizeFields registry 0 (steps.map Step.toField) vs
    | _ => .ok 0
  | .named name, .variant index vs =>
    match registry.shape? name with
    | some (.enumeration variants) =>
      sizeFields registry (Varint.unsignedLength index)
        ((variants[index]?.map Variant.fields).getD []) vs
    | some (.choices _) => .ok (Varint.unsignedLength index)
    | _ => .ok 0
  | leaf, v => leafSize registry leaf v

def sizeEach (registry : Registry) (item : Schema) (total : Nat) : List Value → Except Error Nat
  | [] => .ok total
  | v :: rest => do
    let total ← addSizes total (← encodedSize registry item v)
    sizeEach registry item total rest

def sizeTuple (registry : Registry) (total : Nat) (schemas : List Schema) :
    List Value → Except Error Nat
  | [] => .ok total
  | v :: rest =>
    match schemas with
    | [] => .ok total
    | schema :: more => do
      let total ← addSizes total (← encodedSize registry schema v)
      sizeTuple registry total more rest

def sizeFields (registry : Registry) (total : Nat) (fields : List Field) :
    List Value → Except Error Nat
  | [] => .ok total
  | v :: rest =>
    match fields with
    | [] => .ok total
    | field :: more =>
      match field.skipped with
      | some _ => sizeFields registry total more rest
      | none => do
        let total ← addSizes total (← encodedSize registry field.schema v)
        sizeFields registry total more rest

def sizeKeys (registry : Registry) (key : Schema) (total : Nat) :
    List (Value × Value) → Except Error Nat
  | [] => .ok total
  | (k, _) :: rest => do
    let total ← addSizes total (← encodedSize registry key k)
    sizeKeys registry key total rest

def sizeValues (registry : Registry) (value : Schema) (total : Nat) :
    List (Value × Value) → Except Error Nat
  | [] => .ok total
  | (_, v) :: rest => do
    let total ← addSizes total (← encodedSize registry value v)
    sizeValues registry value total rest

end

mutual

def minSizeWith (declared : String → Nat) : Schema → Nat
  | .unit | .phantom _ | .cstring | .unsupported _ => 0
  | .bool | .integer _ | .string | .bytes | .time | .date => 1
  | .fixed _ type => type.width
  | .float _ type => type.width
  | .char => 2
  | .fixedString width => width
  | .uuid => 16
  | .sequence _ _ | .set _ _ | .map _ _ _ => 1
  | .array count item => minSizeWith declared item * count
  | .pointer _ target => minSizeWith declared target
  | .option item => minSizeWith declared item
  | .tuple items => minSizeAll declared items
  | .named name => declared name

def minSizeAll (declared : String → Nat) : List Schema → Nat
  | [] => 0
  | item :: rest => minSizeWith declared item + minSizeAll declared rest

end

def minSizeFields (declared : String → Nat) : List Field → Nat
  | [] => 0
  | field :: rest =>
    match field.skipped with
    | some _ => minSizeFields declared rest
    | none => minSizeWith declared field.schema + minSizeFields declared rest

def minSizeNamed (registry : Registry) : (fuel : Nat) → (name : String) → Nat
  | 0, _ => 0
  | fuel + 1, name =>
    match registry.shape? name with
    | some (.record fields) => minSizeFields (minSizeNamed registry fuel) fields
    | some (.message steps) => minSizeFields (minSizeNamed registry fuel) (steps.map Step.toField)
    | some (.enumeration _) | some (.choices _) => 1
    | none => 0

/-- Least number of bytes that a value of a schema takes. -/
def minSize (registry : Registry) (schema : Schema) : Nat :=
  minSizeWith (minSizeNamed registry registry.length) schema

end Schema

end BinaryCodec
