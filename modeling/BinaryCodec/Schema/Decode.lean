import BinaryCodec.Schema.Encode

namespace BinaryCodec.Schema

def checkRange (type : IntType) (n : Int) : BufferM Value :=
  if type.holds n then return .int n else throw (.integerOverflow n type.name)

def readInteger (type : IntType) : BufferM Value :=
  match type with
  | .u8 => return .int (← Buffer.readByte).toNat
  | .i8 => return .int (Word.unwrap 8 (← Buffer.readByte).toNat)
  | type => do
    if type.isSigned then checkRange type (← Buffer.readSigned type.varintBits)
    else checkRange type (← Buffer.readUnsigned type.varintBits)

def readFixedInteger (order : ByteOrder) (type : IntType) : BufferM Value := do
  let n ← Buffer.readFixed order type.width
  return .int (if type.isSigned then Word.unwrap type.bits n else n)

def readSingleChar : BufferM Value := do
  match Utf8.decodeChars? (← Buffer.readLimited) with
  | some [c] => return .char c
  | _ => throw .invalidChar

def readSequence (item : Schema) (read : BufferM Value) (count : Nat) : BufferM (List Value) := do
  if item.isByte then
    return (← Buffer.readBytes count).map fun b => .int b.toNat
  else Message.readItems read count

mutual

/-- Reads a value, where `declared` reads values of named types. -/
def decodeWith (registry : Registry) (declared : String → BufferM Value) : Schema → BufferM Value
  | .unit | .phantom _ => return .unit
  | .bool => return .bool (← Buffer.readBool)
  | .integer type => readInteger type
  | .fixed order type => readFixedInteger order type
  | .float order type => return .float (← Buffer.readFixed order type.width)
  | .char => readSingleChar
  | .string => return .text (← Buffer.readString)
  | .fixedString width => return .text (← Buffer.readFixedString width)
  | .cstring => return .text (← Buffer.readCString)
  | .bytes => return .ofBytes (← Buffer.readLimited)
  | .uuid => return .uuid (← Buffer.readUuid)
  | .time => return .instant (← Buffer.readTime)
  | .date => return .instant (← Buffer.readDate)
  | .unsupported target => throw (.unsupportedKind (target.typeName registry))
  | .sequence _ item => do
    let count ← Buffer.readLength (item.minSize registry)
    return .list (← readSequence item (decodeWith registry declared item) count)
  | .array count item =>
    return .list (← readSequence item (decodeWith registry declared item) count)
  | .set order item => do
    let count ← Buffer.readLength (item.minSize registry)
    return .setOf order (← readSequence item (decodeWith registry declared item) count)
  | .map order key value => do
    let count ← Buffer.readLength (key.minSize registry + value.minSize registry)
    let keys ← readSequence key (decodeWith registry declared key) count
    let values ← readSequence value (decodeWith registry declared value) count
    return .mapOf order (keys.zip values)
  | .pointer _ target => decodeWith registry declared target
  | .option item => return .option (some (← decodeWith registry declared item))
  | .tuple items => return .list (← decodeAll registry declared items)
  | .named name => declared name

def decodeAll (registry : Registry) (declared : String → BufferM Value) :
    List Schema → BufferM (List Value)
  | [] => return []
  | item :: rest => do
    let v ← decodeWith registry declared item
    return v :: (← decodeAll registry declared rest)

end

def decodeFields (registry : Registry) (declared : String → BufferM Value) :
    List Field → BufferM (List Value)
  | [] => return []
  | field :: rest => do
    let v ← match field.skipped with
      | some v => pure v
      | none => decodeWith registry declared field.schema
    return v :: (← decodeFields registry declared rest)

/-- Reads a value of a named type, looking into at most `fuel` declarations in a row. -/
def decodeNamed (registry : Registry) : (fuel : Nat) → (name : String) → BufferM Value
  | 0, _ => throw (.endOfData 1 0)
  | fuel + 1, name => do
    let declared := decodeNamed registry fuel
    match registry.shape? name with
    | some (.record fields) => return .record (← decodeFields registry declared fields)
    | some (.message steps) => return .record (← Message.decodeSteps registry declared steps)
    | some (.choices names) => Message.readChoice names.length
    | some (.enumeration variants) =>
      let index ← Buffer.readUnsigned 64
      match variants[index]? with
      | some variant => return .variant index (← decodeFields registry declared variant.fields)
      | none => throw (.invalidTag index)
    | none => throw (.unsupportedKind name)

/-- Number of declarations that can be open at once before some byte must be read: each one that is
entered again has read something since. -/
def decodeDepth (registry : Registry) (unread : Nat) : Nat := (unread + 1) * (registry.length + 1)

def decode (registry : Registry) (schema : Schema) : BufferM Value := do
  let depth := decodeDepth registry (← Buffer.unread)
  decodeWith registry (decodeNamed registry depth) schema

def unmarshal (registry : Registry) (schema : Schema) (bytes : List UInt8) : Except Error Value :=
  match decode registry schema (.ofSlice bytes) with
  | .ok v _ => .ok v
  | .error e _ => .error e

def unmarshalInto (registry : Registry) (schema : Schema) (bytes : List UInt8) (old : Value) :
    Except Error Unit × Value :=
  match unmarshal registry schema bytes with
  | .ok v => (.ok (), v)
  | .error e => (.error e, old)

end BinaryCodec.Schema
