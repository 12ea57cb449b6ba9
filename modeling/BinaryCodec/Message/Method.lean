import BinaryCodec.Schema.Output
import BinaryCodec.Schema.Value

namespace BinaryCodec

inductive Method where
  | bool
  | string
  | u8
  | u16
  | u32
  | u64
  | limitedBytes
  | f32
  | f64
  | uuid
  | varint
  | uvarint
  | varint128
  | date
  deriving DecidableEq, Repr, Inhabited

namespace Method

def suffix : Method → String
  | .bool => "bool"
  | .string => "string"
  | .u8 => "u8"
  | .u16 => "u16"
  | .u32 => "u32"
  | .u64 => "u64"
  | .limitedBytes => "limited_bytes"
  | .f32 => "f32"
  | .f64 => "f64"
  | .uuid => "uuid"
  | .varint => "varint"
  | .uvarint => "uvarint"
  | .varint128 => "varint128"
  | .date => "date"

/-- What the writing call writes. A value of another type writes nothing. -/
def write : Method → Value → Output
  | .bool, .bool b => .bool b
  | .string, .text s => .string s
  | .u8, .int n => .fixed .little 1 (Word.wrap 8 n)
  | .u16, .int n => .fixed .little 2 (Word.wrap 16 n)
  | .u32, .int n => .fixed .little 4 (Word.wrap 32 n)
  | .u64, .int n => .fixed .little 8 (Word.wrap 64 n)
  | .limitedBytes, .list items => .limited (items.map Value.toByte)
  | .f32, .float pattern => .fixed .little 4 pattern
  | .f64, .float pattern => .fixed .little 8 pattern
  | .uuid, .uuid id => .uuid id
  | .varint, .int n => .signed n
  | .uvarint, .int n => .unsigned n.toNat
  | .varint128, .int n => .signed n
  | .date, .instant t => .date t
  | _, _ => .none

def read : Method → BufferM Value
  | .bool => .bool <$> Buffer.readBool
  | .string => .text <$> Buffer.readString
  | .u8 => (fun b => .int b.toNat) <$> Buffer.readByte
  | .u16 => (fun n => .int n) <$> Buffer.readFixed .little 2
  | .u32 => (fun n => .int n) <$> Buffer.readFixed .little 4
  | .u64 => (fun n => .int n) <$> Buffer.readFixed .little 8
  | .limitedBytes => .ofBytes <$> Buffer.readLimited
  | .f32 => .float <$> Buffer.readFixed .little 4
  | .f64 => .float <$> Buffer.readFixed .little 8
  | .uuid => .uuid <$> Buffer.readUuid
  | .varint => .int <$> Buffer.readSigned 64
  | .uvarint => (fun n => .int n) <$> Buffer.readUnsigned 64
  | .varint128 => .int <$> Buffer.readSigned 128
  | .date => .instant <$> Buffer.readDate

end Method

end BinaryCodec
