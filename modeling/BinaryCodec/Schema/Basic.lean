import BinaryCodec.Bytes.Endian
import BinaryCodec.Bytes.Word

namespace BinaryCodec

inductive IntType where
  | u8 | u16 | u32 | u64 | u128 | usize
  | i8 | i16 | i32 | i64 | i128 | isize
  deriving DecidableEq, Repr, Inhabited

namespace IntType

def name : IntType → String
  | .u8 => "u8" | .u16 => "u16" | .u32 => "u32" | .u64 => "u64" | .u128 => "u128"
  | .usize => "usize" | .i8 => "i8" | .i16 => "i16" | .i32 => "i32" | .i64 => "i64"
  | .i128 => "i128" | .isize => "isize"

def bits : IntType → Nat
  | .u8 | .i8 => 8
  | .u16 | .i16 => 16
  | .u32 | .i32 => 32
  | .u64 | .i64 | .usize | .isize => 64
  | .u128 | .i128 => 128

def isSigned : IntType → Bool
  | .u8 | .u16 | .u32 | .u64 | .u128 | .usize => false
  | .i8 | .i16 | .i32 | .i64 | .i128 | .isize => true

/-- Number of bytes of the type in a fixed-width layout. -/
def width (t : IntType) : Nat := t.bits / 8

def varintBits (t : IntType) : Nat := if t.bits = 128 then 128 else 64

def holds (t : IntType) (n : Int) : Bool :=
  if t.isSigned then Word.holdsSigned t.bits n else Word.holdsUnsigned t.bits n

end IntType

inductive FloatType where
  | f32 | f64
  deriving DecidableEq, Repr, Inhabited

namespace FloatType

def name : FloatType → String
  | .f32 => "f32"
  | .f64 => "f64"

def width : FloatType → Nat
  | .f32 => 4
  | .f64 => 8

end FloatType

inductive SequenceKind where
  | vector | deque | slice
  deriving DecidableEq, Repr, Inhabited

inductive KeyOrder where
  | sorted
  | hashed
  | insertion
  deriving DecidableEq, Repr, Inhabited

inductive PointerKind where
  | box | rc | arc
  deriving DecidableEq, Repr, Inhabited

inductive Schema where
  | unit
  | phantom (target : Schema)
  | bool
  /-- One byte for the 8-bit types, a varint for the others. -/
  | integer (type : IntType)
  | fixed (order : ByteOrder) (type : IntType)
  | float (order : ByteOrder) (type : FloatType)
  | char
  | string
  /-- The text in a field of `width` bytes, filled up with zeros. -/
  | fixedString (width : Nat)
  | cstring
  | bytes
  | uuid
  | time
  /-- Milliseconds since the epoch, as an unsigned varint. -/
  | date
  | unsupported (target : Schema)
  | sequence (kind : SequenceKind) (item : Schema)
  | array (count : Nat) (item : Schema)
  | set (order : KeyOrder) (item : Schema)
  /-- The number of entries, then all keys, then all values. -/
  | map (order : KeyOrder) (key value : Schema)
  | pointer (kind : PointerKind) (target : Schema)
  | option (item : Schema)
  | tuple (items : List Schema)
  | named (name : String)
  deriving Repr, Inhabited

def Schema.pointee : Schema → Schema
  | .pointer _ target => target.pointee
  | s => s

end BinaryCodec
