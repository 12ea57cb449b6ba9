import BinaryCodec.Buffer.Basic
import BinaryCodec.Bytes.Endian
import BinaryCodec.Instant
import BinaryCodec.Uuid

namespace BinaryCodec.Buffer

def writeFixed (order : ByteOrder) (width n : Nat) : BufferM Unit :=
  writeBytes (Endian.encode order width n)

def readFixed (order : ByteOrder) (width : Nat) : BufferM Nat :=
  return Endian.decode order (← readExact width)

def writeFixedInt (order : ByteOrder) (width : Nat) (value : Int) : BufferM Unit :=
  writeFixed order width (Word.wrap (8 * width) value)

def readFixedInt (order : ByteOrder) (width : Nat) : BufferM Int :=
  return Word.unwrap (8 * width) (← readFixed order width)

def writeBool (value : Bool) : BufferM Unit := writeByte (if value then 1 else 0)

def readBool : BufferM Bool := return (← readByte) != 0

def writeUuid (id : Uuid) : BufferM Unit := writeBytes id.bytes.toList

def readUuid : BufferM Uuid := return (Uuid.ofList? (← readExact 16)).getD .zero

def dateMillis (t : Instant) : Except Error Nat :=
  if t.toMillis < 0 then .error (.timestampOutOfRange t.toMillis) else .ok t.toMillis.toNat

/-- Nanoseconds since the epoch, where 64 bits hold them; the error names the seconds. -/
def timeNanos (t : Instant) : Except Error Int :=
  match t.nanos64? with
  | some n => .ok n
  | none => .error (.timestampOutOfRange t.seconds)

def writeDate (t : Instant) : BufferM Unit := do
  writeUnsigned (← settle (dateMillis t))

def readDate : BufferM Instant := do
  let millis ← readUnsigned 64
  match Instant.ofMillis? millis with
  | some t => return t
  | none => throw (.timestampOutOfRange millis)

def writeTime (t : Instant) : BufferM Unit := do
  writeSigned (← settle (timeNanos t))

def readTime : BufferM Instant := return Instant.ofNanos (← readSigned 64)

end BinaryCodec.Buffer
