import BinaryCodec.Buffer.Number
import BinaryCodec.Limits
import BinaryCodec.Text.Utf16
import BinaryCodec.Text.Utf8

namespace BinaryCodec.Buffer

def writeString (s : String) : BufferM Unit := writeLimited (Utf8.encode s)

def readString : BufferM String := return Utf8.decodeOrEmpty (← readLimited)

/-- The field of `width` bytes that holds as many whole characters of `chars` as fit, then zeros. -/
def fixedField (width : Nat) (chars : List Char) : List UInt8 :=
  ((Utf8.fitting width chars).flatMap String.utf8EncodeChar).rightpad width 0

def checkCapacity (size : Nat) : BufferM Unit :=
  if size ≤ maxCapacity then return () else throw .capacityOverflow

def writeFixedString (s : String) (width : Nat) : BufferM Unit := do
  checkCapacity width
  writeBytes (fixedField width s.toList)

def trimZeros (bytes : List UInt8) : List UInt8 := (bytes.reverse.dropWhile (· = 0)).reverse

/-- Reads a field of `width` bytes; zeros at its end are dropped. -/
def readFixedString (width : Nat) : BufferM String := do
  let bytes ← readBytes width
  checkCapacity width
  return Utf8.decodeOrEmpty (trimZeros bytes)

def invert (s : String) : String := String.ofList s.toList.reverse

/-- Writes the characters of `s` from last to first in a field of `width` bytes. -/
def writeInvertedString (s : String) (width : Nat) : BufferM Unit :=
  writeFixedString (invert s) width

def readInvertedString (width : Nat) : BufferM String := return invert (← readFixedString width)

def writeCString (s : String) : BufferM Unit := do
  writeBytes (Utf8.encode s)
  writeByte 0

/-- Reads at most `fuel` bytes up to `mark`, a zero or the end, and consumes the mark. -/
def readToMark (mark : UInt8) : (fuel : Nat) → BufferM (List UInt8)
  | 0 => return []
  | fuel + 1 => do
    match ← readUpTo 1 with
    | b :: _ => if b ≠ 0 ∧ b ≠ mark then return b :: (← readToMark mark fuel) else return []
    | [] => return []

def readDelimited (mark : UInt8) : BufferM String := do
  return Utf8.decodeOrEmpty (← readToMark mark ((← unread) + 1))

def readCString : BufferM String := readDelimited 0

def writeChar (c : Char) : BufferM Unit := writeBytes (String.utf8EncodeChar c)

/-- Reads one character: the first byte tells how many follow. -/
def readChar : BufferM Char := do
  let lead ← readByte
  match Utf8.widthOf lead with
  | none => throw .invalidChar
  | some width =>
    match Utf8.char? (lead :: (← readExact (width - 1))) with
    | some c => return c
    | none => throw .invalidChar

def readCharsTo (mark : Char) : (fuel : Nat) → BufferM (List Char)
  | 0 => return []
  | fuel + 1 => do
    match ← attempt readChar with
    | .ok c => if c = mark then return [] else return c :: (← readCharsTo mark fuel)
    | .error (.endOfData _ _) => return []
    | .error e => throw e

/-- Reads characters up to `mark` or the end of the data. -/
def readUntilChar (mark : Char) : BufferM String := do
  return String.ofList (← readCharsTo mark ((← unread) + 1))

def writeUtf16 (s : String) : BufferM Unit :=
  (Utf16.encode s).forM fun unit => writeFixed .little 2 unit.toNat

def readUnits : (count : Nat) → BufferM (List UInt16)
  | 0 => return []
  | count + 1 => do
    let unit ← readFixed .little 2
    return UInt16.ofNat unit :: (← readUnits count)

def readUtf16 (units : Nat) : BufferM String := return Utf16.decode (← readUnits units)

end BinaryCodec.Buffer
