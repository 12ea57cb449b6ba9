import BinaryCodec.Buffer.Text

namespace BinaryCodec

structure Output where
  pieces : List (List UInt8)
  error : Option Error
  deriving DecidableEq, Repr, Inhabited

namespace Output

def none : Output := ⟨[], .none⟩

def piece (bytes : List UInt8) : Output := ⟨[bytes], .none⟩

def fail (e : Error) : Output := ⟨[], some e⟩

def append (first second : Output) : Output :=
  match first.error with
  | some _ => first
  | .none => ⟨first.pieces ++ second.pieces, second.error⟩

instance : Append Output := ⟨append⟩

def bytes (output : Output) : List UInt8 := output.pieces.flatten

def unsigned (n : Nat) : Output := piece (Varint.encodeUnsigned n)

def signed (n : Int) : Output := piece (Varint.encodeSigned n)

def fixed (order : ByteOrder) (width n : Nat) : Output := piece (Endian.encode order width n)

def limited (bytes : List UInt8) : Output := unsigned bytes.length ++ piece bytes

def bool (b : Bool) : Output := piece [if b then 1 else 0]

def string (s : String) : Output := limited (Utf8.encode s)

def fixedString (s : String) (width : Nat) : Output :=
  if width ≤ maxCapacity then piece (Buffer.fixedField width s.toList) else fail .capacityOverflow

def cstring (s : String) : Output := piece (Utf8.encode s) ++ piece [0]

def uuid (id : Uuid) : Output := piece id.bytes.toList

def time (t : Instant) : Output :=
  match Buffer.timeNanos t with
  | .ok n => signed n
  | .error e => fail e

def date (t : Instant) : Output :=
  match Buffer.dateMillis t with
  | .ok n => unsigned n
  | .error e => fail e

end Output

namespace Buffer

/-- Writes the pieces of an output, then fails as it did. -/
def writeOutput (output : Output) : BufferM Unit := do
  output.pieces.forM writeBytes
  match output.error with
  | some e => throw e
  | none => pure ()

end Buffer

end BinaryCodec
