import BinaryCodec.Bytes.Word
import BinaryCodec.Error

namespace BinaryCodec.Varint

def groupCount (bits : Nat) : Nat := (bits + 6) / 7

def maxLength64 : Nat := groupCount 64

def maxLength128 : Nat := groupCount 128

def bitLength (n : Nat) : Nat := if n = 0 then 0 else n.log2 + 1

def encodeUnsigned (value : Nat) : List UInt8 :=
  if value < 128 then [UInt8.ofNat value]
  else UInt8.ofNat (value % 128 + 128) :: encodeUnsigned (value / 128)
termination_by value
decreasing_by omega

/-- The groups of a signed integer: the last one is reached when what is left is the sign of the
group. -/
def encodeSigned (value : Int) : List UInt8 :=
  if -64 ≤ value ∧ value < 64 then [UInt8.ofNat (value % 128).toNat]
  else UInt8.ofNat ((value % 128).toNat + 128) :: encodeSigned (value / 128)
termination_by value.natAbs
decreasing_by omega

def unsignedLength (value : Nat) : Nat := max 1 (groupCount (bitLength value))

/-- Number of bytes of `encodeSigned value`: one more bit holds the sign. -/
def signedLength (value : Int) : Nat :=
  groupCount (bitLength (if value < 0 then -value - 1 else value).toNat + 1)

def unsignedValue : List UInt8 → Nat
  | [] => 0
  | group :: rest => group.toNat % 128 + 128 * unsignedValue rest

/-- The integer that the groups of a signed varint stand for: bit 6 of the last group counts
negatively. -/
def signedValue : List UInt8 → Int
  | [] => 0
  | [group] =>
    let payload : Int := group.toNat % 128
    if 64 ≤ payload then payload - 128 else payload
  | group :: rest => (group.toNat % 128 : Int) + 128 * signedValue rest

def unsigned? (bits : Nat) (groups : List UInt8) : Except Error Nat :=
  let value := unsignedValue groups
  if value < Word.count bits then .ok value else .error (.varintOverflow bits)

def signed? (bits : Nat) (groups : List UInt8) : Except Error Int :=
  let value := signedValue groups
  if Word.holdsSigned bits value then .ok value else .error (.varintOverflow bits)

abbrev Source (σ : Type) := EStateM Error σ UInt8

def continues (group : UInt8) : Bool := group &&& 0x80 != 0

def isNegative (group : UInt8) : Bool := group &&& 0x40 != 0

def payload (group : UInt8) : UInt8 := group &&& 0x7f

def deposit (word : BitVec 128) (group : UInt8) (shift : Nat) : BitVec 128 :=
  word ||| (payload group).toBitVec.setWidth 128 <<< shift

/-- Whether a group from bit `shift` on has a bit that is not among the lowest `bits` bits. -/
def exceeds (bits : Nat) (group : UInt8) (shift : Nat) : Bool :=
  bits < shift + 7 && (payload group).toBitVec >>> (bits - shift) != 0

/-- Whether the bits of a group from bit `shift` on that fall off a word are not copies of its sign. -/
def spills (group : UInt8) (shift : Nat) : Bool :=
  128 < shift + 7 &&
    ((payload group).toBitVec >>> (127 - shift) != 0 &&
      (payload group).toBitVec >>> (127 - shift) != (0x7f : BitVec 8) >>> (127 - shift))

/-- A word whose last group ends at bit `shift`, with the sign of the group in all bits above. -/
def extend (word : BitVec 128) (group : UInt8) (shift : Nat) : BitVec 128 :=
  if shift < 128 && isNegative group then word ||| BitVec.allOnes 128 <<< shift else word

def greatest (bits : Nat) : BitVec 128 := (1 : BitVec 128) <<< (bits - 1) - 1

/-- Whether two's complement of `bits` bits holds the integer of a word. -/
def within (bits : Nat) (word : BitVec 128) : Bool :=
  128 ≤ bits || !((greatest bits).slt word || word.slt (-greatest bits - 1))

section sources

variable {σ : Type} (next : Source σ) (bits : Nat)

/-- Reads the groups of an unsigned integer, of which `left` may come. Those that came fill `word` up
to bit `shift`. -/
def gatherUnsigned : (left shift : Nat) → (word : BitVec 128) → EStateM Error σ (BitVec 128)
  | 0, _, _ => throw (.varintOverflow bits)
  | left + 1, shift, word => do
    let group ← next
    if exceeds bits group shift then throw (.varintOverflow bits)
    else if continues group then gatherUnsigned left (shift + 7) (deposit word group shift)
    else return deposit word group shift

/-- Reads the groups of a signed integer, of which `left` may come. Those that came fill `word` up to
bit `shift`. -/
def gatherSigned : (left shift : Nat) → (word : BitVec 128) → EStateM Error σ (BitVec 128)
  | 0, _, _ => throw (.varintOverflow bits)
  | left + 1, shift, word => do
    let group ← next
    if spills group shift then throw (.varintOverflow bits)
    else if continues group then gatherSigned left (shift + 7) (deposit word group shift)
    else
      let extended := extend (deposit word group shift) group (shift + 7)
      if within bits extended then return extended else throw (.varintOverflow bits)

/-- The word of an unsigned integer of at most `bits` bits. -/
def readUnsigned : EStateM Error σ (BitVec 128) :=
  gatherUnsigned next bits (groupCount bits) 0 0

/-- The word of a signed integer of at most `bits` bits. -/
def readSigned : EStateM Error σ (BitVec 128) :=
  gatherSigned next bits (groupCount bits) 0 0

end sources

def nextOf (bytes : List UInt8) : Source Nat := fun used =>
  match bytes[used]? with
  | some b => .ok b (used + 1)
  | none => .error (.endOfData (used + 1) used) used

/-- Reads from the front of `bytes`, and tells how many of them were read. -/
def decodeWith {α : Type} (bytes : List UInt8) (read : Source Nat → EStateM Error Nat α) :
    Except Error (α × Nat) :=
  match read (nextOf bytes) 0 with
  | .ok value used => .ok (value, used)
  | .error e _ => .error e

/-- The unsigned integer at the front of `bytes` and the number of bytes it takes. -/
def decodeUnsigned (bits : Nat) (bytes : List UInt8) : Except Error (Nat × Nat) := do
  let (word, used) ← decodeWith bytes fun next => readUnsigned next bits
  return ((word.setWidth bits).toNat, used)

/-- The signed integer at the front of `bytes` and the number of bytes it takes. -/
def decodeSigned (bits : Nat) (bytes : List UInt8) : Except Error (Int × Nat) := do
  let (word, used) ← decodeWith bytes fun next => readSigned next bits
  return ((word.setWidth bits).toInt, used)

def encodeAll (values : List Nat) : List UInt8 := values.flatMap encodeUnsigned

/-- The first `count` unsigned 64-bit integers of `bytes`, after the number of bytes they take. -/
def decodeAll : (count : Nat) → (bytes : List UInt8) → Except Error (Nat × List Nat)
  | 0, _ => .ok (0, [])
  | count + 1, bytes => do
    let (value, used) ← decodeUnsigned 64 bytes
    let (more, values) ← decodeAll count (bytes.drop used)
    return (used + more, value :: values)

end BinaryCodec.Varint
