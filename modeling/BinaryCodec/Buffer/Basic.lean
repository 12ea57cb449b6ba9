import BinaryCodec.Store.Basic
import BinaryCodec.Varint

namespace BinaryCodec

structure PendingBits where
  writeByte : UInt8
  free : Nat
  readByte : UInt8
  used : Nat
  deriving DecidableEq, Repr

namespace PendingBits

def none : PendingBits := ⟨0, 8, 0, 8⟩

instance : Inhabited PendingBits := ⟨none⟩

end PendingBits

structure Buffer where
  store : Store
  bits : PendingBits
  deriving Inhabited

abbrev BufferM := EStateM Error Buffer

namespace Buffer

def chunkSize : Nat := 4096

def ofStore (store : Store) : Buffer := ⟨store, .none⟩

def empty : Buffer := ofStore (.memory .empty)

def ofList (bytes : List UInt8) : Buffer := ofStore (.memory (.ofList bytes .short))

def ofSlice (bytes : List UInt8) : Buffer := ofStore (.slice (.ofList bytes))

def onStore {α : Type} (action : StoreM α) : BufferM α
  | ⟨store, bits⟩ =>
    match action store with
    | .ok value store => .ok value ⟨store, bits⟩
    | .error e store => .error e ⟨store, bits⟩

def ask {α : Type} (question : Store → Except Error α) : BufferM α := fun b =>
  match question b.store with
  | .ok value => .ok value b
  | .error e => .error e b

def attempt {α : Type} (action : BufferM α) : BufferM (Except Error α) := fun b =>
  match action b with
  | .ok value b => .ok (.ok value) b
  | .error e b => .ok (.error e) b

def settle {α : Type} : Except Error α → BufferM α
  | .ok value => pure value
  | .error e => throw e

def attach (store : Store) : BufferM Unit := set (ofStore store)

def read (n : Nat) : BufferM (List UInt8) := onStore (Store.read n)

def writeBytes (bytes : List UInt8) : BufferM Unit := onStore (Store.write bytes)

def readPosition : BufferM Nat := ask Store.readPosition

def writePosition : BufferM Nat := ask Store.writePosition

def size : BufferM Nat := ask Store.size

def seekRead (position : Nat) : BufferM Unit := onStore (Store.seekRead position)

def seekWrite (position : Nat) : BufferM Unit := onStore (Store.seekWrite position)

def contents : BufferM (List UInt8) := onStore Store.contents

def flush : BufferM Unit := onStore Store.flush

def close : BufferM Unit := onStore Store.close

/-- Number of bytes left to read, where the store can tell. -/
def available : BufferM (Option Nat) := return (← get).store.available

def unread : BufferM Nat := return (← get).store.unread

def maxPosition : Nat := Word.last 64

def jump (n : Nat) : BufferM Unit := do
  seekRead (min ((← readPosition) + n) maxPosition)

/-- Moves the read cursor back by `n` bytes, at most to the start. -/
def reverse (n : Nat) : BufferM Unit := do
  seekRead ((← readPosition) - n)

def isEmpty : BufferM Bool := return (← size) == 0

def erase : BufferM Unit := do
  modify fun b => { b with bits := .none }
  onStore Store.erase

def readUpTo (n : Nat) : BufferM (List UInt8) := do
  if _h : n = 0 then return []
  else
    let bytes ← read n
    if _h : bytes.length = 0 then return []
    else return bytes ++ (← readUpTo (n - bytes.length))
termination_by n

/-- Reads `n` bytes at once; if there are fewer, the error tells how many. -/
def readExact (n : Nat) : BufferM (List UInt8) := do
  let bytes ← readUpTo n
  if bytes.length < n then throw (.endOfData n bytes.length)
  return bytes

def readRest (n got : Nat) : BufferM (List UInt8) := do
  if _h : got < n then
    let bytes ← read (min (n - got) chunkSize)
    if _h : bytes.length = 0 then throw (.endOfData n got)
    else return bytes ++ (← readRest n (got + bytes.length))
  else return []
termination_by n - got

def readBytes (n : Nat) : BufferM (List UInt8) := readRest n 0

def readChunks : (fuel : Nat) → BufferM (List UInt8)
  | 0 => return []
  | fuel + 1 => do
    let bytes ← read chunkSize
    if bytes.isEmpty then return []
    else return bytes ++ (← readChunks fuel)

def readRemainder : BufferM (List UInt8) := do
  readChunks ((← unread) + 1)

def writeByte (b : UInt8) : BufferM Unit := writeBytes [b]

def readByte : BufferM UInt8 := return (← readExact 1).headD 0

/-- The groups of a varint, of which there may be `left`; none if all of them continue. -/
def readGroups : (left : Nat) → BufferM (Option (List UInt8))
  | 0 => return .none
  | left + 1 => do
    let group ← readByte
    if group < 128 then return some [group]
    else return (← readGroups left).map (group :: ·)

def readUnsigned (bits : Nat) : BufferM Nat := do
  match ← readGroups (Varint.groupCount bits) with
  | some groups => settle (Varint.unsigned? bits groups)
  | .none => throw (.varintOverflow bits)

def readSigned (bits : Nat) : BufferM Int := do
  match ← readGroups (Varint.groupCount bits) with
  | some groups => settle (Varint.signed? bits groups)
  | .none => throw (.varintOverflow bits)

def writeUnsigned (value : Nat) : BufferM Unit := writeBytes (Varint.encodeUnsigned value)

def writeSigned (value : Int) : BufferM Unit := writeBytes (Varint.encodeSigned value)

def writeLimited (bytes : List UInt8) : BufferM Unit := do
  writeUnsigned bytes.length
  writeBytes bytes

/-- Least number of bytes that `length` items of at least `itemSize` bytes each take, or the greatest
64-bit number where there are more. -/
def needed (length itemSize : Nat) : Nat := min (length * itemSize) (Word.last 64)

/-- Reads the number of items that follow, of at least `itemSize` bytes each. A number that the
rest of the store cannot hold is refused, where the store can tell. -/
def readLength (itemSize : Nat) : BufferM Nat := do
  let length ← readUnsigned 64
  match ← available with
  | some available =>
    if needed length itemSize > available then throw (.lengthExceedsInput length available)
  | .none => pure ()
  return length

def readLimited : BufferM (List UInt8) := do
  readBytes (← readLength 1)

/-- Reads at most `n` bytes at `position`, then takes the read cursor back. -/
def readAt (position n : Nat) : BufferM (List UInt8) := do
  let saved ← readPosition
  seekRead position
  let outcome ← attempt (readUpTo n)
  seekRead saved
  settle outcome

/-- Writes `bytes` at `position`, then takes the write cursor back. -/
def writeAt (position : Nat) (bytes : List UInt8) : BufferM Unit := do
  let saved ← writePosition
  seekWrite position
  let outcome ← attempt (writeBytes bytes)
  seekWrite saved
  settle outcome

def summary (b : Buffer) : String :=
  let place (position : Except Error Nat) : String :=
    match position with
    | .ok n => s!"Some({n})"
    | .error _ => "None"
  "Buffer \x7b backend: \"" ++ b.store.kind.label ++ "\", read_pos: " ++ place b.store.readPosition ++
    ", write_pos: " ++ place b.store.writePosition ++ ", .. \x7d"

end Buffer

end BinaryCodec
