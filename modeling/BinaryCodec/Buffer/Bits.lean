import BinaryCodec.Buffer.Basic

namespace BinaryCodec

inductive BitOrder where
  | highFirst
  | lowFirst
  deriving DecidableEq, Repr, Inhabited

namespace BitOrder

/-- Place of the next bit in a byte that has `count` bits already. -/
def place (order : BitOrder) (count : Nat) : Nat :=
  match order with
  | .highFirst => 7 - count
  | .lowFirst => count

end BitOrder

namespace Buffer

def setBit (byte : UInt8) (place : Nat) : UInt8 := byte ||| UInt8.ofNat (Word.count place)

def writeBit (order : BitOrder) (bit : Bool) : BufferM Unit := do
  let bits := (← get).bits
  let byte := if bit then setBit bits.writeByte (order.place (8 - bits.free)) else bits.writeByte
  if bits.free = 1 then
    modify fun b => { b with bits := { bits with writeByte := 0, free := 8 } }
    writeByte byte
  else
    modify fun b => { b with bits := { bits with writeByte := byte, free := bits.free - 1 } }

/-- Reads the next bit, from a new byte of the store if need be. -/
def readBit (order : BitOrder) : BufferM Bool := do
  if 8 ≤ (← get).bits.used then
    let byte ← readByte
    modify fun b => { b with bits := { b.bits with readByte := byte, used := 0 } }
  let bits := (← get).bits
  modify fun b => { b with bits := { bits with used := bits.used + 1 } }
  return bits.readByte.toNat.testBit (order.place bits.used)

/-- Writes a byte that is partly filled, its free places zero, and forgets all pending bits. -/
def flushBits : BufferM Unit := do
  let bits := (← get).bits
  modify fun b => { b with bits := .none }
  if bits.free < 8 then writeByte bits.writeByte

def finish : BufferM (List UInt8) := do
  flushBits
  contents

end Buffer

end BinaryCodec
