import BinaryCodec.Error
import BinaryCodec.Store.Content

namespace BinaryCodec

inductive ReadMode where
  | short
  /-- Zeros in place of the missing bytes, if at least one byte is there. -/
  | zeroFill
  deriving DecidableEq, Repr, Inhabited

def checkPosition (position size : Nat) : Except Error Nat :=
  if position ≤ size then .ok position else .error (.seekOutOfBounds position size)

structure Memory where
  content : Content
  readPosition : Nat
  writePosition : Nat
  mode : ReadMode
  deriving Repr, Inhabited

namespace Memory

def empty : Memory := ⟨#[], 0, 0, .short⟩

/-- A store of `bytes`, to be read from the start and written at the end. -/
def ofList (bytes : List UInt8) (mode : ReadMode) : Memory :=
  ⟨bytes.toArray, 0, bytes.length, mode⟩

def read (n : Nat) (m : Memory) : List UInt8 × Memory :=
  let bytes := m.content.piece m.readPosition n
  let moved := { m with readPosition := m.readPosition + bytes.length }
  match m.mode, bytes with
  | .short, _ => (bytes, moved)
  | .zeroFill, [] => ([], moved)
  | .zeroFill, _ => (bytes.rightpad n 0, moved)

def write (bytes : List UInt8) (m : Memory) : Memory :=
  match m with
  | ⟨content, readPosition, writePosition, mode⟩ =>
    ⟨content.overwrite writePosition bytes, readPosition, writePosition + bytes.length, mode⟩

def seekRead (position : Nat) (m : Memory) : Except Error Memory := do
  return { m with readPosition := ← checkPosition position m.content.size }

def seekWrite (position : Nat) (m : Memory) : Except Error Memory := do
  return { m with writePosition := ← checkPosition position m.content.size }

/-- Drops all content and takes both cursors to the start. -/
def erase (m : Memory) : Memory := ⟨#[], 0, 0, m.mode⟩

end Memory

structure Slice where
  content : Content
  readPosition : Nat
  deriving Repr, Inhabited

namespace Slice

def ofList (bytes : List UInt8) : Slice := ⟨bytes.toArray, 0⟩

def remaining (s : Slice) : List UInt8 := s.content.piece s.readPosition s.content.size

def read (n : Nat) (s : Slice) : List UInt8 × Slice :=
  let bytes := s.content.piece s.readPosition n
  (bytes, { s with readPosition := s.readPosition + bytes.length })

def seekRead (position : Nat) (s : Slice) : Except Error Slice := do
  return { s with readPosition := ← checkPosition position s.content.size }

end Slice

end BinaryCodec
