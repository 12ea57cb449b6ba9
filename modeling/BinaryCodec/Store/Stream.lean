import BinaryCodec.Store.Memory

namespace BinaryCodec

/-- Where a stream fails, and with what. A stream that holds fewer bytes fails at its end. -/
structure Failure where
  place : Nat
  fault : IoFault
  deriving DecidableEq, Repr

structure Reader where
  content : Content
  /-- Most bytes that one read which starts at a position delivers. -/
  limit : Nat → Nat
  failsAt : Option Failure
  position : Nat

namespace Reader

def reach (r : Reader) : Nat :=
  min r.content.size ((r.failsAt.map Failure.place).getD r.content.size) - r.position

def fault? (r : Reader) : Option IoFault :=
  match r.failsAt with
  | none => none
  | some failure => if min failure.place r.content.size ≤ r.position then failure.fault else none

def deliver (n : Nat) (r : Reader) : Except Error (List UInt8) :=
  match if n = 0 then none else r.fault? with
  | some fault => .error (.io fault)
  | none => .ok (r.content.piece r.position (min (min n (r.limit r.position)) r.reach))

def read (n : Nat) (r : Reader) : Except Error (List UInt8 × Reader) := do
  let bytes ← r.deliver n
  return (bytes, { r with position := r.position + bytes.length })

end Reader

/-- A stream that can be taken to any position. Where it stands and the cursor that the store
reports are kept apart. -/
structure SeekableReader where
  stream : Reader
  progress : ∀ position, 0 < stream.limit position
  /-- What the stream fails with when it is taken to a position, if it does. -/
  seekFault : Nat → Option IoFault
  readPosition : Nat

namespace SeekableReader

def inMemory (bytes : List UInt8) (position : Nat) : Reader :=
  ⟨bytes.toArray, fun _ => bytes.length + 1, none, position⟩

/-- A stream in memory that stands at `start`, which may lie past its end. -/
def ofList (bytes : List UInt8) (start : Nat) : SeekableReader :=
  ⟨inMemory bytes start, fun _ => Nat.succ_pos _, fun _ => none, start⟩

def content (s : SeekableReader) : Content := s.stream.content

def streamPosition (s : SeekableReader) : Nat := s.stream.position

def moveTo (streamPosition readPosition : Nat) (s : SeekableReader) : SeekableReader :=
  { s with stream := { s.stream with position := streamPosition }, readPosition }

section moveTo

variable (streamPosition readPosition : Nat) (s : SeekableReader)

@[simp] theorem content_moveTo : (s.moveTo streamPosition readPosition).content = s.content := rfl

@[simp] theorem streamPosition_moveTo :
    (s.moveTo streamPosition readPosition).streamPosition = streamPosition := rfl

@[simp] theorem readPosition_moveTo :
    (s.moveTo streamPosition readPosition).readPosition = readPosition := rfl

@[simp] theorem moveTo_moveTo (p q : Nat) :
    (s.moveTo p q).moveTo streamPosition readPosition = s.moveTo streamPosition readPosition := rfl

end moveTo

def read (n : Nat) (s : SeekableReader) : Except Error (List UInt8 × SeekableReader) := do
  let bytes ← s.stream.deliver n
  return (bytes, s.moveTo (s.streamPosition + bytes.length) (s.readPosition + bytes.length))

def checkSeek (position : Nat) (s : SeekableReader) : Except Error Unit :=
  match s.seekFault position with
  | some fault => .error (.io fault)
  | none => .ok ()

def seekRead (position : Nat) (s : SeekableReader) : Except Error SeekableReader := do
  let position ← checkPosition position s.content.size
  s.checkSeek position
  return s.moveTo position position

/-- Reads the stream from its start and takes it back to the cursor. After a failure it stands
where that happened. -/
def contents (s : SeekableReader) : Except Error (List UInt8) × SeekableReader :=
  match s.checkSeek 0, s.stream.failsAt, s.checkSeek s.readPosition with
  | .error e, _, _ => (.error e, s)
  | .ok (), some failure, _ =>
    (.error (.io failure.fault), s.moveTo (min failure.place s.content.size) s.readPosition)
  | .ok (), none, .error e => (.error e, s.moveTo s.content.size s.readPosition)
  | .ok (), none, .ok () => (.ok s.content.toList, s.moveTo s.readPosition s.readPosition)

end SeekableReader

structure Writer where
  received : Content
  failsAt : Option Failure
  /-- What handing on the bytes fails with, if it does. -/
  flushFault : Option IoFault
  written : Nat
  deriving Repr, Inhabited

namespace Writer

def onto (failsAt : Option Failure) : Writer := ⟨#[], failsAt, none, 0⟩

def accept (bytes : List UInt8) (w : Writer) : Writer :=
  { w with received := w.received.append bytes, written := w.written + bytes.length }

/-- Takes the bytes that fit. The write fails if some do not, and is then not counted. -/
def write (bytes : List UInt8) (w : Writer) : Except Error Unit × Writer :=
  match w.failsAt with
  | none => (.ok (), w.accept bytes)
  | some failure =>
    let room := failure.place - w.received.size
    if bytes.length ≤ room then (.ok (), w.accept bytes)
    else (.error (.io failure.fault), { w with received := w.received.append (bytes.take room) })

def flush (w : Writer) : Except Error Unit :=
  match w.flushFault with
  | some fault => .error (.io fault)
  | none => .ok ()

end Writer

end BinaryCodec
