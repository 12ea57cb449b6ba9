import BinaryCodec.Proofs.Store.Acceptance

namespace BinaryCodec

structure Handle where
  content : Content
  place : Nat

namespace Handle

def seek (position : Nat) (h : Handle) : Handle := { h with place := position }

def read (n : Nat) (h : Handle) : List UInt8 × Handle :=
  let bytes := h.content.piece h.place n
  (bytes, h.seek (h.place + bytes.length))

def readToEnd (h : Handle) : List UInt8 × Handle := h.read h.content.size

/-- Writes at the place. Zeros fill the gap that a place past the end leaves. -/
def write (bytes : List UInt8) (h : Handle) : Handle :=
  if bytes.isEmpty then h
  else
    let filled := h.content.append (List.replicate (h.place - h.content.size) 0)
    ⟨filled.overwrite h.place bytes, h.place + bytes.length⟩

def truncate (h : Handle) : Handle := { h with content := #[] }

end Handle

/-- A file store and the open file that it works on. -/
structure Session where
  handle : Handle
  readPosition : Nat
  writePosition : Nat
  readOnly : Bool
  isOpen : Bool

namespace Session

/-- The store, whatever the place of the open file. -/
def file (s : Session) : File :=
  ⟨s.handle.content, s.readPosition, s.writePosition, s.readOnly, s.isOpen⟩

def read (n : Nat) (s : Session) : Except Error (List UInt8 × Session) := do
  s.file.checkOpen
  let (bytes, handle) := (s.handle.seek s.readPosition).read n
  return (bytes, { s with handle, readPosition := s.readPosition + bytes.length })

def write (bytes : List UInt8) (s : Session) : Except Error Session := do
  s.file.checkWritable
  let handle := (s.handle.seek s.writePosition).write bytes
  return { s with handle, writePosition := s.writePosition + bytes.length }

def size (s : Session) : Except Error Nat := s.file.size

def seekRead (position : Nat) (s : Session) : Except Error Session := do
  return { s with readPosition := ← checkPosition position (← s.size) }

def seekWrite (position : Nat) (s : Session) : Except Error Session := do
  if s.readOnly then throw (.readOnly .file)
  return { s with writePosition := ← checkPosition position (← s.size) }

def contents (s : Session) : Except Error (List UInt8 × Session) := do
  s.file.checkOpen
  let (bytes, handle) := (s.handle.seek 0).readToEnd
  return (bytes, { s with handle })

def erase (s : Session) : Except Error Session := do
  s.file.checkWritable
  return { s with handle := s.handle.truncate.seek 0, readPosition := 0, writePosition := 0 }

variable {s : Session}

theorem read_eq (n : Nat) :
    s.file.read n = (s.read n).map fun step => (step.1, step.2.file) := by
  simp only [read, File.read]
  cases s.file.checkOpen <;> rfl

theorem write_eq (within : s.writePosition ≤ s.handle.content.size) (bytes : List UInt8) :
    s.file.write bytes = (s.write bytes).map file := by
  have gap : s.writePosition - s.handle.content.size = 0 := by omega
  have wrote : ((s.handle.seek s.writePosition).write bytes).content =
      s.handle.content.overwrite s.writePosition bytes := by
    cases bytes with
    | nil => rfl
    | cons b rest => simp [Handle.write, Handle.seek, gap, Content.append]
  simp only [write, File.write]
  cases s.file.checkWritable with
  | error e => rfl
  | ok u =>
    change Except.ok (File.mk _ _ _ _ _) = Except.ok (File.mk _ _ _ _ _)
    rw [wrote]
    rfl

theorem seekRead_eq (position : Nat) :
    s.file.seekRead position = (s.seekRead position).map file := by
  simp only [seekRead, File.seekRead, size]
  cases s.file.size with
  | error e => rfl
  | ok n =>
    cases checked : checkPosition position n <;>
      simp [bind, Except.bind, pure, Except.pure, Except.map, checked, file]

theorem seekWrite_eq (position : Nat) :
    s.file.seekWrite position = (s.seekWrite position).map file := by
  simp only [seekWrite, File.seekWrite, size]
  by_cases readOnly : s.readOnly = true
  · simp [file, readOnly, throw, throwThe, MonadExceptOf.throw, bind, Except.bind, Except.map]
  · cases s.file.size with
    | error e => simp [file, readOnly, bind, Except.bind, Except.map]
    | ok n =>
      cases checked : checkPosition position n <;>
        simp [bind, Except.bind, pure, Except.pure, Except.map, checked, file, readOnly]

theorem contents_eq :
    (s.file.contents.map fun bytes => (bytes, s.file)) =
      s.contents.map fun step => (step.1, step.2.file) := by
  have whole : s.handle.content.piece 0 s.handle.content.size = s.handle.content.toList := by
    rw [Content.piece_eq, List.drop_zero, ← Array.length_toList, List.take_length]
  simp only [contents, File.contents]
  cases s.file.checkOpen with
  | error e => rfl
  | ok u =>
    change Except.ok _ = Except.ok (s.handle.content.piece 0 s.handle.content.size, _)
    rw [whole]
    rfl

theorem erase_eq : s.file.erase = s.erase.map file := by
  simp only [erase, File.erase]
  cases s.file.checkWritable <;> rfl

end Session

end BinaryCodec
