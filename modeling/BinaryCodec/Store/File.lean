import BinaryCodec.Store.Memory

namespace BinaryCodec

structure File where
  content : Content
  readPosition : Nat
  writePosition : Nat
  readOnly : Bool
  isOpen : Bool
  deriving Repr, Inhabited

namespace File

/-- Opens a file to read and write; a missing one is created. -/
def openFile (content : Option (List UInt8)) : File :=
  ⟨(content.getD []).toArray, 0, 0, false, true⟩

def openReadOnly (content : Option (List UInt8)) : Except Error File :=
  match content with
  | none => .error (.io .missing)
  | some bytes => .ok ⟨bytes.toArray, 0, 0, true, true⟩

def checkOpen (f : File) : Except Error Unit :=
  if f.isOpen then .ok () else .error (.closed .file)

def checkWritable (f : File) : Except Error Unit :=
  if f.readOnly then .error (.readOnly .file) else f.checkOpen

def read (n : Nat) (f : File) : Except Error (List UInt8 × File) := do
  f.checkOpen
  let bytes := f.content.piece f.readPosition n
  return (bytes, { f with readPosition := f.readPosition + bytes.length })

def write (bytes : List UInt8) (f : File) : Except Error File := do
  f.checkWritable
  match f with
  | ⟨content, readPosition, writePosition, readOnly, isOpen⟩ =>
    return ⟨content.overwrite writePosition bytes, readPosition, writePosition + bytes.length,
      readOnly, isOpen⟩

def size (f : File) : Except Error Nat := do
  f.checkOpen
  return f.content.size

def seekRead (position : Nat) (f : File) : Except Error File := do
  return { f with readPosition := ← checkPosition position (← f.size) }

def seekWrite (position : Nat) (f : File) : Except Error File := do
  if f.readOnly then throw (.readOnly .file)
  return { f with writePosition := ← checkPosition position (← f.size) }

def contents (f : File) : Except Error (List UInt8) := do
  f.checkOpen
  return f.content.toList

/-- Drops all content and takes both cursors to the start. -/
def erase (f : File) : Except Error File := do
  f.checkWritable
  return { f with content := #[], readPosition := 0, writePosition := 0 }

/-- Nothing is held back, so only a closed file that could be written refuses. -/
def flush (f : File) : Except Error Unit := if f.readOnly then .ok () else f.checkOpen

def close (f : File) : File := { f with isOpen := false }

end File

end BinaryCodec
