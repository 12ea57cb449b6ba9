import BinaryCodec.Error
import BinaryCodec.Project.Path
import BinaryCodec.Text.Utf8

namespace BinaryCodec.Project

structure FileAccess (m : Type → Type) where
  read : (path : String) → m (Except IoFault (List UInt8))
  /-- Makes a directory and those above it, as far as they are missing. -/
  createDirectories : (path : String) → m (Except IoFault Unit)
  /-- Writes a file, in place of the one that is there. -/
  write : (path : String) → (bytes : List UInt8) → m (Except IoFault Unit)

namespace FileAccess

variable {m : Type → Type} [Monad m]

def readText (files : FileAccess m) (path : String) : m (Except IoFault String) := do
  match ← files.read path with
  | .error fault => return .error fault
  | .ok bytes =>
    match Utf8.decode? bytes with
    | some text => return .ok text
    | none => return .error .malformedText

def writeText (files : FileAccess m) (path text : String) : m (Except IoFault Unit) :=
  files.write path (Utf8.encode text)

end FileAccess

end BinaryCodec.Project
