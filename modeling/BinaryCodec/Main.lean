import BinaryCodec.Project.Command

namespace BinaryCodec.Project

def faultOf (e : IO.Error) : IoFault :=
  match e with
  | .noFileOrDirectory _ _ _ => .missing
  | .alreadyExists _ 17 _ => .occupied
  | .inappropriateType _ 20 _ => .notDirectory
  | .inappropriateType _ 21 _ => .directory
  | e => ⟨.other, e.toString⟩

def attempt {α : Type} (action : IO α) : IO (Except IoFault α) := do
  match ← action.toBaseIO with
  | .ok value => return .ok value
  | .error e => return .error (faultOf e)

def systemAccess : FileAccess IO where
  read path := attempt do return (← IO.FS.readBinFile path).toList
  createDirectories path := attempt (IO.FS.createDirAll path)
  write path bytes := attempt (IO.FS.writeBinFile path ⟨bytes.toArray⟩)

end BinaryCodec.Project

def main (arguments : List String) : IO UInt32 := do
  let outcome ← BinaryCodec.Project.Command.run BinaryCodec.Project.systemAccess arguments
  IO.print outcome.output
  IO.eprint outcome.errors
  return UInt32.ofNat outcome.code
