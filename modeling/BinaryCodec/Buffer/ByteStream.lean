import BinaryCodec.Buffer.Basic

namespace BinaryCodec

def Error.toIo : Error → IoFault
  | .io fault => fault
  | e => ⟨.other, e.message⟩

namespace Buffer

def endOfStream : IoFault := ⟨.unexpectedEof, "failed to fill whole buffer"⟩

def asStream {α : Type} (action : BufferM α) : BufferM α := do
  match ← attempt action with
  | .ok value => return value
  | .error e => throw (.io e.toIo)

def streamRead (n : Nat) : BufferM (List UInt8) := asStream (read n)

def streamReadExact (n : Nat) : BufferM (List UInt8) := do
  let bytes ← asStream (readUpTo n)
  if bytes.length < n then throw (.io endOfStream)
  return bytes

def streamWrite (bytes : List UInt8) : BufferM Nat := do
  asStream (writeBytes bytes)
  return bytes.length

def streamFlush : BufferM Unit := asStream flush

end Buffer

end BinaryCodec
