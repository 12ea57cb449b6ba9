import BinaryCodec.Buffer.Basic
import BinaryCodec.Bytes.Sha512
import BinaryCodec.Text.Utf8
import BinaryCodec.Uuid

namespace BinaryCodec

def randomBytes : (n : Nat) → (gen : StdGen) → List UInt8 × StdGen
  | 0, gen => ([], gen)
  | n + 1, gen =>
    let (value, gen) := randNat gen 0 255
    let (rest, gen) := randomBytes n gen
    (UInt8.ofNat value :: rest, gen)

def Uuid.random (gen : StdGen) : Uuid × StdGen :=
  let (bytes, gen) := randomBytes 16 gen
  (.ofRandom ((Uuid.ofList? bytes).getD .zero).bytes, gen)

namespace Buffer

def sha512 : BufferM (List UInt8) := return Sha512.digest (← contents)

def toBase64 : BufferM String :=
  return String.ofList ((Base64.encode (← contents)).map fun b => Char.ofNat b.toNat)

def ofBase64 (text : String) : Except Error Buffer :=
  match Base64.decode (Utf8.encode text) with
  | .ok bytes => .ok (ofList bytes)
  | .error fault => .error (.invalidBase64 fault)

def writeRandom (n : Nat) (gen : StdGen) : BufferM StdGen := do
  let (bytes, gen) := randomBytes n gen
  writeBytes bytes
  return gen

end Buffer

end BinaryCodec
