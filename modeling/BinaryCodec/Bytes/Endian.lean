namespace BinaryCodec

inductive ByteOrder where
  | little
  | big
  deriving DecidableEq, Repr, Inhabited

namespace Endian

def toLittle : (width : Nat) → (n : Nat) → List UInt8
  | 0, _ => []
  | width + 1, n => UInt8.ofNat n :: toLittle width (n / 256)

def ofLittle : (bytes : List UInt8) → Nat
  | [] => 0
  | b :: rest => b.toNat + 256 * ofLittle rest

def encode (order : ByteOrder) (width n : Nat) : List UInt8 :=
  match order with
  | .little => toLittle width n
  | .big => (toLittle width n).reverse

def decode (order : ByteOrder) (bytes : List UInt8) : Nat :=
  match order with
  | .little => ofLittle bytes
  | .big => ofLittle bytes.reverse

end Endian

end BinaryCodec
