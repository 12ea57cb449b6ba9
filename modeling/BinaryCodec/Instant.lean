import BinaryCodec.Bytes.Word

namespace BinaryCodec

structure Instant where
  seconds : Int
  nanos : Nat
  deriving DecidableEq, Repr, Inhabited

namespace Instant

def epoch : Instant := ⟨0, 0⟩

def toNanos (t : Instant) : Int := t.seconds * 1000000000 + t.nanos

def toMillis (t : Instant) : Int := t.seconds * 1000 + (t.nanos / 1000000 : Nat)

def ofNanos (n : Int) : Instant := ⟨n / 1000000000, (n % 1000000000).toNat⟩

def maxMillis : Nat := 8210266876799999

def ofMillis? (n : Nat) : Option Instant :=
  if n ≤ maxMillis then some ⟨(n / 1000 : Nat), n % 1000 * 1000000⟩ else none

def nanos64? (t : Instant) : Option Int :=
  if Word.holdsSigned 64 t.toNanos then some t.toNanos else none

end Instant

end BinaryCodec
