import BinaryCodec.Bytes.Word

namespace BinaryCodec

def maxCapacity : Nat := Word.last 63

structure DecodeLimits where
  preallocation : Nat
  deriving DecidableEq, Repr

namespace DecodeLimits

def standard : DecodeLimits := ⟨4194304⟩

instance : Inhabited DecodeLimits := ⟨standard⟩

/-- Number of items to set room aside for when `length` items of `itemSize` bytes in memory are
announced. Items without a size take no room. -/
def capacityFor (limits : DecodeLimits) (itemSize length : Nat) : Nat :=
  if itemSize = 0 then length else min length (limits.preallocation / itemSize)

end DecodeLimits

end BinaryCodec
