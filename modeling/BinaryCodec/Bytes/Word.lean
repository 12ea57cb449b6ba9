namespace BinaryCodec.Word

def count (bits : Nat) : Nat := Nat.pow 2 bits

def last (bits : Nat) : Nat := count bits - 1

def holdsUnsigned (bits : Nat) (n : Int) : Bool := 0 ≤ n && n < count bits

def holdsSigned (bits : Nat) (n : Int) : Bool :=
  -(count (bits - 1) : Int) ≤ n && n < count (bits - 1)

def wrap (bits : Nat) (value : Int) : Nat := (value % count bits).toNat

def unwrap (bits : Nat) (n : Nat) : Int := if n < count (bits - 1) then n else n - count bits

end BinaryCodec.Word
