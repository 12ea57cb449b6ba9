namespace BinaryCodec.Base64

inductive Fault where
  | invalidSymbol (symbol : UInt8) (offset : Nat)
  | invalidLength (length : Nat)
  | invalidLastSymbol (symbol : UInt8) (offset : Nat)
  | invalidPadding
  deriving DecidableEq, Repr, Inhabited

def Fault.message : Fault → String
  | .invalidSymbol symbol offset => s!"Invalid symbol {symbol.toNat}, offset {offset}."
  | .invalidLength length => s!"Invalid input length: {length}"
  | .invalidLastSymbol symbol offset => s!"Invalid last symbol {symbol.toNat}, offset {offset}."
  | .invalidPadding => "Invalid padding"

def symbol (n : Nat) : UInt8 :=
  if n < 26 then UInt8.ofNat (65 + n)
  else if n < 52 then UInt8.ofNat (97 + (n - 26))
  else if n < 62 then UInt8.ofNat (48 + (n - 52))
  else if n = 62 then 45 else 95

def sextet? (symbol : UInt8) : Option Nat :=
  let n := symbol.toNat
  if 65 ≤ n ∧ n ≤ 90 then some (n - 65)
  else if 97 ≤ n ∧ n ≤ 122 then some (n - 97 + 26)
  else if 48 ≤ n ∧ n ≤ 57 then some (n - 48 + 52)
  else if n = 45 then some 62
  else if n = 95 then some 63
  else none

def pad : UInt8 := 61

def encode : (bytes : List UInt8) → List UInt8
  | [] => []
  | [a] =>
    let n := a.toNat * 16
    [symbol (n / 64), symbol (n % 64), pad, pad]
  | [a, b] =>
    let n := (a.toNat * 256 + b.toNat) * 4
    [symbol (n / 4096), symbol (n / 64 % 64), symbol (n % 64), pad]
  | a :: b :: c :: rest =>
    let n := (a.toNat * 256 + b.toNat) * 256 + c.toNat
    symbol (n / 262144) :: symbol (n / 4096 % 64) :: symbol (n / 64 % 64) :: symbol (n % 64)
      :: encode rest

def sextets : (offset : Nat) → (symbols : List UInt8) → Except Fault (List Nat)
  | _, [] => .ok []
  | offset, s :: rest =>
    match sextet? s with
    | none => .error (.invalidSymbol s offset)
    | some n => (n :: ·) <$> sextets (offset + 1) rest

def pack : (sextets : List Nat) → List UInt8
  | a :: b :: c :: d :: rest =>
    let n := ((a * 64 + b) * 64 + c) * 64 + d
    UInt8.ofNat (n / 65536) :: UInt8.ofNat (n / 256) :: UInt8.ofNat n :: pack rest
  | [a, b, c] =>
    let n := ((a * 64 + b) * 64 + c) / 4
    [UInt8.ofNat (n / 256), UInt8.ofNat n]
  | [a, b] => [UInt8.ofNat ((a * 64 + b) / 16)]
  | _ => []

def spare (sextets : List Nat) : Nat :=
  match sextets.length % 4, sextets.getLast? with
  | 2, some n => n % 16
  | 3, some n => n % 4
  | _, _ => 0

def lastSextets (offset : Nat) (group : List UInt8) : Except Fault (List Nat) := do
  let symbols := group.takeWhile (· ≠ pad)
  let padding := group.drop symbols.length
  let numbers ← sextets offset symbols
  if padding ≠ [] ∧ (symbols.length < 2 ∨ padding.any (· ≠ pad)) then
    throw (.invalidSymbol pad (offset + symbols.length))
  if group ≠ [] ∧ symbols.length < 2 then throw (.invalidLength (offset + symbols.length))
  if group.length % 4 ≠ 0 then throw .invalidPadding
  if spare numbers ≠ 0 then
    throw (.invalidLastSymbol (symbols.getLastD pad) (offset + symbols.length - 1))
  return numbers

/-- The bytes whose symbols are `text`. A lone symbol after the last full group is looked at first,
then the full groups in order, the last group at the end. -/
def decode (text : List UInt8) : Except Fault (List UInt8) := do
  let lone := text.length % 4
  if lone = 1 then
    let last := text.getLastD pad
    if last ≠ pad ∧ sextet? last = none then throw (.invalidSymbol last (text.length - 1))
  let bodyLength := if lone = 0 then text.length - 4 else text.length - lone
  let body ← sextets 0 (text.take bodyLength)
  let last ← lastSextets bodyLength (text.drop bodyLength)
  return pack (body ++ last)

end BinaryCodec.Base64
