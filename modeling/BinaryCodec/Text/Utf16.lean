namespace BinaryCodec.Utf16

def encodeChar (c : Char) : List UInt16 :=
  let n := c.toNat
  if n < 0x10000 then [UInt16.ofNat n]
  else [UInt16.ofNat (0xd800 + (n - 0x10000) / 0x400), UInt16.ofNat (0xdc00 + (n - 0x10000) % 0x400)]

def encode (text : String) : List UInt16 := text.toList.flatMap encodeChar

def isHigh (unit : UInt16) : Bool := 0xd800 ≤ unit && unit < 0xdc00

def isLow (unit : UInt16) : Bool := 0xdc00 ≤ unit && unit < 0xe000

def pairChar (high low : UInt16) : Char :=
  Char.ofNat (0x10000 + (high.toNat - 0xd800) * 0x400 + (low.toNat - 0xdc00))

def replacement : Char := '\uFFFD'

def decodeChars : (units : List UInt16) → List Char
  | [] => []
  | [unit] => [if isHigh unit || isLow unit then replacement else Char.ofNat unit.toNat]
  | unit :: next :: rest =>
    if isHigh unit && isLow next then pairChar unit next :: decodeChars rest
    else if isHigh unit || isLow unit then replacement :: decodeChars (next :: rest)
    else Char.ofNat unit.toNat :: decodeChars (next :: rest)
termination_by units => units.length

def decode (units : List UInt16) : String := String.ofList (decodeChars units)

end BinaryCodec.Utf16
