namespace BinaryCodec.Utf8

def encode (text : String) : List UInt8 := text.toList.flatMap String.utf8EncodeChar

def size (text : String) : Nat := (encode text).length

def widthOf (lead : UInt8) : Option Nat :=
  if lead < 0x80 then some 1
  else if 0xc2 ≤ lead ∧ lead ≤ 0xdf then some 2
  else if 0xe0 ≤ lead ∧ lead ≤ 0xef then some 3
  else if 0xf0 ≤ lead ∧ lead ≤ 0xf4 then some 4
  else none

def isContinuation (b : UInt8) : Bool := 0x80 ≤ b && b < 0xc0

def scalar? (least n : Nat) : Option Char :=
  if h : n.isValidChar then if least ≤ n then some (Char.ofNatAux n h) else none else none

def char? : (bytes : List UInt8) → Option Char
  | [a] => if a < 0x80 then scalar? 0 a.toNat else none
  | [a, b] =>
    if 0xc0 ≤ a ∧ a < 0xe0 ∧ isContinuation b then
      scalar? 0x80 ((a.toNat - 0xc0) * 64 + (b.toNat - 0x80))
    else none
  | [a, b, c] =>
    if 0xe0 ≤ a ∧ a < 0xf0 ∧ isContinuation b ∧ isContinuation c then
      scalar? 0x800 ((a.toNat - 0xe0) * 4096 + (b.toNat - 0x80) * 64 + (c.toNat - 0x80))
    else none
  | [a, b, c, d] =>
    if 0xf0 ≤ a ∧ a < 0xf8 ∧ isContinuation b ∧ isContinuation c ∧ isContinuation d then
      scalar? 0x10000 ((a.toNat - 0xf0) * 262144 + (b.toNat - 0x80) * 4096 + (c.toNat - 0x80) * 64
        + (d.toNat - 0x80))
    else none
  | _ => none

def decodeChars? : (bytes : List UInt8) → Option (List Char)
  | [] => some []
  | lead :: rest =>
    match widthOf lead with
    | none => none
    | some width => do
      let c ← char? (lead :: rest.take (width - 1))
      let more ← decodeChars? (rest.drop (width - 1))
      return c :: more
termination_by bytes => bytes.length
decreasing_by
  rw [List.length_drop, List.length_cons]
  omega

def decode? (bytes : List UInt8) : Option String := (decodeChars? bytes).map String.ofList

def decodeOrEmpty (bytes : List UInt8) : String := (decode? bytes).getD ""

def fitting (width : Nat) : (chars : List Char) → List Char
  | [] => []
  | c :: rest =>
    if c.utf8Size ≤ width then c :: fitting (width - c.utf8Size) rest else []

end BinaryCodec.Utf8
