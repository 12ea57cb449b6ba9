import BinaryCodec.Bytes.Hex
import BinaryCodec.Error

namespace BinaryCodec

structure Uuid where
  bytes : Vector UInt8 16
  deriving DecidableEq, Repr

namespace Uuid

def groupSizes : List Nat := [8, 4, 4, 4, 12]

def hyphenGroups : (chars : List Char) → List (List Char)
  | [] => [[]]
  | c :: rest =>
    match hyphenGroups rest with
    | [] => [[c]]
    | group :: more => if c = '-' then [] :: group :: more else (c :: group) :: more

def ofList? (bytes : List UInt8) : Option Uuid :=
  if h : bytes.length = 16 then some ⟨⟨bytes.toArray, by simp [h]⟩⟩ else none

def isGroup (size : Nat) (group : List Char) : Bool :=
  let bytes := group.flatMap String.utf8EncodeChar
  bytes.length = size && bytes.all fun b => Hex.isDigit (Char.ofUInt8 b)

def areGroups : (sizes : List Nat) → (groups : List (List Char)) → Bool
  | [], groups => groups.isEmpty
  | _ :: _, [] => false
  | size :: sizes, group :: groups => isGroup size group && areGroups sizes groups

def ofDigits? (text : String) : Option Uuid :=
  (Hex.decode? (text.toList.filter (· ≠ '-'))).bind ofList?

/-- Reads five hyphenated groups of digits of either case, and nothing else. -/
def parse (text : String) : Except Error Uuid :=
  if areGroups groupSizes (hyphenGroups text.toList) then
    match ofDigits? text with
    | some id => .ok id
    | none => .error (.invalidUuid text)
  else .error (.invalidUuid text)

def hyphenate : (sizes : List Nat) → (digits : List Char) → List Char
  | [], digits => digits
  | [_], digits => digits
  | size :: sizes, digits => digits.take size ++ '-' :: hyphenate sizes (digits.drop size)

def toText (id : Uuid) : String :=
  String.ofList (hyphenate groupSizes (Hex.encode id.bytes.toList))

def zero : Uuid := ⟨Vector.replicate 16 0⟩

instance : Inhabited Uuid := ⟨zero⟩

def ofRandom (bytes : Vector UInt8 16) : Uuid :=
  ⟨(bytes.set 6 (bytes[6] &&& 0x0f ||| 0x40)).set 8 (bytes[8] &&& 0x3f ||| 0x80)⟩

end Uuid

end BinaryCodec
