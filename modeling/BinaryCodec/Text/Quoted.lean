import BinaryCodec.Text.Unprintable

namespace BinaryCodec.Text

def hexDigits (n : Nat) : List Char := Nat.toDigits 16 n

/-- A character between double quotes: the quote and the backslash are escaped by a backslash, four
controls have names, and other unprintable characters are shown by number. -/
def quotedChar (c : Char) : List Char :=
  if c = '\x00' then ['\\', '0']
  else if c = '\t' then ['\\', 't']
  else if c = '\r' then ['\\', 'r']
  else if c = '\n' then ['\\', 'n']
  else if c = '"' || c = '\\' then ['\\', c]
  else if isUnprintable c then ['\\', 'u', '{'] ++ hexDigits c.toNat ++ ['}']
  else [c]

def quoted (text : String) : String :=
  String.ofList ('"' :: text.toList.flatMap quotedChar ++ ['"'])

end BinaryCodec.Text
