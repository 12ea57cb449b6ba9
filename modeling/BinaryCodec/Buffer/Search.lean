import BinaryCodec.Buffer.Text

namespace BinaryCodec

def firstMatch? (needle : List UInt8) : (bytes : List UInt8) → Option Nat
  | [] => if needle.isEmpty then some 0 else none
  | b :: rest =>
    if needle.isPrefixOf (b :: rest) then some 0 else (firstMatch? needle rest).map (· + 1)

namespace Buffer

/-- Looks for `needle` in at most `fuel` chunks. `window` holds the bytes from `start` on that were
read and may begin a match. -/
def searchChunks (needle : List UInt8) :
    (fuel : Nat) → (window : List UInt8) → (start : Nat) → BufferM (Option Nat)
  | 0, _, _ => return none
  | fuel + 1, window, start => do
    let bytes ← readUpTo chunkSize
    if bytes.isEmpty then return none
    let window := window ++ bytes
    match firstMatch? needle window with
    | some i => return some (start + i)
    | none =>
      let dropped := window.length - min (needle.length - 1) window.length
      searchChunks needle fuel (window.drop dropped) (start + dropped)

/-- Position of the first `needle` at or after the read cursor, which is taken back to where it
was. -/
def find (needle : List UInt8) : BufferM (Option Nat) := do
  let start ← readPosition
  if needle.isEmpty then return some start
  let found ← searchChunks needle ((← unread) + 1) [] start
  seekRead start
  return found

/-- Reads at most `fuel` bytes until the bytes read end with a token. Both the token and the bytes
read so far are given from last to first. -/
def readToToken (token : List UInt8) : (fuel : Nat) → (got : List UInt8) → BufferM (List UInt8)
  | 0, got => return got
  | fuel + 1, got => do
    if token.isPrefixOf got then return got
    match ← readUpTo 1 with
    | b :: _ => readToToken token fuel (b :: got)
    | [] => throw (.endOfData (got.length + 1) got.length)

/-- Reads up to `token`, which is consumed and must be there. -/
def readUntilToken (token : List UInt8) : BufferM String := do
  if token.isEmpty then return ""
  let got ← readToToken token.reverse ((← unread) + 2) []
  return Utf8.decodeOrEmpty (got.drop token.length).reverse

end Buffer

end BinaryCodec
