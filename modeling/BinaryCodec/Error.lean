import BinaryCodec.Bytes.Base64
import BinaryCodec.Text.Quoted

namespace BinaryCodec

inductive IoKind where
  | notFound
  | alreadyExists
  | notADirectory
  | isADirectory
  | invalidInput
  | invalidData
  | unexpectedEof
  | other
  deriving DecidableEq, Repr, Inhabited

structure IoFault where
  kind : IoKind
  message : String
  deriving DecidableEq, Repr, Inhabited

namespace IoFault

def missing : IoFault := ⟨.notFound, "No such file or directory (os error 2)"⟩

def occupied : IoFault := ⟨.alreadyExists, "File exists (os error 17)"⟩

def notDirectory : IoFault := ⟨.notADirectory, "Not a directory (os error 20)"⟩

def directory : IoFault := ⟨.isADirectory, "Is a directory (os error 21)"⟩

def malformedText : IoFault := ⟨.invalidData, "stream did not contain valid UTF-8"⟩

end IoFault

inductive StoreKind where
  | memory
  | slice
  | file
  | reader
  | seekableReader
  | writer
  deriving DecidableEq, Repr, Inhabited

def StoreKind.label : StoreKind → String
  | .memory => "memory"
  | .slice => "slice"
  | .file => "file"
  | .reader => "reader"
  | .seekableReader => "seekable reader"
  | .writer => "writer"

inductive Operation where
  | read
  | write
  | seek
  | seekWrite
  | readPosition
  | writePosition
  | size
  | contents
  | erase
  deriving DecidableEq, Repr, Inhabited

def Operation.label : Operation → String
  | .read => "read"
  | .write => "write"
  | .seek => "seek"
  | .seekWrite => "seek write"
  | .readPosition => "read position"
  | .writePosition => "write position"
  | .size => "size"
  | .contents => "bytes"
  | .erase => "erase"

inductive Error where
  | io (fault : IoFault)
  | unsupported (store : StoreKind) (operation : Operation)
  | readOnly (store : StoreKind)
  | closed (store : StoreKind)
  | seekOutOfBounds (position size : Nat)
  | endOfData (needed got : Nat)
  | lengthExceedsInput (length available : Nat)
  | varintOverflow (bits : Nat)
  | integerOverflow (value : Int) (target : String)
  | invalidTag (tag : Nat)
  | invalidUuid (text : String)
  | invalidChar
  | invalidBase64 (fault : Base64.Fault)
  | timestampOutOfRange (value : Int)
  | nullReference (typeName : String)
  | unsupportedKind (typeName : String)
  | sizeOverflow
  /-- A vector would have to hold more bytes than one can. This ends the program. -/
  | capacityOverflow
  deriving DecidableEq, Repr, Inhabited

def Error.message : Error → String
  | .io fault => fault.message
  | .unsupported store operation => s!"{store.label} backend does not support {operation.label}"
  | .readOnly store => s!"{store.label} backend is read-only"
  | .closed store => s!"{store.label} backend is closed"
  | .seekOutOfBounds position size => s!"Seek to {position} is out of bounds (size {size})"
  | .endOfData needed got => s!"Unexpected end of data: needed {needed} bytes, got {got}"
  | .lengthExceedsInput length available =>
    s!"Encoded length {length} exceeds remaining input of {available} bytes"
  | .varintOverflow bits => s!"Varint exceeds {bits} bits"
  | .integerOverflow value target => s!"Encoded value {value} does not fit in {target}"
  | .invalidTag tag => s!"Invalid enum discriminant {tag}"
  | .invalidUuid text => "Invalid UUID: " ++ Text.quoted text
  | .invalidChar => "Invalid char encoding"
  | .invalidBase64 fault => fault.message
  | .timestampOutOfRange value => s!"Timestamp out of range: {value}"
  | .nullReference typeName => "Cannot encode a null reference of " ++ typeName
  | .unsupportedKind typeName => "Unable to encode type " ++ typeName
  | .sizeOverflow => "Computing size of type would overflow usize::MAX"
  | .capacityOverflow => "capacity overflow"

end BinaryCodec
