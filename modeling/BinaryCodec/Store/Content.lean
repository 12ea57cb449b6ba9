namespace BinaryCodec

abbrev Content := Array UInt8

namespace Content

def piece (content : Content) (position n : Nat) : List UInt8 :=
  (content.extract position (position + n)).toList

def overwrite (content : Content) (position : Nat) : (bytes : List UInt8) → Content
  | [] => content
  | b :: rest =>
    if h : position < content.size then overwrite (content.set position b) (position + 1) rest
    else overwrite (content.push b) (position + 1) rest

def append (content : Content) (bytes : List UInt8) : Content := bytes.foldl Array.push content

theorem piece_eq (content : Content) (position n : Nat) :
    content.piece position n = (content.toList.drop position).take n := by
  simp [piece, List.extract_eq_take_drop]

theorem toList_append (content : Content) (bytes : List UInt8) :
    (content.append bytes).toList = content.toList ++ bytes := by
  simp [append]

end Content

end BinaryCodec
