import BinaryCodec.Schema.Size

namespace BinaryCodec.Message

mutual

def encodeMove (registry : Registry) (move : Move) (v : Value) : Output :=
  match move, v with
  | .call method, v => method.write v
  | .message name, .record vs => encodeSteps registry ((registry.steps? name).getD []) vs
  | .choice _, .variant index _ => .unsigned index
  | _, _ => .none

def encodeItems (registry : Registry) (move : Move) : List Value → Output
  | [] => .none
  | v :: rest => encodeMove registry move v ++ encodeItems registry move rest

def encodeSteps (registry : Registry) (steps : List Step) : List Value → Output
  | [] => .none
  | v :: rest =>
    match steps with
    | [] => .none
    | step :: more =>
      (match step.repeated, v with
        | true, .list items =>
          Output.unsigned items.length ++ encodeItems registry step.write items
        | true, _ => .none
        | false, v => encodeMove registry step.write v) ++
      encodeSteps registry more rest

end

def readItems (read : BufferM Value) : (count : Nat) → BufferM (List Value)
  | 0 => return []
  | count + 1 => do
    let v ← read
    return v :: (← readItems read count)

def readChoice (count : Nat) : BufferM Value := do
  let index ← Buffer.readUnsigned 64
  if index < count then return .variant index [] else throw (.invalidTag index)

def choiceCount (registry : Registry) (name : String) : Nat :=
  match registry.shape? name with
  | some (.choices names) => names.length
  | _ => 0

def decodeMove (registry : Registry) (message : String → BufferM Value) : Move → BufferM Value
  | .call method => method.read
  | .message name => message name
  | .choice name => readChoice (choiceCount registry name)

def decodeStep (registry : Registry) (message : String → BufferM Value) (step : Step) :
    BufferM Value := do
  if step.repeated then
    let count ← Buffer.readLength (step.item.minSize registry)
    return .list (← readItems (decodeMove registry message step.read) count)
  else decodeMove registry message step.read

def decodeSteps (registry : Registry) (message : String → BufferM Value) :
    List Step → BufferM (List Value)
  | [] => return []
  | step :: rest => do
    let v ← decodeStep registry message step
    return v :: (← decodeSteps registry message rest)

end BinaryCodec.Message
