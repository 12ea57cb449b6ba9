import BinaryCodec.Definition.Document
import BinaryCodec.Definition.Fault

namespace BinaryCodec.Definition

inductive Mark where
  | opened
  | done
  deriving DecidableEq, Repr, Inhabited

abbrev Marks := List (String × Mark)

def MessageField.inlined? (field : MessageField) : Option String :=
  match field.isArray, field.type with
  | false, .message name => some name
  | _, _ => none

/-- Searches the fields of a message in order, where `visit` searches a message not met before. -/
def visitFields (visit : String → Marks → Except Fault Marks) :
    List MessageField → Marks → Except Fault Marks
  | [], marks => .ok marks
  | field :: rest, marks =>
    match field.inlined? with
    | none => visitFields visit rest marks
    | some name =>
      match marks.lookup name with
      | some .opened => .error ⟨field.place, .recursiveType name field.name⟩
      | some .done => visitFields visit rest marks
      | none => do visitFields visit rest (← visit name marks)

def visitMessage (messages : List Message) : (fuel : Nat) → String → Marks → Except Fault Marks
  | 0, _, marks => .ok marks
  | fuel + 1, name, marks =>
    match messages.find? fun m => m.name = name with
    | none => .ok marks
    | some m => do
      let marks ← visitFields (visitMessage messages fuel) m.fields ((name, .opened) :: marks)
      return (name, .done) :: marks

def visitAll (messages : List Message) : List Message → Marks → Except Fault Marks
  | [], marks => .ok marks
  | m :: rest, marks =>
    match marks.lookup m.name with
    | some _ => visitAll messages rest marks
    | none => do visitAll messages rest (← visitMessage messages messages.length m.name marks)

def rejectInlineCycles (messages : List Message) : Except Fault Unit := do
  let _ ← visitAll messages messages []

end BinaryCodec.Definition
