import BinaryCodec.Definition.Draft
import BinaryCodec.Definition.Inlining

namespace BinaryCodec.Definition

def insertName (name : String) : List String → List String
  | [] => [name]
  | first :: rest =>
    if name = first then first :: rest
    else if name < first then name :: first :: rest
    else first :: insertName name rest

namespace Draft

def fieldType? (draft : Draft) (name : String) : Option FieldType :=
  match Builtin.ofName? name with
  | some type => some (.builtin type)
  | none =>
    if name ∈ draft.messages.map (·.name.text) then some (.message name)
    else if name ∈ draft.enumerations.map (·.name) then some (.enumeration name)
    else none

def resolveField (draft : Draft) (field : DraftField) : Except Fault MessageField :=
  match draft.fieldType? field.type.text with
  | some type => .ok ⟨field.name, type, field.isArray, field.type.place⟩
  | none => .error (field.type.fault (.undefinedType field.type.text))

def resolveMessage (draft : Draft) (m : DraftMessage) : Except Fault Message := do
  return ⟨m.name.text, ← m.fields.mapM draft.resolveField, m.name.place⟩

/-- The document that a draft stands for. Procedures are looked at first, then fields, then whether
a message lies inside itself. -/
def resolve (draft : Draft) (package : String) : Except Fault Document := do
  match draft.procedureTypes.find? fun type => type.text ∉ draft.messages.map (·.name.text) with
  | some type => throw (type.fault (.undefinedType type.text))
  | none => pure ()
  let messages ← draft.messages.mapM draft.resolveMessage
  rejectInlineCycles messages
  return ⟨package, draft.pragmas.foldr insertName [], messages, draft.enumerations, draft.services⟩

end Draft

def Document.ofTokens (package : String) (tokens : List Token) : Except Fault Document := do
  (← Draft.ofTokens tokens).resolve package

def Document.parse (package source : String) : Except Fault Document :=
  Document.ofTokens package (tokens source)

end BinaryCodec.Definition
