import BinaryCodec.Message.Method

namespace BinaryCodec

/-- A field of a record. One that is skipped is not on the wire and reads as the given value. -/
structure Field where
  name : String
  schema : Schema
  skipped : Option Value
  deriving Repr, Inhabited

structure Variant where
  name : String
  fields : List Field
  deriving Repr, Inhabited

inductive Move where
  | call (method : Method)
  | message (name : String)
  /-- The number of a case of a plain enumeration, as an unsigned varint. -/
  | choice (name : String)
  deriving DecidableEq, Repr, Inhabited

/-- The statements of one field of a compiled message: what writes and what reads a single item,
whether a count and that many items are moved, and the schema of an item. -/
structure Step where
  name : String
  repeated : Bool
  write : Move
  read : Move
  item : Schema
  deriving Repr, Inhabited

def Step.schema (step : Step) : Schema :=
  if step.repeated then .sequence .vector step.item else step.item

def Step.toField (step : Step) : Field := ⟨step.name, step.schema, none⟩

inductive Shape where
  | record (fields : List Field)
  /-- The index of the case as an unsigned varint, then its fields. -/
  | enumeration (variants : List Variant)
  | message (steps : List Step)
  | choices (names : List String)
  deriving Repr, Inhabited

def Shape.fields? : Shape → Option (List Field)
  | .record fields => some fields
  | .message steps => some (steps.map Step.toField)
  | .enumeration _ | .choices _ => none

structure Declaration where
  title : String
  shape : Shape
  deriving Repr, Inhabited

abbrev Registry := List (String × Declaration)

namespace Registry

def shape? (registry : Registry) (name : String) : Option Shape :=
  (registry.lookup name).map Declaration.shape

def steps? (registry : Registry) (name : String) : Option (List Step) :=
  match registry.shape? name with
  | some (.message steps) => some steps
  | _ => none

end Registry

end BinaryCodec
