import BinaryCodec.Binding.Native
import BinaryCodec.Binding.Outline
import BinaryCodec.Proofs.Binding.LineForm

namespace BinaryCodec.Binding

open Definition

inductive WireKind where
  | boolean
  | text
  | byte
  | fixed16
  | fixed32
  | fixed64
  | bytes
  | float32
  | float64
  | uuid
  | signedVarint
  | unsignedVarint
  | millis
  deriving DecidableEq, Repr

/-- What one field puts on the wire. How primitive values are told apart is up to `κ`, and how much is known
of which message it holds is up to `τ`. -/
inductive WireOp (κ τ : Type) where
  | primitive (kind : κ)
  | message (target : τ)
  | choice
  /-- A number as an unsigned varint, and that many times the operation. -/
  | counted (item : WireOp κ τ)
  deriving DecidableEq, Repr

def WireKind.ofBuiltin : Builtin → WireKind
  | .bool => .boolean
  | .string => .text
  | .uint8 => .byte
  | .uint16 => .fixed16
  | .uint32 => .fixed32
  | .uint64 => .fixed64
  | .bytes => .bytes
  | .float32 => .float32
  | .float64 => .float64
  | .uuid => .uuid
  | .int | .bigint => .signedVarint
  | .uint | .time => .unsignedVarint
  | .date => .millis

namespace WireOp

variable {κ τ : Type} (kind : Builtin → κ) (target : String → τ)

def ofType : FieldType → WireOp κ τ
  | .builtin type => .primitive (kind type)
  | .message name => .message (target name)
  | .enumeration _ => .choice

def ofField (field : MessageField) : WireOp κ τ :=
  if field.isArray then .counted (ofType kind target field.type) else ofType kind target field.type

def map {l σ : Type} (tells : κ → l) (refers : τ → σ) : WireOp κ τ → WireOp l σ
  | .primitive kind => .primitive (tells kind)
  | .message target => .message (refers target)
  | .choice => .choice
  | .counted item => .counted (item.map tells refers)

theorem map_ofField {l σ : Type} (tells : κ → l) (refers : τ → σ) (field : MessageField) :
    (ofField kind target field).map tells refers =
      ofField (fun type => tells (kind type)) (fun name => refers (target name)) field := by
  have item : (ofType kind target field.type).map tells refers =
      ofType (fun type => tells (kind type)) (fun name => refers (target name)) field.type := by
    cases field.type <;> rfl
  unfold ofField
  cases field.isArray with
  | false => exact item
  | true => exact congrArg counted item

end WireOp

/-- What a message has on the wire: its fields in the order of their declaration. -/
def wire (m : Message) : List (String × WireOp WireKind String) :=
  m.fields.map fun field => (field.name, .ofField .ofBuiltin id field)

/-- The same under the names that a language has for fields and for the messages that they hold. -/
def spelled {τ : Type} (spelling : String → String) (target : String → τ)
    (fields : List (String × WireOp WireKind String)) : List (String × WireOp WireKind τ) :=
  fields.map fun field => (spelling field.1, field.2.map id target)

theorem spelled_wire {τ : Type} (spelling : String → String) (target : String → τ) (m : Message) :
    spelled spelling target (wire m) =
      m.fields.map fun field => (spelling field.name, .ofField .ofBuiltin target field) := by
  rw [spelled, wire, List.map_map]
  exact List.map_congr_left fun field _ =>
    congrArg (Prod.mk _) (WireOp.map_ofField WireKind.ofBuiltin id id target field)

def nativeCalls : List (String × Method) := [
  ("bool", .bool), ("string", .string), ("u8", .u8), ("u16", .u16), ("u32", .u32), ("u64", .u64),
  ("limited_bytes", .limitedBytes), ("f32", .f32), ("f64", .f64), ("uuid", .uuid),
  ("varint", .varint), ("varint128", .varint128), ("uvarint", .uvarint), ("date", .date)]

def WireKind.ofMethod : Method → WireKind
  | .bool => .boolean
  | .string => .text
  | .u8 => .byte
  | .u16 => .fixed16
  | .u32 => .fixed32
  | .u64 => .fixed64
  | .limitedBytes => .bytes
  | .f32 => .float32
  | .f64 => .float64
  | .uuid => .uuid
  | .varint | .varint128 => .signedVarint
  | .uvarint => .unsignedVarint
  | .date => .millis

def scriptKinds : List (String × WireKind) := [
  ("Boolean", .boolean), ("String", .text), ("Byte", .byte), ("Uint16", .fixed16),
  ("Uint32", .fixed32), ("Uint64", .fixed64), ("LimitedBytes", .bytes), ("Float32", .float32),
  ("Float64", .float64), ("UUID", .uuid), ("SignedVarint", .signedVarint),
  ("UnsignedVarint", .unsignedVarint), ("Date", .millis)]

section calls

variable {α κ τ : Type} [DecidableEq κ] (calls : List (String × κ))

def primitiveOf (method : String) : Option (WireOp κ τ) := (calls.lookup method).map .primitive

def numberOf (number : κ) (v : α) (method : String) : Option α :=
  if calls.lookup method = some number then some v else none

end calls

inductive Statement (κ τ : Type) where
  | move (name : String) (op : WireOp κ τ)
  | count (bound : String)
  | loop (bound name : String) (op : WireOp κ τ)

theorem mapM_eq_some {α β : Type} {f : α → Option β} {g : α → β} {items : List α}
    (each : ∀ item ∈ items, f item = some (g item)) : items.mapM f = some (items.map g) := by
  induction items with
  | nil => rfl
  | cons item rest ih =>
    have more := ih fun other member => each other (List.mem_cons_of_mem _ member)
    rw [List.mapM_cons, each item (List.mem_cons_self ..), more]
    rfl

section statements

variable {κ τ : Type}

def fieldsOf : List (Statement κ τ) → Option (List (String × WireOp κ τ))
  | [] => some []
  | .move name op :: rest => (fieldsOf rest).map ((name, op) :: ·)
  | .count bound :: .loop again name op :: rest =>
    if bound = again then (fieldsOf rest).map ((name, .counted op) :: ·) else none
  | .count _ :: _ => none
  | .loop _ _ _ :: _ => none

def statements (read : Outline → Option (List (Statement κ τ))) :
    List Outline → Option (List (Statement κ τ))
  | [] => some []
  | piece :: rest => do return (← read piece) ++ (← statements read rest)

def statementsOf (kind : Builtin → κ) (target : String → τ) (bound name : String) (field : MessageField) :
    List (Statement κ τ) :=
  if field.isArray then [.count bound, .loop bound name (.ofType kind target field.type)]
  else [.move name (.ofType kind target field.type)]

theorem fieldsOf_statementsOf (kind : Builtin → κ) (target : String → τ) (bound name : String) (field : MessageField)
    (rest : List (Statement κ τ)) :
    fieldsOf (statementsOf kind target bound name field ++ rest) =
      (fieldsOf rest).map ((name, .ofField kind target field) :: ·) := by
  unfold statementsOf WireOp.ofField
  cases field.isArray with
  | false => rfl
  | true =>
    change (if bound = bound then _ else _) = _
    rw [if_pos rfl]
    rfl

theorem fieldsOf_flatMap (kind : Builtin → κ) (target : String → τ) (bound name : MessageField → String)
    (fields : List MessageField) :
    fieldsOf (fields.flatMap fun field => statementsOf kind target (bound field) (name field) field) =
      some (fields.map fun field => (name field, .ofField kind target field)) := by
  induction fields with
  | nil => rfl
  | cons field rest ih =>
    rw [List.flatMap_cons, fieldsOf_statementsOf, ih]
    rfl

variable {read : Outline → Option (List (Statement κ τ))}

theorem statements_singleton {piece : Outline} {found : List (Statement κ τ)}
    (here : read piece = some found) : statements read [piece] = some found := by
  rw [statements, here]
  exact congrArg some (List.append_nil found)

theorem statements_cons {piece : Outline} {rest : List Outline} {first more : List (Statement κ τ)}
    (here : read piece = some first) (there : statements read rest = some more) :
    statements read (piece :: rest) = some (first ++ more) := by
  rw [statements, here, there]
  rfl

theorem statements_append {front back : List Outline} {first more : List (Statement κ τ)}
    (here : statements read front = some first) (there : statements read back = some more) :
    statements read (front ++ back) = some (first ++ more) := by
  induction front generalizing first with
  | nil =>
    cases here
    exact there
  | cons piece front ih =>
    obtain ⟨start, began, here⟩ := Option.bind_eq_some_iff.mp here
    obtain ⟨others, went, here⟩ := Option.bind_eq_some_iff.mp here
    cases here
    rw [List.append_assoc]
    exact statements_cons began (ih went)

theorem statements_flatMap {α : Type} {items : List α} {pieces : α → List Outline}
    {found : α → List (Statement κ τ)}
    (each : ∀ item ∈ items, statements read (pieces item) = some (found item)) :
    statements read (items.flatMap pieces) = some (items.flatMap found) := by
  induction items with
  | nil => rfl
  | cons item rest ih =>
    rw [List.flatMap_cons, List.flatMap_cons]
    exact statements_append (each item (List.mem_cons_self ..))
      (ih fun other member => each other (List.mem_cons_of_mem _ member))

end statements

end BinaryCodec.Binding
