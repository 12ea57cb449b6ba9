import BinaryCodec.Proofs.Buffer.Text
import BinaryCodec.Proofs.Schema.Collection
import BinaryCodec.Schema.Decode

namespace BinaryCodec

namespace Schema

def isLeaf : Schema → Bool
  | .sequence _ _ | .array _ _ | .set _ _ | .map _ _ _ | .pointer _ _ | .option _ | .tuple _
  | .named _ => false
  | _ => true

@[elab_as_elim]
theorem inductionOn {motive : Schema → Prop} (schema : Schema)
    (leaf : ∀ schema, schema.isLeaf = true → motive schema)
    (sequence : ∀ kind item, motive item → motive (.sequence kind item))
    (array : ∀ count item, motive item → motive (.array count item))
    (set : ∀ order item, motive item → motive (.set order item))
    (map : ∀ order key value, motive key → motive value → motive (.map order key value))
    (pointer : ∀ kind target, motive target → motive (.pointer kind target))
    (option : ∀ item, motive item → motive (.option item))
    (tuple : ∀ items, (∀ item ∈ items, motive item) → motive (.tuple items))
    (named : ∀ name, motive (.named name)) : motive schema := by
  induction size : sizeOf schema using Nat.strongRecOn generalizing schema with
  | ind n ih =>
    have part (s : Schema) (smaller : sizeOf s < n) : motive s := ih _ smaller s rfl
    subst size
    cases schema with
    | sequence kind item => exact sequence kind item (part item (by simp +arith))
    | array count item => exact array count item (part item (by simp +arith))
    | set order item => exact set order item (part item (by simp +arith))
    | map order key value =>
      exact map order key value (part key (by simp +arith)) (part value (by simp +arith))
    | pointer kind target => exact pointer kind target (part target (by simp +arith))
    | option item => exact option item (part item (by simp +arith))
    | tuple items =>
      refine tuple items fun item member => part item ?_
      have smaller := List.sizeOf_lt_of_mem member
      simp only [Schema.tuple.sizeOf_spec]
      omega
    | named name => exact named name
    | _ => exact leaf _ rfl

theorem pointee_of_isLeaf {schema : Schema} (leaf : schema.isLeaf = true) :
    schema.pointee = schema := by
  cases schema <;> first | rfl | cases leaf

structure Demand where
  leaf : Schema → Value → Prop
  absent : Prop
  /-- Which values a field may have that is not on the wire, by the value that it is given when the
  record is read. -/
  skipped : (given value : Value) → Prop
  keys : KeyOrder → Schema → List Value → Prop

inductive Conforms (registry : Registry) (demand : Demand) : Schema → Value → Prop
  | leaf {schema : Schema} {v : Value} (leaf : schema.isLeaf = true) (holds : demand.leaf schema v) :
      Conforms registry demand schema v
  | sequence {kind : SequenceKind} {item : Schema} {items : List Value}
      (bounded : items.length ≤ maxSize) (each : ∀ v ∈ items, Conforms registry demand item v) :
      Conforms registry demand (.sequence kind item) (.list items)
  | array {count : Nat} {item : Schema} {items : List Value} (counted : items.length = count)
      (each : ∀ v ∈ items, Conforms registry demand item v) :
      Conforms registry demand (.array count item) (.list items)
  | set {order : KeyOrder} {item : Schema} {items : List Value} (bounded : items.length ≤ maxSize)
      (listed : demand.keys order item items) (each : ∀ v ∈ items, Conforms registry demand item v) :
      Conforms registry demand (.set order item) (.list items)
  | map {order : KeyOrder} {key value : Schema} {entries : List (Value × Value)}
      (bounded : entries.length ≤ maxSize) (listed : demand.keys order key (entries.map Prod.fst))
      (keys : ∀ e ∈ entries, Conforms registry demand key e.1)
      (values : ∀ e ∈ entries, Conforms registry demand value e.2) :
      Conforms registry demand (.map order key value) (.map entries)
  | pointer {kind : PointerKind} {target : Schema} {v : Value}
      (pointed : Conforms registry demand target v) :
      Conforms registry demand (.pointer kind target) v
  | absent {item : Schema} (allowed : demand.absent) :
      Conforms registry demand (.option item) (.option none)
  | present {item : Schema} {v : Value} (inner : Conforms registry demand item v) :
      Conforms registry demand (.option item) (.option (some v))
  | tuple {schemas : List Schema} {items : List Value} (paired : schemas.length = items.length)
      (each : ∀ p ∈ schemas.zip items, Conforms registry demand p.1 p.2) :
      Conforms registry demand (.tuple schemas) (.list items)
  | record {name : String} {shape : Shape} {fields : List Field} {values : List Value}
      (declared : registry.shape? name = some shape) (found : shape.fields? = some fields)
      (paired : fields.length = values.length)
      (skipped : ∀ p ∈ fields.zip values, ∀ given, p.1.skipped = some given →
        demand.skipped given p.2)
      (each : ∀ p ∈ fields.zip values, p.1.skipped = none →
        Conforms registry demand p.1.schema p.2) :
      Conforms registry demand (.named name) (.record values)
  | variant {name : String} {variants : List Variant} {index : Nat} {variant : Variant}
      {values : List Value} (declared : registry.shape? name = some (.enumeration variants))
      (found : variants[index]? = some variant) (bounded : index ≤ maxSize)
      (paired : variant.fields.length = values.length)
      (skipped : ∀ p ∈ variant.fields.zip values, ∀ given, p.1.skipped = some given →
        demand.skipped given p.2)
      (each : ∀ p ∈ variant.fields.zip values, p.1.skipped = none →
        Conforms registry demand p.1.schema p.2) :
      Conforms registry demand (.named name) (.variant index values)
  | choice {name : String} {names : List String} {index : Nat}
      (declared : registry.shape? name = some (.choices names)) (found : index < names.length)
      (bounded : index ≤ maxSize) :
      Conforms registry demand (.named name) (.variant index [])

theorem Conforms.mono {registry : Registry} {strong weak : Demand} {schema : Schema} {v : Value}
    (leaf : ∀ schema v, strong.leaf schema v → weak.leaf schema v)
    (absent : strong.absent → weak.absent)
    (skipped : ∀ given v, strong.skipped given v → weak.skipped given v)
    (keys : ∀ order item keys, strong.keys order item keys → weak.keys order item keys)
    (conforms : Conforms registry strong schema v) : Conforms registry weak schema v := by
  induction conforms with
  | leaf isLeaf holds => exact .leaf isLeaf (leaf _ _ holds)
  | sequence bounded each ih => exact .sequence bounded ih
  | array counted each ih => exact .array counted ih
  | set bounded listed each ih => exact .set bounded (keys _ _ _ listed) ih
  | map bounded listed keyed valued keyIh valueIh =>
    exact .map bounded (keys _ _ _ listed) keyIh valueIh
  | pointer pointed ih => exact .pointer ih
  | absent allowed => exact .absent (absent allowed)
  | present inner ih => exact .present ih
  | tuple paired each ih => exact .tuple paired ih
  | record declared found paired given each ih =>
    exact .record declared found paired
      (fun p member v wired => skipped v p.2 (given p member v wired)) ih
  | variant declared found bounded paired given each ih =>
    exact .variant declared found bounded paired
      (fun p member v wired => skipped v p.2 (given p member v wired)) ih
  | choice declared found bounded => exact .choice declared found bounded

def TypedLeaf (schema : Schema) (v : Value) : Prop :=
  match schema with
  | .unit | .phantom _ => v = .unit
  | .bool => ∃ b, v = .bool b
  | .integer type | .fixed _ type => ∃ n, v = .int n ∧ type.holds n = true
  | .float _ type => ∃ pattern, v = .float pattern ∧ pattern < Word.count (8 * type.width)
  | .char => ∃ c, v = .char c
  | .string => ∃ s, v = .text s ∧ Utf8.size s ≤ maxSize
  | .fixedString width => ∃ s, v = .text s ∧ width ≤ maxCapacity
  | .cstring => ∃ s, v = .text s
  | .bytes => ∃ bytes, v = .ofBytes bytes ∧ bytes.length ≤ maxSize
  | .uuid => ∃ id, v = .uuid id
  | .time | .date => ∃ t, v = .instant t
  | .unsupported _ => True
  | _ => False

def RepresentableLeaf (schema : Schema) (v : Value) : Prop :=
  match schema with
  | .fixedString width => ∃ s, v = .text s ∧ Buffer.FitsField width s ∧ width ≤ maxCapacity
  | .cstring => ∃ s, v = .text s ∧ '\x00' ∉ s.toList
  | .time => ∃ t, v = .instant t ∧ Buffer.IsTime t
  | .date => ∃ t, v = .instant t ∧ Buffer.IsDate t
  | .unsupported _ => False
  | schema => TypedLeaf schema v

def typed : Demand where
  leaf := TypedLeaf
  absent := True
  skipped _ _ := True
  keys _ _ _ := True

def HasType (registry : Registry) (schema : Schema) (v : Value) : Prop :=
  Conforms registry typed schema v

mutual

/-- The same value, with the members of all hash collections in ascending order of their keys. Keys
are left as they are. -/
def arrange (registry : Registry) (schema : Schema) (v : Value) : Value :=
  match schema.pointee, v with
  | .option item, .option (some inner) => .option (some (arrange registry item inner))
  | .sequence _ item, .list items => .list (arrangeEach registry item items)
  | .array _ item, .list items => .list (arrangeEach registry item items)
  | .set order _, .list items => .list (order.relist id items)
  | .tuple schemas, .list items => .list (arrangeTuple registry schemas items)
  | .map order _ value, .map entries =>
    .map (order.relist Prod.fst (arrangeValues registry value entries))
  | .named name, .record vs =>
    .record (arrangeFields registry (((registry.shape? name).bind Shape.fields?).getD []) vs)
  | .named name, .variant index vs =>
    match registry.shape? name with
    | some (.enumeration variants) =>
      .variant index (arrangeFields registry ((variants[index]?.map Variant.fields).getD []) vs)
    | _ => .variant index vs
  | _, v => v

def arrangeEach (registry : Registry) (item : Schema) : List Value → List Value
  | [] => []
  | v :: rest => arrange registry item v :: arrangeEach registry item rest

def arrangeTuple (registry : Registry) (schemas : List Schema) : List Value → List Value
  | [] => []
  | v :: rest =>
    match schemas with
    | [] => v :: rest
    | schema :: more => arrange registry schema v :: arrangeTuple registry more rest

def arrangeFields (registry : Registry) (fields : List Field) : List Value → List Value
  | [] => []
  | v :: rest =>
    match fields with
    | [] => v :: rest
    | field :: more =>
      match field.skipped with
      | some _ => v :: arrangeFields registry more rest
      | none => arrange registry field.schema v :: arrangeFields registry more rest

def arrangeValues (registry : Registry) (value : Schema) :
    List (Value × Value) → List (Value × Value)
  | [] => []
  | (k, v) :: rest => (k, arrange registry value v) :: arrangeValues registry value rest

end

/-- The values that an encoding stands for: nothing is absent, fields that are not on the wire have
the value that they are given, and no key holds a hash collection that is out of order. -/
def representable (registry : Registry) : Demand where
  leaf := RepresentableLeaf
  absent := False
  skipped given v := v = given
  keys order item keys := order.Lists keys ∧ ∀ k ∈ keys, arrange registry item k = k

def Representable (registry : Registry) (schema : Schema) (v : Value) : Prop :=
  Conforms registry (representable registry) schema v

theorem RepresentableLeaf.typed {schema : Schema} {v : Value} (holds : RepresentableLeaf schema v) :
    TypedLeaf schema v := by
  cases schema with
  | fixedString width =>
    obtain ⟨s, same, -, room⟩ := holds
    exact ⟨s, same, room⟩
  | cstring =>
    obtain ⟨s, same, -⟩ := holds
    exact ⟨s, same⟩
  | time | date =>
    obtain ⟨t, same, -⟩ := holds
    exact ⟨t, same⟩
  | unsupported => exact holds.elim
  | _ => exact holds

theorem Representable.hasType {registry : Registry} {schema : Schema} {v : Value}
    (holds : Representable registry schema v) : HasType registry schema v :=
  holds.mono (fun _ _ => RepresentableLeaf.typed) (fun _ => True.intro) (fun _ _ _ => True.intro)
    fun _ _ _ _ => True.intro

end Schema

/-- The schema that a call on a buffer moves a value of. -/
def Method.schema : Method → Schema
  | .bool => .bool
  | .string => .string
  | .u8 => .integer .u8
  | .u16 => .fixed .little .u16
  | .u32 => .fixed .little .u32
  | .u64 => .fixed .little .u64
  | .limitedBytes => .sequence .vector (.integer .u8)
  | .f32 => .float .little .f32
  | .f64 => .float .little .f64
  | .uuid => .uuid
  | .varint => .integer .i64
  | .uvarint => .integer .u64
  | .varint128 => .integer .i128
  | .date => .date

def Move.schema : Move → Schema
  | .call method => method.schema
  | .message name | .choice name => .named name

def Move.Declared (registry : Registry) : Move → Prop
  | .call _ => True
  | .message name => ∃ steps, registry.shape? name = some (.message steps)
  | .choice name => ∃ names, registry.shape? name = some (.choices names)

/-- Whether the statements of a field move values of its schema. -/
structure Step.Coherent (registry : Registry) (step : Step) : Prop where
  write_schema : step.write.schema = step.item
  read_schema : step.read.schema = step.item
  write_declared : step.write.Declared registry
  read_declared : step.read.Declared registry

/-- Whether the statements of all messages move values of the schemas of their fields, as those of the
schema compiler do. Nothing is asked of declarations that are not messages. -/
def Registry.Coherent (registry : Registry) : Prop :=
  ∀ name steps, registry.shape? name = some (.message steps) →
    ∀ step ∈ steps, step.Coherent registry

theorem Registry.coherent_of_forall {registry : Registry}
    (each : ∀ declaration ∈ registry, ∀ steps, declaration.2.shape = .message steps →
      ∀ step ∈ steps, step.Coherent registry) : registry.Coherent := by
  intro name steps declared
  obtain ⟨declaration, found, shape⟩ := Option.map_eq_some_iff.mp declared
  obtain ⟨front, back, rfl, -⟩ := List.lookup_eq_some_iff.mp found
  exact each (name, declaration) (by simp) steps shape

theorem Registry.coherent_of_derived {registry : Registry}
    (derived : ∀ declaration ∈ registry, ∀ steps, declaration.2.shape ≠ .message steps) :
    registry.Coherent :=
  coherent_of_forall fun declaration member steps shape =>
    absurd shape (derived declaration member steps)

end BinaryCodec
