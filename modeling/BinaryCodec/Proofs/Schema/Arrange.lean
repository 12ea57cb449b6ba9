import BinaryCodec.Proofs.Schema.Typing

namespace BinaryCodec

namespace Schema

variable {registry : Registry}

def arrangeField (registry : Registry) (field : Field) (v : Value) : Value :=
  match field.skipped with
  | some _ => v
  | none => arrange registry field.schema v

theorem arrangeEach_eq (item : Schema) (items : List Value) :
    arrangeEach registry item items = items.map (arrange registry item) := by
  induction items with
  | nil => rfl
  | cons v rest ih => rw [arrangeEach, ih, List.map_cons]

theorem arrangeValues_eq (value : Schema) (entries : List (Value × Value)) :
    arrangeValues registry value entries =
      entries.map fun e => (e.1, arrange registry value e.2) := by
  induction entries with
  | nil => rfl
  | cons e rest ih => rw [arrangeValues, ih, List.map_cons]

theorem arrangeTuple_eq {schemas : List Schema} {items : List Value}
    (paired : schemas.length = items.length) :
    arrangeTuple registry schemas items = List.zipWith (arrange registry) schemas items := by
  induction items generalizing schemas with
  | nil => cases schemas <;> rfl
  | cons v rest ih =>
    cases schemas with
    | nil => cases paired
    | cons schema more => rw [arrangeTuple, ih (Nat.succ.inj paired), List.zipWith_cons_cons]

theorem arrangeFields_eq {fields : List Field} {values : List Value}
    (paired : fields.length = values.length) :
    arrangeFields registry fields values =
      List.zipWith (arrangeField registry) fields values := by
  induction values generalizing fields with
  | nil => cases fields <;> rfl
  | cons v rest ih =>
    cases fields with
    | nil => cases paired
    | cons field more =>
      rw [arrangeFields, ih (Nat.succ.inj paired), List.zipWith_cons_cons, arrangeField]
      cases field.skipped <;> rfl

section kinds

theorem arrange_leaf {schema : Schema} (leaf : schema.isLeaf = true) (v : Value) :
    arrange registry schema v = v := by
  rw [arrange.eq_def, pointee_of_isLeaf leaf]
  cases schema <;> first | rfl | cases leaf

theorem arrange_pointer (kind : PointerKind) (target : Schema) (v : Value) :
    arrange registry (.pointer kind target) v = arrange registry target v := by
  rw [arrange.eq_def, arrange.eq_def]
  rfl

theorem arrange_present (item : Schema) (v : Value) :
    arrange registry (.option item) (.option (some v)) =
      .option (some (arrange registry item v)) := rfl

theorem arrange_sequence (kind : SequenceKind) (item : Schema) (items : List Value) :
    arrange registry (.sequence kind item) (.list items) =
      .list (items.map (arrange registry item)) := by
  rw [← arrangeEach_eq]
  rfl

theorem arrange_array (count : Nat) (item : Schema) (items : List Value) :
    arrange registry (.array count item) (.list items) =
      .list (items.map (arrange registry item)) := by
  rw [← arrangeEach_eq]
  rfl

theorem arrange_set (order : KeyOrder) (item : Schema) (items : List Value) :
    arrange registry (.set order item) (.list items) = .list (order.relist id items) := rfl

theorem arrange_map (order : KeyOrder) (key value : Schema) (entries : List (Value × Value)) :
    arrange registry (.map order key value) (.map entries) =
      .map (order.relist Prod.fst (entries.map fun e => (e.1, arrange registry value e.2))) := by
  rw [← arrangeValues_eq]
  rfl

theorem arrange_tuple {schemas : List Schema} {items : List Value}
    (paired : schemas.length = items.length) :
    arrange registry (.tuple schemas) (.list items) =
      .list (List.zipWith (arrange registry) schemas items) := by
  rw [← arrangeTuple_eq paired]
  rfl

theorem arrange_record {name : String} {shape : Shape} {fields : List Field} {values : List Value}
    (declared : registry.shape? name = some shape) (found : shape.fields? = some fields)
    (paired : fields.length = values.length) :
    arrange registry (.named name) (.record values) =
      .record (List.zipWith (arrangeField registry) fields values) := by
  have unfolded : arrange registry (.named name) (.record values) =
      .record (arrangeFields registry (((registry.shape? name).bind Shape.fields?).getD []) values) :=
    rfl
  rw [unfolded, declared, Option.bind_some, found, Option.getD_some, arrangeFields_eq paired]

theorem arrange_named_variant (name : String) (index : Nat) (values : List Value) :
    arrange registry (.named name) (.variant index values) =
      match registry.shape? name with
      | some (.enumeration variants) =>
        .variant index
          (arrangeFields registry ((variants[index]?.map Variant.fields).getD []) values)
      | _ => .variant index values := rfl

theorem arrange_variant {name : String} {variants : List Variant} {index : Nat} {variant : Variant}
    {values : List Value} (declared : registry.shape? name = some (.enumeration variants))
    (found : variants[index]? = some variant) (paired : variant.fields.length = values.length) :
    arrange registry (.named name) (.variant index values) =
      .variant index (List.zipWith (arrangeField registry) variant.fields values) := by
  rw [arrange_named_variant, declared, ← arrangeFields_eq paired]
  simp only [found, Option.map_some, Option.getD_some]

theorem arrange_choice {name : String} {names : List String}
    (declared : registry.shape? name = some (.choices names)) (index : Nat) (values : List Value) :
    arrange registry (.named name) (.variant index values) = .variant index values := by
  rw [arrange_named_variant, declared]

end kinds

theorem zipWith_of_same {α : Type} {f : α → Value → Value} {fields : List α} {values : List Value}
    (paired : fields.length = values.length) (each : ∀ p ∈ fields.zip values, f p.1 p.2 = p.2) :
    List.zipWith f fields values = values := by
  induction values generalizing fields with
  | nil => cases fields <;> rfl
  | cons v rest ih =>
    cases fields with
    | nil => cases paired
    | cons field more =>
      have first : f field v = v := each (field, v) (List.mem_cons_self ..)
      have others := ih (Nat.succ.inj paired) fun p member => each p (List.mem_cons_of_mem _ member)
      rw [List.zipWith_cons_cons, first, others]

section alike

/-- Whether a collection of this order may list its members as `others` too: those of a hash collection
in any order, those of another as they are. -/
def Relists {α : Type} (order : KeyOrder) (members others : List α) : Prop :=
  match order with
  | .hashed => members.Perm others
  | .sorted | .insertion => members = others

/-- The same value, where sets and maps are compared as sets and maps. -/
inductive Alike (registry : Registry) : Schema → Value → Value → Prop
  | leaf {schema : Schema} {v : Value} (leaf : schema.isLeaf = true) : Alike registry schema v v
  | sequence {kind : SequenceKind} {item : Schema} {items others : List Value}
      (paired : items.length = others.length)
      (each : ∀ p ∈ items.zip others, Alike registry item p.1 p.2) :
      Alike registry (.sequence kind item) (.list items) (.list others)
  | array {count : Nat} {item : Schema} {items others : List Value}
      (paired : items.length = others.length)
      (each : ∀ p ∈ items.zip others, Alike registry item p.1 p.2) :
      Alike registry (.array count item) (.list items) (.list others)
  | set {order : KeyOrder} {item : Schema} {items others : List Value}
      (listed : Relists order items others) :
      Alike registry (.set order item) (.list items) (.list others)
  | map {order : KeyOrder} {key value : Schema} {entries middle others : List (Value × Value)}
      (keys : entries.map Prod.fst = middle.map Prod.fst)
      (values : ∀ p ∈ entries.zip middle, Alike registry value p.1.2 p.2.2)
      (listed : Relists order middle others) :
      Alike registry (.map order key value) (.map entries) (.map others)
  | pointer {kind : PointerKind} {target : Schema} {v w : Value}
      (pointed : Alike registry target v w) : Alike registry (.pointer kind target) v w
  | absent {item : Schema} : Alike registry (.option item) (.option none) (.option none)
  | present {item : Schema} {v w : Value} (inner : Alike registry item v w) :
      Alike registry (.option item) (.option (some v)) (.option (some w))
  | tuple {schemas : List Schema} {items others : List Value} (paired : items.length = others.length)
      (each : ∀ p ∈ schemas.zip (items.zip others), Alike registry p.1 p.2.1 p.2.2) :
      Alike registry (.tuple schemas) (.list items) (.list others)
  | record {name : String} {shape : Shape} {fields : List Field} {values others : List Value}
      (declared : registry.shape? name = some shape) (found : shape.fields? = some fields)
      (paired : values.length = others.length)
      (skipped : ∀ p ∈ fields.zip (values.zip others), p.1.skipped.isSome → p.2.1 = p.2.2)
      (each : ∀ p ∈ fields.zip (values.zip others), p.1.skipped = none →
        Alike registry p.1.schema p.2.1 p.2.2) :
      Alike registry (.named name) (.record values) (.record others)
  | variant {name : String} {variants : List Variant} {index : Nat} {variant : Variant}
      {values others : List Value} (declared : registry.shape? name = some (.enumeration variants))
      (found : variants[index]? = some variant) (paired : values.length = others.length)
      (skipped : ∀ p ∈ variant.fields.zip (values.zip others), p.1.skipped.isSome → p.2.1 = p.2.2)
      (each : ∀ p ∈ variant.fields.zip (values.zip others), p.1.skipped = none →
        Alike registry p.1.schema p.2.1 p.2.2) :
      Alike registry (.named name) (.variant index values) (.variant index others)
  | choice {name : String} {names : List String} {index : Nat}
      (declared : registry.shape? name = some (.choices names)) :
      Alike registry (.named name) (.variant index []) (.variant index [])

theorem relists_relist {α : Type} (order : KeyOrder) (key : α → Value) (members : List α) :
    Relists order members (order.relist key members) := by
  cases order with
  | hashed => exact (List.mergeSort_perm members _).symm
  | sorted | insertion => rfl

theorem forall_zip_map {α : Type} {P : α → α → Prop} {f : α → α} {items : List α}
    (each : ∀ v ∈ items, P v (f v)) : ∀ p ∈ items.zip (items.map f), P p.1 p.2 := by
  induction items with
  | nil => simp
  | cons v rest ih =>
    rw [List.forall_mem_cons] at each
    rw [List.map_cons, List.zip_cons_cons, List.forall_mem_cons]
    exact ⟨each.1, ih each.2⟩

theorem forall_zip_zipWith {α : Type} {P : α → Value → Value → Prop} {f : α → Value → Value}
    {fields : List α} {values : List Value} (each : ∀ p ∈ fields.zip values, P p.1 p.2 (f p.1 p.2)) :
    ∀ p ∈ fields.zip (values.zip (List.zipWith f fields values)), P p.1 p.2.1 p.2.2 := by
  induction fields generalizing values with
  | nil => simp
  | cons field more ih =>
    cases values with
    | nil => simp
    | cons v rest =>
      rw [List.zip_cons_cons, List.forall_mem_cons] at each
      rw [List.zipWith_cons_cons, List.zip_cons_cons, List.zip_cons_cons, List.forall_mem_cons]
      exact ⟨each.1, ih each.2⟩

theorem length_zipWith_eq {α : Type} {f : α → Value → Value} {fields : List α} {values : List Value}
    (paired : fields.length = values.length) :
    values.length = (List.zipWith f fields values).length := by
  rw [List.length_zipWith]
  omega

theorem arrangeField_skipped {field : Field} (skipped : field.skipped.isSome) (v : Value) :
    v = arrangeField registry field v := by
  obtain ⟨given, skips⟩ := Option.isSome_iff_exists.mp skipped
  rw [arrangeField, skips]

theorem alike_arrangeField {field : Field} {v : Value}
    (alike : field.skipped = none → Alike registry field.schema v (arrange registry field.schema v))
    (wired : field.skipped = none) :
    Alike registry field.schema v (arrangeField registry field v) := by
  rw [arrangeField, wired]
  exact alike wired

theorem alike_arrange {schema : Schema} {v : Value} (typed : HasType registry schema v) :
    Alike registry schema v (arrange registry schema v) := by
  induction typed with
  | leaf leaf holds =>
    rw [arrange_leaf leaf]
    exact .leaf leaf
  | sequence bounded each ih =>
    rw [arrange_sequence]
    exact .sequence (List.length_map _).symm (forall_zip_map ih)
  | array counted each ih =>
    rw [arrange_array]
    exact .array (List.length_map _).symm (forall_zip_map ih)
  | set bounded listed each ih =>
    rw [arrange_set]
    exact .set (relists_relist _ _ _)
  | map bounded listed keyed valued keyIh valueIh =>
    rw [arrange_map]
    refine .map ?_ (forall_zip_map (P := fun d e : Value × Value => Alike registry _ d.2 e.2) valueIh)
      (relists_relist _ _ _)
    rw [List.map_map]
    rfl
  | pointer pointed ih =>
    rw [arrange_pointer]
    exact .pointer ih
  | absent allowed => exact .absent
  | present inner ih =>
    rw [arrange_present]
    exact .present ih
  | tuple paired each ih =>
    rw [arrange_tuple paired]
    exact .tuple (length_zipWith_eq paired) (forall_zip_zipWith ih)
  | record declared found paired given each ih =>
    rw [arrange_record declared found paired]
    exact .record declared found (length_zipWith_eq paired)
      (forall_zip_zipWith (P := fun field v w => field.skipped.isSome → v = w)
        fun p _ skipped => arrangeField_skipped skipped p.2)
      (forall_zip_zipWith
        (P := fun field v w => field.skipped = none → Alike registry field.schema v w)
        fun p member => alike_arrangeField (ih p member))
  | variant declared found bounded paired given each ih =>
    rw [arrange_variant declared found paired]
    exact .variant declared found (length_zipWith_eq paired)
      (forall_zip_zipWith (P := fun field v w => field.skipped.isSome → v = w)
        fun p _ skipped => arrangeField_skipped skipped p.2)
      (forall_zip_zipWith
        (P := fun field v w => field.skipped = none → Alike registry field.schema v w)
        fun p member => alike_arrangeField (ih p member))
  | choice declared found bounded =>
    rw [arrange_choice declared]
    exact .choice declared

end alike

end Schema

section sensors

def sensorFields : List Field :=
  [⟨"id", .integer .u64, none⟩, ⟨"label", .string, none⟩, ⟨"hits", .integer .u32, some (.int 0)⟩,
    ⟨"ports", .set .hashed (.fixed .little .u16), none⟩, ⟨"last", .named "Reading", none⟩]

def sensors : Registry :=
  [("Reading", ⟨"sensors::Reading",
      .enumeration [⟨"Idle", []⟩, ⟨"Level", [⟨"0", .integer .i32, none⟩]⟩]⟩),
    ("Sensor", ⟨"sensors::Sensor", .record sensorFields⟩),
    ("Ping", ⟨"sensors::Ping",
      .message [⟨"count", false, .call .uvarint, .call .uvarint, .integer .u64⟩]⟩)]

def sensor : Value :=
  .record [.int 300, .text "north", .int 0, .list [.int 80, .int 22], .variant 1 [.int (-5)]]

def sortedSensor : Value :=
  .record [.int 300, .text "north", .int 0, .list [.int 22, .int 80], .variant 1 [.int (-5)]]

theorem coherent_sensors : sensors.Coherent := by
  apply Registry.coherent_of_forall
  intro declaration member steps shape step among
  simp only [sensors, List.mem_cons, List.not_mem_nil, or_false] at member
  rcases member with rfl | rfl | rfl
  · cases shape
  · cases shape
  · cases shape
    cases List.mem_singleton.mp among
    exact ⟨rfl, rfl, True.intro, True.intro⟩

theorem representable_sensor : Schema.Representable sensors (.named "Sensor") sensor := by
  have declared : sensors.shape? "Sensor" = some (.record sensorFields) := rfl
  have port (n : Int) (holds : IntType.u16.holds n = true) :
      Schema.Representable sensors (.fixed .little .u16) (.int n) := .leaf rfl ⟨n, rfl, holds⟩
  have reading : Schema.Representable sensors (.named "Reading") (.variant 1 [.int (-5)]) := by
    refine .variant (show sensors.shape? "Reading" = some (.enumeration _) from rfl) rfl
      (by decide) rfl ?_ ?_
    · simp
    · simp only [List.zip_cons_cons, List.zip_nil_right, List.forall_mem_singleton]
      exact fun _ => .leaf rfl ⟨-5, rfl, by decide⟩
  refine .record declared rfl rfl ?_ ?_
  · simp [sensorFields, Schema.representable]
  · simp only [sensorFields, List.zip_cons_cons, List.zip_nil_right, List.forall_mem_cons]
    refine ⟨fun _ => .leaf rfl ⟨300, rfl, by decide⟩, fun _ => .leaf rfl ⟨"north", rfl, by decide⟩,
      by simp, fun _ => ?_, fun _ => reading, by simp⟩
    refine .set (by decide) ⟨?_, fun k member => ?_⟩ ?_
    · simp [KeyOrder.Lists]
    · exact Schema.arrange_leaf rfl k
    · simp only [List.forall_mem_cons]
      exact ⟨port 80 (by decide), port 22 (by decide), by simp⟩

theorem arrange_sensor : Schema.arrange sensors (.named "Sensor") sensor = sortedSensor := by
  have declared : sensors.shape? "Sensor" = some (.record sensorFields) := rfl
  have lists : KeyOrder.hashed.Lists [Value.int 80, Value.int 22] := by simp [KeyOrder.Lists]
  have ports : KeyOrder.hashed.relist id [Value.int 80, Value.int 22] = [.int 22, .int 80] :=
    (Value.list.inj (Value.setOf_eq lists)).symm
  rw [sensor, Schema.arrange_record declared rfl rfl]
  simp only [sensorFields, List.zipWith_cons_cons, List.zipWith_nil_right, Schema.arrangeField,
    Schema.arrange_set, ports]
  rfl

end sensors

end BinaryCodec
