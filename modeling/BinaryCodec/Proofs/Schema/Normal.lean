import BinaryCodec.Proofs.Schema.Arrange
import BinaryCodec.Proofs.Schema.Reading

namespace BinaryCodec.Schema

open Buffer

variable {registry : Registry}

def Normal (registry : Registry) (schema : Schema) (v : Value) : Prop :=
  Representable registry schema v ∧ arrange registry schema v = v

def NormalField (registry : Registry) (field : Field) (v : Value) : Prop :=
  match field.skipped with
  | some given => v = given
  | none => Normal registry field.schema v

namespace Normal

variable {item : Schema} {items : List Value}

theorem leaf {schema : Schema} {v : Value} (leaf : schema.isLeaf = true)
    (holds : RepresentableLeaf schema v) : Normal registry schema v :=
  ⟨.leaf leaf holds, arrange_leaf leaf v⟩

theorem map_arrange (each : ∀ v ∈ items, Normal registry item v) :
    items.map (arrange registry item) = items :=
  (List.map_congr_left fun v member => (each v member).2).trans (List.map_id items)

theorem sequence {kind : SequenceKind} (bounded : items.length ≤ maxSize)
    (each : ∀ v ∈ items, Normal registry item v) :
    Normal registry (.sequence kind item) (.list items) := by
  refine ⟨.sequence bounded fun v member => (each v member).1, ?_⟩
  rw [arrange_sequence, map_arrange each]

theorem array {count : Nat} (counted : items.length = count)
    (each : ∀ v ∈ items, Normal registry item v) :
    Normal registry (.array count item) (.list items) := by
  refine ⟨.array counted fun v member => (each v member).1, ?_⟩
  rw [arrange_array, map_arrange each]

theorem set {order : KeyOrder} (bounded : items.length ≤ maxSize)
    (each : ∀ v ∈ items, Normal registry item v) :
    Normal registry (.set order item) (.setOf order items) := by
  let entries := Value.entriesOf order (items.map fun item => (item, Value.unit))
  have fewer : entries.length ≤ (items.map fun item => (item, Value.unit)).length :=
    Value.length_entriesOf_le
  have listed : order.relist Prod.fst entries = entries := Value.relist_entriesOf
  have among (k : Value) (member : k ∈ entries.map Prod.fst) : Normal registry item k := by
    obtain ⟨e, found, rfl⟩ := List.mem_map.mp member
    obtain ⟨v, given, rfl⟩ := List.mem_map.mp (Value.mem_entriesOf found)
    exact each v given
  rw [List.length_map] at fewer
  change Normal registry (.set order item) (.list (entries.map Prod.fst))
  refine ⟨.set ?_ ⟨Value.lists_entriesOf, fun k member => (among k member).2⟩ fun k member => (among k member).1, ?_⟩
  · rw [List.length_map]
    omega
  · rw [arrange_set, ← Value.map_relist, listed]

theorem map {order : KeyOrder} {key value : Schema} {entries : List (Value × Value)}
    (bounded : entries.length ≤ maxSize) (keys : ∀ e ∈ entries, Normal registry key e.1)
    (values : ∀ e ∈ entries, Normal registry value e.2) :
    Normal registry (.map order key value) (.mapOf order entries) := by
  let listed := Value.entriesOf order entries
  have among (e : Value × Value) (member : e ∈ listed) : e ∈ entries := Value.mem_entriesOf member
  have fewer : listed.length ≤ entries.length := Value.length_entriesOf_le
  have same : listed.map (fun e => (e.1, arrange registry value e.2)) = listed := by
    refine (List.map_congr_left fun e member => ?_).trans (List.map_id _)
    rw [(values e (among e member)).2]
    rfl
  change Normal registry (.map order key value) (.map listed)
  refine ⟨.map (by omega) ⟨Value.lists_entriesOf, fun k member => ?_⟩
    (fun e member => (keys e (among e member)).1)
    (fun e member => (values e (among e member)).1), ?_⟩
  · obtain ⟨e, found, rfl⟩ := List.mem_map.mp member
    exact (keys e (among e found)).2
  · rw [arrange_map, same, Value.relist_entriesOf]

theorem pointer {kind : PointerKind} {target : Schema} {v : Value}
    (pointed : Normal registry target v) : Normal registry (.pointer kind target) v := by
  refine ⟨.pointer pointed.1, ?_⟩
  rw [arrange_pointer, pointed.2]

theorem present {v : Value} (inner : Normal registry item v) :
    Normal registry (.option item) (.option (some v)) := by
  refine ⟨.present inner.1, ?_⟩
  rw [arrange_present, inner.2]

theorem tuple {schemas : List Schema} (paired : schemas.length = items.length)
    (each : ∀ p ∈ schemas.zip items, Normal registry p.1 p.2) :
    Normal registry (.tuple schemas) (.list items) := by
  refine ⟨.tuple paired fun p member => (each p member).1, ?_⟩
  rw [arrange_tuple paired, zipWith_of_same paired fun p member => (each p member).2]

section fields

variable {name : String} {fields : List Field} {values : List Value}

theorem skipped_of_fields (each : ∀ p ∈ fields.zip values, NormalField registry p.1 p.2) :
    ∀ p ∈ fields.zip values, ∀ given, p.1.skipped = some given → p.2 = given := by
  intro p member given skipped
  have normal := each p member
  rwa [NormalField, skipped] at normal

theorem each_of_fields (each : ∀ p ∈ fields.zip values, NormalField registry p.1 p.2) :
    ∀ p ∈ fields.zip values, p.1.skipped = none → Normal registry p.1.schema p.2 := by
  intro p member wired
  have normal := each p member
  rwa [NormalField, wired] at normal

theorem arrange_fields (each : ∀ p ∈ fields.zip values, NormalField registry p.1 p.2) :
    ∀ p ∈ fields.zip values, arrangeField registry p.1 p.2 = p.2 := by
  intro p member
  unfold arrangeField
  cases skipped : p.1.skipped with
  | some given => rfl
  | none => exact (each_of_fields each p member skipped).2

theorem record {shape : Shape} (declared : registry.shape? name = some shape)
    (found : shape.fields? = some fields) (paired : fields.length = values.length)
    (each : ∀ p ∈ fields.zip values, NormalField registry p.1 p.2) :
    Normal registry (.named name) (.record values) := by
  refine ⟨.record declared found paired (skipped_of_fields each)
    fun p member wired => (each_of_fields each p member wired).1, ?_⟩
  rw [arrange_record declared found paired, zipWith_of_same paired (arrange_fields each)]

theorem variant {variants : List Variant} {index : Nat} {variant : Variant}
    (declared : registry.shape? name = some (.enumeration variants))
    (found : variants[index]? = some variant) (bounded : index ≤ maxSize)
    (paired : variant.fields.length = values.length)
    (each : ∀ p ∈ variant.fields.zip values, NormalField registry p.1 p.2) :
    Normal registry (.named name) (.variant index values) := by
  refine ⟨.variant declared found bounded paired (skipped_of_fields each)
    fun p member wired => (each_of_fields each p member wired).1, ?_⟩
  rw [arrange_variant declared found paired, zipWith_of_same paired (arrange_fields each)]

theorem choice {names : List String} {index : Nat}
    (declared : registry.shape? name = some (.choices names)) (found : index < names.length)
    (bounded : index ≤ maxSize) : Normal registry (.named name) (.variant index []) :=
  ⟨.choice declared found bounded, arrange_choice declared index []⟩

end fields

end Normal

def leastSize (registry : Registry) (depth : Nat) (schema : Schema) : Nat :=
  minSizeWith (minSizeNamed registry depth) schema

def leastField (registry : Registry) (depth : Nat) (field : Field) : Nat :=
  match field.skipped with
  | some _ => 0
  | none => leastSize registry depth field.schema

theorem minSizeFields_cons (depth : Nat) (field : Field) (rest : List Field) :
    minSizeFields (minSizeNamed registry depth) (field :: rest) =
      leastField registry depth field + minSizeFields (minSizeNamed registry depth) rest := by
  rw [minSizeFields, leastField]
  cases field.skipped with
  | some given => exact (Nat.zero_add _).symm
  | none => rfl

def ReadsNormal (registry : Registry) (m : BufferM Value) (schema : Schema) : Prop :=
  Yields m fun v used => Normal registry schema v ∧ ∀ depth, leastSize registry depth schema ≤ used

section items

variable {read : BufferM Value} [Sequential read] {item : Schema}

theorem yields_readItems (reads : ReadsNormal registry read item) (count : Nat) :
    Yields (Message.readItems read count) fun vs used =>
      (vs.length = count ∧ ∀ v ∈ vs, Normal registry item v) ∧
        ∀ depth, count * leastSize registry depth item ≤ used := by
  induction count with
  | zero => exact .pure ⟨⟨rfl, by simp⟩, fun depth => by omega⟩
  | succ count ih =>
    rw [Message.readItems_succ]
    refine Yields.cons reads ih ?_
    rintro v n vs k ⟨normal, taken⟩ ⟨⟨rfl, each⟩, more⟩
    refine ⟨⟨rfl, List.forall_mem_cons.mpr ⟨normal, each⟩⟩, fun depth => ?_⟩
    have first := taken depth
    have rest := more depth
    rw [Nat.succ_mul]
    omega

theorem yields_readSequence (reads : ReadsNormal registry read item) (count : Nat) :
    Yields (readSequence item read count) fun vs used =>
      (vs.length = count ∧ ∀ v ∈ vs, Normal registry item v) ∧
        ∀ depth, count * leastSize registry depth item ≤ used := by
  cases byte : item.isByte with
  | false =>
    rw [readSequence_of_not_isByte byte]
    exact yields_readItems reads count
  | true =>
    obtain rfl := isByte_iff.mp byte
    rw [readSequence_of_isByte byte]
    refine (yields_readBytes count).map fun bytes used taken => ?_
    refine ⟨⟨by rw [numbers, List.length_map]; exact taken.1, fun v member => ?_⟩, fun depth => ?_⟩
    · obtain ⟨b, -, rfl⟩ := List.mem_map.mp member
      exact .leaf rfl ⟨b.toNat, rfl, holds_byte .u8 rfl b⟩
    · change count * 1 ≤ used
      omega

theorem readsNormal_counted {itemSize : Nat} {schema : Schema} {f : List Value → Value}
    (reads : ReadsNormal registry read item) (single : ∀ depth, leastSize registry depth schema = 1)
    (collects : ∀ vs, vs.length ≤ maxSize → (∀ v ∈ vs, Normal registry item v) →
      Normal registry schema (f vs)) :
    ReadsNormal registry (readLength itemSize >>= fun count => f <$> readSequence item read count)
      schema := by
  refine Yields.length fun count fits => (yields_readSequence reads count).map ?_
  rintro vs used ⟨⟨rfl, each⟩, -⟩ k positive
  refine ⟨collects vs (Word.le_last_iff.mpr fits) each, fun depth => ?_⟩
  rw [single]
  omega

end items

section fields

variable {declared : String → BufferM Value} [∀ name, Sequential (declared name)]

theorem yields_decodeAll {items : List Schema}
    (each : ∀ item ∈ items, ReadsNormal registry (decodeWith registry declared item) item) :
    Yields (decodeAll registry declared items) fun vs used =>
      (items.length = vs.length ∧ ∀ p ∈ items.zip vs, Normal registry p.1 p.2) ∧
        ∀ depth, minSizeAll (minSizeNamed registry depth) items ≤ used := by
  induction items with
  | nil =>
    rw [decodeAll]
    exact .pure ⟨⟨rfl, by simp⟩, fun depth => Nat.le_refl _⟩
  | cons item rest ih =>
    have more := ih fun item member => each item (List.mem_cons_of_mem _ member)
    rw [decodeAll_cons]
    refine Yields.cons (each item (List.mem_cons_self ..)) more ?_
    rintro v n vs k ⟨normal, taken⟩ ⟨⟨paired, others⟩, left⟩
    refine ⟨⟨congrArg Nat.succ paired, ?_⟩, fun depth => ?_⟩
    · rw [List.zip_cons_cons]
      exact List.forall_mem_cons.mpr ⟨normal, others⟩
    · exact Nat.add_le_add (taken depth) (left depth)

theorem yields_decodeFields {fields : List Field}
    (each : ∀ schema, ReadsNormal registry (decodeWith registry declared schema) schema) :
    Yields (decodeFields registry declared fields) fun vs used =>
      (fields.length = vs.length ∧ ∀ p ∈ fields.zip vs, NormalField registry p.1 p.2) ∧
        ∀ depth, minSizeFields (minSizeNamed registry depth) fields ≤ used := by
  induction fields with
  | nil => exact .pure ⟨⟨rfl, by simp⟩, fun depth => Nat.le_refl _⟩
  | cons field rest ih =>
    have first : Yields (readField registry declared field) fun v used =>
        NormalField registry field v ∧ ∀ depth, leastField registry depth field ≤ used := by
      unfold readField NormalField leastField
      cases field.skipped with
      | some given => exact .pure ⟨rfl, fun depth => Nat.le_refl 0⟩
      | none => exact each field.schema
    rw [decodeFields_cons]
    refine Yields.cons first ih ?_
    rintro v n vs k ⟨normal, taken⟩ ⟨⟨paired, others⟩, left⟩
    refine ⟨⟨congrArg Nat.succ paired, ?_⟩, fun depth => ?_⟩
    · rw [List.zip_cons_cons]
      exact List.forall_mem_cons.mpr ⟨normal, others⟩
    · rw [minSizeFields_cons]
      exact Nat.add_le_add (taken depth) (left depth)

end fields

section schemas

variable {declared : String → BufferM Value} [∀ name, Sequential (declared name)]

theorem readsNormal_decodeWith
    (named : ∀ name, ReadsNormal registry (declared name) (.named name)) (schema : Schema) :
    ReadsNormal registry (decodeWith registry declared schema) schema := by
  induction schema using inductionOn with
  | leaf schema leaf =>
    intro ending bytes v result
    refine ⟨.leaf leaf (yields_leaf leaf (fun _ => 0) ending bytes v result).1, fun depth => ?_⟩
    exact (yields_leaf leaf _ ending bytes v result).2
  | sequence kind item ih =>
    rw [decodeWith_sequence]
    exact readsNormal_counted ih (fun depth => rfl) fun vs => Normal.sequence
  | array count item ih =>
    rw [decodeWith_array]
    refine (yields_readSequence ih count).map ?_
    rintro vs used ⟨⟨counted, each⟩, taken⟩
    refine ⟨.array counted each, fun depth => ?_⟩
    have least := taken depth
    rwa [Nat.mul_comm] at least
  | set order item ih =>
    rw [decodeWith_set]
    exact readsNormal_counted ih (fun depth => rfl) fun vs => Normal.set
  | map order key value keyIh valueIh =>
    rw [decodeWith_map]
    refine Yields.length fun count fits => ?_
    refine (yields_readSequence keyIh count).bind fun keys used read => ?_
    refine (yields_readSequence valueIh count).map fun values more also k positive => ?_
    obtain ⟨⟨rfl, eachKey⟩, -⟩ := read
    obtain ⟨⟨paired, eachValue⟩, -⟩ := also
    refine ⟨.map ?_ ?_ ?_, fun depth => ?_⟩
    · rw [List.length_zip, paired, Nat.min_self]
      exact Word.le_last_iff.mpr fits
    · exact fun e member => eachKey e.1 (List.of_mem_zip member).1
    · exact fun e member => eachValue e.2 (List.of_mem_zip member).2
    · change 1 ≤ _
      omega
  | pointer kind target ih =>
    rw [decodeWith_pointer]
    exact ih.mono fun v used h => ⟨.pointer h.1, h.2⟩
  | option item ih =>
    rw [decodeWith_option]
    exact ih.map fun v used h => ⟨.present h.1, h.2⟩
  | tuple items ih =>
    rw [decodeWith_tuple]
    exact (yields_decodeAll ih).map fun vs used h => ⟨.tuple h.1.1 h.1.2, h.2⟩
  | named name =>
    rw [decodeWith_named]
    exact named name

end schemas

section declarations

variable {name : String} {fuel : Nat}

def leastShape (registry : Registry) (depth : Nat) : Shape → Nat
  | .record fields => minSizeFields (minSizeNamed registry depth) fields
  | .message steps => minSizeFields (minSizeNamed registry depth) (steps.map Step.toField)
  | .enumeration _ | .choices _ => 1

theorem leastSize_named_le {shape : Shape} {n : Nat} (found : registry.shape? name = some shape)
    (bound : ∀ depth, leastShape registry depth shape ≤ n) (depth : Nat) :
    leastSize registry depth (.named name) ≤ n := by
  cases depth with
  | zero => exact Nat.zero_le n
  | succ depth =>
    have least := bound depth
    rw [leastSize, minSizeWith, minSizeNamed, found]
    cases shape <;> exact least

theorem readsNormal_readChoice {names : List String}
    (found : registry.shape? name = some (.choices names)) :
    ReadsNormal registry (Message.readChoice names.length) (.named name) := by
  rw [Message.readChoice_eq]
  refine (yields_readUnsigned 64).bind fun index used read => .settle fun v result => ?_
  unfold Message.caseOf at result
  split at result
  · next inside =>
    cases result
    refine ⟨.choice found inside (Word.le_last_iff.mpr read.1), leastSize_named_le found fun _ => ?_⟩
    exact read.2
  · cases result

section messages

variable {message : String → BufferM Value} [∀ name, Sequential (message name)]

theorem readsNormal_decodeMove
    (named : ∀ name, ReadsNormal registry (message name) (.named name)) {move : Move}
    (known : move.Declared registry) :
    ReadsNormal registry (Message.decodeMove registry message move) move.schema := by
  rcases decodeMove_cases message known with
    ⟨name, names, schema, found, read⟩ | same
  · rw [schema, read]
    exact readsNormal_readChoice found
  · unfold ReadsNormal Yields
    rw [same]
    exact readsNormal_decodeWith named move.schema

theorem readsNormal_decodeStep
    (named : ∀ name, ReadsNormal registry (message name) (.named name)) {step : Step}
    (coherent : step.Coherent registry) :
    ReadsNormal registry (Message.decodeStep registry message step) step.schema := by
  have reads := readsNormal_decodeMove named coherent.read_declared
  rw [coherent.read_schema] at reads
  unfold Step.schema
  cases repeated : step.repeated with
  | false =>
    rw [Message.decodeStep_single repeated]
    exact reads
  | true =>
    rw [Message.decodeStep_repeated repeated]
    refine Yields.length fun count fits => (yields_readItems reads count).map ?_
    rintro vs used ⟨⟨rfl, each⟩, -⟩ k positive
    refine ⟨.sequence (Word.le_last_iff.mpr fits) each, fun depth => ?_⟩
    change 1 ≤ _
    omega

theorem yields_decodeSteps
    (named : ∀ name, ReadsNormal registry (message name) (.named name)) {steps : List Step}
    (coherent : ∀ step ∈ steps, step.Coherent registry) :
    Yields (Message.decodeSteps registry message steps) fun vs used =>
      ((steps.map Step.toField).length = vs.length ∧
        ∀ p ∈ (steps.map Step.toField).zip vs, NormalField registry p.1 p.2) ∧
        ∀ depth, minSizeFields (minSizeNamed registry depth) (steps.map Step.toField) ≤ used := by
  induction steps with
  | nil => exact .pure ⟨⟨rfl, by simp⟩, fun depth => Nat.le_refl _⟩
  | cons step rest ih =>
    have first := readsNormal_decodeStep named (coherent step (List.mem_cons_self ..))
    have more := ih fun step member => coherent step (List.mem_cons_of_mem _ member)
    rw [Message.decodeSteps_cons, List.map_cons]
    refine Yields.cons first more ?_
    rintro v n vs k ⟨normal, taken⟩ ⟨⟨paired, others⟩, left⟩
    refine ⟨⟨congrArg Nat.succ paired, ?_⟩, fun depth => ?_⟩
    · rw [List.zip_cons_cons]
      exact List.forall_mem_cons.mpr ⟨normal, others⟩
    · rw [minSizeFields_cons]
      exact Nat.add_le_add (taken depth) (left depth)

end messages

theorem readsNormal_decodeNamed (coherent : registry.Coherent) (fuel : Nat) (name : String) :
    ReadsNormal registry (decodeNamed registry fuel name) (.named name) := by
  induction fuel generalizing name with
  | zero => exact .throw _
  | succ fuel ih =>
    have each (schema : Schema) := readsNormal_decodeWith ih schema
    cases found : registry.shape? name with
    | none =>
      rw [decodeNamed_undeclared found]
      exact .throw _
    | some shape =>
      cases shape with
      | record fields =>
        rw [decodeNamed_record found]
        refine (yields_decodeFields each).map ?_
        rintro vs used ⟨⟨paired, normal⟩, taken⟩
        exact ⟨.record found rfl paired normal, leastSize_named_le found taken⟩
      | message steps =>
        rw [decodeNamed_message found]
        refine (yields_decodeSteps ih (coherent name steps found)).map ?_
        rintro vs used ⟨⟨paired, normal⟩, taken⟩
        exact ⟨.record found rfl paired normal, leastSize_named_le found taken⟩
      | choices names =>
        rw [decodeNamed_choices found]
        exact readsNormal_readChoice found
      | enumeration variants =>
        rw [decodeNamed_enumeration found]
        refine (yields_readUnsigned 64).bind fun index used read => ?_
        unfold readCase
        cases existing : variants[index]? with
        | none => exact .throw _
        | some variant =>
          refine (yields_decodeFields each).map ?_
          rintro vs more ⟨⟨paired, normal⟩, -⟩
          refine ⟨.variant found existing (Word.le_last_iff.mpr read.1) paired normal,
            leastSize_named_le found fun _ => ?_⟩
          change 1 ≤ _
          omega

theorem readsNormal_decode (coherent : registry.Coherent) (schema : Schema) :
    ReadsNormal registry (decode registry schema) schema := by
  rw [decode_eq]
  exact .unread fun n => readsNormal_decodeWith (readsNormal_decodeNamed coherent _) schema

end declarations

end BinaryCodec.Schema
