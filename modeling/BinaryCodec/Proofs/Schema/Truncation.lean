import BinaryCodec.Proofs.Buffer.Extension
import BinaryCodec.Proofs.Schema.RoundTrip
import Mathlib.Logic.Relation

namespace BinaryCodec.Schema

open Buffer

variable {registry : Registry}

inductive Component (registry : Registry) : Schema → Schema → Prop
  | sequence {kind : SequenceKind} {item : Schema} : Component registry (.sequence kind item) item
  | array {count : Nat} {item : Schema} : Component registry (.array count item) item
  | set {order : KeyOrder} {item : Schema} : Component registry (.set order item) item
  | key {order : KeyOrder} {key value : Schema} : Component registry (.map order key value) key
  | value {order : KeyOrder} {key value : Schema} : Component registry (.map order key value) value
  | pointer {kind : PointerKind} {target : Schema} : Component registry (.pointer kind target) target
  | option {item : Schema} : Component registry (.option item) item
  | tuple {items : List Schema} {item : Schema} (member : item ∈ items) :
      Component registry (.tuple items) item
  | field {name : String} {shape : Shape} {fields : List Field} {field : Field}
      (declared : registry.shape? name = some shape) (found : shape.fields? = some fields)
      (member : field ∈ fields) (wired : field.skipped = none) :
      Component registry (.named name) field.schema
  | caseField {name : String} {variants : List Variant} {variant : Variant} {field : Field}
      (declared : registry.shape? name = some (.enumeration variants)) (among : variant ∈ variants)
      (member : field ∈ variant.fields) (wired : field.skipped = none) :
      Component registry (.named name) field.schema

/-- A schema lies inside another one, or is the same. -/
abbrev Contains (registry : Registry) : Schema → Schema → Prop :=
  Relation.ReflTransGen (Component registry)

theorem not_contains_part {schema part target : Schema} (lacks : ¬Contains registry schema target)
    (component : Component registry schema part) : ¬Contains registry part target :=
  fun inside => lacks (.head component inside)

section items

variable {read later : BufferM Value} [Sequential read] [Sequential later] {item : Schema}

theorem outlasts_readItems (outlasts : Outlasts later read) (count : Nat) :
    Outlasts (Message.readItems later count) (Message.readItems read count) := by
  induction count with
  | zero => exact .pure []
  | succ count ih =>
    rw [Message.readItems_succ, Message.readItems_succ]
    exact outlasts.cons ih

theorem outlasts_readSequence (outlasts : Outlasts later read) (count : Nat) :
    Outlasts (readSequence item later count) (readSequence item read count) := by
  cases byte : item.isByte with
  | true =>
    rw [readSequence_of_isByte byte, readSequence_of_isByte byte]
    exact (stable_readBytes count).map _
  | false =>
    rw [readSequence_of_not_isByte byte, readSequence_of_not_isByte byte]
    exact outlasts_readItems outlasts count

theorem outlasts_counted {itemSize : Nat} {f : List Value → Value} (outlasts : Outlasts later read) :
    Outlasts (readLength itemSize >>= fun count => f <$> readSequence item later count)
      (readLength itemSize >>= fun count => f <$> readSequence item read count) :=
  (stable_readLength itemSize).bind fun count => (outlasts_readSequence outlasts count).map f

end items

section leaves

variable (type : IntType)

theorem stable_checkRange (n : Int) : Stable (checkRange type n) := by
  unfold checkRange
  split
  · exact .pure _
  · exact .throw _ _

theorem stable_readInteger : Stable (readInteger type) := by
  cases narrow : isSingleByte type with
  | true =>
    rw [readInteger_single type narrow]
    exact stable_readByte.map _
  | false =>
    rw [readInteger_eq type narrow]
    split
    · exact (stable_readSigned _).bind (stable_checkRange type)
    · exact (stable_readUnsigned _).bind fun n => stable_checkRange type n

theorem stable_readSingleChar : Stable readSingleChar := by
  rw [readSingleChar_eq]
  exact stable_readLimited.bind fun _ => .settle _

theorem outlasts_leaf {schema : Schema} (leaf : schema.isLeaf = true) (other : schema ≠ .cstring)
    (later declared : String → BufferM Value) :
    Outlasts (decodeWith registry later schema) (decodeWith registry declared schema) := by
  cases schema with
  | unit | phantom => exact .pure _
  | bool => exact stable_readBool.map _
  | integer type => exact stable_readInteger type
  | fixed order type => exact (stable_readFixed order type.width).map _
  | float order type => exact (stable_readFixed order type.width).map _
  | char => exact stable_readSingleChar
  | string => exact stable_readString.map _
  | fixedString width => exact (stable_readFixedString width).map _
  | cstring => exact absurd rfl other
  | bytes => exact stable_readLimited.map _
  | uuid => exact stable_readUuid.map _
  | time => exact stable_readTime.map _
  | date => exact stable_readDate.map _
  | unsupported target => exact .throw _ _
  | sequence | array | set | map | pointer | option | tuple | named => cases leaf

end leaves

section schemas

variable {declared later : String → BufferM Value} [∀ name, Sequential (declared name)]
  [∀ name, Sequential (later name)]

theorem outlasts_decodeAll {items : List Schema}
    (each : ∀ item ∈ items,
      Outlasts (decodeWith registry later item) (decodeWith registry declared item)) :
    Outlasts (decodeAll registry later items) (decodeAll registry declared items) := by
  induction items with
  | nil =>
    rw [decodeAll, decodeAll]
    exact .pure []
  | cons item rest ih =>
    have more := ih fun item member => each item (List.mem_cons_of_mem _ member)
    rw [decodeAll_cons, decodeAll_cons]
    exact (each item (List.mem_cons_self ..)).cons more

theorem outlasts_decodeFields {fields : List Field}
    (each : ∀ field ∈ fields, field.skipped = none →
      Outlasts (decodeWith registry later field.schema) (decodeWith registry declared field.schema)) :
    Outlasts (decodeFields registry later fields) (decodeFields registry declared fields) := by
  induction fields with
  | nil => exact .pure []
  | cons field rest ih =>
    have more := ih fun field member => each field (List.mem_cons_of_mem _ member)
    have first : Outlasts (readField registry later field) (readField registry declared field) := by
      unfold readField
      cases wired : field.skipped with
      | some given => exact .pure given
      | none => exact each field (List.mem_cons_self ..) wired
    rw [decodeFields_cons, decodeFields_cons]
    exact first.cons more

variable (named : ∀ name, ¬Contains registry (.named name) .cstring →
  Outlasts (later name) (declared name))
include named

theorem outlasts_decodeWith {schema : Schema} (lacks : ¬Contains registry schema .cstring) :
    Outlasts (decodeWith registry later schema) (decodeWith registry declared schema) := by
  induction schema using inductionOn with
  | leaf schema leaf =>
    refine outlasts_leaf leaf (fun same => lacks ?_) later declared
    exact same ▸ .refl
  | sequence kind item ih =>
    rw [decodeWith_sequence, decodeWith_sequence]
    exact outlasts_counted (ih (not_contains_part lacks .sequence))
  | array count item ih =>
    rw [decodeWith_array, decodeWith_array]
    exact (outlasts_readSequence (ih (not_contains_part lacks .array)) count).map _
  | set order item ih =>
    rw [decodeWith_set, decodeWith_set]
    exact outlasts_counted (ih (not_contains_part lacks .set))
  | map order key value keyIh valueIh =>
    have keys := keyIh (not_contains_part lacks .key)
    have values := valueIh (not_contains_part lacks .value)
    rw [decodeWith_map, decodeWith_map]
    apply (stable_readLength _).bind
    intro count
    apply (outlasts_readSequence keys count).bind
    intro read
    exact (outlasts_readSequence values count).map _
  | pointer kind target ih =>
    rw [decodeWith_pointer, decodeWith_pointer]
    exact ih (not_contains_part lacks .pointer)
  | option item ih =>
    rw [decodeWith_option, decodeWith_option]
    exact (ih (not_contains_part lacks .option)).map _
  | tuple items ih =>
    have each (item : Schema) (member : item ∈ items) :=
      ih item member (not_contains_part lacks (.tuple member))
    rw [decodeWith_tuple, decodeWith_tuple]
    exact (outlasts_decodeAll each).map _
  | named name =>
    rw [decodeWith_named, decodeWith_named]
    exact named name lacks

omit named in
theorem stable_readChoice (count : Nat) : Stable (Message.readChoice count) := by
  rw [Message.readChoice_eq]
  exact (stable_readUnsigned 64).bind fun _ => .settle _

theorem outlasts_decodeMove {move : Move} (known : move.Declared registry)
    (lacks : ¬Contains registry move.schema .cstring) :
    Outlasts (Message.decodeMove registry later move) (Message.decodeMove registry declared move) := by
  cases move with
  | call method =>
    have reads (names : String → BufferM Value) :
        outcome (Message.decodeMove registry names (.call method)) =
          outcome (decodeWith registry names method.schema) :=
      congrArg outcome (read_eq_decodeWith method)
    unfold Outlasts
    rw [reads later, reads declared]
    exact outlasts_decodeWith named lacks
  | message name => exact named name lacks
  | choice name => exact stable_readChoice _

theorem outlasts_decodeSteps {steps : List Step} (coherent : ∀ step ∈ steps, step.Coherent registry)
    (lacks : ∀ step ∈ steps, ¬Contains registry step.schema .cstring) :
    Outlasts (Message.decodeSteps registry later steps)
      (Message.decodeSteps registry declared steps) := by
  induction steps with
  | nil => exact .pure []
  | cons step rest ih =>
    have more := ih (fun step member => coherent step (List.mem_cons_of_mem _ member))
      fun step member => lacks step (List.mem_cons_of_mem _ member)
    have fits := coherent step (List.mem_cons_self ..)
    have plain := lacks step (List.mem_cons_self ..)
    rw [Message.decodeSteps_cons, Message.decodeSteps_cons]
    refine Outlasts.cons ?_ more
    unfold Step.schema at plain
    cases repeated : step.repeated with
    | false =>
      rw [repeated, ← fits.read_schema] at plain
      rw [Message.decodeStep_single repeated, Message.decodeStep_single repeated]
      exact outlasts_decodeMove named fits.read_declared plain
    | true =>
      rw [repeated, if_pos rfl, ← fits.read_schema] at plain
      have moves := outlasts_decodeMove named fits.read_declared (not_contains_part plain .sequence)
      rw [Message.decodeStep_repeated repeated, Message.decodeStep_repeated repeated]
      apply (stable_readLength _).bind
      intro count
      exact (outlasts_readItems moves count).map _

end schemas

section declarations

theorem outlasts_decodeNamed (coherent : registry.Coherent) {fuel more : Nat} (le : fuel ≤ more)
    {name : String} (lacks : ¬Contains registry (.named name) .cstring) :
    Outlasts (decodeNamed registry more name) (decodeNamed registry fuel name) := by
  induction fuel generalizing more name with
  | zero =>
    rw [decodeNamed]
    exact .throw _ _
  | succ fuel ih =>
    -- Each declaration that opens takes one from both numbers, so that the order stays.
    obtain ⟨left, rfl⟩ : ∃ left, more = left + 1 := ⟨more - 1, by omega⟩
    have named (name : String) (lacks : ¬Contains registry (.named name) .cstring) :=
      ih (Nat.le_of_succ_le_succ le) lacks
    cases found : registry.shape? name with
    | none =>
      rw [decodeNamed_undeclared found, decodeNamed_undeclared found]
      exact .throw _ _
    | some shape =>
      cases shape with
      | record fields =>
        rw [decodeNamed_record found, decodeNamed_record found]
        refine (outlasts_decodeFields fun field member wired => ?_).map _
        exact outlasts_decodeWith named (not_contains_part lacks (.field found rfl member wired))
      | message steps =>
        rw [decodeNamed_message found, decodeNamed_message found]
        refine (outlasts_decodeSteps named (coherent name steps found) fun step member => ?_).map _
        have line : step.toField ∈ steps.map Step.toField := List.mem_map.mpr ⟨step, member, rfl⟩
        exact not_contains_part lacks (.field found rfl line rfl)
      | choices names =>
        rw [decodeNamed_choices found, decodeNamed_choices found]
        exact stable_readChoice _
      | enumeration variants =>
        rw [decodeNamed_enumeration found, decodeNamed_enumeration found]
        apply (stable_readUnsigned 64).bind
        intro index
        unfold readCase
        cases existing : variants[index]? with
        | none => exact .throw _ _
        | some variant =>
          have among := List.mem_of_getElem? existing
          refine (outlasts_decodeFields fun field member wired => ?_).map _
          exact outlasts_decodeWith named
            (not_contains_part lacks (.caseField found among member wired))

theorem stable_decode (coherent : registry.Coherent) {schema : Schema}
    (lacks : ¬Contains registry schema .cstring) : Stable (decode registry schema) := by
  rw [decode_eq]
  apply Outlasts.unread
  intro m n longer
  have deeper : decodeDepth registry n ≤ decodeDepth registry m :=
    Nat.mul_le_mul_right _ (Nat.succ_le_succ longer)
  exact outlasts_decodeWith (fun name plain => outlasts_decodeNamed coherent deeper plain) lacks

variable {schema : Schema}

theorem not_decodes_front (coherent : registry.Coherent)
    (lacks : ¬Contains registry schema .cstring) {v : Value} (holds : Representable registry schema v)
    {front missing : List UInt8} (whole : (encode registry schema v).bytes = front ++ missing)
    (filled : missing ≠ []) (w : Value) (after : Buffer) :
    decode registry schema (.ofSlice front) ≠ .ok w after := by
  intro run
  have slice : (Buffer.ofSlice front).Delivers := True.intro
  obtain ⟨n, came, -⟩ := outcome_of_ok slice run
  rw [upcoming_ofSlice] at came
  have read : outcome (decode registry schema) .known front = ⟨.ok w, n⟩ := came
  have within : n ≤ front.length := by
    have used := Sequential.used_le (m := decode registry schema) .known front
    rwa [read] at used
  have longer := stable_decode coherent lacks .known front w n read missing
  -- But the whole encoding decodes to its last byte.
  have all := (holds.roundTrips coherent).decodes .known []
  rw [List.append_nil, whole, longer] at all
  have taken : n = (front ++ missing).length := congrArg Reading.used all
  have more := List.length_pos_iff.mpr filled
  rw [List.length_append] at taken
  omega

/-- Where no text that ends at the end of the data is inside a schema, decoding a slice answers the same
however many bytes follow, and no encoding decodes when bytes are missing at its end. -/
theorem decode_append (coherent : registry.Coherent) (lacks : ¬Contains registry schema .cstring) :
    (∀ bytes v n,
      (∃ after, decode registry schema (.ofSlice bytes) = .ok v after ∧
        after.store.readPosition = .ok n) →
      ∀ rest, ∃ after, decode registry schema (.ofSlice (bytes ++ rest)) = .ok v after ∧
        after.store.readPosition = .ok n) ∧
    (∀ v bytes, Representable registry schema v → marshal registry schema v = .ok bytes →
      ∀ front, front <+: bytes → front ≠ bytes →
        ∃ e, unmarshal registry schema front = .error e) := by
  have stable := stable_decode coherent lacks
  refine ⟨fun bytes v n answers rest => ?_, fun v bytes holds marshalled front cut shorter => ?_⟩
  · rw [answers_slice_iff] at answers ⊢
    exact stable .known bytes v n answers rest
  · obtain ⟨missing, rfl⟩ := cut
    have whole := (eq_bytes_of_marshal marshalled).symm
    have filled : missing ≠ [] := fun empty => shorter (by rw [empty, List.append_nil])
    cases run : decode registry schema (.ofSlice front) with
    | error e after => exact ⟨e, by rw [unmarshal, run]⟩
    | ok w after => exact absurd run (not_decodes_front coherent lacks holds whole filled w after)

def sensorParts : List Schema :=
  [.named "Sensor", .integer .u64, .string, .set .hashed (.fixed .little .u16),
    .fixed .little .u16, .named "Reading", .integer .i32]

theorem component_sensorParts {whole part : Schema} (inside : whole ∈ sensorParts)
    (component : Component sensors whole part) : part ∈ sensorParts := by
  have sensor : sensors.shape? "Sensor" = some (.record sensorFields) := rfl
  have reading : sensors.shape? "Reading" =
      some (.enumeration [⟨"Idle", []⟩, ⟨"Level", [⟨"0", .integer .i32, none⟩]⟩]) := rfl
  simp only [sensorParts, List.mem_cons, List.not_mem_nil, or_false] at inside
  rcases inside with rfl | rfl | rfl | rfl | rfl | rfl | rfl
  · cases component with
    | field declared found member wired =>
      cases sensor.symm.trans declared
      cases found
      simp only [sensorFields, List.mem_cons, List.not_mem_nil, or_false] at member
      rcases member with rfl | rfl | rfl | rfl | rfl <;> simp [sensorParts] at wired ⊢
    | caseField declared among member wired => cases sensor.symm.trans declared
  · cases component
  · cases component
  · cases component
    simp [sensorParts]
  · cases component
  · cases component with
    | field declared found member wired =>
      cases reading.symm.trans declared
      cases found
    | caseField declared among member wired =>
      cases reading.symm.trans declared
      simp only [List.mem_cons, List.not_mem_nil, or_false] at among
      rcases among with rfl | rfl
      · cases member
      · cases List.mem_singleton.mp member
        simp [sensorParts]
  · cases component

theorem not_contains_sensor : ¬Contains sensors (.named "Sensor") .cstring := by
  intro inside
  have among (part : Schema) (inside : Contains sensors (.named "Sensor") part) :
      part ∈ sensorParts := by
    induction inside with
    | refl => exact List.mem_cons_self ..
    | tail _ component ih => exact component_sensorParts ih component
  simpa [sensorParts] using among .cstring inside

/-- A sensor with a byte behind it, and one whose last byte is missing. -/
theorem decode_append_sensor :
    (∃ after, decode sensors (.named "Sensor")
        (.ofSlice ((encode sensors (.named "Sensor") sensor).bytes ++ [7])) = .ok sortedSensor after ∧
      after.store.readPosition = .ok 15) ∧
    ∃ e, unmarshal sensors (.named "Sensor")
      ((encode sensors (.named "Sensor") sensor).bytes.take 14) = .error e := by
  have length : (encode sensors (.named "Sensor") sensor).bytes.length = 15 := by decide +kernel
  have same := decode_append coherent_sensors not_contains_sensor
  have reads := decode_encode coherent_sensors representable_sensor []
  rw [List.append_nil, arrange_sensor, length] at reads
  have marshalled := marshal_eq coherent_sensors representable_sensor (by decide +kernel)
  have cut := List.take_prefix 14 (encode sensors (.named "Sensor") sensor).bytes
  have shorter : (encode sensors (.named "Sensor") sensor).bytes.take 14 ≠
      (encode sensors (.named "Sensor") sensor).bytes := by
    intro same
    have lengths := congrArg List.length same
    rw [List.length_take, length] at lengths
    omega
  exact ⟨same.1 _ _ _ reads [7], same.2 _ _ representable_sensor marshalled _ cut shorter⟩

end declarations

end BinaryCodec.Schema
