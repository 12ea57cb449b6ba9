import BinaryCodec.Proofs.Schema.Output
import BinaryCodec.Proofs.Schema.Typing

namespace BinaryCodec

namespace Schema

variable {registry : Registry}

section encode

theorem encode_leaf {schema : Schema} (leaf : schema.isLeaf = true) (v : Value) :
    encode registry schema v = leafOutput registry schema v := by
  rw [encode.eq_def, pointee_of_isLeaf leaf]
  cases schema <;> first | rfl | cases leaf

theorem encode_pointer (kind : PointerKind) (target : Schema) (v : Value) :
    encode registry (.pointer kind target) v = encode registry target v := by
  rw [encode.eq_def, encode.eq_def]
  rfl

theorem encode_present (item : Schema) (v : Value) :
    encode registry (.option item) (.option (some v)) = encode registry item v := rfl

theorem encode_sequence (kind : SequenceKind) (item : Schema) (items : List Value) :
    encode registry (.sequence kind item) (.list items) = Output.unsigned items.length ++
      (if item.isByte then .piece (items.map Value.toByte) else encodeEach registry item items) := rfl

theorem encode_array (count : Nat) (item : Schema) (items : List Value) :
    encode registry (.array count item) (.list items) =
      if item.isByte then .piece (items.map Value.toByte) else encodeEach registry item items := rfl

theorem encode_set (order : KeyOrder) (item : Schema) (items : List Value) :
    encode registry (.set order item) (.list items) =
      Output.unsigned items.length ++ encodeEach registry item items := rfl

theorem encode_map (order : KeyOrder) (key value : Schema) (entries : List (Value × Value)) :
    encode registry (.map order key value) (.map entries) = Output.unsigned entries.length ++
      encodeKeys registry key entries ++ encodeValues registry value entries := rfl

theorem encode_tuple (schemas : List Schema) (items : List Value) :
    encode registry (.tuple schemas) (.list items) = encodeTuple registry schemas items := rfl

theorem encode_named_record (name : String) (values : List Value) :
    encode registry (.named name) (.record values) =
      match registry.shape? name with
      | some (.record fields) => encodeFields registry fields values
      | some (.message steps) => Message.encodeSteps registry steps values
      | _ => .none := rfl

theorem encode_named_variant (name : String) (index : Nat) (values : List Value) :
    encode registry (.named name) (.variant index values) =
      match registry.shape? name with
      | some (.enumeration variants) => Output.unsigned index ++
        encodeFields registry ((variants[index]?.map Variant.fields).getD []) values
      | some (.choices _) => .unsigned index
      | _ => .none := rfl

theorem encode_record {name : String} {fields : List Field}
    (declared : registry.shape? name = some (.record fields)) (values : List Value) :
    encode registry (.named name) (.record values) = encodeFields registry fields values := by
  rw [encode_named_record, declared]

theorem encode_message {name : String} {steps : List Step}
    (declared : registry.shape? name = some (.message steps)) (values : List Value) :
    encode registry (.named name) (.record values) = Message.encodeSteps registry steps values := by
  rw [encode_named_record, declared]

theorem encode_variant {name : String} {variants : List Variant} {index : Nat} {variant : Variant}
    (declared : registry.shape? name = some (.enumeration variants))
    (found : variants[index]? = some variant) (values : List Value) :
    encode registry (.named name) (.variant index values) =
      Output.unsigned index ++ encodeFields registry variant.fields values := by
  rw [encode_named_variant, declared]
  simp only [found, Option.map_some, Option.getD_some]

theorem encode_choice {name : String} {names : List String}
    (declared : registry.shape? name = some (.choices names)) (index : Nat) (values : List Value) :
    encode registry (.named name) (.variant index values) = .unsigned index := by
  rw [encode_named_variant, declared]

end encode

section messages

theorem write_eq_encode (method : Method) (v : Value) :
    method.write v = encode registry method.schema v := by
  rw [encode.eq_def]
  cases method with
  | limitedBytes =>
    cases v with
    | list items =>
      change Output.limited (items.map Value.toByte) = _
      rw [Output.limited, List.length_map]
      rfl
    | option inner => cases inner <;> rfl
    | _ => rfl
  | _ => cases v <;> rfl

theorem encodeMove_eq {move : Move} (declared : move.Declared registry) (v : Value) :
    Message.encodeMove registry move v = encode registry move.schema v := by
  rw [Message.encodeMove.eq_def]
  cases move with
  | call method => exact write_eq_encode method v
  | message name =>
    obtain ⟨steps, found⟩ := declared
    rw [encode.eq_def]
    cases v with
    | record values => simp only [Registry.steps?, Move.schema, Schema.pointee, found, Option.getD_some]
    | variant index values => simp only [Move.schema, Schema.pointee, found]
    | option inner => cases inner <;> rfl
    | _ => rfl
  | choice name =>
    obtain ⟨names, found⟩ := declared
    rw [encode.eq_def]
    cases v with
    | record values => simp only [Move.schema, Schema.pointee, found]
    | variant index values => simp only [Move.schema, Schema.pointee, found]
    | option inner => cases inner <;> rfl
    | _ => rfl

theorem encodeItems_eq {move : Move} (declared : move.Declared registry) (items : List Value) :
    Message.encodeItems registry move items = encodeEach registry move.schema items := by
  induction items with
  | nil => rfl
  | cons v rest ih => rw [Message.encodeItems, encodeEach, encodeMove_eq declared, ih]

theorem same_items {item : Schema} {items : List Value}
    (typed : ∀ v ∈ items, HasType registry item v) :
    (if item.isByte then Output.piece (items.map Value.toByte)
      else encodeEach registry item items).Same (encodeEach registry item items) := by
  cases byte : item.isByte with
  | false => exact .refl _
  | true =>
    have single : item = .integer .u8 := by
      unfold isByte at byte
      split at byte
      · rfl
      · cases byte
    subst single
    rw [if_pos rfl]
    induction items with
    | nil => exact ⟨rfl, rfl⟩
    | cons v rest ih =>
      have each := ih fun w member => typed w (List.mem_cons_of_mem _ member)
      have first : (Output.piece [v.toByte]).Same (encode registry (.integer .u8) v) := by
        cases typed v (List.mem_cons_self ..) with
        | leaf _ holds =>
          obtain ⟨n, rfl, holds⟩ := holds
          have whole := Word.wrap_of_holdsUnsigned holds
          have same : n.toNat = Word.wrap 8 n := by
            change (Word.wrap 8 n : Int) = n at whole
            omega
          rw [encode_leaf rfl]
          change (Output.piece [UInt8.ofNat n.toNat]).Same (.piece [UInt8.ofNat (Word.wrap 8 n)])
          rw [same]
          exact .refl _
      have split : (Output.piece ((v :: rest).map Value.toByte)).Same
          (Output.piece [v.toByte] ++ Output.piece (rest.map Value.toByte)) := by
        refine ⟨?_, rfl⟩
        rw [Output.bytes_append rfl, Output.bytes_piece, Output.bytes_piece, Output.bytes_piece]
        rfl
      exact split.trans (first.append each)

def encodeStep (registry : Registry) (step : Step) (v : Value) : Output :=
  match step.repeated, v with
  | true, .list items =>
    Output.unsigned items.length ++ Message.encodeItems registry step.write items
  | true, _ => .none
  | false, v => Message.encodeMove registry step.write v

theorem encodeSteps_cons (step : Step) (steps : List Step) (v : Value) (rest : List Value) :
    Message.encodeSteps registry (step :: steps) (v :: rest) =
      encodeStep registry step v ++ Message.encodeSteps registry steps rest := by
  rw [Message.encodeSteps.eq_def]
  rfl

theorem same_encodeStep {step : Step} (coherent : step.Coherent registry) {v : Value}
    (typed : HasType registry step.schema v) :
    (encodeStep registry step v).Same (encode registry step.schema v) := by
  obtain ⟨name, repeated, write, read, item⟩ := step
  obtain ⟨moves, -, declared, -⟩ := coherent
  cases repeated with
  | false =>
    change (Message.encodeMove registry write v).Same (encode registry item v)
    rw [encodeMove_eq declared, moves]
    exact .refl _
  | true =>
    cases typed with
    | leaf leaf _ => cases leaf
    | sequence bounded each =>
      refine Output.Same.trans ?_ (.of_eq (encode_sequence .vector item _).symm)
      apply (Output.Same.refl (Output.unsigned _)).append
      rw [encodeItems_eq declared, moves]
      exact (same_items each).symm

theorem same_encodeSteps {steps : List Step} (coherent : ∀ step ∈ steps, step.Coherent registry)
    {values : List Value} (paired : steps.length = values.length)
    (typed : ∀ p ∈ steps.zip values, HasType registry p.1.schema p.2) :
    (Message.encodeSteps registry steps values).Same
      (encodeFields registry (steps.map Step.toField) values) := by
  induction steps generalizing values with
  | nil =>
    cases values with
    | nil => exact .refl _
    | cons v rest => cases paired
  | cons step steps ih =>
    cases values with
    | nil => cases paired
    | cons v rest =>
      have first := same_encodeStep (coherent step (List.mem_cons_self ..))
        (typed (step, v) (List.mem_cons_self ..))
      have more := ih (fun step member => coherent step (List.mem_cons_of_mem _ member))
        (Nat.succ.inj paired) fun p member => typed p (List.mem_cons_of_mem _ member)
      rw [encodeSteps_cons]
      exact first.append more

theorem same_encode_record (coherent : registry.Coherent) {name : String} {shape : Shape}
    {fields : List Field} (declared : registry.shape? name = some shape)
    (found : shape.fields? = some fields) {values : List Value}
    (paired : fields.length = values.length)
    (typed : ∀ p ∈ fields.zip values, p.1.skipped = none → HasType registry p.1.schema p.2) :
    (encode registry (.named name) (.record values)).Same (encodeFields registry fields values) := by
  cases shape with
  | record others =>
    cases found
    rw [encode_record declared]
    exact .refl _
  | message steps =>
    cases found
    rw [encode_message declared]
    rw [List.length_map] at paired
    apply same_encodeSteps (coherent name steps declared) paired
    intro p member
    refine typed (p.1.toField, p.2) ?_ rfl
    rw [List.zip_map_left]
    exact List.mem_map.mpr ⟨p, member, rfl⟩
  | enumeration variants => cases found
  | choices names => cases found

end messages

section parts

def wireParts (fields : List Field) (values : List Value) : List (Schema × Value) :=
  (fields.zip values).filterMap fun p =>
    match p.1.skipped with
    | some _ => none
    | none => some (p.1.schema, p.2)

inductive Layout (registry : Registry) : Schema → Value → List UInt8 → List (Schema × Value) → Prop
  | sequence {kind : SequenceKind} {item : Schema} {items : List Value} :
      Layout registry (.sequence kind item) (.list items) (Varint.encodeUnsigned items.length)
        (items.map fun v => (item, v))
  | array {count : Nat} {item : Schema} {items : List Value} :
      Layout registry (.array count item) (.list items) [] (items.map fun v => (item, v))
  | set {order : KeyOrder} {item : Schema} {items : List Value} :
      Layout registry (.set order item) (.list items) (Varint.encodeUnsigned items.length)
        (items.map fun v => (item, v))
  | map {order : KeyOrder} {key value : Schema} {entries : List (Value × Value)} :
      Layout registry (.map order key value) (.map entries) (Varint.encodeUnsigned entries.length)
        ((entries.map fun e => (key, e.1)) ++ entries.map fun e => (value, e.2))
  | tuple {schemas : List Schema} {items : List Value} :
      Layout registry (.tuple schemas) (.list items) [] (schemas.zip items)
  | record {name : String} {shape : Shape} {fields : List Field} {values : List Value}
      (declared : registry.shape? name = some shape) (found : shape.fields? = some fields) :
      Layout registry (.named name) (.record values) [] (wireParts fields values)
  | variant {name : String} {variants : List Variant} {index : Nat} {variant : Variant}
      {values : List Value} (declared : registry.shape? name = some (.enumeration variants))
      (found : variants[index]? = some variant) :
      Layout registry (.named name) (.variant index values) (Varint.encodeUnsigned index)
        (wireParts variant.fields values)
  | choice {name : String} {names : List String} {index : Nat} {values : List Value}
      (declared : registry.shape? name = some (.choices names)) :
      Layout registry (.named name) (.variant index values) (Varint.encodeUnsigned index) []

def encodeParts (registry : Registry) : List (Schema × Value) → Output
  | [] => .none
  | part :: rest => encode registry part.1 part.2 ++ encodeParts registry rest

def sizeParts (registry : Registry) (total : Nat) : List (Schema × Value) → Except Error Nat
  | [] => .ok total
  | part :: rest => do
    let total ← addSizes total (← encodedSize registry part.1 part.2)
    sizeParts registry total rest

theorem wireParts_cons (field : Field) (fields : List Field) (v : Value) (values : List Value) :
    wireParts (field :: fields) (v :: values) =
      match field.skipped with
      | some _ => wireParts fields values
      | none => (field.schema, v) :: wireParts fields values := by
  unfold wireParts
  rw [List.zip_cons_cons, List.filterMap_cons]
  cases field.skipped <;> rfl

theorem mem_wireParts {fields : List Field} {values : List Value} {part : Schema × Value}
    (member : part ∈ wireParts fields values) :
    ∃ p ∈ fields.zip values, p.1.skipped = none ∧ part = (p.1.schema, p.2) := by
  obtain ⟨p, among, found⟩ := List.mem_filterMap.mp member
  cases skipped : p.1.skipped with
  | some given =>
    rw [skipped] at found
    cases found
  | none =>
    rw [skipped] at found
    cases found
    exact ⟨p, among, skipped, rfl⟩

theorem encodeParts_append (front back : List (Schema × Value)) :
    encodeParts registry (front ++ back) = encodeParts registry front ++ encodeParts registry back := by
  induction front with
  | nil =>
    change _ = Output.append .none (encodeParts registry back)
    simp [Output.append, Output.none]
  | cons part rest ih => rw [List.cons_append, encodeParts, encodeParts, ih, Output.append_assoc]

theorem sizeParts_append (total : Nat) (front back : List (Schema × Value)) :
    sizeParts registry total (front ++ back) =
      sizeParts registry total front >>= fun total => sizeParts registry total back := by
  induction front generalizing total with
  | nil => rfl
  | cons part rest ih => simp only [List.cons_append, sizeParts, ih, bind_assoc]

section encode

theorem encodeEach_eq (item : Schema) (items : List Value) :
    encodeEach registry item items = encodeParts registry (items.map fun v => (item, v)) := by
  induction items with
  | nil => rfl
  | cons v rest ih => rw [encodeEach, List.map_cons, encodeParts, ih]

theorem encodeTuple_eq (schemas : List Schema) (items : List Value) :
    encodeTuple registry schemas items = encodeParts registry (schemas.zip items) := by
  induction items generalizing schemas with
  | nil => cases schemas <;> rfl
  | cons v rest ih =>
    cases schemas with
    | nil => rfl
    | cons schema more => rw [encodeTuple, List.zip_cons_cons, encodeParts, ih]

theorem encodeFields_eq (fields : List Field) (values : List Value) :
    encodeFields registry fields values = encodeParts registry (wireParts fields values) := by
  induction values generalizing fields with
  | nil => cases fields <;> rfl
  | cons v rest ih =>
    cases fields with
    | nil => rfl
    | cons field more =>
      rw [encodeFields, wireParts_cons]
      cases field.skipped with
      | some given => exact ih more
      | none =>
        simp only [encodeParts]
        rw [ih]

theorem encodeKeys_eq (key : Schema) (entries : List (Value × Value)) :
    encodeKeys registry key entries = encodeParts registry (entries.map fun e => (key, e.1)) := by
  induction entries with
  | nil => rfl
  | cons e rest ih => rw [encodeKeys, List.map_cons, encodeParts, ih]

theorem encodeValues_eq (value : Schema) (entries : List (Value × Value)) :
    encodeValues registry value entries =
      encodeParts registry (entries.map fun e => (value, e.2)) := by
  induction entries with
  | nil => rfl
  | cons e rest ih => rw [encodeValues, List.map_cons, encodeParts, ih]

end encode

section size

variable (total : Nat)

theorem sizeEach_eq (item : Schema) (items : List Value) :
    sizeEach registry item total items =
      sizeParts registry total (items.map fun v => (item, v)) := by
  induction items generalizing total with
  | nil => rfl
  | cons v rest ih => simp only [sizeEach, List.map_cons, sizeParts, ih]

theorem sizeTuple_eq (schemas : List Schema) (items : List Value) :
    sizeTuple registry total schemas items = sizeParts registry total (schemas.zip items) := by
  induction items generalizing total schemas with
  | nil => cases schemas <;> rfl
  | cons v rest ih =>
    cases schemas with
    | nil => rfl
    | cons schema more => simp only [sizeTuple, List.zip_cons_cons, sizeParts, ih]

theorem sizeFields_eq (fields : List Field) (values : List Value) :
    sizeFields registry total fields values =
      sizeParts registry total (wireParts fields values) := by
  induction values generalizing total fields with
  | nil => cases fields <;> rfl
  | cons v rest ih =>
    cases fields with
    | nil => rfl
    | cons field more =>
      rw [sizeFields, wireParts_cons]
      cases field.skipped with
      | some given => exact ih total more
      | none => simp only [sizeParts, ih]

theorem sizeKeys_eq (key : Schema) (entries : List (Value × Value)) :
    sizeKeys registry key total entries =
      sizeParts registry total (entries.map fun e => (key, e.1)) := by
  induction entries generalizing total with
  | nil => rfl
  | cons e rest ih => simp only [sizeKeys, List.map_cons, sizeParts, ih]

theorem sizeValues_eq (value : Schema) (entries : List (Value × Value)) :
    sizeValues registry value total entries =
      sizeParts registry total (entries.map fun e => (value, e.2)) := by
  induction entries generalizing total with
  | nil => rfl
  | cons e rest ih => simp only [sizeValues, List.map_cons, sizeParts, ih]

end size

variable {schema : Schema} {v : Value} {front : List UInt8} {parts : List (Schema × Value)}

theorem Layout.encode_same (coherent : registry.Coherent)
    (layout : Layout registry schema v front parts) (typed : HasType registry schema v) :
    (encode registry schema v).Same (Output.piece front ++ encodeParts registry parts) := by
  cases layout with
  | sequence =>
    cases typed with
    | leaf leaf _ => cases leaf
    | sequence bounded each =>
      rw [encode_sequence, ← encodeEach_eq]
      exact (Output.Same.refl _).append (same_items each)
  | array =>
    cases typed with
    | leaf leaf _ => cases leaf
    | array counted each =>
      rw [encode_array, ← encodeEach_eq]
      exact (same_items each).trans (.piece_nil _)
  | set =>
    rw [encode_set, ← encodeEach_eq]
    exact .refl _
  | map =>
    rw [encode_map, encodeParts_append, ← encodeKeys_eq, ← encodeValues_eq, Output.append_assoc]
    exact .refl _
  | tuple =>
    rw [encode_tuple, ← encodeTuple_eq]
    exact .piece_nil _
  | record declared found =>
    cases typed with
    | leaf leaf _ => cases leaf
    | record again same paired skipped each =>
      cases declared.symm.trans again
      cases found.symm.trans same
      rw [← encodeFields_eq]
      exact (same_encode_record coherent declared found paired each).trans (.piece_nil _)
  | variant declared found =>
    rw [encode_variant declared found, ← encodeFields_eq]
    exact .refl _
  | choice declared =>
    rw [encode_choice declared]
    exact .of_eq Output.append_none.symm

theorem Layout.encodedSize_eq (layout : Layout registry schema v front parts) :
    encodedSize registry schema v = sizeParts registry front.length parts := by
  rw [encodedSize.eq_def]
  cases layout with
  | sequence | set =>
    rw [Varint.length_encodeUnsigned, ← sizeEach_eq]
    rfl
  | array =>
    rw [← sizeEach_eq]
    rfl
  | map =>
    rw [Varint.length_encodeUnsigned, sizeParts_append, ← sizeKeys_eq]
    simp only [← sizeValues_eq]
    rfl
  | tuple =>
    rw [← sizeTuple_eq]
    rfl
  | record declared found =>
    simp only [Schema.pointee, declared]
    rw [← sizeFields_eq]
    rename_i shape fields values
    cases shape with
    | record others | message steps =>
      cases found
      rfl
    | enumeration variants => cases found
    | choices names => cases found
  | variant declared found =>
    simp only [Schema.pointee, declared, found, Option.map_some, Option.getD_some]
    rw [Varint.length_encodeUnsigned, ← sizeFields_eq]
  | choice declared =>
    simp only [Schema.pointee, declared]
    rw [Varint.length_encodeUnsigned]
    rfl

@[elab_as_elim]
theorem HasType.inductionOn {motive : ∀ schema v, HasType registry schema v → Prop}
    {schema : Schema} {v : Value} (typed : HasType registry schema v)
    (leaf : ∀ schema v typed, schema.isLeaf = true → motive schema v typed)
    (pointer : ∀ kind target v pointed, motive target v pointed →
      motive (.pointer kind target) v (.pointer pointed))
    (absent : ∀ item, motive (.option item) (.option none) (.absent True.intro))
    (present : ∀ item v inner, motive item v inner →
      motive (.option item) (.option (some v)) (.present inner))
    (composed : ∀ schema v front parts typed, Layout registry schema v front parts →
      (∀ p ∈ parts, ∃ part, motive p.1 p.2 part) → motive schema v typed) :
    motive schema v typed := by
  induction typed with
  | leaf isLeaf holds => exact leaf _ _ _ isLeaf
  | pointer pointed ih => exact pointer _ _ _ _ ih
  | absent allowed => exact absent _
  | present inner ih => exact present _ _ _ ih
  | sequence bounded each ih =>
    apply composed _ _ _ _ _ .sequence
    intro p member
    obtain ⟨v, among, rfl⟩ := List.mem_map.mp member
    exact ⟨_, ih v among⟩
  | array counted each ih =>
    apply composed _ _ _ _ _ .array
    intro p member
    obtain ⟨v, among, rfl⟩ := List.mem_map.mp member
    exact ⟨_, ih v among⟩
  | set bounded listed each ih =>
    apply composed _ _ _ _ _ .set
    intro p member
    obtain ⟨v, among, rfl⟩ := List.mem_map.mp member
    exact ⟨_, ih v among⟩
  | map bounded listed keys values keysIh valuesIh =>
    apply composed _ _ _ _ _ .map
    intro p member
    rcases List.mem_append.mp member with member | member
    · obtain ⟨e, among, rfl⟩ := List.mem_map.mp member
      exact ⟨_, keysIh e among⟩
    · obtain ⟨e, among, rfl⟩ := List.mem_map.mp member
      exact ⟨_, valuesIh e among⟩
  | tuple paired each ih => exact composed _ _ _ _ _ .tuple fun p member => ⟨_, ih p member⟩
  | record declared found paired skipped each ih =>
    apply composed _ _ _ _ _ (.record declared found)
    intro p member
    obtain ⟨field, among, wired, rfl⟩ := mem_wireParts member
    exact ⟨_, ih field among wired⟩
  | variant declared found bounded paired skipped each ih =>
    apply composed _ _ _ _ _ (.variant declared found)
    intro p member
    obtain ⟨field, among, wired, rfl⟩ := mem_wireParts member
    exact ⟨_, ih field among wired⟩
  | choice declared found bounded =>
    apply composed _ _ _ _ _ (.choice declared)
    intro p member
    cases member

end parts

end Schema

end BinaryCodec
