import BinaryCodec.Proofs.Schema.RoundTrip

namespace BinaryCodec.Schema

open Buffer

variable {registry : Registry} {depth : Nat}

def leastParts (registry : Registry) (depth : Nat) : List (Schema × Value) → Nat
  | [] => 0
  | part :: rest => leastSize registry depth part.1 + leastParts registry depth rest

theorem leastParts_cons (part : Schema × Value) (rest : List (Schema × Value)) :
    leastParts registry depth (part :: rest) =
      leastSize registry depth part.1 + leastParts registry depth rest := rfl

theorem leastParts_items (item : Schema) (items : List Value) :
    leastParts registry depth (items.map fun v => (item, v)) =
      items.length * leastSize registry depth item := by
  induction items with
  | nil => exact (Nat.zero_mul _).symm
  | cons v rest ih => rw [List.map_cons, leastParts_cons, ih, List.length_cons, Nat.succ_mul, Nat.add_comm]

theorem leastParts_zip {schemas : List Schema} {items : List Value}
    (paired : schemas.length = items.length) : leastParts registry depth (schemas.zip items) =
      minSizeAll (minSizeNamed registry depth) schemas := by
  induction schemas generalizing items with
  | nil => rfl
  | cons schema rest ih =>
    cases items with
    | nil => cases paired
    | cons v more =>
      rw [List.zip_cons_cons, leastParts_cons, ih (Nat.succ.inj paired), minSizeAll]
      rfl

theorem leastParts_wireParts {fields : List Field} {values : List Value}
    (paired : fields.length = values.length) : leastParts registry depth (wireParts fields values) =
      minSizeFields (minSizeNamed registry depth) fields := by
  induction fields generalizing values with
  | nil => rfl
  | cons field rest ih =>
    cases values with
    | nil => cases paired
    | cons v more =>
      have others := ih (Nat.succ.inj paired)
      rw [wireParts_cons, minSizeFields_cons, leastField]
      cases field.skipped with
      | some given => rw [Nat.zero_add, ← others]
      | none => rw [leastParts_cons, others]

variable {schema : Schema} {v : Value} {front : List UInt8} {parts : List (Schema × Value)}

theorem one_le_length_encodeUnsigned (n : Nat) : 1 ≤ (Varint.encodeUnsigned n).length := by
  rw [Varint.length_encodeUnsigned]
  exact Varint.unsignedLength_pos n

theorem Layout.leastSize_le (layout : Layout registry schema v front parts)
    (typed : HasType registry schema v) (depth : Nat) :
    ∃ inner, leastSize registry depth schema ≤ front.length + leastParts registry inner parts := by
  have counted (n : Nat) : 1 ≤ (Varint.encodeUnsigned n).length + leastParts registry depth parts :=
    Nat.le_add_right_of_le (one_le_length_encodeUnsigned n)
  cases layout with
  | sequence | set | map => exact ⟨depth, counted _⟩
  | array =>
    cases typed with
    | leaf leaf _ => cases leaf
    | array same each =>
      refine ⟨depth, ?_⟩
      rw [leastParts_items, same, leastSize, minSizeWith, Nat.mul_comm, List.length_nil, Nat.zero_add]
      exact Nat.le_refl _
  | tuple =>
    cases typed with
    | leaf leaf _ => cases leaf
    | tuple paired each =>
      refine ⟨depth, Nat.le_of_eq ?_⟩
      rw [leastParts_zip paired, leastSize, minSizeWith, List.length_nil, Nat.zero_add]
  | record declared found =>
    cases typed with
    | leaf leaf _ => cases leaf
    | record again same paired skipped each =>
      cases declared.symm.trans again
      cases found.symm.trans same
      cases depth with
      | zero => exact ⟨0, Nat.zero_le _⟩
      | succ depth =>
        refine ⟨depth, ?_⟩
        rw [leastParts_wireParts paired, leastSize, minSizeWith, minSizeNamed, declared]
        rename_i shape fields values
        cases shape with
        | record others | message steps =>
          cases found
          exact Nat.le_add_left ..
        | enumeration variants => cases found
        | choices names => cases found
  | variant declared found =>
    exact ⟨depth, leastSize_named_le declared (fun _ => counted _) depth⟩
  | choice declared => exact ⟨depth, leastSize_named_le declared (fun _ => counted _) depth⟩

theorem sizeParts_cons_eq_ok {total n : Nat} {part : Schema × Value} {rest : List (Schema × Value)} :
    sizeParts registry total (part :: rest) = .ok n ↔
      ∃ m, encodedSize registry part.1 part.2 = .ok m ∧ total + m ≤ maxSize ∧
        sizeParts registry (total + m) rest = .ok n := by
  rw [sizeParts]
  cases encodedSize registry part.1 part.2 with
  | error e =>
    constructor
    · intro failed
      cases failed
    · rintro ⟨m, failed, -⟩
      cases failed
  | ok m =>
    change (addSizes total m >>= fun total => sizeParts registry total rest) = .ok n ↔ _
    unfold addSizes
    by_cases told : total + m ≤ maxSize
    · rw [if_pos told]
      constructor
      · exact fun size => ⟨m, rfl, told, size⟩
      · rintro ⟨_, ⟨⟩, -, size⟩
        exact size
    · rw [if_neg told]
      constructor
      · intro failed
        cases failed
      · rintro ⟨_, ⟨⟩, within, -⟩
        exact absurd within told

theorem least_le_sizeParts {total n : Nat}
    (each : ∀ part ∈ parts, ∀ m, encodedSize registry part.1 part.2 = .ok m →
      leastSize registry depth part.1 ≤ m)
    (size : sizeParts registry total parts = .ok n) :
    total + leastParts registry depth parts ≤ n := by
  induction parts generalizing total with
  | nil =>
    cases size
    exact Nat.le_refl _
  | cons part rest ih =>
    obtain ⟨m, measured, -, size⟩ := sizeParts_cons_eq_ok.mp size
    have here := each part (List.mem_cons_self ..) m measured
    have more := ih (fun part member => each part (List.mem_cons_of_mem _ member)) size
    rw [leastParts_cons]
    omega

theorem sizeParts_le_maxSize {total n : Nat} (told : total ≤ maxSize)
    (size : sizeParts registry total parts = .ok n) : n ≤ maxSize := by
  induction parts generalizing total with
  | nil =>
    cases size
    exact told
  | cons part rest ih =>
    obtain ⟨m, -, within, size⟩ := sizeParts_cons_eq_ok.mp size
    exact ih within size

theorem one_le_signedLength (n : Int) : 1 ≤ Varint.signedLength n := by
  rw [Varint.signedLength_eq]
  split <;> omega

theorem one_le_integerSize (type : IntType) (n : Int) : 1 ≤ integerSize type n := by
  unfold integerSize
  split
  · exact Nat.le_refl _
  · exact Nat.le_refl _
  · split
    · exact one_le_signedLength n
    · exact Varint.unsignedLength_pos _

theorem le_of_map_eq_ok {α : Type} {f : α → Nat} {result : Except Error α} {bound n : Nat}
    (each : ∀ a, bound ≤ f a) (mapped : f <$> result = .ok n) : bound ≤ n := by
  cases result with
  | error e => cases mapped
  | ok a =>
    cases mapped
    exact each a

theorem leastSize_le_leafSize {n : Nat} (leaf : schema.isLeaf = true) (typed : TypedLeaf schema v)
    (size : leafSize registry schema v = .ok n) : leastSize registry depth schema ≤ n := by
  cases schema with
  | unit | phantom | cstring => exact Nat.zero_le n
  | unsupported => cases size
  | bool | uuid =>
    obtain ⟨_, rfl⟩ := typed
    cases size
    exact Nat.le_refl _
  | integer type =>
    obtain ⟨n, rfl, -⟩ := typed
    cases size
    exact one_le_integerSize type n
  | fixed order type | float order type =>
    obtain ⟨_, rfl, -⟩ := typed
    cases size
    exact Nat.le_refl _
  | char =>
    obtain ⟨c, rfl⟩ := typed
    cases size
    exact Nat.add_le_add_left c.utf8Size_pos 1
  | string =>
    obtain ⟨s, rfl, -⟩ := typed
    cases size
    exact Nat.le_add_right_of_le (Varint.unsignedLength_pos _)
  | fixedString width =>
    obtain ⟨s, rfl, -⟩ := typed
    cases size
    exact Nat.le_refl _
  | bytes =>
    obtain ⟨bytes, rfl, -⟩ := typed
    cases size
    exact Nat.le_add_right_of_le (Varint.unsignedLength_pos _)
  | time =>
    obtain ⟨t, rfl⟩ := typed
    exact le_of_map_eq_ok one_le_signedLength size
  | date =>
    obtain ⟨t, rfl⟩ := typed
    exact le_of_map_eq_ok Varint.unsignedLength_pos size
  | sequence | array | set | map | pointer | option | tuple | named => cases leaf

theorem leastSize_le_encodedSize (typed : HasType registry schema v) (depth : Nat) {n : Nat}
    (size : encodedSize registry schema v = .ok n) : leastSize registry depth schema ≤ n := by
  induction typed using HasType.inductionOn generalizing depth n with
  | leaf schema v typed leaf =>
    rw [encodedSize_leaf leaf] at size
    exact leastSize_le_leafSize leaf (typed.typedLeaf leaf) size
  | pointer kind target v pointed ih =>
    rw [encodedSize_pointer] at size
    exact ih depth size
  | absent item => cases size
  | present item v inner ih =>
    rw [encodedSize_present] at size
    exact ih depth size
  | composed schema v front parts typed layout each =>
    rw [layout.encodedSize_eq] at size
    obtain ⟨inner, least⟩ := layout.leastSize_le typed depth
    have bounded (part : Schema × Value) (member : part ∈ parts) (m : Nat)
        (measured : encodedSize registry part.1 part.2 = .ok m) : leastSize registry inner part.1 ≤ m := by
      obtain ⟨_, ih⟩ := each part member
      exact ih inner measured
    exact Nat.le_trans least (least_le_sizeParts bounded size)

/-- The least size of a schema is no more than any value of it is measured at, and no more than reading
one takes from a store that delivers. -/
structure BoundedBelow (registry : Registry) (schema : Schema) : Prop where
  measured (v : Value) (typed : HasType registry schema v) (n : Nat)
    (size : encodedSize registry schema v = .ok n) : schema.minSize registry ≤ n
  read (b after : Buffer) (v : Value) (delivers : b.Delivers)
    (run : decode registry schema b = .ok v after) :
    ∃ used, schema.minSize registry ≤ used ∧ used ≤ b.upcoming.length ∧
      after.upcoming = b.upcoming.drop used ∧
      ∀ start, b.store.readPosition = .ok start → after.store.readPosition = .ok (start + used)

theorem boundedBelow (coherent : registry.Coherent) (schema : Schema) :
    BoundedBelow registry schema := by
  constructor
  · intro v typed n size
    exact leastSize_le_encodedSize typed registry.length size
  · intro b after v delivers run
    obtain ⟨used, came, rfl⟩ := outcome_of_ok delivers run
    have taken := readsNormal_decode coherent schema b.ending b.upcoming v (by rw [came])
    have within := Sequential.used_le (m := decode registry schema) b.ending b.upcoming
    rw [came] at taken within
    exact ⟨used, taken.2 registry.length, within, upcoming_advance,
      fun start begins => readPosition_advance begins used⟩

structure TakesLeast (registry : Registry) (depth : Nat) (schema : Schema) (v : Value) : Prop where
  representable : Representable registry schema v
  size : (encode registry schema v).bytes.length = leastSize registry depth schema

theorem Representable.encodes (coherent : registry.Coherent) (holds : Representable registry schema v) :
    (encode registry schema v).error = none := by
  obtain ⟨bytes, ⟨succeeds, -⟩, -⟩ := holds.roundTrips coherent
  exact succeeds

namespace TakesLeast

variable {name : String}

theorem of_measured (coherent : registry.Coherent) (holds : Representable registry schema v)
    (size : encodedSize registry schema v = .ok (leastSize registry depth schema)) :
    TakesLeast registry depth schema v :=
  ⟨holds, (encode_of_encodedSize coherent holds.hasType size).2⟩

theorem leaf (coherent : registry.Coherent) (leaf : schema.isLeaf = true)
    (holds : RepresentableLeaf schema v)
    (size : leafSize registry schema v = .ok (leastSize registry depth schema)) :
    TakesLeast registry depth schema v :=
  of_measured coherent (.leaf leaf holds) ((encodedSize_leaf leaf v).trans size)

theorem empty (coherent : registry.Coherent) (kind : SequenceKind) (item : Schema) :
    TakesLeast registry depth (.sequence kind item) (.list []) :=
  of_measured coherent (.sequence (Nat.zero_le _) fun _ none => nomatch none) rfl

theorem choice (coherent : registry.Coherent) {names : List String}
    (declared : registry.shape? name = some (.choices names)) (filled : names ≠ []) :
    TakesLeast registry (depth + 1) (.named name) (.variant 0 []) := by
  have holds : Representable registry (.named name) (.variant 0 []) :=
    .choice declared (List.length_pos_iff.mpr filled) (Nat.zero_le _)
  refine of_measured coherent holds ?_
  rw [(Layout.choice declared).encodedSize_eq, Varint.length_encodeUnsigned, leastSize, minSizeWith,
    minSizeNamed, declared]
  rfl

theorem length_encodeParts (coherent : registry.Coherent)
    (each : ∀ part ∈ parts, TakesLeast registry depth part.1 part.2) :
    (encodeParts registry parts).bytes.length = leastParts registry depth parts := by
  induction parts with
  | nil => rfl
  | cons part rest ih =>
    have here := each part (List.mem_cons_self ..)
    have more := ih fun part member => each part (List.mem_cons_of_mem _ member)
    rw [encodeParts, Output.bytes_append (here.representable.encodes coherent), List.length_append,
      here.size, more, leastParts_cons]

theorem record (coherent : registry.Coherent) {shape : Shape} {fields : List Field}
    {values : List Value} (declared : registry.shape? name = some shape)
    (found : shape.fields? = some fields) (holds : Representable registry (.named name) (.record values))
    (paired : fields.length = values.length)
    (each : ∀ p ∈ fields.zip values, p.1.skipped = none → TakesLeast registry depth p.1.schema p.2) :
    TakesLeast registry (depth + 1) (.named name) (.record values) := by
  have parts : ∀ part ∈ wireParts fields values, TakesLeast registry depth part.1 part.2 := by
    intro part member
    obtain ⟨p, among, wired, rfl⟩ := mem_wireParts member
    exact each p among wired
  have layout : Layout registry (.named name) (.record values) [] (wireParts fields values) :=
    .record declared found
  refine ⟨holds, ?_⟩
  rw [(layout.encode_same coherent holds.hasType).1, Output.bytes_append rfl, Output.bytes_piece,
    List.nil_append, length_encodeParts coherent parts, leastParts_wireParts paired, leastSize,
    minSizeWith, minSizeNamed, declared]
  cases shape with
  | record others | message steps =>
    cases found
    rfl
  | enumeration variants => cases found
  | choices names => cases found

end TakesLeast

theorem encodedSize_record (coherent : registry.Coherent) {name : String} {values : List Value}
    (holds : Representable registry (.named name) (.record values)) :
    encodedSize registry (.named name) (.record values) =
      if (encode registry (.named name) (.record values)).bytes.length ≤ maxSize then
        .ok (encode registry (.named name) (.record values)).bytes.length
      else .error .sizeOverflow := by
  rcases encodedSize_of_encode coherent holds.hasType (holds.encodes coherent) with
    told | ⟨overflow, exceeds⟩
  · rw [told, if_pos]
    cases holds with
    | leaf leaf _ => cases leaf
    | record declared found paired skipped each =>
      rw [(Layout.record declared found).encodedSize_eq] at told
      exact sizeParts_le_maxSize (Nat.zero_le _) told
  · rw [overflow, if_neg (Nat.not_le.mpr exceeds)]

end BinaryCodec.Schema
