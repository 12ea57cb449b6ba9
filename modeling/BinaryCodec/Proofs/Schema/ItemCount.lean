import BinaryCodec.Proofs.Schema.Truncation

namespace BinaryCodec.Schema

open Buffer

variable {registry : Registry}

section weightless

variable {depth : Nat}

theorem leastSize_le_minSizeAll {items : List Schema} {item : Schema} (member : item ∈ items) :
    leastSize registry depth item ≤ minSizeAll (minSizeNamed registry depth) items := by
  induction items with
  | nil => cases member
  | cons first rest ih =>
    rw [minSizeAll]
    rcases List.mem_cons.mp member with rfl | later
    · exact Nat.le_add_right ..
    · exact Nat.le_add_left_of_le (ih later)

theorem leastSize_le_minSizeFields {fields : List Field} {field : Field} (member : field ∈ fields)
    (wired : field.skipped = none) :
    leastSize registry depth field.schema ≤ minSizeFields (minSizeNamed registry depth) fields := by
  induction fields with
  | nil => cases member
  | cons first rest ih =>
    rw [minSizeFields_cons]
    rcases List.mem_cons.mp member with rfl | later
    · rw [leastField, wired]
      exact Nat.le_add_right ..
    · exact Nat.le_add_left_of_le (ih later)

theorem minSizeFields_eq_zero {name : String} {shape : Shape} {fields : List Field}
    (declared : registry.shape? name = some shape) (found : shape.fields? = some fields)
    (least : leastSize registry (depth + 1) (.named name) = 0) :
    minSizeFields (minSizeNamed registry depth) fields = 0 := by
  rw [leastSize, minSizeWith, minSizeNamed, declared] at least
  cases shape <;> cases found <;> exact least

theorem writes_encodeParts {parts : List (Schema × Value)}
    (each : ∀ p ∈ parts, (encode registry p.1 p.2).Writes []) :
    (encodeParts registry parts).Writes [] := by
  induction parts with
  | nil => exact .none
  | cons part rest ih =>
    exact (each part (List.mem_cons_self ..)).append
      (ih fun p member => each p (List.mem_cons_of_mem _ member))

theorem Layout.writes_nil (coherent : registry.Coherent) {schema : Schema} {v : Value}
    {parts : List (Schema × Value)} (layout : Layout registry schema v [] parts)
    (typed : HasType registry schema v) (each : ∀ p ∈ parts, (encode registry p.1 p.2).Writes []) :
    (encode registry schema v).Writes [] :=
  (layout.encode_same coherent typed).writes ((Output.Writes.piece []).append (writes_encodeParts each))

theorem writes_nil_of_leaf {schema : Schema} {v : Value} (leaf : schema.isLeaf = true)
    (other : schema ≠ .cstring) (holds : RepresentableLeaf schema v)
    (least : leastSize registry depth schema = 0) : (encode registry schema v).Writes [] := by
  rw [encode_leaf leaf]
  cases schema with
  | unit | phantom =>
    obtain rfl := holds
    exact .none
  | fixedString width =>
    obtain ⟨s, rfl, -⟩ := holds
    obtain rfl : width = 0 := least
    have short : Buffer.fixedField 0 s.toList = [] :=
      List.eq_nil_of_length_eq_zero (length_fixedField 0 s.toList)
    change (Output.piece (Buffer.fixedField 0 s.toList)).Writes []
    rw [short]
    exact .piece []
  | cstring => exact absurd rfl other
  | unsupported target => exact holds.elim
  | fixed order type | float order type => cases type <;> cases least
  | sequence | array | set | map | pointer | option | tuple | named => cases leaf
  | bool | integer | string | bytes | time | date | char | uuid => cases least

theorem not_mem_of_representable {names : List String} {name : String} {v : Value}
    (leads : ∀ other ∈ names, Leads registry (.named other) (.named name))
    (holds : Representable registry (.named name) v) : name ∉ names :=
  fun member => not_representable_of_cycle (leads name member) v holds

theorem leastSize_index_ne_zero {name : String} {shape : Shape} {names : List String}
    (declared : registry.shape? name = some shape) (index : shape.fields? = none)
    (fresh : name ∉ names) (enough : closed registry names ≤ depth) :
    leastSize registry depth (.named name) ≠ 0 := by
  have less := closed_cons_lt declared fresh
  obtain ⟨left, rfl⟩ : ∃ left, depth = left + 1 := ⟨depth - 1, by omega⟩
  rw [leastSize, minSizeWith, minSizeNamed, declared]
  cases shape with
  | record fields | message steps => cases index
  | enumeration variants | choices cases => exact Nat.one_ne_zero

theorem Representable.writes_nil (coherent : registry.Coherent) {schema : Schema} {v : Value}
    (holds : Representable registry schema v) {names : List String}
    (leads : ∀ name ∈ names, Leads registry (.named name) schema)
    (enough : closed registry names ≤ depth) (least : leastSize registry depth schema = 0)
    (lacks : ¬Contains registry schema .cstring) : (encode registry schema v).Writes [] := by
  -- The declarations of `names` are open, and the depth is enough for all others.
  induction holds generalizing depth names with
  | leaf leaf holds => exact writes_nil_of_leaf leaf (fun same => lacks (same ▸ .refl)) holds least
  | sequence | set | map => cases least
  | array counted each ih =>
    rename_i count item items
    refine Layout.array.writes_nil coherent (.array counted fun v member => Representable.hasType (each v member)) ?_
    intro p member
    obtain ⟨v, among, rfl⟩ := List.mem_map.mp member
    have filled : 0 < count := counted ▸ List.length_pos_of_mem among
    have product : leastSize registry depth item * count = 0 := least
    exact ih v among (fun name open_ => .tail (leads name open_) (.array filled)) enough
      ((Nat.mul_eq_zero.mp product).resolve_right (Nat.ne_of_gt filled)) (not_contains_part lacks .array)
  | pointer pointed ih =>
    rw [encode_pointer]
    exact ih (fun name open_ => .tail (leads name open_) .pointer) enough least
      (not_contains_part lacks .pointer)
  | absent allowed => exact allowed.elim
  | present inner ih =>
    rw [encode_present]
    exact ih (fun name open_ => .tail (leads name open_) .option) enough least
      (not_contains_part lacks .option)
  | tuple paired each ih =>
    refine Layout.tuple.writes_nil coherent (.tuple paired fun p member => Representable.hasType (each p member)) ?_
    intro p member
    have among := (List.of_mem_zip member).1
    have none : leastSize registry depth p.1 = 0 :=
      Nat.eq_zero_of_le_zero (Nat.le_trans (leastSize_le_minSizeAll among) (Nat.le_of_eq least))
    exact ih p member (fun name open_ => .tail (leads name open_) (.tuple among)) enough none
      (not_contains_part lacks (.tuple among))
  | record declared found paired given each ih =>
    rename_i name shape fields values
    have whole : Representable registry (.named name) (.record values) :=
      .record declared found paired given each
    refine (Layout.record declared found).writes_nil coherent whole.hasType fun part member => ?_
    obtain ⟨p, among, wired, rfl⟩ := mem_wireParts member
    have inside := (List.of_mem_zip among).1
    have fresh := not_mem_of_representable leads whole
    have less := closed_cons_lt declared fresh
    obtain ⟨left, rfl⟩ : ∃ left, depth = left + 1 := ⟨depth - 1, by omega⟩
    have fieldsEmpty := minSizeFields_eq_zero declared found least
    have none : leastSize registry left p.1.schema = 0 := Nat.eq_zero_of_le_zero
      (Nat.le_trans (leastSize_le_minSizeFields inside wired) (Nat.le_of_eq fieldsEmpty))
    have rest : closed registry (name :: names) ≤ left := by omega
    refine ih p among wired ?_ rest none
      (not_contains_part lacks (.field declared found inside wired))
    have next : Part registry (.named name) p.1.schema := .field declared found inside wired
    intro other open_
    rcases List.mem_cons.mp open_ with rfl | before
    · exact .single next
    · exact .tail (leads other before) next
  | variant declared found bounded paired given each ih =>
    have fresh := not_mem_of_representable leads (.variant declared found bounded paired given each)
    exact absurd least (leastSize_index_ne_zero declared rfl fresh enough)
  | choice declared found bounded =>
    have fresh := not_mem_of_representable leads (.choice declared found bounded)
    exact absurd least (leastSize_index_ne_zero declared rfl fresh enough)

theorem bytes_encode_eq_nil (coherent : registry.Coherent) {schema : Schema} {v : Value}
    (holds : Representable registry schema v) (least : schema.minSize registry = 0)
    (lacks : ¬Contains registry schema .cstring) : (encode registry schema v).bytes = [] :=
  by
  have none (name : String) (open_ : name ∈ []) : Leads registry (.named name) schema := by cases open_
  exact (holds.writes_nil coherent none (closed_le registry []) least lacks).2

theorem minSize_le_length_encode (coherent : registry.Coherent) {schema : Schema} {v : Value}
    (holds : Representable registry schema v) :
    schema.minSize registry ≤ (encode registry schema v).bytes.length := by
  have decodes := (holds.roundTrips coherent).decodes
  exact (decodes.yields (readsNormal_decode coherent schema)).2 registry.length

end weightless

/-- A collection, and what each of the items is that it announces. -/
inductive Collects : Schema → Schema → Prop
  | sequence {kind : SequenceKind} {item : Schema} : Collects (.sequence kind item) item
  | set {order : KeyOrder} {item : Schema} : Collects (.set order item) item
  | map {order : KeyOrder} {key value : Schema} :
      Collects (.map order key value) (.tuple [key, value])

/-- The number that `bytes` begin with is at most the number of bytes behind it. -/
def Backed (bytes : List UInt8) : Prop :=
  ∃ count position after, readUnsigned 64 (.ofSlice bytes) = .ok count after ∧
    after.store.readPosition = .ok position ∧ position + count ≤ bytes.length

section announced

variable {collection item : Schema}

theorem yields_value {read : BufferM Value} [Sequential read] (reads : ReadsNormal registry read item)
    (count : Nat) :
    Yields (readSequence item read count) fun _ _ => 0 < count → ∃ v, Representable registry item v := by
  refine (yields_readSequence reads count).mono ?_
  rintro vs used ⟨⟨rfl, each⟩, -⟩ filled
  obtain ⟨v, member⟩ := List.exists_mem_of_length_pos filled
  exact ⟨v, (each v member).1⟩

theorem Collects.decodeWith_eq (collects : Collects collection item)
    {declared : String → BufferM Value} [∀ name, Sequential (declared name)]
    (named : ∀ name, ReadsNormal registry (declared name) (.named name)) :
    ∃ items : Nat → BufferM Value, (∀ count, Sequential (items count)) ∧
      decodeWith registry declared collection = readLength (item.minSize registry) >>= items ∧
      ∀ count, Yields (items count) fun _ _ => 0 < count → ∃ v, Representable registry item v := by
  have reads (schema : Schema) := readsNormal_decodeWith named schema
  cases collects with
  | sequence =>
    refine ⟨_, fun count => ?_, decodeWith_sequence _ _, fun count => ?_⟩
    · infer_instance
    · exact (yields_value (reads item) count).map fun _ _ some => some
  | set =>
    refine ⟨_, fun count => ?_, decodeWith_set _ _, fun count => ?_⟩
    · infer_instance
    · exact (yields_value (reads item) count).map fun _ _ some => some
  | map =>
    rename_i order key value
    refine ⟨_, fun count => ?_, decodeWith_map _ _ _, fun count => ?_⟩
    · infer_instance
    · refine (yields_value (reads key) count).bind fun keys used someKey => ?_
      refine (yields_value (reads value) count).map fun values more someValue filled => ?_
      obtain ⟨k, key⟩ := someKey filled
      obtain ⟨v, value⟩ := someValue filled
      refine ⟨.list [k, v], .tuple rfl ?_⟩
      simp only [List.zip_cons_cons, List.zip_nil_right, List.forall_mem_cons]
      exact ⟨key, value, by simp⟩

theorem outcome_of_readLength {items : Nat → BufferM Value} [∀ count, Sequential (items count)]
    {size n : Nat} {bytes : List UInt8} {v : Value}
    (came : outcome (readLength size >>= items) .known bytes = ⟨.ok v, n⟩) :
    ∃ count used, outcome (readUnsigned 64) .known bytes = ⟨.ok count, used⟩ ∧
      needed count size ≤ bytes.length - used ∧
      (outcome (items count) .known (bytes.drop used)).result = .ok v := by
  rw [outcome_readLength_bind] at came
  cases prefixed : outcome (readUnsigned 64) .known bytes with
  | mk result used =>
    rw [prefixed] at came
    cases result with
    | error e => cases came
    | ok count =>
      simp only [Reading.andThen_ok, true_and] at came
      by_cases short : bytes.length - used < needed count size
      · rw [if_pos short] at came
        cases came
      · rw [if_neg short] at came
        exact ⟨count, used, rfl, Nat.le_of_not_lt short, congrArg Reading.result came⟩

/-- Where each item takes a byte, and no text that ends at the end of the data can be all of an item, a
collection decodes only if there are as many bytes behind the number of its items as it announces. -/
theorem backed_of_decode (coherent : registry.Coherent) (collects : Collects collection item)
    (spends : ∀ v, Representable registry item v → (encode registry item v).bytes ≠ [])
    (lasting : Contains registry item .cstring → 0 < item.minSize registry) {bytes : List UInt8}
    {v : Value} {after : Buffer} (run : decode registry collection (.ofSlice bytes) = .ok v after) :
    Backed bytes := by
  have slice : (Buffer.ofSlice bytes).Delivers := True.intro
  obtain ⟨n, came, -⟩ := outcome_of_ok slice run
  rw [upcoming_ofSlice, decode_eq, outcome_unread_bind] at came
  have named := readsNormal_decodeNamed coherent (decodeDepth registry bytes.length)
  obtain ⟨items, sequential, same, yields⟩ := collects.decodeWith_eq named
  rw [same] at came
  obtain ⟨count, used, announced, room, read⟩ := outcome_of_readLength came
  have within : used ≤ bytes.length := by
    have used_le := Sequential.used_le (m := readUnsigned 64) .known bytes
    rwa [announced] at used_le
  have small : count ≤ Word.last 64 := by
    have bound := yields_readUnsigned 64 .known bytes count (congrArg Reading.result announced)
    exact Word.le_last_iff.mpr bound.1
  have covered : count ≤ bytes.length - used := by
    rcases Nat.eq_zero_or_pos (item.minSize registry) with least | positive
    · -- The check lets any number pass, but an item that took no bytes would be one that `spends` denies.
      have lacks : ¬Contains registry item .cstring := fun inside => Nat.ne_of_gt (lasting inside) least
      rcases Nat.eq_zero_or_pos count with rfl | filled
      · exact Nat.zero_le _
      · obtain ⟨w, holds⟩ := yields count .known _ v read filled
        exact absurd (bytes_encode_eq_nil coherent holds least lacks) (spends w holds)
    · have least : count * 1 ≤ count * item.minSize registry := Nat.mul_le_mul_left count positive
      unfold needed at room
      omega
  obtain ⟨middle, ran, position⟩ := (answers_slice_iff count used bytes).mpr announced
  exact ⟨count, used, middle, ran, position, by omega⟩

theorem backed_of_decode_keys :
    (∀ v, Representable sensors (.tuple [.integer .u8, .unit]) v →
        (encode sensors (.tuple [.integer .u8, .unit]) v).bytes ≠ []) ∧
      (∃ after, decode sensors (.map .sorted (.integer .u8) .unit) (.ofSlice [2, 9, 7]) =
        .ok (.map [(.int 7, .unit), (.int 9, .unit)]) after) ∧
      Backed [2, 9, 7] := by
  have spends (v : Value) (holds : Representable sensors (.tuple [.integer .u8, .unit]) v) :
      (encode sensors (.tuple [.integer .u8, .unit]) v).bytes ≠ [] := by
    have least := minSize_le_length_encode coherent_sensors holds
    exact List.ne_nil_of_length_pos least
  have run : ∃ after, decode sensors (.map .sorted (.integer .u8) .unit) (.ofSlice [2, 9, 7]) =
      .ok (.map [(.int 7, .unit), (.int 9, .unit)]) after := ⟨_, by with_unfolding_all rfl⟩
  obtain ⟨after, decoded⟩ := run
  exact ⟨spends, ⟨after, decoded⟩,
    backed_of_decode coherent_sensors .map spends (fun _ => by decide) decoded⟩

/-- Five texts decode from a number alone, since each of them ends where the data does. -/
theorem unbacked_cstrings :
    (∀ v, HasType [] .cstring v → (encode [] .cstring v).bytes ≠ []) ∧
      (∃ after, decode [] (.sequence .vector .cstring) (.ofSlice [5]) =
        .ok (.list (List.replicate 5 (.text ""))) after) ∧
      ¬Backed [5] := by
  refine ⟨fun v typed => ?_, ⟨_, by with_unfolding_all rfl⟩, ?_⟩
  · cases typed with
    | leaf _ text =>
      obtain ⟨s, rfl⟩ := text
      have ended : ((Output.piece (Utf8.encode s)) ++ Output.piece [0]).bytes =
          Utf8.encode s ++ [0] := by
        rw [Output.bytes_append rfl, Output.bytes_piece, Output.bytes_piece]
      change ((Output.piece (Utf8.encode s)) ++ Output.piece [0]).bytes ≠ []
      rw [ended]
      exact List.append_ne_nil_of_right_ne_nil _ (List.cons_ne_nil _ _)
  · rintro ⟨count, position, after, announced, place, room⟩
    have read : readUnsigned 64 (.ofSlice [5]) = .ok 5 ((Buffer.ofSlice [5]).advance 1) := by
      with_unfolding_all rfl
    cases read.symm.trans announced
    cases place
    exact absurd room (by decide)

end announced

end BinaryCodec.Schema
