import BinaryCodec.Proofs.Schema.Nesting
import BinaryCodec.Proofs.Schema.Normal
import BinaryCodec.Proofs.Schema.Reordering

namespace BinaryCodec.Schema

open Buffer

variable {registry : Registry}

def depthFor (registry : Registry) (names : List String) (bytes : List UInt8) : Nat :=
  bytes.length * (registry.length + 1) + closed registry names

section depth

variable {names : List String} {bytes part : List UInt8}

theorem depthFor_le (within : part.length ≤ bytes.length) :
    depthFor registry names part ≤ depthFor registry names bytes :=
  Nat.add_le_add_right (Nat.mul_le_mul_right _ within) _

theorem depthFor_nil_lt (less : part.length < bytes.length) :
    depthFor registry [] part < depthFor registry names bytes := by
  have bound := closed_le registry []
  have more := Nat.mul_le_mul_right (registry.length + 1) less
  rw [Nat.succ_mul] at more
  unfold depthFor
  omega

theorem depthFor_cons_lt {name : String} {shape : Shape}
    (declared : registry.shape? name = some shape) (fresh : name ∉ names) :
    depthFor registry (name :: names) bytes < depthFor registry names bytes :=
  Nat.add_lt_add_left (closed_cons_lt declared fresh) _

end depth

def ReadsBack (registry : Registry) (schema : Schema) (v w : Value) : Prop :=
  ∃ bytes, (encode registry schema v).Writes bytes ∧
    ∀ fuel names, (∀ name ∈ names, Leads registry (.named name) schema) →
      depthFor registry names bytes ≤ fuel →
      Decodes (decodeWith registry (decodeNamed registry fuel) schema) bytes w

def PartsReadBack (registry : Registry) (schemas : List Schema) (output : Output)
    (read : Nat → BufferM (List Value)) (values : List Value) : Prop :=
  ∃ bytes, output.Writes bytes ∧
    ∀ fuel names, (∀ schema ∈ schemas, ∀ name ∈ names, Leads registry (.named name) schema) →
      depthFor registry names bytes ≤ fuel → Decodes (read fuel) bytes values

namespace PartsReadBack

theorem nil : PartsReadBack registry [] .none (fun _ => pure []) [] :=
  ⟨[], .none, fun _ _ _ _ => .pure []⟩

section cons

variable {schemas : List Schema} {output : Output} {read : Nat → BufferM (List Value)}
  {values : List Value} [∀ fuel, Sequential (read fuel)]

theorem cons {schema : Schema} {v w : Value} (first : ReadsBack registry schema v w)
    (more : PartsReadBack registry schemas output read values) :
    PartsReadBack registry (schema :: schemas) (encode registry schema v ++ output)
      (fun fuel => decodeWith registry (decodeNamed registry fuel) schema >>= fun v =>
        read fuel >>= fun vs => pure (v :: vs))
      (w :: values) := by
  obtain ⟨front, writes, reads⟩ := first
  obtain ⟨back, writesMore, readsMore⟩ := more
  refine ⟨front ++ back, writes.append writesMore, fun fuel names leads enough => ?_⟩
  have head := reads fuel names (leads schema (List.mem_cons_self ..)) (Nat.le_trans
    (depthFor_le (by rw [List.length_append]; omega)) enough)
  have tail := readsMore fuel names (fun s member => leads s (List.mem_cons_of_mem _ member))
    (Nat.le_trans (depthFor_le (by rw [List.length_append]; omega)) enough)
  exact head.cons tail

theorem skip {given : Value} (more : PartsReadBack registry schemas output read values) :
    PartsReadBack registry schemas output
      (fun fuel => pure given >>= fun v => read fuel >>= fun vs => pure (v :: vs))
      (given :: values) := by
  obtain ⟨bytes, writes, reads⟩ := more
  refine ⟨bytes, writes, fun fuel names leads enough => ?_⟩
  exact (Decodes.pure given).cons (reads fuel names leads enough)

end cons

variable {α : Type} {parts : List α} {v w : α → Value}

theorem items {item : Schema} (each : ∀ p ∈ parts, ReadsBack registry item (v p) (w p)) :
    PartsReadBack registry (parts.map fun _ => item) (encodeEach registry item (parts.map v))
      (fun fuel => Message.readItems (decodeWith registry (decodeNamed registry fuel) item)
        parts.length) (parts.map w) := by
  induction parts with
  | nil => exact nil
  | cons p rest ih =>
    rw [List.forall_mem_cons] at each
    exact cons each.1 (ih each.2)

theorem tuple {schema : α → Schema} (each : ∀ p ∈ parts, ReadsBack registry (schema p) (v p) (w p)) :
    PartsReadBack registry (parts.map schema) (encodeTuple registry (parts.map schema) (parts.map v))
      (fun fuel => decodeAll registry (decodeNamed registry fuel) (parts.map schema))
      (parts.map w) := by
  induction parts with
  | nil =>
    simp only [List.map_nil, decodeAll]
    exact nil
  | cons p rest ih =>
    rw [List.forall_mem_cons] at each
    simp only [List.map_cons, decodeAll_cons]
    exact cons each.1 (ih each.2)

def wired (fields : List Field) : List Schema :=
  (fields.filter fun field => field.skipped.isNone).map Field.schema

theorem fields {field : α → Field}
    (skipped : ∀ p ∈ parts, ∀ given, (field p).skipped = some given → w p = given)
    (each : ∀ p ∈ parts, (field p).skipped = none →
      ReadsBack registry (field p).schema (v p) (w p)) :
    PartsReadBack registry (wired (parts.map field))
      (encodeFields registry (parts.map field) (parts.map v))
      (fun fuel => decodeFields registry (decodeNamed registry fuel) (parts.map field))
      (parts.map w) := by
  induction parts with
  | nil => exact nil
  | cons p rest ih =>
    rw [List.forall_mem_cons] at skipped each
    have others := ih skipped.2 each.2
    rw [List.map_cons, List.map_cons, List.map_cons, encodeFields, wired, List.filter_cons]
    simp only [decodeFields_cons, readField]
    cases wire : (field p).skipped with
    | some given =>
      obtain rfl : w p = given := skipped.1 given wire
      exact skip others
    | none => exact cons (each.1 wire) others

end PartsReadBack

section kinds

variable {item : Schema} {items : List Value}

theorem numbers_map_toByte (each : ∀ v ∈ items, Representable registry (.integer .u8) v) :
    numbers (items.map Value.toByte) = items := by
  unfold numbers
  rw [List.map_map]
  refine (List.map_congr_left fun v member => ?_).trans (List.map_id items)
  cases each v member with
  | leaf _ holds =>
    obtain ⟨n, rfl, holds⟩ := holds
    obtain ⟨low, high⟩ := Word.holdsUnsigned_iff.mp holds
    change Value.int (UInt8.ofNat n.toNat).toNat = .int n
    have small : n.toNat < 256 := by
      change n < (Word.count 8 : Int) at high
      have count : Word.count 8 = 256 := by decide
      omega
    rw [UInt8.toNat_ofNat', Nat.mod_eq_of_lt small, Int.toNat_of_nonneg low]

theorem PartsReadBack.sequence (pairs : List (Value × Value))
    (holds : ∀ p ∈ pairs, Representable registry item p.1)
    (reordered : ∀ p ∈ pairs, Reordered registry item p.1 p.2)
    (each : ∀ p ∈ pairs, ReadsBack registry item p.2 (arrange registry item p.1)) :
    PartsReadBack registry (pairs.map fun _ => item)
      (encodeEach registry item (pairs.map Prod.snd))
      (fun fuel => readSequence item (decodeWith registry (decodeNamed registry fuel) item)
        pairs.length) (pairs.map fun p => arrange registry item p.1) := by
  cases byte : item.isByte with
  | false =>
    simp only [readSequence_of_not_isByte byte]
    exact .items each
  | true =>
    obtain rfl := isByte_iff.mp byte
    have representable : ∀ v ∈ pairs.map Prod.snd, Representable registry (.integer .u8) v := by
      rw [List.forall_mem_map]
      intro p member
      rw [← (reordered p member).eq_of_isLeaf rfl]
      exact holds p member
    have same := same_items fun v member => Representable.hasType (representable v member)
    rw [if_pos byte] at same
    have arranged : (pairs.map fun p => arrange registry (.integer .u8) p.1) =
        pairs.map Prod.snd := by
      refine List.map_congr_left fun p member => ?_
      rw [arrange_leaf rfl, (reordered p member).eq_of_isLeaf rfl]
    have length : ((pairs.map Prod.snd).map Value.toByte).length = pairs.length := by
      rw [List.length_map, List.length_map]
    have read := (decodes_readBytes length).map numbers
    rw [numbers_map_toByte representable] at read
    simp only [readSequence_of_isByte byte, arranged]
    exact ⟨(pairs.map Prod.snd).map Value.toByte, same.symm.writes (.piece _), fun _ _ _ _ => read⟩

theorem length_lt_counted (n : Nat) (bytes : List UInt8) :
    bytes.length < (Varint.encodeUnsigned n ++ bytes).length := by
  have front := Varint.unsignedLength_pos n
  rw [List.length_append, Varint.length_encodeUnsigned]
  omega

variable (coherent : registry.Coherent)
include coherent

theorem readsBack_counted {schema : Schema} {v w : Value} {f : List Value → Value}
    {pairs : List (Value × Value)} (bounded : pairs.length ≤ maxSize)
    (holds : ∀ p ∈ pairs, Representable registry item p.1)
    (reordered : ∀ p ∈ pairs, Reordered registry item p.1 p.2)
    (each : ∀ p ∈ pairs, ReadsBack registry item p.2 (arrange registry item p.1))
    (written : (encode registry schema v).Same
      (Output.unsigned pairs.length ++ encodeEach registry item (pairs.map Prod.snd)))
    (read : ∀ declared, decodeWith registry declared schema =
      readLength (item.minSize registry) >>= fun count =>
        f <$> readSequence item (decodeWith registry declared item) count)
    (arranged : f (pairs.map fun p => arrange registry item p.1) = w) :
    ReadsBack registry schema v w := by
  obtain ⟨bytes, writes, reads⟩ := PartsReadBack.sequence pairs holds reordered each
  refine ⟨Varint.encodeUnsigned pairs.length ++ bytes,
    written.writes ((Output.Writes.unsigned _).append writes), fun fuel names _ enough => ?_⟩
  -- The number takes a byte, so that no declaration counts as open in the items.
  have less : depthFor registry [] bytes < depthFor registry names _ :=
    depthFor_nil_lt (length_lt_counted pairs.length bytes)
  have decodes := reads fuel [] (by simp) (by omega)
  have normal := readsNormal_decodeWith (readsNormal_decodeNamed coherent fuel) item
  have taken := decodes.yields (yields_readSequence normal pairs.length)
  rw [read, ← arranged]
  exact (decodes.map f).length (Word.le_last_iff.mp bounded) (taken.2 registry.length)

theorem readsBack_map {order : KeyOrder} {key value : Schema}
    {pairs : List ((Value × Value) × (Value × Value))} (bounded : pairs.length ≤ maxSize)
    (lists : order.Lists ((pairs.map Prod.fst).map Prod.fst))
    (arranged : ∀ p ∈ pairs, arrange registry key p.1.1 = p.1.1)
    (keys : ∀ p ∈ pairs, Representable registry key p.1.1)
    (values : ∀ p ∈ pairs, Representable registry value p.1.2)
    (keysReordered : ∀ p ∈ pairs, Reordered registry key p.1.1 p.2.1)
    (valuesReordered : ∀ p ∈ pairs, Reordered registry value p.1.2 p.2.2)
    (eachKey : ∀ p ∈ pairs, ReadsBack registry key p.2.1 (arrange registry key p.1.1))
    (eachValue : ∀ p ∈ pairs, ReadsBack registry value p.2.2 (arrange registry value p.1.2)) :
    ReadsBack registry (.map order key value) (.map (pairs.map Prod.snd))
      (arrange registry (.map order key value) (.map (pairs.map Prod.fst))) := by
  have keysBack := PartsReadBack.sequence (pairs.map fun p => (p.1.1, p.2.1))
    (List.forall_mem_map.mpr keys) (List.forall_mem_map.mpr keysReordered)
    (List.forall_mem_map.mpr eachKey)
  have valuesBack := PartsReadBack.sequence (pairs.map fun p => (p.1.2, p.2.2))
    (List.forall_mem_map.mpr values) (List.forall_mem_map.mpr valuesReordered)
    (List.forall_mem_map.mpr eachValue)
  rw [List.length_map] at keysBack valuesBack
  obtain ⟨front, writesKeys, readsKeys⟩ := keysBack
  obtain ⟨back, writesValues, readsValues⟩ := valuesBack
  have zipped : (((pairs.map fun p => (p.1.1, p.2.1)).map fun p => arrange registry key p.1).zip
        ((pairs.map fun p => (p.1.2, p.2.2)).map fun p => arrange registry value p.1)) =
      (pairs.map Prod.fst).map fun e => (e.1, arrange registry value e.2) := by
    rw [List.map_map, List.map_map, List.map_map, zip_map_same]
    refine List.map_congr_left fun p member => ?_
    exact congrArg (·, _) (arranged p member)
  have listed : ((pairs.map Prod.fst).map fun e => (e.1, arrange registry value e.2)).map Prod.fst =
      (pairs.map Prod.fst).map Prod.fst := by
    rw [List.map_map]
    rfl
  refine ⟨Varint.encodeUnsigned pairs.length ++ (front ++ back), ?_, fun fuel names _ enough => ?_⟩
  · rw [encodeEach_eq, List.map_map, List.map_map] at writesKeys writesValues
    rw [encode_map, encodeKeys_eq, encodeValues_eq, Output.append_assoc, List.map_map, List.map_map,
      List.length_map]
    exact (Output.Writes.unsigned _).append (writesKeys.append writesValues)
  · have less : depthFor registry [] (front ++ back) < depthFor registry names _ :=
      depthFor_nil_lt (length_lt_counted pairs.length (front ++ back))
    have first : depthFor registry [] front ≤ depthFor registry [] (front ++ back) :=
      depthFor_le (by rw [List.length_append]; omega)
    have second : depthFor registry [] back ≤ depthFor registry [] (front ++ back) :=
      depthFor_le (by rw [List.length_append]; omega)
    have decodesKeys := readsKeys fuel [] (by simp) (by omega)
    have decodesValues := readsValues fuel [] (by simp) (by omega)
    have normal (schema : Schema) :=
      readsNormal_decodeWith (readsNormal_decodeNamed coherent fuel) schema
    -- The length is checked before any key is read: keys and values together have to make up for it.
    have takenKeys := decodesKeys.yields (yields_readSequence (normal key) pairs.length)
    have takenValues := decodesValues.yields (yields_readSequence (normal value) pairs.length)
    have room : pairs.length * (key.minSize registry + value.minSize registry) ≤
        (front ++ back).length := by
      rw [Nat.mul_add, List.length_append]
      exact Nat.add_le_add (takenKeys.2 registry.length) (takenValues.2 registry.length)
    rw [decodeWith_map, arrange_map, ← Value.mapOf_eq (by rwa [listed]), ← zipped]
    exact Decodes.length (decodesKeys.bind (decodesValues.map _)) (Word.le_last_iff.mp bounded) room

theorem readsBack_record {name : String} {shape : Shape} {fields : List Field}
    {values backs : List Value} (declared : registry.shape? name = some shape)
    (found : shape.fields? = some fields) (paired : fields.length = values.length)
    (inhabited : ∃ u, Representable registry (.named name) u)
    (typed : ∀ p ∈ fields.zip values, p.1.skipped = none → HasType registry p.1.schema p.2)
    (parts : PartsReadBack registry (PartsReadBack.wired fields) (encodeFields registry fields values)
      (fun fuel => decodeFields registry (decodeNamed registry fuel) fields) backs) :
    ReadsBack registry (.named name) (.record values) (.record backs) := by
  obtain ⟨bytes, writes, reads⟩ := parts
  obtain ⟨u, holds⟩ := inhabited
  refine ⟨bytes, (same_encode_record coherent declared found paired typed).writes writes,
    fun fuel names leads enough => ?_⟩
  -- A record inside itself would be one that has no value.
  have fresh : name ∉ names := fun member =>
    not_representable_of_cycle (leads name member) u holds
  have less : depthFor registry (name :: names) bytes < depthFor registry names bytes :=
    depthFor_cons_lt declared fresh
  obtain ⟨left, rfl⟩ : ∃ left, fuel = left + 1 := ⟨fuel - 1, by omega⟩
  have decodes := reads left (name :: names) ?_ (by omega)
  · rw [decodeWith_named]
    cases shape with
    | record others =>
      cases found
      rw [decodeNamed_record declared]
      exact decodes.map Value.record
    | message steps =>
      cases found
      rw [decodeNamed_message declared]
      exact (decodes.of_covers (covers_decodeSteps left (coherent name steps declared))).map Value.record
    | enumeration variants => cases found
    | choices cases => cases found
  · intro schema member other open_
    obtain ⟨field, wire, rfl⟩ := List.mem_map.mp member
    obtain ⟨among, onWire⟩ := List.mem_filter.mp wire
    have part : Part registry (.named name) field.schema :=
      .field declared found among (Option.isNone_iff_eq_none.mp onWire)
    rcases List.mem_cons.mp open_ with rfl | before
    · exact .single part
    · exact .tail (leads other before) part

omit coherent

theorem readsBack_variant {name : String} {variants : List Variant} {index : Nat} {variant : Variant}
    {values backs : List Value} (declared : registry.shape? name = some (.enumeration variants))
    (found : variants[index]? = some variant) (bounded : index ≤ maxSize)
    (parts : PartsReadBack registry (PartsReadBack.wired variant.fields)
      (encodeFields registry variant.fields values)
      (fun fuel => decodeFields registry (decodeNamed registry fuel) variant.fields) backs) :
    ReadsBack registry (.named name) (.variant index values) (.variant index backs) := by
  obtain ⟨bytes, writes, reads⟩ := parts
  refine ⟨Varint.encodeUnsigned index ++ bytes, ?_, fun fuel names _ enough => ?_⟩
  · rw [encode_variant declared found]
    exact (Output.Writes.unsigned index).append writes
  · have less : depthFor registry [] bytes < depthFor registry names _ :=
      depthFor_nil_lt (length_lt_counted index bytes)
    obtain ⟨left, rfl⟩ : ∃ left, fuel = left + 1 := ⟨fuel - 1, by omega⟩
    have decodes := reads left [] (by simp) (by omega)
    have tag := decodes_readUnsigned (by decide) (Word.le_last_iff.mp bounded)
    rw [decodeWith_named, decodeNamed_enumeration declared]
    apply tag.bind
    unfold readCase
    rw [found]
    exact decodes.map (Value.variant index)

theorem readsBack_choice {name : String} {names : List String} {index : Nat}
    (declared : registry.shape? name = some (.choices names)) (inside : index < names.length)
    (bounded : index ≤ maxSize) :
    ReadsBack registry (.named name) (.variant index []) (.variant index []) := by
  refine ⟨Varint.encodeUnsigned index, ?_, fun fuel others _ enough => ?_⟩
  · rw [encode_choice declared]
    exact .unsigned index
  · have front := Varint.unsignedLength_pos index
    have enter : 0 < depthFor registry others (Varint.encodeUnsigned index) := by
      unfold depthFor
      rw [Varint.length_encodeUnsigned]
      have := Nat.mul_pos front (show 0 < registry.length + 1 by omega)
      omega
    obtain ⟨left, rfl⟩ : ∃ left, fuel = left + 1 := ⟨fuel - 1, by omega⟩
    have tag := decodes_readUnsigned (by decide) (Word.le_last_iff.mp bounded)
    rw [decodeWith_named, decodeNamed_choices declared, Message.readChoice_eq]
    apply tag.bind_pure
    rw [Message.caseOf, if_pos inside]
    exact .settle _

end kinds

theorem Reordered.readsBack (coherent : registry.Coherent) {schema : Schema} {u v : Value}
    (reordered : Reordered registry schema u v) (holds : Representable registry schema u) :
    ReadsBack registry schema v (arrange registry schema u) := by
  -- `names` grow where a record is entered and are forgotten where a byte is read.
  induction reordered with
  | leaf isLeaf =>
    cases holds with
    | leaf _ holds =>
      obtain ⟨bytes, writes, reads⟩ := decodes_leaf isLeaf holds
      refine ⟨bytes, ?_, fun fuel names _ _ => ?_⟩
      · rwa [encode_leaf isLeaf]
      · rw [arrange_leaf isLeaf]
        exact reads _
    | _ => cases isLeaf
  | sequence pairs each ih =>
    cases holds with
    | leaf leaf _ => cases leaf
    | sequence bounded items =>
      rw [List.length_map] at bounded
      rw [List.forall_mem_map] at items
      refine readsBack_counted coherent bounded items each (fun p member => ih p member (items p member))
        ?_ (fun declared => decodeWith_sequence _ _) ?_
      · rw [encode_sequence, List.length_map]
        refine (Output.Same.refl _).append (same_items ?_)
        exact List.forall_mem_map.mpr fun p member =>
          (each p member).hasType (Representable.hasType (items p member))
      · rw [arrange_sequence, List.map_map]
        rfl
  | array pairs each ih =>
    cases holds with
    | leaf leaf _ => cases leaf
    | array counted items =>
      rw [List.length_map] at counted
      rw [List.forall_mem_map] at items
      obtain ⟨bytes, writes, reads⟩ := PartsReadBack.sequence pairs items each
        fun p member => ih p member (items p member)
      refine ⟨bytes, ?_, fun fuel names leads enough => ?_⟩
      · rw [encode_array]
        refine (same_items ?_).writes writes
        exact List.forall_mem_map.mpr fun p member =>
          (each p member).hasType (Representable.hasType (items p member))
      · rw [decodeWith_array, arrange_array, List.map_map, ← counted]
        refine (reads fuel names (fun schema member name open_ => ?_) enough).map Value.list
        obtain ⟨p, among, rfl⟩ := List.mem_map.mp member
        exact .tail (leads name open_) (.array (counted ▸ List.length_pos_of_mem among))
  | set pairs listed each ih =>
    cases holds with
    | leaf leaf _ => cases leaf
    | set bounded keys items =>
      have listing := listed.perm
      have among (p) (member : p ∈ pairs) := listing.mem_iff.mpr (List.mem_map_of_mem member)
      rw [listing.length_eq, List.length_map] at bounded
      refine readsBack_counted coherent bounded (fun p member => items p.1 (among p member)) each
        (fun p member => ih p member (items p.1 (among p member))) ?_
        (fun declared => decodeWith_set _ _) ?_
      · rw [encode_set, List.length_map]
        exact .refl _
      · have same : (pairs.map fun p => arrange registry _ p.1) = pairs.map Prod.fst :=
          List.map_congr_left fun p member => keys.2 p.1 (among p member)
        rw [same, arrange_set, Value.setOf_eq (listed.lists keys.1), listed.relist_items keys.1]
  | map pairs listed keys values keyIh valueIh =>
    cases holds with
    | leaf leaf _ => cases leaf
    | map bounded keyed keysHold valuesHold =>
      rename_i order key value entries
      have listing := listed.perm
      have among (p) (member : p ∈ pairs) := listing.mem_iff.mpr (List.mem_map_of_mem member)
      have keysKept : (entries.map fun e => (e.1, arrange registry value e.2)).map Prod.fst =
          entries.map Prod.fst := by
        rw [List.map_map]
        rfl
      have same := (listed.map fun e => (e.1, arrange registry value e.2)).relist_entries
        (keysKept ▸ keyed.1)
      rw [listing.length_eq, List.length_map] at bounded
      rw [arrange_map, ← same, ← arrange_map]
      exact readsBack_map coherent bounded ((listed.map Prod.fst).lists keyed.1)
        (fun p member => keyed.2 _ (List.mem_map_of_mem (among p member)))
        (fun p member => keysHold p.1 (among p member))
        (fun p member => valuesHold p.1 (among p member)) keys values
        (fun p member => keyIh p member (keysHold p.1 (among p member)))
        (fun p member => valueIh p member (valuesHold p.1 (among p member)))
  | pointer pointed ih =>
    cases holds with
    | leaf leaf _ => cases leaf
    | pointer holds =>
      obtain ⟨bytes, writes, reads⟩ := ih holds
      refine ⟨bytes, ?_, fun fuel names leads enough => ?_⟩
      · rwa [encode_pointer]
      · rw [decodeWith_pointer, arrange_pointer]
        exact reads fuel names (fun name open_ => .tail (leads name open_) .pointer) enough
  | absent =>
    cases holds with
    | leaf leaf _ => cases leaf
    | absent allowed => exact allowed.elim
  | present inner ih =>
    cases holds with
    | leaf leaf _ => cases leaf
    | present holds =>
      obtain ⟨bytes, writes, reads⟩ := ih holds
      refine ⟨bytes, ?_, fun fuel names leads enough => ?_⟩
      · rwa [encode_present]
      · rw [decodeWith_option, arrange_present]
        exact (reads fuel names (fun name open_ => .tail (leads name open_) .option) enough).map _
  | tuple parts each ih =>
    cases holds with
    | leaf leaf _ => cases leaf
    | tuple paired items =>
      rw [zip_map_same, List.forall_mem_map] at items
      obtain ⟨bytes, writes, reads⟩ := PartsReadBack.tuple fun p member => ih p member (items p member)
      refine ⟨bytes, ?_, fun fuel names leads enough => ?_⟩
      · rwa [encode_tuple]
      · rw [decodeWith_tuple, arrange_tuple paired, zipWith_map_same]
        refine (reads fuel names (fun schema member name open_ => ?_) enough).map Value.list
        exact .tail (leads name open_) (.tuple member)
  | record parts declared found skipped each ih =>
    have inhabited : ∃ u, Representable registry (.named _) u := ⟨_, holds⟩
    cases holds with
    | leaf leaf _ => cases leaf
    | record again same paired given fields =>
      cases declared.symm.trans again
      cases found.symm.trans same
      rw [zip_map_same, List.forall_mem_map] at given fields
      rw [arrange_record declared found paired, zipWith_map_same]
      refine readsBack_record coherent declared found (by simp only [List.length_map]) inhabited ?_
        (.fields (fun p member v wire => ?_) fun p member wire => ?_)
      · rw [zip_map_same, List.forall_mem_map]
        exact fun p member wire =>
          (each p member wire).hasType (Representable.hasType (fields p member wire))
      · exact (arrangeField_skipped (Option.isSome_of_mem wire) _).symm.trans (given p member v wire)
      · rw [arrangeField, wire]
        exact ih p member wire (fields p member wire)
  | variant parts declared found same skipped each ih =>
    obtain ⟨bounded, paired, given, fields⟩ := Conforms.of_variant declared found holds
    rw [arrange_variant declared found paired, same, zipWith_map_same]
    refine readsBack_variant declared found bounded ?_
    rw [same, zip_map_same, List.forall_mem_map] at given fields
    rw [same]
    refine .fields (fun p member v wire => ?_) fun p member wire => ?_
    · exact (arrangeField_skipped (Option.isSome_of_mem wire) _).symm.trans (given p member v wire)
    · rw [arrangeField, wire]
      exact ih p member wire (fields p member wire)
  | choice declared =>
    cases holds with
    | leaf leaf _ => cases leaf
    | variant again => cases declared.symm.trans again
    | choice again inside bounded =>
      rw [arrange_choice declared]
      exact readsBack_choice again inside bounded

theorem Representable.roundTrips (coherent : registry.Coherent) {schema : Schema} {v : Value}
    (holds : Representable registry schema v) :
    ReadsBack registry schema v (arrange registry schema v) :=
  (Reordered.refl holds.hasType).readsBack coherent holds

section whole

variable {schema : Schema} {v : Value}

theorem ReadsBack.decodes {w : Value} (back : ReadsBack registry schema v w) :
    Decodes (decode registry schema) (encode registry schema v).bytes w := by
  obtain ⟨bytes, writes, reads⟩ := back
  rw [writes.2, decode_eq]
  refine .unread fun n within => reads _ [] (by simp) ?_
  have bound := closed_le registry []
  have more := Nat.mul_le_mul_right (registry.length + 1) within
  unfold depthFor decodeDepth
  rw [Nat.succ_mul]
  omega

theorem encodedSize_eq (coherent : registry.Coherent) (holds : Representable registry schema v)
    (measurable : (encode registry schema v).bytes.length ≤ maxSize) :
    encodedSize registry schema v = .ok (encode registry schema v).bytes.length := by
  obtain ⟨bytes, ⟨succeeds, -⟩, -⟩ := holds.roundTrips coherent
  rcases encodedSize_of_encode coherent holds.hasType succeeds with told | ⟨-, exceeds⟩
  · exact told
  · omega

theorem le_maxSize {size : Nat} (room : size ≤ maxCapacity) : size ≤ maxSize :=
  Nat.le_trans room (by decide)

theorem marshal_eq (coherent : registry.Coherent) (holds : Representable registry schema v)
    (room : (encode registry schema v).bytes.length ≤ maxCapacity) :
    marshal registry schema v = .ok (encode registry schema v).bytes := by
  obtain ⟨bytes, ⟨succeeds, -⟩, -⟩ := holds.roundTrips coherent
  have size := encodedSize_eq coherent holds (le_maxSize room)
  rw [marshal_of_writes size ⟨succeeds, rfl⟩, if_pos room]

theorem decode_encode (coherent : registry.Coherent) (holds : Representable registry schema v)
    (rest : List UInt8) :
    ∃ after, decode registry schema (.ofSlice ((encode registry schema v).bytes ++ rest)) =
        .ok (arrange registry schema v) after ∧
      after.store.readPosition = .ok (encode registry schema v).bytes.length := by
  rw [answers_slice_iff]
  exact (holds.roundTrips coherent).decodes .known rest

/-- A value that an encoding stands for, if a vector holds its bytes, is encoded, and these in front of any
others are read as the same value and no further. -/
theorem decode_marshal (coherent : registry.Coherent) (holds : Representable registry schema v)
    (measurable : (encode registry schema v).bytes.length ≤ maxCapacity) :
    ∃ bytes w, marshal registry schema v = .ok bytes ∧ Alike registry schema v w ∧
      ∀ rest, ∃ after, decode registry schema (.ofSlice (bytes ++ rest)) = .ok w after ∧
        after.store.readPosition = .ok bytes.length :=
  ⟨_, _, marshal_eq coherent holds measurable, alike_arrange holds.hasType,
    decode_encode coherent holds⟩

theorem decode_marshal_sensor :
    ∃ bytes w, marshal sensors (.named "Sensor") sensor = .ok bytes ∧
      Alike sensors (.named "Sensor") sensor w ∧
      ∀ rest, ∃ after, decode sensors (.named "Sensor") (.ofSlice (bytes ++ rest)) = .ok w after ∧
        after.store.readPosition = .ok bytes.length :=
  decode_marshal coherent_sensors representable_sensor (by decide +kernel)

/-- A text may fit its field and take more bytes than can be counted. -/
theorem marshal_immense :
    Buffer.FitsField maxSize "" ∧
      ∀ bytes, marshal [] (.sequence .vector (.fixedString maxSize)) (.list [.text ""]) ≠
        .ok bytes := by
  have size : encodedSize [] (.sequence .vector (.fixedString maxSize)) (.list [.text ""]) =
      .error .sizeOverflow := rfl
  refine ⟨⟨by decide, by decide⟩, fun bytes marshalled => ?_⟩
  unfold marshal at marshalled
  rw [size] at marshalled
  cases marshalled

/-- Whatever bytes a value was read from, if its size can be told, it is encoded in as many bytes as
were measured, unless no vector holds so many, and these in front of any others are read as exactly this
value and no further. The order in which its hash collections are gone through makes no difference. -/
theorem marshal_unmarshal (coherent : registry.Coherent) {input : List UInt8}
    (unmarshalled : unmarshal registry schema input = .ok v)
    (measurable : (encode registry schema v).bytes.length ≤ maxSize) {w : Value}
    (listing : Reordered registry schema v w) :
    ∃ bytes, (encode registry schema w).Writes bytes ∧
      encodedSize registry schema w = .ok bytes.length ∧
      (marshal registry schema w =
        if bytes.length ≤ maxCapacity then .ok bytes else .error .capacityOverflow) ∧
      ∀ rest, ∃ after, decode registry schema (.ofSlice (bytes ++ rest)) = .ok v after ∧
        after.store.readPosition = .ok bytes.length := by
  have normal : Normal registry schema v := by
    unfold unmarshal at unmarshalled
    split at unmarshalled
    · next w after run =>
      cases unmarshalled
      have slice : (Buffer.ofSlice input).Delivers := True.intro
      obtain ⟨n, normal, -⟩ := (readsNormal_decode coherent schema).of_run slice run
      exact normal
    · cases unmarshalled
  have size := encodedSize_eq coherent normal.1 measurable
  obtain ⟨bytes, ⟨succeeds, -⟩, -⟩ := normal.1.roundTrips coherent
  obtain ⟨ends, length, same, -⟩ := listing.sameSize coherent normal.1.hasType succeeds
  rw [size, ← length] at same
  refine ⟨_, ⟨ends, rfl⟩, same, marshal_of_writes same ⟨ends, rfl⟩, fun rest => ?_⟩
  rw [answers_slice_iff]
  have back := (listing.readsBack coherent normal.1).decodes .known rest
  rwa [normal.2] at back

/-- A set from items that repeat, one of them a byte that no encoding has, gone through backwards. -/
theorem marshal_unmarshal_repeated :
    unmarshal sensors (.set .hashed .bool) [3, 7, 0, 1] = .ok (.list [.bool false, .bool true]) ∧
      Reordered sensors (.set .hashed .bool) (.list [.bool false, .bool true])
        (.list [.bool true, .bool false]) ∧
      encodedSize sensors (.set .hashed .bool) (.list [.bool true, .bool false]) = .ok 3 ∧
      marshal sensors (.set .hashed .bool) (.list [.bool true, .bool false]) = .ok [2, 1, 0] ∧
      ∀ rest, ∃ after, decode sensors (.set .hashed .bool) (.ofSlice ([2, 1, 0] ++ rest)) =
          .ok (.list [.bool false, .bool true]) after ∧ after.store.readPosition = .ok 3 := by
  have read : unmarshal sensors (.set .hashed .bool) [3, 7, 0, 1] =
      .ok (.list [.bool false, .bool true]) := by with_unfolding_all rfl
  have flag (b : Bool) : Reordered sensors .bool (.bool b) (.bool b) := .leaf rfl
  have listing : Reordered sensors (.set .hashed .bool) (.list [.bool false, .bool true])
      (.list [.bool true, .bool false]) :=
    .set [(.bool true, .bool true), (.bool false, .bool false)] (List.Perm.swap ..) (by simp [flag])
  obtain ⟨bytes, ⟨-, written⟩, size, marshalled, back⟩ :=
    marshal_unmarshal coherent_sensors read (by decide +kernel) listing
  obtain rfl : [2, 1, 0] = bytes :=
    (show _ = (encode sensors (.set .hashed .bool) (.list [.bool true, .bool false])).bytes by
      decide +kernel).trans written
  exact ⟨read, listing, size, marshalled.trans (if_pos (by decide)), back⟩

/-- The order in which hash collections list their members does not matter, however deep they are. Two
listings of a value are measured the same and are encoded in equally many bytes, which in front of any
others are read as the same value and no further. -/
theorem decode_reordered (coherent : registry.Coherent) {u v w : Value}
    (holds : Representable registry schema u) (first : Reordered registry schema u v)
    (second : Reordered registry schema u w) :
    encodedSize registry schema v = encodedSize registry schema w ∧
    (encode registry schema v).error = none ∧ (encode registry schema w).error = none ∧
    ∃ n back, (encode registry schema v).bytes.length = n ∧
      (encode registry schema w).bytes.length = n ∧ Alike registry schema u back ∧
      ∀ rest,
        (∃ after, decode registry schema (.ofSlice ((encode registry schema v).bytes ++ rest)) =
            .ok back after ∧ after.store.readPosition = .ok n) ∧
        ∃ after, decode registry schema (.ofSlice ((encode registry schema w).bytes ++ rest)) =
            .ok back after ∧ after.store.readPosition = .ok n := by
  obtain ⟨bytes, ⟨succeeds, -⟩, -⟩ := holds.roundTrips coherent
  have sameFirst := first.sameSize coherent holds.hasType succeeds
  have sameSecond := second.sameSize coherent holds.hasType succeeds
  refine ⟨sameFirst.2.2.1.trans sameSecond.2.2.1.symm, sameFirst.1, sameSecond.1, _, _, sameFirst.2.1,
    sameSecond.2.1, alike_arrange holds.hasType, fun rest => ⟨?_, ?_⟩⟩
  · rw [answers_slice_iff, ← sameFirst.2.1]
    exact (first.readsBack coherent holds).decodes .known rest
  · rw [answers_slice_iff, ← sameSecond.2.1]
    exact (second.readsBack coherent holds).decodes .known rest

theorem reordered_sensor : Reordered sensors (.named "Sensor") sensor sortedSensor := by
  have port (n : Int) : Reordered sensors (.fixed .little .u16) (.int n) (.int n) := .leaf rfl
  have ports : Reordered sensors (.set .hashed (.fixed .little .u16)) (.list [.int 80, .int 22])
      (.list [.int 22, .int 80]) :=
    .set [(.int 22, .int 22), (.int 80, .int 80)] (List.Perm.swap ..) (by simp [port])
  have reading : Reordered sensors (.named "Reading") (.variant 1 [.int (-5)])
      (.variant 1 [.int (-5)]) :=
    .variant [(⟨"0", .integer .i32, none⟩, .int (-5), .int (-5))]
      (show sensors.shape? "Reading" = some (.enumeration _) from rfl) rfl rfl (by simp)
      (List.forall_mem_singleton.mpr fun _ => .leaf rfl)
  refine .record (sensorFields.zip ([(.int 300, .int 300), (.text "north", .text "north"),
      (.int 0, .int 0), (.list [.int 80, .int 22], .list [.int 22, .int 80]),
      (.variant 1 [.int (-5)], .variant 1 [.int (-5)])]))
    (show sensors.shape? "Sensor" = some (.record sensorFields) from rfl) rfl ?_ ?_
  · simp [sensorFields]
  · simp only [sensorFields, List.zip_cons_cons, List.zip_nil_right, List.forall_mem_cons]
    exact ⟨fun _ => .leaf rfl, fun _ => .leaf rfl, by simp, fun _ => ports, fun _ => reading, by simp⟩

theorem decode_reordered_sensor :
    encodedSize sensors (.named "Sensor") sensor = encodedSize sensors (.named "Sensor") sortedSensor ∧
    (encode sensors (.named "Sensor") sensor).error = none ∧
    (encode sensors (.named "Sensor") sortedSensor).error = none ∧
    ∃ n back, (encode sensors (.named "Sensor") sensor).bytes.length = n ∧
      (encode sensors (.named "Sensor") sortedSensor).bytes.length = n ∧
      Alike sensors (.named "Sensor") sensor back ∧
      ∀ rest,
        (∃ after, decode sensors (.named "Sensor")
            (.ofSlice ((encode sensors (.named "Sensor") sensor).bytes ++ rest)) = .ok back after ∧
          after.store.readPosition = .ok n) ∧
        ∃ after, decode sensors (.named "Sensor")
            (.ofSlice ((encode sensors (.named "Sensor") sortedSensor).bytes ++ rest)) =
              .ok back after ∧ after.store.readPosition = .ok n :=
  decode_reordered coherent_sensors representable_sensor (.refl representable_sensor.hasType)
    reordered_sensor

end whole

end BinaryCodec.Schema
