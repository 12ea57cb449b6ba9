import BinaryCodec.Proofs.Schema.Size

namespace BinaryCodec.Schema

variable {registry : Registry} {schema : Schema} {u v w : Value}

/-- Whether `v` is `u` with the members of its hash collections listed in any order, also of those inside
members. The members are given in the order in which they are listed, each in both forms. -/
inductive Reordered (registry : Registry) : Schema → Value → Value → Prop
  | leaf {schema : Schema} {v : Value} (leaf : schema.isLeaf = true) : Reordered registry schema v v
  | sequence {kind : SequenceKind} {item : Schema} (pairs : List (Value × Value))
      (each : ∀ p ∈ pairs, Reordered registry item p.1 p.2) :
      Reordered registry (.sequence kind item) (.list (pairs.map Prod.fst))
        (.list (pairs.map Prod.snd))
  | array {count : Nat} {item : Schema} (pairs : List (Value × Value))
      (each : ∀ p ∈ pairs, Reordered registry item p.1 p.2) :
      Reordered registry (.array count item) (.list (pairs.map Prod.fst)) (.list (pairs.map Prod.snd))
  | set {order : KeyOrder} {item : Schema} {items : List Value} (pairs : List (Value × Value))
      (listed : Relists order items (pairs.map Prod.fst))
      (each : ∀ p ∈ pairs, Reordered registry item p.1 p.2) :
      Reordered registry (.set order item) (.list items) (.list (pairs.map Prod.snd))
  | map {order : KeyOrder} {key value : Schema} {entries : List (Value × Value)}
      (pairs : List ((Value × Value) × (Value × Value)))
      (listed : Relists order entries (pairs.map Prod.fst))
      (keys : ∀ p ∈ pairs, Reordered registry key p.1.1 p.2.1)
      (values : ∀ p ∈ pairs, Reordered registry value p.1.2 p.2.2) :
      Reordered registry (.map order key value) (.map entries) (.map (pairs.map Prod.snd))
  | pointer {kind : PointerKind} {target : Schema} {v w : Value}
      (pointed : Reordered registry target v w) : Reordered registry (.pointer kind target) v w
  | absent {item : Schema} : Reordered registry (.option item) (.option none) (.option none)
  | present {item : Schema} {v w : Value} (inner : Reordered registry item v w) :
      Reordered registry (.option item) (.option (some v)) (.option (some w))
  | tuple (parts : List (Schema × Value × Value))
      (each : ∀ p ∈ parts, Reordered registry p.1 p.2.1 p.2.2) :
      Reordered registry (.tuple (parts.map Prod.fst)) (.list (parts.map fun p => p.2.1))
        (.list (parts.map fun p => p.2.2))
  | record {name : String} {shape : Shape} (parts : List (Field × Value × Value))
      (declared : registry.shape? name = some shape)
      (found : shape.fields? = some (parts.map Prod.fst))
      (skipped : ∀ p ∈ parts, p.1.skipped.isSome → p.2.1 = p.2.2)
      (each : ∀ p ∈ parts, p.1.skipped = none → Reordered registry p.1.schema p.2.1 p.2.2) :
      Reordered registry (.named name) (.record (parts.map fun p => p.2.1))
        (.record (parts.map fun p => p.2.2))
  | variant {name : String} {variants : List Variant} {index : Nat} {variant : Variant}
      (parts : List (Field × Value × Value))
      (declared : registry.shape? name = some (.enumeration variants))
      (found : variants[index]? = some variant) (fields : variant.fields = parts.map Prod.fst)
      (skipped : ∀ p ∈ parts, p.1.skipped.isSome → p.2.1 = p.2.2)
      (each : ∀ p ∈ parts, p.1.skipped = none → Reordered registry p.1.schema p.2.1 p.2.2) :
      Reordered registry (.named name) (.variant index (parts.map fun p => p.2.1))
        (.variant index (parts.map fun p => p.2.2))
  | choice {name : String} {names : List String} {index : Nat}
      (declared : registry.shape? name = some (.choices names)) :
      Reordered registry (.named name) (.variant index []) (.variant index [])

theorem Reordered.eq_of_isLeaf (leaf : schema.isLeaf = true)
    (reordered : Reordered registry schema u v) : u = v := by
  cases reordered with
  | leaf _ => rfl
  | _ => cases leaf

section listings

variable {α : Type} {order : KeyOrder} {members others : List α}

theorem Relists.refl (order : KeyOrder) (members : List α) : Relists order members members := by
  cases order with
  | hashed => exact List.Perm.refl members
  | sorted | insertion => rfl

theorem Relists.perm (listed : Relists order members others) : members.Perm others := by
  cases order with
  | hashed => exact listed
  | sorted | insertion => exact .of_eq listed

theorem Relists.map {β : Type} (f : α → β) (listed : Relists order members others) :
    Relists order (members.map f) (others.map f) := by
  cases order with
  | hashed => exact List.Perm.map f listed
  | sorted | insertion => exact congrArg (List.map f) listed

theorem Relists.lists {keys others : List Value} (listed : Relists order keys others)
    (lists : order.Lists keys) : order.Lists others := by
  cases order with
  | hashed => exact (List.Perm.nodup_iff listed).mp lists
  | sorted | insertion =>
    obtain rfl : keys = others := listed
    exact lists

theorem Relists.relist_entries {entries others : List (Value × Value)}
    (listed : Relists order entries others) (lists : order.Lists (entries.map Prod.fst)) :
    order.relist Prod.fst others = order.relist Prod.fst entries := by
  cases order with
  | hashed =>
    have listsOthers := (listed.map Prod.fst).lists lists
    have front : (Value.entriesOf .hashed entries).Perm ([] ++ entries) :=
      Value.foldl_insertSorted_perm lists
    have back : (Value.entriesOf .hashed others).Perm ([] ++ others) :=
      Value.foldl_insertSorted_perm listsOthers
    rw [← Value.entriesOf_hashed lists, ← Value.entriesOf_hashed listsOthers]
    exact Value.eq_of_perm_of_ascending (back.trans (List.Perm.trans listed.perm.symm front.symm))
      Value.ascending_entriesOf_hashed Value.ascending_entriesOf_hashed
  | sorted | insertion => exact congrArg _ (Eq.symm listed)

theorem Relists.relist_items {items others : List Value} (listed : Relists order items others)
    (lists : order.Lists items) : order.relist id others = order.relist id items := by
  have keys (items : List Value) : (items.map fun v => (v, Value.unit)).map Prod.fst = items := by
    rw [List.map_map]
    exact List.map_id items
  have same := (listed.map fun v => (v, Value.unit)).relist_entries (by rwa [keys])
  have entered := congrArg (List.map Prod.fst) same
  rwa [Value.map_relist, Value.map_relist, keys, keys] at entered

end listings

section parts

variable {α : Type}

theorem zip_map_same {β γ : Type} (parts : List α) (f : α → β) (g : α → γ) :
    (parts.map f).zip (parts.map g) = parts.map fun p => (f p, g p) := List.zip_map' ..

theorem zipWith_map_same {β γ δ : Type} (parts : List α) (f : β → γ → δ) (g : α → β) (h : α → γ) :
    List.zipWith f (parts.map g) (parts.map h) = parts.map fun p => f (g p) (h p) := by
  rw [List.zipWith_map, List.zipWith_self]

theorem wireParts_map (parts : List α) (field : α → Field) (value : α → Value) :
    wireParts (parts.map field) (parts.map value) =
      (parts.filter fun p => (field p).skipped.isNone).map fun p => ((field p).schema, value p) := by
  induction parts with
  | nil => rfl
  | cons p rest ih =>
    rw [List.map_cons, List.map_cons, wireParts_cons, List.filter_cons]
    cases wire : (field p).skipped with
    | some given =>
      simp only [Option.isNone_some, Bool.false_eq_true, if_false]
      exact ih
    | none =>
      simp only [Option.isNone_none, if_true, List.map_cons]
      rw [ih]

end parts

section types

theorem Conforms.of_variant {demand : Demand} {name : String} {variants : List Variant} {index : Nat}
    {variant : Variant} {values : List Value}
    (declared : registry.shape? name = some (.enumeration variants))
    (found : variants[index]? = some variant)
    (conforms : Conforms registry demand (.named name) (.variant index values)) :
    index ≤ maxSize ∧ variant.fields.length = values.length ∧
      (∀ p ∈ variant.fields.zip values, ∀ given, p.1.skipped = some given →
        demand.skipped given p.2) ∧
      ∀ p ∈ variant.fields.zip values, p.1.skipped = none →
        Conforms registry demand p.1.schema p.2 := by
  cases conforms with
  | leaf leaf _ => cases leaf
  | variant again same bounded paired skipped each =>
    cases declared.symm.trans again
    cases found.symm.trans same
    exact ⟨bounded, paired, skipped, each⟩
  | choice again => cases declared.symm.trans again

theorem Reordered.hasType (reordered : Reordered registry schema u v)
    (typed : HasType registry schema u) : HasType registry schema v := by
  induction reordered with
  | leaf isLeaf => exact typed
  | absent => exact typed
  | choice declared => exact typed
  | sequence pairs each ih =>
    cases typed with
    | leaf leaf _ => cases leaf
    | sequence bounded types =>
      rw [List.length_map] at bounded
      rw [List.forall_mem_map] at types
      exact .sequence (by rwa [List.length_map])
        (List.forall_mem_map.mpr fun p member => ih p member (types p member))
  | array pairs each ih =>
    cases typed with
    | leaf leaf _ => cases leaf
    | array counted types =>
      rw [List.length_map] at counted
      rw [List.forall_mem_map] at types
      exact .array (by rwa [List.length_map])
        (List.forall_mem_map.mpr fun p member => ih p member (types p member))
  | set pairs listed each ih =>
    cases typed with
    | leaf leaf _ => cases leaf
    | set bounded keys types =>
      have listing := listed.perm
      rw [listing.length_eq, List.length_map] at bounded
      refine .set (by rwa [List.length_map]) True.intro
        (List.forall_mem_map.mpr fun p member => ih p member (types p.1 ?_))
      exact listing.mem_iff.mpr (List.mem_map_of_mem member)
  | map pairs listed keys values keyIh valueIh =>
    cases typed with
    | leaf leaf _ => cases leaf
    | map bounded all keyTypes valueTypes =>
      have listing := listed.perm
      have among (p) (member : p ∈ pairs) := listing.mem_iff.mpr (List.mem_map_of_mem member)
      rw [listing.length_eq, List.length_map] at bounded
      exact .map (by rwa [List.length_map]) True.intro
        (List.forall_mem_map.mpr fun p member => keyIh p member (keyTypes p.1 (among p member)))
        (List.forall_mem_map.mpr fun p member => valueIh p member (valueTypes p.1 (among p member)))
  | pointer pointed ih =>
    cases typed with
    | leaf leaf _ => cases leaf
    | pointer typed => exact .pointer (ih typed)
  | present inner ih =>
    cases typed with
    | leaf leaf _ => cases leaf
    | present typed => exact .present (ih typed)
  | tuple parts each ih =>
    cases typed with
    | leaf leaf _ => cases leaf
    | tuple paired types =>
      rw [zip_map_same, List.forall_mem_map] at types
      refine .tuple (by simp only [List.length_map]) ?_
      rw [zip_map_same, List.forall_mem_map]
      exact fun p member => ih p member (types p member)
  | record parts declared found skipped each ih =>
    cases typed with
    | leaf leaf _ => cases leaf
    | record again same paired _ types =>
      cases declared.symm.trans again
      cases found.symm.trans same
      rw [zip_map_same, List.forall_mem_map] at types
      refine .record declared found (by simp only [List.length_map]) (fun _ _ _ _ => True.intro) ?_
      rw [zip_map_same, List.forall_mem_map]
      exact fun p member wired => ih p member wired (types p member wired)
  | variant parts declared found fields skipped each ih =>
    obtain ⟨bounded, -, -, types⟩ := Conforms.of_variant declared found typed
    rw [fields, zip_map_same, List.forall_mem_map] at types
    refine .variant declared found bounded (by simp only [fields, List.length_map])
      (fun _ _ _ _ => True.intro) ?_
    rw [fields, zip_map_same, List.forall_mem_map]
    exact fun p member wired => ih p member wired (types p member wired)

theorem exists_map_of_length_eq {α β : Type} {front : List α} {back : List β}
    (paired : front.length = back.length) :
    ∃ pairs : List (α × β), front = pairs.map Prod.fst ∧ back = pairs.map Prod.snd :=
  ⟨front.zip back, (List.map_fst_zip (Nat.le_of_eq paired)).symm,
    (List.map_snd_zip (Nat.le_of_eq paired.symm)).symm⟩

theorem Reordered.refl (typed : HasType registry schema v) : Reordered registry schema v v := by
  have first {α : Type} (l : List α) : (l.map fun v => (v, v)).map Prod.fst = l := by
    rw [List.map_map]
    exact List.map_id l
  have second {α : Type} (l : List α) : (l.map fun v => (v, v)).map Prod.snd = l := by
    rw [List.map_map]
    exact List.map_id l
  induction typed with
  | leaf leaf holds => exact .leaf leaf
  | sequence bounded each ih =>
    rename_i kind item items
    have whole : Reordered registry (.sequence kind item) _ _ :=
      .sequence (items.map fun v => (v, v)) (List.forall_mem_map.mpr ih)
    rwa [first, second] at whole
  | array counted each ih =>
    rename_i count item items
    have whole : Reordered registry (.array count item) _ _ :=
      .array (items.map fun v => (v, v)) (List.forall_mem_map.mpr ih)
    rwa [first, second] at whole
  | set bounded listed each ih =>
    rename_i order item items
    have whole : Reordered registry (.set order item) (.list items) _ :=
      .set (items.map fun v => (v, v)) (by rw [first]; exact .refl order items)
        (List.forall_mem_map.mpr ih)
    rwa [second] at whole
  | map bounded listed keys values keyIh valueIh =>
    rename_i order key value entries
    have whole : Reordered registry (.map order key value) (.map entries) _ :=
      .map (entries.map fun e => (e, e)) (by rw [first]; exact .refl order entries)
        (List.forall_mem_map.mpr keyIh) (List.forall_mem_map.mpr valueIh)
    rwa [second] at whole
  | pointer pointed ih => exact .pointer ih
  | absent allowed => exact .absent
  | present inner ih => exact .present ih
  | tuple paired each ih =>
    obtain ⟨pairs, rfl, rfl⟩ := exists_map_of_length_eq paired
    rw [zip_map_same, List.forall_mem_map] at ih
    have whole : Reordered registry (.tuple _) _ _ :=
      .tuple (pairs.map fun p => (p.1, p.2, p.2)) (List.forall_mem_map.mpr ih)
    simp only [List.map_map] at whole
    exact whole
  | record declared found paired given each ih =>
    obtain ⟨pairs, rfl, rfl⟩ := exists_map_of_length_eq paired
    rw [zip_map_same, List.forall_mem_map] at ih
    have whole : Reordered registry (.named _) _ _ :=
      .record (pairs.map fun p => (p.1, p.2, p.2)) declared (by rwa [List.map_map])
        (List.forall_mem_map.mpr fun _ _ _ => rfl) (List.forall_mem_map.mpr ih)
    simp only [List.map_map] at whole
    exact whole
  | variant declared found bounded paired given each ih =>
    obtain ⟨pairs, fields, rfl⟩ := exists_map_of_length_eq paired
    rw [fields, zip_map_same, List.forall_mem_map] at ih
    have whole : Reordered registry (.named _) _ _ :=
      .variant (pairs.map fun p => (p.1, p.2, p.2)) declared found (by rwa [List.map_map])
        (List.forall_mem_map.mpr fun _ _ _ => rfl) (List.forall_mem_map.mpr ih)
    simp only [List.map_map] at whole
    exact whole
  | choice declared found bounded => exact .choice declared

end types

section sizes

variable {parts : List (Schema × Value)}

theorem encodeParts_succeeds_iff :
    (encodeParts registry parts).error = none ↔
      ∀ p ∈ parts, (encode registry p.1 p.2).error = none := by
  induction parts with
  | nil => simp [encodeParts]
  | cons part rest ih =>
    rw [encodeParts, Output.error_append, Option.or_eq_none_iff, ih, List.forall_mem_cons]

theorem bytes_encodeParts (succeeds : (encodeParts registry parts).error = none) :
    (encodeParts registry parts).bytes = parts.flatMap fun p => (encode registry p.1 p.2).bytes := by
  induction parts with
  | nil => rfl
  | cons part rest ih =>
    have each := encodeParts_succeeds_iff.mp succeeds
    rw [List.forall_mem_cons] at each
    rw [encodeParts, Output.bytes_append each.1, List.flatMap_cons,
      ih (encodeParts_succeeds_iff.mpr each.2)]

theorem addSizes_addSizes (total m n : Nat) :
    (addSizes total m >>= fun total => addSizes total n) =
      if total + m + n ≤ maxSize then .ok (total + m + n) else .error .sizeOverflow := by
  rw [addSizes]
  split
  · rfl
  · next exceeds => exact (if_neg (by omega)).symm

theorem addSizes_bind_overflow (total n : Nat) :
    (addSizes total n >>= fun _ => (.error .sizeOverflow : Except Error Nat)) =
      .error .sizeOverflow := by
  rw [addSizes]
  split <;> rfl

theorem addSizes_comm {first second : Except Error Nat}
    (one : ∀ e, first = .error e → e = .sizeOverflow)
    (two : ∀ e, second = .error e → e = .sizeOverflow) (total : Nat) :
    (do addSizes (← addSizes total (← first)) (← second)) =
      (do addSizes (← addSizes total (← second)) (← first)) := by
  cases first with
  | error e =>
    obtain rfl := one e rfl
    cases second with
    | error e =>
      obtain rfl := two e rfl
      rfl
    | ok n => exact (addSizes_bind_overflow total n).symm
  | ok m =>
    cases second with
    | error e =>
      obtain rfl := two e rfl
      exact addSizes_bind_overflow total m
    | ok n =>
      have other := addSizes_addSizes total n m
      rw [Nat.add_right_comm] at other
      exact (addSizes_addSizes total m n).trans other.symm

theorem sizeParts_perm {others : List (Schema × Value)} (perm : parts.Perm others)
    (each : ∀ p ∈ parts, ∀ e, encodedSize registry p.1 p.2 = .error e → e = .sizeOverflow)
    (total : Nat) : sizeParts registry total parts = sizeParts registry total others := by
  induction perm generalizing total with
  | nil => rfl
  | cons part perm ih =>
    rw [List.forall_mem_cons] at each
    simp only [sizeParts, ih each.2]
  | swap second first rest =>
    rw [List.forall_mem_cons, List.forall_mem_cons] at each
    -- An overflow is the same error whichever of the two sums finds it.
    have swapped := addSizes_comm each.1 each.2.1 total
    have both (one two : Except Error Nat) :
        (do let total ← addSizes total (← one)
            let total ← addSizes total (← two)
            sizeParts registry total rest) =
          (do addSizes (← addSizes total (← one)) (← two)) >>= fun total =>
            sizeParts registry total rest := by
      simp only [bind_assoc]
    simp only [sizeParts, both, swapped]
  | trans perm more ih ihMore =>
    rw [ih each, ihMore fun p member => each p (perm.mem_iff.mpr member)]

theorem Reordered.inductionOn {motive : Schema → Value → Value → Prop}
    (reordered : Reordered registry schema u v) (typed : HasType registry schema u)
    (same : ∀ schema v, HasType registry schema v → motive schema v v)
    (pointer : ∀ kind target u v, motive target u v → motive (.pointer kind target) u v)
    (present : ∀ item u v, motive item u v →
      motive (.option item) (.option (some u)) (.option (some v)))
    (composed : ∀ schema u v front back parts others, ∀ pairs : List (Schema × Value × Value),
      HasType registry schema u → HasType registry schema v → Layout registry schema u front parts →
      Layout registry schema v back others → front.length = back.length →
      parts.Perm (pairs.map fun p => (p.1, p.2.1)) → others = (pairs.map fun p => (p.1, p.2.2)) →
      (∀ p ∈ pairs, motive p.1 p.2.1 p.2.2) → motive schema u v) :
    motive schema u v := by
  induction reordered with
  | leaf isLeaf => exact same _ _ typed
  | absent => exact same _ _ typed
  | choice declared => exact same _ _ typed
  | pointer pointed ih =>
    cases typed with
    | leaf leaf _ => cases leaf
    | pointer typed => exact pointer _ _ _ _ (ih typed)
  | present inner ih =>
    cases typed with
    | leaf leaf _ => cases leaf
    | present typed => exact present _ _ _ (ih typed)
  | sequence pairs each ih =>
    rename_i kind item
    have whole : Reordered registry (.sequence kind item) _ _ := .sequence pairs each
    refine composed _ _ _ _ _ _ _ (pairs.map fun p => (item, p)) typed (whole.hasType typed)
      .sequence .sequence (by simp only [List.length_map]) ?_ ?_ ?_
    · simp only [List.map_map]
      exact .refl _
    · simp only [List.map_map]
      rfl
    · cases typed with
      | leaf leaf _ => cases leaf
      | sequence bounded types =>
        rw [List.forall_mem_map] at types
        exact List.forall_mem_map.mpr fun p member => ih p member (types p member)
  | array pairs each ih =>
    rename_i count item
    have whole : Reordered registry (.array count item) _ _ := .array pairs each
    refine composed _ _ _ _ _ _ _ (pairs.map fun p => (item, p)) typed (whole.hasType typed)
      .array .array rfl ?_ ?_ ?_
    · simp only [List.map_map]
      exact .refl _
    · simp only [List.map_map]
      rfl
    · cases typed with
      | leaf leaf _ => cases leaf
      | array counted types =>
        rw [List.forall_mem_map] at types
        exact List.forall_mem_map.mpr fun p member => ih p member (types p member)
  | set pairs listed each ih =>
    rename_i order item items
    have listing := listed.perm
    have whole : Reordered registry (.set order item) (.list items) _ := .set pairs listed each
    refine composed _ _ _ _ _ _ _ (pairs.map fun p => (item, p)) typed (whole.hasType typed)
      .set .set (by simp only [listing.length_eq, List.length_map]) ?_ ?_ ?_
    · have all := listing.map fun v => (item, v)
      rw [List.map_map] at all ⊢
      exact all
    · simp only [List.map_map]
      rfl
    · cases typed with
      | leaf leaf _ => cases leaf
      | set bounded keys types =>
        exact List.forall_mem_map.mpr fun p member =>
          ih p member (types p.1 (listing.mem_iff.mpr (List.mem_map_of_mem member)))
  | map pairs listed keys values keyIh valueIh =>
    rename_i order key value entries
    have listing := listed.perm
    -- All keys stand before all values, so that each entry is two of the pairs.
    have whole : Reordered registry (.map order key value) (.map entries) _ :=
      .map pairs listed keys values
    refine composed _ _ _ _ _ _ _
      ((pairs.map fun p => (key, p.1.1, p.2.1)) ++ pairs.map fun p => (value, p.1.2, p.2.2)) typed
      (whole.hasType typed) .map .map (by simp only [listing.length_eq, List.length_map]) ?_ ?_ ?_
    · have all := (listing.map fun e => (key, e.1)).append (listing.map fun e => (value, e.2))
      simp only [List.map_append, List.map_map] at all ⊢
      exact all
    · simp only [List.map_append, List.map_map]
      rfl
    · cases typed with
      | leaf leaf _ => cases leaf
      | map bounded all keyTypes valueTypes =>
        have among (p) (member : p ∈ pairs) := listing.mem_iff.mpr (List.mem_map_of_mem member)
        intro p member
        rcases List.mem_append.mp member with member | member
        · obtain ⟨q, inside, rfl⟩ := List.mem_map.mp member
          exact keyIh q inside (keyTypes q.1 (among q inside))
        · obtain ⟨q, inside, rfl⟩ := List.mem_map.mp member
          exact valueIh q inside (valueTypes q.1 (among q inside))
  | tuple parts each ih =>
    have whole : Reordered registry (.tuple _) _ _ := .tuple parts each
    refine composed _ _ _ _ _ _ _ parts typed (whole.hasType typed) .tuple .tuple rfl
      (.of_eq (zip_map_same ..)) (zip_map_same ..) ?_
    cases typed with
    | leaf leaf _ => cases leaf
    | tuple paired types =>
      rw [zip_map_same, List.forall_mem_map] at types
      exact fun p member => ih p member (types p member)
  | record parts declared found skipped each ih =>
    have whole : Reordered registry (.named _) _ _ := .record parts declared found skipped each
    refine composed _ _ _ _ _ _ _
      ((parts.filter fun p => p.1.skipped.isNone).map fun p => (p.1.schema, p.2)) typed
      (whole.hasType typed) (.record declared found) (.record declared found) rfl
      (.of_eq ?_) ?_ ?_
    · rw [wireParts_map, List.map_map]
      rfl
    · rw [wireParts_map, List.map_map]
      rfl
    · cases typed with
      | leaf leaf _ => cases leaf
      | record again same paired _ types =>
        cases declared.symm.trans again
        cases found.symm.trans same
        rw [zip_map_same, List.forall_mem_map] at types
        refine List.forall_mem_map.mpr fun p member => ?_
        obtain ⟨among, wired⟩ := List.mem_filter.mp member
        have wired := Option.isNone_iff_eq_none.mp wired
        exact ih p among wired (types p among wired)
  | variant parts declared found fields skipped each ih =>
    have whole : Reordered registry (.named _) _ _ :=
      .variant parts declared found fields skipped each
    obtain ⟨-, -, -, types⟩ := Conforms.of_variant declared found typed
    rw [fields, zip_map_same, List.forall_mem_map] at types
    refine composed _ _ _ _ _ _ _
      ((parts.filter fun p => p.1.skipped.isNone).map fun p => (p.1.schema, p.2)) typed
      (whole.hasType typed) (.variant declared found) (.variant declared found) rfl
      (.of_eq ?_) ?_ ?_
    · rw [fields, wireParts_map, List.map_map]
      rfl
    · rw [fields, wireParts_map, List.map_map]
      rfl
    · refine List.forall_mem_map.mpr fun p member => ?_
      obtain ⟨among, wired⟩ := List.mem_filter.mp member
      have wired := Option.isNone_iff_eq_none.mp wired
      exact ih p among wired (types p among wired)

theorem sizeParts_congr {α : Type} {pairs : List α} {f g : α → Schema × Value}
    (same : ∀ p ∈ pairs,
      encodedSize registry (g p).1 (g p).2 = encodedSize registry (f p).1 (f p).2) (total : Nat) :
    sizeParts registry total (pairs.map g) = sizeParts registry total (pairs.map f) := by
  induction pairs generalizing total with
  | nil => rfl
  | cons p rest ih =>
    rw [List.forall_mem_cons] at same
    simp only [List.map_cons, sizeParts, same.1, ih same.2]

/-- Whether `v` is written like `u` is: without a failure, in as many bytes, and measured the same, where
nothing but a size that is too large may be found. -/
def SameSize (registry : Registry) (schema : Schema) (u v : Value) : Prop :=
  (encode registry schema v).error = none ∧
    (encode registry schema v).bytes.length = (encode registry schema u).bytes.length ∧
    encodedSize registry schema v = encodedSize registry schema u ∧
    ∀ e, encodedSize registry schema u = .error e → e = .sizeOverflow

theorem sizeOverflow_of_encode (coherent : registry.Coherent) (typed : HasType registry schema v)
    (succeeds : (encode registry schema v).error = none) {e : Error}
    (size : encodedSize registry schema v = .error e) : e = .sizeOverflow := by
  rcases encodedSize_of_encode coherent typed succeeds with told | ⟨exceeds, -⟩
  · cases told.symm.trans size
  · exact (Except.error.inj (exceeds.symm.trans size)).symm

theorem SameSize.composed (coherent : registry.Coherent) {front back : List UInt8}
    {parts others : List (Schema × Value)} {pairs : List (Schema × Value × Value)}
    (typed : HasType registry schema u) (other : HasType registry schema v)
    (layout : Layout registry schema u front parts)
    (layoutOther : Layout registry schema v back others) (long : front.length = back.length)
    (perm : parts.Perm (pairs.map fun p => (p.1, p.2.1)))
    (forms : others = pairs.map fun p => (p.1, p.2.2))
    (each : ∀ p ∈ pairs, (encode registry p.1 p.2.1).error = none →
      SameSize registry p.1 p.2.1 p.2.2)
    (succeeds : (encode registry schema u).error = none) : SameSize registry schema u v := by
  obtain ⟨bytes, ends⟩ := layout.encode_same coherent typed
  obtain ⟨bytesOther, endsOther⟩ := layoutOther.encode_same coherent other
  rw [Output.error_append, Output.error_piece, Option.none_or] at ends endsOther
  -- Each part can be written since all of them can, and then so can its other form.
  have written := succeeds
  rw [ends, encodeParts_succeeds_iff] at written
  have same (p) (member : p ∈ pairs) : SameSize registry p.1 p.2.1 p.2.2 :=
    each p member (written _ (perm.mem_iff.mpr (List.mem_map_of_mem member)))
  have writtenOther : (encodeParts registry others).error = none := by
    rw [encodeParts_succeeds_iff, forms, List.forall_mem_map]
    exact fun p member => (same p member).1
  refine ⟨endsOther.trans writtenOther, ?_, ?_, fun e => sizeOverflow_of_encode coherent typed succeeds⟩
  · have lengths : (others.flatMap fun p => (encode registry p.1 p.2).bytes).length =
        (parts.flatMap fun p => (encode registry p.1 p.2).bytes).length := by
      rw [(perm.flatMap_right _).length_eq, forms, List.length_flatMap, List.length_flatMap,
        List.map_map, List.map_map]
      exact congrArg List.sum (List.map_congr_left fun p member => (same p member).2.1)
    rw [bytes, bytesOther, Output.bytes_append rfl, Output.bytes_append rfl, List.length_append,
      List.length_append, bytes_encodeParts writtenOther, bytes_encodeParts (ends.symm.trans succeeds),
      Output.bytes_piece, Output.bytes_piece, long, lengths]
  · have measured : sizeParts registry back.length (pairs.map fun p => (p.1, p.2.2)) =
        sizeParts registry back.length (pairs.map fun p => (p.1, p.2.1)) :=
      sizeParts_congr (fun p member => (same p member).2.2.1) _
    rw [layout.encodedSize_eq, layoutOther.encodedSize_eq, forms, measured, long]
    refine sizeParts_perm perm.symm ?_ _
    rw [List.forall_mem_map]
    exact fun p member => (same p member).2.2.2

theorem Reordered.sameSize (coherent : registry.Coherent) (reordered : Reordered registry schema u v)
    (typed : HasType registry schema u) (succeeds : (encode registry schema u).error = none) :
    SameSize registry schema u v := by
  refine reordered.inductionOn typed
    (motive := fun schema u v => (encode registry schema u).error = none →
      SameSize registry schema u v) ?_ ?_ ?_ ?_ succeeds
  · intro schema v typed succeeds
    exact ⟨succeeds, rfl, rfl, fun e => sizeOverflow_of_encode coherent typed succeeds⟩
  · intro kind target u v ih succeeds
    simp only [SameSize, encode_pointer, encodedSize_pointer] at succeeds ⊢
    exact ih succeeds
  · intro item u v ih
    exact ih
  · intro schema u v front back parts others pairs typed other layout layoutOther long perm forms each
    exact .composed coherent typed other layout layoutOther long perm forms each

end sizes

end BinaryCodec.Schema
