import BinaryCodec.Proofs.Schema.Order

namespace BinaryCodec

/-- Whether the keys of a collection may be listed as `keys`: none twice, and in ascending order if
the collection keeps them so. -/
def KeyOrder.Lists (order : KeyOrder) (keys : List Value) : Prop :=
  match order with
  | .sorted => keys.Pairwise fun a b => Value.compare a b = .lt
  | .hashed | .insertion => keys.Nodup

/-- The members of a collection as they are listed after they were inserted one after the other: those
of a hash collection in ascending order of their keys. -/
def KeyOrder.relist {α : Type} (order : KeyOrder) (key : α → Value) (members : List α) : List α :=
  match order with
  | .hashed => members.mergeSort fun a b => (Value.compare (key a) (key b)).isLE
  | .sorted | .insertion => members

namespace Value

def Ascending (entries : List (Value × Value)) : Prop :=
  entries.Pairwise fun a b => compare a.1 b.1 = .lt

def entriesOf (order : KeyOrder) (entries : List (Value × Value)) : List (Value × Value) :=
  entries.foldl (insertEntry order) []

variable {key value : Value} {entries : List (Value × Value)}

theorem ascending_iff : Ascending entries ↔ KeyOrder.sorted.Lists (entries.map Prod.fst) := by
  simp only [Ascending, KeyOrder.Lists, List.pairwise_map]

theorem nodup_of_sorted {keys : List Value} (sorted : KeyOrder.sorted.Lists keys) : keys.Nodup := by
  refine List.Pairwise.imp ?_ sorted
  intro a b less same
  have self : compare b b = .eq := Std.ReflCmp.compare_self
  rw [same, self] at less
  cases less

section sorted

theorem mem_insertSorted {e : Value × Value} (h : e ∈ insertSorted key value entries) :
    e = (key, value) ∨ e ∈ entries := by
  induction entries with
  | nil => exact .inl (List.mem_singleton.mp h)
  | cons first rest ih =>
    obtain ⟨k, v⟩ := first
    unfold insertSorted at h
    split at h
    · exact List.mem_cons.mp h
    · rcases List.mem_cons.mp h with same | member
      · exact .inl same
      · exact .inr (List.mem_cons_of_mem _ member)
    · rcases List.mem_cons.mp h with same | member
      · exact .inr (List.mem_cons.mpr (.inl same))
      · rcases ih member with same | member
        · exact .inl same
        · exact .inr (List.mem_cons_of_mem _ member)

theorem ascending_insertSorted (ascending : Ascending entries) :
    Ascending (insertSorted key value entries) := by
  induction entries with
  | nil => exact List.pairwise_singleton _ _
  | cons first rest ih =>
    obtain ⟨k, v⟩ := first
    obtain ⟨least, ordered⟩ := List.pairwise_cons.mp ascending
    unfold insertSorted
    split
    · next less =>
      refine List.pairwise_cons.mpr ⟨?_, ascending⟩
      intro e member
      rcases List.mem_cons.mp member with rfl | member
      · exact less
      · exact Std.TransCmp.lt_trans less (least e member)
    · next same =>
      have equal := Std.LawfulEqCmp.eq_of_compare same
      subst equal
      exact List.pairwise_cons.mpr ⟨least, ordered⟩
    · next greater =>
      refine List.pairwise_cons.mpr ⟨?_, ih ordered⟩
      intro e member
      rcases mem_insertSorted member with rfl | member
      · exact Std.OrientedCmp.lt_of_gt greater
      · exact least e member

theorem insertSorted_perm (fresh : key ∉ entries.map Prod.fst) :
    (insertSorted key value entries).Perm ((key, value) :: entries) := by
  induction entries with
  | nil => exact .refl _
  | cons first rest ih =>
    obtain ⟨k, v⟩ := first
    simp only [List.map_cons, List.mem_cons, not_or] at fresh
    unfold insertSorted
    split
    · exact .refl _
    · next same => exact absurd (Std.LawfulEqCmp.eq_of_compare same) fresh.1
    · exact ((ih fresh.2).cons _).trans (.swap ..)

end sorted

section last

theorem mem_insertLast {e : Value × Value} (h : e ∈ insertLast key value entries) :
    e = (key, value) ∨ e ∈ entries := by
  induction entries with
  | nil => exact .inl (List.mem_singleton.mp h)
  | cons first rest ih =>
    obtain ⟨k, v⟩ := first
    unfold insertLast at h
    split at h
    · next same =>
      have equal := Std.LawfulEqCmp.eq_of_compare same
      subst equal
      rcases List.mem_cons.mp h with same | member
      · exact .inl same
      · exact .inr (List.mem_cons_of_mem _ member)
    · rcases List.mem_cons.mp h with same | member
      · exact .inr (List.mem_cons.mpr (.inl same))
      · rcases ih member with same | member
        · exact .inl same
        · exact .inr (List.mem_cons_of_mem _ member)

theorem insertLast_eq_append (fresh : key ∉ entries.map Prod.fst) :
    insertLast key value entries = entries ++ [(key, value)] := by
  induction entries with
  | nil => rfl
  | cons first rest ih =>
    obtain ⟨k, v⟩ := first
    simp only [List.map_cons, List.mem_cons, not_or] at fresh
    have differ : ¬compare key k = .eq := fun same => fresh.1 (Std.LawfulEqCmp.eq_of_compare same)
    rw [insertLast, if_neg differ, ih fresh.2, List.cons_append]

theorem nodup_insertLast (nodup : (entries.map Prod.fst).Nodup) :
    ((insertLast key value entries).map Prod.fst).Nodup := by
  induction entries with
  | nil => simp [insertLast]
  | cons first rest ih =>
    obtain ⟨k, v⟩ := first
    obtain ⟨fresh, others⟩ := List.nodup_cons.mp nodup
    unfold insertLast
    split
    · exact nodup
    · next differ =>
      refine List.nodup_cons.mpr ⟨?_, ih others⟩
      intro member
      obtain ⟨e, among, same⟩ := List.mem_map.mp member
      rcases mem_insertLast among with rfl | among
      · apply differ
        rw [show key = k from same]
        exact Std.ReflCmp.compare_self
      · exact fresh (List.mem_map.mpr ⟨e, among, same⟩)

end last

section many

variable {order : KeyOrder}

theorem mem_insertEntry {e new : Value × Value} (h : e ∈ insertEntry order entries new) :
    e = new ∨ e ∈ entries := by
  cases order with
  | insertion => exact mem_insertLast h
  | sorted | hashed => exact mem_insertSorted h

theorem foldl_insertEntry {P : List (Value × Value) → Prop} (more : List (Value × Value))
    (start : P entries) (step : ∀ es e, P es → P (insertEntry order es e)) :
    P (more.foldl (insertEntry order) entries) := by
  induction more generalizing entries with
  | nil => exact start
  | cons e more ih => exact ih (step entries e start)

theorem mem_entriesOf {e : Value × Value} (h : e ∈ entriesOf order entries) : e ∈ entries := by
  have among (more seen : List (Value × Value)) (member : e ∈ more.foldl (insertEntry order) seen) :
      e ∈ seen ∨ e ∈ more := by
    induction more generalizing seen with
    | nil => exact .inl member
    | cons new more ih =>
      rcases ih _ member with old | later
      · rcases mem_insertEntry old with rfl | old
        · exact .inr (List.mem_cons_self ..)
        · exact .inl old
      · exact .inr (List.mem_cons_of_mem _ later)
  rcases among entries [] h with none | member
  · cases none
  · exact member

theorem length_insertEntry_le (e : Value × Value) :
    (insertEntry order entries e).length ≤ entries.length + 1 := by
  cases order with
  | insertion =>
    change (insertLast e.1 e.2 entries).length ≤ _
    induction entries with
    | nil => exact Nat.le_refl _
    | cons first rest ih =>
      unfold insertLast
      split <;> simp only [List.length_cons] <;> omega
  | sorted | hashed =>
    change (insertSorted e.1 e.2 entries).length ≤ _
    induction entries with
    | nil => exact Nat.le_refl _
    | cons first rest ih =>
      unfold insertSorted
      split <;> simp only [List.length_cons] <;> omega

theorem length_entriesOf_le : (entriesOf order entries).length ≤ entries.length := by
  have total (more seen : List (Value × Value)) :
      (more.foldl (insertEntry order) seen).length ≤ seen.length + more.length := by
    induction more generalizing seen with
    | nil => exact Nat.le_refl _
    | cons new more ih =>
      have rest := ih (insertEntry order seen new)
      have first : (insertEntry order seen new).length ≤ seen.length + 1 :=
        length_insertEntry_le new
      simp only [List.foldl_cons, List.length_cons]
      omega
  have whole := total entries []
  rwa [List.length_nil, Nat.zero_add] at whole

theorem ascending_entriesOf_hashed : Ascending (entriesOf .hashed entries) :=
  foldl_insertEntry entries List.Pairwise.nil fun _ _ => ascending_insertSorted

theorem lists_entriesOf : order.Lists ((entriesOf order entries).map Prod.fst) := by
  cases order with
  | sorted =>
    rw [← ascending_iff]
    exact foldl_insertEntry entries List.Pairwise.nil fun _ _ => ascending_insertSorted
  | hashed => exact nodup_of_sorted (ascending_iff.mp ascending_entriesOf_hashed)
  | insertion =>
    exact foldl_insertEntry (P := fun es => (es.map Prod.fst).Nodup) entries List.nodup_nil
      fun _ _ => nodup_insertLast

theorem relist_of_ascending (ascending : Ascending entries) :
    KeyOrder.hashed.relist Prod.fst entries = entries := by
  refine List.mergeSort_of_pairwise (ascending.imp ?_)
  intro a b less
  rw [less]
  rfl

theorem relist_entriesOf : order.relist Prod.fst (entriesOf order entries) = entriesOf order entries := by
  cases order with
  | hashed => exact relist_of_ascending ascending_entriesOf_hashed
  | sorted | insertion => rfl

theorem foldl_insertSorted_perm {seen : List (Value × Value)}
    (nodup : ((seen ++ entries).map Prod.fst).Nodup) :
    (entries.foldl (insertEntry .hashed) seen).Perm (seen ++ entries) := by
  induction entries generalizing seen with
  | nil => simp
  | cons e rest ih =>
    have middle : (seen ++ e :: rest).Perm (e :: seen ++ rest) := List.perm_middle
    have moved := (middle.map Prod.fst).nodup_iff.mp nodup
    have fresh : e.1 ∉ seen.map Prod.fst := by
      intro member
      apply (List.nodup_cons.mp moved).1
      change e.1 ∈ (seen ++ rest).map Prod.fst
      rw [List.map_append]
      exact List.mem_append_left _ member
    have inserted : (insertSorted e.1 e.2 seen).Perm (e :: seen) := insertSorted_perm fresh
    have placed := inserted.append_right rest
    exact (ih ((placed.map Prod.fst).nodup_iff.mpr moved)).trans (placed.trans middle.symm)

theorem foldl_insertLast {seen : List (Value × Value)}
    (nodup : ((seen ++ entries).map Prod.fst).Nodup) :
    entries.foldl (insertEntry .insertion) seen = seen ++ entries := by
  induction entries generalizing seen with
  | nil => simp
  | cons e rest ih =>
    have fresh : e.1 ∉ seen.map Prod.fst := by
      rw [List.map_append, List.nodup_append] at nodup
      exact fun member => nodup.2.2 _ member _ (List.mem_map_of_mem (List.mem_cons_self ..)) rfl
    have inserted : insertLast e.1 e.2 seen = seen ++ [e] := insertLast_eq_append fresh
    have split : seen ++ e :: rest = seen ++ [e] ++ rest := by simp
    rw [List.foldl_cons]
    change List.foldl _ (insertLast e.1 e.2 seen) rest = _
    rw [inserted, split]
    exact ih (by rwa [← split])

theorem eq_of_perm_of_ascending {others : List (Value × Value)} (perm : entries.Perm others)
    (first : Ascending entries) (second : Ascending others) : entries = others := by
  refine perm.eq_of_pairwise (fun a b _ _ less greater => ?_) first second
  exact absurd greater (Std.OrientedCmp.not_lt_of_lt less)

theorem entriesOf_hashed (nodup : (entries.map Prod.fst).Nodup) :
    entriesOf .hashed entries = KeyOrder.hashed.relist Prod.fst entries := by
  have sorted : (KeyOrder.hashed.relist Prod.fst entries).Perm entries := List.mergeSort_perm _ _
  have inserted : (entriesOf .hashed entries).Perm ([] ++ entries) := foldl_insertSorted_perm nodup
  have distinct : ((KeyOrder.hashed.relist Prod.fst entries).map Prod.fst).Nodup :=
    (sorted.map Prod.fst).nodup_iff.mpr nodup
  have ordered : (KeyOrder.hashed.relist Prod.fst entries).Pairwise
      fun a b => (compare a.1 b.1).isLE := by
    refine List.pairwise_mergeSort (fun a b c => Std.TransCmp.isLE_trans) (fun a b => ?_) entries
    have swap : compare a.1 b.1 = (compare b.1 a.1).swap := Std.OrientedCmp.eq_swap
    rw [swap]
    cases compare b.1 a.1 <;> rfl
  apply eq_of_perm_of_ascending (inserted.trans sorted.symm) ascending_entriesOf_hashed
  apply (ordered.and (List.pairwise_map.mp distinct)).imp
  rintro a b ⟨le, differ⟩
  cases less : compare a.1 b.1 with
  | lt => rfl
  | eq => exact absurd (Std.LawfulEqCmp.eq_of_compare less) differ
  | gt =>
    rw [less] at le
    cases le

theorem entriesOf_eq (lists : order.Lists (entries.map Prod.fst)) :
    entriesOf order entries = order.relist Prod.fst entries := by
  cases order with
  | sorted =>
    have ascending := ascending_iff.mpr lists
    exact (entriesOf_hashed (nodup_of_sorted lists)).trans (relist_of_ascending ascending)
  | hashed => exact entriesOf_hashed lists
  | insertion =>
    have appended : entriesOf .insertion entries = [] ++ entries := foldl_insertLast lists
    exact appended

theorem mapOf_eq (lists : order.Lists (entries.map Prod.fst)) :
    mapOf order entries = .map (order.relist Prod.fst entries) := congrArg _ (entriesOf_eq lists)

theorem map_relist {α : Type} (key : α → Value) (members : List α) :
    (order.relist key members).map key = order.relist id (members.map key) := by
  cases order with
  | sorted | insertion => rfl
  | hashed => exact List.map_mergeSort fun _ _ _ _ => rfl

theorem setOf_eq {items : List Value} (lists : order.Lists items) :
    setOf order items = .list (order.relist id items) := by
  have keys : (items.map fun item => (item, Value.unit)).map Prod.fst = items := by
    rw [List.map_map]
    exact List.map_id items
  have inserted := entriesOf_eq (by rwa [keys])
  change Value.list ((entriesOf order (items.map fun item => (item, Value.unit))).map Prod.fst) = _
  rw [inserted, map_relist, keys]

end many

end Value

end BinaryCodec
