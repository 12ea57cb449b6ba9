import BinaryCodec.Proofs.Schema.Typing

namespace BinaryCodec.Schema

inductive Part (registry : Registry) : Schema → Schema → Prop
  | array {count : Nat} {item : Schema} (filled : 0 < count) :
      Part registry (.array count item) item
  | pointer {kind : PointerKind} {target : Schema} : Part registry (.pointer kind target) target
  | option {item : Schema} : Part registry (.option item) item
  | tuple {items : List Schema} {item : Schema} (member : item ∈ items) :
      Part registry (.tuple items) item
  | field {name : String} {shape : Shape} {fields : List Field} {field : Field}
      (declared : registry.shape? name = some shape) (found : shape.fields? = some fields)
      (member : field ∈ fields) (wired : field.skipped = none) :
      Part registry (.named name) field.schema

abbrev Leads (registry : Registry) : Schema → Schema → Prop := Relation.TransGen (Part registry)

section uninhabited

variable {registry : Registry} {schema part : Schema} {v : Value} {name : String}

theorem exists_zip_left {α β : Type} {as : List α} {bs : List β} (paired : as.length = bs.length)
    {a : α} (member : a ∈ as) : ∃ b ∈ bs, (a, b) ∈ as.zip bs := by
  obtain ⟨i, inside, rfl⟩ := List.getElem_of_mem member
  have within : i < (as.zip bs).length := by
    rw [List.length_zip]
    omega
  refine ⟨bs[i], List.getElem_mem _, ?_⟩
  rw [← List.getElem_zip (h := within)]
  exact List.getElem_mem within

theorem Part.exists_value (leads : Part registry schema part)
    (holds : Representable registry schema v) :
    ∃ w, Representable registry part w ∧ sizeOf w ≤ sizeOf v ∧
      ∀ name, schema = .named name → sizeOf w < sizeOf v := by
  cases leads with
  | array filled =>
    cases holds with
    | leaf leaf _ => cases leaf
    | array counted each =>
      rename_i items
      obtain ⟨w, member⟩ := List.exists_mem_of_length_pos (counted ▸ filled)
      have smaller := List.sizeOf_lt_of_mem member
      refine ⟨w, each w member, ?_, fun name named => by cases named⟩
      simp only [Value.list.sizeOf_spec]
      omega
  | pointer =>
    cases holds with
    | leaf leaf _ => cases leaf
    | pointer pointed => exact ⟨v, pointed, Nat.le_refl _, fun name named => by cases named⟩
  | option =>
    cases holds with
    | leaf leaf _ => cases leaf
    | absent allowed => exact allowed.elim
    | present inner =>
      refine ⟨_, inner, ?_, fun name named => by cases named⟩
      simp +arith
  | tuple member =>
    cases holds with
    | leaf leaf _ => cases leaf
    | tuple paired each =>
      obtain ⟨w, among, both⟩ := exists_zip_left paired member
      have smaller := List.sizeOf_lt_of_mem among
      refine ⟨w, each _ both, ?_, fun name named => by cases named⟩
      simp only [Value.list.sizeOf_spec]
      omega
  | field declared found member wired =>
    cases holds with
    | leaf leaf _ => cases leaf
    | record again same paired skipped each =>
      cases declared.symm.trans again
      cases found.symm.trans same
      obtain ⟨w, among, both⟩ := exists_zip_left paired member
      have smaller := List.sizeOf_lt_of_mem among
      rename_i values
      have less : sizeOf w < sizeOf (Value.record values) := by
        simp only [Value.record.sizeOf_spec]
        omega
      exact ⟨w, each _ both wired, Nat.le_of_lt less, fun _ _ => less⟩
    | variant again =>
      cases declared.symm.trans again
      cases found
    | choice again =>
      cases declared.symm.trans again
      cases found

theorem Leads.exists_value (leads : Leads registry (.named name) part)
    (holds : Representable registry (.named name) v) :
    ∃ w, Representable registry part w ∧ sizeOf w < sizeOf v := by
  induction leads with
  | single first =>
    obtain ⟨w, inner, -, less⟩ := first.exists_value holds
    exact ⟨w, inner, less name rfl⟩
  | tail _ next ih =>
    obtain ⟨u, outer, less⟩ := ih
    obtain ⟨w, inner, atMost, -⟩ := next.exists_value outer
    exact ⟨w, inner, Nat.lt_of_le_of_lt atMost less⟩

theorem not_representable_of_cycle (cycle : Leads registry (.named name) (.named name)) (v : Value) :
    ¬Representable registry (.named name) v := by
  induction size : sizeOf v using Nat.strongRecOn generalizing v with
  | ind n ih =>
    intro holds
    obtain ⟨w, inner, less⟩ := cycle.exists_value holds
    exact ih (sizeOf w) (size ▸ less) w rfl inner

end uninhabited

section opening

variable {registry : Registry} {names : List String} {name : String}

def closed (registry : Registry) (names : List String) : Nat :=
  (registry.filter fun declaration => declaration.1 ∉ names).length

theorem closed_le (registry : Registry) (names : List String) :
    closed registry names ≤ registry.length := List.length_filter_le ..

theorem closed_cons_lt {shape : Shape} (declared : registry.shape? name = some shape)
    (fresh : name ∉ names) : closed registry (name :: names) < closed registry names := by
  obtain ⟨declaration, found, -⟩ := Option.map_eq_some_iff.mp declared
  obtain ⟨front, back, rfl, -⟩ := List.lookup_eq_some_iff.mp found
  have both : (front ++ (name, declaration) :: back).filter
        (fun declaration => declaration.1 ∉ name :: names) =
      ((front ++ (name, declaration) :: back).filter fun declaration => declaration.1 ∉ names).filter
        fun declaration => declaration.1 ≠ name := by
    rw [List.filter_filter]
    apply List.filter_congr
    intro declaration _
    simp only [List.mem_cons, not_or, Bool.decide_and]
  unfold closed
  rw [both, List.length_filter_lt_length_iff_exists]
  refine ⟨(name, declaration), List.mem_filter.mpr ⟨by simp, ?_⟩, by simp⟩
  exact decide_eq_true fresh

end opening

end BinaryCodec.Schema
