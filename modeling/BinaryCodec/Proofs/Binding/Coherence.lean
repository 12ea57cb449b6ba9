import BinaryCodec.Binding.Codec
import BinaryCodec.Proofs.Definition.Resolution
import BinaryCodec.Proofs.Schema.Typing

namespace BinaryCodec

open Definition

namespace Binding

variable {doc : Document} {name : String}

section lookup

variable {α β : Type} {declare : α → String × β} {label : α → String} {items : List α}
  {rest : List (String × β)} (labels : ∀ item, (declare item).1 = label item)
include labels

theorem lookup_of_mem (member : name ∈ items.map label) :
    ∃ item, (items.map declare ++ rest).lookup name = some (declare item).2 := by
  induction items with
  | nil => cases member
  | cons item others ih =>
    rw [List.map_cons, List.cons_append, List.lookup_cons, labels]
    rcases List.mem_cons.mp member with rfl | later
    · exact ⟨item, by rw [beq_self_eq_true]⟩
    · cases same : name == label item with
      | true => exact ⟨item, rfl⟩
      | false => exact ih later

theorem lookup_of_not_mem (other : name ∉ items.map label) :
    (items.map declare ++ rest).lookup name = rest.lookup name := by
  induction items with
  | nil => rfl
  | cons item others ih =>
    rw [List.map_cons, List.mem_cons, not_or] at other
    rw [List.map_cons, List.cons_append, List.lookup_cons, labels, beq_false_of_ne other.1]
    exact ih other.2

theorem lookup_of_nodup (distinct : (items.map label).Nodup) {item : α} (member : item ∈ items) :
    (items.map declare ++ rest).lookup (label item) = some (declare item).2 := by
  induction items with
  | nil => cases member
  | cons first others ih =>
    rw [List.map_cons, List.nodup_cons] at distinct
    rw [List.map_cons, List.cons_append, List.lookup_cons, labels]
    rcases List.mem_cons.mp member with rfl | later
    · rw [beq_self_eq_true]
    · have other : label item ≠ label first := by
        intro same
        apply distinct.1
        rw [← same]
        exact List.mem_map_of_mem later
      rw [beq_false_of_ne other]
      exact ih distinct.2 later

end lookup

theorem shape?_message (path : String) (member : name ∈ doc.messages.map Message.name) :
    ∃ steps, (declarations path doc).shape? name = some (.message steps) := by
  have found : ∃ m, (declarations path doc).lookup name = some (declareMessage path m).2 :=
    lookup_of_mem (fun _ => rfl) member
  obtain ⟨m, found⟩ := found
  exact ⟨_, by rw [Registry.shape?, found]; rfl⟩

theorem shape?_enumeration (path : String) (other : name ∉ doc.messages.map Message.name)
    (member : name ∈ doc.enumerations.map Enumeration.name) :
    ∃ names, (declarations path doc).shape? name = some (.choices names) := by
  have passed : (declarations path doc).lookup name =
      (doc.enumerations.map (declareEnumeration path)).lookup name :=
    lookup_of_not_mem (fun _ => rfl) other
  have found : ∃ e, (doc.enumerations.map (declareEnumeration path) ++ []).lookup name =
      some (declareEnumeration path e).2 := lookup_of_mem (fun _ => rfl) member
  obtain ⟨e, found⟩ := found
  rw [List.append_nil] at found
  exact ⟨_, by rw [Registry.shape?, passed, found]; rfl⟩

theorem declared_of_shape? {path : String} {shape : Shape}
    (declared : (declarations path doc).shape? name = some shape) :
    (∃ m ∈ doc.messages, m.name = name ∧
        shape = .message ((NativeRecord.ofMessage m).fields.map NativeField.step)) ∨
      ∃ e ∈ doc.enumerations, e.name = name ∧
        shape = .choices ((NativeEnumeration.ofEnumeration e).cases.map NativeCase.name) := by
  obtain ⟨declaration, found, rfl⟩ := Option.map_eq_some_iff.mp declared
  obtain ⟨front, back, split, -⟩ := List.lookup_eq_some_iff.mp found
  have member : (name, declaration) ∈ declarations path doc := by
    rw [split]
    exact List.mem_append_right _ (List.mem_cons_self ..)
  rcases List.mem_append.mp member with message | enumeration
  · obtain ⟨m, among, same⟩ := List.mem_map.mp message
    cases same
    exact .inl ⟨m, among, rfl, rfl⟩
  · obtain ⟨e, among, same⟩ := List.mem_map.mp enumeration
    cases same
    exact .inr ⟨e, among, rfl, rfl⟩

theorem coherent_step (path : String) {field : MessageField} (resolved : field.type.Resolved doc) :
    (NativeField.ofField field).step.Coherent (declarations path doc) := by
  obtain ⟨label, type, isArray, place⟩ := field
  cases type with
  | builtin builtin => cases builtin <;> exact ⟨rfl, rfl, True.intro, True.intro⟩
  | message name => exact ⟨rfl, rfl, shape?_message path resolved, shape?_message path resolved⟩
  | enumeration name =>
    have declared := shape?_enumeration path resolved.1 resolved.2
    exact ⟨rfl, rfl, declared, declared⟩

theorem coherent_declarations (path : String) {draft : Draft} {package : String}
    (resolved : draft.resolve package = .ok doc) : (declarations path doc).Coherent := by
  apply Registry.coherent_of_forall
  intro declaration member steps shape step among
  rcases List.mem_append.mp member with message | enumeration
  · obtain ⟨m, inside, rfl⟩ := List.mem_map.mp message
    cases shape
    obtain ⟨native, line, rfl⟩ := List.mem_map.mp among
    obtain ⟨field, written, rfl⟩ := List.mem_map.mp line
    exact coherent_step path (Draft.resolved_of_resolve resolved inside written)
  · obtain ⟨e, inside, rfl⟩ := List.mem_map.mp enumeration
    cases shape

end Binding

end BinaryCodec
