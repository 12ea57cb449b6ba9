import BinaryCodec.Definition.Resolution
import BinaryCodec.Proofs.Definition.Grammar
import Mathlib.Data.List.Forall2

namespace BinaryCodec.Definition

section related

variable {α β γ : Type} {related : α → β → Prop} {items : List α} {results : List β}

theorem exists_of_forall₂ (all : List.Forall₂ related items results) {r : β} (member : r ∈ results) :
    ∃ item ∈ items, related item r := by
  induction all with
  | nil => cases member
  | cons one others ih =>
    rcases List.mem_cons.mp member with rfl | later
    · exact ⟨_, List.mem_cons_self .., one⟩
    · obtain ⟨item, among, relates⟩ := ih later
      exact ⟨item, List.mem_cons_of_mem _ among, relates⟩

theorem map_eq_of_forall₂ {g : β → γ} {k : α → γ} (all : List.Forall₂ related items results)
    (h : ∀ item r, related item r → g r = k item) : results.map g = items.map k := by
  induction all with
  | nil => rfl
  | cons one others ih => rw [List.map_cons, List.map_cons, h _ _ one, ih]

end related

section mapM

variable {α β γ ε : Type} {f : α → Except ε β} {items : List α} {results : List β}

theorem mapM_eq_ok :
    items.mapM f = .ok results ↔ List.Forall₂ (fun item r => f item = .ok r) items results := by
  induction items generalizing results with
  | nil =>
    rw [List.forall₂_nil_left_iff]
    exact ⟨fun h => (Except.ok.inj h).symm, fun h => h ▸ rfl⟩
  | cons item rest ih =>
    simp only [List.mapM_cons, bind_eq_ok, List.forall₂_cons_left_iff, ih]
    constructor
    · rintro ⟨r, made, others, more, same⟩
      exact ⟨r, others, made, more, (Except.ok.inj same).symm⟩
    · rintro ⟨r, others, made, more, rfl⟩
      exact ⟨r, made, others, more, rfl⟩

theorem exists_of_mapM_ok (h : items.mapM f = .ok results) {r : β} (member : r ∈ results) :
    ∃ item ∈ items, f item = .ok r :=
  exists_of_forall₂ (mapM_eq_ok.mp h) member

theorem map_of_mapM_ok {g : β → γ} {k : α → γ} (h : items.mapM f = .ok results)
    (same : ∀ item r, f item = .ok r → g r = k item) : results.map g = items.map k :=
  map_eq_of_forall₂ (mapM_eq_ok.mp h) same

end mapM

def FieldType.Resolved (doc : Document) : FieldType → Prop
  | .builtin _ => True
  | .message name => name ∈ doc.messages.map Message.name
  | .enumeration name =>
    name ∉ doc.messages.map Message.name ∧ name ∈ doc.enumerations.map Enumeration.name

namespace Draft

variable {draft : Draft} {package : String} {doc : Document}

/-- The document of a draft whose messages are `messages`. -/
def document (draft : Draft) (package : String) (messages : List Message) : Document :=
  ⟨package, draft.pragmas.foldr insertName [], messages, draft.enumerations, draft.services⟩

theorem resolve_eq_ok : draft.resolve package = .ok doc ↔
    (∀ type ∈ draft.procedureTypes, type.text ∈ draft.messages.map (·.name.text)) ∧
    ∃ messages, draft.messages.mapM draft.resolveMessage = .ok messages ∧
      rejectInlineCycles messages = .ok () ∧ doc = draft.document package messages := by
  simp only [resolve]
  split
  · next type found =>
    have outside := List.find?_some found
    constructor
    · intro h
      cases h
    · intro h
      have inside := h.1 type (List.mem_of_find?_eq_some found)
      simp [inside] at outside
  · next found =>
    have inside : ∀ type ∈ draft.procedureTypes, type.text ∈ draft.messages.map (·.name.text) := by
      intro type member
      have passed := List.find?_eq_none.mp found type member
      simpa using passed
    simp only [bind_eq_ok]
    constructor
    · intro h
      obtain ⟨messages, made, ⟨⟩, straight, same⟩ := h
      exact ⟨inside, messages, made, straight, (Except.ok.inj same).symm⟩
    · intro h
      obtain ⟨-, messages, made, straight, rfl⟩ := h
      exact ⟨messages, made, (), straight, rfl⟩

theorem resolveMessage_eq_ok {source : DraftMessage} {m : Message} :
    draft.resolveMessage source = .ok m ↔ m.name = source.name.text ∧
      m.place = source.name.place ∧ source.fields.mapM draft.resolveField = .ok m.fields := by
  simp only [resolveMessage, bind_eq_ok]
  constructor
  · intro h
    obtain ⟨fields, made, same⟩ := h
    cases same
    exact ⟨rfl, rfl, made⟩
  · intro h
    obtain ⟨name, fields, place⟩ := m
    obtain ⟨rfl, rfl, made⟩ := h
    exact ⟨fields, made, rfl⟩

theorem resolveField_eq_ok {source : DraftField} {field : MessageField} :
    draft.resolveField source = .ok field ↔ ∃ type, draft.fieldType? source.type.text = some type ∧
      field = ⟨source.name, type, source.isArray, source.type.place⟩ := by
  unfold resolveField
  split
  · next type found =>
    rw [Except.ok.injEq]
    simp only [found, Option.some.injEq]
    constructor
    · intro same
      exact ⟨type, rfl, same.symm⟩
    · intro h
      obtain ⟨_, rfl, rfl⟩ := h
      rfl
  · next missing => simp [missing]

theorem names_of_resolve {messages : List Message}
    (made : draft.messages.mapM draft.resolveMessage = .ok messages) :
    messages.map Message.name = draft.messages.map (·.name.text) :=
  map_of_mapM_ok made fun _ _ h => (resolveMessage_eq_ok.mp h).1

theorem fieldType?_resolved {messages : List Message} {name : String} {type : FieldType}
    (made : draft.messages.mapM draft.resolveMessage = .ok messages)
    (found : draft.fieldType? name = some type) :
    type.Resolved (draft.document package messages) := by
  unfold fieldType? at found
  rw [← names_of_resolve made] at found
  split at found
  · cases found
    exact True.intro
  · split at found
    · next inside =>
      cases found
      exact inside
    · next outside =>
      split at found
      · next inside =>
        cases found
        exact ⟨outside, inside⟩
      · cases found

theorem resolved_of_resolve (h : draft.resolve package = .ok doc) {m : Message}
    (declared : m ∈ doc.messages) {field : MessageField} (member : field ∈ m.fields) :
    field.type.Resolved doc := by
  obtain ⟨-, messages, made, -, rfl⟩ := resolve_eq_ok.mp h
  obtain ⟨source, -, one⟩ := exists_of_mapM_ok made declared
  obtain ⟨line, -, looked⟩ := exists_of_mapM_ok (resolveMessage_eq_ok.mp one).2.2 member
  obtain ⟨type, found, rfl⟩ := resolveField_eq_ok.mp looked
  exact fieldType?_resolved made found

end Draft

end BinaryCodec.Definition
