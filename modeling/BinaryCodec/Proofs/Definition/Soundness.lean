import BinaryCodec.Proofs.Definition.Acyclic
import BinaryCodec.Proofs.Definition.Completeness

namespace BinaryCodec.Definition

theorem Row.kinds {α β : Type} {spelling : α → List TokenKind → Prop}
    {spelled : β → List Token → Prop} {related : α → β → Prop} {items : List α} {drafts : List β}
    {tokens : List Token} (row : Row spelled drafts tokens) (all : List.Forall₂ related items drafts)
    (each : ∀ item draft first, related item draft → spelled draft first →
      spelling item (first.map Token.kind)) : Row spelling items (tokens.map Token.kind) := by
  induction row generalizing items with
  | nil =>
    cases all
    exact .nil
  | cons head row ih =>
    cases all with
    | cons one others =>
      rw [List.map_append]
      exact .cons (each _ _ _ one head) (ih others)

theorem EnumerationValue.Spelled.spelling {v : EnumerationValue} {tokens : List Token}
    (spelled : v.Spelled tokens) : v.Spelling (tokens.map Token.kind) := by
  obtain ⟨place, rfl⟩ := spelled
  rfl

theorem DraftField.Spelled.spelling {field : MessageField} {draft : DraftField} {tokens : List Token}
    (drafts : field.Drafts draft) (spelled : draft.Spelled tokens) :
    field.Spelling (tokens.map Token.kind) := by
  obtain ⟨place, rfl⟩ := spelled
  have written : draft.written = field.written := by
    rw [DraftField.written, MessageField.written, drafts.name, drafts.isArray]
  refine ⟨draft.type.text, drafts.type, ?_⟩
  rw [← written]
  rfl

theorem requestSpelling_nonVoid {request inner : String}
    (asked : request = if inner = "" then voidName else inner) :
    requestSpelling (nonVoid request) inner := by
  unfold nonVoid
  split at asked
  · next empty =>
    rw [if_pos asked]
    exact .inl empty
  · rw [asked]
    split
    · next void => exact .inr void
    · rfl

theorem responseSpelling_nonVoid (text : String) : responseSpelling (nonVoid text) text := by
  unfold nonVoid
  split
  · next void => exact void
  · rfl

theorem DraftProcedure.Spelled.spelling {draft : DraftProcedure} {tokens : List Token}
    (spelled : draft.Spelled tokens) : draft.procedure.Spelling (tokens.map Token.kind) := by
  obtain ⟨signature, response, name, request, place, split, -, rfl, rfl⟩ := spelled
  obtain ⟨-, inner, whole, -, asked⟩ := shape_of_splitSignature split
  refine ⟨inner, response.text, requestSpelling_nonVoid asked, responseSpelling_nonVoid _, ?_⟩
  simp only [List.map_cons, List.map_nil, whole]
  rfl

theorem DraftProcedure.Spelled.drafts {draft : DraftProcedure} {tokens : List Token}
    (spelled : draft.Spelled tokens) : draft.procedure.Drafts draft := by
  obtain ⟨signature, response, name, request, place, -, -, rfl, -⟩ := spelled
  refine ⟨rfl, fun type listed => ?_⟩
  simp only [of, List.mem_append, Option.mem_toList, Option.map_eq_some_iff] at listed ⊢
  rcases listed with ⟨asked, some, rfl⟩ | ⟨answer, some, rfl⟩
  · exact .inl some
  · rw [← eq_of_nonVoid some] at some
    exact .inr some

theorem braced_kinds {α β : Type} {keyword : TokenKind} {name : Name}
    {spelling : α → List TokenKind → Prop} {spelled : β → List Token → Prop}
    {related : α → β → Prop} {items : List α} {drafts : List β} {body : List Token}
    (braced : DraftItem.Braced spelled name drafts body) (all : List.Forall₂ related items drafts)
    (each : ∀ item draft first, related item draft → spelled draft first →
      spelling item (first.map Token.kind)) :
    Item.Block keyword name.text spelling items (keyword :: body.map Token.kind) := by
  obtain ⟨opened, closed, inside, row, rfl⟩ := braced
  refine ⟨_, row.kinds all each, ?_⟩
  simp only [List.map_cons, List.map_append, List.map_nil]

theorem DraftItem.Spelled.spelling {item : Item} {draft : DraftItem} {tokens : List Token}
    (drafts : item.Drafts draft) (spelled : draft.Spelled tokens) :
    item.Spelling (tokens.map Token.kind) := by
  obtain ⟨place, body, whole, rfl⟩ := spelled
  cases draft with
  | pragma word =>
    cases item with
    | pragma text =>
      cases drafts
      cases whole
      rfl
    | enumeration | message | service => exact drafts.elim
  | enumeration name values =>
    cases item with
    | enumeration e =>
      obtain ⟨named, rfl⟩ := drafts
      have same : List.Forall₂ (· = ·) e.values e.values := by rw [List.forall₂_eq_eq_eq]
      rw [Item.Spelling, ← named]
      refine braced_kinds whole same fun v other first equal spelled => ?_
      cases equal
      exact spelled.spelling
    | pragma | message | service => exact drafts.elim
  | message name fields =>
    cases item with
    | message m =>
      rw [Item.Spelling, ← drafts.name]
      exact braced_kinds whole drafts.fields fun _ _ _ drafts spelled => spelled.spelling drafts
    | pragma | enumeration | service => exact drafts.elim
  | service name procedures =>
    cases item with
    | service s =>
      rw [Item.Spelling, ← drafts.1]
      refine braced_kinds whole drafts.2 fun p draft first drafts spelled => ?_
      rw [← drafts.procedure]
      exact spelled.spelling
    | pragma | enumeration | message => exact drafts.elim

namespace Draft

variable {draft : Draft}

theorem spelling_of_fieldType? {name : String} {type : FieldType}
    (found : draft.fieldType? name = some type) : type.Spelling name := by
  unfold fieldType? at found
  split at found
  · next builtin known =>
    cases found
    exact known
  · split at found
    · cases found
      rfl
    · split at found
      · cases found
        rfl
      · cases found

theorem drafts_of_resolveMessage {source : DraftMessage} {m : Message}
    (made : draft.resolveMessage source = .ok m) : m.Drafts source := by
  obtain ⟨named, -, fields⟩ := resolveMessage_eq_ok.mp made
  refine ⟨named.symm, List.Forall₂.flip ?_⟩
  refine (mapM_eq_ok.mp fields).imp fun line field looked => ?_
  obtain ⟨type, found, rfl⟩ := resolveField_eq_ok.mp looked
  exact ⟨rfl, rfl, spelling_of_fieldType? found⟩

theorem exists_items {drafts : List DraftItem} {messages : List Message}
    (spelled : ∀ item ∈ drafts, ∃ tokens, item.Spelled tokens)
    (made : (drafts.filterMap DraftItem.message?).mapM draft.resolveMessage = .ok messages) :
    ∃ items, List.Forall₂ Item.Drafts items drafts ∧ items.filterMap Item.message? = messages := by
  induction drafts generalizing messages with
  | nil =>
    cases made
    exact ⟨[], .nil, rfl⟩
  | cons item drafts ih =>
    obtain ⟨⟨tokens, here⟩, later⟩ := List.forall_mem_cons.mp spelled
    cases item with
    | pragma word =>
      obtain ⟨items, all, same⟩ := ih later made
      exact ⟨.pragma word.text :: items, .cons rfl all, same⟩
    | enumeration name values =>
      obtain ⟨items, all, same⟩ := ih later made
      exact ⟨.enumeration ⟨name.text, values⟩ :: items, .cons ⟨rfl, rfl⟩ all, same⟩
    | message name fields =>
      obtain ⟨m, others, one, more, rfl⟩ := List.forall₂_cons_left_iff.mp (mapM_eq_ok.mp made)
      obtain ⟨items, all, same⟩ := ih later (mapM_eq_ok.mpr more)
      exact ⟨.message m :: items, .cons (drafts_of_resolveMessage one) all, congrArg (m :: ·) same⟩
    | service name procedures =>
      obtain ⟨items, all, same⟩ := ih later made
      obtain ⟨place, body, ⟨opened, closed, inside, row, -⟩, -⟩ := here
      have each : ∀ p ∈ procedures, p.procedure.Drafts p :=
        row.forall fun p first spelled => spelled.drafts
      let written := procedures.map DraftProcedure.procedure
      have drafts : List.Forall₂ Procedure.Drafts written procedures := by
        rw [List.forall₂_map_left_iff, List.forall₂_same]
        exact each
      exact ⟨.service ⟨name.text, written⟩ :: items, .cons ⟨rfl, drafts⟩ all, same⟩

end Draft

theorem exists_row_of_ofTokens {package : String} {tokens : List Token} {doc : Document}
    (h : Document.ofTokens package tokens = .ok doc) : doc.Valid ∧ doc.package = package ∧
      ∃ items, doc.Interleaves items ∧ Row Item.Spelling items (tokens.map Token.kind) := by
  obtain ⟨wellFormed, filled⟩ := Document.wellFormed_of_ofTokens h
  obtain ⟨draft, collected, resolved⟩ := bind_eq_ok.mp h
  obtain ⟨drafts, row, -, rfl⟩ := Draft.ofTokens_eq_ok.mp collected
  obtain ⟨-, messages, made, straight, same⟩ := Draft.resolve_eq_ok.mp resolved
  have spelled : ∀ item ∈ drafts, ∃ tokens, item.Spelled tokens :=
    row.forall fun item first spelled => ⟨first, spelled⟩
  have distinct : (doc.messages.map Message.name).Nodup :=
    (List.nodup_append.mp wellFormed.typesDistinct).1
  rw [Draft.foldl_add] at same made
  simp only [Draft.empty, List.nil_append] at same made
  obtain ⟨items, all, listed⟩ := Draft.exists_items spelled made
  have whole : doc.Interleaves items := by
    rw [same]
    constructor
    · intro word
      rw [← pragmas_of_drafts all]
      exact mem_foldr_insertName.symm
    · exact (enumerations_of_drafts all).symm
    · exact listed
    · exact (services_of_drafts all).symm
  have acyclic : ∀ name, ¬Relation.TransGen (Inlines doc.messages) name name := by
    apply acyclic_of_rejectInlineCycles distinct
    rwa [same]
  have sorted : doc.pragmas.Pairwise (· < ·) := by
    rw [same]
    exact pairwise_foldr_insertName _
  refine ⟨⟨wellFormed, filled, acyclic, sorted⟩, ?_, items, whole, ?_⟩
  · rw [same]
    rfl
  · exact row.kinds all fun _ _ _ drafts spelled => spelled.spelling drafts

theorem Document.rendering_of_parse {package source : String} {doc : Document}
    (h : Document.parse package source = .ok doc) : doc.Valid ∧ doc.Rendering source := by
  obtain ⟨valid, -, items, whole, row⟩ := exists_row_of_ofTokens h
  exact ⟨valid, items, _, whole, row, written_scan fun first => nomatch first⟩

end BinaryCodec.Definition
