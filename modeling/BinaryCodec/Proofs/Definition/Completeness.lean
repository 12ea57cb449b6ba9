import BinaryCodec.Proofs.Definition.Rendering
import Mathlib.Data.List.Sort
import Mathlib.Data.String.Basic

namespace BinaryCodec.Definition

def MessageField.unplaced (field : MessageField) : MessageField := { field with place := .start }

def Message.unplaced (m : Message) : Message :=
  ⟨m.name, m.fields.map MessageField.unplaced, .start⟩

def Document.unplaced (doc : Document) : Document :=
  { doc with messages := doc.messages.map Message.unplaced }

section rows

variable {α β γ ε : Type}

theorem Row.exists_tokens {spelling : α → List TokenKind → Prop} {spelled : β → List Token → Prop}
    {related : α → β → Prop} {items : List α} {kinds : List TokenKind} (row : Row spelling items kinds)
    (each : ∀ item ∈ items, ∀ tokens, spelling item (tokens.map Token.kind) →
      ∃ draft, spelled draft tokens ∧ related item draft)
    {tokens : List Token} (same : tokens.map Token.kind = kinds) :
    ∃ drafts, Row spelled drafts tokens ∧ List.Forall₂ related items drafts := by
  induction row generalizing tokens with
  | nil =>
    rw [List.map_eq_nil_iff.mp same]
    exact ⟨[], .nil, .nil⟩
  | cons head row ih =>
    obtain ⟨here, later⟩ := List.forall_mem_cons.mp each
    obtain ⟨first, more, rfl, front, back⟩ := List.map_eq_append_iff.mp same
    rw [← front] at head
    obtain ⟨draft, one, relates⟩ := here first head
    obtain ⟨drafts, others, all⟩ := ih later back
    exact ⟨draft :: drafts, .cons one others, .cons relates all⟩

theorem exists_mapM_ok {related : α → β → Prop} {made : α → γ → Prop} {f : β → Except ε γ}
    {items : List α} {drafts : List β} (all : List.Forall₂ related items drafts)
    (h : ∀ item ∈ items, ∀ draft, related item draft → ∃ r, f draft = .ok r ∧ made item r) :
    ∃ results, drafts.mapM f = .ok results ∧ List.Forall₂ made items results := by
  induction all with
  | nil => exact ⟨[], rfl, .nil⟩
  | cons one others ih =>
    obtain ⟨here, later⟩ := List.forall_mem_cons.mp h
    obtain ⟨r, first, good⟩ := here _ one
    obtain ⟨results, more, all⟩ := ih later
    refine ⟨r :: results, ?_, .cons good all⟩
    exact mapM_eq_ok.mpr (.cons first (mapM_eq_ok.mp more))

end rows

structure MessageField.Drafts (field : MessageField) (draft : DraftField) : Prop where
  name : draft.name = field.name
  isArray : draft.isArray = field.isArray
  type : field.type.Spelling draft.type.text

structure Procedure.Drafts (p : Procedure) (draft : DraftProcedure) : Prop where
  procedure : draft.procedure = p
  types : ∀ type ∈ draft.types, p.request = some type.text ∨ p.response = some type.text

structure Message.Drafts (m : Message) (draft : DraftMessage) : Prop where
  name : draft.name.text = m.name
  fields : List.Forall₂ MessageField.Drafts m.fields draft.fields

def Item.Drafts : Item → DraftItem → Prop
  | .pragma word, .pragma name => name.text = word
  | .enumeration e, .enumeration name values => name.text = e.name ∧ values = e.values
  | .message m, .message name fields => m.Drafts ⟨name, fields⟩
  | .service s, .service name procedures =>
    name.text = s.name ∧ List.Forall₂ Procedure.Drafts s.procedures procedures
  | _, _ => False

theorem map_kind_eq_cons {tokens : List Token} {kind : TokenKind} {kinds : List TokenKind}
    (same : tokens.map Token.kind = kind :: kinds) :
    ∃ place rest, tokens = ⟨kind, place⟩ :: rest ∧ rest.map Token.kind = kinds := by
  obtain ⟨token, rest, rfl, rfl, others⟩ := List.map_eq_cons_iff.mp same
  exact ⟨token.place, rest, rfl, others⟩

theorem EnumerationValue.spelled_of_spelling {v : EnumerationValue} {tokens : List Token}
    (spelling : v.Spelling (tokens.map Token.kind)) : v.Spelled tokens := by
  obtain ⟨place, rest, rfl, none⟩ := map_kind_eq_cons spelling
  obtain rfl := List.map_eq_nil_iff.mp none
  exact ⟨place, rfl⟩

theorem MessageField.exists_draft {field : MessageField} {tokens : List Token}
    (spelling : field.Spelling (tokens.map Token.kind)) :
    ∃ draft : DraftField, draft.Spelled tokens ∧ field.Drafts draft := by
  obtain ⟨text, typed, same⟩ := spelling
  obtain ⟨first, rest, rfl, more⟩ := map_kind_eq_cons same
  obtain ⟨second, rest, rfl, none⟩ := map_kind_eq_cons more
  obtain rfl := List.map_eq_nil_iff.mp none
  exact ⟨⟨field.name, field.isArray, ⟨text, first⟩⟩, ⟨second, rfl⟩, rfl, rfl, typed⟩

theorem request_of_spelling {request : Option String} {text : String}
    (named : ∀ name ∈ request, isName name ∧ name ≠ voidName)
    (spelling : requestSpelling request text) : (text = "" ∨ isName text) ∧
      nonVoid (if text = "" then voidName else text) = request := by
  cases request with
  | none =>
    rcases spelling with rfl | rfl
    · exact ⟨.inl rfl, rfl⟩
    · exact ⟨.inr (by decide), by decide⟩
  | some name =>
    cases spelling
    obtain ⟨valid, other⟩ := named text rfl
    have filled : text ≠ "" := (isName_iff.mp valid).1
    rw [if_neg filled]
    exact ⟨.inr valid, if_neg other⟩

theorem response_of_spelling {response : Option String} {text : String}
    (named : ∀ name ∈ response, isName name ∧ name ≠ voidName)
    (spelling : responseSpelling response text) : isName text ∧ nonVoid text = response := by
  cases response with
  | none =>
    cases spelling
    exact ⟨by decide, by decide⟩
  | some name =>
    cases spelling
    obtain ⟨valid, other⟩ := named text rfl
    exact ⟨valid, if_neg other⟩

theorem Procedure.exists_draft {p : Procedure} {tokens : List Token} (named : isName p.name)
    (requests : ∀ name ∈ p.request, isName name ∧ name ≠ voidName)
    (responses : ∀ name ∈ p.response, isName name ∧ name ≠ voidName)
    (spelling : p.Spelling (tokens.map Token.kind)) :
    ∃ draft : DraftProcedure, draft.Spelled tokens ∧ p.Drafts draft := by
  obtain ⟨request, response, asked, answered, same⟩ := spelling
  obtain ⟨first, _, rfl, afterFirst⟩ := map_kind_eq_cons same
  obtain ⟨second, _, rfl, afterSecond⟩ := map_kind_eq_cons afterFirst
  obtain ⟨third, rest, rfl, none⟩ := map_kind_eq_cons afterSecond
  obtain rfl := List.map_eq_nil_iff.mp none
  obtain ⟨valid, asks⟩ := request_of_spelling requests asked
  obtain ⟨name, answers⟩ := response_of_spelling responses answered
  have split : splitSignature ⟨p.name ++ "(" ++ request ++ ")", first⟩ =
      .ok (p.name, if request = "" then voidName else request) :=
    splitSignature_of_shape named rfl valid
  refine ⟨_, ⟨_, ⟨response, third⟩, _, _, second, split, name, rfl, rfl⟩, ?_, ?_⟩
  · simp only [DraftProcedure.of, asks, answers]
  · simp only [DraftProcedure.of, asks, answers, List.mem_append, Option.mem_toList,
      Option.map_eq_some_iff]
    intro type listed
    rcases listed with ⟨asking, some, rfl⟩ | ⟨answering, some, rfl⟩
    · exact .inl some
    · rw [eq_of_nonVoid (answers.trans some)]
      exact .inr some

theorem EnumerationValue.inTurn {seen : List String} {values : List EnumerationValue}
    (named : ∀ v ∈ values, Alphanumeric v.name)
    (distinct : (seen ++ values.map EnumerationValue.name).Nodup)
    (numbered : values.map EnumerationValue.number = List.range' seen.length values.length) :
    InTurn Follows EnumerationValue.name seen values := by
  induction values generalizing seen with
  | nil => exact True.intro
  | cons v values ih =>
    obtain ⟨first, others⟩ := List.forall_mem_cons.mp named
    rw [List.map_cons, List.length_cons, List.range'_succ, List.cons.injEq] at numbered
    have unused : v.name ∉ seen := by
      intro member
      exact (List.nodup_append.mp distinct).2.2 _ member _ (List.mem_cons_self ..) rfl
    refine ⟨⟨isName_iff.mpr first, unused, numbered.1⟩, ih others ?_ ?_⟩
    · rwa [List.append_assoc]
    · rw [List.length_append]
      exact numbered.2

theorem exists_braced {α β : Type} {keyword : TokenKind} {name : String}
    {spelling : α → List TokenKind → Prop} {spelled : β → List Token → Prop}
    {related : α → β → Prop} {items : List α} {tokens : List Token}
    (block : Item.Block keyword name spelling items (tokens.map Token.kind))
    (each : ∀ item ∈ items, ∀ tokens, spelling item (tokens.map Token.kind) →
      ∃ draft, spelled draft tokens ∧ related item draft) :
    ∃ place title body drafts, tokens = ⟨keyword, place⟩ :: body ∧ title.text = name ∧
      DraftItem.Braced spelled title drafts body ∧ List.Forall₂ related items drafts := by
  obtain ⟨kinds, row, same⟩ := block
  obtain ⟨place, body, rfl, afterKeyword⟩ := map_kind_eq_cons same
  obtain ⟨titled, _, rfl, afterName⟩ := map_kind_eq_cons afterKeyword
  obtain ⟨opened, _, rfl, afterBrace⟩ := map_kind_eq_cons afterName
  obtain ⟨inside, last, rfl, spells, closes⟩ := List.map_eq_append_iff.mp afterBrace
  obtain ⟨closed, rest, rfl, none⟩ := map_kind_eq_cons closes
  obtain rfl := List.map_eq_nil_iff.mp none
  obtain ⟨drafts, drafted, all⟩ := row.exists_tokens each spells
  exact ⟨place, ⟨name, titled⟩, _, drafts, rfl, rfl, ⟨opened, closed, inside, drafted, rfl⟩, all⟩

section wellFormed

variable {doc : Document} (wellFormed : doc.WellFormed)
include wellFormed

theorem isName_message {name : String} (member : name ∈ doc.messages.map Message.name) :
    isName name ∧ name ≠ voidName := by
  have typed : name ∈ doc.typeNames := List.mem_append_left _ member
  refine ⟨isName_iff.mpr (wellFormed.typesNamed name typed), fun void => ?_⟩
  exact wellFormed.typesFree name typed (.inr void)

theorem isName_fieldType {type : FieldType} (resolved : type.Resolved doc) {text : String}
    (spelling : type.Spelling text) : isName text := by
  cases type with
  | builtin type => exact isName_iff.mpr (nameable_builtin spelling).1
  | message name =>
    cases spelling
    exact (isName_message wellFormed resolved).1
  | enumeration name =>
    cases spelling
    exact isName_iff.mpr (wellFormed.typesNamed _ (List.mem_append_right _ resolved.2))

theorem proper_title {title : Name} {name : String} (named : title.text = name)
    (declared : name ∈ doc.typeNames) : isName title.text ∧ ¬Reserved title.text := by
  rw [named]
  exact ⟨isName_iff.mpr (wellFormed.typesNamed name declared),
    wellFormed.typesFree name declared⟩

theorem exists_draft_enumeration {e : Enumeration} (declared : e ∈ doc.enumerations)
    (filled : e.values ≠ []) {tokens : List Token}
    (spelling : (Item.enumeration e).Spelling (tokens.map Token.kind)) :
    ∃ draft : DraftItem, draft.Spelled tokens ∧ (Item.enumeration e).Drafts draft ∧
      draft.Proper := by
  obtain ⟨place, title, body, values, rfl, named, braced, all⟩ := exists_braced spelling
    fun v within tokens written => ⟨v, EnumerationValue.spelled_of_spelling written, rfl⟩
  rw [List.forall₂_eq_eq_eq] at all
  subst all
  have typed : e.name ∈ doc.typeNames := List.mem_append_right _ (List.mem_map_of_mem declared)
  obtain ⟨names, distinct, numbered⟩ := wellFormed.enumerations e declared
  rw [List.range_eq_range'] at numbered
  have turn : InTurn EnumerationValue.Follows EnumerationValue.name [] e.values :=
    EnumerationValue.inTurn names distinct numbered
  exact ⟨.enumeration title e.values, ⟨place, body, braced, rfl⟩, ⟨named, rfl⟩,
    proper_title wellFormed named typed, filled, turn⟩

theorem exists_draft_message {m : Message} (declared : m ∈ doc.messages) {tokens : List Token}
    (spelling : (Item.message m).Spelling (tokens.map Token.kind)) :
    ∃ draft : DraftItem, draft.Spelled tokens ∧ (Item.message m).Drafts draft ∧ draft.Proper := by
  have proper := wellFormed.messages m declared
  have each : ∀ field ∈ m.fields, ∀ tokens, field.Spelling (tokens.map Token.kind) →
      ∃ draft : DraftField, draft.Spelled tokens ∧ field.Drafts draft ∧
        isName draft.type.text ∧ isName draft.name := by
    intro field within tokens written
    obtain ⟨draft, spelled, drafts⟩ := field.exists_draft written
    refine ⟨draft, spelled, drafts, ?_, ?_⟩
    · exact isName_fieldType wellFormed (proper.resolved field within) drafts.type
    · rw [drafts.name]
      exact isName_iff.mpr (proper.named field within)
  obtain ⟨place, title, body, fields, rfl, named, braced, all⟩ := exists_braced spelling each
  have names : fields.map DraftField.name = m.fields.map MessageField.name :=
    map_eq_of_forall₂ all fun field draft relates => relates.1.name
  have valid : ∀ draft ∈ fields, isName draft.type.text ∧ isName draft.name := by
    intro draft within
    obtain ⟨field, -, relates⟩ := exists_of_forall₂ all within
    exact relates.2
  have turn : InTurn DraftField.Follows DraftField.name [] fields := by
    apply inTurn_of_nodup valid
    · rw [names]
      exact proper.distinct
    · intro seen draft good unused
      exact ⟨good.1, good.2, unused⟩
  have drafts : m.Drafts ⟨title, fields⟩ := ⟨named, all.imp fun field draft relates => relates.1⟩
  have typed : m.name ∈ doc.typeNames := List.mem_append_left _ (List.mem_map_of_mem declared)
  exact ⟨.message title fields, ⟨place, body, braced, rfl⟩, drafts,
    proper_title wellFormed named typed, turn⟩

theorem exists_draft_service {s : Service} (declared : s ∈ doc.services) {tokens : List Token}
    (spelling : (Item.service s).Spelling (tokens.map Token.kind)) :
    ∃ draft : DraftItem, draft.Spelled tokens ∧ (Item.service s).Drafts draft ∧ draft.Proper := by
  have proper := wellFormed.services s declared
  have each : ∀ p ∈ s.procedures, ∀ tokens, p.Spelling (tokens.map Token.kind) →
      ∃ draft : DraftProcedure, draft.Spelled tokens ∧ p.Drafts draft := by
    intro p within tokens written
    have valid := isName_iff.mpr (proper.named p within)
    apply p.exists_draft valid _ _ written
    · intro name asked
      exact isName_message wellFormed (proper.requests p within name asked)
    · intro name answered
      exact isName_message wellFormed (proper.responses p within name answered)
  obtain ⟨place, title, body, procedures, rfl, named, braced, all⟩ := exists_braced spelling each
  have names : procedures.map (fun p => p.procedure.name) = s.procedures.map Procedure.name :=
    map_eq_of_forall₂ all fun p draft drafts => by rw [drafts.procedure]
  have turn : InTurn DraftProcedure.Follows (fun p => p.procedure.name) [] procedures := by
    have valid : ∀ draft ∈ procedures, True := fun _ _ => True.intro
    apply inTurn_of_nodup valid
    · rw [names]
      exact proper.distinct
    · exact fun seen draft _ unused => unused
  have valid : isName title.text := by
    rw [named]
    exact isName_iff.mpr (wellFormed.servicesNamed s declared)
  exact ⟨.service title procedures, ⟨place, body, braced, rfl⟩, ⟨named, all⟩, valid, turn⟩

theorem exists_draft_item {items : List Item} (whole : doc.Interleaves items)
    (filled : ∀ e ∈ doc.enumerations, e.values ≠ []) {item : Item} (member : item ∈ items)
    {tokens : List Token} (spelling : item.Spelling (tokens.map Token.kind)) :
    ∃ draft : DraftItem, draft.Spelled tokens ∧ item.Drafts draft ∧ draft.Proper := by
  cases item with
  | pragma word =>
    obtain ⟨first, rest, rfl, more⟩ := map_kind_eq_cons spelling
    obtain ⟨second, rest, rfl, none⟩ := map_kind_eq_cons more
    obtain rfl := List.map_eq_nil_iff.mp none
    exact ⟨.pragma ⟨word, second⟩, ⟨first, _, rfl, rfl⟩, rfl, True.intro⟩
  | enumeration e =>
    have declared := whole.mem_enumerations member
    exact exists_draft_enumeration wellFormed declared (filled e declared) spelling
  | message m => exact exists_draft_message wellFormed (whole.mem_messages member) spelling
  | service s => exact exists_draft_service wellFormed (whole.mem_services member) spelling

end wellFormed

section drafts

variable {items : List Item} {drafts : List DraftItem}

theorem messages_of_drafts (all : List.Forall₂ Item.Drafts items drafts) :
    List.Forall₂ Message.Drafts (items.filterMap Item.message?)
      (drafts.filterMap DraftItem.message?) := by
  refine List.rel_filterMap (fun item draft relates => ?_) all
  cases item <;> cases draft <;> first | exact relates.elim | exact .none | exact .some relates

theorem pragmas_of_drafts (all : List.Forall₂ Item.Drafts items drafts) :
    drafts.filterMap DraftItem.pragma? = items.filterMap Item.pragma? := by
  rw [eq_comm, ← List.forall₂_eq_eq_eq]
  refine List.rel_filterMap (fun item draft relates => ?_) all
  cases item <;> cases draft <;> first | exact relates.elim | exact .none | exact .some relates.symm

theorem enumerations_of_drafts (all : List.Forall₂ Item.Drafts items drafts) :
    drafts.filterMap DraftItem.enumeration? = items.filterMap Item.enumeration? := by
  rw [eq_comm, ← List.forall₂_eq_eq_eq]
  refine List.rel_filterMap (fun item draft relates => ?_) all
  cases item with
  | enumeration e =>
    cases draft with
    | enumeration name values =>
      obtain ⟨named, rfl⟩ := relates
      exact .some (by rw [named])
    | pragma | message | service => exact relates.elim
  | pragma | message | service =>
    cases draft <;> first | exact relates.elim | exact .none

theorem services_of_drafts (all : List.Forall₂ Item.Drafts items drafts) :
    drafts.filterMap DraftItem.service? = items.filterMap Item.service? := by
  rw [eq_comm, ← List.forall₂_eq_eq_eq]
  refine List.rel_filterMap (fun item draft relates => ?_) all
  cases item with
  | service s =>
    cases draft with
    | service name procedures =>
      obtain ⟨named, each⟩ := relates
      have written : procedures.map DraftProcedure.procedure = s.procedures.map id :=
        map_eq_of_forall₂ each fun p draft relates => relates.procedure
      rw [List.map_id] at written
      exact .some (by rw [named, written])
    | pragma | message | enumeration => exact relates.elim
  | pragma | message | enumeration =>
    cases draft <;> first | exact relates.elim | exact .none

end drafts

theorem mem_insertName {name word : String} {words : List String} :
    word ∈ insertName name words ↔ word = name ∨ word ∈ words := by
  induction words with
  | nil => simp [insertName]
  | cons first rest ih =>
    unfold insertName
    split
    · next same => simp [same]
    · split
      · simp
      · simp [ih, or_left_comm]

theorem pairwise_insertName {name : String} {words : List String}
    (sorted : words.Pairwise (· < ·)) : (insertName name words).Pairwise (· < ·) := by
  induction words with
  | nil => exact List.pairwise_singleton ..
  | cons first rest ih =>
    obtain ⟨least, others⟩ := List.pairwise_cons.mp sorted
    unfold insertName
    split
    · exact sorted
    · next other =>
      split
      · next before =>
        refine List.pairwise_cons.mpr ⟨List.forall_mem_cons.mpr ⟨before, ?_⟩, sorted⟩
        exact fun word member => before.trans (least word member)
      · next notBefore =>
        have after : first < name := lt_of_le_of_ne (not_lt.mp notBefore) (Ne.symm other)
        refine List.pairwise_cons.mpr ⟨fun word member => ?_, ih others⟩
        rcases mem_insertName.mp member with rfl | among
        · exact after
        · exact least word among

theorem mem_foldr_insertName {word : String} {words : List String} :
    word ∈ words.foldr insertName [] ↔ word ∈ words := by
  induction words with
  | nil => rfl
  | cons first rest ih => rw [List.foldr_cons, mem_insertName, ih, List.mem_cons]

theorem pairwise_foldr_insertName (words : List String) :
    (words.foldr insertName []).Pairwise (· < ·) := by
  induction words with
  | nil => exact .nil
  | cons first rest ih => exact pairwise_insertName ih

theorem foldr_insertName {words pragmas : List String} (sorted : pragmas.Pairwise (· < ·))
    (same : ∀ word, word ∈ words ↔ word ∈ pragmas) : words.foldr insertName [] = pragmas := by
  refine (pairwise_foldr_insertName words).eq_of_mem_iff sorted fun word => ?_
  rw [mem_foldr_insertName, same]

section resolve

variable {doc : Document} {draft : Draft}

theorem fieldType?_of_spelling (wellFormed : doc.WellFormed)
    (messages : draft.messages.map (·.name.text) = doc.messages.map Message.name)
    (enumerations : draft.enumerations = doc.enumerations) {type : FieldType}
    (resolved : type.Resolved doc) {text : String} (spelling : type.Spelling text) :
    draft.fieldType? text = some type := by
  have free : ∀ name ∈ doc.typeNames, Builtin.ofName? name = none := by
    intro name member
    have unreserved := wellFormed.typesFree name member
    rw [Reserved, not_or, Option.not_isSome_iff_eq_none] at unreserved
    exact unreserved.1
  unfold Draft.fieldType?
  rw [messages, enumerations]
  cases type with
  | builtin type =>
    have found : Builtin.ofName? text = some type := spelling
    rw [found]
  | message name =>
    have same : text = name := spelling
    rw [same, free name (List.mem_append_left _ resolved)]
    exact if_pos resolved
  | enumeration name =>
    have same : text = name := spelling
    rw [same, free name (List.mem_append_right _ resolved.2)]
    simp only [if_neg resolved.1, if_pos resolved.2]

theorem exists_resolveMessage (wellFormed : doc.WellFormed)
    (messages : draft.messages.map (·.name.text) = doc.messages.map Message.name)
    (enumerations : draft.enumerations = doc.enumerations) {m : Message} (member : m ∈ doc.messages)
    {source : DraftMessage} (drafts : m.Drafts source) :
    ∃ read, draft.resolveMessage source = .ok read ∧ read.unplaced = m.unplaced := by
  have each : ∀ field ∈ m.fields, ∀ line, field.Drafts line →
      ∃ read, draft.resolveField line = .ok read ∧ read.unplaced = field.unplaced := by
    intro field within line written
    have resolved := (wellFormed.messages m member).resolved field within
    have type := fieldType?_of_spelling wellFormed messages enumerations resolved written.type
    refine ⟨_, Draft.resolveField_eq_ok.mpr ⟨_, type, rfl⟩, ?_⟩
    simp only [MessageField.unplaced, written.name, written.isArray]
  obtain ⟨fields, made, all⟩ := exists_mapM_ok drafts.fields each
  refine ⟨⟨source.name.text, fields, source.name.place⟩,
    Draft.resolveMessage_eq_ok.mpr ⟨rfl, rfl, made⟩, ?_⟩
  have same := map_eq_of_forall₂ all fun field read h => h
  simp only [Message.unplaced, drafts.name, same]

theorem inlined?_unplaced (field : MessageField) : field.unplaced.inlined? = field.inlined? := rfl

theorem inlines_of_unplaced {messages others : List Message}
    (same : messages.map Message.unplaced = others.map Message.unplaced) {outer inner : String}
    (inlines : Inlines messages outer inner) : Inlines others outer inner := by
  obtain ⟨m, member, rfl, field, within, inlined⟩ := inlines
  have listed : m.unplaced ∈ others.map Message.unplaced := by
    rw [← same]
    exact List.mem_map_of_mem member
  obtain ⟨n, among, equal⟩ := List.mem_map.mp listed
  have fields : field.unplaced ∈ n.fields.map MessageField.unplaced := by
    have lines := congrArg Message.fields equal
    simp only [Message.unplaced] at lines
    rw [lines]
    exact List.mem_map_of_mem within
  obtain ⟨line, inside, matched⟩ := List.mem_map.mp fields
  have named := congrArg Message.name equal
  refine ⟨n, among, named, line, inside, ?_⟩
  rw [← inlined?_unplaced, matched, inlined?_unplaced, inlined]

end resolve

structure Document.Valid (doc : Document) : Prop where
  wellFormed : doc.WellFormed
  filled : ∀ e ∈ doc.enumerations, e.values ≠ []
  acyclic : ∀ name, ¬Relation.TransGen (Inlines doc.messages) name name
  pragmas : doc.pragmas.Pairwise (· < ·)

structure Document.Drafts (doc : Document) (draft : Draft) : Prop where
  pragmas : ∀ word, word ∈ draft.pragmas ↔ word ∈ doc.pragmas
  messages : List.Forall₂ Message.Drafts doc.messages draft.messages
  enumerations : draft.enumerations = doc.enumerations
  services : draft.services = doc.services
  procedureTypes : ∀ type ∈ draft.procedureTypes, type.text ∈ doc.messages.map Message.name

section parse

variable {doc : Document} {draft : Draft}

theorem procedureTypes_of_item (wellFormed : doc.WellFormed) {item : Item} {draft : DraftItem}
    (declared : ∀ s, item.service? = some s → s ∈ doc.services) (relates : item.Drafts draft)
    {type : Name} (listed : type ∈ draft.procedureTypes) :
    type.text ∈ doc.messages.map Message.name := by
  cases draft with
  | pragma | enumeration | message => cases listed
  | service name procedures =>
    cases item with
    | pragma | enumeration | message => exact relates.elim
    | service s =>
      have proper := wellFormed.services s (declared s rfl)
      obtain ⟨draft, within, typed⟩ := List.mem_flatMap.mp listed
      obtain ⟨p, written, drafts⟩ := exists_of_forall₂ relates.2 within
      rcases drafts.types type typed with asked | answered
      · exact proper.requests p written _ asked
      · exact proper.responses p written _ answered

theorem drafts_of_items (wellFormed : doc.WellFormed) {items : List Item} {drafts : List DraftItem}
    (whole : doc.Interleaves items) (all : List.Forall₂ Item.Drafts items drafts) :
    doc.Drafts (drafts.foldl Draft.add .empty) := by
  rw [Draft.foldl_add]
  simp only [Draft.empty, List.nil_append]
  constructor
  · rw [pragmas_of_drafts all]
    exact whole.pragmas
  · rw [← whole.messages]
    exact messages_of_drafts all
  · rw [← whole.enumerations]
    exact enumerations_of_drafts all
  · rw [← whole.services]
    exact services_of_drafts all
  · intro type member
    obtain ⟨draft, among, listed⟩ := List.mem_flatMap.mp member
    obtain ⟨item, inside, relates⟩ := exists_of_forall₂ all among
    refine procedureTypes_of_item wellFormed (fun s declares => ?_) relates listed
    rw [← whole.services]
    exact List.mem_filterMap.mpr ⟨item, inside, declares⟩

theorem Document.Drafts.names (drafts : doc.Drafts draft) :
    draft.messages.map (·.name.text) = doc.messages.map Message.name :=
  map_eq_of_forall₂ drafts.messages fun _ _ relates => relates.name

theorem Document.Drafts.typeNames (drafts : doc.Drafts draft) : draft.typeNames = doc.typeNames := by
  rw [Draft.typeNames, drafts.names, drafts.enumerations, Document.typeNames]

theorem takesAll_of_drafts (wellFormed : doc.WellFormed) {items : List DraftItem}
    (proper : ∀ item ∈ items, item.Proper) (drafts : doc.Drafts (items.foldl Draft.add .empty)) :
    Draft.empty.TakesAll items := by
  refine ⟨proper, ?_, fun name _ none => (nomatch none), ?_, fun name _ none => (nomatch none)⟩
  · rw [← (Draft.typeNames_perm items).nodup_iff, drafts.typeNames]
    exact wellFormed.typesDistinct
  · rw [← Draft.serviceNames_eq, Draft.serviceNames, drafts.services]
    exact wellFormed.servicesDistinct

theorem resolve_of_drafts (valid : doc.Valid) (drafts : doc.Drafts draft) :
    ∃ read, draft.resolve doc.package = .ok read ∧ read.unplaced = doc.unplaced := by
  have each : ∀ m ∈ doc.messages, ∀ source, m.Drafts source →
      ∃ read, draft.resolveMessage source = .ok read ∧ read.unplaced = m.unplaced :=
    fun m member source written =>
      exists_resolveMessage valid.wellFormed drafts.names drafts.enumerations member written
  obtain ⟨messages, made, all⟩ := exists_mapM_ok drafts.messages each
  have same : messages.map Message.unplaced = doc.messages.map Message.unplaced :=
    map_eq_of_forall₂ all fun m read h => h
  -- Places play no part in what lies inside what.
  have straight : rejectInlineCycles messages = .ok () := by
    refine rejectInlineCycles_ok fun name cycle => valid.acyclic name ?_
    exact Relation.TransGen.mono (fun _ _ => inlines_of_unplaced same) _ _ cycle
  have inside : ∀ type ∈ draft.procedureTypes, type.text ∈ draft.messages.map (·.name.text) := by
    rw [drafts.names]
    exact drafts.procedureTypes
  refine ⟨_, Draft.resolve_eq_ok.mpr ⟨inside, messages, made, straight, rfl⟩, ?_⟩
  simp only [Document.unplaced, Draft.document, same, foldr_insertName valid.pragmas drafts.pragmas,
    drafts.enumerations, drafts.services]

theorem exists_ofTokens (valid : doc.Valid) {items : List Item} (whole : doc.Interleaves items)
    {tokens : List Token} (row : Row Item.Spelling items (tokens.map Token.kind)) :
    ∃ read, Document.ofTokens doc.package tokens = .ok read ∧ read.unplaced = doc.unplaced := by
  have each : ∀ item ∈ items, ∀ tokens, item.Spelling (tokens.map Token.kind) →
      ∃ draft : DraftItem, draft.Spelled tokens ∧ item.Drafts draft ∧ draft.Proper :=
    fun item member tokens spelling =>
      exists_draft_item valid.wellFormed whole valid.filled member spelling
  obtain ⟨drafts, spelled, related⟩ := row.exists_tokens each rfl
  have all := related.imp fun item draft relates => relates.1
  have proper : ∀ draft ∈ drafts, draft.Proper := by
    intro draft member
    obtain ⟨item, -, relates⟩ := exists_of_forall₂ related member
    exact relates.2
  have made := drafts_of_items valid.wellFormed whole all
  have takes := takesAll_of_drafts valid.wellFormed proper made
  obtain ⟨read, resolved, same⟩ := resolve_of_drafts valid made
  have collected := Draft.ofTokens_eq_ok.mpr ⟨drafts, spelled, takes, rfl⟩
  exact ⟨read, bind_eq_ok.mpr ⟨_, collected, resolved⟩, same⟩

end parse

/-- A well-formed document is read from every text that it is written as. -/
theorem Document.parse_rendering {doc : Document} {source : String} (static : doc.Static)
    (filled : ∀ e ∈ doc.enumerations, e.values ≠ []) (rendering : doc.Rendering source) :
    ∃ read, Document.parse doc.package source = .ok read ∧ read.unplaced = doc.unplaced := by
  obtain ⟨items, whole, row⟩ := exists_kinds_tokens static rendering
  have valid : doc.Valid := ⟨static.wellFormed, filled, static.acyclic, static.pragmas⟩
  exact exists_ofTokens valid whole row

theorem static_canvas : canvas.Static where
  wellFormed := (Document.wellFormed_of_ofTokens ofTokens_canvas).1
  plain := ⟨by decide +kernel, by decide +kernel, by decide +kernel, by decide +kernel,
    List.forall_mem_singleton.mpr
      ⟨⟨by decide +kernel, endsWord_eq_false (by decide +kernel), by decide +kernel⟩,
        by decide +kernel⟩⟩
  acyclic := acyclic_of_rank (fun name => if name = "Dot" then 1 else 0) (by decide +kernel)
  pragmas := List.pairwise_singleton _ _

theorem Document.parse_rendering_canvas : canvas.Static ∧ canvas.Rendering canvas.text ∧
    ∃ read, Document.parse canvas.package canvas.text = .ok read ∧ read.unplaced = canvas.unplaced :=
  ⟨static_canvas, rendering_text canvas,
    Document.parse_rendering static_canvas (by decide +kernel) (rendering_text canvas)⟩

/-- A document of one enumeration without values. -/
def hollow : Document := ⟨"test", [], [], [⟨"E", []⟩], []⟩

theorem static_hollow : hollow.Static where
  wellFormed := by
    constructor
    · exact List.forall_mem_singleton.mpr (isName_iff.mp (by decide))
    · exact List.forall_mem_singleton.mpr (by unfold Reserved; decide)
    · exact List.nodup_singleton _
    · exact fun m none => nomatch none
    · exact List.forall_mem_singleton.mpr ⟨(fun v none => nomatch none), List.nodup_nil, rfl⟩
    · exact fun s none => nomatch none
    · exact List.nodup_nil
    · exact fun s none => nomatch none
  plain := ⟨by decide +kernel, by decide +kernel, by decide +kernel, by decide +kernel,
    fun word none => nomatch none⟩
  acyclic := acyclic_of_rank (fun _ => 0) fun m none => nomatch none
  pragmas := .nil

/-- The rules and the grammar allow an enumeration without values, which is refused. -/
theorem Document.parse_hollow : hollow.Static ∧ hollow.Rendering "enum E \x7b \x7d" ∧
    Document.parse hollow.package "enum E \x7b \x7d" =
      .error ⟨⟨1, 6⟩, .emptyEnumeration "E"⟩ := by
  refine ⟨static_hollow, ?_, by decide +kernel⟩
  have blank : Gap [' '] := .blank (by decide) .nil
  have apart : ([' '] : List Char) ≠ [] := List.cons_ne_nil _ _
  refine ⟨hollow.items, _, interleaves_items hollow,
    row_flatMap _ fun item _ => item.spelling_kinds, ?_⟩
  show Written false [.enumKeyword, .word "E", .openBrace, .closeBrace]
    ([] ++ (TokenKind.enumKeyword.text.toList ++ ([' '] ++ ((TokenKind.word "E").text.toList ++
      ([' '] ++ (TokenKind.openBrace.text.toList ++
        ([' '] ++ (TokenKind.closeBrace.text.toList ++ []))))))))
  refine .cons .nil (fun h => nomatch h) ?_
  refine .cons blank (fun _ _ => apart) ?_
  refine .cons blank (fun _ _ => apart) ?_
  exact .cons blank (fun _ _ => apart) (.nil (.gap .nil))

end BinaryCodec.Definition
