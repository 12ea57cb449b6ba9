import BinaryCodec.Proofs.Definition.Resolution

namespace BinaryCodec.Definition

def Alphanumeric (text : String) : Prop :=
  text ≠ "" ∧ ∀ c ∈ text.toList,
    ('A' ≤ c ∧ c ≤ 'Z') ∨ ('a' ≤ c ∧ c ≤ 'z') ∨ ('0' ≤ c ∧ c ≤ '9') ∨ c = '_'

theorem isNameChar_iff {c : Char} : isNameChar c ↔
    ('A' ≤ c ∧ c ≤ 'Z') ∨ ('a' ≤ c ∧ c ≤ 'z') ∨ ('0' ≤ c ∧ c ≤ '9') ∨ c = '_' := by
  have upper : c.isUpper = decide ('A' ≤ c ∧ c ≤ 'Z') := rfl
  have lower : c.isLower = (decide ('a' ≤ c) && decide (c ≤ 'z')) := rfl
  have digit : c.isDigit = (decide ('0' ≤ c) && decide (c ≤ '9')) := rfl
  have name : isNameChar c = (c.isUpper || c.isLower || c.isDigit || decide (c = '_')) := rfl
  rw [name, upper, lower, digit]
  simp only [Bool.or_eq_true, Bool.and_eq_true, decide_eq_true_eq, or_assoc]

theorem isName_iff {text : String} : isName text ↔ Alphanumeric text := by
  simp only [isName, Alphanumeric, Bool.and_eq_true, List.all_eq_true, isNameChar_iff]
  simp

structure Enumeration.WellFormed (e : Enumeration) : Prop where
  named : ∀ v ∈ e.values, Alphanumeric v.name
  distinct : (e.values.map EnumerationValue.name).Nodup
  numbered : e.values.map EnumerationValue.number = List.range e.values.length

structure Message.WellFormed (doc : Document) (m : Message) : Prop where
  named : ∀ field ∈ m.fields, Alphanumeric field.name
  distinct : (m.fields.map MessageField.name).Nodup
  resolved : ∀ field ∈ m.fields, field.type.Resolved doc

structure Service.WellFormed (doc : Document) (s : Service) : Prop where
  named : ∀ p ∈ s.procedures, Alphanumeric p.name
  distinct : (s.procedures.map Procedure.name).Nodup
  requests : ∀ p ∈ s.procedures, ∀ name ∈ p.request, name ∈ doc.messages.map Message.name
  responses : ∀ p ∈ s.procedures, ∀ name ∈ p.response, name ∈ doc.messages.map Message.name

def Document.typeNames (doc : Document) : List String :=
  doc.messages.map Message.name ++ doc.enumerations.map Enumeration.name

/-- The rules that do not depend on how a document is written down. -/
structure Document.WellFormed (doc : Document) : Prop where
  typesNamed : ∀ name ∈ doc.typeNames, Alphanumeric name
  typesFree : ∀ name ∈ doc.typeNames, ¬Reserved name
  typesDistinct : doc.typeNames.Nodup
  messages : ∀ m ∈ doc.messages, m.WellFormed doc
  enumerations : ∀ e ∈ doc.enumerations, e.WellFormed
  servicesNamed : ∀ s ∈ doc.services, Alphanumeric s.name
  servicesDistinct : (doc.services.map Service.name).Nodup
  services : ∀ s ∈ doc.services, s.WellFormed doc

theorem EnumerationValue.numbered_of_inTurn {seen : List String} {values : List EnumerationValue}
    (turn : InTurn Follows EnumerationValue.name seen values) :
    values.map EnumerationValue.number = List.range' seen.length values.length := by
  induction values generalizing seen with
  | nil => rfl
  | cons v values ih =>
    obtain ⟨⟨-, -, number⟩, others⟩ := turn
    have more := ih others
    rw [List.length_append] at more
    rw [List.map_cons, List.length_cons, List.range'_succ, number, more]
    rfl

theorem DraftItem.Proper.enumeration {name : Name} {values : List EnumerationValue}
    (proper : (DraftItem.enumeration name values).Proper) :
    values ≠ [] ∧ Enumeration.WellFormed ⟨name.text, values⟩ := by
  obtain ⟨-, some, turn⟩ := proper
  refine ⟨some, ?_, ?_, ?_⟩
  · exact turn.forall fun seen v follows => isName_iff.mp follows.1
  · exact turn.nodup .nil fun seen v follows => follows.2.1
  · rw [List.range_eq_range']
    exact EnumerationValue.numbered_of_inTurn turn

theorem DraftItem.Proper.message {name : Name} {fields : List DraftField}
    (proper : (DraftItem.message name fields).Proper) :
    (∀ field ∈ fields, Alphanumeric field.name) ∧ (fields.map DraftField.name).Nodup := by
  obtain ⟨-, turn⟩ := proper
  constructor
  · exact turn.forall fun seen field follows => isName_iff.mp follows.2.1
  · exact turn.nodup .nil fun seen field follows => follows.2.2

structure DraftProcedure.Sound (p : DraftProcedure) : Prop where
  named : Alphanumeric p.procedure.name
  request : ∀ name ∈ p.procedure.request, ∃ type ∈ p.types, type.text = name
  response : ∀ name ∈ p.procedure.response, ∃ type ∈ p.types, type.text = name

theorem DraftProcedure.Spelled.sound {p : DraftProcedure} {tokens : List Token}
    (spelled : p.Spelled tokens) : p.Sound := by
  obtain ⟨signature, response, name, request, place, split, -, rfl, -⟩ := spelled
  refine ⟨isName_iff.mp (shape_of_splitSignature split).1, ?_, ?_⟩
  · intro asked member
    have member : nonVoid request = some asked := member
    exact ⟨⟨asked, signature.place⟩, by simp [of, member], rfl⟩
  · intro answer member
    have member : nonVoid response.text = some answer := member
    exact ⟨response, by simp [of, member], eq_of_nonVoid member⟩

theorem DraftItem.Spelled.service {name : Name} {procedures : List DraftProcedure}
    {tokens : List Token} (spelled : (DraftItem.service name procedures).Spelled tokens) :
    ∀ p ∈ procedures, p.Sound := by
  obtain ⟨-, -, ⟨-, -, body, row, -⟩, -⟩ := spelled
  exact row.forall fun p first written => written.sound

namespace Draft

variable {items : List DraftItem} {tokens : List Token}

theorem named_typeNames (takes : empty.TakesAll items) :
    ∀ name ∈ (items.foldl add empty).typeNames, Alphanumeric name ∧ ¬Reserved name := by
  intro name member
  have declared := (typeNames_perm items).mem_iff.mp member
  obtain ⟨item, among, named⟩ := List.mem_filterMap.mp declared
  have proper := takes.proper item among
  cases item with
  | pragma word => cases named
  | service title procedures => cases named
  | message title fields =>
    cases named
    exact ⟨isName_iff.mp proper.1.1, proper.1.2⟩
  | enumeration title values =>
    cases named
    exact ⟨isName_iff.mp proper.1.1, proper.1.2⟩

theorem nodup_typeNames (takes : empty.TakesAll items) :
    (items.foldl add empty).typeNames.Nodup :=
  (typeNames_perm items).nodup_iff.mpr takes.types

theorem wellFormed_enumeration (takes : empty.TakesAll items) {e : Enumeration}
    (member : e ∈ (items.foldl add empty).enumerations) : e.values ≠ [] ∧ e.WellFormed := by
  rw [foldl_add] at member
  obtain ⟨item, among, made⟩ := List.mem_filterMap.mp member
  have proper := takes.proper item among
  cases item with
  | pragma word => cases made
  | service title procedures => cases made
  | message title fields => cases made
  | enumeration title values =>
    cases made
    exact proper.enumeration

theorem distinct_fields (takes : empty.TakesAll items) {m : DraftMessage}
    (member : m ∈ (items.foldl add empty).messages) :
    (∀ field ∈ m.fields, Alphanumeric field.name) ∧ (m.fields.map DraftField.name).Nodup := by
  rw [foldl_add] at member
  obtain ⟨item, among, made⟩ := List.mem_filterMap.mp member
  have proper := takes.proper item among
  cases item with
  | pragma word => cases made
  | service title procedures => cases made
  | enumeration title values => cases made
  | message title fields =>
    cases made
    exact proper.message

theorem exists_service (takes : empty.TakesAll items) (row : Row DraftItem.Spelled items tokens)
    {s : Service} (member : s ∈ (items.foldl add empty).services) :
    ∃ procedures : List DraftProcedure, s.procedures = procedures.map DraftProcedure.procedure ∧
      Alphanumeric s.name ∧ (s.procedures.map Procedure.name).Nodup ∧
      ∀ p ∈ procedures, p.Sound ∧ ∀ type ∈ p.types, type ∈ (items.foldl add empty).procedureTypes := by
  rw [foldl_add] at member ⊢
  obtain ⟨item, among, made⟩ := List.mem_filterMap.mp member
  have proper := takes.proper item among
  cases item with
  | pragma word => cases made
  | enumeration title values => cases made
  | message title fields => cases made
  | service title procedures =>
    cases made
    have distinct := proper.2.nodup .nil fun seen p follows => follows
    have sound : ∀ item ∈ items, ∀ title procedures, item = .service title procedures →
        ∀ p ∈ procedures, p.Sound := by
      refine row.forall fun item first spelled title procedures same => ?_
      cases same
      exact spelled.service
    refine ⟨procedures, rfl, isName_iff.mp proper.1, ?_, fun p inside => ⟨?_, fun type listed => ?_⟩⟩
    · rwa [List.map_map]
    · exact sound _ among title procedures rfl p inside
    · have typed : type ∈ (DraftItem.service title procedures).procedureTypes :=
        List.mem_flatMap.mpr ⟨p, inside, listed⟩
      exact List.mem_flatMap.mpr ⟨_, among, typed⟩

variable {package : String} {doc : Document}

theorem typeNames_of_resolve {draft : Draft} (resolved : draft.resolve package = .ok doc) :
    doc.typeNames = draft.typeNames := by
  obtain ⟨-, messages, made, -, rfl⟩ := resolve_eq_ok.mp resolved
  rw [Document.typeNames, document, names_of_resolve made]
  rfl

theorem wellFormed_message (takes : empty.TakesAll items)
    (resolved : (items.foldl add empty).resolve package = .ok doc) {m : Message}
    (member : m ∈ doc.messages) : m.WellFormed doc := by
  have typed : ∀ field ∈ m.fields, field.type.Resolved doc := by
    intro field within
    exact resolved_of_resolve resolved member within
  obtain ⟨-, messages, made, -, rfl⟩ := resolve_eq_ok.mp resolved
  obtain ⟨source, among, one⟩ := exists_of_mapM_ok made member
  obtain ⟨-, -, fields⟩ := resolveMessage_eq_ok.mp one
  have lines : m.fields.map MessageField.name = source.fields.map DraftField.name := by
    refine map_of_mapM_ok fields fun line field looked => ?_
    obtain ⟨-, -, rfl⟩ := resolveField_eq_ok.mp looked
    rfl
  obtain ⟨named, distinct⟩ := distinct_fields takes among
  refine ⟨?_, ?_, typed⟩
  · intro field within
    have listed : field.name ∈ source.fields.map DraftField.name := by
      rw [← lines]
      exact List.mem_map_of_mem within
    obtain ⟨line, written, same⟩ := List.mem_map.mp listed
    rw [← same]
    exact named line written
  · rw [lines]
    exact distinct

theorem wellFormed_service (takes : empty.TakesAll items) (row : Row DraftItem.Spelled items tokens)
    (resolved : (items.foldl add empty).resolve package = .ok doc) {s : Service}
    (member : s ∈ doc.services) : Alphanumeric s.name ∧ s.WellFormed doc := by
  obtain ⟨inside, messages, made, -, rfl⟩ := resolve_eq_ok.mp resolved
  obtain ⟨procedures, written, named, distinct, all⟩ := exists_service takes row member
  have declared : ∀ p ∈ procedures, ∀ name, (∃ type ∈ p.types, type.text = name) →
      name ∈ messages.map Message.name := by
    intro p among name listed
    obtain ⟨type, typed, rfl⟩ := listed
    rw [names_of_resolve made]
    exact inside type ((all p among).2 type typed)
  refine ⟨named, ?_, distinct, ?_, ?_⟩
  all_goals
    rw [written]
    refine List.forall_mem_map.mpr fun p among => ?_
    have sound := (all p among).1
  · exact sound.named
  · exact fun name asked => declared p among name (sound.request name asked)
  · exact fun name answered => declared p among name (sound.response name answered)

end Draft

theorem Document.wellFormed_of_ofTokens {package : String} {tokens : List Token} {doc : Document}
    (h : Document.ofTokens package tokens = .ok doc) :
    doc.WellFormed ∧ ∀ e ∈ doc.enumerations, e.values ≠ [] := by
  obtain ⟨draft, collected, resolved⟩ := bind_eq_ok.mp h
  obtain ⟨items, row, takes, rfl⟩ := Draft.ofTokens_eq_ok.mp collected
  have types := Draft.typeNames_of_resolve resolved
  obtain ⟨-, messages, -, -, same⟩ := Draft.resolve_eq_ok.mp resolved
  have enumerations : ∀ e ∈ doc.enumerations, e.values ≠ [] ∧ e.WellFormed := by
    intro e member
    rw [same] at member
    exact Draft.wellFormed_enumeration takes member
  have services : ∀ s ∈ doc.services, Alphanumeric s.name ∧ s.WellFormed doc :=
    fun s member => Draft.wellFormed_service takes row resolved member
  have named : ∀ name ∈ doc.typeNames, Alphanumeric name ∧ ¬Reserved name := by
    rw [types]
    exact Draft.named_typeNames takes
  refine ⟨?_, fun e member => (enumerations e member).1⟩
  constructor
  · exact fun name member => (named name member).1
  · exact fun name member => (named name member).2
  · rw [types]
    exact Draft.nodup_typeNames takes
  · exact fun m member => Draft.wellFormed_message takes resolved member
  · exact fun e member => (enumerations e member).2
  · exact fun s member => (services s member).1
  · have listed := Draft.serviceNames_eq items
    rw [Draft.serviceNames] at listed
    rw [same, Draft.document, listed]
    exact takes.services
  · exact fun s member => (services s member).2

/-- What is read from a text is well-formed, and none of its enumerations is empty. -/
theorem Document.wellFormed_of_parse {package source : String} {doc : Document}
    (h : Document.parse package source = .ok doc) :
    doc.WellFormed ∧ ∀ e ∈ doc.enumerations, e.values ≠ [] :=
  wellFormed_of_ofTokens h

def canvasSource : String :=
  "use dense enum Hue\x7bred blue\x7d
struct Dot\x7bHue hue Tag tag Tag more[]\x7d#
struct Tag\x7bstring text\x7d
rpc Api\x7bput(Dot)->Tag end()->void\x7d"

def canvas : Document where
  package := "paint"
  pragmas := ["dense"]
  messages := [
    ⟨"Dot", [⟨"hue", .enumeration "Hue", false, ⟨2, 12⟩⟩, ⟨"tag", .message "Tag", false, ⟨2, 20⟩⟩,
      ⟨"more", .message "Tag", true, ⟨2, 28⟩⟩], ⟨2, 8⟩⟩,
    ⟨"Tag", [⟨"text", .builtin .string, false, ⟨3, 12⟩⟩], ⟨3, 8⟩⟩]
  enumerations := [⟨"Hue", [⟨"red", 0⟩, ⟨"blue", 1⟩]⟩]
  services := [⟨"Api", [⟨"put", some "Dot", some "Tag"⟩, ⟨"end", none, none⟩]⟩]

theorem ofTokens_canvas : Document.ofTokens "paint" (tokens canvasSource) = .ok canvas := by
  decide +kernel

theorem Document.wellFormed_canvas :
    Document.parse "paint" canvasSource = .ok canvas ∧ canvas.WellFormed :=
  ⟨ofTokens_canvas, (Document.wellFormed_of_parse ofTokens_canvas).1⟩

end BinaryCodec.Definition
