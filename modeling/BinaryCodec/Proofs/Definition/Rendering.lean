import BinaryCodec.Proofs.Definition.Inlining
import BinaryCodec.Proofs.Definition.Scanning
import BinaryCodec.Proofs.Definition.WellFormed

namespace BinaryCodec.Definition

def FieldType.Spelling : FieldType → String → Prop
  | .builtin type, text => Builtin.ofName? text = some type
  | .message name, text => text = name
  | .enumeration name, text => text = name

def MessageField.written (field : MessageField) : String :=
  if field.isArray then field.name ++ "[]" else field.name

def MessageField.Spelling (field : MessageField) (kinds : List TokenKind) : Prop :=
  ∃ type, field.type.Spelling type ∧ kinds = [.word type, .word field.written]

def requestSpelling : Option String → String → Prop
  | none, text => text = "" ∨ text = voidName
  | some name, text => text = name

def responseSpelling : Option String → String → Prop
  | none, text => text = voidName
  | some name, text => text = name

def Procedure.Spelling (p : Procedure) (kinds : List TokenKind) : Prop :=
  ∃ request response, requestSpelling p.request request ∧ responseSpelling p.response response ∧
    kinds = [.word (p.name ++ "(" ++ request ++ ")"), .arrow, .word response]

def EnumerationValue.Spelling (v : EnumerationValue) (kinds : List TokenKind) : Prop :=
  kinds = [.word v.name]

inductive Item where
  | pragma (word : String)
  | enumeration (e : Enumeration)
  | message (m : Message)
  | service (s : Service)

namespace Item

def Block {α : Type} (keyword : TokenKind) (name : String) (spelling : α → List TokenKind → Prop)
    (items : List α) (kinds : List TokenKind) : Prop :=
  ∃ body, Row spelling items body ∧
    kinds = keyword :: .word name :: .openBrace :: (body ++ [.closeBrace])

def Spelling : Item → List TokenKind → Prop
  | .pragma word, kinds => kinds = [.useKeyword, .word word]
  | .enumeration e, kinds => Block .enumKeyword e.name EnumerationValue.Spelling e.values kinds
  | .message m, kinds => Block .structKeyword m.name MessageField.Spelling m.fields kinds
  | .service s, kinds => Block .rpcKeyword s.name Procedure.Spelling s.procedures kinds

def pragma? : Item → Option String
  | .pragma word => some word
  | .enumeration _ | .message _ | .service _ => none

def enumeration? : Item → Option Enumeration
  | .enumeration e => some e
  | .pragma _ | .message _ | .service _ => none

def message? : Item → Option Message
  | .message m => some m
  | .pragma _ | .enumeration _ | .service _ => none

def service? : Item → Option Service
  | .service s => some s
  | .pragma _ | .enumeration _ | .message _ => none

end Item

structure Document.Interleaves (doc : Document) (items : List Item) : Prop where
  pragmas : ∀ word, word ∈ items.filterMap Item.pragma? ↔ word ∈ doc.pragmas
  enumerations : items.filterMap Item.enumeration? = doc.enumerations
  messages : items.filterMap Item.message? = doc.messages
  services : items.filterMap Item.service? = doc.services

section interleaves

variable {doc : Document} {items : List Item} (whole : doc.Interleaves items)
include whole

theorem Document.Interleaves.mem_pragmas {word : String} (member : .pragma word ∈ items) :
    word ∈ doc.pragmas :=
  (whole.pragmas word).mp (List.mem_filterMap.mpr ⟨_, member, rfl⟩)

theorem Document.Interleaves.mem_enumerations {e : Enumeration} (member : .enumeration e ∈ items) :
    e ∈ doc.enumerations := by
  rw [← whole.enumerations]
  exact List.mem_filterMap.mpr ⟨_, member, rfl⟩

theorem Document.Interleaves.mem_messages {m : Message} (member : .message m ∈ items) :
    m ∈ doc.messages := by
  rw [← whole.messages]
  exact List.mem_filterMap.mpr ⟨_, member, rfl⟩

theorem Document.Interleaves.mem_services {s : Service} (member : .service s ∈ items) :
    s ∈ doc.services := by
  rw [← whole.services]
  exact List.mem_filterMap.mpr ⟨_, member, rfl⟩

end interleaves

def Document.Rendering (doc : Document) (source : String) : Prop :=
  ∃ items kinds, doc.Interleaves items ∧ Row Item.Spelling items kinds ∧
    Written false kinds source.toList

structure Document.Plain (doc : Document) : Prop where
  types : ∀ name ∈ doc.typeNames, name ∉ keywords
  fields : ∀ m ∈ doc.messages, ∀ field ∈ m.fields, field.name ∉ keywords
  values : ∀ e ∈ doc.enumerations, ∀ v ∈ e.values, v.name ∉ keywords
  services : ∀ s ∈ doc.services, s.name ∉ keywords
  pragmas : ∀ word ∈ doc.pragmas, IsWord word.toList ∧ word ∉ keywords

/-- What is asked of a document that is to be written down. -/
structure Document.Static (doc : Document) : Prop where
  wellFormed : doc.WellFormed
  plain : doc.Plain
  acyclic : ∀ name, ¬Relation.TransGen (Inlines doc.messages) name name
  /-- A set of pragmas is the list of its words in order. -/
  pragmas : doc.pragmas.Pairwise (· < ·)

theorem isBlank_eq_false {c : Char} (low : 0x21 ≤ c.toNat) (high : c.toNat ≤ 0x7e) :
    Text.isBlank c = false := by
  simp only [Text.isBlank, Text.blankRuns, List.any_cons, List.any_nil, Bool.or_false,
    Bool.or_eq_false_iff, Bool.and_eq_false_iff, decide_eq_false_iff_not, Nat.not_le]
  omega

theorem printable_of_isNameChar {c : Char} (h : isNameChar c) : 0x21 ≤ c.toNat ∧ c.toNat ≤ 0x7e := by
  rcases isNameChar_iff.mp h with upper | lower | digit | rfl
  · have low : 65 ≤ c.toNat := upper.1
    have high : c.toNat ≤ 90 := upper.2
    omega
  · have low : 97 ≤ c.toNat := lower.1
    have high : c.toNat ≤ 122 := lower.2
    omega
  · have low : 48 ≤ c.toNat := digit.1
    have high : c.toNat ≤ 57 := digit.2
    omega
  · decide

def IsPlainChar (c : Char) : Prop := isNameChar c ∨ c ∈ ['[', ']', '(', ')']

theorem endsWord_of_isPlainChar {c : Char} (h : IsPlainChar c) : endsWord c = false ∧ c ≠ '-' := by
  rcases h with name | mark
  · have different : ∀ d, isNameChar d = false → c ≠ d := by
      rintro d other rfl
      rw [name] at other
      cases other
    have printable := printable_of_isNameChar name
    refine ⟨?_, different '-' (by decide)⟩
    simp only [endsWord, Bool.or_eq_false_iff, decide_eq_false_iff_not]
    refine ⟨⟨⟨?_, ?_⟩, ?_⟩, isBlank_eq_false printable.1 printable.2⟩
    all_goals exact different _ (by decide)
  · simp only [List.mem_cons, List.not_mem_nil, or_false] at mark
    rcases mark with rfl | rfl | rfl | rfl <;> decide

theorem isWord_of_plain {word : List Char} (filled : word ≠ []) (plain : ∀ c ∈ word, IsPlainChar c) :
    IsWord word :=
  isWord_of_no_dash filled (fun c member => (endsWord_of_isPlainChar (plain c member)).1)
    fun dash => (endsWord_of_isPlainChar (plain _ dash)).2 rfl

theorem Alphanumeric.plain {text : String} (h : Alphanumeric text) :
    text.toList ≠ [] ∧ ∀ c ∈ text.toList, IsPlainChar c :=
  ⟨fun none => h.1 (String.toList_eq_nil_iff.mp none),
    fun c member => .inl (isNameChar_iff.mpr (h.2 c member))⟩

def Nameable (text : String) : Prop := Alphanumeric text ∧ text ∉ keywords

theorem Nameable.writable {text : String} (h : Nameable text) : (TokenKind.word text).Writable := by
  obtain ⟨filled, plain⟩ := h.1.plain
  exact ⟨isWord_of_plain filled plain, h.2⟩

theorem nameable_void : Nameable voidName := ⟨isName_iff.mp (by decide), by decide⟩

theorem ofName?_eq_some {text : String} {type : Builtin} (h : Builtin.ofName? text = some type) :
    text = "byte" ∨ text = type.name := by
  unfold Builtin.ofName? at h
  split at h
  · next other => exact .inl other
  · have found := List.find?_some h
    exact .inr (of_decide_eq_true found).symm

theorem nameable_builtin {text : String} {type : Builtin} (h : Builtin.ofName? text = some type) :
    Nameable text := by
  rcases ofName?_eq_some h with rfl | rfl
  · exact ⟨isName_iff.mp (by decide), by decide⟩
  · refine ⟨isName_iff.mp ?_, ?_⟩ <;> cases type <;> decide

theorem not_keyword_of_mem {text : String} {c : Char} (member : c ∈ text.toList)
    (mark : c ∈ ['[', ']', '(', ')']) : text ∉ keywords := by
  intro keyword
  simp only [keywords, List.mem_cons, List.not_mem_nil, or_false] at keyword mark
  rcases keyword with rfl | rfl | rfl | rfl <;> rcases mark with rfl | rfl | rfl | rfl <;>
    exact absurd member (by decide)

theorem writable_block {α : Type} {keyword : TokenKind} {name : String}
    {spelling : α → List TokenKind → Prop} {items : List α} {kinds : List TokenKind}
    (block : Item.Block keyword name spelling items kinds) (key : keyword.Writable)
    (title : Nameable name)
    (each : ∀ item ∈ items, ∀ first, spelling item first → ∀ kind ∈ first, kind.Writable) :
    ∀ kind ∈ kinds, kind.Writable := by
  obtain ⟨body, row, rfl⟩ := block
  have inside := row.forall_symbols each
  simp only [List.forall_mem_cons, List.forall_mem_append]
  exact ⟨key, title.writable, True.intro, inside, True.intro, fun kind none => nomatch none⟩

section rendering

variable {doc : Document} (static : doc.Static)
include static

theorem nameable_type {name : String} (member : name ∈ doc.typeNames) : Nameable name :=
  ⟨static.wellFormed.typesNamed name member, static.plain.types name member⟩

theorem nameable_message {name : String} (member : name ∈ doc.messages.map Message.name) :
    Nameable name :=
  nameable_type static (List.mem_append_left _ member)

theorem nameable_fieldType {type : FieldType} (resolved : type.Resolved doc) {text : String}
    (spelling : type.Spelling text) : Nameable text := by
  cases type with
  | builtin type => exact nameable_builtin spelling
  | message name =>
    cases spelling
    exact nameable_message static resolved
  | enumeration name =>
    cases spelling
    exact nameable_type static (List.mem_append_right _ resolved.2)

theorem nameable_field {m : Message} (declared : m ∈ doc.messages) {field : MessageField}
    (member : field ∈ m.fields) : Nameable field.name :=
  ⟨(static.wellFormed.messages m declared).named field member,
    static.plain.fields m declared field member⟩

theorem writable_field {m : Message} (declared : m ∈ doc.messages) {field : MessageField}
    (member : field ∈ m.fields) : (TokenKind.word field.written).Writable := by
  have name := nameable_field static declared member
  unfold MessageField.written
  split
  · obtain ⟨filled, plain⟩ := name.1.plain
    have brackets : (field.name ++ "[]").toList = field.name.toList ++ ['[', ']'] :=
      String.toList_append
    refine ⟨?_, not_keyword_of_mem (c := '[') ?_ (by decide)⟩
    · rw [brackets]
      refine isWord_of_plain (by simp) (List.forall_mem_append.mpr ⟨plain, ?_⟩)
      exact fun c mark => .inr (List.mem_append_left ['(', ')'] mark)
    · rw [brackets]
      simp
  · exact name.writable

theorem nameable_request {s : Service} (declared : s ∈ doc.services) {p : Procedure}
    (member : p ∈ s.procedures) {text : String} (spelling : requestSpelling p.request text) :
    text = "" ∨ Nameable text := by
  have named := (static.wellFormed.services s declared).requests p member
  cases asked : p.request with
  | none =>
    rw [asked] at spelling
    rcases spelling with rfl | rfl
    · exact .inl rfl
    · exact .inr nameable_void
  | some name =>
    rw [asked] at spelling
    cases spelling
    exact .inr (nameable_message static (named _ asked))

theorem nameable_response {s : Service} (declared : s ∈ doc.services) {p : Procedure}
    (member : p ∈ s.procedures) {text : String} (spelling : responseSpelling p.response text) :
    Nameable text := by
  have named := (static.wellFormed.services s declared).responses p member
  cases answered : p.response with
  | none =>
    rw [answered] at spelling
    cases spelling
    exact nameable_void
  | some name =>
    rw [answered] at spelling
    cases spelling
    exact nameable_message static (named _ answered)

theorem writable_signature {s : Service} (declared : s ∈ doc.services) {p : Procedure}
    (member : p ∈ s.procedures) {text : String} (spelling : requestSpelling p.request text) :
    (TokenKind.word (p.name ++ "(" ++ text ++ ")")).Writable := by
  have name := (static.wellFormed.services s declared).named p member
  obtain ⟨filled, plain⟩ := name.plain
  have inner : ∀ c ∈ text.toList, IsPlainChar c := by
    rcases nameable_request static declared member spelling with rfl | request
    · exact fun c none => nomatch none
    · exact request.1.plain.2
  have chars : (p.name ++ "(" ++ text ++ ")").toList =
      p.name.toList ++ ('(' :: (text.toList ++ [')'])) := by
    simp only [String.toList_append, List.append_assoc]
    rfl
  refine ⟨?_, not_keyword_of_mem (c := '(') ?_ (by decide)⟩
  · rw [chars]
    refine isWord_of_plain (by simp) (List.forall_mem_append.mpr ⟨plain, ?_⟩)
    refine List.forall_mem_cons.mpr ⟨.inr (by decide), List.forall_mem_append.mpr ⟨inner, ?_⟩⟩
    exact List.forall_mem_singleton.mpr (.inr (by decide))
  · rw [chars]
    simp

theorem writable_item {items : List Item} (whole : doc.Interleaves items) {item : Item}
    (member : item ∈ items) {kinds : List TokenKind} (spelling : item.Spelling kinds) :
    ∀ kind ∈ kinds, kind.Writable := by
  cases item with
  | pragma word =>
    cases spelling
    have declared := whole.mem_pragmas member
    simp only [List.forall_mem_cons]
    exact ⟨True.intro, static.plain.pragmas word declared, fun kind none => nomatch none⟩
  | enumeration e =>
    have declared := whole.mem_enumerations member
    have title := nameable_type static (List.mem_append_right _ (List.mem_map_of_mem declared))
    refine writable_block spelling True.intro title fun v within first spelled => ?_
    cases spelled
    have name : Nameable v.name :=
      ⟨(static.wellFormed.enumerations e declared).named v within,
        static.plain.values e declared v within⟩
    exact List.forall_mem_singleton.mpr name.writable
  | message m =>
    have declared := whole.mem_messages member
    have title := nameable_message static (List.mem_map_of_mem declared)
    refine writable_block spelling True.intro title fun field within first spelled => ?_
    obtain ⟨type, typed, rfl⟩ := spelled
    have resolved := (static.wellFormed.messages m declared).resolved field within
    have text := (nameable_fieldType static resolved typed).writable
    have name := writable_field static declared within
    simp only [List.forall_mem_cons]
    exact ⟨text, name, fun kind none => nomatch none⟩
  | service s =>
    have declared := whole.mem_services member
    have title : Nameable s.name :=
      ⟨static.wellFormed.servicesNamed s declared, static.plain.services s declared⟩
    refine writable_block spelling True.intro title fun p within first spelled => ?_
    obtain ⟨request, response, asked, answered, rfl⟩ := spelled
    have signature := writable_signature static declared within asked
    have answer := (nameable_response static declared within answered).writable
    simp only [List.forall_mem_cons]
    exact ⟨signature, True.intro, answer, fun kind none => nomatch none⟩

theorem exists_kinds_tokens {source : String} (rendering : doc.Rendering source) :
    ∃ items, doc.Interleaves items ∧
      Row Item.Spelling items ((tokens source).map Token.kind) := by
  obtain ⟨items, kinds, whole, row, written⟩ := rendering
  have writable : ∀ kind ∈ kinds, kind.Writable :=
    row.forall_symbols fun item member first spelling => writable_item static whole member spelling
  refine ⟨items, whole, ?_⟩
  rw [tokens, kinds_scan written writable]
  exact row

end rendering

def FieldType.text : FieldType → String
  | .builtin type => type.name
  | .message name | .enumeration name => name

theorem ofName?_name (type : Builtin) : Builtin.ofName? type.name = some type := by
  cases type <;> decide

theorem FieldType.spelling_text (type : FieldType) : type.Spelling type.text := by
  cases type with
  | builtin type => exact ofName?_name type
  | message name => rfl
  | enumeration name => rfl

namespace Item

def block (keyword : TokenKind) (name : String) (body : List TokenKind) : List TokenKind :=
  keyword :: .word name :: .openBrace :: (body ++ [.closeBrace])

def kinds : Item → List TokenKind
  | .pragma word => [.useKeyword, .word word]
  | .enumeration e => block .enumKeyword e.name (e.values.flatMap fun v => [.word v.name])
  | .message m => block .structKeyword m.name
    (m.fields.flatMap fun field => [.word field.type.text, .word field.written])
  | .service s => block .rpcKeyword s.name (s.procedures.flatMap fun p =>
    [.word (p.name ++ "(" ++ p.request.getD voidName ++ ")"), .arrow,
      .word (p.response.getD voidName)])

end Item

theorem row_flatMap {α τ : Type} {spelled : α → List τ → Prop} {f : α → List τ} (items : List α)
    (each : ∀ item ∈ items, spelled item (f item)) : Row spelled items (items.flatMap f) := by
  induction items with
  | nil => exact .nil
  | cons item items ih =>
    obtain ⟨first, others⟩ := List.forall_mem_cons.mp each
    exact .cons first (ih others)

theorem Item.spelling_kinds (item : Item) : item.Spelling item.kinds := by
  cases item with
  | pragma word => rfl
  | enumeration e => exact ⟨_, row_flatMap _ fun v _ => rfl, rfl⟩
  | message m =>
    exact ⟨_, row_flatMap _ fun field _ => ⟨_, field.type.spelling_text, rfl⟩, rfl⟩
  | service s =>
    refine ⟨_, row_flatMap _ fun p _ => ⟨_, _, ?_, ?_, rfl⟩, rfl⟩
    · cases p.request with
      | none => exact .inr rfl
      | some name => rfl
    · cases p.response <;> rfl

def Document.items (doc : Document) : List Item :=
  doc.pragmas.map .pragma ++ doc.enumerations.map .enumeration ++ doc.messages.map .message ++
    doc.services.map .service

/-- The text of a document with a blank before each token. -/
def Document.text (doc : Document) : String :=
  String.ofList (spaced (doc.items.flatMap Item.kinds))

theorem interleaves_items (doc : Document) : doc.Interleaves doc.items := by
  constructor <;>
    simp [Document.items, List.filterMap_map, Function.comp_def, Item.pragma?, Item.enumeration?,
      Item.message?, Item.service?]

theorem rendering_text (doc : Document) : doc.Rendering doc.text := by
  refine ⟨doc.items, _, interleaves_items doc, row_flatMap _ fun item _ => item.spelling_kinds, ?_⟩
  rw [Document.text, String.toList_ofList]
  exact written_spaced _

end BinaryCodec.Definition
