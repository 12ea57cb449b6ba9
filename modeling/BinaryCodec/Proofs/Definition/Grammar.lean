import BinaryCodec.Definition.Draft
import Mathlib.Data.List.Nodup

namespace BinaryCodec.Definition

section steps

variable {ε α β : Type} {x : Except ε α} {f : α → Except ε β} {r : β}

instance decidableEqExcept [DecidableEq ε] [DecidableEq α] : DecidableEq (Except ε α)
  | .ok v, .ok w => decidable_of_iff (v = w) (by rw [Except.ok.injEq])
  | .error d, .error e => decidable_of_iff (d = e) (by rw [Except.error.injEq])
  | .ok _, .error _ => .isFalse (fun same => nomatch same)
  | .error _, .ok _ => .isFalse (fun same => nomatch same)

theorem bind_eq_ok : x >>= f = .ok r ↔ ∃ v, x = .ok v ∧ f v = .ok r := by
  constructor
  · intro h
    cases x with
    | error e => cases h
    | ok v => exact ⟨v, rfl, h⟩
  · rintro ⟨v, made, h⟩
    rw [made]
    exact h

theorem check_eq_ok {p : Prop} [Decidable p] {e : ε} {k : Unit → Except ε β} :
    (if p then (throw e : Except ε Unit) >>= k else k ()) = .ok r ↔ ¬p ∧ k () = .ok r := by
  by_cases h : p
  · rw [if_pos h]
    exact ⟨fun failed => (nomatch failed), fun passed => absurd h passed.1⟩
  · rw [if_neg h]
    exact ⟨fun run => ⟨h, run⟩, fun passed => passed.2⟩

end steps

def Reserved (name : String) : Prop := (Builtin.ofName? name).isSome ∨ name = voidName

variable {final : Position} {expected : Expected} {tokens rest : List Token} {name : Name}

theorem parseName_eq_ok : parseName final expected tokens = .ok (name, rest) ↔
    tokens = ⟨.word name.text, name.place⟩ :: rest := by
  constructor
  · intro h
    unfold parseName at h
    split at h
    · cases h
      rfl
    · cases h
  · rintro rfl
    rfl

theorem check_eq_unit {u : Unit} : name.check = .ok u ↔ isName name.text := by
  unfold Name.check
  split <;> simp_all

theorem parseOpen_eq_ok :
    parseOpen final tokens = .ok rest ↔ ∃ place, tokens = ⟨.openBrace, place⟩ :: rest := by
  constructor
  · intro h
    unfold parseOpen at h
    split at h
    · cases h
      exact ⟨_, rfl⟩
    · cases h
  · rintro ⟨place, rfl⟩
    rfl

theorem parseTypeName_eq_ok {draft : Draft} :
    parseTypeName final draft tokens = .ok (name, rest) ↔
      tokens = ⟨.word name.text, name.place⟩ :: rest ∧ isName name.text ∧ ¬Reserved name.text ∧
        name.text ∉ draft.typeNames := by
  simp only [parseTypeName, bind_eq_ok, check_eq_ok, check_eq_unit, Prod.exists, parseName_eq_ok]
  constructor
  · rintro ⟨a, b, spelled, -, valid, free, unused, same⟩
    cases same
    exact ⟨spelled, valid, free, unused⟩
  · rintro ⟨spelled, valid, free, unused⟩
    exact ⟨name, rest, spelled, (), valid, free, unused, rfl⟩

section items

variable {α τ : Type}

inductive Row (spelled : α → List τ → Prop) : List α → List τ → Prop
  | nil : Row spelled [] []
  | cons {item : α} {items : List α} {first more : List τ} :
      spelled item first → Row spelled items more → Row spelled (item :: items) (first ++ more)

theorem Row.forall {spelled : α → List τ → Prop} {items : List α} {symbols : List τ}
    {good : α → Prop} (row : Row spelled items symbols)
    (h : ∀ item first, spelled item first → good item) : ∀ item ∈ items, good item := by
  induction row with
  | nil => exact fun item member => nomatch member
  | cons head row ih => exact List.forall_mem_cons.mpr ⟨h _ _ head, ih⟩

theorem Row.forall_symbols {spelled : α → List τ → Prop} {items : List α} {symbols : List τ}
    {good : τ → Prop} (row : Row spelled items symbols)
    (h : ∀ item ∈ items, ∀ first, spelled item first → ∀ s ∈ first, good s) :
    ∀ s ∈ symbols, good s := by
  induction row with
  | nil => exact fun s member => nomatch member
  | cons head row ih =>
    obtain ⟨first, others⟩ := List.forall_mem_cons.mp h
    exact List.forall_mem_append.mpr ⟨first _ head, ih others⟩

def InTurn (valid : List String → α → Prop) (key : α → String) : List String → List α → Prop
  | _, [] => True
  | seen, item :: items => valid seen item ∧ InTurn valid key (seen ++ [key item]) items

def Loops (spelled : α → List Token → Prop) (valid : List String → α → Prop) (key : α → String)
    (parse : List String → List Token → Except Fault (List α × List Token)) : Prop :=
  ∀ seen tokens items rest, parse seen tokens = .ok (items, rest) ↔
    (∃ place, items = [] ∧ tokens = ⟨.closeBrace, place⟩ :: rest) ∨
    ∃ item others first more, items = item :: others ∧ tokens = first ++ more ∧
      spelled item first ∧ valid seen item ∧ parse (seen ++ [key item]) more = .ok (others, rest)

variable {spelled : α → List Token → Prop} {valid : List String → α → Prop} {key : α → String}
  {parse : List String → List Token → Except Fault (List α × List Token)} {seen : List String}
  {tokens rest : List Token} {items : List α}

theorem Loops.eq_ok (loops : Loops spelled valid key parse) :
    parse seen tokens = .ok (items, rest) ↔ InTurn valid key seen items ∧
      ∃ body place, Row spelled items body ∧ tokens = body ++ ⟨.closeBrace, place⟩ :: rest := by
  -- the items, unlike the tokens, are one fewer in each turn of the loop
  induction items generalizing seen tokens with
  | nil =>
    rw [loops]
    constructor
    · rintro (⟨place, -, rfl⟩ | ⟨_, _, _, _, impossible, _⟩)
      · exact ⟨True.intro, [], place, .nil, rfl⟩
      · cases impossible
    · rintro ⟨-, body, place, row, rfl⟩
      cases row
      exact .inl ⟨place, rfl, rfl⟩
  | cons item items ih =>
    rw [loops]
    constructor
    · rintro (⟨_, impossible, _⟩ | ⟨_, _, first, more, same, rfl, head, admitted, tail⟩)
      · cases impossible
      · cases same
        obtain ⟨turn, body, place, row, rfl⟩ := ih.mp tail
        exact ⟨⟨admitted, turn⟩, first ++ body, place, .cons head row, by rw [List.append_assoc]⟩
    · rintro ⟨⟨admitted, turn⟩, body, place, row, rfl⟩
      cases row with
      | @cons _ _ first more head row =>
        have tail := ih.mpr ⟨turn, more, place, row, rfl⟩
        exact .inr ⟨item, items, first, _, rfl, List.append_assoc .., head, admitted, tail⟩

theorem InTurn.forall {good : α → Prop} (turn : InTurn valid key seen items)
    (h : ∀ seen item, valid seen item → good item) : ∀ item ∈ items, good item := by
  induction items generalizing seen with
  | nil => exact fun item member => nomatch member
  | cons item items ih =>
    have others := ih turn.2
    exact List.forall_mem_cons.mpr ⟨h seen item turn.1, others⟩

theorem InTurn.nodup (turn : InTurn valid key seen items) (distinct : seen.Nodup)
    (h : ∀ seen item, valid seen item → key item ∉ seen) : (seen ++ items.map key).Nodup := by
  induction items generalizing seen with
  | nil => rwa [List.map_nil, List.append_nil]
  | cons item items ih =>
    have unused := h seen item turn.1
    have longer : (seen ++ [key item]).Nodup := by
      rw [← List.concat_eq_append]
      exact distinct.concat unused
    have all := ih turn.2 longer
    rwa [List.append_assoc] at all

theorem inTurn_of_nodup {good : α → Prop} (checked : ∀ item ∈ items, good item)
    (distinct : (seen ++ items.map key).Nodup)
    (h : ∀ seen item, good item → key item ∉ seen → valid seen item) :
    InTurn valid key seen items := by
  induction items generalizing seen with
  | nil => exact True.intro
  | cons item items ih =>
    obtain ⟨first, others⟩ := List.forall_mem_cons.mp checked
    have unused : key item ∉ seen := by
      intro member
      exact (List.nodup_append.mp distinct).2.2 _ member _ (List.mem_cons_self ..) rfl
    refine ⟨h seen item first unused, ih others ?_⟩
    rwa [List.append_assoc]

end items

def EnumerationValue.Spelled (v : EnumerationValue) (tokens : List Token) : Prop :=
  ∃ place, tokens = [⟨.word v.name, place⟩]

def EnumerationValue.Follows (seen : List String) (v : EnumerationValue) : Prop :=
  isName v.name ∧ v.name ∉ seen ∧ v.number = seen.length

theorem loops_parseValues :
    Loops EnumerationValue.Spelled EnumerationValue.Follows EnumerationValue.name
      (parseValues final) := by
  intro seen tokens values rest
  constructor
  · intro h
    unfold parseValues at h
    split at h
    · cases h
      exact .inl ⟨_, rfl, rfl⟩
    · next seen text place more =>
      simp only [bind_eq_ok, check_eq_ok, check_eq_unit, Prod.exists] at h
      obtain ⟨-, valid, unused, others, left, parsed, same⟩ := h
      cases same
      exact .inr ⟨_, others, [⟨.word text, place⟩], more, rfl, rfl, ⟨place, rfl⟩,
        ⟨valid, unused, rfl⟩, parsed⟩
    · cases h
  · rintro (⟨place, rfl, rfl⟩ | ⟨v, others, first, more, rfl, rfl, ⟨place, rfl⟩, follows, parsed⟩)
    · rfl
    · obtain ⟨valid, unused, number⟩ := follows
      simp only [List.cons_append, List.nil_append, parseValues, bind_eq_ok, check_eq_ok,
        check_eq_unit, Prod.exists]
      refine ⟨(), valid, unused, others, rest, parsed, ?_⟩
      rw [← number]
      rfl

/-- How the name of a field is written, with its brackets. -/
def DraftField.written (field : DraftField) : String :=
  if field.isArray then field.name ++ "[]" else field.name

theorem splitArray_brackets (text : String) : splitArray (text ++ "[]") = (text, true) := by
  have reversed : (text ++ "[]").toList.reverse = ']' :: '[' :: text.toList.reverse := by
    rw [String.toList_append, List.reverse_append]
    rfl
  unfold splitArray
  rw [reversed]
  simp only [List.reverse_reverse, String.ofList_toList]

theorem splitArray_eq {written text : String} {isArray : Bool}
    (h : splitArray written = (text, isArray)) :
    written = if isArray then text ++ "[]" else text := by
  unfold splitArray at h
  split at h
  · next rest reversed =>
    cases h
    have straight : written.toList = rest.reverse ++ ['[', ']'] := by
      rw [← List.reverse_reverse written.toList, reversed]
      simp
    rw [if_pos rfl, ← String.toList_inj, straight, String.toList_append, String.toList_ofList]
    rfl
  · cases h
    rfl

theorem splitArray_of_isName {text : String} (h : isName text) : splitArray text = (text, false) := by
  cases split : splitArray text with
  | mk front isArray =>
    have whole := splitArray_eq split
    cases isArray with
    | false =>
      rw [whole]
      rfl
    | true =>
      have bracket : ']' ∈ text.toList := by
        rw [whole]
        simp
      simp only [isName, Bool.and_eq_true, List.all_eq_true] at h
      exact absurd (h.2 _ bracket) (by decide)

theorem splitArray_written {field : DraftField} (h : isName field.name) :
    splitArray field.written = (field.name, field.isArray) := by
  unfold DraftField.written
  cases field.isArray with
  | false => exact splitArray_of_isName h
  | true => exact splitArray_brackets _

def DraftField.Spelled (field : DraftField) (tokens : List Token) : Prop :=
  ∃ place, tokens = [⟨.word field.type.text, field.type.place⟩, ⟨.word field.written, place⟩]

def DraftField.Follows (seen : List String) (field : DraftField) : Prop :=
  isName field.type.text ∧ isName field.name ∧ field.name ∉ seen

theorem loops_parseFields :
    Loops DraftField.Spelled DraftField.Follows DraftField.name (parseFields final) := by
  intro seen tokens fields rest
  constructor
  · intro h
    unfold parseFields at h
    split at h
    · cases h
      exact .inl ⟨_, rfl, rfl⟩
    · next seen text place more =>
      simp only [bind_eq_ok, check_eq_unit] at h
      obtain ⟨-, typed, h⟩ := h
      split at h
      · next written position more =>
        cases split : splitArray written with
        | mk name isArray =>
        simp only [split, bind_eq_ok, check_eq_ok, check_eq_unit, Prod.exists] at h
        obtain ⟨-, named, unused, others, left, parsed, same⟩ := h
        cases same
        have brackets := splitArray_eq split
        refine .inr ⟨_, others, [⟨.word text, place⟩, ⟨.word written, position⟩], more, rfl, rfl,
          ⟨position, ?_⟩, ⟨typed, named, unused⟩, parsed⟩
        rw [brackets]
        rfl
      · cases h
    · cases h
  · rintro (⟨place, rfl, rfl⟩ | ⟨field, others, first, more, rfl, rfl, ⟨place, rfl⟩, follows, parsed⟩)
    · rfl
    · obtain ⟨typed, named, unused⟩ := follows
      simp only [List.cons_append, List.nil_append, parseFields, splitArray_written named,
        bind_eq_ok, check_eq_ok, check_eq_unit, Prod.exists]
      exact ⟨(), typed, (), named, unused, others, rest, parsed, rfl⟩

theorem not_mem_of_isName {text : String} (h : isName text) {c : Char} (other : isNameChar c = false) :
    c ∉ text.toList := by
  simp only [isName, Bool.and_eq_true, List.all_eq_true] at h
  intro member
  rw [h.2 c member] at other
  cases other

theorem takeWhile_of_not_mem {front back : List Char} {c : Char} (absent : c ∉ front) :
    (front ++ c :: back).takeWhile (· ≠ c) = front := by
  have passed : ∀ d ∈ front, decide (d ≠ c) = true := by
    intro d member
    exact decide_eq_true fun same => absent (same ▸ member)
  rw [List.takeWhile_append_of_pos passed]
  simp

theorem eq_of_drop_takeWhile {chars back : List Char} {c d : Char}
    (dropped : chars.drop (chars.takeWhile (· ≠ c)).length = d :: back) :
    chars = chars.takeWhile (· ≠ c) ++ c :: back := by
  induction chars with
  | nil => cases dropped
  | cons x rest ih =>
    by_cases same : x = c
    · have stops : (x :: rest).takeWhile (· ≠ c) = [] := by simp [same]
      rw [stops] at dropped ⊢
      cases dropped
      rw [same]
      rfl
    · have goes : (x :: rest).takeWhile (· ≠ c) = x :: rest.takeWhile (· ≠ c) := by simp [same]
      rw [goes] at dropped ⊢
      rw [List.cons_append, ← ih dropped]

theorem shape_of_splitSignature {signature : Name} {name request : String}
    (h : splitSignature signature = .ok (name, request)) : isName name ∧
      ∃ inner, signature.text = name ++ "(" ++ inner ++ ")" ∧ (inner = "" ∨ isName inner) ∧
        request = if inner = "" then voidName else inner := by
  simp only [splitSignature] at h
  split at h
  · cases h
  · next d back dropped =>
    split at h
    · next inner reversed =>
      split at h
      · next valid =>
        have closed : back = inner.reverse ++ [')'] := by
          rw [← List.reverse_reverse back, reversed, List.reverse_cons]
        have whole := eq_of_drop_takeWhile dropped
        cases h
        simp only [Bool.and_eq_true, Bool.or_eq_true, String.isEmpty_iff] at valid ⊢
        refine ⟨valid.1, _, ?_, valid.2, rfl⟩
        rw [closed] at whole
        rw [← String.toList_inj]
        simp only [String.toList_append, String.toList_ofList, List.append_assoc]
        exact whole
      · cases h
    · cases h

theorem splitSignature_of_shape {signature : Name} {name inner : String} (named : isName name)
    (whole : signature.text = name ++ "(" ++ inner ++ ")") (valid : inner = "" ∨ isName inner) :
    splitSignature signature = .ok (name, if inner = "" then voidName else inner) := by
  have chars : signature.text.toList = name.toList ++ '(' :: (inner.toList ++ [')']) := by
    rw [whole]
    simp only [String.toList_append, List.append_assoc]
    rfl
  have front : (name.toList ++ '(' :: (inner.toList ++ [')'])).takeWhile (· ≠ '(') = name.toList :=
    takeWhile_of_not_mem (not_mem_of_isName named (by decide))
  unfold splitSignature
  simp only [chars, front, List.drop_left, List.reverse_append, List.reverse_cons,
    List.reverse_nil, List.nil_append, List.cons_append, List.reverse_reverse,
    String.ofList_toList, String.isEmpty_iff]
  rw [if_pos]
  simp only [named, Bool.true_and, Bool.or_eq_true, String.isEmpty_iff]
  exact valid

theorem eq_of_nonVoid {text name : String} (h : nonVoid text = some name) : text = name := by
  unfold nonVoid at h
  split at h
  · cases h
  · exact Option.some.inj h

def DraftProcedure.Spelled (p : DraftProcedure) (tokens : List Token) : Prop :=
  ∃ signature response : Name, ∃ name request place,
    splitSignature signature = .ok (name, request) ∧ isName response.text ∧
    p = .of signature name request response ∧
    tokens = [⟨.word signature.text, signature.place⟩, ⟨.arrow, place⟩,
      ⟨.word response.text, response.place⟩]

def DraftProcedure.Follows (seen : List String) (p : DraftProcedure) : Prop :=
  p.procedure.name ∉ seen

theorem loops_parseProcedures :
    Loops DraftProcedure.Spelled DraftProcedure.Follows (fun p => p.procedure.name)
      (parseProcedures final) := by
  intro seen tokens procedures rest
  constructor
  · intro h
    unfold parseProcedures at h
    split at h
    · cases h
      exact .inl ⟨_, rfl, rfl⟩
    · next seen text place more =>
      simp only [bind_eq_ok, check_eq_ok, Prod.exists] at h
      obtain ⟨name, request, split, unused, h⟩ := h
      split at h
      · next arrow answer position more =>
        simp only [bind_eq_ok, check_eq_unit, Prod.exists] at h
        obtain ⟨-, answered, others, left, parsed, same⟩ := h
        cases same
        exact .inr ⟨_, others, [⟨.word text, place⟩, ⟨.arrow, arrow⟩, ⟨.word answer, position⟩], more,
          rfl, rfl, ⟨⟨text, place⟩, ⟨answer, position⟩, name, request, arrow, split, answered, rfl,
          rfl⟩, unused, parsed⟩
      · cases h
      · cases h
    · cases h
  · rintro (⟨place, rfl, rfl⟩ | ⟨p, others, first, more, rfl, rfl, spelled, unused, parsed⟩)
    · rfl
    · obtain ⟨signature, response, name, request, place, split, answered, rfl, rfl⟩ := spelled
      simp only [List.cons_append, List.nil_append, parseProcedures, bind_eq_ok, check_eq_ok,
        check_eq_unit, Prod.exists]
      exact ⟨name, request, split, unused, (), answered, others, rest, parsed, rfl⟩

inductive DraftItem where
  | pragma (word : Name)
  | enumeration (name : Name) (values : List EnumerationValue)
  | message (name : Name) (fields : List DraftField)
  | service (name : Name) (procedures : List DraftProcedure)

namespace DraftItem

def Braced {α : Type} (spelled : α → List Token → Prop) (name : Name) (items : List α)
    (tokens : List Token) : Prop :=
  ∃ opened closed body, Row spelled items body ∧
    tokens = ⟨.word name.text, name.place⟩ :: ⟨.openBrace, opened⟩ ::
      (body ++ [⟨.closeBrace, closed⟩])

def keyword : DraftItem → TokenKind
  | .pragma _ => .useKeyword
  | .enumeration .. => .enumKeyword
  | .message .. => .structKeyword
  | .service .. => .rpcKeyword

def Body : DraftItem → List Token → Prop
  | .pragma word, tokens => tokens = [⟨.word word.text, word.place⟩]
  | .enumeration name values, tokens => Braced EnumerationValue.Spelled name values tokens
  | .message name fields, tokens => Braced DraftField.Spelled name fields tokens
  | .service name procedures, tokens => Braced DraftProcedure.Spelled name procedures tokens

def Spelled (item : DraftItem) (tokens : List Token) : Prop :=
  ∃ place body, item.Body body ∧ tokens = ⟨item.keyword, place⟩ :: body

def typeName? : DraftItem → Option String
  | .enumeration name _ | .message name _ => some name.text
  | .pragma _ | .service .. => none

def serviceName? : DraftItem → Option String
  | .service name _ => some name.text
  | .pragma _ | .enumeration .. | .message .. => none

def Proper : DraftItem → Prop
  | .pragma _ => True
  | .enumeration name values => (isName name.text ∧ ¬Reserved name.text) ∧ values ≠ [] ∧
    InTurn EnumerationValue.Follows EnumerationValue.name [] values
  | .message name fields => (isName name.text ∧ ¬Reserved name.text) ∧
    InTurn DraftField.Follows DraftField.name [] fields
  | .service name procedures => isName name.text ∧
    InTurn DraftProcedure.Follows (fun p => p.procedure.name) [] procedures

end DraftItem

namespace Draft

def add (draft : Draft) : DraftItem → Draft
  | .pragma word => { draft with pragmas := draft.pragmas ++ [word.text] }
  | .enumeration name values =>
    { draft with enumerations := draft.enumerations ++ [⟨name.text, values⟩] }
  | .message name fields => { draft with messages := draft.messages ++ [⟨name, fields⟩] }
  | .service name procedures =>
    { draft with
      services := draft.services ++ [⟨name.text, procedures.map DraftProcedure.procedure⟩]
      procedureTypes := draft.procedureTypes ++ procedures.flatMap DraftProcedure.types }

structure Takes (draft : Draft) (item : DraftItem) : Prop where
  proper : item.Proper
  newType : ∀ name ∈ item.typeName?, name ∉ draft.typeNames
  newService : ∀ name ∈ item.serviceName?, name ∉ draft.serviceNames

variable {draft next : Draft}

theorem parsePragma_eq_ok :
    draft.parsePragma final tokens = .ok (next, rest) ↔ ∃ word body,
      (DraftItem.pragma word).Body body ∧ tokens = body ++ rest ∧ draft.Takes (.pragma word) ∧
        next = draft.add (.pragma word) := by
  simp only [parsePragma, bind_eq_ok, Prod.exists, parseName_eq_ok]
  constructor
  · rintro ⟨word, _, rfl, same⟩
    cases same
    refine ⟨word, _, rfl, rfl, ⟨True.intro, ?_, ?_⟩, rfl⟩ <;> exact fun _ declared => nomatch declared
  · rintro ⟨word, _, rfl, rfl, -, rfl⟩
    exact ⟨word, rest, rfl, rfl⟩

theorem parseEnumeration_eq_ok :
    draft.parseEnumeration final tokens = .ok (next, rest) ↔ ∃ name values body,
      (DraftItem.enumeration name values).Body body ∧ tokens = body ++ rest ∧
        draft.Takes (.enumeration name values) ∧ next = draft.add (.enumeration name values) := by
  simp only [parseEnumeration, bind_eq_ok, Prod.exists, parseTypeName_eq_ok, parseOpen_eq_ok,
    loops_parseValues.eq_ok, check_eq_ok, List.isEmpty_iff]
  constructor
  · rintro ⟨name, _, ⟨rfl, valid, free, unused⟩, _, ⟨opened, rfl⟩, values, _,
      ⟨turn, body, closed, row, rfl⟩, some, same⟩
    cases same
    refine ⟨name, values, _, ⟨opened, closed, body, row, rfl⟩, ?_, ⟨⟨⟨valid, free⟩, some, turn⟩, ?_, ?_⟩,
      rfl⟩
    · simp
    · rintro _ ⟨⟩
      exact unused
    · exact fun _ declared => nomatch declared
  · rintro ⟨name, values, _, ⟨opened, closed, body, row, rfl⟩, rfl,
      ⟨⟨⟨valid, free⟩, some, turn⟩, newType, -⟩, rfl⟩
    refine ⟨name, _, ⟨rfl, valid, free, newType _ rfl⟩, _, ⟨opened, rfl⟩, values, rest,
      ⟨turn, body, closed, row, ?_⟩, some, rfl⟩
    simp

theorem parseMessage_eq_ok :
    draft.parseMessage final tokens = .ok (next, rest) ↔ ∃ name fields body,
      (DraftItem.message name fields).Body body ∧ tokens = body ++ rest ∧
        draft.Takes (.message name fields) ∧ next = draft.add (.message name fields) := by
  simp only [parseMessage, bind_eq_ok, Prod.exists, parseTypeName_eq_ok, parseOpen_eq_ok,
    loops_parseFields.eq_ok]
  constructor
  · rintro ⟨name, _, ⟨rfl, valid, free, unused⟩, _, ⟨opened, rfl⟩, fields, _,
      ⟨turn, body, closed, row, rfl⟩, same⟩
    cases same
    refine ⟨name, fields, _, ⟨opened, closed, body, row, rfl⟩, ?_, ⟨⟨⟨valid, free⟩, turn⟩, ?_, ?_⟩, rfl⟩
    · simp
    · rintro _ ⟨⟩
      exact unused
    · exact fun _ declared => nomatch declared
  · rintro ⟨name, fields, _, ⟨opened, closed, body, row, rfl⟩, rfl,
      ⟨⟨⟨valid, free⟩, turn⟩, newType, -⟩, rfl⟩
    refine ⟨name, _, ⟨rfl, valid, free, newType _ rfl⟩, _, ⟨opened, rfl⟩, fields, rest,
      ⟨turn, body, closed, row, ?_⟩, rfl⟩
    simp

theorem parseService_eq_ok :
    draft.parseService final tokens = .ok (next, rest) ↔ ∃ name procedures body,
      (DraftItem.service name procedures).Body body ∧ tokens = body ++ rest ∧
        draft.Takes (.service name procedures) ∧ next = draft.add (.service name procedures) := by
  simp only [parseService, bind_eq_ok, Prod.exists, parseName_eq_ok, check_eq_unit, check_eq_ok,
    parseOpen_eq_ok, loops_parseProcedures.eq_ok]
  constructor
  · rintro ⟨name, _, rfl, -, valid, unused, _, ⟨opened, rfl⟩, procedures, _,
      ⟨turn, body, closed, row, rfl⟩, same⟩
    cases same
    refine ⟨name, procedures, _, ⟨opened, closed, body, row, rfl⟩, ?_, ⟨⟨valid, turn⟩, ?_, ?_⟩, rfl⟩
    · simp
    · exact fun _ declared => nomatch declared
    · rintro _ ⟨⟩
      exact unused
  · rintro ⟨name, procedures, _, ⟨opened, closed, body, row, rfl⟩, rfl,
      ⟨⟨valid, turn⟩, -, newService⟩, rfl⟩
    refine ⟨name, _, rfl, (), valid, newService _ rfl, _, ⟨opened, rfl⟩, procedures, rest,
      ⟨turn, body, closed, row, ?_⟩, rfl⟩
    simp

theorem parseDeclaration_eq_ok :
    draft.parseDeclaration final tokens = .ok (next, rest) ↔ ∃ item body, item.Spelled body ∧
      tokens = body ++ rest ∧ draft.Takes item ∧ next = draft.add item := by
  constructor
  · intro h
    unfold parseDeclaration at h
    split at h
    · obtain ⟨word, body, spelled, rfl, takes⟩ := parsePragma_eq_ok.mp h
      exact ⟨_, _, ⟨_, body, spelled, rfl⟩, rfl, takes⟩
    · obtain ⟨name, values, body, spelled, rfl, takes⟩ := parseEnumeration_eq_ok.mp h
      exact ⟨_, _, ⟨_, body, spelled, rfl⟩, rfl, takes⟩
    · obtain ⟨name, fields, body, spelled, rfl, takes⟩ := parseMessage_eq_ok.mp h
      exact ⟨_, _, ⟨_, body, spelled, rfl⟩, rfl, takes⟩
    · obtain ⟨name, procedures, body, spelled, rfl, takes⟩ := parseService_eq_ok.mp h
      exact ⟨_, _, ⟨_, body, spelled, rfl⟩, rfl, takes⟩
    · cases h
  · rintro ⟨item, _, ⟨place, body, spelled, rfl⟩, rfl, takes⟩
    cases item with
    | pragma word => exact parsePragma_eq_ok.mpr ⟨word, body, spelled, rfl, takes⟩
    | enumeration name values =>
      exact parseEnumeration_eq_ok.mpr ⟨name, values, body, spelled, rfl, takes⟩
    | message name fields => exact parseMessage_eq_ok.mpr ⟨name, fields, body, spelled, rfl, takes⟩
    | service name procedures =>
      exact parseService_eq_ok.mpr ⟨name, procedures, body, spelled, rfl, takes⟩

structure TakesAll (draft : Draft) (items : List DraftItem) : Prop where
  proper : ∀ item ∈ items, item.Proper
  types : (items.filterMap DraftItem.typeName?).Nodup
  newTypes : ∀ name ∈ items.filterMap DraftItem.typeName?, name ∉ draft.typeNames
  services : (items.filterMap DraftItem.serviceName?).Nodup
  newServices : ∀ name ∈ items.filterMap DraftItem.serviceName?, name ∉ draft.serviceNames

theorem mem_typeNames_add {item : DraftItem} {name : String} :
    name ∈ (draft.add item).typeNames ↔ name ∈ draft.typeNames ∨ name ∈ item.typeName? := by
  cases item <;> simp [add, typeNames, DraftItem.typeName?, or_left_comm, or_comm, eq_comm]

theorem mem_serviceNames_add {item : DraftItem} {name : String} :
    name ∈ (draft.add item).serviceNames ↔ name ∈ draft.serviceNames ∨ name ∈ item.serviceName? := by
  cases item <;> simp [add, serviceNames, DraftItem.serviceName?, eq_comm]

theorem nodup_filterMap_cons {α β : Type} {f : α → Option β} {a : α} {l : List α} :
    ((a :: l).filterMap f).Nodup ↔
      (∀ b ∈ f a, b ∉ l.filterMap f) ∧ (l.filterMap f).Nodup := by
  rw [List.filterMap_cons]
  cases f a with
  | none => simp
  | some b => simp

theorem forall_mem_filterMap_cons {α β : Type} {f : α → Option β} {p : β → Prop} {a : α}
    {l : List α} : (∀ b ∈ (a :: l).filterMap f, p b) ↔ (∀ b ∈ f a, p b) ∧ ∀ b ∈ l.filterMap f, p b := by
  rw [List.filterMap_cons]
  cases f a with
  | none => simp
  | some b => simp

theorem takesAll_cons {item : DraftItem} {items : List DraftItem} :
    draft.TakesAll (item :: items) ↔ draft.Takes item ∧ (draft.add item).TakesAll items := by
  constructor
  · rintro ⟨proper, types, newTypes, services, newServices⟩
    rw [nodup_filterMap_cons] at types services
    rw [forall_mem_filterMap_cons] at newTypes newServices
    obtain ⟨first, others⟩ := List.forall_mem_cons.mp proper
    refine ⟨⟨first, newTypes.1, newServices.1⟩, others, types.2, ?_, services.2, ?_⟩
    · intro name member declared
      rcases mem_typeNames_add.mp declared with before | here
      · exact newTypes.2 name member before
      · exact types.1 name here member
    · intro name member declared
      rcases mem_serviceNames_add.mp declared with before | here
      · exact newServices.2 name member before
      · exact services.1 name here member
  · rintro ⟨⟨first, newType, newService⟩, others, types, newTypes, services, newServices⟩
    refine ⟨List.forall_mem_cons.mpr ⟨first, others⟩, ?_, ?_, ?_, ?_⟩
    · refine nodup_filterMap_cons.mpr ⟨fun name here member => ?_, types⟩
      exact newTypes name member (mem_typeNames_add.mpr (.inr here))
    · refine forall_mem_filterMap_cons.mpr ⟨newType, fun name member before => ?_⟩
      exact newTypes name member (mem_typeNames_add.mpr (.inl before))
    · refine nodup_filterMap_cons.mpr ⟨fun name here member => ?_, services⟩
      exact newServices name member (mem_serviceNames_add.mpr (.inr here))
    · refine forall_mem_filterMap_cons.mpr ⟨newService, fun name member before => ?_⟩
      exact newServices name member (mem_serviceNames_add.mpr (.inl before))

theorem takesAll_nil : draft.TakesAll [] := by
  constructor <;> simp

theorem row_nil {items : List DraftItem} (row : Row DraftItem.Spelled items tokens)
    (none : tokens = []) : items = [] := by
  cases row with
  | nil => rfl
  | cons spelled row =>
    obtain ⟨place, body, -, rfl⟩ := spelled
    cases none

theorem parseAll_nil_eq_ok {fuel : Nat} :
    parseAll final fuel draft [] = .ok next ↔ ∃ items, Row DraftItem.Spelled items [] ∧
      draft.TakesAll items ∧ next = items.foldl add draft := by
  have stops : parseAll final fuel draft [] = .ok draft := by cases fuel <;> rfl
  rw [stops]
  constructor
  · rintro ⟨⟩
    exact ⟨[], .nil, takesAll_nil, rfl⟩
  · rintro ⟨items, row, -, rfl⟩
    rw [row_nil row rfl]
    rfl

theorem length_lt_of_spelled {item : DraftItem} {body : List Token} (spelled : item.Spelled body) :
    0 < body.length := by
  obtain ⟨place, more, -, rfl⟩ := spelled
  exact Nat.succ_pos _

theorem parseAll_eq_ok {fuel : Nat} (enough : tokens.length ≤ fuel) :
    parseAll final fuel draft tokens = .ok next ↔ ∃ items, Row DraftItem.Spelled items tokens ∧
      draft.TakesAll items ∧ next = items.foldl add draft := by
  induction fuel generalizing draft tokens with
  | zero =>
    obtain rfl := List.length_eq_zero_iff.mp (Nat.le_zero.mp enough)
    exact parseAll_nil_eq_ok
  | succ fuel ih =>
    cases tokens with
    | nil => exact parseAll_nil_eq_ok
    | cons token more =>
      simp only [parseAll, bind_eq_ok, Prod.exists, parseDeclaration_eq_ok]
      -- every declaration takes a token, so that the fuel is enough for the rest
      have shorter : ∀ {item : DraftItem} {body rest : List Token}, item.Spelled body →
          token :: more = body ++ rest → rest.length ≤ fuel := by
        intro item body rest spelled whole
        have some := length_lt_of_spelled spelled
        have total := congrArg List.length whole
        rw [List.length_append] at total
        omega
      constructor
      · rintro ⟨_, rest, ⟨item, body, spelled, whole, takes, rfl⟩, run⟩
        obtain ⟨items, row, takesAll, rfl⟩ := (ih (shorter spelled whole)).mp run
        refine ⟨item :: items, ?_, takesAll_cons.mpr ⟨takes, takesAll⟩, rfl⟩
        rw [whole]
        exact .cons spelled row
      · rintro ⟨items, row, takesAll, rfl⟩
        generalize whole : token :: more = tokens at row
        cases row with
        | nil => cases whole
        | @cons item items body rest spelled row =>
          obtain ⟨takes, others⟩ := takesAll_cons.mp takesAll
          have run := (ih (shorter spelled whole)).mpr ⟨items, row, others, rfl⟩
          exact ⟨_, rest, ⟨item, body, spelled, rfl, takes, rfl⟩, run⟩

theorem ofTokens_eq_ok : ofTokens tokens = .ok next ↔ ∃ items, Row DraftItem.Spelled items tokens ∧
    empty.TakesAll items ∧ next = items.foldl add empty :=
  parseAll_eq_ok (Nat.le_refl _)

end Draft

namespace DraftItem

def pragma? : DraftItem → Option String
  | .pragma word => some word.text
  | .enumeration .. | .message .. | .service .. => none

def enumeration? : DraftItem → Option Enumeration
  | .enumeration name values => some ⟨name.text, values⟩
  | .pragma _ | .message .. | .service .. => none

def message? : DraftItem → Option DraftMessage
  | .message name fields => some ⟨name, fields⟩
  | .pragma _ | .enumeration .. | .service .. => none

def service? : DraftItem → Option Service
  | .service name procedures => some ⟨name.text, procedures.map DraftProcedure.procedure⟩
  | .pragma _ | .enumeration .. | .message .. => none

def procedureTypes : DraftItem → List Name
  | .service _ procedures => procedures.flatMap DraftProcedure.types
  | .pragma _ | .enumeration .. | .message .. => []

end DraftItem

namespace Draft

theorem foldl_add {draft : Draft} {items : List DraftItem} : items.foldl add draft =
    { pragmas := draft.pragmas ++ items.filterMap DraftItem.pragma?
      messages := draft.messages ++ items.filterMap DraftItem.message?
      enumerations := draft.enumerations ++ items.filterMap DraftItem.enumeration?
      services := draft.services ++ items.filterMap DraftItem.service?
      procedureTypes := draft.procedureTypes ++ items.flatMap DraftItem.procedureTypes } := by
  induction items generalizing draft with
  | nil => simp
  | cons item items ih =>
    rw [List.foldl_cons, ih]
    cases item <;>
      simp [add, List.filterMap_cons, DraftItem.pragma?, DraftItem.message?,
        DraftItem.enumeration?, DraftItem.service?, DraftItem.procedureTypes]

theorem typeNames_perm (items : List DraftItem) : (items.foldl add empty).typeNames.Perm
    (items.filterMap DraftItem.typeName?) := by
  simp only [foldl_add, typeNames, empty, List.nil_append]
  induction items with
  | nil => rfl
  | cons item items ih =>
    cases item with
    | pragma word => exact ih
    | service name procedures => exact ih
    | message name fields => exact ih.cons _
    | enumeration name values => exact List.perm_middle.trans (ih.cons _)

theorem serviceNames_eq (items : List DraftItem) : (items.foldl add empty).serviceNames =
    items.filterMap DraftItem.serviceName? := by
  simp only [foldl_add, serviceNames, empty, List.nil_append]
  induction items with
  | nil => rfl
  | cons item items ih =>
    cases item with
    | pragma word => exact ih
    | enumeration name values => exact ih
    | message name fields => exact ih
    | service name procedures => exact congrArg (name.text :: ·) ih

end Draft

end BinaryCodec.Definition
