import BinaryCodec.Proofs.Binding.Equivalence

namespace BinaryCodec.Binding

open Definition

def reservedWords : List String := [
  "as", "break", "const", "continue", "crate", "else", "enum", "extern", "false", "fn", "for", "if",
  "impl", "in", "let", "loop", "match", "mod", "move", "mut", "pub", "ref", "return", "self", "Self",
  "static", "struct", "super", "trait", "true", "type", "unsafe", "use", "where", "while", "async",
  "await", "dyn", "abstract", "become", "box", "do", "final", "gen", "macro", "override", "priv", "try",
  "typeof", "unsized", "virtual", "yield"]

def IsPlainWord (word : String) : Prop :=
  word ≠ "_" ∧ startsWithDigit word = false ∧ word ≠ "" ∧ ∀ c ∈ word.toList, isNameChar c

/-- What Rust admits as an identifier: a word that is not reserved, or one that is marked as raw. -/
inductive Legal : String → Prop
  | plain {word : String} (shaped : IsPlainWord word) (free : word ∉ reservedWords) : Legal word
  | raw {word : String} (shaped : IsPlainWord word)
      (markable : word ∉ ["self", "Self", "super", "crate"]) : Legal ("r#" ++ word)

theorem not_legal_underscore : ¬Legal "_" := by
  generalize same : "_" = word
  rintro (⟨shaped, -⟩ | ⟨-, -⟩)
  · exact shaped.1 same.symm
  · have first := congrArg (fun text => text.toList.head?) same
    simp [String.toList_append] at first

section escapes

variable {word other : String}

def Escapes (word other : String) : Prop :=
  word ∈ pathWords ∧ other = word ++ "_" ∨ startsWithDigit word = true ∧ other = "_" ++ word

theorem identifier_path (path : word ∈ pathWords) : identifier word = word ++ "_" := by
  rw [identifier, if_pos path]

theorem not_path_of_digit (digit : startsWithDigit word = true) : word ∉ pathWords := by
  have none : ∀ word ∈ pathWords, startsWithDigit word = false := by decide
  intro path
  rw [none word path] at digit
  cases digit

theorem identifier_digit (digit : startsWithDigit word = true) : identifier word = "_" ++ word := by
  rw [identifier, if_neg (not_path_of_digit digit), if_pos digit]

theorem identifier_keyword (keyword : word ∈ keywords) : identifier word = "r#" ++ word := by
  have others : ∀ word ∈ keywords, word ∉ pathWords ∧ startsWithDigit word = false := by decide
  obtain ⟨path, digit⟩ := others word keyword
  rw [identifier, if_neg path, digit, if_neg Bool.false_ne_true, if_pos keyword]

theorem identifier_plain (path : word ∉ pathWords) (digit : startsWithDigit word = false)
    (free : word ∉ keywords) : identifier word = word := by
  rw [identifier, if_neg path, digit, if_neg Bool.false_ne_true, if_neg free]

theorem startsWithDigit_underscore (word : String) : startsWithDigit ("_" ++ word) = false := by
  simp [startsWithDigit, String.toList_append]

theorem identifier_underscore (word : String) : identifier ("_" ++ word) = "_" ++ word := by
  have first : ("_" ++ word).toList.head? = some '_' := by simp [String.toList_append]
  have others : ∀ other ∈ pathWords ++ keywords, other.toList.head? ≠ some '_' := by decide
  refine identifier_plain (fun path => ?_) (startsWithDigit_underscore word) fun keyword => ?_
  · exact others _ (List.mem_append_left _ path) first
  · exact others _ (List.mem_append_right _ keyword) first

theorem identifier_of_escapes (escapes : Escapes word other) : identifier word = identifier other := by
  rcases escapes with ⟨path, rfl⟩ | ⟨digit, rfl⟩
  · have stay : ∀ word ∈ pathWords, identifier (word ++ "_") = word ++ "_" := by decide
    rw [identifier_path path, stay word path]
  · rw [identifier_digit digit, identifier_underscore]

theorem identifier_cases (free : word ∉ keywords) :
    Escapes word (identifier word) ∨
      word ∉ pathWords ∧ startsWithDigit word = false ∧ identifier word = word := by
  by_cases path : word ∈ pathWords
  · exact .inl (.inl ⟨path, identifier_path path⟩)
  · cases digit : startsWithDigit word with
    | true => exact .inl (.inr ⟨digit, identifier_digit digit⟩)
    | false => exact .inr ⟨path, rfl, identifier_plain path digit free⟩

theorem path_ne_digit (path : word ∈ pathWords) (digit : startsWithDigit other = true) :
    word ++ "_" ≠ "_" ++ other := by
  intro same
  have starts : ∀ word ∈ pathWords, word = "" ∨ (word ++ "_").toList.head? ≠ some '_' := by decide
  rcases starts word path with rfl | starts
  · have empty : other = "" := by
      rw [String.empty_append] at same
      exact (String.append_right_inj "_").mp (same.symm.trans (String.append_empty).symm)
    rw [empty] at digit
    cases digit
  · apply starts
    rw [same]
    simp [String.toList_append]

theorem Escapes.unique {spelled : String} (first : Escapes word spelled)
    (second : Escapes other spelled) : word = other := by
  rcases first with ⟨path, same⟩ | ⟨digit, same⟩ <;>
    rcases second with ⟨path', same'⟩ | ⟨digit', same'⟩
  · exact (String.append_left_inj "_").mp (same.symm.trans same')
  · exact absurd (same.symm.trans same') (path_ne_digit path digit')
  · exact absurd (same'.symm.trans same) (path_ne_digit path' digit)
  · exact (String.append_right_inj "_").mp (same.symm.trans same')

theorem hash_mem_identifier (plain : '#' ∉ word.toList) :
    '#' ∈ (identifier word).toList ↔ word ∈ keywords := by
  by_cases keyword : word ∈ keywords
  · rw [identifier_keyword keyword]
    simp [String.toList_append, keyword]
  · rcases identifier_cases keyword with (⟨-, same⟩ | ⟨-, same⟩) | ⟨-, -, same⟩ <;> rw [same] <;>
      simp [String.toList_append, plain, keyword]

theorem identifier_eq_iff (plain : '#' ∉ word.toList) (plainOther : '#' ∉ other.toList) :
    identifier word = identifier other ↔ word = other ∨ Escapes word other ∨ Escapes other word := by
  constructor
  · intro same
    have raw : word ∈ keywords ↔ other ∈ keywords := by
      rw [← hash_mem_identifier plain, ← hash_mem_identifier plainOther, same]
    by_cases keyword : word ∈ keywords
    · rw [identifier_keyword keyword, identifier_keyword (raw.mp keyword)] at same
      exact .inl ((String.append_right_inj "r#").mp same)
    · have free : other ∉ keywords := fun member => keyword (raw.mpr member)
      rcases identifier_cases keyword with escaped | ⟨-, -, stays⟩ <;>
        rcases identifier_cases free with escapedOther | ⟨-, -, staysOther⟩
      · exact .inl (escaped.unique (same ▸ escapedOther))
      · rw [same, staysOther] at escaped
        exact .inr (.inl escaped)
      · rw [← same, stays] at escapedOther
        exact .inr (.inr escapedOther)
      · exact .inl (stays.symm.trans (same.trans staysOther))
  · rintro (rfl | escapes | escapes)
    · rfl
    · exact identifier_of_escapes escapes
    · exact (identifier_of_escapes escapes).symm

theorem legal_identifier (named : ∀ c ∈ word.toList, isNameChar c) (other : identifier word ≠ "_") :
    Legal (identifier word) := by
  by_cases keyword : word ∈ keywords
  · have shaped : ∀ word ∈ keywords, word ≠ "_" ∧ startsWithDigit word = false ∧ word ≠ "" ∧
        word ∉ ["self", "Self", "super", "crate"] := by decide
    obtain ⟨lone, digit, filled, markable⟩ := shaped word keyword
    rw [identifier_keyword keyword]
    exact .raw ⟨lone, digit, filled, named⟩ markable
  · rcases identifier_cases keyword with (⟨path, same⟩ | ⟨digit, same⟩) | ⟨path, begins, same⟩
    · have shaped : ∀ word ∈ pathWords, startsWithDigit (word ++ "_") = false ∧ word ++ "_" ≠ "" ∧
          word ++ "_" ∉ reservedWords := by decide
      obtain ⟨begins, filled, free⟩ := shaped word path
      rw [same] at other ⊢
      refine .plain ⟨other, begins, filled, ?_⟩ free
      simpa [String.toList_append, or_imp, forall_and] using ⟨named, (rfl : isNameChar '_' = true)⟩
    · have free : ∀ word ∈ reservedWords, word.toList.head? ≠ some '_' := by decide
      rw [same] at other ⊢
      refine .plain ⟨other, startsWithDigit_underscore word, by simp, ?_⟩ fun reserved => ?_
      · simpa [String.toList_append] using ⟨(rfl : isNameChar '_' = true), named⟩
      · exact free _ reserved (by simp [String.toList_append])
    · have known : ∀ word ∈ reservedWords, word ∈ keywords ∨ word ∈ pathWords := by decide
      rw [same] at other ⊢
      refine .plain ⟨other, begins, ?_, named⟩ fun reserved => ?_
      · rintro rfl
        exact path (by decide)
      · exact (known word reserved).elim keyword path

end escapes

section letters

variable {start afterSmall : Bool} {chars : List Char} {c : Char}

theorem lt_of_isNameChar (named : isNameChar c = true) : c.toNat < 128 := by
  have bounded (last : Char) (low : last.toNat < 128) (least : c ≤ last) : c.toNat < 128 :=
    Nat.lt_of_le_of_lt (UInt32.le_iff_toNat_le.mp (Char.le_def.mp least)) low
  rcases isNameChar_iff.mp named with ⟨-, least⟩ | ⟨-, least⟩ | ⟨-, least⟩ | rfl
  · exact bounded 'Z' (by decide) least
  · exact bounded 'z' (by decide) least
  · exact bounded '9' (by decide) least
  · decide

theorem isNameChar_induction {p : Char → Prop}
    (all : ∀ n < 128, isNameChar (Char.ofNat n) → p (Char.ofNat n)) (named : isNameChar c = true) :
    p c := by
  have whole := all c.toNat (lt_of_isNameChar named)
  rw [Char.ofNat_toNat] at whole
  exact whole named

theorem isNameChar_toUpper (named : isNameChar c = true) :
    c ≠ '_' → isNameChar c.toUpper = true ∧ c.toUpper ≠ '_' := by
  revert named
  apply isNameChar_induction
  decide

theorem mem_camelChars (named : ∀ c ∈ chars, isNameChar c) :
    ∀ c ∈ camelChars start chars, isNameChar c ∧ c ≠ '_' := by
  induction chars generalizing start with
  | nil => exact fun c member => nomatch member
  | cons first rest ih =>
    obtain ⟨here, later⟩ := List.forall_mem_cons.mp named
    unfold camelChars
    split
    · exact ih later
    · next other =>
      refine List.forall_mem_cons.mpr ⟨?_, ih later⟩
      split
      · exact isNameChar_toUpper here other
      · exact ⟨here, other⟩

theorem isNameChar_toLower (named : isNameChar c = true) : isNameChar c.toLower = true := by
  apply isNameChar_induction ?_ named
  decide

theorem mem_snakeChars (named : ∀ c ∈ chars, isNameChar c) :
    ∀ c ∈ snakeChars afterSmall chars, isNameChar c := by
  induction chars generalizing afterSmall with
  | nil => exact fun c member => nomatch member
  | cons first rest ih =>
    obtain ⟨here, later⟩ := List.forall_mem_cons.mp named
    have lower := isNameChar_toLower here
    unfold snakeChars
    split
    · refine List.forall_mem_append.mpr ⟨?_, ih later⟩
      split
      · exact List.forall_mem_cons.mpr ⟨rfl, List.forall_mem_singleton.mpr lower⟩
      · exact List.forall_mem_singleton.mpr lower
    · exact List.forall_mem_cons.mpr ⟨here, ih later⟩

theorem hash_not_mem (named : ∀ c ∈ chars, isNameChar c) : '#' ∉ chars := by
  intro member
  have hash := named '#' member
  cases hash

end letters

section names

variable {name other : String}

theorem mem_camelCase (named : Alphanumeric name) :
    ∀ c ∈ (camelCase name).toList, isNameChar c ∧ c ≠ '_' := by
  rw [camelCase, String.toList_ofList]
  exact mem_camelChars fun c member => isNameChar_iff.mpr (named.2 c member)

theorem mem_snakeCase (named : Alphanumeric name) : ∀ c ∈ (snakeCase name).toList, isNameChar c := by
  rw [snakeCase, String.toList_ofList]
  exact mem_snakeChars fun c member => isNameChar_iff.mpr (named.2 c member)

theorem not_escapes (single : ∀ c ∈ other.toList, c ≠ '_') : ¬Escapes name other := by
  rintro (⟨-, rfl⟩ | ⟨-, rfl⟩) <;> exact single '_' (by simp [String.toList_append]) rfl

theorem typeIdentifier_eq_iff (named : Alphanumeric name) (namedOther : Alphanumeric other) :
    typeIdentifier name = typeIdentifier other ↔ camelCase name = camelCase other := by
  have first := mem_camelCase named
  have second := mem_camelCase namedOther
  unfold typeIdentifier
  rw [identifier_eq_iff (hash_not_mem fun c member => (first c member).1)
    (hash_not_mem fun c member => (second c member).1)]
  exact or_iff_left (not_or.mpr ⟨not_escapes fun c member => (second c member).2,
    not_escapes fun c member => (first c member).2⟩)

/-- Whether two names of fields or procedures get the same identifier: by their letters, or because an
escape puts an underscore where the other name has one. -/
def SameSnake (name other : String) : Prop :=
  snakeCase name = snakeCase other ∨ Escapes (snakeCase name) (snakeCase other) ∨
    Escapes (snakeCase other) (snakeCase name)

theorem fieldIdentifier_eq_iff (named : Alphanumeric name) (namedOther : Alphanumeric other) :
    fieldIdentifier name = fieldIdentifier other ↔ SameSnake name other :=
  identifier_eq_iff (hash_not_mem (mem_snakeCase named)) (hash_not_mem (mem_snakeCase namedOther))

theorem legal_typeIdentifier (named : Alphanumeric name) (other : typeIdentifier name ≠ "_") :
    Legal (typeIdentifier name) :=
  legal_identifier (fun c member => (mem_camelCase named c member).1) other

theorem legal_fieldIdentifier (named : Alphanumeric name) (other : fieldIdentifier name ≠ "_") :
    Legal (fieldIdentifier name) :=
  legal_identifier (mem_snakeCase named) other

end names

/-- What the identifiers of a scope are to the names that they are made from: legal, unless an underscore
by itself, and the same for two names exactly if these are `alike`. -/
structure Names (alike : String → String → Prop) (names identifiers : List String) : Prop where
  counted : identifiers.length = names.length
  legal : ∀ identifier ∈ identifiers, identifier ≠ "_" → Legal identifier
  same {i j : Nat} {name other : String} (first : names[i]? = some name)
    (second : names[j]? = some other) : identifiers[i]? = identifiers[j]? ↔ alike name other

theorem names_map {alike : String → String → Prop} {convert : String → String} {names : List String}
    (legal : ∀ name ∈ names, convert name ≠ "_" → Legal (convert name))
    (same : ∀ name ∈ names, ∀ other ∈ names, convert name = convert other ↔ alike name other) :
    Names alike names (names.map convert) where
  counted := List.length_map ..
  legal := List.forall_mem_map.mpr legal
  same first second := by
    rw [List.getElem?_map, List.getElem?_map, first, second, Option.map_some, Option.map_some,
      Option.some_inj]
    exact same _ (List.mem_of_getElem? first) _ (List.mem_of_getElem? second)

theorem names_types {names : List String} (named : ∀ name ∈ names, Alphanumeric name) :
    Names (camelCase · = camelCase ·) names (names.map typeIdentifier) :=
  names_map (fun name member => legal_typeIdentifier (named name member)) fun name member other among =>
    typeIdentifier_eq_iff (named name member) (named other among)

theorem names_fields {names : List String} (named : ∀ name ∈ names, Alphanumeric name) :
    Names SameSnake names (names.map fieldIdentifier) :=
  names_map (fun name member => legal_fieldIdentifier (named name member)) fun name member other among =>
    fieldIdentifier_eq_iff (named name member) (named other among)

/-- The types and traits that a module declares beside one another. -/
def NativeModule.declared (m : NativeModule) : List String :=
  m.enumerations.map NativeEnumeration.name ++ m.records.map NativeRecord.name ++
    m.traits.map NativeTrait.name

def declaredNames (settings : Settings) (doc : Document) : List String :=
  doc.enumerations.map Enumeration.name ++ doc.messages.map Message.name ++
    if settings.services then doc.services.map Service.name else []

theorem declared_ofDocument (settings : Settings) (doc : Document) :
    (NativeModule.ofDocument settings doc).declared =
      (declaredNames settings doc).map typeIdentifier := by
  unfold NativeModule.declared NativeModule.ofDocument declaredNames
  rw [List.map_append, List.map_append]
  simp only [List.map_map]
  congr 1
  split
  · rw [List.map_map, List.map_map]
    rfl
  · rfl

theorem alphanumeric_declaredNames (settings : Settings) {doc : Document} (wellFormed : doc.WellFormed) :
    ∀ name ∈ declaredNames settings doc, Alphanumeric name := by
  obtain ⟨messages, enumerations⟩ := List.forall_mem_append.mp wellFormed.typesNamed
  refine List.forall_mem_append.mpr ⟨List.forall_mem_append.mpr ⟨enumerations, messages⟩, ?_⟩
  split
  · exact List.forall_mem_map.mpr wellFormed.servicesNamed
  · exact fun name member => nomatch member

theorem NativeEnumeration.names_ofEnumeration (e : Enumeration) :
    (NativeEnumeration.ofEnumeration e).cases.map NativeCase.name =
      (e.values.map EnumerationValue.name).map typeIdentifier := by
  rw [NativeEnumeration.ofEnumeration, List.map_map, List.map_map]
  rfl

theorem NativeRecord.names_ofMessage (m : Message) :
    (NativeRecord.ofMessage m).fields.map NativeField.name =
      (m.fields.map MessageField.name).map fieldIdentifier := by
  rw [NativeRecord.ofMessage, List.map_map, List.map_map]
  rfl

theorem NativeTrait.names_ofService (s : Service) :
    (NativeTrait.ofService s).methods.map NativeMethod.name =
      (s.procedures.map Procedure.name).map fieldIdentifier := by
  rw [NativeTrait.ofService, List.map_map, List.map_map]
  rfl

/-- In the Rust module of a document that is compiled, every identifier is legal unless it is an
underscore by itself. Types, traits and cases share one exactly if their names have the same camel case,
and fields and methods exactly if an escape or the change to snake case makes their names the same. -/
theorem names_of_compile {settings : Settings} {source : String} {c : Compilation}
    (compiled : Compilation.ofSource settings source = .ok c) :
    c.native = (NativeModule.ofDocument settings c.document).text ∧
    Names (camelCase · = camelCase ·) (declaredNames settings c.document)
      (NativeModule.ofDocument settings c.document).declared ∧
    (∀ e ∈ c.document.enumerations, Names (camelCase · = camelCase ·)
      (e.values.map EnumerationValue.name)
      ((NativeEnumeration.ofEnumeration e).cases.map NativeCase.name)) ∧
    (∀ m ∈ c.document.messages, Names SameSnake (m.fields.map MessageField.name)
      ((NativeRecord.ofMessage m).fields.map NativeField.name)) ∧
    ∀ s ∈ c.document.services, Names SameSnake (s.procedures.map Procedure.name)
      ((NativeTrait.ofService s).methods.map NativeMethod.name) := by
  have parsed := parse_of_ofSource compiled
  have wellFormed := (Document.wellFormed_of_ofTokens parsed).1
  refine ⟨native_of_ofSource compiled, ?_, ?_, ?_, ?_⟩
  · rw [declared_ofDocument]
    exact names_types (alphanumeric_declaredNames settings wellFormed)
  · intro e member
    rw [NativeEnumeration.names_ofEnumeration]
    exact names_types (List.forall_mem_map.mpr (wellFormed.enumerations e member).named)
  · intro m member
    rw [NativeRecord.names_ofMessage]
    exact names_fields (List.forall_mem_map.mpr (wellFormed.messages m member).named)
  · intro s member
    rw [NativeTrait.names_ofService]
    exact names_fields (List.forall_mem_map.mpr (wellFormed.services s member).named)

def clashSource : String :=
  "struct user_id\x7bbool self bool type bool 3d\x7d struct userId\x7b\x7d struct _\x7b\x7d"

def clashMessage : Message :=
  ⟨"user_id", [⟨"self", .builtin .bool, false, ⟨1, 16⟩⟩, ⟨"type", .builtin .bool, false, ⟨1, 26⟩⟩,
    ⟨"3d", .builtin .bool, false, ⟨1, 36⟩⟩], ⟨1, 8⟩⟩

def clashDocument : Document where
  package := "app"
  pragmas := []
  messages := [clashMessage, ⟨"userId", [], ⟨1, 52⟩⟩, ⟨"_", [], ⟨1, 68⟩⟩]
  enumerations := []
  services := []

theorem ofSource_clashSource : ∃ native script,
    Compilation.ofSource (.ofPackage "app") clashSource = .ok ⟨clashDocument, native, script⟩ := by
  have parsed : Document.ofTokens "app" (tokens clashSource) = .ok clashDocument := by decide +kernel
  exact ⟨_, _, bind_eq_ok.mpr ⟨clashDocument, parsed, rfl⟩⟩

theorem declared_clashDocument : (NativeModule.ofDocument (.ofPackage "app") clashDocument).declared =
    ["UserId", "UserId", "_"] := by
  decide +kernel

theorem names_of_compile_clash : ∃ native script,
    Compilation.ofSource (.ofPackage "app") clashSource = .ok ⟨clashDocument, native, script⟩ ∧
    Names (camelCase · = camelCase ·) ["user_id", "userId", "_"] ["UserId", "UserId", "_"] ∧
    Names SameSnake ["self", "type", "3d"] ["self_", "r#type", "_3d"] := by
  obtain ⟨native, script, compiled⟩ := ofSource_clashSource
  obtain ⟨-, declared, -, fields, -⟩ := names_of_compile compiled
  have members : (NativeRecord.ofMessage clashMessage).fields.map NativeField.name =
      ["self_", "r#type", "_3d"] := by decide +kernel
  have here := fields clashMessage (List.mem_cons_self ..)
  rw [declared_clashDocument] at declared
  rw [members] at here
  exact ⟨native, script, compiled, declared, here⟩

/-- A source is compiled although two of its types have one identifier and a third has an underscore. -/
theorem exists_clash : ∃ c, Compilation.ofSource (.ofPackage "app") clashSource = .ok c ∧
    c.native = (NativeModule.ofDocument (.ofPackage "app") c.document).text ∧
    ¬(NativeModule.ofDocument (.ofPackage "app") c.document).declared.Nodup ∧
    ∃ identifier ∈ (NativeModule.ofDocument (.ofPackage "app") c.document).declared,
      ¬Legal identifier := by
  obtain ⟨native, script, compiled⟩ := ofSource_clashSource
  refine ⟨_, compiled, native_of_ofSource compiled, ?_⟩
  rw [declared_clashDocument]
  exact ⟨by decide, "_", by decide, not_legal_underscore⟩

end BinaryCodec.Binding
