import BinaryCodec.Binding.NativeText
import BinaryCodec.Proofs.Binding.NativeLines

namespace BinaryCodec.Binding

open Definition Form

def backwards (parts : List String) : List Char := parts.flatMap fun part => part.toList.reverse

def before? (s : String) (chars : List Char) : Option (List Char) := s.toList.reverse.isPrefixOf? chars

def lastWord (chars : List Char) : String × List Char :=
  (String.ofList (chars.takeWhile isWordChar).reverse, chars.dropWhile isWordChar)

section parts

variable {s t w : String} {parts : List String}

@[simp] theorem backwards_nil : backwards [] = [] := rfl

theorem backwards_cons (part : String) (parts : List String) :
    backwards (part :: parts) = part.toList.reverse ++ backwards parts := List.flatMap_cons

theorem backwards_append (front back : String) (parts : List String) :
    backwards ((front ++ back) :: parts) = backwards (back :: front :: parts) := by
  simp [backwards]

@[simp] theorem before?_text : before? s (backwards (s :: parts)) = some (backwards parts) := by
  rw [before?, backwards_cons, List.isPrefixOf?_eq_some_iff_append_eq.mpr rfl]

@[simp] theorem before?_other
    (differ : (s.toList.reverse.zip t.toList.reverse).all (fun p => p.1 == p.2) = false) :
    before? s (backwards (t :: parts)) = none := by
  rw [before?, backwards_cons, isPrefixOf?_eq_none differ]

theorem IsWord.reverse (plain : IsWord w) : ∀ c ∈ w.toList.reverse, isWordChar c := by
  intro c member
  exact plain c (List.mem_reverse.mp member)

@[simp] theorem before?_word (plain : IsWord w) (filled : w ≠ "")
    (other : s.toList.reverse.head?.any (!isWordChar ·) = true) :
    before? s (backwards (w :: parts)) = none := by
  have some : w.toList.reverse ≠ [] := fun empty =>
    filled (String.toList_eq_nil_iff.mp (List.reverse_eq_nil_iff.mp empty))
  rw [before?, backwards_cons, isPrefixOf?_word plain.reverse some other]

@[simp] theorem before?_word_other (plain : IsWord w)
    (stops : t.toList.reverse.head?.any (!isWordChar ·) = true)
    (differ : (s.toList.reverse.dropWhile isWordChar).head?.any
      (fun d => t.toList.reverse.head?.any (· != d)) = true) :
    before? s (backwards (w :: t :: parts)) = none := by
  rw [before?, backwards_cons, backwards_cons, isPrefixOf?_word_other plain.reverse stops differ]

@[simp] theorem lastWord_word (plain : IsWord w)
    (stops : t.toList.reverse.head?.any (!isWordChar ·) = true) :
    lastWord (backwards (w :: t :: parts)) = (w, backwards (t :: parts)) := by
  obtain ⟨none, all⟩ := ends_word (backwards parts) stops
  rw [lastWord, backwards_cons, backwards_cons, List.takeWhile_append_of_pos plain.reverse,
    List.dropWhile_append_of_pos plain.reverse, none, all, List.append_nil, List.reverse_reverse,
    String.ofList_toList]

end parts

def integerWords : List (String × IntType) := [
  ("u8", .u8), ("u16", .u16), ("u32", .u32), ("u64", .u64), ("u128", .u128), ("usize", .usize),
  ("i8", .i8), ("i16", .i16), ("i32", .i32), ("i64", .i64), ("i128", .i128), ("isize", .isize)]

def primitiveWords : List (String × NativeType) :=
  ("bool", .bool) :: ("f32", .float .f32) :: ("f64", .float .f64) ::
    integerWords.map fun word => (word.1, .integer word.2)

section types

variable (runtime : String) (chars : List Char)

def libraryTypeEnd? : Option (NativeType × List Char) :=
  (do
    let (word, front) := lastWord (← before? ">" chars)
    let type ← integerWords.lookup word
    return (.fixed type, ← before? runtime (← before? "::containers::Fixed" (← before? "<" front)))) <|>
  (do return (.uuid, ← before? runtime (← before? "::Uuid" chars))) <|>
  (do return (.date, ← before? runtime (← before? "::containers::Date" chars))) <|>
  (do
    let front ← before? runtime (← before? "::Utc>" chars)
    return (.instant, ← before? runtime (← before? "::DateTime<" front)))

def plainTypeEnd : NativeType × List Char :=
  match before? "::std::string::String" chars with
  | some front => (.string, front)
  | none =>
    let (word, front) := lastWord chars
    ((primitiveWords.lookup word).getD (.declared word), front)

def typeEnd? : (depth : Nat) → List Char → Option (NativeType × List Char)
  | 0, _ => none
  | depth + 1, chars =>
    (do
      let (item, front) ← typeEnd? depth (← before? ">" chars)
      return (.vector item, ← before? "::std::vec::Vec" (← before? "<" front))) <|>
    libraryTypeEnd? runtime chars <|> some (plainTypeEnd chars)

end types

namespace NativeType

/-- The type with the identifiers of the types that are declared. -/
def spelled : NativeType → NativeType
  | .vector item => .vector item.spelled
  | .declared name => .declared (typeIdentifier name)
  | type => type

def IsNamed : NativeType → Prop
  | .vector item => item.IsNamed
  | .declared name => Alphanumeric name
  | _ => True

def depth : NativeType → Nat
  | .vector item => item.depth + 1
  | _ => 0

end NativeType

section words

variable {name word : String}

def startsSmall (word : String) : Bool := word.toList.head?.any Char.isLower

theorem not_isLower_toUpper {c : Char} (named : isNameChar c = true) : c.toUpper.isLower = false := by
  apply isNameChar_induction ?_ named
  decide

theorem startsSmall_camelCase (named : Alphanumeric name) : startsSmall (camelCase name) = false := by
  have letters : ∀ c ∈ name.toList, isNameChar c := fun c member => isNameChar_iff.mpr (named.2 c member)
  rw [startsSmall, camelCase, String.toList_ofList]
  generalize name.toList = chars at letters
  induction chars with
  | nil => rfl
  | cons c rest ih =>
    obtain ⟨here, later⟩ := List.forall_mem_cons.mp letters
    unfold camelChars
    split
    · exact ih later
    · exact not_isLower_toUpper here

theorem identifier_ne_empty (word : String) : identifier word ≠ "" := by
  unfold identifier
  split
  · simp
  · split
    · simp
    · split
      · simp
      · rename_i path _ _
        rintro rfl
        exact path (by decide)

theorem startsSmall_identifier (other : startsSmall word = false) :
    startsSmall (identifier word) = false := by
  have small : ∀ keyword ∈ keywords, startsSmall keyword = true := by decide
  unfold identifier
  split
  · rename_i path
    revert other
    revert word
    decide
  · split
    · simp [startsSmall]
    · split
      · rename_i keyword
        rw [small word keyword] at other
        cases other
      · exact other

theorem lookup_typeIdentifier (named : Alphanumeric name) :
    primitiveWords.lookup (typeIdentifier name) = none := by
  have other := startsSmall_identifier (startsSmall_camelCase named)
  have small : ∀ word ∈ primitiveWords, startsSmall word.1 = true := by decide
  rw [List.lookup_eq_none_iff]
  intro word member
  rw [bne_iff_ne]
  intro same
  have starts := small word member
  rw [typeIdentifier] at same
  rw [← same, other] at starts
  cases starts

end words

section types

variable {runtime word stop : String}

theorem before?_path {path : String} (plain : IsWord word)
    (stops : stop.toList.reverse.head?.any (!isWordChar ·) = true)
    (bare : stop.toList.reverse.head?.any (· != ':') = true)
    (colon : (path.toList.reverse.dropWhile isWordChar).head? = some ':') (parts : List String) :
    before? path (backwards (word :: stop :: parts)) = none := by
  refine before?_word_other plain stops ?_
  rw [colon]
  exact bare

theorem typeEnd?_word (plain : IsWord word) (filled : word ≠ "")
    (stops : stop.toList.reverse.head?.any (!isWordChar ·) = true)
    (bare : stop.toList.reverse.head?.any (· != ':') = true) (depth : Nat) (parts : List String) :
    typeEnd? runtime (depth + 1) (backwards (word :: stop :: parts)) =
      some ((primitiveWords.lookup word).getD (.declared word), backwards (stop :: parts)) := by
  simp (disch := first | assumption | decide) [typeEnd?, libraryTypeEnd?, plainTypeEnd, before?_path]

theorem typeEnd?_text {depth : Nat} {type : NativeType} (named : type.IsNamed)
    (deep : type.depth < depth) (stops : stop.toList.reverse.head?.any (!isWordChar ·) = true)
    (bare : stop.toList.reverse.head?.any (· != ':') = true) (parts : List String) :
    typeEnd? runtime depth (backwards (type.text runtime :: stop :: parts)) =
      some (type.spelled, backwards (stop :: parts)) := by
  obtain ⟨depth, rfl⟩ : ∃ less, depth = less + 1 := ⟨depth - 1, by omega⟩
  induction type generalizing depth stop parts with
  | bool =>
    rw [NativeType.text, typeEnd?_word (by decide) (by decide) stops bare]
    rfl
  | integer type =>
    rw [NativeType.text, typeEnd?_word (by cases type <;> decide) (by cases type <;> decide) stops bare]
    cases type <;> rfl
  | float type =>
    rw [NativeType.text, typeEnd?_word (by cases type <;> decide) (by cases type <;> decide) stops bare]
    cases type <;> rfl
  | declared name =>
    have named : Alphanumeric name := named
    rw [NativeType.text, typeEnd?_word (NativeWire.isWord_typeIdentifier named)
      (identifier_ne_empty _) stops bare, lookup_typeIdentifier named]
    rfl
  | vector item ih =>
    have split : backwards (vectorText (item.text runtime) :: stop :: parts) =
        backwards (">" :: item.text runtime :: "<" :: "::std::vec::Vec" :: stop :: parts) := by
      simp [backwards, vectorText]
    obtain ⟨less, rfl⟩ : ∃ less, depth = less + 1 := ⟨depth - 1, by
      rw [NativeType.depth] at deep
      omega⟩
    have opens : "<".toList.reverse.head?.any (!isWordChar ·) = true := by decide
    have inner := ih named opens (by decide) ("::std::vec::Vec" :: stop :: parts) less
      (Nat.lt_of_succ_lt_succ deep)
    rw [NativeType.text, split, typeEnd?]
    simp [inner, NativeType.spelled]
  | string =>
    simp (disch := first | assumption | decide) [typeEnd?, libraryTypeEnd?, plainTypeEnd, NativeType.text,
      NativeType.spelled]
  | uuid =>
    simp (disch := first | assumption | decide) [typeEnd?, libraryTypeEnd?, NativeType.text,
      NativeType.spelled, backwards_append]
  | date =>
    simp (disch := first | assumption | decide) [typeEnd?, libraryTypeEnd?, NativeType.text,
      NativeType.spelled, backwards_append]
  | fixed type =>
    have word : IsWord type.name := by cases type <;> decide
    have filled : type.name ≠ "" := by cases type <;> decide
    have known : integerWords.lookup type.name = some type := by cases type <;> rfl
    have split : backwards ((runtime ++ "::containers::Fixed<" ++ type.name ++ ">") :: stop :: parts) =
        backwards (">" :: type.name :: "<" :: "::containers::Fixed" :: runtime :: stop :: parts) := by
      simp [backwards]
    rw [NativeType.text, split, typeEnd?, libraryTypeEnd?]
    cases depth with
    | zero => simp (disch := first | assumption | decide) [typeEnd?, known, NativeType.spelled]
    | succ depth =>
      simp (disch := first | assumption | decide) [typeEnd?_word word filled, known, NativeType.spelled]
  | instant =>
    let front := runtime :: "::DateTime<" :: runtime :: stop :: parts
    have split : backwards ((runtime ++ "::DateTime<" ++ runtime ++ "::Utc>") :: stop :: parts) =
        backwards ("::Utc>" :: front) := by
      simp [backwards, front]
    have closed : before? ">" (backwards ("::Utc>" :: front)) =
        some (backwards ("Utc" :: "::" :: front)) := by
      rw [show backwards ("::Utc>" :: front) = backwards (">" :: "Utc" :: "::" :: front) by
        simp [backwards], before?_text]
    have item : typeEnd? runtime depth (backwards ("Utc" :: "::" :: front)) = none ∨
        ∃ type, typeEnd? runtime depth (backwards ("Utc" :: "::" :: front)) =
          some (type, backwards ("::" :: front)) := by
      cases depth with
      | zero => exact .inl rfl
      | succ depth =>
        right
        simp (disch := first | assumption | decide) [typeEnd?, libraryTypeEnd?, plainTypeEnd]
    have fixed : integerWords.lookup "Utc" = none := by decide
    rw [NativeType.text, split, typeEnd?, libraryTypeEnd?]
    rcases item with other | ⟨type, other⟩ <;>
      simp (disch := first | assumption | decide) [closed, other, fixed, front, NativeType.spelled]

def fieldTypeEnd? (runtime : String) : List Char → Option (NativeType × List Char) := typeEnd? runtime 3

theorem isNamed_wireOf {type : FieldType}
    (named : ∀ name, type = .message name ∨ type = .enumeration name → Alphanumeric name) :
    (NativeType.wireOf type).IsNamed ∧ (NativeType.wireOf type).depth ≤ 1 := by
  cases type with
  | message name => exact ⟨named name (.inl rfl), Nat.zero_le _⟩
  | enumeration name => exact ⟨named name (.inr rfl), Nat.zero_le _⟩
  | builtin type => cases type <;> exact ⟨True.intro, by decide⟩

theorem isNamed_ofField {type : FieldType}
    (named : ∀ name, type = .message name ∨ type = .enumeration name → Alphanumeric name) :
    (NativeType.ofField type).IsNamed ∧ (NativeType.ofField type).depth ≤ 1 := by
  cases type with
  | message name => exact ⟨named name (.inl rfl), Nat.zero_le _⟩
  | enumeration name => exact ⟨named name (.inr rfl), Nat.zero_le _⟩
  | builtin type => cases type <;> exact ⟨True.intro, by decide⟩

theorem fieldTypeEnd?_repeatedIf {type : NativeType} (named : type.IsNamed) (deep : type.depth ≤ 1)
    (stops : stop.toList.reverse.head?.any (!isWordChar ·) = true)
    (bare : stop.toList.reverse.head?.any (· != ':') = true) (repeated : Bool) (parts : List String) :
    fieldTypeEnd? runtime (backwards ((NativeType.repeatedIf repeated type).text runtime :: stop :: parts)) =
      some ((NativeType.repeatedIf repeated type).spelled, backwards (stop :: parts)) := by
  cases repeated with
  | true =>
    have vector : (NativeType.vector type).depth < 3 := Nat.succ_lt_succ (Nat.lt_succ_of_le deep)
    exact @typeEnd?_text runtime stop 3 (.vector type) named vector stops bare parts
  | false => exact typeEnd?_text named (Nat.lt_add_right 1 (Nat.lt_succ_of_le deep)) stops bare parts

variable {field : MessageField}
  (named : ∀ name, field.type = .message name ∨ field.type = .enumeration name → Alphanumeric name)
include named

theorem fieldTypeEnd?_wire (parts : List String) :
    fieldTypeEnd? runtime (backwards ((NativeField.ofField field).wire.text runtime :: "<" :: parts)) =
      some ((NativeField.ofField field).wire.spelled, backwards ("<" :: parts)) := by
  obtain ⟨named, deep⟩ := isNamed_wireOf named
  exact fieldTypeEnd?_repeatedIf named deep (by decide) (by decide) false parts

theorem fieldTypeEnd?_wireType (parts : List String) :
    fieldTypeEnd? runtime (backwards ((NativeField.ofField field).wireType.text runtime :: "<" :: parts)) =
      some ((NativeField.ofField field).wireType.spelled, backwards ("<" :: parts)) := by
  obtain ⟨named, deep⟩ := isNamed_wireOf named
  exact fieldTypeEnd?_repeatedIf named deep (by decide) (by decide) _ parts

theorem fieldTypeEnd?_type (parts : List String) :
    fieldTypeEnd? runtime (backwards ((NativeField.ofField field).type.text runtime :: ": " :: parts)) =
      some ((NativeField.ofField field).type.spelled, backwards (": " :: parts)) := by
  obtain ⟨named, deep⟩ := isNamed_ofField named
  exact fieldTypeEnd?_repeatedIf named deep (by decide) (by decide) _ parts

end types

end BinaryCodec.Binding
