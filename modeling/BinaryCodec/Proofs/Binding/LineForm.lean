import BinaryCodec.Definition.Draft
import Mathlib.Data.List.Basic
import Mathlib.Data.List.TakeWhile

namespace BinaryCodec.Binding

inductive FormPart where
  | text (s : String)
  | word
  | rest

abbrev Form := List FormPart

def isWordChar (c : Char) : Bool := Definition.isNameChar c || c = '#'

def IsWord (w : String) : Prop := ∀ c ∈ w.toList, isWordChar c

instance : DecidablePred IsWord := fun w =>
  decidable_of_iff (w.toList.all isWordChar = true) List.all_eq_true

theorem IsWord.append {front back : String} (first : IsWord front) (second : IsWord back) :
    IsWord (front ++ back) := by
  unfold IsWord
  rw [String.toList_append]
  exact List.forall_mem_append.mpr ⟨first, second⟩

def joined (parts : List String) : List Char := parts.flatMap String.toList

theorem joined_cons (part : String) (parts : List String) :
    joined (part :: parts) = part.toList ++ joined parts := List.flatMap_cons

namespace Form

def words? : Form → List Char → Option (List String)
  | [], [] => some []
  | [], _ :: _ => none
  | .text s :: form, chars => s.toList.isPrefixOf? chars >>= words? form
  | .word :: form, chars =>
    (words? form (chars.dropWhile isWordChar)).map
      (String.ofList (chars.takeWhile isWordChar) :: ·)
  | .rest :: _, _ => some []

section words

variable {s t w : String} {form : Form} {parts : List String}

theorem isPrefixOf?_eq_none {front other : List Char}
    (differ : (front.zip other).all (fun p => p.1 == p.2) = false) (rest : List Char) :
    front.isPrefixOf? (other ++ rest) = none := by
  induction front generalizing other with
  | nil => cases differ
  | cons c front ih =>
    cases other with
    | nil => cases differ
    | cons d other =>
      rw [List.cons_append, List.isPrefixOf?]
      rw [List.zip_cons_cons, List.all_cons] at differ
      cases same : c == d with
      | false => rfl
      | true =>
        rw [same, Bool.true_and] at differ
        exact ih differ

@[simp] theorem words?_nil : words? [] (joined []) = some [] := rfl

@[simp] theorem words?_text :
    words? (.text s :: form) (joined (s :: parts)) = words? form (joined parts) := by
  rw [words?, joined_cons, List.isPrefixOf?_eq_some_iff_append_eq.mpr rfl]
  rfl

@[simp] theorem words?_other (differ : (s.toList.zip t.toList).all (fun p => p.1 == p.2) = false) :
    words? (.text s :: form) (joined (t :: parts)) = none := by
  rw [words?, joined_cons, isPrefixOf?_eq_none differ]
  rfl

theorem ends_word {chars : List Char} (rest : List Char)
    (stops : chars.head?.any (!isWordChar ·) = true) :
    (chars ++ rest).takeWhile isWordChar = [] ∧
      (chars ++ rest).dropWhile isWordChar = chars ++ rest := by
  cases chars with
  | nil => cases stops
  | cons c chars =>
    have other : isWordChar c = false := by simpa using stops
    rw [List.cons_append, List.takeWhile_cons, List.dropWhile_cons, other]
    exact ⟨rfl, rfl⟩

@[simp] theorem words?_word (plain : IsWord w) (stops : t.toList.head?.any (!isWordChar ·) = true) :
    words? (.word :: form) (joined (w :: t :: parts)) =
      (words? form (joined (t :: parts))).map (w :: ·) := by
  obtain ⟨none, all⟩ := ends_word (joined parts) stops
  rw [words?, joined_cons, joined_cons, List.takeWhile_append_of_pos plain,
    List.dropWhile_append_of_pos plain, none, all, List.append_nil, String.ofList_toList]

@[simp] theorem words?_word_end (plain : IsWord w) : words? [.word] (joined [w]) = some [w] := by
  have all : w.toList.dropWhile isWordChar = [] := List.dropWhile_eq_nil_iff.mpr plain
  have whole : w.toList.takeWhile isWordChar = w.toList := List.takeWhile_eq_self_iff.mpr plain
  rw [words?, joined_cons, joined, List.flatMap_nil, List.append_nil, all, whole,
    String.ofList_toList]
  rfl

theorem isPrefixOf?_word {front word : List Char} (plain : ∀ c ∈ word, isWordChar c)
    (filled : word ≠ []) (other : front.head?.any (!isWordChar ·) = true) (rest : List Char) :
    front.isPrefixOf? (word ++ rest) = none := by
  cases word with
  | nil => exact absurd rfl filled
  | cons c word =>
    have inside : isWordChar c = true := plain c (List.mem_cons_self ..)
    cases front with
    | nil => cases other
    | cons d front =>
      have differ : (d == c) = false := by
        rw [beq_eq_false_iff_ne]
        rintro rfl
        simp [inside] at other
      rw [List.cons_append, List.isPrefixOf?, differ]
      rfl

theorem isPrefixOf?_word_other {front word stop : List Char} (plain : ∀ c ∈ word, isWordChar c)
    (stops : stop.head?.any (!isWordChar ·) = true)
    (differ : (front.dropWhile isWordChar).head?.any (fun d => stop.head?.any (· != d)) = true)
    (rest : List Char) : front.isPrefixOf? (word ++ (stop ++ rest)) = none := by
  obtain ⟨-, ends⟩ := ends_word rest stops
  cases found : front.isPrefixOf? (word ++ (stop ++ rest)) with
  | none => rfl
  | some more =>
    -- both start with characters of words, and what follows on them has to agree
    have same := congrArg (List.dropWhile isWordChar)
      (List.isPrefixOf?_eq_some_iff_append_eq.mp found)
    rw [List.dropWhile_append_of_pos plain, ends, List.dropWhile_append] at same
    cases left : front.dropWhile isWordChar with
    | nil =>
      rw [left] at differ
      cases differ
    | cons d others =>
      cases stop with
      | nil => cases stops
      | cons e stop =>
        rw [left] at same differ
        obtain ⟨rfl, -⟩ := List.cons.inj same
        simp at differ

@[simp] theorem words?_text_word (plain : IsWord w) (filled : w ≠ "")
    (other : s.toList.head?.any (!isWordChar ·) = true) :
    words? (.text s :: form) (joined (w :: parts)) = none := by
  have some : w.toList ≠ [] := fun empty => filled (String.toList_eq_nil_iff.mp empty)
  rw [words?, joined_cons, isPrefixOf?_word plain some other]
  rfl

@[simp] theorem words?_text_word_other (plain : IsWord w)
    (stops : t.toList.head?.any (!isWordChar ·) = true)
    (differ : (s.toList.dropWhile isWordChar).head?.any
      (fun d => t.toList.head?.any (· != d)) = true) :
    words? (.text s :: form) (joined (w :: t :: parts)) = none := by
  rw [words?, joined_cons, joined_cons, isPrefixOf?_word_other plain stops differ]
  rfl

@[simp] theorem words?_rest (chars : List Char) : words? (.rest :: form) chars = some [] := rfl

theorem words?_word_other {chars : List Char} {c : Char} (member : c ∈ chars)
    (other : isWordChar c = false) : words? [.word] chars = none := by
  rw [words?]
  cases left : chars.dropWhile isWordChar with
  | nil =>
    have all := List.dropWhile_eq_nil_iff.mp left c member
    rw [other] at all
    cases all
  | cons d more => rfl

end words

end Form

structure Rule (α : Type) where
  form : Form
  meaning : List String → Option α

def readLine {α : Type} (rules : List (Rule α)) (line : String) : Option α :=
  rules.findSome? fun rule => rule.form.words? line.toList >>= rule.meaning

section rules

variable {α : Type} {rules : List (Rule α)} {rule : Rule α} {line : String}

@[simp] theorem readLine_nil : readLine ([] : List (Rule α)) line = none := rfl

@[simp] theorem readLine_cons : readLine (rule :: rules) line =
    ((rule.form.words? line.toList).bind rule.meaning).or (readLine rules line) := by
  rw [readLine, List.findSome?_cons]
  cases known : (rule.form.words? line.toList >>= rule.meaning) <;>
    (rw [Option.bind_eq_bind] at known; rw [known]; rfl)

end rules

end BinaryCodec.Binding
