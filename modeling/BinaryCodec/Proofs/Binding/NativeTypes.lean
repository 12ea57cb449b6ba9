import BinaryCodec.Proofs.Binding.NativeTraits

namespace BinaryCodec.Binding

open Definition Form

namespace NativeWire

section reading

def structRules : List (Rule String) := [⟨[.text "pub struct ", .word], List.head?⟩]

def fieldLine? (runtime : String) : Outline → Option (String × NativeType)
  | .line text => do
    let (type, front) ← fieldTypeEnd? runtime (← before? "," text.toList.reverse)
    let (name, front) := lastWord (← before? ": " front)
    let front ← before? "pub " front
    if front = [] then some (name, type) else none
  | .block .. => none

def structure? (runtime : String) : Outline → Option (String × Option (List (String × NativeType)))
  | .line _ => none
  | .block head body _ => (readLine structRules head).map fun name => (name, body.mapM (fieldLine? runtime))

/-- For each record, the fields that it is declared with. -/
def structures (runtime : String) (pieces : List Outline) :
    List (String × Option (List (String × NativeType))) :=
  pieces.filterMap (structure? runtime)

def caseRules : List (Rule (String × String)) := [⟨[.word, .text " = ", .word, .text ","], fun
  | [name, number] => some (name, number)
  | _ => none⟩]

def case? : Outline → Option (String × String)
  | .line text => readLine caseRules text
  | .block .. => none

/-- The cases of an enumeration with their numbers. The first of them is marked as the default. -/
def cases? : List Outline → Option (List (String × String))
  | [] => some []
  | .line mark :: rest => if mark = "#[default]" then rest.mapM case? else none
  | .block .. :: _ => none

def armRules : List (Rule (String × String)) :=
  [⟨[.word, .text " => Ok(Self::", .word, .text "),"], fun
    | [number, name] => some (name, number)
    | _ => none⟩]

/-- The cases that numbers are turned into; all other numbers are refused. -/
def arms? (runtime : String) : List Outline → Option (List (String × String))
  | [.line last] =>
    if last = "_ => Err(" ++ runtime ++ "::error::invalid_tag_encoding(value))," then some [] else none
  | .line text :: rest => do return (← readLine armRules text) :: (← arms? runtime rest)
  | _ => none

/-- The cases of an enumeration as it is declared, and as they are made from numbers, by what follows on its
head. Where numbers are made from cases, these are the ones of the declaration. -/
def choice? (runtime name : String) (body : List Outline) :
    List Outline → Option (List (String × String) × List (String × String))
  | _ :: .block out [.block _ [.line number] _] _ :: _ ::
      .block into [.line fault, _, .block _ [.block test found _] _] _ :: _ =>
    if out = "impl ::core::convert::From<" ++ name ++ "> for u64" ∧ number = "value as u64" ∧
      into = "impl ::core::convert::TryFrom<u64> for " ++ name ∧
      fault = "type Error = " ++ runtime ++ "::Error;" ∧ test = "match value" then
        do return (← cases? body, ← arms? runtime found)
    else none
  | _ => none

def enumRules : List (Rule String) := [⟨[.text "pub enum ", .word], List.head?⟩]

def choices (runtime : String) :
    List Outline → List (String × Option (List (String × String) × List (String × String)))
  | [] => []
  | .line _ :: rest => choices runtime rest
  | .block head body _ :: rest =>
    match readLine enumRules head with
    | some name => (name, choice? runtime name body rest) :: choices runtime rest
    | none => choices runtime rest

end reading

section fields

variable {runtime : String} {m : Message}

def declaredFields (m : Message) : List (String × NativeType) :=
  (NativeRecord.ofMessage m).fields.map fun field => (field.name, field.type.spelled)

def fieldLine (runtime : String) (field : NativeField) : Outline :=
  .line ("pub " ++ field.name ++ ": " ++ field.type.text runtime ++ ",")

theorem fieldLine?_fieldLine {field : MessageField} (plain : IsWord (fieldIdentifier field.name))
    (named : ∀ name, field.type = .message name ∨ field.type = .enumeration name → Alphanumeric name) :
    fieldLine? runtime (fieldLine runtime (.ofField field)) =
      some (fieldIdentifier field.name, (NativeField.ofField field).type.spelled) := by
  have line : ("pub " ++ (NativeField.ofField field).name ++ ": " ++
      (NativeField.ofField field).type.text runtime ++ ",").toList.reverse = backwards
        [",", (NativeField.ofField field).type.text runtime, ": ", fieldIdentifier field.name, "pub "] := by
    simp [backwards, NativeField.ofField]
  rw [fieldLine, fieldLine?, line]
  simp (disch := first | assumption | decide) [fieldTypeEnd?_type named]

theorem fields_record (named : Message.Named m) :
    ((NativeRecord.ofMessage m).fields.map (fieldLine runtime)).mapM (fieldLine? runtime) =
      some (declaredFields m) := by
  have each : ∀ field ∈ m.fields, (fieldLine? runtime ∘ fieldLine runtime ∘ NativeField.ofField) field =
      some (fieldIdentifier field.name, (NativeField.ofField field).type.spelled) := fun field member =>
    fieldLine?_fieldLine (named field member).1 (named field member).2
  rw [declaredFields, NativeRecord.ofMessage, List.map_map, List.map_map, List.mapM_map]
  exact mapM_eq_some each

theorem structure?_other {head tail : String} {body : List Outline} (t : String) (parts : List String)
    (line : head.toList = joined (t :: parts))
    (differ : ("pub struct ".toList.zip t.toList).all (fun p => p.1 == p.2) = false) :
    structure? runtime (.block head body tail) = none := by
  have other : readLine structRules head = none := by
    simp (disch := assumption) [line, structRules]
  rw [structure?, other]
  rfl

theorem structures_record {compressed : Bool} (plain : IsWord (typeIdentifier m.name))
    (named : Message.Named m) :
    structures runtime ((NativeRecord.ofMessage m).outline runtime compressed) =
      [(typeIdentifier m.name, some (declaredFields m))] := by
  have head : readLine structRules ("pub struct " ++ (NativeRecord.ofMessage m).name) =
      some (typeIdentifier m.name) := by
    have line : ("pub struct " ++ (NativeRecord.ofMessage m).name).toList =
        joined ["pub struct ", typeIdentifier m.name] := by
      simp [joined, NativeRecord.ofMessage]
    simp (disch := first | assumption | decide) [line, structRules]
  have found : structure? runtime (.block ("pub struct " ++ (NativeRecord.ofMessage m).name)
      ((NativeRecord.ofMessage m).fields.map (fieldLine runtime)) "") =
        some (typeIdentifier m.name, some (declaredFields m)) := by
    rw [structure?, head, fields_record named]
    rfl
  let name := (NativeRecord.ofMessage m).name
  unfold structures NativeRecord.outline
  refine (List.filterMap_cons_none rfl).trans ((List.filterMap_cons_some found).trans ?_)
  rw [List.filterMap_cons_none rfl,
    List.filterMap_cons_none (structure?_other "impl " [name] (by simp [joined, name]) rfl),
    List.filterMap_cons_none rfl, List.filterMap_cons_none
      (structure?_other "impl " [runtime, "::Encode for ", name] (by simp [joined, name]) rfl),
    List.filterMap_cons_none rfl, List.filterMap_cons_none
      (structure?_other "impl " [runtime, "::Decode for ", name] (by simp [joined, name]) rfl),
    List.filterMap_cons_none rfl, List.filterMap_nil]

theorem structures_enumeration {e : NativeEnumeration} : structures runtime (e.outline runtime) = [] := by
  unfold structures NativeEnumeration.outline
  rw [List.filterMap_cons_none rfl,
    List.filterMap_cons_none (structure?_other "pub enum " [e.name] (by simp [joined]) rfl),
    List.filterMap_cons_none rfl, List.filterMap_cons_none
      (structure?_other "impl ::core::convert::From<" [e.name, "> for u64"] (by simp [joined]) rfl),
    List.filterMap_cons_none rfl, List.filterMap_cons_none
      (structure?_other "impl ::core::convert::TryFrom<u64> for " [e.name] (by simp [joined]) rfl),
    List.filterMap_cons_none rfl, List.filterMap_cons_none
      (structure?_other "impl " [runtime, "::Encode for ", e.name] (by simp [joined]) rfl),
    List.filterMap_cons_none rfl, List.filterMap_cons_none
      (structure?_other "impl " [runtime, "::Decode for ", e.name] (by simp [joined]) rfl),
    List.filterMap_cons_none rfl, List.filterMap_nil]

theorem structures_trait {t : NativeTrait} : structures runtime t.outline = [] := by
  unfold structures NativeTrait.outline
  rw [List.filterMap_cons_none (structure?_other "pub trait " [t.name] (by simp [joined]) rfl),
    List.filterMap_cons_none rfl, List.filterMap_nil]

theorem structures_ofDocument (settings : Settings) {doc : Document} (wellFormed : doc.WellFormed) :
    structures settings.runtime (NativeModule.ofDocument settings doc).pieces =
      doc.messages.map fun m => (typeIdentifier m.name, some (declaredFields m)) := by
  refine (filterMap_ofDocument settings (fun _ => rfl) (fun _ _ => structures_enumeration)
    (fun m member => structures_record (isWord_of_wellFormed wellFormed member).1
      (named_of_wellFormed wellFormed member)) (fun _ _ => structures_trait)).trans ?_
  exact congrArg₂ (· ++ ·) (List.flatMap_eq_nil_iff.mpr fun _ _ => rfl) (List.flatMap_pure_eq_map ..)

end fields

section cases

variable {runtime : String} {values : List EnumerationValue}

def numbered (values : List EnumerationValue) : List (String × String) :=
  values.map fun v => (typeIdentifier v.name, toString v.number)

theorem isWord_number (n : Nat) : IsWord (toString n) := by
  intro c member
  have digits : (toString n).toList = Nat.toDigits 10 n := by simp
  rw [digits] at member
  have digit : c.isDigit = true := Nat.isDigit_of_mem_toDigits (by decide) (by decide) member
  simp [isWordChar, isNameChar, Char.isAlphanum, digit]

def caseLine (c : NativeCase) : Outline := .line (c.name ++ (" = " ++ toString c.number ++ ","))

theorem case?_caseLine {c : NativeCase} (plain : IsWord c.name) :
    case? (caseLine c) = some (c.name, toString c.number) := by
  have digits := isWord_number c.number
  unfold caseLine
  generalize toString c.number = number at digits ⊢
  have line : (c.name ++ (" = " ++ number ++ ",")).toList = joined [c.name, " = ", number, ","] := by
    simp [joined]
  simp (disch := first | assumption | decide) [case?, line, caseRules]

theorem readLine_arm {name number : String} (plain : IsWord name) (digits : IsWord number) :
    readLine armRules (number ++ " => Ok(Self::" ++ name ++ "),") = some (name, number) := by
  have line : (number ++ " => Ok(Self::" ++ name ++ "),").toList =
      joined [number, " => Ok(Self::", name, "),"] := by
    simp [joined]
  simp (disch := first | assumption | decide) [line, armRules]

theorem caseLines_cons (name : String) (first : NativeCase) (rest : List NativeCase) :
    (NativeEnumeration.mk name (first :: rest)).caseLines =
      .line "#[default]" :: (first :: rest).map caseLine := by
  have plain (k : Nat) : ((rest.zipIdx (k + 1)).flatMap fun item =>
      (if item.2 = 0 then [Outline.line "#[default]"] else []) ++ [caseLine item.1]) =
        rest.map caseLine := by
    induction rest generalizing k with
    | nil => rfl
    | cons c rest ih =>
      rw [List.zipIdx_cons, List.flatMap_cons, ih]
      simp
  exact congrArg (fun lines => .line "#[default]" :: caseLine first :: lines) (plain 0)

theorem arms?_last (runtime : String) :
    arms? runtime [.line ("_ => Err(" ++ runtime ++ "::error::invalid_tag_encoding(value)),")] =
      some [] := by
  unfold arms?
  exact if_pos rfl

theorem arms?_cons {text : String} {rest : List Outline} (more : rest ≠ []) :
    arms? runtime (.line text :: rest) =
      (readLine armRules text).bind fun first => (arms? runtime rest).map (first :: ·) := by
  cases rest with
  | nil => exact absurd rfl more
  | cons piece rest =>
    rw [arms?.eq_2 _ _ _ more]
    cases readLine armRules text <;> cases arms? runtime (piece :: rest) <;> rfl

variable (named : ∀ v ∈ values, IsWord (typeIdentifier v.name))
include named

theorem cases?_caseLines (name : String) :
    cases? (NativeEnumeration.mk name (values.map .ofValue)).caseLines = some (numbered values) := by
  have each : ∀ v ∈ values, (case? ∘ caseLine ∘ NativeCase.ofValue) v =
      some (typeIdentifier v.name, toString v.number) := by
    intro v member
    rw [Function.comp_apply, Function.comp_apply, NativeCase.ofValue]
    exact case?_caseLine (named v member)
  have all : values.mapM (case? ∘ caseLine ∘ NativeCase.ofValue) = some (numbered values) :=
    mapM_eq_some each
  cases values with
  | nil => rfl
  | cons v rest =>
    rw [List.map_cons, caseLines_cons, ← List.map_cons, List.map_map, cases?, if_pos rfl, List.mapM_map]
    exact all

theorem arms?_arms (name : String) :
    arms? runtime ((NativeEnumeration.mk name (values.map .ofValue)).arms runtime) =
      some (numbered values) := by
  rw [NativeEnumeration.arms, List.map_map]
  induction values with
  | nil => exact arms?_last runtime
  | cons v rest ih =>
    obtain ⟨here, later⟩ := List.forall_mem_cons.mp named
    rw [List.map_cons, List.cons_append]
    change arms? runtime
      (.line (toString v.number ++ " => Ok(Self::" ++ typeIdentifier v.name ++ "),") :: _) = _
    rw [arms?_cons (by simp), readLine_arm here (isWord_number v.number), ih later]
    rfl

end cases

section modules

variable {runtime : String} {rest : List Outline}

theorem readLine_enumRules {name : String} (plain : IsWord name) :
    readLine enumRules ("pub enum " ++ name) = some name := by
  have line : ("pub enum " ++ name).toList = joined ["pub enum ", name] := by
    simp [joined]
  simp (disch := first | assumption | decide) [line, enumRules]

theorem choices_found {head name tail : String} {body : List Outline}
    (found : readLine enumRules head = some name) :
    choices runtime (.block head body tail :: rest) =
      (name, choice? runtime name body rest) :: choices runtime rest := by
  rw [choices, found]

theorem choices_other {head tail : String} {body : List Outline} (t : String) (parts : List String)
    (line : head.toList = joined (t :: parts))
    (differ : ("pub enum ".toList.zip t.toList).all (fun p => p.1 == p.2) = false) :
    choices runtime (.block head body tail :: rest) = choices runtime rest := by
  have other : readLine enumRules head = none := by
    simp (disch := assumption) [line, enumRules]
  rw [choices, other]

theorem choices_enumeration {e : Enumeration} (plain : IsWord (typeIdentifier e.name))
    (named : ∀ v ∈ e.values, IsWord (typeIdentifier v.name)) :
    choices runtime ((NativeEnumeration.ofEnumeration e).outline runtime ++ rest) =
      (typeIdentifier e.name, some (numbered e.values, numbered e.values)) :: choices runtime rest := by
  have cases := cases?_caseLines named (typeIdentifier e.name)
  have arms := @arms?_arms runtime _ named (typeIdentifier e.name)
  unfold NativeEnumeration.outline
  rw [NativeEnumeration.ofEnumeration]
  generalize NativeEnumeration.caseLines _ = body at cases ⊢
  generalize NativeEnumeration.arms runtime _ = found at arms ⊢
  simp only [List.cons_append, List.nil_append, Outline.blank]
  rw [choices, choices_found (readLine_enumRules plain)]
  refine congrArg₂ List.cons (congrArg (Prod.mk _) ?_) ?_
  · refine (if_pos ⟨rfl, rfl, rfl, rfl, rfl⟩).trans ?_
    rw [cases, arms]
    rfl
  · let name := typeIdentifier e.name
    rw [choices, choices_other "impl ::core::convert::From<" [name, "> for u64"] (by simp [joined, name]) rfl,
      choices, choices_other "impl ::core::convert::TryFrom<u64> for " [name] (by simp [joined, name]) rfl,
      choices, choices_other "impl " [runtime, "::Encode for ", name] (by simp [joined, name]) rfl,
      choices, choices_other "impl " [runtime, "::Decode for ", name] (by simp [joined, name]) rfl,
      choices]

theorem choices_record {m : Message} {compressed : Bool} :
    choices runtime ((NativeRecord.ofMessage m).outline runtime compressed ++ rest) = choices runtime rest := by
  let name := (NativeRecord.ofMessage m).name
  unfold NativeRecord.outline
  simp only [List.cons_append, List.nil_append, Outline.blank]
  rw [choices, choices_other "pub struct " [name] (by simp [joined, name]) rfl,
    choices, choices_other "impl " [name] (by simp [joined, name]) rfl,
    choices, choices_other "impl " [runtime, "::Encode for ", name] (by simp [joined, name]) rfl,
    choices, choices_other "impl " [runtime, "::Decode for ", name] (by simp [joined, name]) rfl, choices]

theorem choices_trait {t : NativeTrait} : choices runtime (t.outline ++ rest) = choices runtime rest := by
  unfold NativeTrait.outline
  simp only [List.cons_append, List.nil_append, Outline.blank]
  rw [choices_other "pub trait " [t.name] (by simp [joined]) rfl, choices]

theorem choices_flatMap {α : Type} {pieces : α → List Outline} (items : List α)
    (skips : ∀ item ∈ items, ∀ rest, choices runtime (pieces item ++ rest) = choices runtime rest) :
    choices runtime (items.flatMap pieces ++ rest) = choices runtime rest := by
  induction items with
  | nil => rfl
  | cons item items ih =>
    obtain ⟨here, later⟩ := List.forall_mem_cons.mp skips
    rw [List.flatMap_cons, List.append_assoc, here, ih later]

theorem choices_ofDocument (settings : Settings) {doc : Document} (wellFormed : doc.WellFormed) :
    choices settings.runtime (NativeModule.ofDocument settings doc).pieces = doc.enumerations.map fun e =>
      (typeIdentifier e.name, some (numbered e.values, numbered e.values)) := by
  have enumerations (items : List Enumeration) (among : ∀ e ∈ items, e ∈ doc.enumerations)
      (rest : List Outline) : choices settings.runtime ((items.map .ofEnumeration).flatMap
        (NativeEnumeration.outline settings.runtime) ++ rest) =
          (items.map fun e => (typeIdentifier e.name, some (numbered e.values, numbered e.values))) ++
            choices settings.runtime rest := by
    induction items with
    | nil => rfl
    | cons e items ih =>
      obtain ⟨here, later⟩ := List.forall_mem_cons.mp among
      have named : ∀ v ∈ e.values, IsWord (typeIdentifier v.name) := fun v member =>
        isWord_typeIdentifier ((wellFormed.enumerations e here).named v member)
      rw [List.map_cons, List.flatMap_cons, List.append_assoc,
        choices_enumeration (isWord_enumeration wellFormed here) named, ih later]
      rfl
  have records (rest : List Outline) : choices settings.runtime
      ((doc.messages.map NativeRecord.ofMessage).flatMap
        (NativeRecord.outline settings.runtime (doc.hasPragma compressionPragma)) ++ rest) =
          choices settings.runtime rest := by
    refine choices_flatMap _ fun record member rest => ?_
    obtain ⟨m, -, rfl⟩ := List.mem_map.mp member
    exact choices_record
  have traits : choices settings.runtime ((NativeModule.ofDocument settings doc).traits.flatMap
      NativeTrait.outline ++ []) = choices settings.runtime [] :=
    choices_flatMap _ fun _ _ _ => choices_trait
  rw [List.append_nil] at traits
  unfold NativeModule.pieces
  rw [List.append_assoc, List.append_assoc]
  refine (enumerations doc.enumerations (fun _ member => member) _).trans ?_
  exact (congrArg (_ ++ ·) ((records _).trans traits)).trans (List.append_nil _)

end modules

end NativeWire

end BinaryCodec.Binding
