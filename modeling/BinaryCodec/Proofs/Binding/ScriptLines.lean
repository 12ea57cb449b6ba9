import BinaryCodec.Binding.ScriptText
import BinaryCodec.Proofs.Binding.Wire
import BinaryCodec.Proofs.Definition.WellFormed

namespace BinaryCodec.Binding

open Definition Form

namespace ScriptWire

section reading

variable {α : Type}

def placeForm (item : Bool) : Form :=
  .text "this." :: .word :: if item then [.text "[i]"] else []

def writeRules (item : Bool) (found : String → WireOp WireKind Unit → Option α) : List (Rule α) := [
  ⟨.text "_out.write" :: .word :: .text "(" :: placeForm item ++ [.text ");"], fun
    | [method, name] => primitiveOf scriptKinds method >>= found name
    | _ => none⟩,
  ⟨placeForm item ++ [.text ".encodeBuf(_out);"], fun
    | [name] => found name (.message ())
    | _ => none⟩,
  ⟨.text "_out.write" :: .word :: .text "(" :: .text "new wb.Bn(" :: placeForm item ++
      [.text "));"], fun
    | [method, name] => numberOf scriptKinds .unsignedVarint .choice method >>= found name
    | _ => none⟩]

def writeLineRules : List (Rule (List (Statement WireKind Unit))) :=
  writeRules false (fun name op => some [.move name op]) ++ [
  ⟨[.text "_out.write", .word, .text "(", .text "new wb.Bn(", .text "this.", .word,
      .text ".length));"], fun
    | [method, name] => numberOf scriptKinds .unsignedVarint [.count name] method
    | _ => none⟩,
  ⟨[.text "return _out;"], fun _ => some []⟩]

def writeLoopRules : List (Rule String) :=
  [⟨[.text "for (let i = 0; i < ", .text "this.", .word, .text ".length; i++)"], List.head?⟩]

def written? : Outline → Option (List (Statement WireKind Unit))
  | .line text => readLine writeLineRules text
  | .block head [.line statement] _ => do
    let bound ← readLine writeLoopRules head
    let item ← readLine (writeRules true fun name op => some (name, op)) statement
    return [.loop bound item.1 item.2]
  | .block .. => none

def readRules (item : Bool) (found : String → WireOp WireKind String → Option α) : List (Rule α) := [
  ⟨placeForm item ++ [.text " = ", .text "input.read", .word, .text "()", .text ";"], fun
    | [name, method] => primitiveOf scriptKinds method >>= found name
    | _ => none⟩,
  ⟨placeForm item ++ [.text " = ", .text "new ", .word, .text "(", .text ").decodeBuf(input);"], fun
    | [name, type] => found name (.message type)
    | _ => none⟩,
  ⟨placeForm item ++ [.text " = ", .text "input.read", .word, .text "()", .text ".toNumber();"], fun
    | [name, method] => numberOf scriptKinds .unsignedVarint .choice method >>= found name
    | _ => none⟩]

def readLineRules : List (Rule (List (Statement WireKind String))) :=
  readRules false (fun name op => some [.move name op]) ++ [
  ⟨[.text "const ", .word, .text " = ", .text "input.read", .word, .text "().toNumber();"], fun
    | [bound, method] => numberOf scriptKinds .unsignedVarint [.count bound] method
    | _ => none⟩,
  ⟨[.text "this.", .word, .text " = ", .text "new ", .text "Array", .text "(", .word, .text ");"],
    fun _ => some []⟩,
  ⟨[.text "return this;"], fun _ => some []⟩]

def readLoopRules : List (Rule String) :=
  [⟨[.text "for (let i = 0; i < ", .word, .text "; i++)"], List.head?⟩]

def taken? : Outline → Option (List (Statement WireKind String))
  | .line text => readLine readLineRules text
  | .block head [.line statement] _ => do
    let bound ← readLine readLoopRules head
    let item ← readLine (readRules true fun name op => some (name, op)) statement
    return [.loop bound item.1 item.2]
  | .block .. => none

end reading

section lines

def placeText (item : Bool) (name : String) : String :=
  if item then "this." ++ name ++ "[i]" else "this." ++ name

theorem isWord_suffix (method : ScriptMethod) : IsWord method.suffix := by
  cases method <;> decide

theorem isWord_unsignedVarint : IsWord "UnsignedVarint" := isWord_suffix .unsignedVarint

theorem primitiveOf_ofBuiltin (τ : Type) (type : Builtin) :
    primitiveOf scriptKinds (ScriptMethod.ofBuiltin type).suffix =
      some (.primitive (.ofBuiltin type) : WireOp WireKind τ) := by
  cases type <;> rfl

theorem numberOf_unsignedVarint {α : Type} (v : α) :
    numberOf scriptKinds .unsignedVarint v "UnsignedVarint" = some v := rfl

theorem writeText_call (value : String) (method : ScriptMethod) :
    ScriptMove.writeText value (.call method) = "_out.write" ++ method.suffix ++ "(" ++ value ++ ");" :=
  rfl

theorem writeText_message (value name : String) :
    ScriptMove.writeText value (.message name) = value ++ ".encodeBuf(_out);" := rfl

theorem writeText_choice (value : String) : ScriptMove.writeText value .choice =
    "_out.writeUnsignedVarint(" ++ ("new " ++ ("wb" ++ "." ++ "Bn") ++ "(" ++ value ++ ")") ++ ");" := rfl

theorem readText_call (method : ScriptMethod) :
    (ScriptMove.call method).readText = "input.read" ++ method.suffix ++ "()" := rfl

theorem readText_message (name : String) :
    (ScriptMove.message name).readText = "new " ++ name ++ "().decodeBuf(input)" := rfl

theorem readText_choice : ScriptMove.choice.readText = "input.readUnsignedVarint().toNumber()" := rfl

variable {α : Type} {name : String} (named : IsWord name) (item : Bool) {type : FieldType} {v : α}
  {more : List (Rule α)}
include named

theorem readLine_writeText {found : String → WireOp WireKind Unit → Option α}
    (known : found name (.ofType .ofBuiltin (fun _ => ()) type) = some v) :
    readLine (writeRules item found ++ more)
      ((ScriptMove.writing type).writeText (placeText item name)) = some v := by
  cases type with
  | builtin type =>
    have moved := primitiveOf_ofBuiltin Unit type
    rw [WireOp.ofType] at known
    rw [ScriptMove.writing]
    generalize ScriptMethod.ofBuiltin type = method at moved ⊢
    have suffix := isWord_suffix method
    have line : (ScriptMove.writeText (placeText item name) (.call method)).toList = joined
        ("_out.write" :: method.suffix :: "(" :: "this." :: name ::
          if item then ["[i]", ");"] else [");"]) := by
      cases item <;> simp [writeText_call, placeText, joined]
    cases item <;> simp (disch := first | assumption | decide)
      [line, writeRules, placeForm, moved, known]
  | message other =>
    rw [WireOp.ofType] at known
    have line : (ScriptMove.writeText (placeText item name) (.message other)).toList = joined
        ("this." :: name :: if item then ["[i]", ".encodeBuf(_out);"] else [".encodeBuf(_out);"]) := by
      cases item <;> simp [writeText_message, placeText, joined]
    rw [ScriptMove.writing]
    cases item <;> simp (disch := first | assumption | decide) [line, writeRules, placeForm, known]
  | enumeration other =>
    rw [WireOp.ofType] at known
    have suffix := isWord_unsignedVarint
    have line : (ScriptMove.writeText (placeText item name) .choice).toList = joined
        ("_out.write" :: "UnsignedVarint" :: "(" :: "new wb.Bn(" :: "this." :: name ::
          if item then ["[i]", "));"] else ["));"]) := by
      cases item <;> simp [writeText_choice, placeText, joined]
    rw [ScriptMove.writing]
    cases item <;> simp (disch := first | assumption | decide)
      [line, writeRules, placeForm, numberOf_unsignedVarint, known]

theorem readLine_readText {found : String → WireOp WireKind String → Option α}
    (target : ∀ other, type = .message other → IsWord other)
    (known : found name (.ofType .ofBuiltin id type) = some v) :
    readLine (readRules item found ++ more)
      (placeText item name ++ " = " ++ (ScriptMove.reading type).readText ++ ";") = some v := by
  cases type with
  | builtin type =>
    have moved := primitiveOf_ofBuiltin String type
    rw [WireOp.ofType] at known
    rw [ScriptMove.reading]
    generalize ScriptMethod.ofBuiltin type = method at moved ⊢
    have suffix := isWord_suffix method
    have line : (placeText item name ++ " = " ++ (ScriptMove.call method).readText ++ ";").toList =
        joined ("this." :: name :: if item then
          ["[i]", " = ", "input.read", method.suffix, "()", ";"] else
            [" = ", "input.read", method.suffix, "()", ";"]) := by
      cases item <;> simp [readText_call, placeText, joined]
    cases item <;> simp (disch := first | assumption | decide)
      [line, readRules, placeForm, moved, known]
  | message other =>
    have word := target other rfl
    have known : found name (.message other) = some v := known
    have line : (placeText item name ++ " = " ++ (ScriptMove.message other).readText ++ ";").toList =
        joined ("this." :: name :: if item then
          ["[i]", " = ", "new ", other, "(", ").decodeBuf(input);"] else
            [" = ", "new ", other, "(", ").decodeBuf(input);"]) := by
      cases item <;> simp [readText_message, placeText, joined]
    rw [ScriptMove.reading]
    cases item <;> simp (disch := first | assumption | decide) [line, readRules, placeForm, known]
  | enumeration other =>
    rw [WireOp.ofType] at known
    have suffix := isWord_unsignedVarint
    have line : (placeText item name ++ " = " ++ ScriptMove.choice.readText ++ ";").toList = joined
        ("this." :: name :: if item then
          ["[i]", " = ", "input.read", "UnsignedVarint", "()", ".toNumber();"] else
            [" = ", "input.read", "UnsignedVarint", "()", ".toNumber();"]) := by
      cases item <;> simp [readText_choice, placeText, joined]
    rw [ScriptMove.reading]
    cases item <;> simp (disch := first | assumption | decide)
      [line, readRules, placeForm, numberOf_unsignedVarint, known]

end lines

end ScriptWire

end BinaryCodec.Binding
