import BinaryCodec.Proofs.Binding.Naming
import BinaryCodec.Proofs.Binding.Wire

namespace BinaryCodec.Binding

open Definition Form

namespace NativeWire

section reading

variable {α κ τ : Type}

def calling (op : String → Option (WireOp κ τ)) (found : List String → WireOp κ τ → Option α) :
    List String → Option α
  | method :: place => op method >>= found place
  | [] => none

def writeRules (value reference receiver : Form)
    (found : List String → WireOp Method Unit → Option α) :
    List (Rule α) := [
  ⟨.text "buf.write_" :: .word :: .text "(" :: value ++ [.text ")?;"],
    calling (primitiveOf nativeCalls) found⟩,
  ⟨.text "buf.write_" :: .word :: .text "(" :: reference ++ [.text ")?;"],
    calling (primitiveOf nativeCalls) found⟩,
  ⟨receiver ++ [.text ".encode_into(buf)?;"], fun place => found place (.message ())⟩,
  ⟨.text "buf.write_" :: .word :: .text "(" :: .text "u64::from(" :: value ++ [.text "))?;"],
    calling (numberOf nativeCalls .uvarint .choice) found⟩]

def itemRules : List (Rule (WireOp Method Unit)) :=
  writeRules [.text "*item"] [.text "item"] [.text "item"] fun _ op => some op

def lineRules : List (Rule (List (Statement Method Unit))) :=
  writeRules [.text "self.", .word] [.text "&self.", .word] [.text "self.", .word] (fun
    | [name], op => some [.move name op]
    | _, _ => none) ++ [
  ⟨[.text "buf.write_", .word, .text "(", .text "self.", .word, .text ".len() as u64)?;"], fun
    | [method, name] => numberOf nativeCalls .uvarint [.count name] method
    | _ => none⟩,
  ⟨[.text "let _ = buf;"], fun _ => some []⟩,
  ⟨[.text "Ok(())"], fun _ => some []⟩]

def loopRules : List (Rule String) := [⟨[.text "for item in &self.", .word], List.head?⟩]

def written? : Outline → Option (List (Statement Method Unit))
  | .line text => readLine lineRules text
  | .block head [.line statement] _ => do
    let name ← readLine loopRules head
    let op ← readLine itemRules statement
    return [.loop name name op]
  | .block .. => none

def readRules (front back : Form) (found : List String → WireOp Method String → Option α) :
    List (Rule α) := [
  ⟨front ++ .word :: .text "::decode_from(buf)?" :: back, fun words =>
    words.getLast? >>= fun type => found words.dropLast (.message type)⟩,
  ⟨front ++ .word :: .text "::try_from(" :: .text "buf.read_" :: .word :: .text "()?)?" :: back,
    fun words => words.getLast? >>= numberOf nativeCalls .uvarint .choice >>= found words.dropLast.dropLast⟩,
  ⟨front ++ .text "buf" :: .text ".read_" :: .word :: .text "()?" :: back, fun words =>
    words.getLast? >>= primitiveOf nativeCalls >>= found words.dropLast⟩]

def entryRules : List (Rule (String × WireOp Method String)) :=
  readRules [.word, .text ": "] [.text ","] fun
    | [name], op => some (name, op)
    | _, _ => none

def pushRules : List (Rule (WireOp Method String)) :=
  readRules [.text "items.push("] [.text ");"] fun _ op => some op

def nameRules : List (Rule String) := [⟨[.word, .text ":"], List.head?⟩]

def lengthRules : List (Rule Unit) := [⟨[.text "let len = buf.read_length(", .rest], fun _ => some ()⟩]

def taken? : Outline → Option (String × WireOp Method String)
  | .line text => readLine entryRules text
  | .block head [.line length, .line _, .block loop [.line push] _, .line last] _ => do
    let name ← readLine nameRules head
    let op ← readLine pushRules push
    readLine lengthRules length
    if loop = "for _ in 0..len" ∧ last = "items" then return (name, .counted op) else none
  | .block .. => none

end reading

section lines

theorem writeStatement_call (place : Place) (method : Method) :
    writeStatement place (.call method) = "buf.write_" ++ method.suffix ++ "(" ++
      (if takesReference method then place.reference else place.value) ++ ")?;" := rfl

theorem writeStatement_message (place : Place) (name : String) :
    writeStatement place (.message name) = place.receiver ++ ".encode_into(buf)?;" := rfl

theorem writeStatement_choice (place : Place) (name : String) :
    writeStatement place (.choice name) = "buf.write_uvarint(u64::from(" ++ place.value ++ "))?;" := rfl

theorem readExpression_call (method : Method) :
    readExpression (.call method) = "buf.read_" ++ method.suffix ++ "()?" := rfl

theorem readExpression_message (name : String) :
    readExpression (.message name) = typeIdentifier name ++ "::decode_from(buf)?" := rfl

theorem readExpression_choice (name : String) : readExpression (.choice name) =
    typeIdentifier name ++ "::try_from(buf.read_uvarint()?)?" := rfl

theorem isWord_suffix (method : Method) : IsWord method.suffix := by
  cases method <;> decide

theorem isWord_uvarint : IsWord "uvarint" := isWord_suffix .uvarint

theorem primitiveOf_writeMethod (τ : Type) (type : Builtin) :
    primitiveOf nativeCalls (writeMethod type).suffix =
      some (.primitive (writeMethod type) : WireOp Method τ) := by
  cases type <;> rfl

theorem primitiveOf_readMethod (τ : Type) (type : Builtin) :
    primitiveOf nativeCalls (readMethod type).suffix =
      some (.primitive (readMethod type) : WireOp Method τ) := by
  cases type <;> rfl

theorem numberOf_uvarint {α : Type} (v : α) : numberOf nativeCalls .uvarint v "uvarint" = some v := rfl

theorem isWord_identifier {word : String} (named : ∀ c ∈ word.toList, isNameChar c) :
    IsWord (identifier word) := by
  have plain (c : Char) (member : c ∈ word.toList) : isWordChar c = true := by
    rw [isWordChar, named c member, Bool.true_or]
  unfold identifier
  split
  · exact IsWord.append plain (by decide)
  · split
    · exact IsWord.append (by decide) plain
    · split
      · exact IsWord.append (by decide) plain
      · exact plain

theorem isWord_fieldIdentifier {name : String} (named : Alphanumeric name) :
    IsWord (fieldIdentifier name) := isWord_identifier (mem_snakeCase named)

theorem isWord_typeIdentifier {name : String} (named : Alphanumeric name) :
    IsWord (typeIdentifier name) := isWord_identifier fun c member => (mem_camelCase named c member).1

theorem readLine_writeStatement_field {name : String} (named : IsWord name) (type : FieldType) :
    readLine lineRules (writeStatement (.field name) (writeMove type)) =
      some [.move name (.ofType writeMethod (fun _ => ()) type)] := by
  cases type with
  | builtin type =>
    have known := primitiveOf_writeMethod Unit type
    rw [writeMove, WireOp.ofType]
    generalize writeMethod type = method at known ⊢
    have suffix := isWord_suffix method
    have line : (writeStatement (.field name) (.call method)).toList = joined ["buf.write_",
        method.suffix, "(", if takesReference method then "&self." else "self.", name, ")?;"] := by
      cases refers : takesReference method <;>
        simp [writeStatement_call, refers, Place.reference, Place.value, joined]
    cases refers : takesReference method <;>
      simp (disch := first | assumption | decide) [line, refers, lineRules, writeRules, calling, known]
  | message other =>
    have line : (writeStatement (.field name) (.message other)).toList =
        joined ["self.", name, ".encode_into(buf)?;"] := by
      simp [writeStatement_message, Place.receiver, joined]
    rw [writeMove, WireOp.ofType]
    simp (disch := first | assumption | decide) [line, lineRules, writeRules]
  | enumeration other =>
    have suffix := isWord_uvarint
    have line : (writeStatement (.field name) (.choice other)).toList =
        joined ["buf.write_", "uvarint", "(", "u64::from(", "self.", name, "))?;"] := by
      simp [writeStatement_choice, Place.value, joined]
    rw [writeMove, WireOp.ofType]
    simp (disch := first | assumption | decide)
      [line, lineRules, writeRules, calling, numberOf_uvarint]

theorem readLine_writeStatement_item (type : FieldType) :
    readLine itemRules (writeStatement .item (writeMove type)) =
      some (.ofType writeMethod (fun _ => ()) type) := by
  cases type with
  | builtin type =>
    have known := primitiveOf_writeMethod Unit type
    rw [writeMove, WireOp.ofType]
    generalize writeMethod type = method at known ⊢
    have suffix := isWord_suffix method
    have line : (writeStatement .item (.call method)).toList = joined ["buf.write_",
        method.suffix, "(", if takesReference method then "item" else "*item", ")?;"] := by
      cases refers : takesReference method <;>
        simp [writeStatement_call, refers, Place.reference, Place.value, joined]
    cases refers : takesReference method <;>
      simp (disch := first | assumption | decide) [line, refers, itemRules, writeRules, calling, known]
  | message other =>
    have line : (writeStatement .item (.message other)).toList =
        joined ["item", ".encode_into(buf)?;"] := by
      simp [writeStatement_message, Place.receiver, joined]
    rw [writeMove, WireOp.ofType]
    simp (disch := first | assumption | decide) [line, itemRules, writeRules]
  | enumeration other =>
    have suffix := isWord_uvarint
    have line : (writeStatement .item (.choice other)).toList =
        joined ["buf.write_", "uvarint", "(", "u64::from(", "*item", "))?;"] := by
      simp [writeStatement_choice, Place.value, joined]
    rw [writeMove, WireOp.ofType]
    simp (disch := first | assumption | decide)
      [line, itemRules, writeRules, calling, numberOf_uvarint]

theorem isWord_buf : IsWord "buf" := by decide

def Named (type : FieldType) : Prop :=
  ∀ name, type = .message name ∨ type = .enumeration name → IsWord (typeIdentifier name)

theorem readLine_readExpression_field {name : String} (named : IsWord name) {type : FieldType}
    (target : Named type) :
    readLine entryRules (name ++ ": " ++ readExpression (readMove type) ++ ",") =
      some (name, .ofType readMethod typeIdentifier type) := by
  have buf := isWord_buf
  cases type with
  | builtin type =>
    have known := primitiveOf_readMethod String type
    rw [readMove, WireOp.ofType]
    generalize readMethod type = method at known ⊢
    have suffix := isWord_suffix method
    have line : (name ++ ": " ++ readExpression (.call method) ++ ",").toList =
        joined [name, ": ", "buf", ".read_", method.suffix, "()?", ","] := by
      simp [readExpression_call, joined]
    simp (disch := first | assumption | decide) [line, entryRules, readRules, known]
  | message other =>
    have word := target other (.inl rfl)
    have line : (name ++ ": " ++ readExpression (.message other) ++ ",").toList =
        joined [name, ": ", typeIdentifier other, "::decode_from(buf)?", ","] := by
      simp [readExpression_message, joined]
    rw [readMove, WireOp.ofType]
    simp (disch := first | assumption | decide) [line, entryRules, readRules]
  | enumeration other =>
    have word := target other (.inr rfl)
    have suffix := isWord_uvarint
    have line : (name ++ ": " ++ readExpression (.choice other) ++ ",").toList = joined [name, ": ",
        typeIdentifier other, "::try_from(", "buf.read_", "uvarint", "()?)?", ","] := by
      simp [readExpression_choice, joined]
    rw [readMove, WireOp.ofType]
    simp (disch := first | assumption | decide) [line, entryRules, readRules, numberOf_uvarint]

theorem readLine_readExpression_item {type : FieldType} (target : Named type) :
    readLine pushRules ("items.push(" ++ readExpression (readMove type) ++ ");") =
      some (.ofType readMethod typeIdentifier type) := by
  have buf := isWord_buf
  cases type with
  | builtin type =>
    have known := primitiveOf_readMethod String type
    rw [readMove, WireOp.ofType]
    generalize readMethod type = method at known ⊢
    have suffix := isWord_suffix method
    have line : ("items.push(" ++ readExpression (.call method) ++ ");").toList =
        joined ["items.push(", "buf", ".read_", method.suffix, "()?", ");"] := by
      simp [readExpression_call, joined]
    simp (disch := first | assumption | decide) [line, pushRules, readRules, known]
  | message other =>
    have word := target other (.inl rfl)
    have line : ("items.push(" ++ readExpression (.message other) ++ ");").toList =
        joined ["items.push(", typeIdentifier other, "::decode_from(buf)?", ");"] := by
      simp [readExpression_message, joined]
    rw [readMove, WireOp.ofType]
    simp (disch := first | assumption | decide) [line, pushRules, readRules]
  | enumeration other =>
    have word := target other (.inr rfl)
    have suffix := isWord_uvarint
    have line : ("items.push(" ++ readExpression (.choice other) ++ ");").toList =
        joined ["items.push(", typeIdentifier other, "::try_from(", "buf.read_", "uvarint", "()?)?",
          ");"] := by
      simp [readExpression_choice, joined]
    rw [readMove, WireOp.ofType]
    simp (disch := first | assumption | decide) [line, pushRules, readRules, numberOf_uvarint]

end lines

end NativeWire

end BinaryCodec.Binding
