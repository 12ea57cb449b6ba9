import BinaryCodec.Proofs.Binding.Arrangement
import BinaryCodec.Proofs.Binding.ScriptLines

namespace BinaryCodec.Binding

open Definition Form

namespace ScriptWire

def headRules : List (Rule (String × String × String)) :=
  [⟨[.word, .text ".prototype.", .word, .text " = function (", .word, .text ")"], fun
    | [type, method, parameter] => some (type, method, parameter)
    | _ => none⟩]

def method? (name : String) : Outline → Option (String × String × List Outline)
  | .line _ => none
  | .block head body _ => do
    let found ← readLine headRules head
    if found.2.1 = name then return (found.1, found.2.2, body) else none

/-- The parameters and the bodies of all methods of a name. -/
def methods (name : String) (pieces : List Outline) : List (String × String × List Outline) :=
  pieces.filterMap (method? name)

section fields

variable {field : MessageField}

theorem writing_single (single : field.isArray = false) :
    (ScriptField.ofField field).writing =
      [.line ((ScriptMove.writing field.type).writeText (placeText false field.name))] := by
  rw [ScriptField.writing, ScriptField.ofField, single]
  rfl

theorem writing_array (array : field.isArray = true) :
    (ScriptField.ofField field).writing =
      [.line ("_out.writeUnsignedVarint(" ++ bigNumber ("this." ++ field.name ++ ".length") ++ ");"),
        .block ("for (let i = 0; i < " ++ ("this." ++ field.name) ++ ".length; i++)")
          [.line ((ScriptMove.writing field.type).writeText (placeText true field.name))] ""] := by
  rw [ScriptField.writing, ScriptField.ofField, array]
  rfl

theorem reading_single (single : field.isArray = false) :
    (ScriptField.ofField field).reading =
      [.line (placeText false field.name ++ " = " ++ (ScriptMove.reading field.type).readText ++
        ";")] := by
  rw [ScriptField.reading, ScriptField.ofField, single]
  rfl

theorem placeText_item (name : String) :
    placeText true name ++ " = " = "this." ++ name ++ "[i] = " := by
  rw [placeText, if_pos rfl, String.append_assoc]
  rfl

theorem reading_array (array : field.isArray = true) :
    (ScriptField.ofField field).reading =
      [.line ("const " ++ (field.name ++ "_len") ++ " = input.readUnsignedVarint().toNumber();"),
        .line ("this." ++ field.name ++ " = new Array(" ++ (field.name ++ "_len") ++ ");"),
        .block ("for (let i = 0; i < " ++ (field.name ++ "_len") ++ "; i++)") [.line
          (placeText true field.name ++ " = " ++ (ScriptMove.reading field.type).readText ++ ";")]
            ""] := by
  rw [ScriptField.reading, ScriptField.ofField, array, placeText_item]
  rfl

theorem written_line (text : String) : written? (.line text) = readLine writeLineRules text := rfl

theorem written_loop (head statement tail : String) :
    written? (.block head [.line statement] tail) = (readLine writeLoopRules head).bind fun bound =>
      (readLine (writeRules true fun name op => some (name, op)) statement).bind fun item =>
        some [.loop bound item.1 item.2] := rfl

theorem taken_line (text : String) : taken? (.line text) = readLine readLineRules text := rfl

theorem taken_loop (head statement tail : String) :
    taken? (.block head [.line statement] tail) = (readLine readLoopRules head).bind fun bound =>
      (readLine (readRules true fun name op => some (name, op)) statement).bind fun item =>
        some [.loop bound item.1 item.2] := rfl

variable (named : IsWord field.name)
include named

theorem statements_writing : statements written? (ScriptField.ofField field).writing =
    some (statementsOf .ofBuiltin (fun _ => ()) field.name field.name field) := by
  unfold statementsOf
  cases array : field.isArray with
  | false =>
    rw [writing_single array]
    exact statements_singleton (readLine_writeText named false rfl)
  | true =>
    have uvarint := isWord_unsignedVarint
    have line : ("_out.writeUnsignedVarint(" ++ bigNumber ("this." ++ field.name ++ ".length") ++
        ");").toList = joined ["_out.write", "UnsignedVarint", "(", "new wb.Bn(", "this.", field.name,
          ".length));"] := by
      simp [bigNumber, runtimeMember, runtimeBinding, joined]
    have count : written? (.line ("_out.writeUnsignedVarint(" ++
        bigNumber ("this." ++ field.name ++ ".length") ++ ");")) = some [.count field.name] := by
      simp (disch := first | assumption | decide)
        [written_line, line, writeLineRules, writeRules, placeForm, numberOf_unsignedVarint]
    have head : ("for (let i = 0; i < " ++ ("this." ++ field.name) ++ ".length; i++)").toList =
        joined ["for (let i = 0; i < ", "this.", field.name, ".length; i++)"] := by
      simp [joined]
    have ranges : readLine writeLoopRules ("for (let i = 0; i < " ++ ("this." ++ field.name) ++
        ".length; i++)") = some field.name := by
      simp (disch := first | assumption | decide) [head, writeLoopRules]
    have item : readLine (writeRules true fun name op => some (name, op))
        ((ScriptMove.writing field.type).writeText (placeText true field.name)) =
          some (field.name, .ofType .ofBuiltin (fun _ => ()) field.type) := by
      rw [← List.append_nil (writeRules ..)]
      exact readLine_writeText named true rfl
    have loop : written? (.block ("for (let i = 0; i < " ++ ("this." ++ field.name) ++ ".length; i++)")
        [.line ((ScriptMove.writing field.type).writeText (placeText true field.name))] "") =
          some [.loop field.name field.name (.ofType .ofBuiltin (fun _ => ()) field.type)] := by
      rw [written_loop, ranges, item]
      rfl
    have both := statements_cons count (statements_singleton loop)
    rw [writing_array array, both]
    rfl

theorem isWord_count : IsWord (field.name ++ "_len") ∧ field.name ++ "_len" ≠ "" := by
  refine ⟨named.append (by decide), ?_⟩
  rw [Ne, String.append_eq_empty_iff]
  exact fun empty => absurd empty.2 (by decide)

theorem statements_reading (target : ∀ other, field.type = .message other → IsWord other) :
    statements taken? (ScriptField.ofField field).reading =
      some (statementsOf .ofBuiltin id (field.name ++ "_len") field.name field) := by
  unfold statementsOf
  cases array : field.isArray with
  | false =>
    rw [reading_single array]
    exact statements_singleton (readLine_readText named false target rfl)
  | true =>
    have uvarint := isWord_unsignedVarint
    obtain ⟨counted, filled⟩ := isWord_count named
    rw [reading_array array]
    generalize field.name ++ "_len" = bound at counted filled ⊢
    have line : ("const " ++ bound ++ " = input.readUnsignedVarint().toNumber();").toList = joined
        ["const ", bound, " = ", "input.read", "UnsignedVarint", "().toNumber();"] := by
      simp [joined]
    have count : taken? (.line ("const " ++ bound ++ " = input.readUnsignedVarint().toNumber();")) =
        some [.count bound] := by
      simp (disch := first | assumption | decide)
        [taken_line, line, readLineRules, readRules, placeForm, numberOf_unsignedVarint]
    have room : ("this." ++ field.name ++ " = new Array(" ++ bound ++ ");").toList =
        joined ["this.", field.name, " = ", "new ", "Array", "(", bound, ");"] := by
      simp [joined]
    have array : IsWord "Array" := by decide
    have idle : taken? (.line ("this." ++ field.name ++ " = new Array(" ++ bound ++ ");")) =
        some [] := by
      simp (disch := first | assumption | decide) [taken_line, room, readLineRules, readRules, placeForm]
    have head : ("for (let i = 0; i < " ++ bound ++ "; i++)").toList =
        joined ["for (let i = 0; i < ", bound, "; i++)"] := by
      simp [joined]
    have ranges : readLine readLoopRules ("for (let i = 0; i < " ++ bound ++ "; i++)") = some bound := by
      simp (disch := first | assumption | decide) [head, readLoopRules]
    have item : readLine (readRules true fun name op => some (name, op))
        (placeText true field.name ++ " = " ++ (ScriptMove.reading field.type).readText ++ ";") =
          some (field.name, .ofType .ofBuiltin id field.type) := by
      rw [← List.append_nil (readRules ..)]
      exact readLine_readText named true target rfl
    have loop : taken? (.block ("for (let i = 0; i < " ++ bound ++ "; i++)") [.line
        (placeText true field.name ++ " = " ++ (ScriptMove.reading field.type).readText ++ ";")] "") =
          some [.loop bound field.name (.ofType .ofBuiltin id field.type)] := by
      rw [taken_loop, ranges, item]
      rfl
    have all := statements_cons count (statements_cons idle (statements_singleton loop))
    rw [all]
    rfl

end fields

section classes

variable {m : Message}

def encoderBody (m : Message) : List Outline :=
  (ScriptClass.ofMessage m).fields.flatMap ScriptField.writing ++ [.line "return _out;"]

def decoderBody (m : Message) : List Outline :=
  (ScriptClass.ofMessage m).fields.flatMap ScriptField.reading ++ [.line "return this;"]

theorem written_return : written? (.line "return _out;") = some [] := by
  have line : "return _out;".toList = joined ["return _out;"] := by simp [joined]
  simp (disch := decide) [written_line, line, writeLineRules, writeRules, placeForm]

theorem taken_return : taken? (.line "return this;") = some [] := by
  have line : "return this;".toList = joined ["return this;"] := by simp [joined]
  simp (disch := decide) [taken_line, line, readLineRules, readRules, placeForm]

theorem statements_encoderBody (named : ∀ field ∈ m.fields, IsWord field.name) :
    statements written? (encoderBody m) =
      some (m.fields.flatMap fun field =>
        statementsOf .ofBuiltin (fun _ => ()) field.name field.name field) := by
  have writes := statements_flatMap fun field member => statements_writing (named field member)
  have all := statements_append writes (statements_singleton written_return)
  have fields : (ScriptClass.ofMessage m).fields.flatMap ScriptField.writing =
      m.fields.flatMap fun field => (ScriptField.ofField field).writing := List.flatMap_map ..
  rw [List.append_nil] at all
  rw [encoderBody, fields, all]

theorem statements_decoderBody (named : ∀ field ∈ m.fields, IsWord field.name)
    (targets : ∀ field ∈ m.fields, ∀ other, field.type = .message other → IsWord other) :
    statements taken? (decoderBody m) =
      some (m.fields.flatMap fun field =>
        statementsOf .ofBuiltin id (field.name ++ "_len") field.name field) := by
  have reads := statements_flatMap fun field member =>
    statements_reading (named field member) (targets field member)
  have all := statements_append reads (statements_singleton taken_return)
  have fields : (ScriptClass.ofMessage m).fields.flatMap ScriptField.reading =
      m.fields.flatMap fun field => (ScriptField.ofField field).reading := List.flatMap_map ..
  rw [List.append_nil] at all
  rw [decoderBody, fields, all]

variable {name : String}

theorem method?_other {head tail : String} {body : List Outline} (other : readLine headRules head = none) :
    method? name (.block head body tail) = none := by
  rw [method?, other]
  rfl

theorem method?_head {head tail type method parameter : String} {body : List Outline}
    (found : readLine headRules head = some (type, method, parameter)) :
    method? name (.block head body tail) =
      if method = name then some (type, parameter, body) else none := by
  rw [method?, found]
  rfl

theorem readLine_headRules_other {head : String} (word t : String) (parts : List String)
    (line : head.toList = joined (word :: t :: parts)) (plain : IsWord word)
    (stops : t.toList.head?.any (!isWordChar ·) = true)
    (differ : (".prototype.".toList.zip t.toList).all (fun p => p.1 == p.2) = false) :
    readLine headRules head = none := by
  simp (disch := assumption) [line, headRules]

theorem readLine_headRules {type : String} (plain : IsWord type) {method : String} (word : IsWord method)
    {parameter : String} (given : IsWord parameter) :
    readLine headRules (type ++ ".prototype." ++ method ++ " = function (" ++ parameter ++ ")") =
      some (type, method, parameter) := by
  have line : (type ++ ".prototype." ++ method ++ " = function (" ++ parameter ++ ")").toList =
      joined [type, ".prototype.", method, " = function (", parameter, ")"] := by
    simp [joined]
  simp (disch := first | assumption | decide) [line, headRules]

theorem methods_append (front back : List Outline) :
    methods name (front ++ back) = methods name front ++ methods name back := List.filterMap_append

theorem filterMap_comment {α : Type} {read : Outline → Option α} (first : read (.line "/**") = none)
    (middle : ∀ text, read (.line (" * " ++ text)) = none) (last : read (.line " */") = none)
    (texts : List String) : (comment texts).filterMap read = [] := by
  have between : (texts.map fun text => Outline.line (" * " ++ text)).filterMap read = [] := by
    rw [List.filterMap_map, List.filterMap_eq_nil_iff]
    exact fun text _ => middle text
  rw [comment, List.filterMap_append, List.filterMap_cons, first, between, List.filterMap_cons, last]
  rfl

theorem methods_comment (texts : List String) : methods name (comment texts) = [] :=
  filterMap_comment rfl (fun _ => rfl) rfl texts

theorem isWord_keywords :
    ∀ word ∈ ["const", "function", "module"] ++ prototypeMethods, IsWord word := by decide

theorem methods_constructor (c : ScriptClass) : methods name c.constructor = [] := by
  have head : readLine headRules ("function " ++ c.name ++ "()") = none :=
    readLine_headRules_other "function" " " [c.name, "()"] (by simp [joined])
      (isWord_keywords _ (by decide)) (by decide) (by decide)
  rw [ScriptClass.constructor, methods_append, methods_comment, List.nil_append, methods,
    List.filterMap_cons, method?_other head]
  rfl

theorem methods_method (c : ScriptClass) (plain : IsWord c.name) {method : String} (word : IsWord method)
    {parameter : String} (given : IsWord parameter) (remarks : List String) (body : List Outline) :
    methods name (c.method method parameter remarks body) =
      if method = name then [(c.name, parameter, body)] else [] := by
  rw [ScriptClass.method, methods_append, methods_comment, List.nil_append, methods,
    List.filterMap_cons, method?_head (readLine_headRules plain word given)]
  split
  · rename_i none
    split at none
    · cases none
    · rename_i other
      rw [if_neg other]
      rfl
  · rename_i some
    split at some
    · rename_i same
      cases some
      rw [if_pos same]
      rfl
    · cases some

variable (compressed : Bool) (plain : IsWord m.name)
include plain

theorem methods_class :
    methods "encodeBuf" ((ScriptClass.ofMessage m).outline compressed) = [(m.name, "_out", encoderBody m)] ∧
      methods "decodeBuf" ((ScriptClass.ofMessage m).outline compressed) =
        [(m.name, "input", decoderBody m)] := by
  have words (method : String) (member : method ∈ prototypeMethods) : IsWord method :=
    isWord_keywords method (List.mem_append_right _ member)
  have plain : IsWord (ScriptClass.ofMessage m).name := plain
  simp only [ScriptClass.outline, methods_append, methods_constructor,
    methods_method _ plain (words "encodeBuf" (by decide)) (show IsWord "_out" by decide),
    methods_method _ plain (words "decodeBuf" (by decide)) (show IsWord "input" by decide),
    methods_method _ plain (words "encode" (by decide)) (show IsWord "" by decide),
    methods_method _ plain (words "decode" (by decide)) (show IsWord "input" by decide)]
  exact ⟨rfl, rfl⟩

end classes

end ScriptWire

def ScriptModule.pieces (m : ScriptModule) : List Outline :=
  [.line (banner m.package), .line "\"use strict\";", Outline.blank,
    .line ("const " ++ runtimeBinding ++ " = require(" ++ Text.quoted m.runtime ++ ");"),
    Outline.blank] ++
  m.enumerations.flatMap enumerationOutline ++
  m.classes.flatMap (ScriptClass.outline m.compressed) ++ [m.exports]

theorem ScriptModule.text_eq (m : ScriptModule) : m.text = Outline.text 2 m.pieces := rfl

namespace ScriptWire

variable {doc : Document} (settings : Settings) {name : String}

theorem methods_enumeration (e : Enumeration) : methods name (enumerationOutline e) = [] := by
  have head : readLine headRules ("const " ++ enumerationBinding e.name ++ " =") = none :=
    readLine_headRules_other "const" " " [enumerationBinding e.name, " ="] (by simp [joined])
      (isWord_keywords _ (by decide)) (by decide) (by decide)
  rw [enumerationOutline, methods, List.filterMap_cons, method?_other head]
  rfl

theorem methods_exports (m : ScriptModule) : methods name [m.exports] = [] := by
  have head : readLine headRules "module.exports =" = none :=
    readLine_headRules_other "module" ".exports =" [] (by simp [joined])
      (isWord_keywords _ (by decide)) (by decide) (by decide)
  rw [ScriptModule.exports, methods, List.filterMap_cons, method?_other head]
  rfl

theorem methods_pieces (m : ScriptModule) : methods name m.pieces =
    m.classes.flatMap fun c => methods name (c.outline m.compressed) := by
  have enumerations : methods name (m.enumerations.flatMap enumerationOutline) = [] := by
    rw [methods, List.filterMap_flatMap, List.flatMap_eq_nil_iff]
    exact fun e _ => methods_enumeration e
  have classes : methods name (m.classes.flatMap (ScriptClass.outline m.compressed)) =
      m.classes.flatMap fun c => methods name (c.outline m.compressed) := List.filterMap_flatMap ..
  rw [ScriptModule.pieces, methods_append, methods_append, methods_append, enumerations, classes,
    methods_exports, List.append_nil, List.append_nil]
  rfl

theorem isWord_of_alphanumeric {name : String} (named : Alphanumeric name) : IsWord name := by
  intro c member
  rw [isWordChar, isNameChar_iff.mpr (named.2 c member), Bool.true_or]

theorem isWord_of_wellFormed (wellFormed : doc.WellFormed) {m : Message} (member : m ∈ doc.messages) :
    IsWord m.name ∧ (∀ field ∈ m.fields, IsWord field.name) ∧
      ∀ field ∈ m.fields, ∀ other, field.type = .message other → IsWord other := by
  have type (name : String) (declared : name ∈ doc.messages.map Message.name) : IsWord name :=
    isWord_of_alphanumeric (wellFormed.typesNamed name (List.mem_append_left _ declared))
  have message := wellFormed.messages m member
  refine ⟨type m.name (List.mem_map_of_mem member),
    fun field among => isWord_of_alphanumeric (message.named field among), ?_⟩
  intro field among other refers
  have resolved := message.resolved field among
  rw [refers] at resolved
  exact type other resolved

theorem methods_ofDocument {parameter : String} {body : Message → List Outline}
    (each : ∀ m ∈ doc.messages, methods name
      ((ScriptClass.ofMessage m).outline (doc.hasPragma compressionPragma)) =
        [(m.name, parameter, body m)]) :
    methods name (ScriptModule.ofDocument settings doc).pieces =
      (sortByName Message.name doc.messages).map fun m => (m.name, parameter, body m) := by
  have sorted (m : Message) (member : m ∈ sortByName Message.name doc.messages) :=
    each m ((sortByName_perm ..).mem_iff.mp member)
  have whole := List.flatMap_congr sorted
  rw [methods_pieces, ScriptModule.ofDocument, List.flatMap_map, whole]
  exact List.flatMap_pure_eq_map ..

theorem encodes_ofDocument (wellFormed : doc.WellFormed) :
    methods "encodeBuf" (ScriptModule.ofDocument settings doc).pieces =
      (sortByName Message.name doc.messages).map fun m => (m.name, "_out", encoderBody m) :=
  methods_ofDocument settings fun _ member =>
    (methods_class _ (isWord_of_wellFormed wellFormed member).1).1

theorem decodes_ofDocument (wellFormed : doc.WellFormed) :
    methods "decodeBuf" (ScriptModule.ofDocument settings doc).pieces =
      (sortByName Message.name doc.messages).map fun m => (m.name, "input", decoderBody m) :=
  methods_ofDocument settings fun _ member =>
    (methods_class _ (isWord_of_wellFormed wellFormed member).1).2

end ScriptWire

end BinaryCodec.Binding
