import BinaryCodec.Proofs.Binding.ScriptMethods

namespace BinaryCodec.Binding

open Definition Form

namespace ScriptNames

inductive Declared where
  | constant (name : String)
  /-- A function that gives properties to what it constructs. -/
  | constructor (name : String) (properties : List String)
  | method (constructor name : String)
  deriving DecidableEq, Repr

def Declared.bound? : Declared → Option String
  | .constant name => some name
  | .constructor name _ => some name
  | .method .. => none

def propertyRules : List (Rule String) := [⟨[.text "this.", .word, .text " ", .rest], List.head?⟩]

def property? : Outline → Option String
  | .line text => readLine propertyRules text
  | .block .. => none

def lineRules : List (Rule Declared) :=
  [⟨[.text "const ", .word, .text " = require(", .rest], fun words => words.head?.map .constant⟩]

def headRules (body : List Outline) : List (Rule Declared) := [
  ⟨[.text "const ", .word, .text " ="], fun words => words.head?.map .constant⟩,
  ⟨[.text "function ", .word, .text "()"], fun words =>
    words.head?.map fun name => .constructor name (body.filterMap property?)⟩,
  ⟨[.word, .text ".prototype.", .word, .text " = function (", .rest], fun
    | [type, method] => some (.method type method)
    | _ => none⟩]

def declared? : Outline → Option Declared
  | .line text => readLine lineRules text
  | .block head body _ => readLine (headRules body) head

def declared (pieces : List Outline) : List Declared := pieces.filterMap declared?

/-- The names that are bound in the whole module. -/
def bound (pieces : List Outline) : List String := (declared pieces).filterMap Declared.bound?

/-- A method of a prototype that a property of every object of its constructor hides. -/
def Hidden (pieces : List Outline) (type method : String) : Prop :=
  .method type method ∈ declared pieces ∧
    ∃ properties, .constructor type properties ∈ declared pieces ∧ method ∈ properties

section pieces

theorem declared_append (front back : List Outline) :
    declared (front ++ back) = declared front ++ declared back := List.filterMap_append

theorem declared?_other {text : String} (t : String) (parts : List String)
    (line : text.toList = joined (t :: parts))
    (differ : ("const ".toList.zip t.toList).all (fun p => p.1 == p.2) = false) :
    declared? (.line text) = none := by
  simp (disch := assumption) [declared?, line, lineRules]

theorem declared_comment (texts : List String) : declared (comment texts) = [] := by
  have first : declared? (.line "/**") = none :=
    declared?_other "/**" [] (by simp [joined]) (by decide)
  have middle (text : String) : declared? (.line (" * " ++ text)) = none :=
    declared?_other " * " [text] (by simp [joined]) (by decide)
  have last : declared? (.line " */") = none :=
    declared?_other " */" [] (by simp [joined]) (by decide)
  exact ScriptWire.filterMap_comment first middle last texts

theorem property?_assignment {name : String} (plain : IsWord name) (width : Nat) (value : String) :
    property? (.line ("this." ++ padded width name ++ " = " ++ value)) = some name := by
  have pad (n : Nat) : List.replicate n ' ' ++ [' ', '=', ' '] =
      ' ' :: (List.replicate n ' ' ++ ['=', ' ']) := by
    rw [← List.singleton_append, ← List.append_assoc, ← List.replicate_succ',
      List.replicate_succ, List.cons_append]
  have line : ("this." ++ padded width name ++ " = " ++ value).toList = joined ["this.", name, " ",
      String.ofList (List.replicate (width - name.length) ' '), "= ", value] := by
    simp [padded, joined, pad]
  simp (disch := first | assumption | decide) [property?, line, propertyRules]

theorem declared?_constant {name : String} (plain : IsWord name) (body : List Outline) (tail : String) :
    declared? (.block ("const " ++ name ++ " =") body tail) = some (.constant name) := by
  have line : ("const " ++ name ++ " =").toList = joined ["const ", name, " ="] := by simp [joined]
  simp (disch := first | assumption | decide) [declared?, line, headRules]

theorem declared?_function {name : String} (plain : IsWord name) (body : List Outline) (tail : String) :
    declared? (.block ("function " ++ name ++ "()") body tail) =
      some (.constructor name (body.filterMap property?)) := by
  have line : ("function " ++ name ++ "()").toList = joined ["function ", name, "()"] := by
    simp [joined]
  simp (disch := first | assumption | decide) [declared?, line, headRules]

theorem declared?_method {type method : String} (plain : IsWord type) (word : IsWord method)
    (parameter tail : String) (body : List Outline) :
    declared? (.block (type ++ ".prototype." ++ method ++ " = function (" ++ parameter ++ ")") body
      tail) = some (.method type method) := by
  have line : (type ++ ".prototype." ++ method ++ " = function (" ++ parameter ++ ")").toList =
      joined [type, ".prototype.", method, " = function (", parameter, ")"] := by
    simp [joined]
  simp (disch := first | assumption | decide) [declared?, line, headRules]

theorem declared_constructor {m : Message} (plain : IsWord m.name)
    (named : ∀ field ∈ m.fields, IsWord field.name) :
    declared (ScriptClass.ofMessage m).constructor =
      [.constructor m.name (m.fields.map MessageField.name)] := by
  have plain : IsWord (ScriptClass.ofMessage m).name := plain
  have assigns (width : Nat) : ((m.fields.map ScriptField.ofField).map fun field =>
      Outline.line ("this." ++ padded width field.name ++ " = " ++ field.initial.text ++ ";")).filterMap
        property? = m.fields.map MessageField.name := by
    rw [List.map_map, List.filterMap_map, ← List.filterMap_eq_map]
    refine List.filterMap_congr fun field member => ?_
    change property? (.line ("this." ++ padded width field.name ++ " = " ++ _ ++ ";")) = _
    rw [String.append_assoc]
    exact property?_assignment (named field member) width _
  rw [ScriptClass.constructor, declared_append, declared_comment, declared, List.filterMap_cons,
    declared?_function plain, ScriptClass.ofMessage, assigns]
  rfl

theorem declared_method {c : ScriptClass} (plain : IsWord c.name) {method : String}
    (member : method ∈ prototypeMethods) (parameter : String) (remarks : List String)
    (body : List Outline) :
    declared (c.method method parameter remarks body) = [.method c.name method] := by
  have word := ScriptWire.isWord_keywords method (List.mem_append_right _ member)
  rw [ScriptClass.method, declared_append, declared_comment, declared, List.filterMap_cons,
    declared?_method plain word]
  rfl

theorem declared_class {m : Message} (plain : IsWord m.name)
    (named : ∀ field ∈ m.fields, IsWord field.name) (compressed : Bool) :
    declared ((ScriptClass.ofMessage m).outline compressed) =
      .constructor m.name (m.fields.map MessageField.name) ::
        prototypeMethods.map (.method m.name) := by
  have plain' : IsWord (ScriptClass.ofMessage m).name := plain
  rw [ScriptClass.outline, declared_append, declared_append, declared_append, declared_append,
    declared_constructor plain named, declared_method plain' (by decide),
    declared_method plain' (by decide), declared_method plain' (by decide),
    declared_method plain' (by decide)]
  rfl

theorem declared_enumeration {e : Enumeration} (plain : IsWord e.name) :
    declared (enumerationOutline e) = [.constant (enumerationBinding e.name)] := by
  have word : IsWord (enumerationBinding e.name) := IsWord.append (by decide) plain
  rw [enumerationOutline, declared, List.filterMap_cons, declared?_constant word]
  rfl

theorem declared_exports (m : ScriptModule) : declared [m.exports] = [] := by
  have line : "module.exports =".toList = joined ["module", ".exports ="] := by simp [joined]
  have word := ScriptWire.isWord_keywords "module" (by decide)
  have head : declared? m.exports = none := by
    rw [ScriptModule.exports]
    simp (disch := first | assumption | decide) [declared?, line, headRules]
  rw [declared, List.filterMap_cons, head]
  rfl

theorem declared_preamble (package runtime : String) : declared [.line (banner package),
    .line "\"use strict\";", Outline.blank,
    .line ("const " ++ runtimeBinding ++ " = require(" ++ Text.quoted runtime ++ ");"),
    Outline.blank] = [.constant runtimeBinding] := by
  have binds : ("const " ++ runtimeBinding ++ " = require(" ++ Text.quoted runtime ++ ");").toList =
      joined ["const ", runtimeBinding, " = require(", Text.quoted runtime, ");"] := by
    simp [joined]
  have word : IsWord runtimeBinding := by decide
  have around (front back : String) : (front ++ package ++ back).toList =
      joined [front, package, back] := by
    simp [joined]
  have first : declared? (.line (banner package)) = none :=
    declared?_other _ _ (around _ _) (by decide)
  have second : declared? (.line "\"use strict\";") = none :=
    declared?_other "\"use strict\";" [] (by simp [joined]) (by decide)
  have blank : declared? Outline.blank = none := rfl
  have requires : declared? (.line ("const " ++ runtimeBinding ++ " = require(" ++
      Text.quoted runtime ++ ");")) = some (.constant runtimeBinding) := by
    simp (disch := first | assumption | decide) [declared?, binds, lineRules]
  simp only [declared, List.filterMap_cons, first, second, blank, requires, List.filterMap_nil]

variable {doc : Document} (settings : Settings)

theorem declared_ofDocument (wellFormed : doc.WellFormed) :
    declared (ScriptModule.ofDocument settings doc).pieces = .constant runtimeBinding ::
      ((sortByName Enumeration.name doc.enumerations).map fun e =>
        .constant (enumerationBinding e.name)) ++
      (sortByName Message.name doc.messages).flatMap fun m =>
        .constructor m.name (m.fields.map MessageField.name) ::
          prototypeMethods.map (.method m.name) := by
  have enumerations : declared ((sortByName Enumeration.name doc.enumerations).flatMap
      enumerationOutline) = (sortByName Enumeration.name doc.enumerations).map fun e =>
        .constant (enumerationBinding e.name) := by
    rw [declared, List.filterMap_flatMap, ← List.flatMap_pure_eq_map]
    refine List.flatMap_congr fun e sorted => declared_enumeration ?_
    have among : e.name ∈ doc.typeNames :=
      List.mem_append_right _ (List.mem_map_of_mem ((sortByName_perm ..).mem_iff.mp sorted))
    exact ScriptWire.isWord_of_alphanumeric (wellFormed.typesNamed _ among)
  have classes : declared (((sortByName Message.name doc.messages).map ScriptClass.ofMessage).flatMap
      (ScriptClass.outline (doc.hasPragma compressionPragma))) =
        (sortByName Message.name doc.messages).flatMap fun m =>
          .constructor m.name (m.fields.map MessageField.name) ::
            prototypeMethods.map (.method m.name) := by
    rw [declared, List.filterMap_flatMap, List.flatMap_map]
    refine List.flatMap_congr fun m sorted => ?_
    have words := ScriptWire.isWord_of_wellFormed wellFormed ((sortByName_perm ..).mem_iff.mp sorted)
    exact declared_class words.1 words.2.1 _
  rw [ScriptModule.pieces, declared_append, declared_append, declared_append, declared_preamble,
    declared_exports, List.append_nil, ScriptModule.ofDocument, enumerations, classes]
  rfl

end pieces

section clashes

variable {doc : Document} (settings : Settings)

theorem bound_ofDocument (wellFormed : doc.WellFormed) :
    bound (ScriptModule.ofDocument settings doc).pieces =
      (ScriptModule.ofDocument settings doc).bindings := by
  have classes (messages : List Message) : (messages.flatMap fun m =>
      (Declared.constructor m.name (m.fields.map MessageField.name) ::
        prototypeMethods.map (.method m.name))).filterMap Declared.bound? =
          messages.map Message.name := by
    rw [List.filterMap_flatMap, ← List.flatMap_pure_eq_map]
    rfl
  have enumerations (items : List Enumeration) : (items.map fun e =>
      Declared.constant (enumerationBinding e.name)).filterMap Declared.bound? =
        items.map fun e => enumerationBinding e.name := by
    rw [List.filterMap_map, ← List.filterMap_eq_map]
    rfl
  rw [bound, declared_ofDocument settings wellFormed, List.filterMap_append, List.filterMap_cons,
    classes, enumerations, ScriptModule.bindings, ScriptModule.ofDocument, List.map_map]
  rfl

theorem nodup_bindings_iff (distinct : doc.typeNames.Nodup) :
    (ScriptModule.ofDocument settings doc).bindings.Nodup ↔ ∀ m ∈ doc.messages,
      m.name ≠ runtimeBinding ∧ ∀ e ∈ doc.enumerations, m.name ≠ enumerationBinding e.name := by
  obtain ⟨messagesDistinct, enumerationsDistinct, -⟩ := List.nodup_append.mp distinct
  have permuted : (ScriptModule.ofDocument settings doc).bindings.Perm (runtimeBinding ::
      (doc.enumerations.map fun e => enumerationBinding e.name) ++ doc.messages.map Message.name) := by
    rw [ScriptModule.bindings, ScriptModule.ofDocument, List.map_map]
    exact (((sortByName_perm ..).map _).cons _).append ((sortByName_perm ..).map _)
  have injective : Function.Injective enumerationBinding := fun first second same =>
    (String.append_right_inj "Enum_").mp same
  have enumerations : (doc.enumerations.map fun e => enumerationBinding e.name).Nodup := by
    rw [← Function.comp_def, ← List.map_map]
    exact enumerationsDistinct.map injective
  have runtime : runtimeBinding ∉ doc.enumerations.map fun e => enumerationBinding e.name := by
    intro member
    obtain ⟨e, -, same⟩ := List.mem_map.mp member
    have chars := congrArg String.toList same
    simp [runtimeBinding, enumerationBinding] at chars
  rw [permuted.nodup_iff, List.nodup_append, List.nodup_cons]
  simp only [runtime, enumerations, messagesDistinct, not_false_eq_true, true_and, List.mem_cons,
    List.mem_map]
  constructor
  · intro apart m member
    refine ⟨fun same => ?_, fun e among same => ?_⟩
    · exact apart _ (.inl rfl) m.name ⟨m, member, rfl⟩ same.symm
    · exact apart _ (.inr ⟨e, among, rfl⟩) m.name ⟨m, member, rfl⟩ same.symm
  · rintro free name (rfl | ⟨e, among, rfl⟩) other ⟨m, member, rfl⟩ same
    · exact (free m member).1 same.symm
    · exact (free m member).2 e among same.symm

theorem mem_methods_iff (wellFormed : doc.WellFormed) (type method : String) :
    .method type method ∈ declared (ScriptModule.ofDocument settings doc).pieces ↔
      ∃ m ∈ doc.messages, method ∈ prototypeMethods ∧ m.name = type := by
  simp [declared_ofDocument settings wellFormed, (sortByName_perm ..).mem_iff]

theorem mem_constructors_iff (wellFormed : doc.WellFormed) (type : String) (properties : List String) :
    .constructor type properties ∈ declared (ScriptModule.ofDocument settings doc).pieces ↔
      ∃ m ∈ doc.messages, m.name = type ∧ m.fields.map MessageField.name = properties := by
  simp [declared_ofDocument settings wellFormed, (sortByName_perm ..).mem_iff, eq_comm]

theorem hidden_ofDocument_iff (wellFormed : doc.WellFormed) (type method : String) :
    Hidden (ScriptModule.ofDocument settings doc).pieces type method ↔ method ∈ prototypeMethods ∧
      ∃ m ∈ doc.messages, m.name = type ∧ ∃ field ∈ m.fields, field.name = method := by
  have methods := mem_methods_iff settings wellFormed type method
  have constructors := mem_constructors_iff settings wellFormed type
  constructor
  · rintro ⟨has, properties, constructs, member⟩
    obtain ⟨-, -, among, -⟩ := methods.mp has
    obtain ⟨m, declares, same, rfl⟩ := (constructors properties).mp constructs
    exact ⟨among, m, declares, same, List.mem_map.mp member⟩
  · rintro ⟨among, m, declares, same, field, member, named⟩
    exact ⟨methods.mpr ⟨m, declares, among, same⟩, _,
      (constructors _).mpr ⟨m, declares, same, rfl⟩, List.mem_map.mpr ⟨field, member, named⟩⟩

end clashes

end ScriptNames

open ScriptNames

variable {settings : Settings} {source : String} {c : Compilation}

/-- A module binds its names once unless a message has the name of the runtime or of the constant of an
enumeration, and a property hides a method of a prototype where a field has its name. -/
theorem clashes_of_compile (compiled : Compilation.ofSource settings source = .ok c) :
    c.script = Outline.text 2 (ScriptModule.ofDocument settings c.document).pieces ∧
    bound (ScriptModule.ofDocument settings c.document).pieces =
      "wb" :: ((sortByName Enumeration.name c.document.enumerations).map fun e => "Enum_" ++ e.name) ++
        (sortByName Message.name c.document.messages).map Message.name ∧
    ((bound (ScriptModule.ofDocument settings c.document).pieces).Nodup ↔
      ∀ m ∈ c.document.messages, m.name ≠ "wb" ∧
        ∀ e ∈ c.document.enumerations, m.name ≠ "Enum_" ++ e.name) ∧
    ∀ type method, Hidden (ScriptModule.ofDocument settings c.document).pieces type method ↔
      method ∈ ["encodeBuf", "decodeBuf", "encode", "decode"] ∧
        ∃ m ∈ c.document.messages, m.name = type ∧ ∃ field ∈ m.fields, field.name = method := by
  have wellFormed := (Document.wellFormed_of_ofTokens (parse_of_ofSource compiled)).1
  have script := script_of_ofSource compiled
  rw [ScriptModule.text_eq] at script
  have names := bound_ofDocument settings wellFormed
  refine ⟨script, ?_, ?_, hidden_ofDocument_iff settings wellFormed⟩
  · rw [names, ScriptModule.bindings, ScriptModule.ofDocument, List.map_map]
    rfl
  · rw [names]
    exact nodup_bindings_iff settings wellFormed.typesDistinct

theorem clashes_of_compile_canvas : ∃ native script,
    Compilation.ofSource (.ofPackage "paint") canvasSource = .ok ⟨canvas, native, script⟩ ∧
    (bound (ScriptModule.ofDocument (.ofPackage "paint") canvas).pieces).Nodup ∧
    ¬Hidden (ScriptModule.ofDocument (.ofPackage "paint") canvas).pieces "Dot" "encode" := by
  have compiled : Compilation.ofSource (.ofPackage "paint") canvasSource = .ok ⟨canvas, _, _⟩ :=
    bind_eq_ok.mpr ⟨canvas, ofTokens_canvas, rfl⟩
  obtain ⟨-, -, once, hides⟩ := clashes_of_compile compiled
  refine ⟨_, _, compiled, once.mpr (by decide +kernel), ?_⟩
  rw [hides]
  decide +kernel

def shadowSource : String := "struct wb\x7bbool encode\x7d"

def shadowDocument : Document where
  package := "app"
  pragmas := []
  messages := [⟨"wb", [⟨"encode", .builtin .bool, false, ⟨1, 11⟩⟩], ⟨1, 8⟩⟩]
  enumerations := []
  services := []

theorem exists_shadow : ∃ c, Compilation.ofSource (.ofPackage "app") shadowSource = .ok c ∧
    c.script = Outline.text 2 (ScriptModule.ofDocument (.ofPackage "app") c.document).pieces ∧
    ¬(bound (ScriptModule.ofDocument (.ofPackage "app") c.document).pieces).Nodup ∧
    Hidden (ScriptModule.ofDocument (.ofPackage "app") c.document).pieces "wb" "encode" := by
  have parsed : Document.ofTokens "app" (tokens shadowSource) = .ok shadowDocument := by decide +kernel
  have wellFormed := (Document.wellFormed_of_ofTokens parsed).1
  have names := bound_ofDocument (.ofPackage "app") wellFormed
  have twice : ¬(ScriptModule.ofDocument (.ofPackage "app") shadowDocument).bindings.Nodup := by
    rw [nodup_bindings_iff _ wellFormed.typesDistinct]
    decide
  have hidden := (hidden_ofDocument_iff (.ofPackage "app") wellFormed "wb" "encode").mpr (by decide)
  rw [← names] at twice
  have compiled : Compilation.ofSource (.ofPackage "app") shadowSource = .ok ⟨shadowDocument, _, _⟩ :=
    bind_eq_ok.mpr ⟨shadowDocument, parsed, rfl⟩
  have script := script_of_ofSource compiled
  rw [ScriptModule.text_eq] at script
  exact ⟨_, compiled, script, twice, hidden⟩

end BinaryCodec.Binding
