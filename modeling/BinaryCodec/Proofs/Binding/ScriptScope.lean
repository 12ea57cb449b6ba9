import BinaryCodec.Proofs.Binding.ScriptNaming

namespace BinaryCodec.Binding

open Definition Form

namespace ScriptScope

def reserved : List String := [
  "arguments", "break", "case", "catch", "class", "const", "continue", "debugger", "default", "delete",
  "do", "else", "enum", "eval", "export", "extends", "false", "finally", "for", "function", "if",
  "implements", "import", "in", "instanceof", "interface", "let", "new", "null", "package", "private",
  "protected", "public", "return", "static", "super", "switch", "this", "throw", "true", "try", "typeof",
  "var", "void", "while", "with", "yield"]

def given : List String := ["require", "module"]

def bindable (name : String) : Bool :=
  !startsWithDigit name && !reserved.contains name && !given.contains name

def separated (digit : Char → Bool) : List Char → Bool
  | [] => false
  | [c] => digit c
  | c :: '_' :: rest => digit c && separated digit rest
  | c :: rest => digit c && separated digit rest

def digitOf? : Char → Option (Char → Bool)
  | 'x' | 'X' => some fun c => c.isDigit || ('a' ≤ c.toLower && c.toLower ≤ 'f')
  | 'o' | 'O' => some fun c => '0' ≤ c && c ≤ '7'
  | 'b' | 'B' => some fun c => c = '0' || c = '1'
  | _ => none

def isNumeral (chars : List Char) : Bool :=
  let whole := chars.takeWhile fun c => c.isDigit || c = '_'
  let plain := whole = ['0'] || whole.head? != some '0' && separated Char.isDigit whole
  match chars.drop whole.length with
  | [] | ['n'] => plain
  | mark :: digits =>
    if mark = 'e' || mark = 'E' then plain && separated Char.isDigit digits
    else whole = ['0'] && (digitOf? mark).any fun digit =>
      separated digit (if digits.getLast? = some 'n' then digits.dropLast else digits)

def isKey (name : String) : Bool := !startsWithDigit name || isNumeral name.toList

example : (["class", "_1", "0", "10n", "1_0e2", "0x1F"].all isKey &&
    ["3d", "01", "1__0", "0x", "0b2"].all (!isKey ·)) = true := by decide +kernel

def keyRules : List (Rule String) := [⟨[.word, .text ": ", .rest], List.head?⟩]

def key? : Outline → Option String
  | .line text => readLine keyRules text
  | .block .. => none

def keysOf : Outline → List String
  | .line _ => []
  | .block head body tail =>
    match ScriptNames.declared? (.block head body tail) with
    | some (.constant _) => body.filterMap key?
    | _ => []

def keys (pieces : List Outline) : List String := pieces.flatMap keysOf

def propertiesOf : ScriptNames.Declared → List String
  | .constructor _ properties => properties
  | _ => []

/-- Whether every name can stand where a module has it: bound once in all of it, as a property, or as a key. -/
def admits (pieces : List Outline) : Bool :=
  decide (ScriptNames.bound pieces).Nodup && (ScriptNames.bound pieces).all bindable &&
    ((ScriptNames.declared pieces).flatMap propertiesOf).all (!startsWithDigit ·) &&
    (keys pieces).all isKey

/-- Whether a method is found on an object that was constructed: no property has its name, and none replaces
the prototype. -/
def reaches (pieces : List Outline) (method type : String) : Bool :=
  (ScriptNames.declared pieces).contains (.method type method) &&
    (ScriptNames.declared pieces).any fun
      | .constructor name properties =>
        name = type && !properties.contains method && !properties.contains "__proto__"
      | _ => false

/-- What a statement puts into a field, as names are resolved: a class by `known`, which is told the names that
are local, and arrays by `arrays`. The body of a loop has its variable in front of all others. -/
def resolves (arrays : Bool) (known : List String → String → Bool) (locals : List String) :
    Statement WireKind String → Bool
  | .move _ (.message type) => known locals type
  | .loop _ _ (.message type) => arrays && known ("i" :: locals) type
  | .loop .. => arrays
  | _ => true

def constants (found : List (Statement WireKind String)) : List String :=
  found.filterMap fun
    | .count bound => some bound
    | _ => none

def hasArrays (pieces : List Outline) : Bool := (ScriptNames.bound pieces).all (· != "Array")

/-- The fields that each method takes from the wire, if its names stand for what it needs: what a parameter, a
constant or the variable of a loop is called is no class there. -/
def decoders (pieces : List Outline) : List (String × Option (List (String × WireOp WireKind String))) :=
  (ScriptWire.methods "decodeBuf" pieces).map fun (type, parameter, body) => (type, do
    let found ← statements ScriptWire.taken? body
    if parameter = "input" && admits pieces && reaches pieces "decodeBuf" type &&
        found.all (resolves (hasArrays pieces)
          (fun locals other => !locals.contains other && reaches pieces "decodeBuf" other)
          (parameter :: constants found)) then
      fieldsOf found
    else none)

/-- The fields that each method puts on the wire, if the objects that are read into them have the method
too. -/
def encoders (pieces : List Outline) : List (String × Option (List (String × WireOp WireKind Unit))) :=
  (ScriptWire.methods "encodeBuf" pieces).map fun (type, parameter, body) => (type, do
    let found ← statements ScriptWire.written? body
    let reading ← (ScriptWire.methods "decodeBuf" pieces).lookup type
    let held ← statements ScriptWire.taken? reading.2
    if parameter = "_out" && admits pieces && reaches pieces "encodeBuf" type &&
        held.all (resolves (hasArrays pieces) (fun _ => reaches pieces "encodeBuf") []) then
      fieldsOf found
    else none)

def admitted (doc : Document) : Bool :=
  doc.messages.all (fun m => bindable m.name && m.name != runtimeBinding &&
      doc.enumerations.all (fun e => m.name != enumerationBinding e.name) &&
      m.fields.all fun field => !startsWithDigit field.name) &&
    doc.enumerations.all fun e => e.values.all fun v => isKey v.name

def reachable (doc : Document) (method type : String) : Bool :=
  doc.messages.any fun m => m.name = type &&
    m.fields.all fun field => field.name != method && field.name != "__proto__"

def holds (doc : Document) (known : List String → String → Bool) (locals : List String)
    (field : MessageField) : Bool :=
  (!field.isArray || doc.messages.all fun m => m.name != "Array") &&
    match field.type with
    | .message type => known (if field.isArray then "i" :: locals else locals) type
    | _ => true

def localsOf (m : Message) : List String :=
  "input" :: (m.fields.filter MessageField.isArray).map fun field => field.name ++ "_len"

/-- Whether the method that reads a message does so. -/
def decodable (doc : Document) (m : Message) : Bool :=
  admitted doc && reachable doc "decodeBuf" m.name &&
    m.fields.all (holds doc (fun locals type => !locals.contains type && reachable doc "decodeBuf" type)
      (localsOf m))

/-- Whether the method that writes a message does so. -/
def encodable (doc : Document) (m : Message) : Bool :=
  admitted doc && reachable doc "encodeBuf" m.name &&
    m.fields.all (holds doc (fun _ => reachable doc "encodeBuf") [])

section documents

variable {doc : Document} (settings : Settings)

theorem keys_eq_nil {pieces : List Outline}
    (none : ∀ name, .constant name ∉ ScriptNames.declared pieces) : keys pieces = [] := by
  rw [keys, List.flatMap_eq_nil_iff]
  intro piece member
  cases piece with
  | line text => rfl
  | block head body tail =>
    have other (name : String) : ScriptNames.declared? (.block head body tail) ≠ some (.constant name) :=
      fun declares => none name (List.mem_filterMap.mpr ⟨_, member, declares⟩)
    rw [keysOf]
    split
    · rename_i name declares
      exact absurd declares (other name)
    · rfl

theorem keys_enumeration {e : Enumeration} (plain : IsWord e.name) (named : ∀ v ∈ e.values, IsWord v.name) :
    keys (enumerationOutline e) = e.values.map EnumerationValue.name := by
  have word : IsWord (enumerationBinding e.name) := IsWord.append (by decide) plain
  have each (v : EnumerationValue) (member : v ∈ e.values) :
      key? (.line (v.name ++ s!": {v.number},")) = some v.name := by
    have word := named v member
    change key? (.line (v.name ++ (": " ++ toString v.number ++ ","))) = some v.name
    generalize toString v.number = number
    have line : (v.name ++ (": " ++ number ++ ",")).toList = joined [v.name, ": ", number, ","] := by
      simp [joined]
    simp (disch := first | assumption | decide) [key?, line, keyRules]
  have body : (e.values.map fun v => Outline.line (v.name ++ s!": {v.number},")).filterMap key? =
      e.values.map EnumerationValue.name := by
    rw [List.filterMap_map, ← List.filterMap_eq_map]
    exact List.filterMap_congr each
  rw [enumerationOutline, keys, List.flatMap_cons, keysOf, ScriptNames.declared?_constant word]
  change (e.values.map _).filterMap key? ++ [] = _
  rw [body, List.append_nil]

theorem keys_ofDocument (wellFormed : doc.WellFormed) :
    keys (ScriptModule.ofDocument settings doc).pieces =
      (sortByName Enumeration.name doc.enumerations).flatMap fun e =>
        e.values.map EnumerationValue.name := by
  have enumerations : keys ((sortByName Enumeration.name doc.enumerations).flatMap enumerationOutline) =
      (sortByName Enumeration.name doc.enumerations).flatMap fun e =>
        e.values.map EnumerationValue.name := by
    rw [keys, List.flatMap_assoc]
    refine List.flatMap_congr fun e sorted => ?_
    have member := (sortByName_perm ..).mem_iff.mp sorted
    have among : e.name ∈ doc.typeNames := List.mem_append_right _ (List.mem_map_of_mem member)
    exact keys_enumeration (ScriptWire.isWord_of_alphanumeric (wellFormed.typesNamed _ among))
      fun v inside => ScriptWire.isWord_of_alphanumeric ((wellFormed.enumerations e member).named v inside)
  have classes : keys (((sortByName Message.name doc.messages).map ScriptClass.ofMessage).flatMap
      (ScriptClass.outline (doc.hasPragma compressionPragma))) = [] := by
    rw [keys, List.flatMap_assoc, List.flatMap_eq_nil_iff]
    refine List.forall_mem_map.mpr fun m sorted => keys_eq_nil fun name => ?_
    have words := ScriptWire.isWord_of_wellFormed wellFormed ((sortByName_perm ..).mem_iff.mp sorted)
    rw [ScriptNames.declared_class words.1 words.2.1]
    simp
  have exports (m : ScriptModule) : keys [m.exports] = [] := by
    refine keys_eq_nil fun name => ?_
    rw [ScriptNames.declared_exports]
    exact List.not_mem_nil
  have append (front back : List Outline) : keys (front ++ back) = keys front ++ keys back :=
    List.flatMap_append ..
  rw [ScriptModule.pieces, append, append, append, exports, List.append_nil, ScriptModule.ofDocument,
    enumerations, classes, List.append_nil]
  rfl

theorem all_sortByName {α : Type} (name : α → String) (items : List α) (p : α → Bool) :
    (sortByName name items).all p = items.all p :=
  (sortByName_perm ..).all_eq

theorem bindings_all (p : String → Bool) (m : ScriptModule) : m.bindings.all p =
    (p runtimeBinding && (m.enumerations.all fun e => p (enumerationBinding e.name)) &&
      m.classes.all fun c => p c.name) := by
  rw [ScriptModule.bindings, List.all_append, List.all_cons, List.all_map, List.all_map]
  rfl

theorem bindable_runtimeBinding : bindable runtimeBinding = true := by decide

theorem bindable_enumerationBinding (name : String) : bindable (enumerationBinding name) = true := by
  have chars : (enumerationBinding name).toList = 'E' :: 'n' :: 'u' :: 'm' :: '_' :: name.toList := by
    simp [enumerationBinding]
  have digit : startsWithDigit (enumerationBinding name) = false := by
    rw [startsWithDigit, chars]
    rfl
  have other : ∀ word ∈ reserved ++ given, word.toList.take 5 ≠ ['E', 'n', 'u', 'm', '_'] := by decide
  have free (words : List String) (inside : words ⊆ reserved ++ given) :
      words.contains (enumerationBinding name) = false := by
    rw [List.contains_eq_mem, decide_eq_false_iff_not]
    intro member
    apply other _ (inside member)
    rw [chars]
    rfl
  rw [bindable, digit, free _ (List.subset_append_left ..), free _ (List.subset_append_right ..)]
  rfl

theorem properties_ofDocument (wellFormed : doc.WellFormed) :
    (ScriptNames.declared (ScriptModule.ofDocument settings doc).pieces).flatMap propertiesOf =
      (sortByName Message.name doc.messages).flatMap fun m => m.fields.map MessageField.name := by
  have enumerations (items : List Enumeration) : (items.map fun e =>
      ScriptNames.Declared.constant (enumerationBinding e.name)).flatMap propertiesOf = [] := by
    rw [List.flatMap_map, List.flatMap_eq_nil_iff]
    exact fun e _ => rfl
  have messages (items : List Message) : (items.flatMap fun m =>
      ScriptNames.Declared.constructor m.name (m.fields.map MessageField.name) ::
        prototypeMethods.map (.method m.name)).flatMap propertiesOf =
          items.flatMap fun m => m.fields.map MessageField.name := by
    rw [List.flatMap_assoc]
    exact List.flatMap_congr fun m _ => List.append_nil _
  rw [ScriptNames.declared_ofDocument settings wellFormed, List.flatMap_append, List.flatMap_cons,
    enumerations, messages]
  rfl

theorem bindable_bindings : (ScriptModule.ofDocument settings doc).bindings.all bindable =
    doc.messages.all fun m => bindable m.name := by
  have enumerations : (sortByName Enumeration.name doc.enumerations).all
      (fun e => bindable (enumerationBinding e.name)) = true :=
    List.all_eq_true.mpr fun e _ => bindable_enumerationBinding e.name
  rw [bindings_all, ScriptModule.ofDocument, enumerations, bindable_runtimeBinding, List.all_map,
    Bool.and_self, Bool.true_and]
  exact all_sortByName Message.name doc.messages fun m => bindable m.name

theorem admits_ofDocument (wellFormed : doc.WellFormed) :
    admits (ScriptModule.ofDocument settings doc).pieces = admitted doc := by
  have once := ScriptNames.nodup_bindings_iff settings wellFormed.typesDistinct
  rw [admits, ScriptNames.bound_ofDocument settings wellFormed, bindable_bindings,
    properties_ofDocument settings wellFormed, keys_ofDocument settings wellFormed, List.all_flatMap,
    List.all_flatMap, all_sortByName, all_sortByName, admitted, Bool.eq_iff_iff]
  simp only [Bool.and_eq_true, decide_eq_true_eq, once, List.all_eq_true, List.all_map, bne_iff_ne,
    Function.comp_apply]
  constructor
  · rintro ⟨⟨⟨apart, words⟩, properties⟩, keys⟩
    exact ⟨fun m member => ⟨⟨⟨words m member, (apart m member).1⟩, (apart m member).2⟩,
      properties m member⟩, keys⟩
  · rintro ⟨messages, keys⟩
    refine ⟨⟨⟨fun m member => ?_, fun m member => ?_⟩, fun m member => ?_⟩, keys⟩
    · obtain ⟨⟨⟨-, runtime⟩, enumerations⟩, -⟩ := messages m member
      exact ⟨runtime, enumerations⟩
    · exact (messages m member).1.1.1
    · exact (messages m member).2

theorem hasArrays_ofDocument (wellFormed : doc.WellFormed) :
    hasArrays (ScriptModule.ofDocument settings doc).pieces =
      doc.messages.all fun m => m.name != "Array" := by
  have enumerations : (sortByName Enumeration.name doc.enumerations).all
      (fun e => enumerationBinding e.name != "Array") = true := by
    refine List.all_eq_true.mpr fun e _ => bne_iff_ne.mpr fun same => ?_
    have chars := congrArg String.toList same
    simp [enumerationBinding] at chars
  rw [hasArrays, ScriptNames.bound_ofDocument settings wellFormed, bindings_all,
    ScriptModule.ofDocument, enumerations, List.all_map, Bool.and_true]
  exact all_sortByName Message.name doc.messages fun m => m.name != "Array"

theorem reaches_ofDocument (wellFormed : doc.WellFormed) {method : String}
    (member : method ∈ prototypeMethods) (type : String) :
    reaches (ScriptModule.ofDocument settings doc).pieces method type = reachable doc method type := by
  have methods := ScriptNames.mem_methods_iff settings wellFormed type method
  have constructors := ScriptNames.mem_constructors_iff settings wellFormed type
  rw [reaches, reachable, Bool.eq_iff_iff, Bool.and_eq_true, List.contains_iff_mem, methods,
    List.any_eq_true, List.any_eq_true]
  constructor
  · rintro ⟨-, found, declares, free⟩
    cases found with
    | constructor name properties =>
      simp only [Bool.and_eq_true, decide_eq_true_eq] at free
      obtain ⟨⟨rfl, hides⟩, replaces⟩ := free
      obtain ⟨m, among, same, rfl⟩ := (constructors properties).mp declares
      refine ⟨m, among, ?_⟩
      simp_all
    | constant | method => cases free
  · rintro ⟨m, among, free⟩
    simp only [Bool.and_eq_true, decide_eq_true_eq, List.all_eq_true, bne_iff_ne] at free
    obtain ⟨same, others⟩ := free
    refine ⟨⟨m, among, member, same⟩, _, (constructors _).mpr ⟨m, among, same, rfl⟩, ?_⟩
    simp_all

end documents

section methods

variable {doc : Document} (settings : Settings)

def readings (m : Message) : List (Statement WireKind String) :=
  m.fields.flatMap fun field => statementsOf .ofBuiltin id (field.name ++ "_len") field.name field

theorem constants_readings (m : Message) : "input" :: constants (readings m) = localsOf m := by
  rw [localsOf, readings]
  congr 1
  induction m.fields with
  | nil => rfl
  | cons field rest ih =>
    rw [constants] at ih ⊢
    rw [List.flatMap_cons, List.filterMap_append, ih, statementsOf]
    cases array : field.isArray with
    | false => rw [List.filter_cons_of_neg (by simp [array])]; rfl
    | true => rw [List.filter_cons_of_pos array]; rfl

theorem all_resolves (known : List String → String → Bool) (locals : List String) (m : Message) :
    (readings m).all (resolves (doc.messages.all fun m => m.name != "Array") known locals) =
      m.fields.all (holds doc known locals) := by
  rw [readings, List.all_flatMap]
  refine congrArg (m.fields.all ·) (funext fun field => ?_)
  rw [holds, statementsOf]
  cases field.isArray <;> cases field.type <;> simp [resolves, WireOp.ofType]

variable (wellFormed : doc.WellFormed)
include wellFormed

theorem decoders_ofDocument : decoders (ScriptModule.ofDocument settings doc).pieces =
    (sortByName Message.name doc.messages).map fun m =>
      (m.name, if decodable doc m then some (spelled id id (wire m)) else none) := by
  have reach : reaches (ScriptModule.ofDocument settings doc).pieces "decodeBuf" = reachable doc "decodeBuf" :=
    funext (reaches_ofDocument settings wellFormed (by decide))
  rw [decoders, ScriptWire.decodes_ofDocument settings wellFormed, List.map_map]
  refine List.map_congr_left fun m sorted => congrArg (Prod.mk m.name) ?_
  have words := ScriptWire.isWord_of_wellFormed wellFormed ((sortByName_perm ..).mem_iff.mp sorted)
  have found : statements ScriptWire.taken? (ScriptWire.decoderBody m) = some (readings m) :=
    ScriptWire.statements_decoderBody words.2.1 words.2.2
  have fields : fieldsOf (readings m) = some (spelled id id (wire m)) := by
    rw [spelled_wire]
    exact fieldsOf_flatMap ..
  rw [found, Option.bind_eq_bind, Option.bind_some, fields, constants_readings,
    admits_ofDocument settings wellFormed, hasArrays_ofDocument settings wellFormed, reach, all_resolves,
    decide_eq_true rfl, Bool.true_and]
  rfl

theorem lookup_decodes {m : Message} (member : m ∈ doc.messages) :
    (ScriptWire.methods "decodeBuf" (ScriptModule.ofDocument settings doc).pieces).lookup m.name =
      some ("input", ScriptWire.decoderBody m) := by
  have permuted := sortByName_perm Message.name doc.messages
  have distinct : ((sortByName Message.name doc.messages).map Message.name).Nodup :=
    (permuted.map _).nodup_iff.mpr (List.nodup_append.mp wellFormed.typesDistinct).1
  rw [ScriptWire.decodes_ofDocument settings wellFormed, ← List.append_nil (List.map ..)]
  have labels (m : Message) : (m.name, "input", ScriptWire.decoderBody m).1 = m.name := rfl
  exact lookup_of_nodup labels distinct (permuted.mem_iff.mpr member)

theorem encoders_ofDocument : encoders (ScriptModule.ofDocument settings doc).pieces =
    (sortByName Message.name doc.messages).map fun m =>
      (m.name, if encodable doc m then some (spelled id (fun _ => ()) (wire m)) else none) := by
  have reach : reaches (ScriptModule.ofDocument settings doc).pieces "encodeBuf" = reachable doc "encodeBuf" :=
    funext (reaches_ofDocument settings wellFormed (by decide))
  rw [encoders, ScriptWire.encodes_ofDocument settings wellFormed, List.map_map]
  refine List.map_congr_left fun m sorted => congrArg (Prod.mk m.name) ?_
  have member := (sortByName_perm ..).mem_iff.mp sorted
  have words := ScriptWire.isWord_of_wellFormed wellFormed member
  have written := ScriptWire.statements_encoderBody words.2.1
  have held : statements ScriptWire.taken? (ScriptWire.decoderBody m) = some (readings m) :=
    ScriptWire.statements_decoderBody words.2.1 words.2.2
  have fields : fieldsOf (m.fields.flatMap fun field =>
      statementsOf .ofBuiltin (fun _ => ()) field.name field.name field) =
        some (spelled id (fun _ => ()) (wire m)) := by
    rw [spelled_wire]
    exact fieldsOf_flatMap ..
  rw [written, lookup_decodes settings wellFormed member, Option.bind_eq_bind, Option.bind_some,
    Option.bind_eq_bind, Option.bind_some, held, Option.bind_eq_bind, Option.bind_some, fields,
    admits_ofDocument settings wellFormed, hasArrays_ofDocument settings wellFormed, reach, all_resolves,
    decide_eq_true rfl, Bool.true_and]
  rfl

end methods

end ScriptScope

end BinaryCodec.Binding
