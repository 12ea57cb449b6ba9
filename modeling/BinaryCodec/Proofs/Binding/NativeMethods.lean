import BinaryCodec.Proofs.Binding.NativeLines

namespace BinaryCodec.Binding

open Definition Form

namespace NativeWire

def entries? : List Outline → Option (List Outline)
  | [.block "Ok(Self" entries ")"] => some entries
  | [.line "let _ = buf;", .block "Ok(Self" entries ")"] => some entries
  | _ => none

def implRules : List (Rule String) := [⟨[.text "impl ", .word], List.head?⟩]

def methodRules : List (Rule String) :=
  [⟨[.text "pub fn ", .word, .text "(", .rest], List.head?⟩]

def body? (name : String) : Outline → Option (List Outline)
  | .line _ => none
  | .block head body _ => if readLine methodRules head = some name then some body else none

def methodsIn (name : String) : Outline → List (String × List Outline)
  | .line _ => []
  | .block head body _ =>
    match readLine implRules head with
    | none => []
    | some type => (body.filterMap (body? name)).map fun body => (type, body)

def methods (name : String) (pieces : List Outline) : List (String × List Outline) :=
  pieces.flatMap (methodsIn name)

/-- For each type with a method that writes, what it puts on the wire. -/
def encoders (pieces : List Outline) :
    List (String × Option (List (String × WireOp Method Unit))) :=
  (methods "encode_into" pieces).map fun m => (m.1, statements written? m.2 >>= fieldsOf)

/-- For each type with a method that reads, what it takes from the wire. -/
def decoders (pieces : List Outline) :
    List (String × Option (List (String × WireOp Method String))) :=
  (methods "decode_from" pieces).map fun m => (m.1, entries? m.2 >>= List.mapM taken?)

def kinds {τ : Type} (found : List (String × Option (List (String × WireOp Method τ)))) :
    List (String × Option (List (String × WireOp WireKind τ))) :=
  found.map fun m => (m.1, m.2.map (List.map fun field => (field.1, field.2.map .ofMethod id)))

section methods

variable {field : MessageField} {runtime : String}

theorem writing_single (single : field.isArray = false) :
    (NativeField.ofField field).writing =
      [.line (writeStatement (.field (fieldIdentifier field.name)) (writeMove field.type))] := by
  rw [NativeField.writing, NativeField.ofField, single]
  rfl

theorem writing_array (array : field.isArray = true) :
    (NativeField.ofField field).writing =
      [.line ("buf.write_uvarint(self." ++ fieldIdentifier field.name ++ ".len() as u64)?;"),
        .block ("for item in &self." ++ fieldIdentifier field.name)
          [.line (writeStatement .item (writeMove field.type))] ""] := by
  rw [NativeField.writing, NativeField.ofField, array]
  rfl

theorem reading_single (single : field.isArray = false) :
    (NativeField.ofField field).reading runtime =
      .line (fieldIdentifier field.name ++ ": " ++ readExpression (readMove field.type) ++ ",") := by
  rw [NativeField.reading, NativeField.ofField, single]
  rfl

theorem reading_array (array : field.isArray = true) :
    (NativeField.ofField field).reading runtime =
      .block (fieldIdentifier field.name ++ ":") [
        .line ("let len = buf.read_length(<" ++ (NativeType.wireOf field.type).text runtime ++
          " as " ++ runtime ++ "::Decode>::MIN_SIZE)?;"),
        .line ("let mut items = ::std::vec::Vec::with_capacity(buf.limits().capacity_for::<" ++
          (NativeType.ofField field.type).text runtime ++ ">(len));"),
        .block "for _ in 0..len"
          [.line ("items.push(" ++ readExpression (readMove field.type) ++ ");")] "",
        .line "items"] "," := by
  rw [NativeField.reading, NativeField.ofField, array]
  rfl

theorem written_line (text : String) : written? (.line text) = readLine lineRules text := rfl

theorem written_loop (head statement tail : String) :
    written? (.block head [.line statement] tail) = (readLine loopRules head).bind fun name =>
      (readLine itemRules statement).bind fun op => some [.loop name name op] := rfl

theorem statements_writing (named : IsWord (fieldIdentifier field.name)) :
    statements written? (NativeField.ofField field).writing =
      some (statementsOf writeMethod (fun _ => ()) (fieldIdentifier field.name) (fieldIdentifier field.name)
        field) := by
  unfold statementsOf
  cases array : field.isArray with
  | false =>
    rw [writing_single array]
    exact statements_singleton (readLine_writeStatement_field named field.type)
  | true =>
    have uvarint := isWord_uvarint
    have line : ("buf.write_uvarint(self." ++ fieldIdentifier field.name ++
        ".len() as u64)?;").toList = joined ["buf.write_", "uvarint", "(", "self.",
          fieldIdentifier field.name, ".len() as u64)?;"] := by
      simp [joined]
    have count : written? (.line ("buf.write_uvarint(self." ++ fieldIdentifier field.name ++
        ".len() as u64)?;")) = some [.count (fieldIdentifier field.name)] := by
      simp (disch := first | assumption | decide)
        [written_line, line, lineRules, writeRules, numberOf_uvarint]
    have head : ("for item in &self." ++ fieldIdentifier field.name).toList =
        joined ["for item in &self.", fieldIdentifier field.name] := by
      simp [joined]
    have ranges : readLine loopRules ("for item in &self." ++ fieldIdentifier field.name) =
        some (fieldIdentifier field.name) := by
      simp (disch := first | assumption | decide) [head, loopRules]
    have loop : written? (.block ("for item in &self." ++ fieldIdentifier field.name)
        [.line (writeStatement .item (writeMove field.type))] "") = some [.loop
          (fieldIdentifier field.name) (fieldIdentifier field.name) (.ofType writeMethod (fun _ => ()) field.type)] := by
      rw [written_loop, ranges, readLine_writeStatement_item]
      rfl
    have both := statements_cons count (statements_singleton loop)
    rw [writing_array array, both]
    rfl

theorem taken_block (head length room loop push last before after : String) :
    taken? (.block head [.line length, .line room, .block loop [.line push] before, .line last]
      after) = (readLine nameRules head).bind fun name => (readLine pushRules push).bind fun op =>
        (readLine lengthRules length).bind fun _ =>
          if loop = "for _ in 0..len" ∧ last = "items" then some (name, .counted op) else none := rfl

theorem readLine_nameRules {name : String} (plain : IsWord name) :
    readLine nameRules (name ++ ":") = some name := by
  have head : (name ++ ":").toList = joined [name, ":"] := by simp [joined]
  simp (disch := first | assumption | decide) [head, nameRules]

theorem taken_reading (named : IsWord (fieldIdentifier field.name)) (target : Named field.type) :
    taken? ((NativeField.ofField field).reading runtime) =
      some (fieldIdentifier field.name, .ofField readMethod typeIdentifier field) := by
  unfold WireOp.ofField
  cases array : field.isArray with
  | false =>
    rw [reading_single array]
    exact readLine_readExpression_field named target
  | true =>
    have line : ("let len = buf.read_length(<" ++ (NativeType.wireOf field.type).text runtime ++
        " as " ++ runtime ++ "::Decode>::MIN_SIZE)?;").toList =
          joined ["let len = buf.read_length(", "<", (NativeType.wireOf field.type).text runtime,
            " as ", runtime, "::Decode>::MIN_SIZE)?;"] := by
      simp [joined]
    have length : readLine lengthRules ("let len = buf.read_length(<" ++
        (NativeType.wireOf field.type).text runtime ++ " as " ++ runtime ++
        "::Decode>::MIN_SIZE)?;") = some () := by
      simp [line, lengthRules]
    rw [reading_array array, taken_block, readLine_nameRules named, readLine_readExpression_item target, length]
    rfl

theorem readLine_idle : written? (.line "let _ = buf;") = some [] ∧
    written? (.line "Ok(())") = some [] := by
  have first : "let _ = buf;".toList = joined ["let _ = buf;"] := by simp [joined]
  have last : "Ok(())".toList = joined ["Ok(())"] := by simp [joined]
  constructor
  · simp (disch := decide) [written_line, first, lineRules, writeRules]
  · simp (disch := decide) [written_line, last, lineRules, writeRules]

theorem statements_unusedBuffer (fields : List NativeField) :
    statements written? (unusedBuffer fields) = some [] := by
  unfold unusedBuffer
  split
  · exact statements_singleton readLine_idle.1
  · rfl

end methods

section records

variable {m : Message} {runtime : String}

def encoderBody (m : Message) : List Outline :=
  unusedBuffer (NativeRecord.ofMessage m).fields ++
    (NativeRecord.ofMessage m).fields.flatMap NativeField.writing ++ [.line "Ok(())"]

def decoderBody (runtime : String) (m : Message) : List Outline :=
  unusedBuffer (NativeRecord.ofMessage m).fields ++
    [.block "Ok(Self" ((NativeRecord.ofMessage m).fields.map (NativeField.reading runtime)) ")"]

theorem fieldsOf_encoderBody (named : ∀ field ∈ m.fields, IsWord (fieldIdentifier field.name)) :
    (statements written? (encoderBody m) >>= fieldsOf) =
      some (m.fields.map fun field =>
        (fieldIdentifier field.name, .ofField writeMethod (fun _ => ()) field)) := by
  have writes : statements written?
      (m.fields.flatMap fun field => (NativeField.ofField field).writing) =
        some (m.fields.flatMap fun field => statementsOf writeMethod (fun _ => ()) (fieldIdentifier field.name)
          (fieldIdentifier field.name) field) :=
    statements_flatMap fun field member => statements_writing (named field member)
  have all := statements_append (statements_append
    (statements_unusedBuffer (NativeRecord.ofMessage m).fields) writes)
    (statements_singleton readLine_idle.2)
  have fields : (NativeRecord.ofMessage m).fields.flatMap NativeField.writing =
      m.fields.flatMap fun field => (NativeField.ofField field).writing := List.flatMap_map ..
  rw [List.nil_append, List.append_nil] at all
  rw [encoderBody, fields, all]
  exact fieldsOf_flatMap _ _ _ _ m.fields

theorem entries_decoderBody (runtime : String) (m : Message) : entries? (decoderBody runtime m) =
    some ((NativeRecord.ofMessage m).fields.map (NativeField.reading runtime)) := by
  unfold decoderBody unusedBuffer
  split <;> rfl

theorem taken_decoderBody (named : ∀ field ∈ m.fields, IsWord (fieldIdentifier field.name))
    (targets : ∀ field ∈ m.fields, Named field.type) :
    (entries? (decoderBody runtime m) >>= List.mapM taken?) =
      some (m.fields.map fun field =>
        (fieldIdentifier field.name, .ofField readMethod typeIdentifier field)) := by
  have fields : (NativeRecord.ofMessage m).fields.map (NativeField.reading runtime) =
      m.fields.map fun field => (NativeField.ofField field).reading runtime := List.map_map ..
  rw [entries_decoderBody, fields]
  change List.mapM taken? _ = _
  rw [List.mapM_map]
  exact mapM_eq_some fun field member => taken_reading (named field member) (targets field member)

variable {name : String} {rest : List Outline}

theorem methods_nil : methods name [] = [] := rfl

theorem methods_line (text : String) : methods name (.line text :: rest) = methods name rest := rfl

theorem methods_other {head tail : String} {body : List Outline} (other : readLine implRules head = none) :
    methods name (.block head body tail :: rest) = methods name rest := by
  rw [methods, List.flatMap_cons, methodsIn, other]
  rfl

theorem methods_impl {head tail type : String} {body : List Outline}
    (found : readLine implRules head = some type) :
    methods name (.block head body tail :: rest) =
      (body.filterMap (body? name)).map (fun body => (type, body)) ++ methods name rest := by
  rw [methods, List.flatMap_cons, methodsIn, found]
  rfl

theorem readLine_implRules_other {head : String} (t : String) (parts : List String)
    (line : head.toList = joined (t :: parts))
    (differ : ("impl ".toList.zip t.toList).all (fun p => p.1 == p.2) = false) :
    readLine implRules head = none := by
  simp (disch := assumption) [line, implRules]

theorem readLine_implRules_path {head : String} (parts : List String)
    (line : head.toList = joined ("impl " :: parts)) (colon : ':' ∈ joined parts) :
    readLine implRules head = none := by
  have path : words? [.word] (joined parts) = none := words?_word_other colon (by decide)
  simp [line, implRules, path]

theorem readLine_methodRules {head word : String} (plain : IsWord word) (parts : List String)
    (line : head.toList = joined ("pub fn " :: word :: "(" :: parts)) :
    readLine methodRules head = some word := by
  simp (disch := first | assumption | decide) [line, methodRules]

variable {compressed : Bool} (plain : IsWord (typeIdentifier m.name))
include plain

theorem methods_record :
    methods "encode_into" ((NativeRecord.ofMessage m).outline runtime compressed) =
        [(typeIdentifier m.name, encoderBody m)] ∧
      methods "decode_from" ((NativeRecord.ofMessage m).outline runtime compressed) =
        [(typeIdentifier m.name, decoderBody runtime m)] ∧
      methods "marshal" ((NativeRecord.ofMessage m).outline runtime compressed) =
        [(typeIdentifier m.name, NativeRecord.marshalBody runtime compressed)] ∧
      methods "unmarshal" ((NativeRecord.ofMessage m).outline runtime compressed) =
        [(typeIdentifier m.name, NativeRecord.unmarshalBody runtime compressed)] := by
  have structure_ : readLine implRules ("pub struct " ++ typeIdentifier m.name) = none :=
    readLine_implRules_other "pub struct " [typeIdentifier m.name] (by simp [joined]) (by decide)
  have impl : readLine implRules ("impl " ++ typeIdentifier m.name) = some (typeIdentifier m.name) := by
    have line : ("impl " ++ typeIdentifier m.name).toList = joined ["impl ", typeIdentifier m.name] := by
      simp [joined]
    simp (disch := assumption) [line, implRules]
  have encodes : readLine implRules ("impl " ++ runtime ++ "::Encode for " ++ typeIdentifier m.name) = none :=
    readLine_implRules_path [runtime, "::Encode for ", typeIdentifier m.name] (by simp [joined])
      (by simp [joined])
  have decodes : readLine implRules ("impl " ++ runtime ++ "::Decode for " ++ typeIdentifier m.name) = none :=
    readLine_implRules_path [runtime, "::Decode for ", typeIdentifier m.name] (by simp [joined])
      (by simp [joined])
  have words : ∀ word ∈ ["marshal", "unmarshal", "encode_into", "decode_from"], IsWord word := by decide
  have marshal : readLine methodRules ("pub fn marshal(&self) -> " ++ runtime ++
      "::Result<::std::vec::Vec<u8>>") = some "marshal" :=
    readLine_methodRules (words _ (by decide)) ["&self) -> ", runtime, "::Result<::std::vec::Vec<u8>>"]
      (by simp [joined])
  have unmarshal : readLine methodRules ("pub fn unmarshal(bytes: &[u8]) -> " ++ runtime ++
      "::Result<Self>") = some "unmarshal" :=
    readLine_methodRules (words _ (by decide)) ["bytes: &[u8]) -> ", runtime, "::Result<Self>"]
      (by simp [joined])
  have encode : readLine methodRules ("pub fn encode_into(&self, buf: &mut " ++ runtime ++
      "::Buffer<'_>) -> " ++ runtime ++ "::Result<()>") = some "encode_into" :=
    readLine_methodRules (words _ (by decide))
      ["&self, buf: &mut ", runtime, "::Buffer<'_>) -> ", runtime, "::Result<()>"] (by simp [joined])
  have decode : readLine methodRules ("pub fn decode_from(buf: &mut " ++ runtime ++
      "::Buffer<'_>) -> " ++ runtime ++ "::Result<Self>") = some "decode_from" :=
    readLine_methodRules (words _ (by decide))
      ["buf: &mut ", runtime, "::Buffer<'_>) -> ", runtime, "::Result<Self>"] (by simp [joined])
  have name : (NativeRecord.ofMessage m).name = typeIdentifier m.name := rfl
  simp only [NativeRecord.outline, Outline.blank, name, methods_nil, methods_line,
    methods_other structure_, methods_impl impl, methods_other encodes, methods_other decodes,
    List.append_nil]
  simp [List.filterMap_cons, body?, marshal, unmarshal, encode, decode, encoderBody, decoderBody]

end records

section modules

variable {name : String}

theorem methods_enumeration (runtime : String) (e : NativeEnumeration) :
    methods name (e.outline runtime) = [] := by
  have enum : readLine implRules ("pub enum " ++ e.name) = none :=
    readLine_implRules_other "pub enum " [e.name] (by simp [joined]) (by decide)
  have into : readLine implRules ("impl ::core::convert::From<" ++ e.name ++ "> for u64") = none :=
    readLine_implRules_path ["::core::convert::From<", e.name, "> for u64"] (by simp [joined])
      (by simp [joined])
  have out : readLine implRules ("impl ::core::convert::TryFrom<u64> for " ++ e.name) = none :=
    readLine_implRules_path ["::core::convert::TryFrom<u64> for ", e.name] (by simp [joined])
      (by simp [joined])
  have encodes : readLine implRules ("impl " ++ runtime ++ "::Encode for " ++ e.name) = none :=
    readLine_implRules_path [runtime, "::Encode for ", e.name] (by simp [joined]) (by simp [joined])
  have decodes : readLine implRules ("impl " ++ runtime ++ "::Decode for " ++ e.name) = none :=
    readLine_implRules_path [runtime, "::Decode for ", e.name] (by simp [joined]) (by simp [joined])
  simp only [NativeEnumeration.outline, Outline.blank, methods_nil, methods_line, methods_other enum,
    methods_other into, methods_other out, methods_other encodes, methods_other decodes]

theorem methods_trait (t : NativeTrait) : methods name t.outline = [] := by
  have trait : readLine implRules ("pub trait " ++ t.name) = none :=
    readLine_implRules_other "pub trait " [t.name] (by simp [joined]) (by decide)
  simp only [NativeTrait.outline, Outline.blank, methods_nil, methods_line, methods_other trait]

end modules

end NativeWire

def NativeModule.pieces (m : NativeModule) : List Outline :=
  [.line (banner m.package), Outline.blank] ++
    m.enumerations.flatMap (NativeEnumeration.outline m.runtime) ++
    m.records.flatMap (NativeRecord.outline m.runtime m.compressed) ++
    m.traits.flatMap NativeTrait.outline

theorem NativeModule.text_eq (m : NativeModule) : m.text = Outline.text 4 m.pieces := rfl

namespace NativeWire

variable {doc : Document} (settings : Settings)

theorem methods_pieces (m : NativeModule) (name : String) :
    methods name m.pieces = m.records.flatMap fun record =>
      methods name (record.outline m.runtime m.compressed) := by
  have enumerations : methods name (m.enumerations.flatMap (NativeEnumeration.outline m.runtime)) =
      [] := by
    rw [methods, List.flatMap_assoc, List.flatMap_eq_nil_iff]
    exact fun e _ => methods_enumeration m.runtime e
  have traits : methods name (m.traits.flatMap NativeTrait.outline) = [] := by
    rw [methods, List.flatMap_assoc, List.flatMap_eq_nil_iff]
    exact fun t _ => methods_trait t
  have records : methods name (m.records.flatMap (NativeRecord.outline m.runtime m.compressed)) =
      m.records.flatMap fun record => methods name (record.outline m.runtime m.compressed) :=
    List.flatMap_assoc ..
  have append (front back : List Outline) :
      methods name (front ++ back) = methods name front ++ methods name back := List.flatMap_append ..
  rw [NativeModule.pieces, append, append, append, enumerations, records, traits, List.append_nil,
    List.append_nil]
  rfl

theorem isWord_of_wellFormed (wellFormed : doc.WellFormed) {m : Message} (member : m ∈ doc.messages) :
    IsWord (typeIdentifier m.name) ∧ (∀ field ∈ m.fields, IsWord (fieldIdentifier field.name)) ∧
      ∀ field ∈ m.fields, Named field.type := by
  have type (name : String) (declared : name ∈ doc.typeNames) : IsWord (typeIdentifier name) :=
    isWord_typeIdentifier (wellFormed.typesNamed name declared)
  have message := wellFormed.messages m member
  refine ⟨type m.name (List.mem_append_left _ (List.mem_map_of_mem member)),
    fun field among => isWord_fieldIdentifier (message.named field among), ?_⟩
  intro field among name refers
  have resolved := message.resolved field among
  rcases refers with same | same <;> rw [same] at resolved
  · exact type name (List.mem_append_left _ resolved)
  · exact type name (List.mem_append_right _ resolved.2)

variable {name : String} {body : Message → List Outline}

theorem methods_ofDocument (each : ∀ m ∈ doc.messages, methods name
      ((NativeRecord.ofMessage m).outline settings.runtime (doc.hasPragma compressionPragma)) =
        [(typeIdentifier m.name, body m)]) :
    methods name (NativeModule.ofDocument settings doc).pieces =
      doc.messages.map fun m => (typeIdentifier m.name, body m) := by
  have whole := List.flatMap_congr each
  rw [methods_pieces, NativeModule.ofDocument, List.flatMap_map, whole]
  exact List.flatMap_pure_eq_map ..

theorem encoders_ofDocument (wellFormed : doc.WellFormed) :
    encoders (NativeModule.ofDocument settings doc).pieces = doc.messages.map fun m =>
      (typeIdentifier m.name, some (m.fields.map fun field =>
        (fieldIdentifier field.name, .ofField writeMethod (fun _ => ()) field))) := by
  have found : methods "encode_into" (NativeModule.ofDocument settings doc).pieces =
      doc.messages.map fun m => (typeIdentifier m.name, encoderBody m) :=
    methods_ofDocument settings fun m member =>
      (methods_record (isWord_of_wellFormed wellFormed member).1).1
  rw [encoders, found, List.map_map]
  apply List.map_congr_left
  intro m member
  exact congrArg (Prod.mk _) (fieldsOf_encoderBody (isWord_of_wellFormed wellFormed member).2.1)

theorem decoders_ofDocument (wellFormed : doc.WellFormed) :
    decoders (NativeModule.ofDocument settings doc).pieces = doc.messages.map fun m =>
      (typeIdentifier m.name, some (m.fields.map fun field =>
        (fieldIdentifier field.name, .ofField readMethod typeIdentifier field))) := by
  have found : methods "decode_from" (NativeModule.ofDocument settings doc).pieces =
      doc.messages.map fun m => (typeIdentifier m.name, decoderBody settings.runtime m) :=
    methods_ofDocument settings fun m member =>
      (methods_record (isWord_of_wellFormed wellFormed member).1).2.1
  rw [decoders, found, List.map_map]
  apply List.map_congr_left
  intro m member
  have words := isWord_of_wellFormed wellFormed member
  exact congrArg (Prod.mk _) (taken_decoderBody words.2.1 words.2.2)

theorem ofMethod_writeMethod (type : Builtin) : WireKind.ofMethod (writeMethod type) = .ofBuiltin type := by
  cases type <;> rfl

theorem ofMethod_readMethod (type : Builtin) : WireKind.ofMethod (readMethod type) = .ofBuiltin type := by
  cases type <;> rfl

theorem kinds_map {τ : Type} {method : Builtin → Method} (target : String → τ)
    (kind : ∀ type, WireKind.ofMethod (method type) = .ofBuiltin type) (messages : List Message) :
    kinds (messages.map fun m => (typeIdentifier m.name, some (m.fields.map fun field =>
      (fieldIdentifier field.name, .ofField method target field)))) =
        messages.map fun m => (typeIdentifier m.name, some (spelled fieldIdentifier target (wire m))) := by
  rw [kinds, List.map_map]
  refine List.map_congr_left fun m _ => ?_
  rw [spelled_wire, Function.comp_apply, Option.map_some, List.map_map]
  simp only [Function.comp_def, WireOp.map_ofField, kind, id]

end NativeWire

end BinaryCodec.Binding
