import BinaryCodec.Binding.Compilation
import BinaryCodec.Proofs.Binding.Coherence
import BinaryCodec.Proofs.Definition.WellFormed
import BinaryCodec.Proofs.Schema.Restating
import BinaryCodec.Proofs.Schema.RoundTrip

namespace BinaryCodec.Binding

open Definition Schema

def recordFields (m : Message) : List Field :=
  (NativeRecord.ofMessage m).fields.map fun field => ⟨field.name, field.wireType.schema, none⟩

def declareRecord (path : String) (m : Message) : String × Declaration :=
  (m.name, ⟨path ++ typeIdentifier m.name, .record (recordFields m)⟩)

def recordDeclarations (path : String) (doc : Document) : Registry :=
  doc.messages.map (declareRecord path) ++ doc.enumerations.map (declareEnumeration path)

section records

variable {doc : Document} {path : String}

theorem schema_repeatedIf (repeated : Bool) (type : NativeType) :
    (NativeType.repeatedIf repeated type).schema =
      if repeated then .sequence .vector type.schema else type.schema := by
  cases repeated <;> rfl

theorem structural_declarations (path : String) (doc : Document) :
    (declarations path doc).structural = recordDeclarations path doc := by
  have fields (m : Message) :
      ((NativeRecord.ofMessage m).fields.map NativeField.step).map Step.toField = recordFields m := by
    rw [List.map_map]
    apply List.map_congr_left
    intro field _
    change Field.mk field.name (if field.repeated then .sequence .vector field.wire.schema
      else field.wire.schema) none = ⟨field.name, field.wireType.schema, none⟩
    rw [NativeField.wireType, schema_repeatedIf]
  unfold Registry.structural declarations recordDeclarations
  rw [List.map_append, List.map_map, List.map_map]
  congr 1
  apply List.map_congr_left
  intro m _
  change (m.name, Declaration.mk _ (.record (List.map Step.toField _))) = declareRecord path m
  rw [fields]
  rfl

theorem compiled_declarations (path : String) (coherent : (declarations path doc).Coherent) :
    (declarations path doc).Compiled := by
  refine ⟨coherent, ?_⟩
  intro name shape declared
  rcases declared_of_shape? declared with ⟨m, -, -, rfl⟩ | ⟨e, -, -, rfl⟩
  · exact .inl ⟨_, rfl⟩
  · exact .inr ⟨_, rfl⟩

theorem shape?_recordDeclarations (distinct : doc.typeNames.Nodup) {m : Message}
    (member : m ∈ doc.messages) :
    (recordDeclarations path doc).shape? m.name = some (.record (recordFields m)) := by
  have names : (doc.messages.map Message.name).Nodup := (List.nodup_append.mp distinct).1
  have labels : ∀ m : Message, (declareRecord path m).1 = m.name := fun _ => rfl
  have found : (recordDeclarations path doc).lookup m.name = some (declareRecord path m).2 :=
    lookup_of_nodup labels names member
  rw [Registry.shape?, found]
  rfl

end records

section arrange

inductive Moved : Schema → Prop
  | leaf {schema : Schema} (leaf : schema.isLeaf = true) : Moved schema
  | named (name : String) : Moved (.named name)
  | vector {item : Schema} (moved : Moved item) : Moved (.sequence .vector item)

theorem moved_schema (move : Move) : Moved move.schema := by
  cases move with
  | call method =>
    cases method with
    | limitedBytes => exact .vector (.leaf rfl)
    | _ => exact .leaf rfl
  | message name | choice name => exact .named name

theorem moved_step {registry : Registry} {step : Step} (coherent : step.Coherent registry) :
    Moved step.schema := by
  have item : Moved step.item := coherent.read_schema ▸ moved_schema step.read
  unfold Step.schema
  split
  · exact .vector item
  · exact item

theorem arrange_of_compiled {registry : Registry} (compiled : registry.Compiled) {schema : Schema}
    {v : Value} (typed : HasType registry schema v) (moved : Moved schema) :
    arrange registry schema v = v := by
  induction typed with
  | leaf leaf holds => exact arrange_leaf leaf _
  | sequence bounded each ih =>
    cases moved with
    | leaf leaf => cases leaf
    | vector item =>
      rw [arrange_sequence, List.map_congr_left (g := id) fun v member => ih v member item,
        List.map_id]
  | record declared found paired skipped each ih =>
    rw [arrange_record declared found paired, zipWith_of_same paired]
    intro p member
    rcases compiled.shapes _ _ declared with message | plain
    · obtain ⟨steps, rfl⟩ := message
      cases found
      obtain ⟨step, among, same⟩ := List.mem_map.mp (List.of_mem_zip member).1
      have wired : p.1.skipped = none := by rw [← same]; rfl
      have schema : Moved p.1.schema := by
        rw [← same]
        exact moved_step (compiled.coherent _ steps declared step among)
      unfold arrangeField
      rw [wired]
      exact ih p member wired schema
    · obtain ⟨names, rfl⟩ := plain
      cases found
  | variant declared found bounded paired skipped each ih =>
    rcases compiled.shapes _ _ declared with message | plain
    · obtain ⟨steps, same⟩ := message
      cases same
    · obtain ⟨names, same⟩ := plain
      cases same
  | choice declared found bounded => exact arrange_choice declared ..
  | array | set | map | pointer | absent | present | tuple =>
    cases moved with
    | leaf leaf => cases leaf

end arrange

section compiled

/-- What the statements of message `m` do is what the structural codec does for the record of its fields:
the same bytes or the same failure, as many bytes as were measured unless their number cannot be told, the
same least size, and, where the store tells how many bytes are left, the same answers from the same
bytes. -/
structure CodesRecord (path : String) (doc : Document) (m : Message) : Prop where
  restated : (recordDeclarations path doc).shape? m.name = some (.record (recordFields m))
  writes (v : Value) (typed : HasType (declarations path doc) (.named m.name) v) :
    (encode (declarations path doc) (.named m.name) v).Same
      (encode (recordDeclarations path doc) (.named m.name) v)
  writesTo (v : Value) (typed : HasType (declarations path doc) (.named m.name) v) (b : Buffer)
    (accepts : b.Accepts) :
    Buffer.writeOutput (encode (declarations path doc) (.named m.name) v) b =
      Buffer.writeOutput (encode (recordDeclarations path doc) (.named m.name) v) b
  measures (v : Value) (typed : HasType (declarations path doc) (.named m.name) v)
    (succeeds : (encode (declarations path doc) (.named m.name) v).error = none) :
    encodedSize (declarations path doc) (.named m.name) v =
        .ok (encode (declarations path doc) (.named m.name) v).bytes.length ∨
      encodedSize (declarations path doc) (.named m.name) v = .error .sizeOverflow ∧
        maxSize < (encode (declarations path doc) (.named m.name) v).bytes.length
  measured (v : Value) (typed : HasType (declarations path doc) (.named m.name) v) (n : Nat)
    (size : encodedSize (declarations path doc) (.named m.name) v = .ok n) :
    (encode (declarations path doc) (.named m.name) v).error = none ∧
      (encode (declarations path doc) (.named m.name) v).bytes.length = n
  least : minSize (declarations path doc) (.named m.name) =
    minSize (recordDeclarations path doc) (.named m.name)
  reads (b after : Buffer) (v : Value) (known : b.store.available = some b.store.unread) :
    decode (declarations path doc) (.named m.name) b = .ok v after ↔
      decode (recordDeclarations path doc) (.named m.name) b = .ok v after

variable {settings : Settings} {source : String} {c : Compilation}

theorem parse_of_ofSource (compiled : Compilation.ofSource settings source = .ok c) :
    Document.parse settings.package source = .ok c.document := by
  obtain ⟨doc, parsed, made⟩ := bind_eq_ok.mp compiled
  cases made
  exact parsed

theorem native_of_ofSource (compiled : Compilation.ofSource settings source = .ok c) :
    c.native = (NativeModule.ofDocument settings c.document).text := by
  obtain ⟨doc, -, made⟩ := bind_eq_ok.mp compiled
  cases made
  rfl

theorem script_of_ofSource (compiled : Compilation.ofSource settings source = .ok c) :
    c.script = (ScriptModule.ofDocument settings c.document).text := by
  obtain ⟨doc, -, made⟩ := bind_eq_ok.mp compiled
  cases made
  rfl

theorem coherent_of_ofSource (compiled : Compilation.ofSource settings source = .ok c)
    (path : String) : (declarations path c.document).Coherent := by
  obtain ⟨draft, -, resolved⟩ := bind_eq_ok.mp (parse_of_ofSource compiled)
  exact coherent_declarations path resolved

theorem codesRecord {doc : Document} {path : String} (coherent : (declarations path doc).Coherent)
    (distinct : doc.typeNames.Nodup) {m : Message} (member : m ∈ doc.messages) :
    CodesRecord path doc m := by
  have compiled := compiled_declarations path coherent
  have same : ∀ v, HasType (declarations path doc) (.named m.name) v →
      (encode (declarations path doc) (.named m.name) v).Same
        (encode (recordDeclarations path doc) (.named m.name) v) := by
    intro v typed
    rw [← structural_declarations]
    exact same_encode_structural coherent typed
  constructor
  · exact shape?_recordDeclarations distinct member
  · exact same
  · intro v typed b accepts
    obtain ⟨bytes, error⟩ := same v typed
    rw [Buffer.writeOutput_eq accepts, Buffer.writeOutput_eq accepts, bytes, error]
  · intro v typed succeeds
    exact encodedSize_of_encode coherent typed succeeds
  · intro v typed n size
    exact encode_of_encodedSize coherent typed size
  · rw [← structural_declarations, minSize_structural]
  · intro b after v known
    rw [← structural_declarations]
    exact decode_structural compiled m.name known

def dotSource : String :=
  "use zlib-compress enum Hue\x7bred blue\x7d
struct Dot\x7bHue hue uint8 raw[] Tag tag\x7d
struct Tag\x7bdate at\x7d"

def dotMessage : Message :=
  ⟨"Dot", [⟨"hue", .enumeration "Hue", false, ⟨2, 12⟩⟩, ⟨"raw", .builtin .uint8, true, ⟨2, 20⟩⟩,
    ⟨"tag", .message "Tag", false, ⟨2, 32⟩⟩], ⟨2, 8⟩⟩

def dotDocument : Document where
  package := "paint"
  pragmas := [compressionPragma]
  messages := [dotMessage, ⟨"Tag", [⟨"at", .builtin .date, false, ⟨3, 12⟩⟩], ⟨3, 8⟩⟩]
  enumerations := [⟨"Hue", [⟨"red", 0⟩, ⟨"blue", 1⟩]⟩]
  services := []

/-- A blue dot with one byte, and a tenth of a second after the epoch. -/
def dot : Value := .record [.variant 1 [], .list [.int 7], .record [.instant ⟨0, 100000000⟩]]

theorem ofSource_dotSource : ∃ native script,
    Compilation.ofSource (.ofPackage "paint") dotSource = .ok ⟨dotDocument, native, script⟩ := by
  have parsed : Document.ofTokens "paint" (tokens dotSource) = .ok dotDocument := by decide +kernel
  refine ⟨_, _, bind_eq_ok.mpr ⟨dotDocument, parsed, rfl⟩⟩

theorem representable_message {registry : Registry} {name : String} {steps : List Step}
    {values : List Value} (declared : registry.shape? name = some (.message steps))
    (paired : steps.length = values.length)
    (each : ∀ p ∈ steps.zip values, Representable registry p.1.schema p.2) :
    Representable registry (.named name) (.record values) := by
  have zipped : (steps.map Step.toField).zip values =
      (steps.zip values).map fun p => (p.1.toField, p.2) := by
    rw [List.zip_map_left]
    rfl
  refine .record declared rfl ((List.length_map _).trans paired) ?_ ?_
  · rw [zipped]
    refine List.forall_mem_map.mpr fun p member given wired => ?_
    cases wired
  · rw [zipped]
    exact List.forall_mem_map.mpr fun p member _ => each p member

theorem representable_dot : Representable (declarations "" dotDocument) (.named "Dot") dot := by
  have hue : Representable (declarations "" dotDocument) (.named "Hue") (.variant 1 []) :=
    .choice (show (declarations "" dotDocument).shape? "Hue" = some (.choices _) from rfl)
      (by decide) (by decide)
  have raw : Representable (declarations "" dotDocument) (.sequence .vector (.integer .u8))
      (.list [.int 7]) := by
    refine .sequence (by decide) ?_
    simp only [List.forall_mem_singleton]
    exact .leaf rfl ⟨7, rfl, by decide⟩
  have tag : Representable (declarations "" dotDocument) (.named "Tag")
      (.record [.instant ⟨0, 100000000⟩]) := by
    refine representable_message
      (show (declarations "" dotDocument).shape? "Tag" = some (.message _) from rfl) rfl ?_
    simp only [NativeRecord.ofMessage, List.map_cons, List.map_nil, List.zip_cons_cons,
      List.zip_nil_right, List.forall_mem_cons]
    exact ⟨.leaf rfl ⟨⟨0, 100000000⟩, rfl, by decide, by decide, by decide, by decide⟩, by simp⟩
  refine representable_message
    (show (declarations "" dotDocument).shape? "Dot" = some (.message _) from rfl) rfl ?_
  simp only [dotMessage, NativeRecord.ofMessage, List.map_cons, List.map_nil, List.zip_cons_cons,
    List.zip_nil_right, List.forall_mem_cons]
  exact ⟨hue, raw, tag, by simp⟩

end compiled

end BinaryCodec.Binding
