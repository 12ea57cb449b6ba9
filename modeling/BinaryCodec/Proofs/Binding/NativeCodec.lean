import BinaryCodec.Proofs.Binding.NativeTypes

namespace BinaryCodec.Binding

open Definition Schema NativeWire

def WireOp.ofMove {τ : Type} (target : String → τ) : Move → WireOp Method τ
  | .call method => .primitive method
  | .message name => .message (target name)
  | .choice _ => .choice

def NativeField.op {τ : Type} (target : String → τ) (field : NativeField) (move : Move) :
    WireOp Method τ :=
  if field.repeated then .counted (.ofMove target move) else .ofMove target move

section fields

variable {τ : Type} (target : String → τ) (field : MessageField)

theorem ofField_writeMethod : WireOp.ofField writeMethod target field =
    (NativeField.ofField field).op target (NativeField.ofField field).write := by
  have item : WireOp.ofType writeMethod target field.type = .ofMove target (writeMove field.type) := by
    cases field.type <;> rfl
  unfold WireOp.ofField NativeField.op
  rw [item]
  rfl

theorem ofField_readMethod : WireOp.ofField readMethod target field =
    (NativeField.ofField field).op target (NativeField.ofField field).read := by
  have item : WireOp.ofType readMethod target field.type = .ofMove target (readMove field.type) := by
    cases field.type <;> rfl
  unfold WireOp.ofField NativeField.op
  rw [item]
  rfl

end fields

/-- What the lines of a module say of the messages and enumerations of a document, where the library is
under `runtime`: the calls that move the fields of a message are those of the steps that it is declared
with, and the types that measure and check them are those of the fields of its record. -/
structure Emits (runtime : String) (doc : Document) (pieces : List Outline) : Prop where
  writes : encoders pieces = doc.messages.map fun m => (typeIdentifier m.name,
    some ((NativeRecord.ofMessage m).fields.map fun field => (field.name, field.op (fun _ => ()) field.write)))
  reads : decoders pieces = doc.messages.map fun m => (typeIdentifier m.name,
    some ((NativeRecord.ofMessage m).fields.map fun field => (field.name, field.op typeIdentifier field.read)))
  checks : NativeWire.checks runtime pieces = doc.messages.map fun m =>
    (typeIdentifier m.name, some (checkedFields m))
  measures : NativeWire.measures runtime pieces =
    (doc.enumerations.map fun e => (typeIdentifier e.name, some .choice)) ++
      doc.messages.map fun m => (typeIdentifier m.name, some (.fields (measuredFields m)))
  leasts : NativeWire.leasts runtime pieces =
    (doc.enumerations.map fun e => (typeIdentifier e.name, some .one)) ++
      doc.messages.map fun m => (typeIdentifier m.name, some (.sum (leastTypes m)))
  structures : NativeWire.structures runtime pieces = doc.messages.map fun m =>
    (typeIdentifier m.name, some (declaredFields m))
  choices : NativeWire.choices runtime pieces = doc.enumerations.map fun e =>
    (typeIdentifier e.name, some (numbered e.values, numbered e.values))
  packs : packings runtime pieces = doc.messages.map fun m =>
    (typeIdentifier m.name, some (doc.hasPragma compressionPragma))
  unpacks : unpackings runtime pieces = doc.messages.map fun m =>
    (typeIdentifier m.name, some (doc.hasPragma compressionPragma))

theorem emits_ofDocument (settings : Settings) {doc : Document} (wellFormed : doc.WellFormed) :
    Emits settings.runtime doc (NativeModule.ofDocument settings doc).pieces := by
  constructor
  · rw [encoders_ofDocument settings wellFormed]
    refine List.map_congr_left fun m _ => ?_
    rw [NativeRecord.ofMessage, List.map_map]
    simp only [ofField_writeMethod]
    rfl
  · rw [decoders_ofDocument settings wellFormed]
    refine List.map_congr_left fun m _ => ?_
    rw [NativeRecord.ofMessage, List.map_map]
    simp only [ofField_readMethod]
    rfl
  · exact checks_ofDocument settings wellFormed
  · exact measures_ofDocument settings wellFormed
  · exact leasts_ofDocument settings wellFormed
  · exact structures_ofDocument settings wellFormed
  · exact choices_ofDocument settings wellFormed
  · exact (packings_ofDocument settings wellFormed).1
  · exact (packings_ofDocument settings wellFormed).2

section messages

variable {zlib : Compression} {doc : Document} {name : String} {v : Value} {packed : List UInt8}

theorem unmarshalMessage_of_marshalMessage
    (inverts : doc.hasPragma compressionPragma = true → zlib.Inverts)
    (marshalled : marshalMessage zlib doc name v = .ok packed) :
    ∃ bytes, marshal (declarations "" doc) (.named name) v = .ok bytes ∧
      unmarshalMessage zlib doc name packed = unmarshal (declarations "" doc) (.named name) bytes := by
  obtain ⟨bytes, written, packs⟩ := bind_eq_ok.mp marshalled
  refine ⟨bytes, written, ?_⟩
  unfold unmarshalMessage
  cases compresses : doc.hasPragma compressionPragma with
  | true =>
    rw [compresses, if_pos rfl] at packs
    rw [if_pos rfl, inverts compresses bytes packed packs]
    rfl
  | false =>
    rw [compresses] at packs
    cases packs
    rfl

theorem unmarshal_marshal (coherent : (declarations "" doc).Coherent) {bytes : List UInt8}
    (holds : Representable (declarations "" doc) (.named name) v)
    (written : marshal (declarations "" doc) (.named name) v = .ok bytes) :
    unmarshal (declarations "" doc) (.named name) bytes = .ok v := by
  have ordered : arrange (declarations "" doc) (.named name) v = v :=
    arrange_of_compiled (compiled_declarations "" coherent) holds.hasType (.named name)
  obtain ⟨after, read, -⟩ := decode_encode coherent holds []
  rw [← eq_bytes_of_marshal written, List.append_nil, ordered] at read
  unfold unmarshal
  rw [read]

/-- Whether the message that is made into bytes is read from them again. -/
def MarshalInverts (zlib : Compression) (doc : Document) (name : String) : Prop :=
  ∀ v packed, Representable (declarations "" doc) (.named name) v →
    marshalMessage zlib doc name v = .ok packed → unmarshalMessage zlib doc name packed = .ok v

theorem marshalInverts (coherent : (declarations "" doc).Coherent)
    (inverts : doc.hasPragma compressionPragma = true → zlib.Inverts) : MarshalInverts zlib doc name := by
  intro v packed holds marshalled
  obtain ⟨bytes, written, unpacked⟩ := unmarshalMessage_of_marshalMessage inverts marshalled
  rw [unpacked]
  exact unmarshal_marshal coherent holds written

end messages

variable {settings : Settings} {source : String} {c : Compilation}

def packedSamples : List (List UInt8 × List UInt8) := [
  ([1, 1, 7, 100], [0x78, 0x9c, 0x63, 0x64, 0x64, 0x4f, 0x01, 0x00, 0x00, 0x7d, 0x00, 0x6e]),
  ([0, 0, 0], [0x78, 0x9c, 0x63, 0x60, 0x60, 0x00, 0x00, 0x00, 0x03, 0x00, 0x01])]

def sampleCompression : Compression where
  compress bytes :=
    match packedSamples.lookup bytes with
    | some packed => .ok packed
    | none => .error (.io ⟨.other, "no sample"⟩)
  decompress packed :=
    match (packedSamples.map Prod.swap).lookup packed with
    | some unpacked => .ok unpacked
    | none => .error (.io ⟨.invalidInput, "corrupt deflate stream"⟩)

theorem inverts_sampleCompression : sampleCompression.Inverts := by
  have samples : ∀ sample ∈ packedSamples, sampleCompression.decompress sample.2 = .ok sample.1 := by
    decide +kernel
  intro bytes packed packs
  simp only [sampleCompression] at packs
  split at packs
  · next found =>
    cases packs
    obtain ⟨front, back, split, -⟩ := List.lookup_eq_some_iff.mp found
    refine samples (bytes, packed) ?_
    rw [split]
    exact List.mem_append_right _ (List.mem_cons_self ..)
  · cases packs

end BinaryCodec.Binding
