import BinaryCodec.Proofs.Binding.CallDepth
import BinaryCodec.Proofs.Binding.NativeCodec
import BinaryCodec.Proofs.Schema.LeastSize
import Mathlib.Algebra.GroupWithZero.Nat

namespace BinaryCodec.Binding

open Definition Relation Schema

variable {doc : Document} {path : String}

theorem takesLeast_builtin (coherent : (declarations path doc).Coherent) (depth : Nat) (type : Builtin) :
    TakesLeast (declarations path doc) depth (NativeType.wireOf (.builtin type)).schema
      (defaultBuiltin type) := by
  cases type with
  | bytes => exact .empty coherent .vector _
  | bool => exact .leaf coherent rfl ⟨false, rfl⟩ rfl
  | string => exact .leaf coherent rfl ⟨"", rfl, by decide⟩ rfl
  | uuid => exact .leaf coherent rfl ⟨.zero, rfl⟩ rfl
  | date =>
    exact .leaf coherent rfl ⟨.epoch, rfl, by decide, by decide, by decide, by decide⟩ rfl
  | float32 | float64 => exact .leaf coherent rfl ⟨0, rfl, by decide⟩ rfl
  | uint8 | uint16 | uint32 | uint64 | int | uint | bigint | time =>
    exact .leaf coherent rfl ⟨0, rfl, by decide⟩ rfl

theorem message?_of_mem (distinct : (doc.messages.map Message.name).Nodup) {m : Message}
    (member : m ∈ doc.messages) : doc.message? m.name = some m := by
  unfold Document.message?
  cases found : doc.messages.find? fun other => decide (other.name = m.name) with
  | none => simpa using List.find?_eq_none.mp found m member
  | some other =>
    have named : other.name = m.name := by simpa using List.find?_some found
    rw [List.inj_on_of_nodup_map distinct (List.mem_of_find?_eq_some found) member named]

theorem shape?_declarations (distinct : (doc.messages.map Message.name).Nodup) {m : Message}
    (member : m ∈ doc.messages) : (declarations path doc).shape? m.name =
      some (.message ((NativeRecord.ofMessage m).fields.map NativeField.step)) := by
  have labels : ∀ m : Message, (declareMessage path m).1 = m.name := fun _ => rfl
  have found : (declarations path doc).lookup m.name = some (declareMessage path m).2 :=
    lookup_of_nodup labels distinct member
  rw [Registry.shape?, found]
  rfl

theorem takesLeast_message {registry : Registry} (coherent : registry.Coherent) {depth : Nat}
    {name : String} {steps : List Step} {values : List Value}
    (declared : registry.shape? name = some (.message steps)) (paired : steps.length = values.length)
    (each : ∀ p ∈ steps.zip values, TakesLeast registry depth p.1.schema p.2) :
    TakesLeast registry (depth + 1) (.named name) (.record values) := by
  have holds : Representable registry (.named name) (.record values) :=
    representable_message declared paired fun p member => (each p member).representable
  refine .record coherent declared rfl holds ((List.length_map _).trans paired) ?_
  rw [List.zip_map_left]
  exact List.forall_mem_map.mpr fun p member _ => each p member

section takesLeast

variable (coherent : (declarations path doc).Coherent) (wellFormed : doc.WellFormed)
  (filled : ∀ e ∈ doc.enumerations, e.values ≠ [])
  (acyclic : ∀ name, ¬TransGen (Inlines doc.messages) name name)
include coherent wellFormed filled acyclic

theorem takesLeast_default {m : Message} (member : m ∈ doc.messages) {fuel depth : Nat}
    (enough : (inside doc.messages m.name).length < fuel)
    (deep : (inside doc.messages m.name).length + min 1 doc.enumerations.length < depth) :
    TakesLeast (declarations path doc) depth (.named m.name) (defaultWithin doc fuel m.name) := by
  induction fuel generalizing m depth with
  | zero => cases enough
  | succ fuel ih =>
    obtain ⟨depth, rfl⟩ : ∃ less, depth = less + 1 := ⟨depth - 1, by omega⟩
    have distinct : (doc.messages.map Message.name).Nodup :=
      (List.nodup_append.mp wellFormed.typesDistinct).1
    have field (f : MessageField) (written : f ∈ m.fields) :
        TakesLeast (declarations path doc) depth (NativeField.ofField f).step.schema
          (defaultField (defaultWithin doc fuel) f) := by
      have resolved := (wellFormed.messages m member).resolved f written
      obtain ⟨label, type, isArray, place⟩ := f
      cases isArray with
      | true => exact .empty coherent .vector _
      | false =>
        cases type with
        | builtin type => exact takesLeast_builtin coherent depth type
        | message name =>
          obtain ⟨inner, among, rfl⟩ := List.mem_map.mp resolved
          have inlines : Inlines doc.messages m.name inner.name := ⟨m, member, rfl, _, written, rfl⟩
          have less := length_inside_lt_of_inlines acyclic inlines resolved
          exact ih among (by omega) (by omega)
        | enumeration name =>
          obtain ⟨names, declared⟩ := shape?_enumeration path resolved.1 resolved.2
          obtain ⟨_, -, -, impossible⟩ | ⟨e, among, -, same⟩ := declared_of_shape? declared
          · cases impossible
          cases same
          have counted : 0 < doc.enumerations.length := List.length_pos_of_mem among
          obtain ⟨less, rfl⟩ : ∃ less, depth = less + 1 := ⟨depth - 1, by omega⟩
          refine .choice coherent declared ?_
          simpa [NativeEnumeration.ofEnumeration] using filled e among
    have declared : (declarations path doc).shape? m.name = _ := shape?_declarations distinct member
    rw [defaultWithin, message?_of_mem distinct member]
    refine takesLeast_message coherent declared ?_ ?_
    · simp [NativeRecord.ofMessage]
    · rw [NativeRecord.ofMessage, List.map_map, List.zip_map']
      exact List.forall_mem_map.mpr field

end takesLeast

theorem minSizeFields_eq_sum (declared : String → Nat) (m : Message) :
    minSizeFields declared (((NativeRecord.ofMessage m).fields.map NativeField.step).map Step.toField) =
      ((NativeRecord.ofMessage m).fields.map fun field =>
        minSizeWith declared field.wireType.schema).sum := by
  induction (NativeRecord.ofMessage m).fields with
  | nil => rfl
  | cons field rest ih =>
    have schema : field.step.schema = field.wireType.schema := by
      rw [NativeField.wireType, schema_repeatedIf]
      rfl
    rw [List.map_cons, List.map_cons, List.map_cons, List.sum_cons, ← ih, ← schema]
    rfl

/-- What the message comes to that nothing was put into, where the declarations lie under `path`: it is
complete, it is written in as many bytes as any message of its kind takes at least, which is the sum of those
that the types of its fields take, it is measured so as long as their number can be told, and its bytes in
front of any others are read as the same message and no further. -/
structure LeastMessage (path : String) (doc : Document) (m : Message) : Prop where
  summed : minSize (declarations path doc) (.named m.name) =
    ((NativeRecord.ofMessage m).fields.map fun field =>
      minSize (declarations path doc) field.wireType.schema).sum
  representable : Representable (declarations path doc) (.named m.name) (defaultMessage doc m.name)
  succeeds : (encode (declarations path doc) (.named m.name) (defaultMessage doc m.name)).error = none
  least : (encode (declarations path doc) (.named m.name) (defaultMessage doc m.name)).bytes.length =
    minSize (declarations path doc) (.named m.name)
  measured : encodedSize (declarations path doc) (.named m.name) (defaultMessage doc m.name) =
    if minSize (declarations path doc) (.named m.name) ≤ maxSize then
      .ok (minSize (declarations path doc) (.named m.name))
    else .error .sizeOverflow
  readBack (rest : List UInt8) : ∃ after, decode (declarations path doc) (.named m.name)
      (.ofSlice ((encode (declarations path doc) (.named m.name) (defaultMessage doc m.name)).bytes ++
        rest)) = .ok (defaultMessage doc m.name) after ∧
    after.store.readPosition = .ok (minSize (declarations path doc) (.named m.name))

theorem leastMessage (coherent : (declarations path doc).Coherent)
    (distinct : (doc.messages.map Message.name).Nodup) {m : Message} (member : m ∈ doc.messages)
    (takesLeast : ∀ depth ≥ (declarations path doc).length,
      TakesLeast (declarations path doc) depth (.named m.name) (defaultMessage doc m.name))
    (recorded : ∃ values, defaultMessage doc m.name = .record values) : LeastMessage path doc m := by
  obtain ⟨values, made⟩ := recorded
  have takes := takesLeast _ (Nat.le_refl _)
  have holds := takes.representable
  have ordered : arrange (declarations path doc) (.named m.name) (defaultMessage doc m.name) =
      defaultMessage doc m.name :=
    arrange_of_compiled (compiled_declarations path coherent) holds.hasType (.named m.name)
  have size : (encode (declarations path doc) (.named m.name) (defaultMessage doc m.name)).bytes.length =
      minSize (declarations path doc) (.named m.name) := takes.size
  have summed : minSize (declarations path doc) (.named m.name) =
      ((NativeRecord.ofMessage m).fields.map fun field =>
        minSize (declarations path doc) field.wireType.schema).sum := by
    -- one more declaration in a row changes nothing, since the message is complete without it
    have deeper := (takesLeast _ (Nat.le_succ _)).size
    rw [leastSize, minSizeWith, minSizeNamed, shape?_declarations distinct member] at deeper
    exact size.symm.trans (deeper.trans (minSizeFields_eq_sum _ m))
  refine ⟨summed, holds, holds.encodes coherent, size, ?_, fun rest => ?_⟩
  · rw [made] at holds size ⊢
    rw [encodedSize_record coherent holds, size]
  · have read := decode_encode coherent holds rest
    rwa [ordered, size] at read

theorem exists_record_default (doc : Document) (fuel : Nat) (name : String) :
    ∃ values, defaultWithin doc fuel name = .record values := by
  cases fuel with
  | zero => exact ⟨[], rfl⟩
  | succ fuel =>
    unfold defaultWithin
    split
    · exact ⟨_, rfl⟩
    · exact ⟨[], rfl⟩

/-- Whether the message that nothing was put into, if a vector holds it, is turned into bytes, and is read from
what the document makes of them. -/
def DefaultPacks (zlib : Compression) (doc : Document) (m : Message) : Prop :=
  minSize (declarations "" doc) (.named m.name) ≤ maxCapacity →
    (∃ bytes, marshal (declarations "" doc) (.named m.name) (defaultMessage doc m.name) = .ok bytes) ∧
    ∀ packed, marshalMessage zlib doc m.name (defaultMessage doc m.name) = .ok packed →
      unmarshalMessage zlib doc m.name packed = .ok (defaultMessage doc m.name)

theorem defaultPacks (coherent : (declarations "" doc).Coherent) {m : Message}
    (least : LeastMessage "" doc m) {zlib : Compression}
    (inverts : doc.hasPragma compressionPragma = true → zlib.Inverts) : DefaultPacks zlib doc m := by
  intro room
  exact ⟨⟨_, marshal_eq coherent least.representable (least.least ▸ room)⟩,
    fun packed => marshalInverts coherent inverts _ packed least.representable⟩

theorem leastMessage_of_ofSource {settings : Settings} {source : String} {c : Compilation}
    (compiled : Compilation.ofSource settings source = .ok c) {m : Message}
    (member : m ∈ c.document.messages) (path : String) : LeastMessage path c.document m := by
  obtain ⟨wellFormed, filled⟩ := Document.wellFormed_of_ofTokens (parse_of_ofSource compiled)
  have acyclic := acyclic_of_ofSource compiled
  have coherent := coherent_of_ofSource compiled path
  have distinct : (c.document.messages.map Message.name).Nodup :=
    (List.nodup_append.mp wellFormed.typesDistinct).1
  have enough : (inside c.document.messages m.name).length < c.document.messages.length :=
    length_inside_lt acyclic (List.mem_map_of_mem member)
  have deep : (inside c.document.messages m.name).length + min 1 c.document.enumerations.length <
      (declarations path c.document).length := by
    simp only [declarations, List.length_append, List.length_map]
    omega
  exact leastMessage coherent distinct member
    (fun depth deeper => takesLeast_default coherent wellFormed filled acyclic member enough
      (Nat.lt_of_lt_of_le deep deeper))
    (exists_record_default _ _ _)

end BinaryCodec.Binding
