import BinaryCodec.Proofs.Schema.RoundTrip

namespace BinaryCodec.Schema

open Buffer

variable {registry : Registry}

section items

variable {read : BufferM Value} [Sequential read] {item : Schema}

theorem agrees_readItems (agrees : Agrees read) (count : Nat) :
    Agrees (Message.readItems read count) := by
  induction count with
  | zero => exact .pure []
  | succ count ih =>
    rw [Message.readItems_succ]
    exact agrees.cons ih

theorem agrees_readSequence (agrees : Agrees read) (count : Nat) :
    Agrees (readSequence item read count) := by
  cases byte : item.isByte with
  | true =>
    rw [readSequence_of_isByte byte]
    exact (uniform_readBytes count).agrees.map
  | false =>
    rw [readSequence_of_not_isByte byte]
    exact agrees_readItems agrees count

theorem agrees_counted {f : List Value → Value} (agrees : Agrees read)
    (reads : ReadsNormal registry read item) :
    Agrees (readLength (item.minSize registry) >>= fun count =>
      f <$> readSequence item read count) := by
  refine .length (fun count => (agrees_readSequence agrees count).map) fun count => ?_
  -- Items that are read take at least what the check asks for, so that it refuses none of them.
  exact (yields_readSequence reads count).map fun vs used taken => taken.2 registry.length

end items

section schemas

variable {declared : String → BufferM Value} [∀ name, Sequential (declared name)]

theorem agrees_decodeAll {items : List Schema}
    (each : ∀ item ∈ items, Agrees (decodeWith registry declared item)) :
    Agrees (decodeAll registry declared items) := by
  induction items with
  | nil =>
    rw [decodeAll]
    exact .pure []
  | cons item rest ih =>
    have more := ih fun item member => each item (List.mem_cons_of_mem _ member)
    rw [decodeAll_cons]
    exact (each item (List.mem_cons_self ..)).cons more

theorem agrees_decodeFields (fields : List Field)
    (each : ∀ schema, Agrees (decodeWith registry declared schema)) :
    Agrees (decodeFields registry declared fields) := by
  induction fields with
  | nil => exact .pure []
  | cons field rest ih =>
    have first : Agrees (readField registry declared field) := by
      unfold readField
      cases field.skipped with
      | some given => exact .pure given
      | none => exact each field.schema
    rw [decodeFields_cons]
    exact first.cons ih

theorem agrees_decodeWith (named : ∀ name, Agrees (declared name))
    (reads : ∀ name, ReadsNormal registry (declared name) (.named name)) (schema : Schema) :
    Agrees (decodeWith registry declared schema) := by
  induction schema using inductionOn with
  | leaf schema leaf => exact agrees_leaf leaf
  | sequence kind item ih =>
    rw [decodeWith_sequence]
    exact agrees_counted ih (readsNormal_decodeWith reads item)
  | array count item ih =>
    rw [decodeWith_array]
    exact (agrees_readSequence ih count).map
  | set order item ih =>
    rw [decodeWith_set]
    exact agrees_counted ih (readsNormal_decodeWith reads item)
  | map order key value keyIh valueIh =>
    rw [decodeWith_map]
    refine .length (fun count => ?_) fun count => ?_
    · exact (agrees_readSequence keyIh count).bind fun keys => (agrees_readSequence valueIh count).map
    · refine (yields_readSequence (readsNormal_decodeWith reads key) count).bind fun keys used read => ?_
      refine (yields_readSequence (readsNormal_decodeWith reads value) count).map ?_
      intro values more also
      have first := read.2 registry.length
      have second := also.2 registry.length
      rw [Nat.mul_add]
      exact Nat.add_le_add first second
  | pointer kind target ih =>
    rw [decodeWith_pointer]
    exact ih
  | option item ih =>
    rw [decodeWith_option]
    exact ih.map
  | tuple items ih =>
    rw [decodeWith_tuple]
    exact (agrees_decodeAll ih).map
  | named name =>
    rw [decodeWith_named]
    exact named name

theorem agrees_readChoice (count : Nat) : Agrees (Message.readChoice count) := by
  rw [Message.readChoice_eq]
  exact ((uniform_readUnsigned 64).bind fun _ => .settle _).agrees

theorem agrees_decodeMove (named : ∀ name, Agrees (declared name))
    (reads : ∀ name, ReadsNormal registry (declared name) (.named name)) {move : Move}
    (known : move.Declared registry) : Agrees (Message.decodeMove registry declared move) := by
  rcases decodeMove_cases declared known with ⟨name, names, -, -, read⟩ | same
  · rw [read]
    exact agrees_readChoice names.length
  · unfold Agrees
    rw [same]
    exact agrees_decodeWith named reads move.schema

theorem agrees_decodeSteps (named : ∀ name, Agrees (declared name))
    (reads : ∀ name, ReadsNormal registry (declared name) (.named name)) {steps : List Step}
    (coherent : ∀ step ∈ steps, step.Coherent registry) :
    Agrees (Message.decodeSteps registry declared steps) := by
  induction steps with
  | nil => exact .pure []
  | cons step rest ih =>
    have more := ih fun step member => coherent step (List.mem_cons_of_mem _ member)
    have fits := coherent step (List.mem_cons_self ..)
    have moves := agrees_decodeMove named reads fits.read_declared
    have takes := readsNormal_decodeMove reads fits.read_declared
    rw [fits.read_schema] at takes
    rw [Message.decodeSteps_cons]
    refine Agrees.cons ?_ more
    cases repeated : step.repeated with
    | false =>
      rw [Message.decodeStep_single repeated]
      exact moves
    | true =>
      rw [Message.decodeStep_repeated repeated]
      refine .length (fun count => (agrees_readItems moves count).map) fun count => ?_
      exact (yields_readItems takes count).map fun vs used taken => taken.2 registry.length

end schemas

section declarations

theorem agrees_decodeNamed (coherent : registry.Coherent) (fuel : Nat) (name : String) :
    Agrees (decodeNamed registry fuel name) := by
  induction fuel generalizing name with
  | zero => exact (Uniform.throw _).agrees
  | succ fuel ih =>
    have reads := readsNormal_decodeNamed coherent fuel
    have each (schema : Schema) := agrees_decodeWith ih reads schema
    cases found : registry.shape? name with
    | none =>
      rw [decodeNamed_undeclared found]
      exact (Uniform.throw _).agrees
    | some shape =>
      cases shape with
      | record fields =>
        rw [decodeNamed_record found]
        exact (agrees_decodeFields fields each).map
      | message steps =>
        rw [decodeNamed_message found]
        exact (agrees_decodeSteps ih reads (coherent name steps found)).map
      | choices names =>
        rw [decodeNamed_choices found]
        exact agrees_readChoice names.length
      | enumeration variants =>
        rw [decodeNamed_enumeration found]
        apply (uniform_readUnsigned 64).agrees.bind
        intro index
        unfold readCase
        cases variants[index]? with
        | none => exact (Uniform.throw _).agrees
        | some variant => exact (agrees_decodeFields variant.fields each).map

theorem agrees_decode (coherent : registry.Coherent) (schema : Schema) :
    Agrees (decode registry schema) := by
  rw [decode_eq]
  apply Uniform.unread.agrees.bind
  intro n
  exact agrees_decodeWith (agrees_decodeNamed coherent _) (readsNormal_decodeNamed coherent _) schema

/-- Decoding a slice and decoding a stream of the same bytes answer with the same value at the same
place. Where the slice fails, so does the stream, and in the same way unless the slice was found too
short for a length. -/
theorem decode_slice_stream (coherent : registry.Coherent) (schema : Schema) (bytes : List UInt8)
    (limit : Nat → Nat) (progress : ∀ position, 0 < limit position) :
    (∀ v n,
      (∃ after, decode registry schema (.ofSlice bytes) = .ok v after ∧
        after.store.readPosition = .ok n) ↔
      ∃ after, decode registry schema (.ofStream bytes limit) = .ok v after ∧
        after.store.readPosition = .ok n) ∧
    (∀ e after, decode registry schema (.ofSlice bytes) = .error e after →
      (∀ length available, e ≠ .lengthExceedsInput length available) →
      ∃ position, after.store.readPosition = .ok position ∧
        ∃ afterStream, decode registry schema (.ofStream bytes limit) = .error e afterStream ∧
          afterStream.store.readPosition = .ok position) := by
  have agrees := agrees_decode coherent schema
  refine ⟨fun v n => ?_, fun e after run other => ?_⟩
  · rw [answers_slice_iff, answers_stream_iff v n bytes progress]
    exact agrees.ok_iff bytes v n
  · obtain ⟨n, position, failed⟩ := fails_slice run
    exact ⟨n, position, (fails_stream_iff e n bytes progress).mpr (agrees.error_unknown failed other)⟩

/-- A sensor from a stream that delivers one byte with each read. -/
theorem decode_slice_stream_sensor :
    ∃ after, decode sensors (.named "Sensor")
        (.ofStream (encode sensors (.named "Sensor") sensor).bytes fun _ => 1) = .ok sortedSensor after ∧
      after.store.readPosition = .ok 15 := by
  have progress (position : Nat) : 0 < (fun _ => 1) position := Nat.one_pos
  have same := decode_slice_stream coherent_sensors (.named "Sensor")
    (encode sensors (.named "Sensor") sensor).bytes _ progress
  have length : (encode sensors (.named "Sensor") sensor).bytes.length = 15 := by decide +kernel
  have slice := decode_encode coherent_sensors representable_sensor []
  rw [List.append_nil, arrange_sensor, length] at slice
  exact (same.1 sortedSensor 15).mp slice

end declarations

end BinaryCodec.Schema
