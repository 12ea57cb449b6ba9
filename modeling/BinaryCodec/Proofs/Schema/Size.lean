import BinaryCodec.Proofs.Buffer.Writing
import BinaryCodec.Proofs.Schema.Arrange
import BinaryCodec.Proofs.Schema.Layout

namespace BinaryCodec.Schema

variable {registry : Registry} {schema : Schema} {v : Value} {total : Nat} {output : Output}
  {size : Except Error Nat}

/-- What measuring comes to, from a total on, fits what `output` writes: the exact number of bytes, the
error that the output ends with, or a size that is too large indeed. -/
def Measures (total : Nat) (output : Output) (size : Except Error Nat) : Prop :=
  match size with
  | .ok n => output.error = none ∧ n = total + output.bytes.length
  | .error e => output.error = some e ∨ e = .sizeOverflow ∧ maxSize < total + output.bytes.length

namespace Measures

theorem of_same {other : Output} (same : output.Same other) (measures : Measures total other size) :
    Measures total output size := by
  unfold Measures at measures ⊢
  rwa [same.1, same.2]

theorem front {bytes : List UInt8} (measures : Measures bytes.length output size) :
    Measures 0 (Output.piece bytes ++ output) size := by
  have written : (Output.piece bytes ++ output).bytes.length = bytes.length + output.bytes.length := by
    rw [Output.bytes_append rfl, Output.bytes_piece, List.length_append]
  have ends : (Output.piece bytes ++ output).error = output.error := by
    rw [Output.error_append, Output.error_piece, Option.none_or]
  unfold Measures at measures ⊢
  rwa [written, ends, Nat.zero_add]

theorem append {rest : Output} {sizeRest : Nat → Except Error Nat} (first : Measures 0 output size)
    (next : ∀ total, Measures total rest (sizeRest total)) :
    Measures total (output ++ rest) (do sizeRest (← addSizes total (← size))) := by
  cases size with
  | error e =>
    rcases first with failed | ⟨rfl, exceeds⟩
    · left
      rw [Output.append_of_error failed]
      exact failed
    · right
      have longer := Output.length_bytes_le_append output rest
      exact ⟨rfl, by omega⟩
  | ok n =>
    obtain ⟨succeeded, rfl⟩ := first
    have written : (output ++ rest).bytes = output.bytes ++ rest.bytes :=
      Output.bytes_append succeeded
    have ends : (output ++ rest).error = rest.error := by
      rw [Output.error_append, succeeded, Option.none_or]
    change Measures total (output ++ rest) (addSizes total (0 + output.bytes.length) >>= sizeRest)
    unfold addSizes
    split
    · have more := next (total + (0 + output.bytes.length))
      change Measures total (output ++ rest) (sizeRest (total + (0 + output.bytes.length)))
      unfold Measures at more ⊢
      rw [written, ends, List.length_append]
      rwa [show total + (0 + output.bytes.length) + rest.bytes.length =
        total + (output.bytes.length + rest.bytes.length) by omega] at more
    · right
      rw [written, List.length_append]
      exact ⟨rfl, by omega⟩

end Measures

theorem encodedSize_leaf (leaf : schema.isLeaf = true) (v : Value) :
    encodedSize registry schema v = leafSize registry schema v := by
  rw [encodedSize.eq_def, pointee_of_isLeaf leaf]
  cases schema <;> first | rfl | cases leaf

theorem encodedSize_pointer (kind : PointerKind) (target : Schema) (v : Value) :
    encodedSize registry (.pointer kind target) v = encodedSize registry target v := by
  rw [encodedSize.eq_def, encodedSize.eq_def]
  rfl

theorem encodedSize_present (item : Schema) (v : Value) :
    encodedSize registry (.option item) (.option (some v)) = encodedSize registry item v := rfl

theorem measures_integer (type : IntType) (n : Int) :
    Measures 0 (integerOutput type n) (.ok (integerSize type n)) := by
  refine ⟨by cases type <;> rfl, ?_⟩
  cases type <;> simp [integerOutput, integerSize, IntType.isSigned, Output.signed,
    Output.unsigned, Output.fixed]

theorem measures_limited (bytes : List UInt8) :
    Measures 0 (.limited bytes) (.ok (limitedSize bytes.length)) := by
  obtain ⟨succeeded, written⟩ := Output.Writes.limited bytes
  refine ⟨succeeded, ?_⟩
  rw [written, List.length_append, Varint.length_encodeUnsigned, Nat.zero_add]
  rfl

theorem measures_time (t : Instant) :
    Measures 0 (.time t) (Varint.signedLength <$> Buffer.timeNanos t) := by
  unfold Output.time
  cases Buffer.timeNanos t with
  | error e => exact .inl rfl
  | ok n => exact ⟨rfl, by simp [Output.signed]⟩

theorem measures_date (t : Instant) :
    Measures 0 (.date t) (Varint.unsignedLength <$> Buffer.dateMillis t) := by
  unfold Output.date
  cases Buffer.dateMillis t with
  | error e => exact .inl rfl
  | ok n => exact ⟨rfl, by simp [Output.unsigned]⟩

theorem HasType.typedLeaf (typed : HasType registry schema v) (leaf : schema.isLeaf = true) :
    TypedLeaf schema v := by
  cases typed with
  | leaf _ holds => exact holds
  | _ => cases leaf

theorem measures_leaf (leaf : schema.isLeaf = true) (typed : TypedLeaf schema v) :
    Measures 0 (leafOutput registry schema v) (leafSize registry schema v) := by
  cases schema with
  | unit | phantom => cases v <;> exact ⟨rfl, rfl⟩
  | bool => cases v <;> exact ⟨rfl, rfl⟩
  | integer type =>
    cases v with
    | int n => exact measures_integer type n
    | _ => exact ⟨rfl, rfl⟩
  | fixed order type =>
    cases v with
    | int n => exact ⟨rfl, by simp [leafOutput, Output.fixed]⟩
    | _ => exact ⟨rfl, rfl⟩
  | float order type =>
    cases v with
    | float pattern => exact ⟨rfl, by simp [leafOutput, Output.fixed]⟩
    | _ => exact ⟨rfl, rfl⟩
  | char =>
    cases v with
    | char c =>
      have measures := measures_limited (String.utf8EncodeChar c)
      have single : Varint.unsignedLength c.utf8Size = 1 := by
        have bound := c.utf8Size_le_four
        rw [Varint.unsignedLength_eq, if_pos (by omega)]
      rwa [String.length_utf8EncodeChar, limitedSize, single] at measures
    | _ => exact ⟨rfl, rfl⟩
  | string =>
    cases v with
    | text s => exact measures_limited (Utf8.encode s)
    | _ => exact ⟨rfl, rfl⟩
  | fixedString width =>
    obtain ⟨s, rfl, room⟩ := typed
    simp [Measures, leafOutput, leafSize, Output.fixedString, room]
  | cstring =>
    cases v with
    | text s =>
      obtain ⟨succeeded, written⟩ :=
        (Output.Writes.piece (Utf8.encode s)).append (Output.Writes.piece [0])
      refine ⟨succeeded, ?_⟩
      change _ = 0 + (Output.piece (Utf8.encode s) ++ Output.piece [0]).bytes.length
      rw [written, List.length_append, Nat.zero_add]
      rfl
    | _ => exact ⟨rfl, rfl⟩
  | bytes =>
    cases v with
    | list items =>
      have measures := measures_limited (items.map Value.toByte)
      rwa [List.length_map] at measures
    | _ => exact ⟨rfl, rfl⟩
  | uuid =>
    cases v with
    | uuid id => exact ⟨rfl, by simp [leafOutput, Output.uuid]⟩
    | _ => exact ⟨rfl, rfl⟩
  | time =>
    cases v with
    | instant t => exact measures_time t
    | _ => exact ⟨rfl, rfl⟩
  | date =>
    cases v with
    | instant t => exact measures_date t
    | _ => exact ⟨rfl, rfl⟩
  | unsupported target => cases v <;> exact .inl rfl
  | sequence | array | set | map | pointer | option | tuple | named => cases leaf

theorem measures_parts {parts : List (Schema × Value)}
    (each : ∀ p ∈ parts, Measures 0 (encode registry p.1 p.2) (encodedSize registry p.1 p.2))
    (total : Nat) : Measures total (encodeParts registry parts) (sizeParts registry total parts) := by
  induction parts generalizing total with
  | nil => exact ⟨rfl, rfl⟩
  | cons part rest ih =>
    exact (each part (List.mem_cons_self ..)).append
      (ih fun p member => each p (List.mem_cons_of_mem _ member))

theorem measures (coherent : registry.Coherent) (typed : HasType registry schema v) :
    Measures 0 (encode registry schema v) (encodedSize registry schema v) := by
  induction typed using HasType.inductionOn with
  | leaf schema v typed leaf =>
    rw [encode_leaf leaf, encodedSize_leaf leaf]
    exact measures_leaf leaf (typed.typedLeaf leaf)
  | pointer kind target v pointed ih => rwa [encode_pointer, encodedSize_pointer]
  | absent item => exact .inl rfl
  | present item v inner ih => rwa [encode_present, encodedSize_present]
  | composed schema v front parts typed layout each =>
    have all := measures_parts (fun p member => (each p member).2) front.length
    rw [layout.encodedSize_eq]
    exact all.front.of_same (layout.encode_same coherent typed)

theorem encode_of_encodedSize (coherent : registry.Coherent) (typed : HasType registry schema v)
    {n : Nat} (size : encodedSize registry schema v = .ok n) :
    (encode registry schema v).error = none ∧ (encode registry schema v).bytes.length = n := by
  have measured := measures coherent typed
  rw [size] at measured
  obtain ⟨succeeds, rfl⟩ := measured
  rw [Nat.zero_add]
  exact ⟨succeeds, rfl⟩

theorem encodedSize_of_encode (coherent : registry.Coherent) (typed : HasType registry schema v)
    (succeeds : (encode registry schema v).error = none) :
    encodedSize registry schema v = .ok (encode registry schema v).bytes.length ∨
      encodedSize registry schema v = .error .sizeOverflow ∧
        maxSize < (encode registry schema v).bytes.length := by
  have measured := measures coherent typed
  cases size : encodedSize registry schema v with
  | error e =>
    rw [size] at measured
    rcases measured with failed | ⟨rfl, exceeds⟩
    · rw [succeeds] at failed
      cases failed
    · rw [Nat.zero_add] at exceeds
      exact .inr ⟨rfl, exceeds⟩
  | ok n =>
    obtain ⟨-, rfl⟩ := encode_of_encodedSize coherent typed size
    exact .inl rfl

theorem marshal_of_size {v : Value} {n : Nat} (size : encodedSize registry schema v = .ok n) :
    marshal registry schema v = if n ≤ maxCapacity then
      match (encode registry schema v).error with
      | some e => .error e
      | none => .ok (encode registry schema v).bytes
    else .error .capacityOverflow := by
  unfold marshal
  rw [size]
  change (if n ≤ maxCapacity then _ else _) = _
  split <;> rfl

theorem writes_of_marshal {v : Value} {bytes : List UInt8}
    (marshalled : marshal registry schema v = .ok bytes) : (encode registry schema v).Writes bytes := by
  cases size : encodedSize registry schema v with
  | error e =>
    unfold marshal at marshalled
    rw [size] at marshalled
    cases marshalled
  | ok n =>
    rw [marshal_of_size size] at marshalled
    split at marshalled
    · cases ends : (encode registry schema v).error with
      | some e =>
        rw [ends] at marshalled
        cases marshalled
      | none =>
        rw [ends] at marshalled
        cases marshalled
        exact ⟨ends, rfl⟩
    · cases marshalled

theorem marshal_of_writes {v : Value} {n : Nat} {bytes : List UInt8}
    (size : encodedSize registry schema v = .ok n) (writes : (encode registry schema v).Writes bytes) :
    marshal registry schema v = if n ≤ maxCapacity then .ok bytes else .error .capacityOverflow := by
  obtain ⟨succeeds, rfl⟩ := writes
  rw [marshal_of_size size, succeeds]

theorem eq_bytes_of_marshal {v : Value} {bytes : List UInt8}
    (marshalled : marshal registry schema v = .ok bytes) : bytes = (encode registry schema v).bytes :=
  (writes_of_marshal marshalled).2.symm

/-- Somewhere in a value, the sum of the sizes that measuring has met so far exceeds the greatest size:
what is in front of the parts, the parts that were measured, and the next one. -/
inductive Overflows (registry : Registry) : Schema → Value → Prop
  | sum {schema : Schema} {v : Value} {front : List UInt8} {met rest : List (Schema × Value)}
      {part : Schema × Value} {sizes : List Nat} {n : Nat}
      (layout : Layout registry schema v front (met ++ part :: rest))
      (measured : met.map (fun p => encodedSize registry p.1 p.2) = sizes.map Except.ok)
      (next : encodedSize registry part.1 part.2 = .ok n)
      (exceeds : maxSize < sizes.foldl (· + ·) front.length + n) : Overflows registry schema v
  | part {schema : Schema} {v : Value} {front : List UInt8} {met rest : List (Schema × Value)}
      {part : Schema × Value} {sizes : List Nat}
      (layout : Layout registry schema v front (met ++ part :: rest))
      (measured : met.map (fun p => encodedSize registry p.1 p.2) = sizes.map Except.ok)
      (overflows : Overflows registry part.1 part.2) : Overflows registry schema v
  | pointer {kind : PointerKind} {target : Schema} {v : Value}
      (overflows : Overflows registry target v) : Overflows registry (.pointer kind target) v
  | present {item : Schema} {v : Value} (overflows : Overflows registry item v) :
      Overflows registry (.option item) (.option (some v))

theorem sizeParts_overflow {parts : List (Schema × Value)}
    (h : sizeParts registry total parts = .error .sizeOverflow) :
    ∃ met part rest, ∃ sizes : List Nat, parts = met ++ part :: rest ∧
      met.map (fun p => encodedSize registry p.1 p.2) = sizes.map Except.ok ∧
      (encodedSize registry part.1 part.2 = .error .sizeOverflow ∨
        ∃ n, encodedSize registry part.1 part.2 = .ok n ∧
          maxSize < sizes.foldl (· + ·) total + n) := by
  induction parts generalizing total with
  | nil => cases h
  | cons part rest ih =>
    rw [sizeParts] at h
    cases size : encodedSize registry part.1 part.2 with
    | error e =>
      rw [size] at h
      cases h
      exact ⟨[], part, rest, [], rfl, rfl, .inl size⟩
    | ok n =>
      rw [size] at h
      change (addSizes total n >>= fun total => sizeParts registry total rest) = _ at h
      unfold addSizes at h
      split at h
      · obtain ⟨met, next, others, sizes, rfl, measured, ends⟩ := ih h
        refine ⟨part :: met, next, others, n :: sizes, rfl, ?_, ?_⟩
        · rw [List.map_cons, List.map_cons, measured, size]
        · rw [List.foldl_cons]
          exact ends
      · next exceeds =>
        refine ⟨[], part, rest, [], rfl, rfl, .inr ⟨n, size, ?_⟩⟩
        rw [List.foldl_nil]
        omega

theorem timeNanos_ne_overflow (t : Instant) : Buffer.timeNanos t ≠ .error .sizeOverflow := by
  unfold Buffer.timeNanos
  cases t.nanos64? with
  | none => intro h; cases h
  | some n => intro h; cases h

theorem dateMillis_ne_overflow (t : Instant) : Buffer.dateMillis t ≠ .error .sizeOverflow := by
  unfold Buffer.dateMillis
  split <;> intro h <;> cases h

theorem map_ne_error {α β : Type} {f : α → β} {result : Except Error α} {e : Error}
    (other : result ≠ .error e) : f <$> result ≠ .error e := by
  intro h
  cases result with
  | ok v => cases h
  | error e =>
    cases h
    exact other rfl

theorem leafSize_ne_overflow (leaf : schema.isLeaf = true) (v : Value) :
    leafSize registry schema v ≠ .error .sizeOverflow := by
  cases schema with
  | time =>
    cases v with
    | instant t => exact map_ne_error (timeNanos_ne_overflow t)
    | _ => intro h; cases h
  | date =>
    cases v with
    | instant t => exact map_ne_error (dateMillis_ne_overflow t)
    | _ => intro h; cases h
  | sequence | array | set | map | pointer | option | tuple | named => cases leaf
  | _ => cases v <;> intro h <;> cases h

theorem overflows (typed : HasType registry schema v)
    (h : encodedSize registry schema v = .error .sizeOverflow) : Overflows registry schema v := by
  induction typed using HasType.inductionOn with
  | leaf schema v typed leaf =>
    rw [encodedSize_leaf leaf] at h
    exact absurd h (leafSize_ne_overflow leaf v)
  | pointer kind target v pointed ih =>
    rw [encodedSize_pointer] at h
    exact .pointer (ih h)
  | absent item => cases h
  | present item v inner ih =>
    rw [encodedSize_present] at h
    exact .present (ih h)
  | composed schema v front parts typed layout each =>
    rw [layout.encodedSize_eq] at h
    obtain ⟨met, part, rest, sizes, rfl, measured, ends⟩ := sizeParts_overflow h
    rcases ends with overflow | ⟨n, next, exceeds⟩
    · obtain ⟨_, ih⟩ := each part (by simp)
      exact .part layout measured (ih overflow)
    · exact .sum layout measured next exceeds

/-- Measuring and writing agree on every value: on the number of bytes, and on the first failure but
for a size that is too large. -/
theorem encodedSize_agrees (coherent : registry.Coherent) (typed : HasType registry schema v) :
    (∀ n, encodedSize registry schema v = .ok n → ∀ b : Buffer, b.Accepts →
      ∃ after position, Buffer.writeOutput (encode registry schema v) b = .ok () after ∧
        b.store.writePosition = .ok position ∧
        after.store.writePosition = .ok (position + n)) ∧
    (∀ e, encodedSize registry schema v = .error e → e ≠ .sizeOverflow →
      ∀ b : Buffer, b.Accepts →
        ∃ after, Buffer.writeOutput (encode registry schema v) b = .error e after) ∧
    (∀ (b after : Buffer) (e : Error), b.Accepts →
      Buffer.writeOutput (encode registry schema v) b = .error e after →
      encodedSize registry schema v = .error e ∨
        encodedSize registry schema v = .error .sizeOverflow) ∧
    (encodedSize registry schema v = .error .sizeOverflow → Overflows registry schema v) := by
  have measures := measures coherent typed
  refine ⟨?_, ?_, ?_, overflows typed⟩
  · intro n size b accepts
    rw [size] at measures
    obtain ⟨succeeds, rfl⟩ := measures
    obtain ⟨position, before, after⟩ :=
      Store.writePosition_written accepts (encode registry schema v).bytes
    refine ⟨b.written (encode registry schema v).bytes, position, ?_, before, ?_⟩
    · rw [Buffer.writeOutput_eq accepts, succeeds]
    · rw [Nat.zero_add]
      exact after
  · intro e size known b accepts
    rw [size] at measures
    rcases measures with fails | ⟨overflow, -⟩
    · exact (Buffer.writeOutput_error_iff accepts _ e).mpr fails
    · exact absurd overflow known
  · intro b after e accepts run
    have fails := (Buffer.writeOutput_error_iff accepts _ e).mp ⟨after, run⟩
    cases size : encodedSize registry schema v with
    | ok n =>
      rw [size] at measures
      rw [measures.1] at fails
      cases fails
    | error found =>
      rw [size] at measures
      rcases measures with same | ⟨overflow, -⟩
      · rw [same] at fails
        cases fails
        exact .inl rfl
      · exact .inr (congrArg _ overflow)

/-- A sensor takes fifteen bytes, and its encoding writes as many. -/
theorem encodedSize_agrees_sensor :
    encodedSize sensors (.named "Sensor") sensor = .ok 15 ∧
      ∃ after, Buffer.writeOutput (encode sensors (.named "Sensor") sensor) .empty = .ok () after ∧
        after.store.writePosition = .ok 15 := by
  have size : encodedSize sensors (.named "Sensor") sensor = .ok 15 := rfl
  have agrees := encodedSize_agrees coherent_sensors representable_sensor.hasType
  obtain ⟨after, position, run, before, ends⟩ := agrees.1 15 size .empty True.intro
  cases before
  exact ⟨size, after, run, ends⟩

end BinaryCodec.Schema
