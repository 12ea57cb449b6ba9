import BinaryCodec.Proofs.Schema.Size

namespace BinaryCodec

/-- The memory with `bytes` in the place of those at the write cursor. -/
def Memory.splice (bytes : List UInt8) (m : Memory) : Memory :=
  { m with
    content := (m.content.toList.take m.writePosition ++ bytes ++
      m.content.toList.drop (m.writePosition + bytes.length)).toArray
    writePosition := m.writePosition + bytes.length }

def Writer.receive (bytes : List UInt8) (w : Writer) : Writer :=
  { w with
    received := (w.received.toList ++ bytes).toArray
    written := w.written + bytes.length }

theorem Store.written_memory {m : Memory} (within : m.writePosition ≤ m.content.size)
    (bytes : List UInt8) : (Store.memory m).written bytes = .memory (m.splice bytes) := by
  have content : m.content.overwrite m.writePosition bytes = (m.splice bytes).content := by
    apply Array.toList_inj.mp
    rw [Content.toList_overwrite within]
    rfl
  simp only [Store.written, Memory.write, content]
  rfl

theorem Store.written_writer (w : Writer) (bytes : List UInt8) :
    (Store.writer w).written bytes = .writer (w.receive bytes) := by
  have content : w.received.append bytes = (w.receive bytes).received := by
    apply Array.toList_inj.mp
    rw [Content.toList_append]
    rfl
  simp only [Store.written, Writer.accept, content]
  rfl

namespace Schema

variable {registry : Registry} {schema : Schema} {v : Value} {output : Output}
  {front : List UInt8} {parts : List (Schema × Value)}

theorem Layout.hasType (layout : Layout registry schema v front parts)
    (typed : HasType registry schema v) : ∀ p ∈ parts, HasType registry p.1 p.2 := by
  intro p member
  cases layout with
  | sequence =>
    obtain ⟨w, among, rfl⟩ := List.mem_map.mp member
    cases typed with
    | leaf leaf _ => cases leaf
    | sequence bounded each => exact each w among
  | array =>
    obtain ⟨w, among, rfl⟩ := List.mem_map.mp member
    cases typed with
    | leaf leaf _ => cases leaf
    | array counted each => exact each w among
  | set =>
    obtain ⟨w, among, rfl⟩ := List.mem_map.mp member
    cases typed with
    | leaf leaf _ => cases leaf
    | set bounded listed each => exact each w among
  | map =>
    cases typed with
    | leaf leaf _ => cases leaf
    | map bounded listed keys values =>
      rcases List.mem_append.mp member with member | member
      · obtain ⟨e, among, rfl⟩ := List.mem_map.mp member
        exact keys e among
      · obtain ⟨e, among, rfl⟩ := List.mem_map.mp member
        exact values e among
  | tuple =>
    cases typed with
    | leaf leaf _ => cases leaf
    | tuple paired each => exact each p member
  | record declared found =>
    cases typed with
    | leaf leaf _ => cases leaf
    | record again same paired skipped each =>
      cases declared.symm.trans again
      cases found.symm.trans same
      obtain ⟨field, among, wired, rfl⟩ := mem_wireParts member
      exact each field among wired
  | variant declared found =>
    cases typed with
    | leaf leaf _ => cases leaf
    | variant again same bounded paired skipped each =>
      cases declared.symm.trans again
      cases found.symm.trans same
      obtain ⟨field, among, wired, rfl⟩ := mem_wireParts member
      exact each field among wired
    | choice again _ _ => cases declared.symm.trans again
  | choice declared => cases member

def concat (outputs : List Output) : Output := outputs.foldr (· ++ ·) .none

/-- The writes that a value may be cut into: those of the encoding itself, those of what is in front and
of the parts one after the other, or two runs of bytes where a deque of bytes lies in two pieces. -/
inductive Emits (registry : Registry) : Schema → Value → Output → Prop
  | whole {schema : Schema} {v : Value} : Emits registry schema v (encode registry schema v)
  | pointer {kind : PointerKind} {target : Schema} {v : Value} {output : Output}
      (pointed : Emits registry target v output) : Emits registry (.pointer kind target) v output
  | present {item : Schema} {v : Value} {output : Output} (inner : Emits registry item v output) :
      Emits registry (.option item) (.option (some v)) output
  | composed {schema : Schema} {v : Value} {front : List UInt8} {parts : List (Schema × Value)}
      {outputs : List Output} (layout : Layout registry schema v front parts)
      (paired : parts.length = outputs.length)
      (each : ∀ p ∈ parts.zip outputs, Emits registry p.1.1 p.1.2 p.2) :
      Emits registry schema v (Output.piece front ++ concat outputs)
  | slices (front back : List Value) :
      Emits registry (.sequence .deque (.integer .u8)) (.list (front ++ back))
        (Output.unsigned (front ++ back).length ++
          (Output.piece (front.map Value.toByte) ++ Output.piece (back.map Value.toByte)))

theorem same_concat {outputs : List Output} (paired : parts.length = outputs.length)
    (each : ∀ p ∈ parts.zip outputs, p.2.Same (encode registry p.1.1 p.1.2)) :
    (concat outputs).Same (encodeParts registry parts) := by
  induction parts generalizing outputs with
  | nil =>
    cases outputs with
    | nil => exact .refl _
    | cons output rest => cases paired
  | cons part parts ih =>
    cases outputs with
    | nil => cases paired
    | cons output rest =>
      have first := each (part, output) (List.mem_cons_self ..)
      exact first.append (ih (Nat.succ.inj paired) fun p member => each p (List.mem_cons_of_mem _ member))

theorem Emits.same (coherent : registry.Coherent) (typed : HasType registry schema v)
    (emits : Emits registry schema v output) : output.Same (encode registry schema v) := by
  induction emits with
  | whole => exact .refl _
  | pointer pointed ih =>
    rw [encode_pointer]
    cases typed with
    | leaf leaf _ => cases leaf
    | pointer inner => exact ih inner
  | present inner ih =>
    rw [encode_present]
    cases typed with
    | leaf leaf _ => cases leaf
    | present inner => exact ih inner
  | @composed schema v front parts outputs layout paired each ih =>
    have inner := layout.hasType typed
    have all : (concat outputs).Same (encodeParts registry parts) := by
      apply same_concat paired
      intro p member
      exact ih p member (inner p.1 (List.of_mem_zip member).1)
    exact ((Output.Same.refl _).append all).trans (layout.encode_same coherent typed).symm
  | slices front back =>
    rw [encode_sequence]
    apply (Output.Same.refl _).append
    refine ⟨?_, rfl⟩
    have bulk : (integer .u8).isByte = true := rfl
    rw [Output.bytes_append rfl, Output.bytes_piece, Output.bytes_piece]
    simp only [bulk, if_true, Output.bytes_piece, List.map_append]

/-- The first part of a value that cannot be written, by the encodings of what comes before it, at every
depth, and by the reason. -/
inductive Fails (registry : Registry) : Schema → Value → List UInt8 → Error → Prop
  | leaf {schema : Schema} {v : Value} {e : Error} (leaf : schema.isLeaf = true)
      (refused : leafOutput registry schema v = .fail e) : Fails registry schema v [] e
  | absent {item : Schema} :
      Fails registry (.option item) (.option none) []
        (.nullReference ((Schema.option item).typeName registry))
  | pointer {kind : PointerKind} {target : Schema} {v : Value} {bytes : List UInt8} {e : Error}
      (pointed : Fails registry target v bytes e) : Fails registry (.pointer kind target) v bytes e
  | present {item : Schema} {v : Value} {bytes : List UInt8} {e : Error}
      (inner : Fails registry item v bytes e) :
      Fails registry (.option item) (.option (some v)) bytes e
  | part {schema : Schema} {v : Value} {front : List UInt8} {met rest : List (Schema × Value)}
      {part : Schema × Value} {encodings : List (List UInt8)} {bytes : List UInt8} {e : Error}
      (layout : Layout registry schema v front (met ++ part :: rest))
      (paired : met.length = encodings.length)
      (written : ∀ p ∈ met.zip encodings, (encode registry p.1.1 p.1.2).Writes p.2)
      (fails : Fails registry part.1 part.2 bytes e) :
      Fails registry schema v (front ++ encodings.flatten ++ bytes) e

theorem leafOutput_error (leaf : schema.isLeaf = true) {e : Error}
    (failed : (leafOutput registry schema v).error = some e) :
    leafOutput registry schema v = .fail e := by
  cases schema with
  | unsupported target => cases v <;> · cases failed; rfl
  | time =>
    cases v with
    | instant t =>
      change (Output.time t).error = some e at failed
      change Output.time t = .fail e
      unfold Output.time at failed ⊢
      cases told : Buffer.timeNanos t with
      | ok n => simp [told, Output.signed] at failed
      | error other =>
        simp only [told] at failed ⊢
        cases failed
        rfl
    | _ => cases failed
  | date =>
    cases v with
    | instant t =>
      change (Output.date t).error = some e at failed
      change Output.date t = .fail e
      unfold Output.date at failed ⊢
      cases told : Buffer.dateMillis t with
      | ok n => simp [told, Output.unsigned] at failed
      | error other =>
        simp only [told] at failed ⊢
        cases failed
        rfl
    | _ => cases failed
  | integer type =>
    cases v with
    | int n => cases type <;> cases failed
    | _ => cases failed
  | fixedString width =>
    cases v with
    | text s =>
      change (Output.fixedString s width).error = some e at failed
      change Output.fixedString s width = .fail e
      unfold Output.fixedString at failed ⊢
      by_cases room : width ≤ maxCapacity
      · rw [if_pos room] at failed
        cases failed
      · rw [if_neg room] at failed ⊢
        cases failed
        rfl
    | _ => cases failed
  | sequence | array | set | map | pointer | option | tuple | named => cases leaf
  | _ => cases v <;> cases failed

theorem encodeParts_error {e : Error} (failed : (encodeParts registry parts).error = some e) :
    ∃ met part rest, ∃ encodings : List (List UInt8), parts = met ++ part :: rest ∧
      met.length = encodings.length ∧
      (∀ p ∈ met.zip encodings, (encode registry p.1.1 p.1.2).Writes p.2) ∧
      (encode registry part.1 part.2).error = some e ∧
      (encodeParts registry parts).bytes =
        encodings.flatten ++ (encode registry part.1 part.2).bytes := by
  induction parts with
  | nil => cases failed
  | cons part rest ih =>
    rw [encodeParts] at failed ⊢
    cases ends : (encode registry part.1 part.2).error with
    | some found =>
      rw [Output.append_of_error ends] at failed ⊢
      exact ⟨[], part, rest, [], rfl, rfl, fun p none => absurd none List.not_mem_nil, failed, rfl⟩
    | none =>
      rw [Output.error_append, ends, Option.none_or] at failed
      obtain ⟨met, next, others, encodings, rfl, paired, written, fails, bytes⟩ := ih failed
      refine ⟨part :: met, next, others, (encode registry part.1 part.2).bytes :: encodings, rfl,
        congrArg Nat.succ paired, ?_, fails, ?_⟩
      · rw [List.zip_cons_cons, List.forall_mem_cons]
        exact ⟨⟨ends, rfl⟩, written⟩
      · rw [Output.bytes_append ends, bytes, List.flatten_cons, List.append_assoc]

theorem fails_of_error (coherent : registry.Coherent) (typed : HasType registry schema v) {e : Error}
    (failed : (encode registry schema v).error = some e) :
    Fails registry schema v (encode registry schema v).bytes e := by
  induction typed using HasType.inductionOn with
  | leaf schema v typed leaf =>
    rw [encode_leaf leaf] at failed ⊢
    have refused := leafOutput_error leaf failed
    rw [refused]
    exact .leaf leaf refused
  | pointer kind target v pointed ih =>
    rw [encode_pointer] at failed ⊢
    exact .pointer (ih failed)
  | absent item =>
    cases failed
    exact .absent
  | present item v inner ih =>
    rw [encode_present] at failed ⊢
    exact .present (ih failed)
  | composed schema v front parts typed layout each =>
    obtain ⟨bytes, ends⟩ := layout.encode_same coherent typed
    rw [ends, Output.error_append, Output.error_piece, Option.none_or] at failed
    rw [bytes, Output.bytes_append rfl, Output.bytes_piece]
    obtain ⟨met, part, rest, encodings, rfl, paired, written, fails, inner⟩ := encodeParts_error failed
    obtain ⟨_, ih⟩ := each part (by simp)
    rw [inner, ← List.append_assoc]
    exact .part layout paired written (ih fails)

/-- A value that can be told the size of takes the place of the bytes at the write cursor of a memory, and
goes to a sink as it is. Of one that fails midway, both get the encodings of what comes before the
failing part. -/
theorem writeOutput_splice (coherent : registry.Coherent) (typed : HasType registry schema v)
    (emits : Emits registry schema v output) {m : Memory} (within : m.writePosition ≤ m.content.size)
    {w : Writer} (takes : w.failsAt = none) (bits others : PendingBits) :
    (∀ bytes, marshal registry schema v = .ok bytes →
      Buffer.writeOutput output ⟨.memory m, bits⟩ = .ok () ⟨.memory (m.splice bytes), bits⟩ ∧
      Buffer.writeOutput output ⟨.writer w, others⟩ = .ok () ⟨.writer (w.receive bytes), others⟩) ∧
    (∀ e after, Buffer.writeOutput output ⟨.memory m, bits⟩ = .error e after →
      ∃ bytes, Fails registry schema v bytes e ∧ after = ⟨.memory (m.splice bytes), bits⟩ ∧
        Buffer.writeOutput output ⟨.writer w, others⟩ =
          .error e ⟨.writer (w.receive bytes), others⟩) := by
  obtain ⟨bytes, ends⟩ := emits.same coherent typed
  have memory : Buffer.Accepts ⟨.memory m, bits⟩ := True.intro
  have sink : Buffer.Accepts ⟨.writer w, others⟩ := takes
  rw [Buffer.writeOutput_eq memory, Buffer.writeOutput_eq sink, bytes, ends]
  simp only [Buffer.written, Store.written_memory within, Store.written_writer]
  refine ⟨?_, ?_⟩
  · intro encoding marshalled
    obtain ⟨succeeds, rfl⟩ := writes_of_marshal marshalled
    simp only [succeeds, and_self]
  · intro e after run
    cases failed : (encode registry schema v).error with
    | none =>
      rw [failed] at run
      cases run
    | some found =>
      rw [failed] at run
      cases run
      exact ⟨_, fails_of_error coherent typed failed, rfl, rfl⟩

/-- A deque of bytes, and a truth value that may be absent. -/
def packet : Schema := .tuple [.sequence .deque (.integer .u8), .option .bool]

def fullPacket : Value := .list [.list [.int 1, .int 2, .int 3], .option (some (.bool true))]

def brokenPacket : Value := .list [.list [.int 1, .int 2, .int 3], .option none]

/-- The writes of a full packet whose deque lies in two pieces. -/
def packetWrites : Output :=
  Output.piece [] ++ concat
    [Output.unsigned 3 ++ (Output.piece [1] ++ Output.piece [2, 3]), Output.bool true]

theorem hasType_packet (flag : Option Value) (holds : ∀ v ∈ flag, v = .bool true) :
    HasType [] packet (.list [.list [.int 1, .int 2, .int 3], .option flag]) := by
  refine .tuple rfl ?_
  simp only [List.zip_cons_cons, List.zip_nil_left, List.forall_mem_cons]
  refine ⟨.sequence (by decide) ?_, ?_, fun p none => nomatch none⟩
  · simp only [List.forall_mem_cons]
    exact ⟨.leaf rfl ⟨1, rfl, rfl⟩, .leaf rfl ⟨2, rfl, rfl⟩, .leaf rfl ⟨3, rfl, rfl⟩,
      fun v none => nomatch none⟩
  · cases flag with
    | none => exact .absent True.intro
    | some v =>
      obtain rfl := holds v rfl
      exact .present (.leaf rfl ⟨true, rfl⟩)

theorem emits_packet : Emits [] packet fullPacket packetWrites := by
  refine .composed .tuple rfl ?_
  simp only [List.zip_cons_cons, List.zip_nil_left, List.forall_mem_cons]
  exact ⟨.slices [.int 1] [.int 2, .int 3], .present .whole, fun p none => nomatch none⟩

def eight : Memory := ⟨#[10, 20, 30, 40, 50, 60, 70, 80], 1, 2, .short⟩

/-- A packet over the middle of eight bytes, and one that ends before its truth value. -/
theorem writeOutput_splice_packet :
    Buffer.writeOutput packetWrites ⟨.memory eight, .none⟩ =
        .ok () ⟨.memory ⟨#[10, 20, 3, 1, 2, 3, 1, 80], 1, 7, .short⟩, .none⟩ ∧
      ∃ bytes e, Fails [] packet brokenPacket bytes e ∧
        Buffer.writeOutput (encode [] packet brokenPacket) ⟨.memory eight, .none⟩ =
          .error e ⟨.memory (eight.splice bytes), .none⟩ ∧
        Buffer.writeOutput (encode [] packet brokenPacket) ⟨.writer (.onto none), .none⟩ =
          .error e ⟨.writer ((Writer.onto none).receive bytes), .none⟩ := by
  have coherent : Registry.Coherent [] := Registry.coherent_of_derived fun d none => nomatch none
  have room : eight.writePosition ≤ eight.content.size := by decide
  have size : encodedSize [] packet fullPacket = .ok 5 := rfl
  have writes : (encode [] packet fullPacket).Writes [3, 1, 2, 3, 1] := by
    unfold Output.Writes
    decide +kernel
  have marshalled := marshal_of_writes size writes
  have full := writeOutput_splice coherent (hasType_packet (some (.bool true)) (by simp)) emits_packet
    room (w := .onto none) rfl .none .none
  have broken := writeOutput_splice coherent (hasType_packet none (by simp)) .whole
    room (w := .onto none) rfl .none .none
  obtain ⟨bytes, fails, spliced, sink⟩ := broken.2 _ _ rfl
  exact ⟨(full.1 _ marshalled).1, bytes, _, fails,
    congrArg (EStateM.Result.error _) spliced, sink⟩

end Schema

end BinaryCodec
