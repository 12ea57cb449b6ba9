import BinaryCodec.Proofs.Schema.Leaf

namespace BinaryCodec

open Buffer

namespace Message

section items

variable {read : BufferM Value}

theorem readItems_succ (count : Nat) :
    readItems read (count + 1) =
      read >>= fun v => readItems read count >>= fun rest => pure (v :: rest) := rfl

instance sequential_readItems [Sequential read] (count : Nat) :
    Sequential (readItems read count) := by
  induction count with
  | zero => exact sequential_pure []
  | succ count ih =>
    rw [readItems_succ]
    infer_instance

def caseOf (count index : Nat) : Except Error Value :=
  if index < count then .ok (.variant index []) else .error (.invalidTag index)

theorem readChoice_eq (count : Nat) :
    readChoice count = readUnsigned 64 >>= fun index => settle (caseOf count index) := by
  unfold readChoice caseOf
  congr
  funext index
  split <;> rfl

instance sequential_readChoice (count : Nat) : Sequential (readChoice count) := by
  rw [readChoice_eq]
  infer_instance

end items

end Message

namespace Schema

variable {registry : Registry} {declared : String → BufferM Value}

theorem isByte_iff {item : Schema} : item.isByte = true ↔ item = .integer .u8 := by
  constructor
  · intro byte
    unfold isByte at byte
    split at byte
    · rfl
    · cases byte
  · rintro rfl
    rfl

def numbers (bytes : List UInt8) : List Value := bytes.map fun b => .int b.toNat

theorem readSequence_of_isByte {item : Schema} (byte : item.isByte = true) (read : BufferM Value)
    (count : Nat) : readSequence item read count = numbers <$> readBytes count := by
  unfold readSequence
  rw [if_pos byte]
  rfl

theorem readSequence_of_not_isByte {item : Schema} (other : item.isByte = false)
    (read : BufferM Value) (count : Nat) :
    readSequence item read count = Message.readItems read count := by
  unfold readSequence
  rw [if_neg (by rw [other]; exact Bool.false_ne_true)]

instance sequential_readSequence {item : Schema} {read : BufferM Value} [Sequential read]
    (count : Nat) : Sequential (readSequence item read count) := by
  cases byte : item.isByte with
  | true =>
    rw [readSequence_of_isByte byte]
    infer_instance
  | false =>
    rw [readSequence_of_not_isByte byte]
    infer_instance

section schemas

theorem decodeWith_sequence (kind : SequenceKind) (item : Schema) :
    decodeWith registry declared (.sequence kind item) =
      readLength (item.minSize registry) >>= fun count =>
        .list <$> readSequence item (decodeWith registry declared item) count := rfl

theorem decodeWith_array (count : Nat) (item : Schema) :
    decodeWith registry declared (.array count item) =
      .list <$> readSequence item (decodeWith registry declared item) count := rfl

theorem decodeWith_set (order : KeyOrder) (item : Schema) :
    decodeWith registry declared (.set order item) =
      readLength (item.minSize registry) >>= fun count =>
        .setOf order <$> readSequence item (decodeWith registry declared item) count := rfl

theorem decodeWith_map (order : KeyOrder) (key value : Schema) :
    decodeWith registry declared (.map order key value) =
      readLength (key.minSize registry + value.minSize registry) >>= fun count =>
        readSequence key (decodeWith registry declared key) count >>= fun keys =>
          (fun values => .mapOf order (keys.zip values)) <$>
            readSequence value (decodeWith registry declared value) count := rfl

theorem decodeWith_pointer (kind : PointerKind) (target : Schema) :
    decodeWith registry declared (.pointer kind target) = decodeWith registry declared target := rfl

theorem decodeWith_option (item : Schema) :
    decodeWith registry declared (.option item) =
      (fun v => .option (some v)) <$> decodeWith registry declared item := rfl

theorem decodeWith_tuple (items : List Schema) :
    decodeWith registry declared (.tuple items) = .list <$> decodeAll registry declared items := rfl

theorem decodeWith_named (name : String) :
    decodeWith registry declared (.named name) = declared name := rfl

theorem decodeAll_cons (item : Schema) (rest : List Schema) :
    decodeAll registry declared (item :: rest) = decodeWith registry declared item >>= fun v =>
      decodeAll registry declared rest >>= fun vs => pure (v :: vs) := rfl

def readField (registry : Registry) (declared : String → BufferM Value) (field : Field) :
    BufferM Value :=
  match field.skipped with
  | some v => pure v
  | none => decodeWith registry declared field.schema

theorem decodeFields_cons (field : Field) (rest : List Field) :
    decodeFields registry declared (field :: rest) = readField registry declared field >>= fun v =>
      decodeFields registry declared rest >>= fun vs => pure (v :: vs) := by
  rw [decodeFields, readField]
  cases field.skipped <;> rfl

theorem sequential_decodeAll_of_forall {items : List Schema}
    (each : ∀ item ∈ items, Sequential (decodeWith registry declared item)) :
    Sequential (decodeAll registry declared items) := by
  induction items with
  | nil =>
    rw [decodeAll]
    infer_instance
  | cons item rest ih =>
    have first := each item (List.mem_cons_self ..)
    have more := ih fun item member => each item (List.mem_cons_of_mem _ member)
    rw [decodeAll_cons]
    infer_instance

variable [∀ name, Sequential (declared name)]

instance sequential_decodeWith (schema : Schema) :
    Sequential (decodeWith registry declared schema) := by
  induction schema using inductionOn with
  | leaf schema leaf => exact sequential_leaf leaf
  | sequence kind item ih =>
    rw [decodeWith_sequence]
    infer_instance
  | array count item ih =>
    rw [decodeWith_array]
    infer_instance
  | set order item ih =>
    rw [decodeWith_set]
    infer_instance
  | map order key value keyIh valueIh =>
    rw [decodeWith_map]
    infer_instance
  | pointer kind target ih =>
    rw [decodeWith_pointer]
    exact ih
  | option item ih =>
    rw [decodeWith_option]
    infer_instance
  | tuple items ih =>
    have all := sequential_decodeAll_of_forall ih
    rw [decodeWith_tuple]
    infer_instance
  | named name =>
    rw [decodeWith_named]
    infer_instance

instance sequential_decodeAll (items : List Schema) :
    Sequential (decodeAll registry declared items) :=
  sequential_decodeAll_of_forall fun item _ => sequential_decodeWith item

instance sequential_readField (field : Field) : Sequential (readField registry declared field) := by
  unfold readField
  split <;> infer_instance

instance sequential_decodeFields (fields : List Field) :
    Sequential (decodeFields registry declared fields) := by
  induction fields with
  | nil => exact sequential_pure []
  | cons field rest ih =>
    rw [decodeFields_cons]
    infer_instance

end schemas

end Schema

namespace Message

variable {registry : Registry} {message : String → BufferM Value}

theorem decodeStep_repeated {step : Step} (repeated : step.repeated = true) :
    decodeStep registry message step = readLength (step.item.minSize registry) >>= fun count =>
      .list <$> readItems (decodeMove registry message step.read) count := by
  unfold decodeStep
  rw [if_pos repeated]
  rfl

theorem decodeStep_single {step : Step} (single : step.repeated = false) :
    decodeStep registry message step = decodeMove registry message step.read := by
  unfold decodeStep
  rw [if_neg (by rw [single]; exact Bool.false_ne_true)]

theorem decodeSteps_cons (step : Step) (rest : List Step) :
    decodeSteps registry message (step :: rest) = decodeStep registry message step >>= fun v =>
      decodeSteps registry message rest >>= fun vs => pure (v :: vs) := rfl

instance sequential_read (method : Method) : Sequential method.read := by
  cases method <;> unfold Method.read <;> infer_instance

variable [∀ name, Sequential (message name)]

instance sequential_decodeMove (move : Move) : Sequential (decodeMove registry message move) := by
  unfold decodeMove
  split <;> infer_instance

instance sequential_decodeStep (step : Step) : Sequential (decodeStep registry message step) := by
  cases repeated : step.repeated with
  | true =>
    rw [decodeStep_repeated repeated]
    infer_instance
  | false =>
    rw [decodeStep_single repeated]
    infer_instance

instance sequential_decodeSteps (steps : List Step) :
    Sequential (decodeSteps registry message steps) := by
  induction steps with
  | nil => exact sequential_pure []
  | cons step rest ih =>
    rw [decodeSteps_cons]
    infer_instance

end Message

namespace Schema

variable {registry : Registry} {declared : String → BufferM Value}

section declarations

def readCase (registry : Registry) (declared : String → BufferM Value) (variants : List Variant)
    (index : Nat) : BufferM Value :=
  match variants[index]? with
  | some variant => .variant index <$> decodeFields registry declared variant.fields
  | none => throw (.invalidTag index)

instance sequential_readCase [∀ name, Sequential (declared name)] (variants : List Variant)
    (index : Nat) : Sequential (readCase registry declared variants index) := by
  unfold readCase
  split <;> infer_instance

variable {name : String} {fuel : Nat}

theorem decodeNamed_record {fields : List Field}
    (found : registry.shape? name = some (.record fields)) :
    decodeNamed registry (fuel + 1) name =
      .record <$> decodeFields registry (decodeNamed registry fuel) fields := by
  rw [decodeNamed, found]
  rfl

theorem decodeNamed_message {steps : List Step}
    (found : registry.shape? name = some (.message steps)) :
    decodeNamed registry (fuel + 1) name =
      .record <$> Message.decodeSteps registry (decodeNamed registry fuel) steps := by
  rw [decodeNamed, found]
  rfl

theorem decodeNamed_choices {names : List String}
    (found : registry.shape? name = some (.choices names)) :
    decodeNamed registry (fuel + 1) name = Message.readChoice names.length := by
  rw [decodeNamed, found]

theorem decodeNamed_enumeration {variants : List Variant}
    (found : registry.shape? name = some (.enumeration variants)) :
    decodeNamed registry (fuel + 1) name = readUnsigned 64 >>= fun index =>
      readCase registry (decodeNamed registry fuel) variants index := by
  rw [decodeNamed, found]
  rfl

theorem decodeNamed_undeclared (missing : registry.shape? name = none) :
    decodeNamed registry (fuel + 1) name = throw (.unsupportedKind name) := by
  rw [decodeNamed, missing]

instance sequential_decodeNamed (fuel : Nat) (name : String) :
    Sequential (decodeNamed registry fuel name) := by
  induction fuel generalizing name with
  | zero => exact sequential_throw _
  | succ fuel ih =>
    cases found : registry.shape? name with
    | none =>
      rw [decodeNamed_undeclared found]
      infer_instance
    | some shape =>
      cases shape with
      | record fields =>
        rw [decodeNamed_record found]
        infer_instance
      | message steps =>
        rw [decodeNamed_message found]
        infer_instance
      | choices names =>
        rw [decodeNamed_choices found]
        infer_instance
      | enumeration variants =>
        rw [decodeNamed_enumeration found]
        infer_instance

theorem decode_eq (schema : Schema) :
    decode registry schema = unread >>= fun n =>
      decodeWith registry (decodeNamed registry (decodeDepth registry n)) schema := rfl

instance sequential_decode (schema : Schema) : Sequential (decode registry schema) := by
  rw [decode_eq]
  infer_instance

end declarations

section moves

theorem read_signed_eq (type : IntType) (bits : type.varintBits = type.bits)
    (signed : type.isSigned = true) (wide : isSingleByte type = false) :
    .int <$> readSigned type.varintBits = readInteger type := by
  rw [readInteger_eq type wide, if_pos signed]
  refine bind_congr_of_run fun b n after run => ?_
  have holds : type.holds n = true := by
    unfold IntType.holds
    rw [if_pos signed, ← bits]
    exact holds_of_readSigned run
  unfold checkRange
  rw [if_pos holds]
  rfl

theorem read_unsigned_eq (type : IntType) (bits : type.varintBits = type.bits)
    (unsigned : type.isSigned = false) (wide : isSingleByte type = false) :
    (fun n : Nat => .int n) <$> readUnsigned type.varintBits = readInteger type := by
  have other : ¬type.isSigned = true := by rw [unsigned]; exact Bool.false_ne_true
  rw [readInteger_eq type wide, if_neg other]
  refine bind_congr_of_run fun b n after run => ?_
  have holds : type.holds n = true := by
    unfold IntType.holds
    rw [if_neg other, ← bits]
    exact Word.holdsUnsigned_iff.mpr ⟨Int.natCast_nonneg _, Int.ofNat_lt.mpr (lt_of_readUnsigned run)⟩
  unfold checkRange
  rw [if_pos holds]
  rfl

theorem read_fixed_eq (type : IntType) (unsigned : type.isSigned = false) :
    (fun n : Nat => Value.int n) <$> readFixed .little type.width = readFixedInteger .little type := by
  unfold readFixedInteger
  rw [unsigned]
  rfl

theorem map_cast (m : BufferM Nat) :
    (Value.int <$> (m >>= fun n => pure (n : Int))) = (fun n : Nat => Value.int n) <$> m := by
  simp only [map_eq_pure_bind, bind_assoc, pure_bind]

theorem ofBytes_readLimited :
    Value.ofBytes <$> readLimited =
      decodeWith registry declared (.sequence .vector (.integer .u8)) := by
  rw [decodeWith_sequence]
  simp only [readSequence_of_isByte (isByte_iff.mpr rfl)]
  change Value.ofBytes <$> (readLength 1 >>= readBytes) =
    readLength 1 >>= fun count => Value.list <$> numbers <$> readBytes count
  simp only [map_eq_pure_bind, bind_assoc, pure_bind]
  rfl

theorem read_eq_decodeWith (method : Method) :
    method.read = decodeWith registry declared method.schema := by
  cases method with
  | u16 => exact (map_cast _).trans (read_fixed_eq .u16 rfl)
  | u32 => exact (map_cast _).trans (read_fixed_eq .u32 rfl)
  | u64 => exact (map_cast _).trans (read_fixed_eq .u64 rfl)
  | varint => exact read_signed_eq .i64 rfl rfl rfl
  | uvarint => exact (map_cast _).trans (read_unsigned_eq .u64 rfl rfl rfl)
  | varint128 => exact read_signed_eq .i128 rfl rfl rfl
  | limitedBytes => exact ofBytes_readLimited
  | _ => rfl

theorem decodeMove_cases (declared : String → BufferM Value) {move : Move} (known : move.Declared registry) :
    (∃ name names, move.schema = .named name ∧ registry.shape? name = some (.choices names) ∧
      Message.decodeMove registry declared move = Message.readChoice names.length) ∨
    outcome (Message.decodeMove registry declared move) =
      outcome (decodeWith registry declared move.schema) := by
  cases move with
  | call method => exact .inr (congrArg outcome (read_eq_decodeWith method))
  | message name =>
    right
    rw [Move.schema, decodeWith_named]
    rfl
  | choice name =>
    obtain ⟨names, found⟩ := known
    refine .inl ⟨name, names, rfl, found, ?_⟩
    simp only [Message.decodeMove, Message.choiceCount, found]

theorem covers_readItems {read other : BufferM Value} [Sequential read] [Sequential other]
    (covers : Covers other read) (count : Nat) :
    Covers (Message.readItems other count) (Message.readItems read count) := by
  induction count with
  | zero => exact .refl _
  | succ count ih =>
    rw [Message.readItems_succ, Message.readItems_succ]
    exact covers.cons ih

theorem outcome_readItems_bytes [∀ name, Sequential (declared name)] (count : Nat) (ending : Ending)
    {bytes : List UInt8} (enough : count ≤ bytes.length) :
    outcome (Message.readItems (decodeWith registry declared (.integer .u8)) count) ending bytes =
      ⟨.ok (numbers (bytes.take count)), count⟩ := by
  induction count generalizing bytes with
  | zero => exact outcome_pure ending bytes []
  | succ count ih =>
    cases bytes with
    | nil => cases enough
    | cons b rest =>
      have first : outcome (decodeWith registry declared (.integer .u8)) ending (b :: rest) =
          ⟨.ok (.int b.toNat), 1⟩ := by
        change outcome (readInteger .u8) ending (b :: rest) = _
        rw [readInteger_single .u8 rfl, outcome_map, outcome_readByte_cons]
        rfl
      have more := ih (Nat.le_of_succ_le_succ enough)
      rw [Message.readItems_succ, outcome_bind, first, Reading.andThen_ok, outcome_bind,
        List.drop_one, List.tail_cons, more]
      simp only [Reading.andThen_ok, outcome_pure, Nat.add_zero, List.take_succ_cons]
      rw [Nat.add_comm]
      rfl

theorem covers_readSequence [∀ name, Sequential (declared name)] (item : Schema) (count : Nat) :
    Covers (Message.readItems (decodeWith registry declared item) count)
      (readSequence item (decodeWith registry declared item) count) := by
  cases byte : item.isByte with
  | false =>
    rw [readSequence_of_not_isByte byte]
    exact .refl _
  | true =>
    obtain rfl := isByte_iff.mp byte
    rw [readSequence_of_isByte byte]
    intro ending bytes vs n run
    rw [outcome_map, outcome_readBytes, exactly] at run
    split at run
    · cases run
    · next enough =>
      cases run
      exact outcome_readItems_bytes count ending (by omega)

theorem covers_decodeMove (fuel : Nat) {move : Move} (known : move.Declared registry) :
    Covers (Message.decodeMove registry (decodeNamed registry fuel) move)
      (decodeWith registry (decodeNamed registry fuel) move.schema) := by
  rcases decodeMove_cases (decodeNamed registry fuel) known with
    ⟨name, names, schema, found, read⟩ | same
  · rw [schema, read, decodeWith_named]
    cases fuel with
    | zero =>
      intro ending bytes v n run
      rw [decodeNamed, outcome_throw] at run
      cases run
    | succ fuel =>
      rw [decodeNamed_choices found]
      exact .refl _
  · exact .of_eq same

theorem covers_decodeStep (fuel : Nat) {step : Step} (coherent : step.Coherent registry) :
    Covers (Message.decodeStep registry (decodeNamed registry fuel) step)
      (decodeWith registry (decodeNamed registry fuel) step.schema) := by
  have covers := covers_decodeMove fuel coherent.read_declared
  rw [coherent.read_schema] at covers
  unfold Step.schema
  cases repeated : step.repeated with
  | false =>
    rw [Message.decodeStep_single repeated]
    exact covers
  | true =>
    rw [Message.decodeStep_repeated repeated, if_pos rfl, decodeWith_sequence]
    refine (Covers.refl _).bind fun count => Covers.map _ ?_
    exact (covers_readItems covers count).trans (covers_readSequence step.item count)

theorem covers_decodeSteps (fuel : Nat) {steps : List Step}
    (coherent : ∀ step ∈ steps, step.Coherent registry) :
    Covers (Message.decodeSteps registry (decodeNamed registry fuel) steps)
      (decodeFields registry (decodeNamed registry fuel) (steps.map Step.toField)) := by
  induction steps with
  | nil => exact .refl _
  | cons step rest ih =>
    have first := covers_decodeStep fuel (coherent step (List.mem_cons_self ..))
    have more := ih fun step member => coherent step (List.mem_cons_of_mem _ member)
    rw [Message.decodeSteps_cons, List.map_cons, decodeFields_cons]
    exact Covers.cons (m := readField registry _ step.toField) first more

end moves

end Schema

end BinaryCodec
