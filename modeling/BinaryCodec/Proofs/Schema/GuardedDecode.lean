import BinaryCodec.Proofs.Buffer.GuardedOperations

namespace BinaryCodec

open Buffer

variable {changes bits : Bool}

namespace Message

instance guarded_readItems (read : BufferM Value) [Guarded changes bits id read] :
    (count : Nat) → Guarded changes bits id (readItems read count)
  | 0 => guarded_pure []
  | count + 1 =>
    have := guarded_readItems read count
    .ofEq (readItems_succ count).symm inferInstance

instance guarded_readChoice (count : Nat) : Guarded changes bits id (readChoice count) :=
  .ofEq (readChoice_eq count).symm inferInstance

end Message

namespace Schema

variable {registry : Registry} {declared : String → BufferM Value}

instance guarded_readSequence (item : Schema) (read : BufferM Value) [Guarded changes bits id read] (count : Nat) :
    Guarded changes bits id (readSequence item read count) := by
  cases byte : item.isByte with
  | true => exact .ofEq (readSequence_of_isByte byte read count).symm inferInstance
  | false => exact .ofEq (readSequence_of_not_isByte byte read count).symm inferInstance

section leaves

instance guarded_checkRange (type : IntType) (n : Int) : Guarded changes bits id (checkRange type n) := by
  delta checkRange
  infer_instance

instance guarded_readInteger (type : IntType) : Guarded changes bits id (readInteger type) := by
  cases narrow : isSingleByte type with
  | true => exact .ofEq (readInteger_single type narrow).symm inferInstance
  | false => exact .ofEq (readInteger_eq type narrow).symm inferInstance

instance guarded_readFixedInteger (order : ByteOrder) (type : IntType) :
    Guarded changes bits id (readFixedInteger order type) := by
  delta readFixedInteger
  infer_instance

instance guarded_readSingleChar : Guarded changes bits id readSingleChar :=
  .ofEq readSingleChar_eq.symm inferInstance

end leaves

section schemas

variable [∀ name, Guarded changes bits id (declared name)]

mutual

instance guarded_decodeWith : (schema : Schema) → Guarded changes bits id (decodeWith registry declared schema)
  | .unit | .phantom _ => guarded_pure Value.unit
  | .bool => inferInstanceAs (Guarded changes bits id (Value.bool <$> readBool))
  | .integer type => guarded_readInteger type
  | .fixed order type => guarded_readFixedInteger order type
  | .float order type => inferInstanceAs (Guarded changes bits id (Value.float <$> readFixed order type.width))
  | .char => guarded_readSingleChar
  | .string => inferInstanceAs (Guarded changes bits id (Value.text <$> readString))
  | .fixedString width => inferInstanceAs (Guarded changes bits id (Value.text <$> readFixedString width))
  | .cstring => inferInstanceAs (Guarded changes bits id (Value.text <$> readCString))
  | .bytes => inferInstanceAs (Guarded changes bits id (Value.ofBytes <$> readLimited))
  | .uuid => inferInstanceAs (Guarded changes bits id (Value.uuid <$> readUuid))
  | .time => inferInstanceAs (Guarded changes bits id (Value.instant <$> readTime))
  | .date => inferInstanceAs (Guarded changes bits id (Value.instant <$> readDate))
  | .unsupported target => guarded_throw (.unsupportedKind (target.typeName registry))
  | .sequence kind item =>
    have := guarded_decodeWith item
    .ofEq (decodeWith_sequence kind item).symm inferInstance
  | .array count item =>
    have := guarded_decodeWith item
    .ofEq (decodeWith_array count item).symm inferInstance
  | .set order item =>
    have := guarded_decodeWith item
    .ofEq (decodeWith_set order item).symm inferInstance
  | .map order key value =>
    have := guarded_decodeWith key
    have := guarded_decodeWith value
    .ofEq (decodeWith_map order key value).symm inferInstance
  | .pointer _ target => guarded_decodeWith target
  | .option item =>
    have := guarded_decodeWith item
    .ofEq (decodeWith_option item).symm inferInstance
  | .tuple items =>
    have := guarded_decodeAll items
    .ofEq (decodeWith_tuple items).symm inferInstance
  | .named name => inferInstanceAs (Guarded changes bits id (declared name))

instance guarded_decodeAll : (items : List Schema) → Guarded changes bits id (decodeAll registry declared items)
  | [] => guarded_pure []
  | item :: rest =>
    have := guarded_decodeWith item
    have := guarded_decodeAll rest
    .ofEq (decodeAll_cons item rest).symm inferInstance

end

instance guarded_readField (field : Field) : Guarded changes bits id (readField registry declared field) := by
  delta readField
  cases field.skipped with
  | some v => exact guarded_pure v
  | none => exact guarded_decodeWith field.schema

instance guarded_decodeFields : (fields : List Field) → Guarded changes bits id (decodeFields registry declared fields)
  | [] => guarded_pure []
  | field :: rest =>
    have := guarded_decodeFields rest
    .ofEq (decodeFields_cons field rest).symm inferInstance

end schemas

end Schema

namespace Message

instance guarded_read (method : Method) : Guarded changes bits id method.read := by
  cases method <;> delta Method.read <;> infer_instance

variable {registry : Registry} {message : String → BufferM Value} [∀ name, Guarded changes bits id (message name)]

instance guarded_decodeMove : (move : Move) → Guarded changes bits id (decodeMove registry message move)
  | .call method => guarded_read method
  | .message name => inferInstanceAs (Guarded changes bits id (message name))
  | .choice name => guarded_readChoice (choiceCount registry name)

instance guarded_decodeStep (step : Step) : Guarded changes bits id (decodeStep registry message step) := by
  cases repeated : step.repeated with
  | true => exact .ofEq (decodeStep_repeated repeated).symm inferInstance
  | false => exact .ofEq (decodeStep_single repeated).symm inferInstance

instance guarded_decodeSteps : (steps : List Step) → Guarded changes bits id (decodeSteps registry message steps)
  | [] => guarded_pure []
  | step :: rest =>
    have := guarded_decodeSteps rest
    .ofEq (decodeSteps_cons step rest).symm inferInstance

end Message

namespace Schema

variable {registry : Registry} {declared : String → BufferM Value}

section declarations

instance guarded_readCase [∀ name, Guarded changes bits id (declared name)] (variants : List Variant) (index : Nat) :
    Guarded changes bits id (readCase registry declared variants index) := by
  delta readCase
  cases variants[index]? with
  | some variant => exact guarded_map _ _
  | none => exact guarded_throw _

instance guarded_decodeNamed : (fuel : Nat) → (name : String) → Guarded changes bits id (decodeNamed registry fuel name)
  | 0, _ => guarded_throw _
  | fuel + 1, name =>
    have := guarded_decodeNamed fuel
    match found : registry.shape? name with
    | none => .ofEq (decodeNamed_undeclared found).symm inferInstance
    | some (.record _) => .ofEq (decodeNamed_record found).symm inferInstance
    | some (.message _) => .ofEq (decodeNamed_message found).symm inferInstance
    | some (.choices _) => .ofEq (decodeNamed_choices found).symm inferInstance
    | some (.enumeration _) => .ofEq (decodeNamed_enumeration found).symm inferInstance

instance guarded_decode (schema : Schema) : Guarded changes bits id (decode registry schema) :=
  .ofEq (decode_eq schema).symm inferInstance

end declarations

end Schema

instance Buffer.guarded_writeOutput (output : Output) : Guarded true bits id (writeOutput output) := by
  delta writeOutput
  refine @guarded_bind _ _ _ _ _ _ _ _ fun _ => ?_
  cases output.error with
  | some e => exact guarded_throw e
  | none => exact guarded_pure ()

end BinaryCodec
