import BinaryCodec.Proofs.Buffer.Number
import BinaryCodec.Proofs.Varint.Exact

namespace BinaryCodec.Buffer

open Varint (lastGroup? groupsOf groupCount decodeUnsigned decodeAll encodeAll encodeUnsigned)

variable {bytes rest : List UInt8} {ending : Ending} {bits count used start : Nat}

section loops

theorem readGroups_eq (left : Nat) : readGroups left = groupsOf readByte left := by
  induction left with
  | zero => rfl
  | succ left ih => rw [readGroups, groupsOf, ih]

theorem readUnsigned_eq_word (narrow : bits ≤ 128) :
    readUnsigned bits =
      (fun word => (word.setWidth bits).toNat) <$> Varint.readUnsigned readByte bits := by
  rw [Varint.readUnsigned, Varint.gatherUnsigned_eq narrow (Varint.groupCount_near bits) (by decide),
    ← readGroups_eq, readUnsigned_eq, map_bind]
  congr
  funext groups
  cases groups with
  | none => rfl
  | some groups =>
    simp only [Varint.finishUnsigned_zero, ofGroups, Varint.unsigned?]
    split
    · next small => simp only [map_pure, Varint.toNat_setWidth_ofNat narrow small]; rfl
    · rfl

theorem readSigned_eq_word (positive : 0 < bits) (narrow : bits ≤ 128) :
    readSigned bits =
      (fun word => (word.setWidth bits).toInt) <$> Varint.readSigned readByte bits := by
  rw [Varint.readSigned, Varint.gatherSigned_eq positive narrow (Varint.groupCount_near bits)
    (by decide) (by decide), ← readGroups_eq, readSigned_eq, map_bind]
  congr
  funext groups
  cases groups with
  | none => rfl
  | some groups =>
    simp only [Varint.finishSigned_zero, ofGroups, Varint.signed?]
    split
    · next holds => simp only [map_pure, Varint.toInt_setWidth_ofInt positive narrow holds]; rfl
    · rfl

end loops

section one

/-- Whether two errors are both the end of the data, or both an integer that is too wide. -/
def SameKind : Error → Error → Prop
  | .endOfData .., .endOfData .. => True
  | .varintOverflow m, .varintOverflow n => m = n
  | _, _ => False

theorem outcome_readGroups (left : Nat) (ending : Ending) (bytes : List UInt8) :
    outcome (readGroups left) ending bytes =
      match lastGroup? bytes with
      | some k => if k < left then ⟨.ok (some (bytes.take (k + 1))), k + 1⟩ else ⟨.ok none, left⟩
      | none =>
        if bytes.length < left then ⟨.error (ending.shortage 1 0), bytes.length⟩
        else ⟨.ok none, left⟩ := by
  induction left generalizing bytes with
  | zero =>
    rw [readGroups, outcome_pure]
    cases lastGroup? bytes <;> rfl
  | succ left ih =>
    rw [readGroups, outcome_bind]
    cases bytes with
    | nil => rw [outcome_readByte_nil]; rfl
    | cons b rest =>
      rw [outcome_readByte_cons, Reading.andThen_ok, Varint.lastGroup?_cons, List.drop_one,
        List.tail_cons]
      by_cases ends : b < 128
      · simp [ends]
      · simp only [ends, if_false, outcome_bind, ih]
        cases lastGroup? rest with
        | none =>
          by_cases short : rest.length < left
          · simp [short, Nat.add_comm 1]
          · simp [short, Nat.add_comm 1]
        | some k =>
          by_cases enough : k < left
          · simp [enough, Nat.add_comm 1]
          · simp [enough, Nat.add_comm 1]

/-- Decoding from the front of the upcoming bytes and reading from the buffer come to the same integer and
take the same bytes, or they fail alike. -/
def Mirrors {α : Type} (decoded : Except Error (α × Nat)) (reading : Reading α) : Prop :=
  match decoded with
  | .ok (value, used) => reading = ⟨.ok value, used⟩
  | .error e => ∃ other used, reading = ⟨.error other, used⟩ ∧ SameKind e other

theorem mirrors_readUnsigned (narrow : bits ≤ 128) (clean : ending.fault? = none)
    (bytes : List UInt8) :
    Mirrors (decodeUnsigned bits bytes) (outcome (readUnsigned bits) ending bytes) := by
  rw [Varint.decodeUnsigned_eq narrow, readUnsigned_eq, outcome_bind, outcome_readGroups,
    Varint.frontGroups]
  cases found : lastGroup? bytes with
  | none =>
    by_cases short : bytes.length < groupCount bits
    · simp only [short, if_true, Reading.andThen_error]
      exact ⟨_, _, rfl, by simp only [Ending.shortage, clean, SameKind]⟩
    · simp only [short, if_false, Reading.andThen_ok, outcome_settle]
      exact ⟨_, _, rfl, rfl⟩
  | some k =>
    by_cases enough : k < groupCount bits
    · simp only [enough, if_true, Reading.andThen_ok, outcome_settle, ofGroups]
      cases came : Varint.unsigned? bits (bytes.take (k + 1)) with
      | error e =>
        obtain rfl := Varint.unsigned?_error came
        simp only [bind, Except.bind, came]
        exact ⟨_, _, rfl, rfl⟩
      | ok value =>
        simp only [bind, Except.bind, came, Except.map, Varint.length_take_lastGroup? found]
        rfl
    · simp only [enough, if_false, Reading.andThen_ok, outcome_settle]
      exact ⟨_, _, rfl, rfl⟩

end one

section batch

def readUnsigneds : (count : Nat) → BufferM (List Nat)
  | 0 => return []
  | count + 1 => do
    let value ← readUnsigned 64
    return value :: (← readUnsigneds count)

instance sequential_readUnsigneds (count : Nat) : Sequential (readUnsigneds count) := by
  induction count with
  | zero => exact sequential_pure []
  | succ count ih =>
    unfold readUnsigneds
    infer_instance

theorem outcome_readUnsigneds_succ {value more : Nat} {result : Except Error (List Nat)}
    (first : outcome (readUnsigned 64) ending bytes = ⟨.ok value, used⟩)
    (others : outcome (readUnsigneds count) ending (bytes.drop used) = ⟨result, more⟩) :
    outcome (readUnsigneds (count + 1)) ending bytes =
      ⟨result.map (value :: ·), used + more⟩ := by
  rw [readUnsigneds, outcome_bind, first, Reading.andThen_ok, outcome_bind, others]
  cases result with
  | error e => rfl
  | ok values => simp [Except.map]

theorem outcome_of_decodeAll (clean : ending.fault? = none) {values : List Nat}
    (decoded : decodeAll count bytes = .ok (used, values)) :
    outcome (readUnsigneds count) ending bytes = ⟨.ok values, used⟩ := by
  induction count generalizing bytes used values with
  | zero =>
    cases decoded
    rw [readUnsigneds, outcome_pure]
  | succ count ih =>
    have first := mirrors_readUnsigned (show 64 ≤ 128 by decide) clean bytes
    rw [decodeAll] at decoded
    cases came : decodeUnsigned 64 bytes with
    | error e =>
      rw [came] at decoded
      cases decoded
    | ok pair =>
      obtain ⟨value, taken⟩ := pair
      rw [came] at decoded first
      cases later : decodeAll count (bytes.drop taken) with
      | error e =>
        simp only [bind, Except.bind, later] at decoded
        cases decoded
      | ok pair =>
        obtain ⟨more, others⟩ := pair
        simp only [bind, Except.bind, later] at decoded
        cases decoded
        exact outcome_readUnsigneds_succ first (ih later)

theorem outcome_of_decodeAll_error (clean : ending.fault? = none) {e : Error}
    (failed : decodeAll count bytes = .error e) :
    ∃ i < count, ∃ used values other more,
      decodeAll i bytes = .ok (used, values) ∧
      decodeUnsigned 64 (bytes.drop used) = .error e ∧
      outcome (readUnsigned 64) ending (bytes.drop used) = ⟨.error other, more⟩ ∧
      outcome (readUnsigneds count) ending bytes = ⟨.error other, used + more⟩ ∧
      SameKind e other := by
  induction count generalizing bytes with
  | zero => cases failed
  | succ count ih =>
    have first := mirrors_readUnsigned (show 64 ≤ 128 by decide) clean bytes
    rw [decodeAll] at failed
    cases came : decodeUnsigned 64 bytes with
    | error e =>
      rw [came] at failed first
      cases failed
      obtain ⟨other, more, read, same⟩ := first
      refine ⟨0, Nat.zero_lt_succ _, 0, [], other, more, rfl, came, read, ?_, same⟩
      rw [readUnsigneds, outcome_bind, read, Reading.andThen_error, Nat.zero_add]
    | ok pair =>
      obtain ⟨value, taken⟩ := pair
      rw [came] at failed first
      cases later : decodeAll count (bytes.drop taken) with
      | ok pair =>
        simp only [bind, Except.bind, later] at failed
        cases failed
      | error e =>
        simp only [bind, Except.bind, later] at failed
        cases failed
        obtain ⟨i, inside, used, values, other, more, before, fails, read, all, same⟩ := ih later
        rw [List.drop_drop] at fails read
        refine ⟨i + 1, Nat.succ_lt_succ inside, taken + used, value :: values, other, more,
          ?_, fails, read, ?_, same⟩
        · simp only [decodeAll, came, before, bind, Except.bind]
          rfl
        · rw [outcome_readUnsigneds_succ first all, Nat.add_assoc]
          rfl

theorem decodeAll_encodeAll (values : List UInt64) (rest : List UInt8) :
    decodeAll values.length (encodeAll (values.map UInt64.toNat) ++ rest) =
      .ok ((encodeAll (values.map UInt64.toNat)).length, values.map UInt64.toNat) := by
  induction values with
  | nil => rfl
  | cons value values ih =>
    have first := Varint.decodeUnsigned_encodeUnsigned (show 0 < 64 by decide)
      (show 64 ≤ 128 by decide) value.toNat (encodeAll (values.map UInt64.toNat) ++ rest)
    rw [if_pos value.toNat_lt] at first
    have all : encodeAll (value.toNat :: values.map UInt64.toNat) =
        encodeUnsigned value.toNat ++ encodeAll (values.map UInt64.toNat) := List.flatMap_cons
    rw [List.map_cons, all, List.append_assoc, List.length_cons, decodeAll, first]
    simp only [bind, Except.bind, List.drop_left, ih, List.length_append]
    rfl

/-- Decoding a number of integers from the upcoming bytes of a buffer and reading them one by one come to
the same integers and the same place, or fail alike at the same one of them. What is encoded one after
the other is decoded again. -/
theorem decodeAll_agrees {b : Buffer} (delivers : b.Delivers) (clean : b.ending.fault? = none)
    (begins : b.store.readPosition = .ok start) (count : Nat) :
    (∀ used values, decodeAll count b.upcoming = .ok (used, values) →
      ∃ after, readUnsigneds count b = .ok values after ∧
        after.store.readPosition = .ok (start + used)) ∧
    (∀ values after, readUnsigneds count b = .ok values after →
      ∃ used, decodeAll count b.upcoming = .ok (used, values) ∧
        after.store.readPosition = .ok (start + used)) ∧
    (∀ e, decodeAll count b.upcoming = .error e →
      ∃ i < count, ∃ used values middle other after,
        decodeAll i b.upcoming = .ok (used, values) ∧
        decodeUnsigned 64 (b.upcoming.drop used) = .error e ∧
        readUnsigneds i b = .ok values middle ∧
        readUnsigned 64 middle = .error other after ∧
        readUnsigneds count b = .error other after ∧ SameKind e other) ∧
    ∀ (values : List UInt64) (rest : List UInt8),
      decodeAll values.length (encodeAll (values.map UInt64.toNat) ++ rest) =
        .ok ((encodeAll (values.map UInt64.toNat)).length, values.map UInt64.toNat) := by
  refine ⟨fun used values decoded => ?_, fun values after run => ?_, fun e failed => ?_,
    decodeAll_encodeAll⟩
  · exact (answers_iff delivers begins values used).mpr (outcome_of_decodeAll clean decoded)
  · obtain ⟨used, read, rfl⟩ := outcome_of_ok delivers run
    refine ⟨used, ?_, readPosition_advance begins used⟩
    cases decoded : decodeAll count b.upcoming with
    | error e =>
      obtain ⟨i, -, used, values, other, more, -, -, -, all, -⟩ :=
        outcome_of_decodeAll_error clean decoded
      cases all.symm.trans read
    | ok pair =>
      cases (outcome_of_decodeAll clean decoded).symm.trans read
      rfl
  · obtain ⟨i, inside, used, values, other, more, before, fails, read, all, same⟩ :=
      outcome_of_decodeAll_error clean failed
    refine ⟨i, inside, used, values, b.advance used, other, b.advance (used + more), before, fails,
      run_of_outcome delivers (outcome_of_decodeAll clean before), ?_, run_of_outcome delivers all, same⟩
    have last : readUnsigned 64 (b.advance used) = (b.advance used).conclude ⟨.error other, more⟩ := by
      refine run_of_outcome (delivers.advance used) ?_
      rw [ending_advance, upcoming_advance, read]
    rw [last, conclude_error, advance_advance]

/-- Two groups, and a third that announces another one after the end. -/
theorem decodeAll_agrees_truncated :
    (∃ after, readUnsigneds 1 (.ofList [0x80, 0x01, 0xff]) = .ok [128] after ∧
      after.store.readPosition = .ok 2) ∧
    ∃ i < 2, ∃ other after, readUnsigneds 2 (.ofList [0x80, 0x01, 0xff]) = .error other after ∧
      SameKind (.endOfData 2 1) other := by
  have delivers : (ofList [0x80, 0x01, 0xff]).Delivers := rfl
  have begins : (ofList [0x80, 0x01, 0xff]).store.readPosition = .ok 0 := rfl
  obtain ⟨i, inside, -, -, -, other, after, -, -, -, -, all, same⟩ :=
    (decodeAll_agrees delivers rfl begins 2).2.2.1 (.endOfData 2 1) rfl
  refine ⟨?_, i, inside, other, after, all, same⟩
  exact (decodeAll_agrees delivers rfl begins 1).1 2 [128] rfl

end batch

end BinaryCodec.Buffer
