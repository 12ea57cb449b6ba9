import BinaryCodec.Buffer.Number
import BinaryCodec.Proofs.Buffer.Contract
import BinaryCodec.Proofs.Uuid
import BinaryCodec.Proofs.Varint

namespace BinaryCodec.Buffer

variable {α : Type}

section pieces

variable {m : BufferM (List UInt8)} {n : Nat}

theorem Decodes.of_exactly (same : outcome m = exactly n 0) {bytes : List UInt8}
    (h : bytes.length = n) : Decodes m bytes bytes := by
  intro ending rest
  subst h
  rw [same, exactly, if_neg]
  · simp
  · rw [List.length_append]
    omega

theorem Yields.of_exactly (same : outcome m = exactly n 0) :
    Yields m fun bytes used => bytes.length = n ∧ used = n := by
  intro ending bytes v result
  rw [same] at result ⊢
  unfold exactly at result ⊢
  split at result
  · cases result
  · next long =>
    cases result
    rw [if_neg long]
    simp only [List.length_take]
    omega

theorem Uniform.of_exactly (same : outcome m = exactly n 0) : Uniform m := by
  funext bytes
  simp [same, exactly, Ending.shortage]

theorem decodes_readBytes {bytes : List UInt8} (h : bytes.length = n) :
    Decodes (readBytes n) bytes bytes := .of_exactly (outcome_readBytes n) h

theorem yields_readBytes (n : Nat) :
    Yields (readBytes n) fun bytes used => bytes.length = n ∧ used = n :=
  .of_exactly (outcome_readBytes n)

theorem uniform_readBytes (n : Nat) : Uniform (readBytes n) := .of_exactly (outcome_readBytes n)

theorem decodes_readExact {bytes : List UInt8} (h : bytes.length = n) :
    Decodes (readExact n) bytes bytes := .of_exactly (outcome_readExact n) h

theorem yields_readExact (n : Nat) :
    Yields (readExact n) fun bytes used => bytes.length = n ∧ used = n :=
  .of_exactly (outcome_readExact n)

theorem uniform_readExact (n : Nat) : Uniform (readExact n) := .of_exactly (outcome_readExact n)

theorem decodes_readByte (b : UInt8) : Decodes readByte [b] b := fun ending rest =>
  outcome_readByte_cons ending b rest

theorem yields_readByte : Yields readByte fun _ used => used = 1 :=
  (yields_readExact 1).map fun _ _ h => h.2

theorem uniform_readByte : Uniform readByte := (uniform_readExact 1).map

end pieces

section varints

instance sequential_readGroups (left : Nat) : Sequential (readGroups left) := by
  induction left with
  | zero => exact sequential_pure none
  | succ left ih =>
    unfold readGroups
    infer_instance

theorem decodes_readGroups {groups : List UInt8} (grouped : Varint.Grouped groups) {left : Nat}
    (enough : groups.length ≤ left) : Decodes (readGroups left) groups (some groups) := by
  obtain ⟨continued, last, rfl, all, ends⟩ := grouped
  induction continued generalizing left with
  | nil =>
    cases left with
    | zero => simp at enough
    | succ left =>
      unfold readGroups
      apply (decodes_readByte last).bind_pure
      rw [if_pos ends]
      exact .pure _
  | cons group continued ih =>
    cases left with
    | zero => simp at enough
    | succ left =>
      have more : ¬group < 128 := by
        have := all group (List.mem_cons_self ..)
        rw [UInt8.not_lt]
        exact this
      have fewer : (continued ++ [last]).length ≤ left := by
        simp only [List.cons_append, List.length_cons] at enough
        omega
      have rest := ih fewer fun b member => all b (List.mem_cons_of_mem _ member)
      unfold readGroups
      apply (decodes_readByte group).bind
      rw [if_neg more]
      exact rest.bind_pure (.pure _)

theorem yields_readGroups (left : Nat) :
    Yields (readGroups left) fun groups used => groups.isSome → 0 < used := by
  cases left with
  | zero => exact .pure (by simp)
  | succ left =>
    unfold readGroups
    refine yields_readByte.bind fun group used taken => ?_
    exact (Yields.trivial _).mono fun _ _ _ _ => by omega

theorem uniform_readGroups (left : Nat) : Uniform (readGroups left) := by
  induction left with
  | zero => exact .pure none
  | succ left ih =>
    unfold readGroups
    apply uniform_readByte.bind
    intro group
    split
    · exact .pure _
    · exact ih.bind fun _ => .pure _

def ofGroups (decode : List UInt8 → Except Error α) (bits : Nat) :
    (groups : Option (List UInt8)) → Except Error α
  | some groups => decode groups
  | none => .error (.varintOverflow bits)

theorem readUnsigned_eq (bits : Nat) :
    readUnsigned bits = readGroups (Varint.groupCount bits) >>= fun groups =>
      settle (ofGroups (Varint.unsigned? bits) bits groups) := by
  unfold readUnsigned
  congr
  funext groups
  cases groups <;> rfl

theorem readSigned_eq (bits : Nat) :
    readSigned bits = readGroups (Varint.groupCount bits) >>= fun groups =>
      settle (ofGroups (Varint.signed? bits) bits groups) := by
  unfold readSigned
  congr
  funext groups
  cases groups <;> rfl

instance sequential_readUnsigned (bits : Nat) : Sequential (readUnsigned bits) := by
  rw [readUnsigned_eq]
  infer_instance

instance sequential_readSigned (bits : Nat) : Sequential (readSigned bits) := by
  rw [readSigned_eq]
  infer_instance

theorem decodes_readUnsigned {bits n : Nat} (positive : 0 < bits) (h : n < Word.count bits) :
    Decodes (readUnsigned bits) (Varint.encodeUnsigned n) n := by
  have enough := Varint.unsignedLength_le positive h
  rw [← Varint.length_encodeUnsigned] at enough
  rw [readUnsigned_eq]
  apply (decodes_readGroups (Varint.grouped_encodeUnsigned n) enough).bind_pure
  rw [ofGroups, Varint.unsigned?_encodeUnsigned h]
  exact .settle n

theorem decodes_readSigned {bits : Nat} {n : Int} (positive : 0 < bits)
    (h : Word.holdsSigned bits n = true) :
    Decodes (readSigned bits) (Varint.encodeSigned n) n := by
  have enough := Varint.signedLength_le positive h
  rw [← Varint.length_encodeSigned] at enough
  rw [readSigned_eq]
  apply (decodes_readGroups (Varint.grouped_encodeSigned n) enough).bind_pure
  rw [ofGroups, Varint.signed?_encodeSigned h]
  exact .settle n

theorem yields_ofGroups {Q : α → Prop} {decode : List UInt8 → Except Error α} {bits : Nat}
    (sound : ∀ groups v, decode groups = .ok v → Q v) {groups : Option (List UInt8)} {used : Nat}
    (taken : groups.isSome → 0 < used) :
    Yields (settle (ofGroups decode bits groups)) fun v k => Q v ∧ 0 < used + k := by
  refine .settle fun v result => ?_
  cases groups with
  | none => cases result
  | some groups => exact ⟨sound groups v result, taken rfl⟩

theorem yields_readUnsigned (bits : Nat) :
    Yields (readUnsigned bits) fun n used => n < Word.count bits ∧ 0 < used := by
  rw [readUnsigned_eq]
  refine (yields_readGroups _).bind fun groups used taken => ?_
  exact yields_ofGroups (fun _ _ result => Varint.lt_of_unsigned? result) taken

theorem yields_readSigned (bits : Nat) :
    Yields (readSigned bits) fun n used => Word.holdsSigned bits n = true ∧ 0 < used := by
  rw [readSigned_eq]
  refine (yields_readGroups _).bind fun groups used taken => ?_
  exact yields_ofGroups (fun _ _ result => Varint.holds_of_signed? result) taken

theorem ofGroups_of_run {decode : List UInt8 → Except Error α} {bits left : Nat} {b after : Buffer}
    {v : α} (run : (readGroups left >>= fun groups => settle (ofGroups decode bits groups)) b =
      .ok v after) : ∃ groups, decode groups = .ok v := by
  rw [bind_apply] at run
  cases came : readGroups left b with
  | error e b => rw [came] at run; cases run
  | ok groups b =>
    rw [came] at run
    cases groups with
    | none => cases run
    | some groups =>
      cases decoded : decode groups with
      | error e =>
        simp only [ofGroups, decoded] at run
        cases run
      | ok w =>
        simp only [ofGroups, decoded] at run
        cases run
        exact ⟨groups, decoded⟩

theorem lt_of_readUnsigned {bits n : Nat} {b after : Buffer}
    (run : readUnsigned bits b = .ok n after) : n < Word.count bits := by
  rw [readUnsigned_eq] at run
  obtain ⟨groups, decoded⟩ := ofGroups_of_run run
  exact Varint.lt_of_unsigned? decoded

theorem holds_of_readSigned {bits : Nat} {n : Int} {b after : Buffer}
    (run : readSigned bits b = .ok n after) : Word.holdsSigned bits n = true := by
  rw [readSigned_eq] at run
  obtain ⟨groups, decoded⟩ := ofGroups_of_run run
  exact Varint.holds_of_signed? decoded

theorem uniform_readUnsigned (bits : Nat) : Uniform (readUnsigned bits) := by
  rw [readUnsigned_eq]
  exact (uniform_readGroups _).bind fun _ => .settle _

theorem uniform_readSigned (bits : Nat) : Uniform (readSigned bits) := by
  rw [readSigned_eq]
  exact (uniform_readGroups _).bind fun _ => .settle _

end varints

section lengths

def checkRoom (itemSize length : Nat) : BufferM Unit :=
  available >>= fun known =>
    if known.any (· < needed length itemSize) then
      throw (.lengthExceedsInput length (known.getD 0))
    else pure ()

theorem readLength_eq (itemSize : Nat) :
    readLength itemSize = readUnsigned 64 >>= fun length =>
      checkRoom itemSize length >>= fun _ => pure length := by
  unfold readLength checkRoom
  congr
  funext length b
  simp only [bind_apply]
  cases available b with
  | error e b => rfl
  | ok known b =>
    cases known with
    | none => rfl
    | some room =>
      by_cases short : room < needed length itemSize
      · simp [short, bind_apply]
      · simp [short]
        rfl

instance sequential_checkRoom (itemSize length : Nat) : Sequential (checkRoom itemSize length) := by
  unfold checkRoom
  infer_instance

instance sequential_readLength (itemSize : Nat) : Sequential (readLength itemSize) := by
  rw [readLength_eq]
  infer_instance

theorem outcome_checkRoom (itemSize length : Nat) (ending : Ending) (bytes : List UInt8) :
    outcome (checkRoom itemSize length) ending bytes =
      if ending = .known ∧ bytes.length < needed length itemSize then
        ⟨.error (.lengthExceedsInput length bytes.length), 0⟩
      else ⟨.ok (), 0⟩ := by
  unfold checkRoom
  rw [outcome_bind, outcome_available]
  by_cases known : ending = .known
  · by_cases short : bytes.length < needed length itemSize <;> simp [known, short]
  · simp [known]

theorem yields_readLength (itemSize : Nat) :
    Yields (readLength itemSize) fun n used => n < Word.count 64 ∧ 0 < used := by
  rw [readLength_eq]
  refine (yields_readUnsigned 64).bind fun n used read => ?_
  refine (Yields.trivial _).bind fun _ k _ => .pure ⟨read.1, ?_⟩
  omega

theorem outcome_readLength_bind {f : Nat → BufferM α} [∀ n, Sequential (f n)] (itemSize : Nat)
    (ending : Ending) (bytes : List UInt8) :
    outcome (readLength itemSize >>= f) ending bytes =
      (outcome (readUnsigned 64) ending bytes).andThen fun n used =>
        if ending = .known ∧ bytes.length - used < needed n itemSize then
          ⟨.error (.lengthExceedsInput n (bytes.length - used)), 0⟩
        else outcome (f n) ending (bytes.drop used) := by
  rw [readLength_eq, bind_assoc, outcome_bind]
  congr
  funext n used
  rw [bind_assoc, outcome_bind, outcome_checkRoom, List.length_drop]
  split
  · rfl
  · simp

theorem Decodes.length {f : Nat → BufferM α} [∀ n, Sequential (f n)] {n itemSize : Nat}
    {bytes : List UInt8} {v : α} (decodes : Decodes (f n) bytes v) (fits : n < Word.count 64)
    (room : n * itemSize ≤ bytes.length) :
    Decodes (readLength itemSize >>= f) (Varint.encodeUnsigned n ++ bytes) v := by
  intro ending rest
  have count := decodes_readUnsigned (by decide) fits ending (bytes ++ rest)
  rw [outcome_readLength_bind, List.append_assoc, count]
  simp only [Reading.andThen_ok, List.drop_left]
  rw [if_neg, decodes ending rest, List.length_append]
  · rintro ⟨-, short⟩
    simp only [needed, List.length_append] at short
    omega

theorem Agrees.length {f : Nat → BufferM α} [∀ n, Sequential (f n)] {itemSize : Nat}
    (agrees : ∀ n, Agrees (f n)) (takes : ∀ n, Yields (f n) fun _ used => n * itemSize ≤ used) :
    Agrees (readLength itemSize >>= f) := by
  intro bytes
  rw [outcome_readLength_bind, outcome_readLength_bind, uniform_readUnsigned]
  obtain ⟨result, used⟩ := outcome (readUnsigned 64) .unknown bytes
  cases result with
  | error e => exact .inl rfl
  | ok n =>
    simp only [Reading.andThen_ok, reduceCtorEq, false_and, if_false, true_and]
    by_cases short : bytes.length - used < needed n itemSize
    · right
      simp only [short, if_true]
      refine ⟨⟨_, _, rfl⟩, ?_⟩
      cases done : (outcome (f n) .unknown (bytes.drop used)).result with
      | error e => exact ⟨e, rfl⟩
      | ok v =>
        have taken := takes n .unknown (bytes.drop used) v done
        have within := Sequential.used_le (m := f n) .unknown (bytes.drop used)
        rw [List.length_drop] at within
        simp only [needed] at short
        omega
    · simp only [short, if_false]
      rcases agrees n (bytes.drop used) with same | differ
      · rw [same]
        exact .inl rfl
      · exact .inr differ

theorem Yields.length {f : Nat → BufferM α} [∀ n, Sequential (f n)] {itemSize : Nat}
    {Q : α → Nat → Prop}
    (yields : ∀ n, n < Word.count 64 → Yields (f n) fun v used => ∀ k, 0 < k → Q v (k + used)) :
    Yields (readLength itemSize >>= f) Q := by
  refine (yields_readLength itemSize).bind fun n k read => ?_
  exact (yields n read.1).mono fun v used h => h k read.2

end lengths

section limited

instance sequential_readLimited : Sequential readLimited :=
  inferInstanceAs (Sequential (readLength 1 >>= readBytes))

theorem decodes_readLimited {bytes : List UInt8} (h : bytes.length < Word.count 64) :
    Decodes readLimited (Varint.encodeUnsigned bytes.length ++ bytes) bytes :=
  Decodes.length (decodes_readBytes rfl) h (by omega)

theorem yields_readLimited :
    Yields readLimited fun bytes used => bytes.length < Word.count 64 ∧ bytes.length < used :=
  Yields.length fun n fits => (yields_readBytes n).mono fun bytes used h k positive => by omega

theorem agrees_readLimited : Agrees readLimited :=
  Agrees.length (fun n => (uniform_readBytes n).agrees) fun n =>
    (yields_readBytes n).mono fun bytes used h => by omega

end limited

section fixed

instance sequential_readFixed (order : ByteOrder) (width : Nat) :
    Sequential (readFixed order width) :=
  inferInstanceAs (Sequential (readExact width >>= fun bytes => pure (Endian.decode order bytes)))

theorem decodes_readFixed (order : ByteOrder) {width n : Nat} (h : n < Word.count (8 * width)) :
    Decodes (readFixed order width) (Endian.encode order width n) n := by
  have read := (decodes_readExact (Endian.length_encode order width n)).map (Endian.decode order)
  rwa [Endian.decode_encode order h] at read

theorem yields_readFixed (order : ByteOrder) (width : Nat) :
    Yields (readFixed order width) fun n used => n < Word.count (8 * width) ∧ used = width := by
  refine (yields_readExact width).map fun bytes used read => ?_
  have bound := Endian.decode_lt order bytes
  rw [read.1] at bound
  exact ⟨bound, read.2⟩

theorem uniform_readFixed (order : ByteOrder) (width : Nat) : Uniform (readFixed order width) :=
  (uniform_readExact width).map

instance sequential_readFixedInt (order : ByteOrder) (width : Nat) :
    Sequential (readFixedInt order width) :=
  inferInstanceAs (Sequential (readFixed order width >>= fun n => pure (Word.unwrap (8 * width) n)))

theorem decodes_readFixedInt (order : ByteOrder) {width : Nat} (positive : 0 < width) {n : Int}
    (holds : Word.holdsSigned (8 * width) n = true) :
    Decodes (readFixedInt order width) (Endian.encode order width (Word.wrap (8 * width) n)) n := by
  have read := (decodes_readFixed order (Word.wrap_lt (8 * width) n)).map (Word.unwrap (8 * width))
  rwa [Word.unwrap_wrap (by omega) holds] at read

end fixed

section bytes

instance sequential_readBool : Sequential readBool :=
  inferInstanceAs (Sequential (readByte >>= fun b => pure (b != 0)))

theorem decodes_readBool (b : Bool) : Decodes readBool [if b then 1 else 0] b := by
  have read := (decodes_readByte (if b then 1 else 0)).map (· != 0)
  cases b <;> exact read

theorem yields_readBool : Yields readBool fun _ used => used = 1 :=
  yields_readByte.map fun _ _ h => h

theorem uniform_readBool : Uniform readBool := uniform_readByte.map

instance sequential_readUuid : Sequential readUuid :=
  inferInstanceAs (Sequential (readExact 16 >>= fun bytes =>
    pure ((Uuid.ofList? bytes).getD .zero)))

theorem decodes_readUuid (id : Uuid) : Decodes readUuid id.bytes.toList id := by
  have read := (decodes_readExact id.bytes.length_toList).map
    fun bytes => (Uuid.ofList? bytes).getD .zero
  rwa [Uuid.ofList?_eq_some_iff.mpr (rfl : id.bytes.toList = _)] at read

theorem yields_readUuid : Yields readUuid fun _ used => used = 16 :=
  (yields_readExact 16).map fun _ _ h => h.2

theorem uniform_readUuid : Uniform readUuid := (uniform_readExact 16).map

end bytes

section instants

theorem toNanos_ofNanos (n : Int) : (Instant.ofNanos n).toNanos = n := by
  simp only [Instant.ofNanos, Instant.toNanos]
  omega

theorem nanos_ofNanos_lt (n : Int) : (Instant.ofNanos n).nanos < 1000000000 := by
  simp only [Instant.ofNanos]
  omega

theorem timeNanos_told {t : Instant} (fits : Word.holdsSigned 64 t.toNanos = true) :
    timeNanos t = .ok t.toNanos := by
  rw [timeNanos, Instant.nanos64?, if_pos fits]

theorem dateMillis_told {t : Instant} (late : 0 ≤ t.toMillis) : dateMillis t = .ok t.toMillis.toNat := by
  rw [dateMillis, if_neg (Int.not_lt.mpr late)]

def instantOfMillis (millis : Nat) : Except Error Instant :=
  match Instant.ofMillis? millis with
  | some t => .ok t
  | none => .error (.timestampOutOfRange millis)

theorem readDate_eq : readDate = readUnsigned 64 >>= fun millis => settle (instantOfMillis millis) := by
  unfold readDate instantOfMillis
  congr
  funext millis
  cases Instant.ofMillis? millis <;> rfl

instance sequential_readDate : Sequential readDate := by
  rw [readDate_eq]
  infer_instance

instance sequential_readTime : Sequential readTime :=
  inferInstanceAs (Sequential (readSigned 64 >>= fun n => pure (Instant.ofNanos n)))

/-- An instant that a number of milliseconds gives back: not before the epoch, not after the last
date, and not within a millisecond or a leap second. -/
def IsDate (t : Instant) : Prop :=
  0 ≤ t.seconds ∧ t.nanos < 1000000000 ∧ t.nanos % 1000000 = 0 ∧ t.toMillis ≤ Instant.maxMillis

def IsTime (t : Instant) : Prop :=
  t.nanos < 1000000000 ∧ Word.holdsSigned 64 t.toNanos = true

theorem IsDate.dateMillis {t : Instant} (date : IsDate t) : dateMillis t = .ok t.toMillis.toNat := by
  obtain ⟨late, -⟩ := date
  apply dateMillis_told
  unfold Instant.toMillis
  omega

theorem IsTime.timeNanos {t : Instant} (time : IsTime t) : timeNanos t = .ok t.toNanos :=
  timeNanos_told time.2

theorem IsDate.instantOfMillis {t : Instant} (date : IsDate t) :
    instantOfMillis t.toMillis.toNat = .ok t := by
  obtain ⟨seconds, nanos⟩ := t
  obtain ⟨late, inSecond, whole, last⟩ := date
  simp only [Instant.toMillis] at *
  unfold Buffer.instantOfMillis Instant.ofMillis?
  rw [if_pos (by omega)]
  have first : ((seconds * 1000 + (nanos / 1000000 : Nat)).toNat / 1000 : Nat) = seconds := by omega
  have second : (seconds * 1000 + (nanos / 1000000 : Nat)).toNat % 1000 * 1000000 = nanos := by omega
  rw [first, second]

theorem IsTime.ofNanos {t : Instant} (time : IsTime t) : Instant.ofNanos t.toNanos = t := by
  obtain ⟨seconds, nanos⟩ := t
  have inSecond := time.1
  simp only [Instant.ofNanos, Instant.toNanos] at *
  congr 1 <;> omega

theorem isDate_of_instantOfMillis {millis : Nat} {t : Instant} (h : instantOfMillis millis = .ok t) :
    IsDate t := by
  unfold instantOfMillis Instant.ofMillis? at h
  by_cases last : millis ≤ Instant.maxMillis
  · rw [if_pos last] at h
    cases h
    refine ⟨by simp only; omega, by simp only; omega, by simp only; omega, ?_⟩
    simp only [Instant.toMillis]
    omega
  · rw [if_neg last] at h
    cases h

theorem isTime_ofNanos {n : Int} (holds : Word.holdsSigned 64 n = true) :
    IsTime (Instant.ofNanos n) :=
  ⟨nanos_ofNanos_lt n, by rwa [toNanos_ofNanos]⟩

theorem decodes_readDate {t : Instant} (date : IsDate t) :
    Decodes readDate (Varint.encodeUnsigned t.toMillis.toNat) t := by
  have fits : t.toMillis.toNat < Word.count 64 := by
    have last := date.2.2.2
    have : Instant.maxMillis < Word.count 64 := by decide
    omega
  rw [readDate_eq]
  apply (decodes_readUnsigned (by decide) fits).bind_pure
  rw [date.instantOfMillis]
  exact .settle t

theorem decodes_readTime {t : Instant} (time : IsTime t) :
    Decodes readTime (Varint.encodeSigned t.toNanos) t := by
  have read := (decodes_readSigned (by decide) time.2).map Instant.ofNanos
  rwa [time.ofNanos] at read

theorem yields_readDate : Yields readDate fun t used => IsDate t ∧ 0 < used := by
  rw [readDate_eq]
  refine (yields_readUnsigned 64).bind fun millis used read => .settle fun t result => ?_
  exact ⟨isDate_of_instantOfMillis result, read.2⟩

theorem yields_readTime : Yields readTime fun t used => IsTime t ∧ 0 < used :=
  (yields_readSigned 64).map fun _ _ h => ⟨isTime_ofNanos h.1, h.2⟩

theorem uniform_readDate : Uniform readDate := by
  rw [readDate_eq]
  exact (uniform_readUnsigned 64).bind fun _ => .settle _

theorem uniform_readTime : Uniform readTime := (uniform_readSigned 64).map

end instants

end BinaryCodec.Buffer
