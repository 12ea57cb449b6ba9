import BinaryCodec.Proofs.Buffer.Transfer
import BinaryCodec.Proofs.Schema.Size

namespace BinaryCodec

theorem Instant.toMillis_eq (t : Instant) : t.toMillis = t.toNanos / 1000000 := by
  unfold toMillis toNanos
  omega

namespace Buffer

variable {bytes groups : List UInt8} {n : Int} {m : Nat}

section writing

/-- Just where `fits` holds, `write` writes `bytes` and `size` tells how many they are. Elsewhere both fail
with `e`, and nothing is written. -/
structure WritesIf (fits : Prop) (write : BufferM Unit) (size : Except Error Nat) (bytes : List UInt8)
    (e : Error) : Prop where
  written : fits → Puts write bytes
  measured : fits → size = .ok bytes.length
  refused : ¬fits → ∀ b, write b = .error e b
  unmeasured : ¬fits → size = .error e

theorem writesIf_settle {α : Type} {fits : Prop} {number : Except Error α} {v : α} {e : Error}
    (told : fits → number = .ok v) (untold : ¬fits → number = .error e) {encode : α → List UInt8}
    {length : α → Nat} (agree : ∀ v, (encode v).length = length v) :
    WritesIf fits (settle number >>= fun v => writeBytes (encode v)) (length <$> number) (encode v) e where
  written holds := by
    rw [told holds]
    exact puts_writeBytes (encode v)
  measured holds := by
    rw [told holds, agree]
    rfl
  refused fails b := by
    rw [untold fails]
    rfl
  unmeasured fails := by
    rw [untold fails]
    rfl

theorem timeNanos_untold {t : Instant} (beyond : ¬Word.holdsSigned 64 t.toNanos = true) :
    timeNanos t = .error (.timestampOutOfRange t.seconds) := by
  rw [timeNanos, Instant.nanos64?, if_neg beyond]

theorem dateMillis_untold {t : Instant} (early : ¬0 ≤ t.toMillis) :
    dateMillis t = .error (.timestampOutOfRange t.toMillis) := by
  rw [dateMillis, if_pos (Int.not_le.mp early)]

theorem writesIf_time (registry : Registry) (t : Instant) :
    WritesIf (Word.holdsSigned 64 t.toNanos = true) (writeTime t)
      (Schema.encodedSize registry .time (.instant t)) (Varint.encodeSigned t.toNanos)
      (.timestampOutOfRange t.seconds) := by
  rw [Schema.encodedSize_leaf rfl]
  exact writesIf_settle timeNanos_told timeNanos_untold Varint.length_encodeSigned

theorem writesIf_date (registry : Registry) (t : Instant) :
    WritesIf (0 ≤ t.toMillis) (writeDate t) (Schema.encodedSize registry .date (.instant t))
      (Varint.encodeUnsigned t.toMillis.toNat) (.timestampOutOfRange t.toMillis) := by
  rw [Schema.encodedSize_leaf rfl]
  exact writesIf_settle dateMillis_told dateMillis_untold Varint.length_encodeUnsigned

end writing

section reading

def Signed64 (groups : List UInt8) (n : Int) : Prop :=
  Varint.Grouped groups ∧ groups.length ≤ Varint.groupCount 64 ∧ Varint.signed? 64 groups = .ok n

def Unsigned64 (groups : List UInt8) (m : Nat) : Prop :=
  Varint.Grouped groups ∧ groups.length ≤ Varint.groupCount 64 ∧ Varint.unsigned? 64 groups = .ok m

theorem signed64_encodeSigned (fits : Word.holdsSigned 64 n = true) :
    Signed64 (Varint.encodeSigned n) n := by
  refine ⟨Varint.grouped_encodeSigned n, ?_, Varint.signed?_encodeSigned fits⟩
  rw [Varint.length_encodeSigned]
  exact Varint.signedLength_le (by decide) fits

theorem unsigned64_encodeUnsigned (fits : m < Word.count 64) : Unsigned64 (Varint.encodeUnsigned m) m := by
  refine ⟨Varint.grouped_encodeUnsigned m, ?_, Varint.unsigned?_encodeUnsigned fits⟩
  rw [Varint.length_encodeUnsigned]
  exact Varint.unsignedLength_le (by decide) fits

theorem Signed64.holds (varint : Signed64 groups n) : Word.holdsSigned 64 n = true :=
  Varint.holds_of_signed? varint.2.2

def TakesInstant (read : BufferM Instant) (bytes : List UInt8) (n : Int) : Prop :=
  ∃ t, Takes read bytes t ∧ t.toNanos = n ∧ t.nanos < 1000000000

theorem takes_readTime (varint : Signed64 groups n) : Takes readTime groups (.ofNanos n) :=
  (takes_readSigned varint.1 varint.2.1 varint.2.2).map Instant.ofNanos

theorem takesInstant_readTime (varint : Signed64 groups n) : TakesInstant readTime groups n :=
  ⟨_, takes_readTime varint, toNanos_ofNanos n, nanos_ofNanos_lt n⟩

theorem takesInstant_readDate (varint : Unsigned64 groups m) (reached : m ≤ Instant.maxMillis) :
    TakesInstant readDate groups (m * 1000000) := by
  have told : instantOfMillis m = .ok ⟨(m / 1000 : Nat), m % 1000 * 1000000⟩ := by
    rw [instantOfMillis, Instant.ofMillis?, if_pos reached]
  refine ⟨⟨(m / 1000 : Nat), m % 1000 * 1000000⟩, ?_, ?_, ?_⟩
  · rw [readDate_eq]
    apply (takes_readUnsigned varint.1 varint.2.1 varint.2.2).bind_pure
    rw [told]
    exact .settle _
  · simp only [Instant.toNanos]
    omega
  · simp only
    omega

theorem readDate_beyond (varint : Unsigned64 groups m) (beyond : Instant.maxMillis < m) {b : Buffer}
    {rest : List UInt8} (readable : b.Readable) (upcoming : b.upcoming = groups ++ rest) :
    readDate b = .error (.timestampOutOfRange m) (b.advance groups.length) := by
  have untold : instantOfMillis m = .error (.timestampOutOfRange m) := by
    rw [instantOfMillis, Instant.ofMillis?, if_neg (Nat.not_le.mpr beyond)]
  have read := takes_readUnsigned varint.1 varint.2.1 varint.2.2 b rest readable upcoming
  rw [readDate_eq, bind_apply, read]
  simp only [untold]
  rfl

end reading

/-- Every instant is written by its nanoseconds as a signed varint if 64 bits hold them, and by its milliseconds
as an unsigned one if they are not negative; the measured size is right for both. What is read back has the same
nanoseconds, or the same milliseconds and no more. Each varint of 64 bits is read in the one way, and as far as
dates reach in the other. -/
theorem timestamps_exact (registry : Registry) (t : Instant) :
    let millis := t.toNanos / 1000000
    WritesIf (Word.holdsSigned 64 t.toNanos = true) (writeTime t)
      (Schema.encodedSize registry .time (.instant t)) (Varint.encodeSigned t.toNanos)
      (.timestampOutOfRange t.seconds) ∧
    (Word.holdsSigned 64 t.toNanos = true →
      TakesInstant readTime (Varint.encodeSigned t.toNanos) t.toNanos) ∧
    (∀ groups n, Signed64 groups n → ∃ u, Takes readTime groups u ∧ u.toNanos = n ∧
      u.nanos < 1000000000 ∧ Puts (writeTime u) (Varint.encodeSigned n)) ∧
    WritesIf (0 ≤ millis) (writeDate t) (Schema.encodedSize registry .date (.instant t))
      (Varint.encodeUnsigned millis.toNat) (.timestampOutOfRange millis) ∧
    (0 ≤ millis → millis ≤ Instant.maxMillis →
      TakesInstant readDate (Varint.encodeUnsigned millis.toNat) (millis * 1000000)) ∧
    ∀ groups m, Unsigned64 groups m →
      (m ≤ Instant.maxMillis → TakesInstant readDate groups (m * 1000000)) ∧
      (Instant.maxMillis < m → ∀ b rest, b.Readable → b.upcoming = groups ++ rest →
        readDate b = .error (.timestampOutOfRange m) (b.advance groups.length)) := by
  intro millis
  have same : t.toMillis = millis := t.toMillis_eq
  refine ⟨writesIf_time registry t, fun fits => takesInstant_readTime (signed64_encodeSigned fits), ?_,
    same ▸ writesIf_date registry t, fun late reached => ?_, fun groups m varint => ⟨?_, ?_⟩⟩
  · intro groups n varint
    refine ⟨_, takes_readTime varint, toNanos_ofNanos n, nanos_ofNanos_lt n, ?_⟩
    have writes := (writesIf_time registry (.ofNanos n)).written
    rw [toNanos_ofNanos] at writes
    exact writes varint.holds
  · have last : Instant.maxMillis < Word.count 64 := by decide
    have read := takesInstant_readDate (unsigned64_encodeUnsigned (m := millis.toNat) (by omega)) (by omega)
    rwa [Int.toNat_of_nonneg late] at read
  · exact takesInstant_readDate varint
  · exact fun beyond b rest => readDate_beyond varint beyond

example : Instant.ofNanos (Instant.toNanos ⟨-61, 1500000000⟩) = ⟨-60, 500000000⟩ := by decide

end Buffer

end BinaryCodec
