import BinaryCodec.Proofs.Buffer.Text
import BinaryCodec.Proofs.Buffer.Transfer
import BinaryCodec.Proofs.Text.Character

namespace BinaryCodec.Buffer

open Utf8 (Starts Torn Misformed form formLimit)

variable {b after : Buffer} {c : Char} {lead : UInt8} {rest tail : List UInt8} {width : Nat}

/-- What reading a character takes for one that the end of the bytes cuts off. A memory that fills reads up
puts zeros behind the bytes that are left, unless only the first one is. -/
def CutOff (b : Buffer) (tail : List UInt8) : Prop := Torn tail ∧ (b.store.Fills → tail.length = 1)

theorem cutOff_advance {n : Nat} : (b.advance n).CutOff tail ↔ b.CutOff tail := by
  obtain ⟨store, bits⟩ := b
  cases store <;> exact Iff.rfl

inductive CharStep (b : Buffer) : EStateM.Result Error Buffer Char → Prop
  | char {c : Char} (starts : Starts c b.upcoming) : CharStep b (.ok c (b.advance c.utf8Size))
  | ended (spent : b.upcoming = [] ∨ b.CutOff b.upcoming) (needed got : Nat) :
      CharStep b (.error (b.ending.shortage needed got) (b.advance b.upcoming.length))
  | malformed (never : ∀ c, ¬Starts c b.upcoming) (filled : b.upcoming ≠ [])
      (whole : ¬b.CutOff b.upcoming) (k : Nat) : CharStep b (.error .invalidChar (b.advance k))

section step

theorem zero_mem_filled {n : Nat} (short : rest.length < n) : 0 ∈ filled n rest := by
  rw [filled_eq_append (Nat.le_of_lt short), List.mem_append, List.mem_replicate]
  exact .inr ⟨by omega, rfl⟩

theorem charStep_nil (readable : b.Readable) (empty : b.upcoming = []) : CharStep b (readChar b) := by
  have short : b.upcoming.length < 1 := by
    rw [empty]
    exact Nat.one_pos
  rcases readable.readExact_short short with ⟨-, some, -⟩ | ⟨-, failed⟩
  · exact absurd empty some
  · rw [readChar_eq, readByte, bind_apply, bind_apply, failed]
    exact .ended (.inl empty) 1 b.upcoming.length

section cons

variable (readable : b.Readable) (upcoming : b.upcoming = lead :: rest)
include readable upcoming

theorem readChar_cons : readChar b = readTail lead (b.advance 1) := by
  rw [readChar_eq, bind_apply, takes_readByte lead b rest readable upcoming]
  rfl

theorem charStep_unannounced (silent : Utf8.widthOf lead = none) : CharStep b (readChar b) := by
  have refused : readChar b = .error .invalidChar (b.advance 1) := by
    rw [readChar_cons readable upcoming, readTail, silent]
    rfl
  rw [refused]
  refine .malformed (fun c => ?_) (upcoming ▸ List.cons_ne_nil lead rest) (fun cut => ?_) 1
  · rw [upcoming]
    exact Utf8.not_starts_unannounced silent
  · rw [upcoming] at cut
    exact Utf8.not_torn_unannounced silent cut.1

variable (announced : Utf8.widthOf lead = some width)
include announced

theorem readChar_announced {bytes : List UInt8} {next : Buffer}
    (read : readExact (width - 1) (b.advance 1) = .ok bytes next) :
    readChar b = match Utf8.char? (lead :: bytes) with
      | some c => .ok c next
      | none => .error .invalidChar next := by
  rw [readChar_cons readable upcoming, readTail, announced]
  simp only
  rw [bind_apply, read]
  simp only
  cases Utf8.char? (lead :: bytes) <;> rfl

theorem charStep_enough (enough : width ≤ rest.length + 1) : CharStep b (readChar b) := by
  have behind : (b.advance 1).upcoming = rest := by
    rw [upcoming_advance, upcoming, List.drop_one, List.tail_cons]
  have there : width - 1 ≤ (b.advance 1).upcoming.length := by
    rw [behind]
    omega
  have read := (readable.advance 1).readExact_eq there
  rw [behind, advance_advance] at read
  rw [readChar_announced readable upcoming announced read]
  cases found : Utf8.char? (lead :: rest.take (width - 1)) with
  | none =>
    refine .malformed (fun c starts => ?_) (upcoming ▸ List.cons_ne_nil lead rest) ?_ (1 + (width - 1))
    · rw [upcoming, Utf8.starts_iff announced enough, found] at starts
      cases starts
    · rw [upcoming]
      exact fun cut => Utf8.not_torn_cons announced enough cut.1
  | some c =>
    have starts := (Utf8.starts_iff announced enough).mpr found
    have size := Option.some.inj (announced.symm.trans starts.announced.1)
    have positive := c.utf8Size_pos
    have step := CharStep.char (b := b) (upcoming.symm ▸ starts)
    rwa [show c.utf8Size = 1 + (width - 1) by omega] at step

theorem charStep_short (short : rest.length + 1 < width) : CharStep b (readChar b) := by
  have behind : (b.advance 1).upcoming = rest := by
    rw [upcoming_advance, upcoming, List.drop_one, List.tail_cons]
  have length : b.upcoming.length = 1 + rest.length := by
    rw [upcoming, List.length_cons, Nat.add_comm]
  have torn : Torn b.upcoming := ⟨lead, rest, width, upcoming, announced, short⟩
  have missing : (b.advance 1).upcoming.length < width - 1 := by
    rw [behind]
    omega
  rcases (readable.advance 1).readExact_short missing with ⟨fills, more, read⟩ | ⟨fills, failed⟩
  · -- the zeros for the missing bytes make no character of what is there
    rw [behind] at missing more read
    have invalid := @Utf8.char?_of_zero_mem _ lead (zero_mem_filled missing)
    rw [readChar_announced readable upcoming announced read, invalid, advance_advance]
    refine .malformed (fun c => torn.not_starts) (upcoming ▸ List.cons_ne_nil lead rest) (fun cut => ?_) _
    -- more than the first byte was there, so the end did not show
    have one := (cutOff_advance.mpr cut).2 fills
    have some := List.length_pos_iff.mpr more
    omega
  · have cut : (b.advance 1).CutOff b.upcoming := by
      refine ⟨torn, fun filling => ?_⟩
      rw [length, ← behind, fills filling]
      rfl
    have ended : readChar b = .error (b.ending.shortage (width - 1) rest.length)
        (b.advance b.upcoming.length) := by
      rw [readChar_cons readable upcoming, readTail, announced]
      simp only
      rw [bind_apply, failed, ending_advance, advance_advance, behind, ← length]
    rw [ended]
    exact .ended (.inr (cutOff_advance.mp cut)) _ _

end cons

theorem readChar_step (readable : b.Readable) : CharStep b (readChar b) := by
  cases upcoming : b.upcoming with
  | nil => exact charStep_nil readable upcoming
  | cons lead rest =>
    cases announced : Utf8.widthOf lead with
    | none => exact charStep_unannounced readable upcoming announced
    | some width =>
      rcases Nat.lt_or_ge (rest.length + 1) width with short | enough
      · exact charStep_short readable upcoming announced short
      · exact charStep_enough readable upcoming announced enough

end step

section results

theorem readChar_starts (readable : b.Readable) (starts : Starts c b.upcoming) :
    readChar b = .ok c (b.advance (String.utf8EncodeChar c).length) := by
  have step := readChar_step readable
  generalize readChar b = result at step
  cases step with
  | char other =>
    rw [other.unique starts, String.length_utf8EncodeChar]
  | ended spent needed got =>
    rcases spent with empty | cut
    · rw [empty] at starts
      exact absurd starts Utf8.not_starts_nil
    · exact absurd starts cut.1.not_starts
  | malformed never filled whole k => exact absurd starts (never c)

theorem readChar_eq_ok_iff (readable : b.Readable) :
    readChar b = .ok c after ↔
      Starts c b.upcoming ∧ after = b.advance (String.utf8EncodeChar c).length := by
  constructor
  · intro came
    have step := readChar_step readable
    rw [came] at step
    cases step with
    | char starts => exact ⟨starts, by rw [String.length_utf8EncodeChar]⟩
  · rintro ⟨starts, rfl⟩
    exact readChar_starts readable starts

theorem readChar_refused (readable : b.Readable) (never : ∀ c, ¬Starts c b.upcoming) :
    ∃ e k, readChar b = .error e (b.advance k) := by
  have step := readChar_step readable
  generalize readChar b = result at step
  cases step with
  | @char c starts => exact absurd starts (never c)
  | ended spent needed got => exact ⟨_, _, rfl⟩
  | malformed never filled whole k => exact ⟨_, _, rfl⟩

theorem readChar_invalid (readable : b.Readable) (never : ∀ c, ¬Starts c b.upcoming)
    (filled : b.upcoming ≠ []) (whole : ¬Torn b.upcoming) :
    ∃ k, readChar b = .error .invalidChar (b.advance k) := by
  have step := readChar_step readable
  generalize readChar b = result at step
  cases step with
  | @char c starts => exact absurd starts (never c)
  | ended spent needed got => exact (spent.elim filled fun cut => whole cut.1).elim
  | malformed never filled whole k => exact ⟨k, rfl⟩

theorem readChar_misformed (readable : b.Readable) {n : Nat} (fits : n < formLimit width)
    (misformed : Misformed width n) (upcoming : b.upcoming = form width n ++ rest) :
    ∃ k, readChar b = .error .invalidChar (b.advance k) := by
  obtain ⟨lead, tail, formed, length, announced⟩ := Utf8.form_eq_cons fits
  refine readChar_invalid readable (fun c => upcoming ▸ misformed.not_starts fits) ?_ ?_
  · rw [upcoming, formed]
    exact List.cons_ne_nil lead (tail ++ rest)
  · rw [upcoming, formed, List.cons_append]
    rintro ⟨first, others, other, same, tells, short⟩
    cases same
    rcases announced with silent | announced
    · cases silent.symm.trans tells
    · obtain rfl := Option.some.inj (announced.symm.trans tells)
      rw [List.length_append] at short
      omega

theorem readChar_stray (readable : b.Readable) (stray : Utf8.isContinuation lead = true)
    (upcoming : b.upcoming = lead :: rest) : ∃ k, readChar b = .error .invalidChar (b.advance k) := by
  have silent := Utf8.widthOf_continuation stray
  apply readChar_invalid readable <;> rw [upcoming]
  · exact fun c => Utf8.not_starts_unannounced silent
  · exact List.cons_ne_nil lead rest
  · exact Utf8.not_torn_unannounced silent

/-- Reading a character gives just the one whose encoding is next, and takes that. Numbers in too long a form
or beyond the characters, bytes that go on with nothing, and characters cut off are refused, and the bytes
behind a character make no difference to it. -/
theorem readChar_exact {b : Buffer} (readable : b.Readable) :
    (∀ c after, readChar b = .ok c after ↔
      String.utf8EncodeChar c <+: b.upcoming ∧ after = b.advance (String.utf8EncodeChar c).length) ∧
    ((∀ c, ¬String.utf8EncodeChar c <+: b.upcoming) → ∃ e k, readChar b = .error e (b.advance k)) ∧
    (∀ width n rest, n < formLimit width → Misformed width n → b.upcoming = form width n ++ rest →
      ∃ k, readChar b = .error .invalidChar (b.advance k)) ∧
    (∀ lead rest, Utf8.isContinuation lead = true → b.upcoming = lead :: rest →
      ∃ k, readChar b = .error .invalidChar (b.advance k)) ∧
    (∀ c, b.upcoming <+: String.utf8EncodeChar c → b.upcoming ≠ String.utf8EncodeChar c →
      ∃ e k, readChar b = .error e (b.advance k)) ∧
    ∀ c after other, readChar b = .ok c after → other.Readable →
      b.upcoming.take (String.utf8EncodeChar c).length <+: other.upcoming →
      readChar other = .ok c (other.advance (String.utf8EncodeChar c).length) := by
  refine ⟨fun c after => readChar_eq_ok_iff readable, readChar_refused readable, ?_, ?_, ?_, ?_⟩
  · intro width n rest fits misformed upcoming
    exact readChar_misformed readable fits misformed upcoming
  · intro lead rest stray upcoming
    exact readChar_stray readable stray upcoming
  · intro c part cut
    exact readChar_refused readable fun _ => Utf8.not_starts_cut part cut
  · intro c after other came otherwise shared
    have starts := ((readChar_eq_ok_iff readable).mp came).1
    rw [← List.prefix_iff_eq_take.mp starts] at shared
    exact readChar_starts otherwise shared

/-- The euro sign, a surrogate in a form of three bytes, and a euro sign cut off. -/
theorem readChar_exact_euro :
    let euro := ofSlice [0xe2, 0x82, 0xac, 0x29]
    let surrogate := ofSlice (form 3 0xd800)
    let half := ofSlice [0xe2, 0x82]
    (euro.Readable ∧ surrogate.Readable ∧ half.Readable) ∧
      readChar euro = .ok '€' (euro.advance 3) ∧
      (∃ k, readChar surrogate = .error .invalidChar (surrogate.advance k)) ∧
      ∃ e k, readChar half = .error e (half.advance k) := by
  intro euro surrogate half
  have slice (bytes : List UInt8) : (ofSlice bytes).Readable := Supplies.readable True.intro
  obtain ⟨whole, -⟩ := readChar_exact (slice [0xe2, 0x82, 0xac, 0x29])
  obtain ⟨-, -, misformed, -⟩ := readChar_exact (slice (form 3 0xd800))
  obtain ⟨-, -, -, -, cut, -⟩ := readChar_exact (slice [0xe2, 0x82])
  refine ⟨⟨slice _, slice _, slice _⟩, (whole '€' _).mpr ⟨by decide, rfl⟩, ?_, cut '€' (by decide) (by decide)⟩
  exact misformed 3 0xd800 [] (by decide) (.inr (.inl (by decide))) (by simp)

end results

end BinaryCodec.Buffer
