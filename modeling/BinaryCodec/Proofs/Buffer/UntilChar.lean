import BinaryCodec.Proofs.Buffer.Character

namespace BinaryCodec.Buffer

open Utf8 (Starts Torn)

variable {b after : Buffer} {mark c : Char} {chars : List Char} {tail : List UInt8} {fuel taken : Nat}

/-- What reading up to a mark stops at, and how many bytes it takes there. -/
inductive Stop (b : Buffer) (mark : Char) : (tail : List UInt8) → (taken : Nat) → Prop
  | mark (rest : List UInt8) : Stop b mark (String.utf8EncodeChar mark ++ rest) mark.utf8Size
  | ended (live : b.ending.fault? = none) : Stop b mark [] 0
  | cut {tail : List UInt8} (live : b.ending.fault? = none) (cut : b.CutOff tail) :
      Stop b mark tail tail.length

theorem Stop.of_advance {n : Nat} (stop : (b.advance n).Stop mark tail taken) : b.Stop mark tail taken := by
  cases stop with
  | mark rest => exact .mark rest
  | ended live => exact .ended (ending_advance ▸ live)
  | cut live cut => exact .cut (ending_advance ▸ live) (cutOff_advance.mp cut)

theorem Stop.advance (stop : b.Stop mark tail taken) (n : Nat) : (b.advance n).Stop mark tail taken := by
  cases stop with
  | mark rest => exact .mark rest
  | ended live => exact .ended (ending_advance.symm ▸ live)
  | cut live cut => exact .cut (ending_advance.symm ▸ live) (cutOff_advance.mpr cut)

section round

theorem readCharsTo_succ (mark : Char) (fuel : Nat) (b : Buffer) :
    readCharsTo mark (fuel + 1) b = match readChar b with
      | .ok c next => if c = mark then .ok [] next else ((c :: ·) <$> readCharsTo mark fuel) next
      | .error (.endOfData _ _) next => .ok [] next
      | .error e next => .error e next := by
  rw [readCharsTo, bind_apply, attempt]
  cases readChar b with
  | ok c next =>
    simp only
    split <;> rfl
  | error e next => cases e <;> rfl

variable (readable : b.Readable)
include readable

theorem readCharsTo_char (starts : Starts c b.upcoming) (other : c ≠ mark) :
    readCharsTo mark (fuel + 1) b =
      ((c :: ·) <$> readCharsTo mark fuel) (b.advance (String.utf8EncodeChar c).length) := by
  rw [readCharsTo_succ, readChar_starts readable starts]
  exact if_neg other

theorem readCharsTo_stop (stop : b.Stop mark b.upcoming taken) :
    readCharsTo mark (fuel + 1) b = .ok [] (b.advance taken) := by
  rw [readCharsTo_succ]
  generalize next : b.upcoming = upcoming at stop
  cases stop with
  | mark rest =>
    rw [readChar_starts readable (next ▸ Utf8.starts_append mark rest), String.length_utf8EncodeChar]
    exact if_pos rfl
  | ended live =>
    have step := readChar_step readable
    generalize readChar b = result at step
    cases step with
    | char starts => exact absurd (next ▸ starts) Utf8.not_starts_nil
    | ended spent needed got =>
      rw [Ending.shortage, live, next]
      rfl
    | malformed never filled whole k => exact absurd next filled
  | cut live cut =>
    subst next
    have step := readChar_step readable
    generalize readChar b = result at step
    cases step with
    | char starts => exact absurd starts cut.1.not_starts
    | ended spent needed got => rw [Ending.shortage, live]
    | malformed never filled whole k => exact absurd cut whole

theorem readCharsTo_round (mark : Char) :
    (∃ taken, b.Stop mark b.upcoming taken) ∨ (∃ c, Starts c b.upcoming ∧ c ≠ mark) ∨
      ∃ e k, ∀ fuel, readCharsTo mark (fuel + 1) b = .error e (b.advance k) := by
  have step := readChar_step readable
  cases came : readChar b with
  | ok c next =>
    rw [came] at step
    cases step with
    | char starts =>
      by_cases same : c = mark
      · subst same
        obtain ⟨rest, upcoming⟩ := starts
        have stop : b.Stop c _ _ := .mark rest
        rw [upcoming] at stop
        exact .inl ⟨_, stop⟩
      · exact .inr (.inl ⟨c, starts, same⟩)
  | error e next =>
    rw [came] at step
    cases step with
    | ended spent needed got =>
      cases fails : b.ending.fault? with
      | none =>
        rcases spent with empty | cut
        · exact .inl ⟨0, empty ▸ .ended fails⟩
        · exact .inl ⟨_, .cut fails cut⟩
      | some fault =>
        refine .inr (.inr ⟨.io fault, b.upcoming.length, fun fuel => ?_⟩)
        rw [readCharsTo_succ, came, Ending.shortage, fails]
    | malformed never filled whole k =>
      refine .inr (.inr ⟨.invalidChar, k, fun fuel => ?_⟩)
      rw [readCharsTo_succ, came]

end round

section loop

/-- The characters that a read up to `mark` gives, and the buffer that it leaves: nothing but them lies before
the place where it stops. -/
def Before (b : Buffer) (mark : Char) (chars : List Char) (after : Buffer) : Prop :=
  mark ∉ chars ∧ ∃ tail taken, b.upcoming = chars.flatMap String.utf8EncodeChar ++ tail ∧
    b.Stop mark tail taken ∧ after = b.advance ((chars.flatMap String.utf8EncodeChar).length + taken)

theorem before_nil (stop : b.Stop mark b.upcoming taken) : b.Before mark [] (b.advance taken) :=
  ⟨List.not_mem_nil, b.upcoming, taken, rfl, stop, by rw [List.flatMap_nil, List.length_nil, Nat.zero_add]⟩

theorem Before.starts (before : b.Before mark (c :: chars) after) : Starts c b.upcoming := by
  obtain ⟨-, tail, taken, upcoming, -⟩ := before
  rw [upcoming, List.flatMap_cons, List.append_assoc]
  exact Utf8.starts_append c _

theorem before_cons_iff (starts : Starts c b.upcoming) (other : c ≠ mark) :
    b.Before mark (c :: chars) after ↔
      (b.advance (String.utf8EncodeChar c).length).Before mark chars after := by
  obtain ⟨rest, upcoming⟩ := starts
  have behind : (b.advance (String.utf8EncodeChar c).length).upcoming = rest := by
    rw [upcoming_advance, ← upcoming, List.drop_left]
  unfold Before
  simp only [behind, ← upcoming, List.mem_cons, not_or, List.flatMap_cons, List.append_assoc,
    List.append_cancel_left_eq, List.length_append, advance_advance, Nat.add_assoc]
  constructor
  · rintro ⟨⟨-, clean⟩, tail, taken, same, stop, ends⟩
    exact ⟨clean, tail, taken, same, stop.advance _, ends⟩
  · rintro ⟨clean, tail, taken, same, stop, ends⟩
    exact ⟨⟨Ne.symm other, clean⟩, tail, taken, same, stop.of_advance, ends⟩

theorem length_behind_lt (starts : Starts c b.upcoming) :
    (b.advance (String.utf8EncodeChar c).length).upcoming.length < b.upcoming.length := by
  have within := starts.length_le
  have positive := c.utf8Size_pos
  rw [← String.length_utf8EncodeChar] at positive
  rw [upcoming_advance, List.length_drop]
  omega

theorem readCharsTo_eq_ok_iff (readable : b.Readable) (enough : b.upcoming.length < fuel) :
    readCharsTo mark fuel b = .ok chars after ↔ b.Before mark chars after := by
  -- a round that goes on takes a byte at least, so the fuel outlasts the bytes
  induction fuel generalizing b chars with
  | zero => exact absurd enough (Nat.not_lt_zero _)
  | succ fuel ih =>
    constructor
    · intro came
      rcases readCharsTo_round readable mark with ⟨taken, stop⟩ | ⟨c, starts, other⟩ | ⟨e, k, failed⟩
      · cases (readCharsTo_stop readable stop).symm.trans came
        exact before_nil stop
      · have behind := length_behind_lt starts
        rw [readCharsTo_char readable starts other, map_apply] at came
        cases rest : readCharsTo mark fuel (b.advance (String.utf8EncodeChar c).length) with
        | error e last =>
          rw [rest] at came
          cases came
        | ok others last =>
          rw [rest] at came
          cases came
          exact (before_cons_iff starts other).mpr ((ih (readable.advance _) (by omega)).mp rest)
      · cases (failed fuel).symm.trans came
    · intro before
      cases chars with
      | nil =>
        obtain ⟨-, tail, taken, upcoming, stop, rfl⟩ := before
        rw [List.flatMap_nil, List.nil_append] at upcoming
        rw [List.flatMap_nil, List.length_nil, Nat.zero_add]
        exact readCharsTo_stop readable (upcoming ▸ stop)
      | cons c chars =>
        have starts := before.starts
        have other : c ≠ mark := fun same => before.1 (same ▸ List.mem_cons_self)
        have behind := length_behind_lt starts
        have rest := (ih (readable.advance _) (by omega)).mpr ((before_cons_iff starts other).mp before)
        rw [readCharsTo_char readable starts other, map_apply, rest]

theorem readCharsTo_error (readable : b.Readable) (enough : b.upcoming.length < fuel) {e : Error}
    (failed : readCharsTo mark fuel b = .error e after) : ∃ k, after = b.advance k := by
  induction fuel generalizing b with
  | zero => exact absurd enough (Nat.not_lt_zero _)
  | succ fuel ih =>
    rcases readCharsTo_round readable mark with ⟨taken, stop⟩ | ⟨c, starts, other⟩ | ⟨other, k, fails⟩
    · cases (readCharsTo_stop readable stop).symm.trans failed
    · have behind := length_behind_lt starts
      rw [readCharsTo_char readable starts other, map_apply] at failed
      cases rest : readCharsTo mark fuel (b.advance (String.utf8EncodeChar c).length) with
      | error e last =>
        rw [rest] at failed
        cases failed
        obtain ⟨k, rfl⟩ := ih (readable.advance _) (by omega) rest
        exact ⟨_, advance_advance⟩
      | ok others last =>
        rw [rest] at failed
        cases failed
    · cases (fails fuel).symm.trans failed
      exact ⟨k, rfl⟩

end loop

section text

theorem readUntilChar_apply (mark : Char) (b : Buffer) :
    readUntilChar mark b = (String.ofList <$> readCharsTo mark (b.upcoming.length + 1)) b := by
  rw [readUntilChar, bind_apply, unread_apply, map_eq_pure_bind]

theorem readUntilChar_eq_ok_iff (readable : b.Readable) {s : String} :
    readUntilChar mark b = .ok s after ↔ b.Before mark s.toList after := by
  rw [readUntilChar_apply, map_apply, ← readCharsTo_eq_ok_iff readable (Nat.lt_succ_self _)]
  cases readCharsTo mark (b.upcoming.length + 1) b with
  | error e last => simp
  | ok chars last =>
    simp only [EStateM.Result.ok.injEq]
    rw [← String.toList_inj, String.toList_ofList]

/-- Whether nothing is lost when a read up to `mark` gives `s`: it took `s` and the mark, or `s` was all that was
left. -/
def Kept (b : Buffer) (mark : Char) (s : String) (after : Buffer) : Prop :=
  (∃ rest, b.upcoming = Utf8.encode s ++ String.utf8EncodeChar mark ++ rest ∧
    after = b.advance (Utf8.encode s ++ String.utf8EncodeChar mark).length) ∨
  b.upcoming = Utf8.encode s ∧ after = b.advance b.upcoming.length

theorem Before.kept_iff {s : String} (before : b.Before mark s.toList after) :
    b.Kept mark s after ↔ ¬∃ tail, b.upcoming = Utf8.encode s ++ tail ∧ b.CutOff tail := by
  obtain ⟨-, tail, taken, upcoming, stop, rfl⟩ := before
  change b.upcoming = Utf8.encode s ++ tail at upcoming
  change b.Kept mark s (b.advance ((Utf8.encode s).length + taken)) ↔ _
  -- the text that came leaves no choice of what follows it
  have same {other : List UInt8} (split : b.upcoming = Utf8.encode s ++ other) : other = tail :=
    List.append_cancel_left (split.symm.trans upcoming)
  constructor
  · rintro kept ⟨other, split, cut⟩
    obtain rfl := same split
    rcases kept with ⟨rest, marked, -⟩ | ⟨whole, -⟩
    · rw [List.append_assoc] at marked
      rw [← same marked] at cut
      exact cut.1.not_starts (Utf8.starts_append mark rest)
    · rw [← same (whole.trans (List.append_nil _).symm)] at cut
      exact Utf8.not_torn_nil cut.1
  · intro uncut
    cases stop with
    | mark rest =>
      refine .inl ⟨rest, by rw [upcoming, List.append_assoc], ?_⟩
      rw [List.length_append, String.length_utf8EncodeChar]
    | ended live =>
      rw [List.append_nil] at upcoming
      exact .inr ⟨upcoming, by rw [upcoming, Nat.add_zero]⟩
    | cut live cut => exact absurd ⟨tail, upcoming, cut⟩ uncut

theorem Kept.before {s : String} (kept : b.Kept mark s after) (live : b.ending.fault? = none)
    (clean : mark ∉ s.toList) : b.Before mark s.toList after := by
  rcases kept with ⟨rest, upcoming, rfl⟩ | ⟨upcoming, rfl⟩
  · refine ⟨clean, _, _, upcoming.trans (List.append_assoc ..), .mark rest, ?_⟩
    rw [List.length_append, String.length_utf8EncodeChar]
    rfl
  · refine ⟨clean, _, _, upcoming.trans (List.append_nil _).symm, .ended live, ?_⟩
    rw [upcoming]
    rfl

theorem readUntilChar_error (readable : b.Readable) {e : Error}
    (failed : readUntilChar mark b = .error e after) : ∃ k, after = b.advance k := by
  rw [readUntilChar_apply, map_apply] at failed
  cases came : readCharsTo mark (b.upcoming.length + 1) b with
  | ok chars last =>
    rw [came] at failed
    cases failed
  | error e last =>
    rw [came] at failed
    cases failed
    exact readCharsTo_error readable (Nat.lt_succ_self _) came

/-- A read up to a mark gives the characters before the mark, before the end, or before one that the end cuts
off, takes all the bytes up to there, and fails on everything else. It loses bytes just in the third case. -/
theorem readUntilChar_exact {b : Buffer} (readable : b.Readable) (mark : Char) :
    (∀ s after, readUntilChar mark b = .ok s after ↔
      mark ∉ s.toList ∧ ∃ tail taken, b.upcoming = Utf8.encode s ++ tail ∧ b.Stop mark tail taken ∧
        after = b.advance ((Utf8.encode s).length + taken)) ∧
    (∀ s after, readUntilChar mark b = .ok s after →
      (b.Kept mark s after ↔ ¬∃ tail, b.upcoming = Utf8.encode s ++ tail ∧ b.CutOff tail)) ∧
    ((∀ s tail taken, mark ∉ s.toList → b.upcoming = Utf8.encode s ++ tail → ¬b.Stop mark tail taken) →
      ∃ e k, readUntilChar mark b = .error e (b.advance k)) := by
  refine ⟨fun s after => readUntilChar_eq_ok_iff readable, fun s after came => ?_, fun never => ?_⟩
  · exact ((readUntilChar_eq_ok_iff readable).mp came).kept_iff
  · cases came : readUntilChar mark b with
    | ok s after =>
      obtain ⟨clean, tail, taken, upcoming, stop, -⟩ := (readUntilChar_eq_ok_iff readable).mp came
      exact absurd stop (never s tail taken clean upcoming)
    | error e after =>
      obtain ⟨k, rfl⟩ := readUntilChar_error readable came
      exact ⟨e, k, rfl⟩

/-- A text up to its mark, and one whose last character is cut off. -/
theorem readUntilChar_exact_cut :
    let marked := ofSlice [0x61, 0x3b, 0x62]
    let torn := ofSlice [0x61, 0xe2, 0x82]
    (marked.Readable ∧ torn.Readable) ∧
      readUntilChar ';' marked = .ok "a" (marked.advance 2) ∧ marked.Kept ';' "a" (marked.advance 2) ∧
      readUntilChar ';' torn = .ok "a" (torn.advance 3) ∧ ¬torn.Kept ';' "a" (torn.advance 3) := by
  intro marked torn
  have slice (bytes : List UInt8) : (ofSlice bytes).Readable := Supplies.readable True.intro
  have cut : torn.CutOff [0xe2, 0x82] := ⟨⟨0xe2, [0x82], 3, rfl, by decide, by decide⟩, False.elim⟩
  obtain ⟨whole, kept, -⟩ := readUntilChar_exact (slice [0x61, 0x3b, 0x62]) ';'
  obtain ⟨partly, lost, -⟩ := readUntilChar_exact (slice [0x61, 0xe2, 0x82]) ';'
  have first := (whole "a" (marked.advance 2)).mpr ⟨by decide, _, _, by decide, .mark [0x62], rfl⟩
  have second := (partly "a" (torn.advance 3)).mpr ⟨by decide, _, _, by decide, .cut rfl cut, rfl⟩
  refine ⟨⟨slice _, slice _⟩, first, .inl ⟨[0x62], by decide, rfl⟩, second, ?_⟩
  rw [lost "a" _ second, not_not]
  exact ⟨_, by decide, cut⟩

/-- The two bytes of a euro sign whose third is missing are taken, and the text is given as though it had ended
before them. -/
theorem readUntilChar_loses_bytes :
    let b := ofSlice [0x61, 0xe2, 0x82]
    readUntilChar ';' b = .ok "a" (b.advance 3) ∧ ∀ s after, ';' ∉ s.toList → ¬b.Kept ';' s after := by
  intro b
  have readable : b.Readable := Supplies.readable True.intro
  have cut : b.CutOff [0xe2, 0x82] := ⟨⟨0xe2, [0x82], 3, rfl, by decide, by decide⟩, False.elim⟩
  have upcoming : b.upcoming = Utf8.encode "a" ++ [0xe2, 0x82] := by decide
  have before : b.Before ';' "a".toList (b.advance 3) := ⟨by decide, _, _, upcoming, .cut rfl cut, rfl⟩
  have came := (readUntilChar_eq_ok_iff readable).mpr before
  refine ⟨came, fun s after clean kept => ?_⟩
  cases came.symm.trans ((readUntilChar_eq_ok_iff readable).mpr (kept.before rfl clean))
  exact before.kept_iff.mp kept ⟨_, upcoming, cut⟩

end text

end BinaryCodec.Buffer
