import BinaryCodec.Buffer.Search
import BinaryCodec.Proofs.Buffer.Reached
import BinaryCodec.Proofs.Text.Utf8
import Mathlib.Order.Bounds.Basic

namespace BinaryCodec

def StandsAt (needle bytes : List UInt8) (p : Nat) : Prop :=
  ∃ front back, bytes = front ++ needle ++ back ∧ front.length = p

section standsAt

variable {needle bytes front back : List UInt8} {p n : Nat}

theorem standsAt_iff : StandsAt needle bytes p ↔ p ≤ bytes.length ∧ needle <+: bytes.drop p := by
  constructor
  · rintro ⟨front, back, rfl, rfl⟩
    rw [List.append_assoc, List.drop_left, List.length_append]
    exact ⟨Nat.le_add_right .., back, rfl⟩
  · rintro ⟨within, back, same⟩
    refine ⟨bytes.take p, back, ?_, List.length_take_of_le within⟩
    rw [List.append_assoc, same, List.take_append_drop]

theorem StandsAt.length_le (stands : StandsAt needle bytes p) : p + needle.length ≤ bytes.length := by
  obtain ⟨front, back, rfl, rfl⟩ := stands
  simp only [List.length_append]
  omega

theorem standsAt_append_right_iff :
    StandsAt needle (front ++ back) (front.length + p) ↔ StandsAt needle back p := by
  have rest : (front ++ back).drop (front.length + p) = back.drop p := by
    rw [← List.drop_drop, List.drop_left]
  rw [standsAt_iff, standsAt_iff, rest, List.length_append, Nat.add_le_add_iff_left]

theorem standsAt_append_left_iff (within : p + needle.length ≤ front.length) :
    StandsAt needle (front ++ back) p ↔ StandsAt needle front p := by
  have rest : (front ++ back).drop p = front.drop p ++ back :=
    List.drop_append_of_le_length (by omega)
  have enough : needle.length ≤ (front.drop p).length := by
    rw [List.length_drop]
    omega
  rw [standsAt_iff, standsAt_iff, rest, List.length_append]
  constructor
  · rintro ⟨-, starts⟩
    exact ⟨by omega, List.prefix_of_prefix_length_le starts (List.prefix_append ..) enough⟩
  · rintro ⟨_, starts⟩
    exact ⟨by omega, starts.trans (List.prefix_append ..)⟩

theorem standsAt_drop_iff (within : n ≤ bytes.length) :
    StandsAt needle (bytes.drop n) p ↔ StandsAt needle bytes (n + p) := by
  have length : (bytes.take n).length = n := List.length_take_of_le within
  have split : StandsAt needle (bytes.take n ++ bytes.drop n) ((bytes.take n).length + p) ↔
      StandsAt needle (bytes.drop n) p := standsAt_append_right_iff
  rw [List.take_append_drop, length] at split
  exact split.symm

theorem firstMatch?_cases (needle bytes : List UInt8) :
    (∃ i, firstMatch? needle bytes = some i ∧ IsLeast {p | StandsAt needle bytes p} i) ∨
      firstMatch? needle bytes = none ∧ ∀ p, ¬StandsAt needle bytes p := by
  induction bytes with
  | nil =>
    cases needle with
    | nil => exact .inl ⟨0, rfl, ⟨[], [], rfl, rfl⟩, fun p _ => Nat.zero_le p⟩
    | cons c rest => exact .inr ⟨rfl, fun p stands => by simpa using stands.length_le⟩
  | cons b rest ih =>
    have shift (p : Nat) : StandsAt needle (b :: rest) (p + 1) ↔ StandsAt needle rest p := by
      rw [Nat.add_comm]
      show StandsAt needle ([b] ++ rest) ([b].length + p) ↔ StandsAt needle rest p
      exact standsAt_append_right_iff
    have here : needle.isPrefixOf (b :: rest) = true ↔ StandsAt needle (b :: rest) 0 := by
      simp [standsAt_iff]
    rw [firstMatch?]
    by_cases starts : needle.isPrefixOf (b :: rest) = true
    · rw [if_pos starts]
      exact .inl ⟨0, rfl, here.mp starts, fun p _ => Nat.zero_le p⟩
    · rw [if_neg starts]
      have missed : ¬StandsAt needle (b :: rest) 0 := fun stands => starts (here.mpr stands)
      rcases ih with ⟨i, found, stands, least⟩ | ⟨found, missing⟩
      · refine .inl ⟨i + 1, by rw [found]; rfl, (shift i).mpr stands, fun p other => ?_⟩
        cases p with
        | zero => exact absurd other missed
        | succ p => exact Nat.succ_le_succ (least ((shift p).mp other))
      · refine .inr ⟨by rw [found]; rfl, fun p other => ?_⟩
        cases p with
        | zero => exact missed other
        | succ p => exact missing p ((shift p).mp other)

theorem firstMatch?_eq_some_iff {i : Nat} :
    firstMatch? needle bytes = some i ↔ IsLeast {p | StandsAt needle bytes p} i := by
  rcases firstMatch?_cases needle bytes with ⟨first, found, least⟩ | ⟨found, missing⟩
  · rw [found, Option.some_inj]
    exact ⟨fun same => same ▸ least, fun other => least.unique other⟩
  · rw [found]
    exact ⟨nofun, fun least => absurd least.1 (missing i)⟩

theorem firstMatch?_eq_none_iff :
    firstMatch? needle bytes = none ↔ ∀ p, ¬StandsAt needle bytes p := by
  rcases firstMatch?_cases needle bytes with ⟨first, found, least⟩ | ⟨found, missing⟩
  · rw [found]
    exact ⟨nofun, fun missing => absurd least.1 (missing first)⟩
  · exact ⟨fun _ => missing, fun _ => found⟩

theorem firstMatch?_of_short (short : bytes.length < needle.length) : firstMatch? needle bytes = none := by
  refine firstMatch?_eq_none_iff.mpr fun p stands => ?_
  have := stands.length_le
  omega

theorem firstMatch?_append {i : Nat} (found : firstMatch? needle front = some i) :
    firstMatch? needle (front ++ back) = some i := by
  obtain ⟨stands, least⟩ := firstMatch?_eq_some_iff.mp found
  have within := StandsAt.length_le stands
  refine firstMatch?_eq_some_iff.mpr ⟨(standsAt_append_left_iff within).mpr stands, fun p other => ?_⟩
  by_cases before : p < i
  · exact least ((standsAt_append_left_iff (by omega)).mp other)
  · exact Nat.le_of_not_lt before

def firstMatchFrom? (needle bytes : List UInt8) (start : Nat) : Option Nat :=
  (firstMatch? needle (bytes.drop start)).map (start + ·)

theorem firstMatchFrom?_nil (bytes : List UInt8) (start : Nat) :
    firstMatchFrom? [] bytes start = some start := by
  unfold firstMatchFrom?
  cases bytes.drop start <;> rfl

theorem firstMatchFrom?_cases (needle : List UInt8) (within : n ≤ bytes.length) :
    (∃ p, firstMatchFrom? needle bytes n = some p ∧
        IsLeast {p | n ≤ p ∧ StandsAt needle bytes p} p) ∨
      firstMatchFrom? needle bytes n = none ∧ ∀ p, n ≤ p → ¬StandsAt needle bytes p := by
  unfold firstMatchFrom?
  rcases firstMatch?_cases needle (bytes.drop n) with ⟨i, found, stands, least⟩ | ⟨found, missing⟩
  · refine .inl ⟨n + i, by rw [found]; rfl,
      ⟨Nat.le_add_right .., (standsAt_drop_iff within).mp stands⟩, ?_⟩
    rintro p ⟨late, other⟩
    obtain ⟨k, rfl⟩ := Nat.exists_eq_add_of_le late
    exact Nat.add_le_add_left (least ((standsAt_drop_iff within).mpr other)) n
  · refine .inr ⟨by rw [found]; rfl, fun p late other => ?_⟩
    obtain ⟨k, rfl⟩ := Nat.exists_eq_add_of_le late
    exact missing k ((standsAt_drop_iff within).mpr other)

theorem firstMatch?_drop (within : n ≤ bytes.length) (missing : ∀ p < n, ¬StandsAt needle bytes p) :
    firstMatch? needle bytes = firstMatchFrom? needle bytes n := by
  have late (p : Nat) (stands : StandsAt needle bytes p) : n ≤ p :=
    Nat.le_of_not_lt fun early => missing p early stands
  rcases firstMatchFrom?_cases needle within with ⟨p, found, first, least⟩ | ⟨found, nowhere⟩
  · rw [found]
    exact firstMatch?_eq_some_iff.mpr ⟨first.2, fun q other => least ⟨late q other, other⟩⟩
  · rw [found]
    exact firstMatch?_eq_none_iff.mpr fun q other => nowhere q (late q other) other

end standsAt

namespace Buffer

variable {b : Buffer} {needle : List UInt8}

def passed (needle window : List UInt8) : Nat :=
  window.length - min (needle.length - 1) window.length

theorem firstMatch?_window {window : List UInt8} (missing : firstMatch? needle window = none)
    (rest : List UInt8) :
    firstMatch? needle (window ++ rest) =
      (firstMatch? needle (window.drop (passed needle window) ++ rest)).map
        (passed needle window + ·) := by
  have within : passed needle window ≤ window.length := Nat.sub_le ..
  rw [← List.drop_append_of_le_length within]
  refine firstMatch?_drop (by rw [List.length_append]; omega) fun p early stands => ?_
  refine firstMatch?_eq_none_iff.mp missing p ((standsAt_append_left_iff ?_).mp stands)
  unfold passed at early
  omega

theorem firstMatch?_window_from {window : List UInt8} (missing : firstMatch? needle window = none)
    (start : Nat) (rest : List UInt8) :
    (firstMatch? needle (window ++ rest)).map (start + ·) =
      (firstMatch? needle (window.drop (passed needle window) ++ rest)).map
        (start + passed needle window + ·) := by
  have sum : ((start + ·) ∘ (passed needle window + ·)) = (start + passed needle window + ·) :=
    funext fun i => (Nat.add_assoc ..).symm
  rw [firstMatch?_window missing, Option.map_map, sum]

theorem length_drop_passed {window : List UInt8} (filled : needle ≠ []) :
    (window.drop (passed needle window)).length < needle.length := by
  have := List.length_pos_iff.mpr filled
  rw [List.length_drop, passed]
  omega

variable {fuel start : Nat} {window : List UInt8}

theorem searchChunks_failing (supplies : b.Supplies) {fault : IoFault}
    (fails : b.ending.fault? = some fault) (short : b.upcoming.length < chunkSize) :
    searchChunks needle (fuel + 1) window start b =
      .error (.io fault) (b.advance b.upcoming.length) := by
  simp only [searchChunks]
  rw [bind_apply, readUpTo_eq supplies, upTo, if_pos short, fails]
  rfl

theorem searchChunks_end (supplies : b.Supplies) (live : b.ending.fault? = none)
    (empty : b.upcoming = []) : searchChunks needle (fuel + 1) window start b = .ok none b := by
  simp only [searchChunks]
  rw [bind_apply, readUpTo_eq supplies, upTo_of_live live, empty]
  simp only [List.take_nil, List.length_nil, Nat.min_zero, conclude_ok, advance_zero]
  rfl

theorem searchChunks_read {bytes : List UInt8} {after : Buffer}
    (came : readUpTo chunkSize b = .ok bytes after) (filled : bytes ≠ []) :
    searchChunks needle (fuel + 1) window start b =
      let window := window ++ bytes
      match firstMatch? needle window with
      | some i => .ok (some (start + i)) after
      | none =>
        searchChunks needle fuel (window.drop (passed needle window)) (start + passed needle window)
          after := by
  have more : bytes.isEmpty = false := List.isEmpty_eq_false_iff.mpr filled
  simp only [searchChunks]
  rw [bind_apply, came]
  simp only [more, Bool.false_eq_true, if_false]
  cases firstMatch? needle (window ++ bytes) <;> rfl

theorem searchChunks_chunk (supplies : b.Supplies) (filled : b.upcoming ≠ [])
    (live : b.upcoming.length < chunkSize → b.ending.fault? = none) :
    searchChunks needle (fuel + 1) window start b =
      let window := window ++ b.upcoming.take chunkSize
      let after := b.advance (min chunkSize b.upcoming.length)
      match firstMatch? needle window with
      | some i => .ok (some (start + i)) after
      | none =>
        searchChunks needle fuel (window.drop (passed needle window)) (start + passed needle window)
          after := by
  have calm : (if b.upcoming.length < chunkSize then b.ending.fault? else none) = none := by
    split
    · next short => exact live short
    · rfl
  have chunk : b.upcoming.take chunkSize ≠ [] := by
    rw [← List.length_pos_iff, List.length_take]
    exact Nat.lt_min.mpr ⟨by decide, List.length_pos_iff.mpr filled⟩
  refine searchChunks_read ?_ chunk
  rw [readUpTo_eq supplies, upTo, calm]
  rfl

theorem drop_min_length {α : Type} (n : Nat) (bytes : List α) :
    bytes.drop (min n bytes.length) = bytes.drop n := by
  rcases Nat.le_total n bytes.length with within | beyond
  · rw [Nat.min_eq_left within]
  · rw [Nat.min_eq_right beyond, List.drop_length, List.drop_eq_nil_of_le beyond]

theorem upcoming_piece (n : Nat) : (b.advance (min n b.upcoming.length)).upcoming = b.upcoming.drop n := by
  rw [upcoming_advance, drop_min_length]

theorem searchChunks_cases (window : List UInt8) (start : Nat) (supplies : b.Supplies)
    (enough : b.upcoming.length < fuel) (short : window.length < needle.length) :
    ∃ k, k ≤ b.upcoming.length ∧ (b.upcoming ≠ [] → 0 < k) ∧
      (searchChunks needle fuel window start b =
          .ok ((firstMatch? needle (window ++ b.upcoming)).map (start + ·)) (b.advance k) ∨
        ∃ fault, b.ending.fault? = some fault ∧
          searchChunks needle fuel window start b = .error (.io fault) (b.advance k)) := by
  have positive : 0 < chunkSize := by decide
  have needed : needle ≠ [] := List.ne_nil_of_length_pos (by omega)
  -- Nothing is found before the window is as long as the needle, so a window that is not has no match.
  induction fuel generalizing b window start with
  | zero => omega
  | succ fuel ih =>
    by_cases calm : b.upcoming.length < chunkSize → b.ending.fault? = none
    · by_cases empty : b.upcoming = []
      · have live : b.ending.fault? = none := calm (by rw [empty]; exact positive)
        refine ⟨0, Nat.zero_le _, fun filled => absurd empty filled, .inl ?_⟩
        rw [searchChunks_end supplies live empty, empty, List.append_nil, firstMatch?_of_short short,
          advance_zero]
        rfl
      · have filled := List.length_pos_iff.mpr empty
        have pieces : window ++ b.upcoming =
            window ++ b.upcoming.take chunkSize ++ b.upcoming.drop chunkSize := by
          rw [List.append_assoc, List.take_append_drop]
        rw [searchChunks_chunk supplies empty calm, pieces]
        generalize window ++ b.upcoming.take chunkSize = window
        cases found : firstMatch? needle window with
        | some i =>
          refine ⟨min chunkSize b.upcoming.length, Nat.min_le_right .., fun _ => by omega, .inl ?_⟩
          rw [firstMatch?_append found]
          simp only [found]
          rfl
        | none =>
          have rest : (b.advance (min chunkSize b.upcoming.length)).upcoming = _ := upcoming_piece chunkSize
          have left : (b.advance (min chunkSize b.upcoming.length)).upcoming.length < fuel := by
            rw [rest, List.length_drop]
            omega
          obtain ⟨k, within, -, came⟩ := ih (window.drop (passed needle window))
            (start + passed needle window) (supplies.advance _) left (length_drop_passed needed)
          rw [rest, advance_advance, ending_advance] at came
          rw [rest, List.length_drop] at within
          refine ⟨min chunkSize b.upcoming.length + k, by omega, fun _ => by omega, ?_⟩
          simp only [found]
          rw [firstMatch?_window_from found]
          exact came
    · obtain ⟨brief, fails⟩ := Classical.not_imp.mp calm
      obtain ⟨fault, fails⟩ := Option.ne_none_iff_exists'.mp fails
      exact ⟨b.upcoming.length, Nat.le_refl _, List.length_pos_iff.mpr,
        .inr ⟨fault, fails, searchChunks_failing supplies fails brief⟩⟩

section find

variable {r : Nat} (begins : b.store.readPosition = .ok r)
include begins

theorem find_nil : find [] b = .ok (some r) b := by
  simp only [find]
  rw [bind_apply, readPosition_eq begins]
  rfl

theorem find_apply (filled : needle ≠ []) :
    find needle b =
      match searchChunks needle (b.upcoming.length + 1) [] r b with
      | .ok found after =>
        match seekRead r after with
        | .ok () after => .ok found after
        | .error e after => .error e after
      | .error e after => .error e after := by
  have some : needle.isEmpty = false := List.isEmpty_eq_false_iff.mpr filled
  simp only [find]
  rw [bind_apply, readPosition_eq begins]
  simp only [some, Bool.false_eq_true, if_false]
  rw [bind_apply, unread_apply]
  simp only
  rw [bind_apply]
  cases searchChunks needle (b.upcoming.length + 1) [] r b with
  | error e after => rfl
  | ok found after =>
    simp only
    rw [bind_apply]
    cases seekRead r after <;> rfl

theorem find_eq (seeks : b.store.Seeks) (within : r ≤ b.store.stored.size) (needle : List UInt8) :
    find needle b = .ok (firstMatchFrom? needle b.store.stored.toList r) b := by
  by_cases empty : needle = []
  · rw [empty, find_nil begins, firstMatchFrom?_nil]
  · have upcoming : b.upcoming = b.store.stored.toList.drop r := seeks.upcoming_eq begins
    obtain ⟨k, -, -, came | ⟨fault, fails, -⟩⟩ := searchChunks_cases [] r seeks.delivers.supplies
      (Nat.lt_succ_self b.upcoming.length) (List.length_pos_iff.mpr empty)
    · rw [find_apply begins empty, came]
      simp only [advance_eq_readingFrom seeks begins, seekRead_readingFrom seeks begins within]
      rw [List.nil_append, upcoming]
      rfl
    · rw [live_of_seeks seeks] at fails
      cases fails

end find

inductive Searchable : Buffer → Prop
  | memory {m : Memory} (bits : PendingBits) (short : m.mode = .short) : Searchable ⟨.memory m, bits⟩
  | slice (s : Slice) (bits : PendingBits) : Searchable ⟨.slice s, bits⟩
  | file {f : File} (bits : PendingBits) (isOpen : f.isOpen = true) : Searchable ⟨.file f, bits⟩
  | seekable {s : SeekableReader} {bits : PendingBits} (reached : Reached ⟨.seekable s, bits⟩)
      (steady : s.Steady) : Searchable ⟨.seekable s, bits⟩

theorem Searchable.seeks (searchable : Searchable b) : b.store.Seeks := by
  cases searchable with
  | memory bits short => exact short
  | slice s bits => exact True.intro
  | file bits isOpen => exact isOpen
  | seekable reached steady => exact ⟨steady, reached.placed steady⟩

/-- A search answers with the first place at or after the read cursor where the needle stands, if there
is one, and changes nothing. -/
theorem find_least {b : Buffer} (searchable : Searchable b) {r : Nat}
    (begins : b.store.readPosition = .ok r) (within : r ≤ b.store.stored.size) (needle : List UInt8) :
    ∃ found, find needle b = .ok found b ∧
      (∀ p, found = some p ↔ IsLeast {p | r ≤ p ∧ StandsAt needle b.store.stored.toList p} p) ∧
      (found = none ↔ ∀ p, r ≤ p → ¬StandsAt needle b.store.stored.toList p) ∧
      (needle = [] → found = some r) := by
  have inside : r ≤ b.store.stored.toList.length := by
    rw [Array.length_toList]
    exact within
  refine ⟨_, find_eq begins searchable.seeks within needle, ?_⟩
  rcases firstMatchFrom?_cases needle inside with ⟨i, found, first⟩ | ⟨found, nowhere⟩
  · rw [found]
    refine ⟨fun p => ?_, ⟨nofun, fun nowhere => absurd first.1.2 (nowhere i first.1.1)⟩, ?_⟩
    · rw [Option.some_inj]
      exact ⟨fun same => same ▸ first, fun other => first.unique other⟩
    · rintro rfl
      rw [← found, firstMatchFrom?_nil]
  · rw [found]
    refine ⟨fun p => ⟨nofun, fun least => absurd least.1.2 (nowhere p least.1.1)⟩,
      ⟨fun _ => nowhere, fun _ => rfl⟩, ?_⟩
    rintro rfl
    rw [← found, firstMatchFrom?_nil]

def seam : List UInt8 := List.replicate chunkSize 0 ++ [1, 2]

theorem isLeast_seam : IsLeast {p | 1 ≤ p ∧ StandsAt [1, 2] seam p} chunkSize := by
  refine ⟨⟨by decide, List.replicate chunkSize 0, [], by simp [seam], List.length_replicate⟩, ?_⟩
  rintro p ⟨-, stands⟩
  by_contra early
  obtain ⟨-, starts⟩ := standsAt_iff.mp stands
  obtain ⟨k, rest⟩ := Nat.exists_eq_add_of_lt (Nat.lt_of_not_le early)
  have zero : seam.drop p = 0 :: (List.replicate k 0 ++ [1, 2]) := by
    rw [seam, List.drop_append_of_le_length (by simp; omega), List.drop_replicate,
      show chunkSize - p = k + 1 by omega]
    rfl
  rw [zero] at starts
  simp at starts

theorem find_least_seam :
    let b := ofStore (.seekable (.ofList seam 1))
    Searchable b ∧ b.store.readPosition = .ok 1 ∧ 1 ≤ b.store.stored.size ∧
      find [1, 2] b = .ok (some chunkSize) b := by
  intro b
  have searchable : Searchable b := .seekable (.opened (.seekable rfl)) ⟨rfl, fun _ => rfl⟩
  have within : 1 ≤ b.store.stored.size := by
    simp [b, ofStore, Store.stored, SeekableReader.ofList, SeekableReader.inMemory, SeekableReader.content, seam]
  obtain ⟨found, came, least, -, -⟩ := find_least searchable rfl within [1, 2]
  have place : found = some chunkSize := (least chunkSize).mpr isLeast_seam
  exact ⟨searchable, rfl, within, by rw [came, place]⟩

theorem isPrefixOf_reverse_iff (token got rest : List UInt8) :
    token.reverse.isPrefixOf got = true ↔
      ∃ p, StandsAt token (got.reverse ++ rest) p ∧ p + token.length = got.length := by
  rw [List.isPrefixOf_iff_prefix]
  constructor
  · rintro ⟨front, rfl⟩
    refine ⟨front.length, ⟨front.reverse, rest, ?_, List.length_reverse⟩, ?_⟩
    · rw [List.reverse_append, List.reverse_reverse]
    · rw [List.length_append, List.length_reverse, Nat.add_comm]
  · rintro ⟨p, stands, length⟩
    rw [standsAt_append_left_iff (by rw [List.length_reverse]; omega)] at stands
    obtain ⟨front, back, same, rfl⟩ := stands
    have all := congrArg List.length same
    simp only [List.length_append, List.length_reverse] at all
    obtain rfl : back = [] := List.eq_nil_of_length_eq_zero (by omega)
    refine ⟨front.reverse, ?_⟩
    rw [← List.reverse_append, ← List.append_nil (front ++ token), ← same, List.reverse_reverse]

section readToToken

variable {token got : List UInt8} (seeks : b.store.Seeks)
include seeks

theorem readToToken_end (going : ¬token.isPrefixOf got = true) (empty : b.upcoming = []) :
    readToToken token (fuel + 1) got b = .error (.endOfData (got.length + 1) got.length) b := by
  rw [readToToken, if_neg going, bind_apply, readUpTo_eq seeks.delivers.supplies, upTo_of_live (live_of_seeks seeks),
    empty]
  simp only [List.take_nil, List.length_nil, Nat.min_zero, conclude_ok, advance_zero]
  rfl

theorem readToToken_byte {c : UInt8} {rest : List UInt8} (going : ¬token.isPrefixOf got = true)
    (coming : b.upcoming = c :: rest) :
    readToToken token (fuel + 1) got b = readToToken token fuel (c :: got) (b.advance 1) := by
  have one : min 1 (c :: rest).length = 1 := by
    rw [List.length_cons]
    omega
  rw [readToToken, if_neg going, bind_apply, readUpTo_eq seeks.delivers.supplies, upTo_of_live (live_of_seeks seeks),
    coming, one]
  rfl

end readToToken

theorem readToToken_eq {token : List UInt8} (got : List UInt8) (seeks : b.store.Seeks)
    (enough : b.upcoming.length < fuel)
    (fresh : ∀ p, StandsAt token (got.reverse ++ b.upcoming) p → got.length ≤ p + token.length) :
    readToToken token.reverse fuel got b =
      match firstMatch? token (got.reverse ++ b.upcoming) with
      | some i =>
        .ok ((got.reverse ++ b.upcoming).take (i + token.length)).reverse
          (b.advance (i + token.length - got.length))
      | none =>
        .error (.endOfData (got.length + b.upcoming.length + 1) (got.length + b.upcoming.length))
          (b.advance b.upcoming.length) := by
  -- The bytes read so far and the upcoming ones are the same bytes throughout.
  induction fuel generalizing b got with
  | zero => omega
  | succ fuel ih =>
    have ends := isPrefixOf_reverse_iff token got b.upcoming
    by_cases stop : token.reverse.isPrefixOf got = true
    · obtain ⟨p, stands, length⟩ := ends.mp stop
      have first : firstMatch? token (got.reverse ++ b.upcoming) = some p := by
        refine firstMatch?_eq_some_iff.mpr ⟨stands, fun q other => ?_⟩
        have := fresh q other
        omega
      rw [readToToken, if_pos stop, first]
      simp only [length, Nat.sub_self, advance_zero]
      rw [← @List.length_reverse _ got, List.take_left, List.reverse_reverse]
      rfl
    · have further (p : Nat) (stands : StandsAt token (got.reverse ++ b.upcoming) p) :
          got.length + 1 ≤ p + token.length := by
        have least := fresh p stands
        have : p + token.length ≠ got.length := fun length => stop (ends.mpr ⟨p, stands, length⟩)
        omega
      cases coming : b.upcoming with
      | nil =>
        have missing : firstMatch? token (got.reverse ++ []) = none := by
          refine firstMatch?_eq_none_iff.mpr fun p stands => ?_
          have least := further p (by rwa [coming])
          have within := stands.length_le
          simp only [List.append_nil, List.length_reverse] at within
          omega
        rw [readToToken_end seeks stop coming, missing]
        simp only [List.length_nil, Nat.add_zero, advance_zero]
      | cons c rest =>
        have rest_eq : (b.advance 1).upcoming = rest := by
          rw [upcoming_advance, coming, List.drop_one, List.tail_cons]
        have whole : (c :: got).reverse ++ (b.advance 1).upcoming = got.reverse ++ c :: rest := by
          rw [rest_eq, List.reverse_cons, List.append_assoc]
          rfl
        have left : (b.advance 1).upcoming.length < fuel := by
          rw [rest_eq]
          rw [coming, List.length_cons] at enough
          omega
        have again := ih (c :: got) (seeks.advance 1) left fun p stands => by
          rw [whole, ← coming] at stands
          exact further p stands
        rw [readToToken_byte seeks stop coming, again, whole, rest_eq]
        cases first : firstMatch? token (got.reverse ++ c :: rest) with
        | some i =>
          have stands := (firstMatch?_eq_some_iff.mp first).1
          have least := further i (by rwa [coming])
          have count : 1 + (i + token.length - (c :: got).length) = i + token.length - got.length := by
            rw [List.length_cons]
            omega
          simp only [advance_advance, count]
        | none =>
          have sum : (c :: got).length + rest.length = got.length + (c :: rest).length := by
            simp only [List.length_cons]
            omega
          have count : 1 + rest.length = (c :: rest).length := Nat.add_comm ..
          simp only [advance_advance, sum, count]

theorem readUntilToken_eq (seeks : b.store.Seeks) (token : List UInt8) :
    readUntilToken token b =
      match firstMatch? token b.upcoming with
      | some i => .ok (Utf8.decodeOrEmpty (b.upcoming.take i)) (b.advance (i + token.length))
      | none =>
        .error (.endOfData (b.upcoming.length + 1) b.upcoming.length) (b.advance b.upcoming.length) := by
  unfold readUntilToken
  by_cases empty : token = []
  · have first : firstMatch? [] b.upcoming = some 0 := by cases b.upcoming <;> rfl
    have none : Utf8.decodeOrEmpty [] = "" := by with_unfolding_all rfl
    subst empty
    simp only [first, List.isEmpty_nil, if_true, List.take_zero, List.length_nil, Nat.add_zero,
      advance_zero, none]
    rfl
  · have some : token.isEmpty = false := List.isEmpty_eq_false_iff.mpr empty
    have count : unread b = .ok b.upcoming.length b :=
      congrArg (EStateM.Result.ok · b) Store.unread_eq
    have run : readToToken token.reverse (b.upcoming.length + 2) [] b = _ :=
      readToToken_eq [] seeks (by omega) fun _ _ => Nat.zero_le _
    simp only [some, Bool.false_eq_true, if_false]
    rw [bind_apply, count]
    simp only
    rw [bind_apply, run, List.reverse_nil, List.nil_append]
    cases first : firstMatch? token b.upcoming with
    | some i =>
      have within := (firstMatch?_eq_some_iff.mp first).1.length_le
      have length : (b.upcoming.take (i + token.length)).length - token.length = i := by
        rw [List.length_take]
        omega
      have before : (b.upcoming.take (i + token.length)).take i = b.upcoming.take i := by
        rw [List.take_take, Nat.min_eq_left (Nat.le_add_right ..)]
      simp only [List.length_nil, Nat.sub_zero, List.drop_reverse, List.reverse_reverse, length, before]
      rfl
    | none =>
      simp only [List.length_nil, Nat.zero_add]

/-- Reading up to a token answers with the text of the bytes before the place that a search finds, and leaves
the read cursor behind the token. Where a search finds none, it takes all that is left and tells how many
bytes these were. -/
theorem readUntilToken_find {b : Buffer} (searchable : Searchable b) {r : Nat}
    (begins : b.store.readPosition = .ok r) (within : r ≤ b.store.stored.size) (token : List UInt8) :
    (∃ found, find token b = .ok found b) ∧
      (∀ p after, find token b = .ok (some p) after →
        ∃ text, readUntilToken token b = .ok text (b.readingFrom (p + token.length)) ∧
          (∀ s, Utf8.encode s = (b.store.stored.toList.take p).drop r → text = s) ∧
          ((∀ s, Utf8.encode s ≠ (b.store.stored.toList.take p).drop r) → text = "")) ∧
      ∀ after, find token b = .ok none after →
        readUntilToken token b =
          .error (.endOfData (b.store.stored.size - r + 1) (b.store.stored.size - r))
            (b.readingFrom b.store.stored.size) := by
  have seeks := searchable.seeks
  have upcoming : b.upcoming = b.store.stored.toList.drop r := seeks.upcoming_eq begins
  have run := find_eq begins seeks within token
  have length : b.upcoming.length = b.store.stored.size - r := by
    rw [upcoming, List.length_drop, Array.length_toList]
  refine ⟨⟨_, run⟩, fun p after came => ?_, fun after came => ?_⟩
  · rw [run] at came
    injection came with found
    obtain ⟨i, first, rfl⟩ := Option.map_eq_some_iff.mp found
    rw [← upcoming] at first
    have bytes : b.upcoming.take i = (b.store.stored.toList.take (r + i)).drop r := by
      rw [upcoming, List.take_drop]
    refine ⟨Utf8.decodeOrEmpty (b.upcoming.take i), ?_, fun s encoded => ?_, fun invalid => ?_⟩
    · rw [readUntilToken_eq seeks, first]
      simp only [advance_eq_readingFrom seeks begins]
      rw [Nat.add_assoc]
    · rw [bytes, ← encoded, Utf8.decodeOrEmpty_encode]
    · rw [bytes]
      exact (Utf8.decodeOrEmpty_cases _).resolve_right (invalid _)
  · rw [run] at came
    injection came with missing
    have first := Option.map_eq_none_iff.mp missing
    rw [← upcoming] at first
    rw [readUntilToken_eq seeks, first]
    simp only [advance_eq_readingFrom seeks begins, length, Nat.add_sub_cancel' within]

theorem readUntilToken_find_overlapping :
    let b := ofStore (.slice (.ofList [97, 97, 97, 98, 33]))
    Searchable b ∧ b.store.readPosition = .ok 0 ∧ 0 ≤ b.store.stored.size ∧
      find [97, 97, 98] b = .ok (some 1) b ∧
      readUntilToken [97, 97, 98] b = .ok "a" (b.readingFrom 4) ∧
      find [98, 98] b = .ok none b ∧
      readUntilToken [98, 98] b = .error (.endOfData 6 5) (b.readingFrom 5) := by
  intro b
  have searchable : Searchable b := .slice ..
  have found : find [97, 97, 98] b = .ok (some 1) b :=
    (find_eq rfl searchable.seeks (Nat.zero_le _) _).trans rfl
  have missing : find [98, 98] b = .ok none b :=
    (find_eq rfl searchable.seeks (Nat.zero_le _) _).trans rfl
  obtain ⟨-, reads, -⟩ := readUntilToken_find searchable rfl (Nat.zero_le _) [97, 97, 98]
  obtain ⟨-, -, fails⟩ := readUntilToken_find searchable rfl (Nat.zero_le _) [98, 98]
  obtain ⟨text, came, valid, -⟩ := reads 1 b found
  obtain rfl : text = "a" := valid "a" (by with_unfolding_all rfl)
  exact ⟨searchable, rfl, Nat.zero_le _, found, came, missing, fails b missing⟩

end Buffer

end BinaryCodec
