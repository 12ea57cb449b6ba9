import BinaryCodec.Proofs.Definition.Scanning

namespace BinaryCodec.Definition

def Position.Before (a b : Position) : Prop := a.line < b.line ∨ a.line = b.line ∧ a.column < b.column

def lines (source : List Char) : List (List Char) := source.splitOn '\n'

def textFrom (source : List Char) (place : Position) : List Char :=
  ((lines source)[place.line - 1]?.getD []).drop (place.column - 1)

def bareText (source : List Char) : List Char :=
  ((lines source).flatMap fun line => line.takeWhile (· ≠ '#')).filter fun c => !Text.isBlank c

namespace Position

variable {a b c place : Position} {chars rest : List Char}

theorem Before.trans (first : a.Before b) (second : b.Before c) : a.Before c := by
  unfold Before at *
  omega

theorem before_next (place : Position) (c : Char) : place.Before (place.next c) := by
  unfold next
  split
  · exact .inl (Nat.lt_succ_self _)
  · exact .inr ⟨rfl, Nat.lt_succ_self _⟩

theorem after_append (place : Position) (chars rest : List Char) :
    place.after (chars ++ rest) = (place.after chars).after rest :=
  List.foldl_append

theorem after_eq_or_before (place : Position) (chars : List Char) :
    place.after chars = place ∨ place.Before (place.after chars) := by
  induction chars generalizing place with
  | nil => exact .inl rfl
  | cons c chars ih =>
    refine .inr ?_
    rcases ih (place.next c) with same | later
    · rw [after, List.foldl_cons, ← after, same]
      exact before_next place c
    · exact (before_next place c).trans later

theorem before_after (filled : chars ≠ []) : place.Before (place.after chars) := by
  cases chars with
  | nil => exact absurd rfl filled
  | cons c chars =>
    rcases after_eq_or_before (place.next c) chars with same | later
    · rw [after, List.foldl_cons, ← after, same]
      exact before_next place c
    · exact (before_next place c).trans later

theorem after_of_not_mem (inside : '\n' ∉ chars) :
    place.after chars = ⟨place.line, place.column + chars.length⟩ := by
  induction chars generalizing place with
  | nil => rfl
  | cons c chars ih =>
    rw [List.mem_cons, not_or] at inside
    have step : place.next c = ⟨place.line, place.column + 1⟩ := if_neg (Ne.symm inside.1)
    rw [after, List.foldl_cons, ← after, step, ih inside.2, List.length_cons, Nat.add_assoc,
      Nat.add_comm 1]

theorem line_after (place : Position) (chars : List Char) :
    (place.after chars).line + 1 = place.line + (lines chars).length := by
  induction chars generalizing place with
  | nil => rfl
  | cons c chars ih =>
    have counted : (place.after (c :: chars)).line + 1 =
        (place.next c).line + (lines chars).length := ih (place.next c)
    rw [counted, next, lines, lines, List.splitOn_cons_eq_if_modifyHead]
    by_cases feed : c = '\n'
    · rw [if_pos feed, if_pos (beq_iff_eq.mpr feed), List.length_cons, Nat.add_assoc, Nat.add_comm 1]
    · rw [if_neg feed, if_neg (mt beq_iff_eq.mp feed), List.length_modifyHead]

theorem after_line (front : List Char) {last : List Char} (inside : '\n' ∉ last) :
    start.after (front ++ '\n' :: last) = ⟨(lines front).length + 1, last.length + 1⟩ := by
  have whole : start.after (front ++ '\n' :: last) = ((start.after front).next '\n').after last :=
    after_append start front ('\n' :: last)
  have feed : (start.after front).next '\n' = ⟨(start.after front).line + 1, 1⟩ := if_pos rfl
  rw [whole, feed, after_of_not_mem inside, line_after, Nat.add_comm 1,
    Nat.add_comm start.line]
  rfl

end Position

theorem exists_last_line (chars : List Char) :
    '\n' ∉ chars ∨ ∃ front last, chars = front ++ '\n' :: last ∧ '\n' ∉ last := by
  induction chars with
  | nil => exact .inl List.not_mem_nil
  | cons c chars ih =>
    rcases ih with none | ⟨front, last, rfl, inside⟩
    · by_cases feed : c = '\n'
      · exact .inr ⟨[], chars, by rw [feed]; rfl, none⟩
      · exact .inl (by rw [List.mem_cons, not_or]; exact ⟨Ne.symm feed, none⟩)
    · exact .inr ⟨c :: front, last, rfl, inside⟩

theorem head?_lines {front rest : List Char} (inside : '\n' ∉ front) :
    (lines (front ++ rest))[0]? = some (front ++ rest.takeWhile (· ≠ '\n')) := by
  obtain ⟨line, taken, within, whole⟩ := exists_line rest
  have first : '\n' ∉ front ++ line := by
    rw [List.mem_append, not_or]
    exact ⟨inside, within⟩
  rw [taken, lines]
  rcases whole with rfl | ⟨more, rfl⟩
  · rw [List.splitOn_eq_singleton first]
    rfl
  · rw [← List.append_assoc, List.splitOn_append_cons_self_of_not_mem first]
    rfl

theorem textFrom_append (front rest : List Char) :
    textFrom (front ++ rest) (Position.start.after front) = rest.takeWhile (· ≠ '\n') := by
  rcases exists_last_line front with inside | ⟨before, last, rfl, inside⟩
  · rw [Position.after_of_not_mem inside, textFrom]
    simp only [Position.start, Nat.sub_self, head?_lines inside, Option.getD_some,
      Nat.add_sub_cancel_left, List.drop_left]
  · have split : lines (before ++ '\n' :: last ++ rest) = lines before ++ lines (last ++ rest) := by
      rw [List.append_assoc]
      exact List.splitOn_append_cons_self before (last ++ rest)
    rw [Position.after_line before inside, textFrom, split]
    simp only [Nat.add_sub_cancel, List.getElem?_append_right (Nat.le_refl _), Nat.sub_self,
      head?_lines inside, Option.getD_some, List.drop_left]

theorem Position.one_le_after (front : List Char) :
    1 ≤ (start.after front).line ∧ 1 ≤ (start.after front).column := by
  rcases exists_last_line front with inside | ⟨before, last, rfl, inside⟩
  · rw [after_of_not_mem inside]
    exact ⟨Nat.le_refl _, Nat.le_add_right _ _⟩
  · rw [after_line before inside]
    exact ⟨Nat.le_add_left _ _, Nat.le_add_left _ _⟩

section bare

variable {chars rest : List Char} {c : Char}

theorem bareText_cons (feed : c ≠ '\n') (sign : c ≠ '#') :
    bareText (c :: rest) = [c].filter (fun c => !Text.isBlank c) ++ bareText rest := by
  obtain ⟨line, more, split⟩ : ∃ line more, lines rest = line :: more :=
    List.exists_cons_of_ne_nil (List.splitOn_ne_nil _ _)
  have first : lines (c :: rest) = (c :: line) :: more := by
    rw [lines, List.splitOn_cons_eq_if_modifyHead, if_neg (mt beq_iff_eq.mp feed), ← lines, split]
    rfl
  have goes : (c :: line).takeWhile (· ≠ '#') = c :: line.takeWhile (· ≠ '#') :=
    List.takeWhile_cons_of_pos (decide_eq_true sign)
  rw [bareText, bareText, first, split, List.flatMap_cons, List.flatMap_cons, goes, ← List.filter_append,
    List.cons_append, List.cons_append, List.nil_append]

theorem bareText_feed : bareText ('\n' :: rest) = bareText rest := by
  rw [bareText, lines, List.splitOn_cons_eq_if_modifyHead, if_pos (beq_self_eq_true _), bareText, lines,
    List.flatMap_cons, List.takeWhile_nil, List.nil_append]

theorem bareText_blank (blank : Text.isBlank c) : bareText (c :: rest) = bareText rest := by
  by_cases feed : c = '\n'
  · rw [feed, bareText_feed]
  · have sign : c ≠ '#' := by
      rintro rfl
      exact absurd blank (by decide)
    rw [bareText_cons feed sign, List.filter_cons_of_neg (by simp [blank]), List.filter_nil,
      List.nil_append]

theorem bareText_comment {text : List Char} (inside : '\n' ∉ text) :
    bareText ('#' :: (text ++ '\n' :: rest)) = bareText rest := by
  have whole : '\n' ∉ '#' :: text := by
    rw [List.mem_cons, not_or]
    exact ⟨by decide, inside⟩
  have split : lines ('#' :: (text ++ '\n' :: rest)) = ('#' :: text) :: lines rest :=
    List.splitOn_append_cons_self_of_not_mem whole rest
  rw [bareText, split, List.flatMap_cons, List.takeWhile_cons_of_neg (by decide), List.nil_append]
  rfl

theorem bareText_last {text : List Char} (inside : '\n' ∉ text) : bareText ('#' :: text) = [] := by
  have whole : '\n' ∉ '#' :: text := by
    rw [List.mem_cons, not_or]
    exact ⟨by decide, inside⟩
  rw [bareText, lines, List.splitOn_eq_singleton whole, List.flatMap_singleton,
    List.takeWhile_cons_of_neg (by decide)]
  rfl

theorem bareText_gap {gap : List Char} (g : Gap gap) : bareText (gap ++ rest) = bareText rest := by
  induction g with
  | nil => rfl
  | blank blank g ih => exact (bareText_blank blank).trans ih
  | @comment text gap inside g ih =>
    rw [List.cons_append, List.append_assoc, List.cons_append, bareText_comment inside, ih]

theorem bareText_ending (e : Ending chars) : bareText chars = [] := by
  cases e with
  | gap g =>
    have nothing : bareText (chars ++ []) = bareText [] := bareText_gap g
    rw [List.append_nil] at nothing
    exact nothing
  | comment g inside => rw [bareText_gap g, bareText_last inside]

theorem bareText_append (plain : ∀ c ∈ chars, c ≠ '#' ∧ Text.isBlank c = false) :
    bareText (chars ++ rest) = chars ++ bareText rest := by
  induction chars with
  | nil => rfl
  | cons c chars ih =>
    obtain ⟨⟨sign, blank⟩, others⟩ := List.forall_mem_cons.mp plain
    have feed : c ≠ '\n' := by
      rintro rfl
      exact absurd blank (by decide)
    rw [List.cons_append, bareText_cons feed sign, ih others,
      List.filter_cons_of_pos (by simp [blank]), List.filter_nil, List.cons_append, List.nil_append,
      List.cons_append]

end bare

namespace TokenKind

variable {kind : TokenKind}

theorem text_ne_nil (writable : kind.Writable) : kind.text.toList ≠ [] := by
  cases word : kind.isWord with
  | true => exact (isWord_text word writable).1.filled
  | false =>
    cases kind with
    | openBrace | closeBrace | arrow => decide
    | word | useKeyword | enumKeyword | structKeyword | rpcKeyword => cases word

theorem plain_text (writable : kind.Writable) :
    ∀ c ∈ kind.text.toList, c ≠ '#' ∧ Text.isBlank c = false := by
  cases word : kind.isWord with
  | true =>
    intro c member
    have whole := (isWord_text word writable).1.whole c member
    simp only [endsWord, Bool.or_eq_false_iff, decide_eq_false_iff_not] at whole
    exact ⟨whole.1.1.1, whole.2⟩
  | false =>
    have marks : kind.text.toList.all (fun c => c != '#' && !Text.isBlank c) = true := by
      cases kind with
      | openBrace | closeBrace | arrow => decide
      | word | useKeyword | enumKeyword | structKeyword | rpcKeyword => cases word
    intro c member
    have mark := List.all_eq_true.mp marks c member
    simpa only [Bool.and_eq_true, bne_iff_ne, Bool.not_eq_true'] using mark

theorem feed_not_mem_text (writable : kind.Writable) : '\n' ∉ kind.text.toList :=
  fun member => absurd (plain_text writable _ member).2 (by decide)

theorem isKeyword_iff (word : kind.isWord = true) (writable : kind.Writable) :
    kind.isKeyword = true ↔ kind.text ∈ keywords := by
  cases kind with
  | word text => exact ⟨fun h => (nomatch h), fun keyword => absurd keyword writable.2⟩
  | useKeyword | enumKeyword | structKeyword | rpcKeyword => exact ⟨fun _ => by decide, fun _ => rfl⟩
  | openBrace | closeBrace | arrow => cases word

end TokenKind

/-- Tokens as a text that begins at a place, with gaps before, between and after them; as `Written`, with
the place of each token. -/
inductive Laid : (before : Bool) → Position → List Token → List Char → Prop
  | nil {before : Bool} {place : Position} {ending : List Char} :
      Ending ending → Laid before place [] ending
  | cons {before : Bool} {place : Position} {kind : TokenKind} {tokens : List Token}
      {gap rest : List Char} : kind.Writable → Gap gap →
      (before = true → kind.isWord = true → gap ≠ []) →
      Laid kind.isWord ((place.after gap).after kind.text.toList) tokens rest →
      Laid before place (⟨kind, place.after gap⟩ :: tokens) (gap ++ (kind.text.toList ++ rest))

section laid

variable {before : Bool} {place : Position} {chars : List Char} {laid : List Token} {token : Token}

theorem laid_of_written {kinds : List TokenKind} (written : Written before kinds chars)
    (writable : ∀ kind ∈ kinds, kind.Writable) : Laid before place (scan place chars) chars := by
  induction written generalizing place with
  | nil e =>
    rw [scan_ending e]
    exact .nil e
  | @cons before kind kinds gap rest g apart written ih =>
    obtain ⟨here, later⟩ := List.forall_mem_cons.mp writable
    have stops : kind.isWord = true → Stops rest := fun word => stops_written (word ▸ written)
    rw [scan_gap g, scan_text here stops]
    exact .cons here g apart (ih later)

theorem laid_scan (place : Position) (chars : List Char) :
    Laid false place (scan place chars) chars := by
  have written : Written false ((scan place chars).map Token.kind) chars :=
    written_scan fun first => nomatch first
  exact laid_of_written written (List.forall_mem_map.mpr writable_scan)

theorem Laid.place_le (text : Laid before place laid chars) (member : token ∈ laid) :
    token.place = place ∨ place.Before token.place := by
  induction text with
  | nil e => cases member
  | @cons before place kind tokens gap rest writable g apart text ih =>
    rcases List.mem_cons.mp member with rfl | later
    · exact Position.after_eq_or_before place gap
    · have passed : place.Before ((place.after gap).after kind.text.toList) := by
        rw [← Position.after_append]
        exact Position.before_after
          (List.append_ne_nil_of_right_ne_nil gap (TokenKind.text_ne_nil writable))
      rcases ih later with same | behind
      · exact .inr (same ▸ passed)
      · exact .inr (passed.trans behind)

theorem Laid.ascending (text : Laid before place laid chars) :
    laid.Pairwise fun a b => a.place.Before b.place := by
  induction text with
  | nil e => exact .nil
  | @cons before place kind tokens gap rest writable g apart text ih =>
    refine .cons (fun token member => ?_) ih
    have passed : (place.after gap).Before ((place.after gap).after kind.text.toList) :=
      Position.before_after (TokenKind.text_ne_nil writable)
    rcases text.place_le member with same | behind
    · exact same ▸ passed
    · exact passed.trans behind

theorem Laid.exists_front (text : Laid before place laid chars) (member : token ∈ laid) :
    ∃ front rest, chars = front ++ (token.kind.text.toList ++ rest) ∧ token.place = place.after front := by
  induction text with
  | nil e => cases member
  | @cons before place kind tokens gap rest writable g apart text ih =>
    rcases List.mem_cons.mp member with rfl | later
    · exact ⟨gap, rest, rfl, rfl⟩
    · obtain ⟨front, back, rfl, stands⟩ := ih later
      refine ⟨gap ++ (kind.text.toList ++ front), back, ?_, ?_⟩
      · simp only [List.append_assoc]
      · rw [stands, Position.after_append, Position.after_append]

theorem Laid.bareText_eq (text : Laid before place laid chars) :
    bareText chars = laid.flatMap fun token => token.kind.text.toList := by
  induction text with
  | nil e => exact bareText_ending e
  | cons writable g apart text ih =>
    rw [bareText_gap g, bareText_append (TokenKind.plain_text writable), ih, List.flatMap_cons]

theorem Laid.exists_gap (text : Laid before place laid chars) {front back : List Token} {a b : Token}
    (split : laid = front ++ a :: b :: back) (first : a.kind.isWord = true)
    (second : b.kind.isWord = true) : ∃ passed gap rest,
      chars = passed ++ (a.kind.text.toList ++ (gap ++ (b.kind.text.toList ++ rest))) ∧
      Gap gap ∧ gap ≠ [] ∧ a.place = place.after passed ∧
      b.place = place.after (passed ++ (a.kind.text.toList ++ gap)) := by
  induction front generalizing before place laid chars with
  | nil =>
    cases text with
    | nil e => cases split
    | @cons _ _ kind tokens gap rest writable g apart text =>
      obtain ⟨rfl, rfl⟩ := List.cons.inj split
      cases text with
      | @cons _ _ next _ between rest _ h separate text =>
        refine ⟨gap, between, rest, rfl, h, separate first second, rfl, ?_⟩
        rw [Position.after_append, Position.after_append]
  | cons token front ih =>
    cases text with
    | nil e => cases split
    | @cons _ _ kind tokens gap rest writable g apart text =>
      obtain ⟨-, later⟩ := List.cons.inj split
      obtain ⟨passed, between, more, rfl, h, filled, here, there⟩ := ih text later
      refine ⟨gap ++ (kind.text.toList ++ passed), between, more, ?_, h, filled, ?_, ?_⟩
      · simp only [List.append_assoc]
      · rw [here, Position.after_append, Position.after_append]
      · rw [there]
        simp only [Position.after_append]

end laid

/-- How tokens lie in a text: in ascending order, each where its place says; together they are all of the
text that is neither white space nor in a comment; and a word is neither empty nor anything that is a
token of its own, is a keyword exactly if it is spelled like one, and is set apart from a word before. -/
structure Partition (source : List Char) (tokens : List Token) : Prop where
  ascending : tokens.Pairwise fun a b => a.place.Before b.place
  located : ∀ token ∈ tokens, 1 ≤ token.place.line ∧ 1 ≤ token.place.column ∧
    token.kind.text.toList <+: textFrom source token.place
  covering : bareText source = tokens.flatMap fun token => token.kind.text.toList
  words : ∀ token ∈ tokens, token.kind.isWord = true → IsWord token.kind.text.toList ∧
    (token.kind.isKeyword = true ↔ token.kind.text ∈ keywords)
  marks : ∀ token ∈ tokens, token.kind.isWord = false → token.kind.text ∈ ["\x7b", "\x7d", "->"]
  apart : ∀ front a b back, tokens = front ++ a :: b :: back → a.kind.isWord = true →
    b.kind.isWord = true → ∃ passed gap rest,
      source = passed ++ (a.kind.text.toList ++ (gap ++ (b.kind.text.toList ++ rest))) ∧
      Gap gap ∧ gap ≠ [] ∧ a.place = Position.start.after passed ∧
      b.place = Position.start.after (passed ++ (a.kind.text.toList ++ gap))

/-- The tokens of any text partition it. -/
theorem partition_tokens (source : String) : Partition source.toList (tokens source) := by
  have text : Laid false .start (tokens source) source.toList := laid_scan .start source.toList
  have writable : ∀ token ∈ tokens source, token.kind.Writable := writable_scan
  constructor
  · exact text.ascending
  · intro token member
    obtain ⟨front, rest, whole, stands⟩ := text.exists_front member
    obtain ⟨line, column⟩ := Position.one_le_after front
    have inside := TokenKind.feed_not_mem_text (writable token member)
    have goes : (token.kind.text.toList ++ rest).takeWhile (· ≠ '\n') =
        token.kind.text.toList ++ rest.takeWhile (· ≠ '\n') :=
      List.takeWhile_append_of_pos fun c among => decide_eq_true fun feed => inside (feed ▸ among)
    rw [stands, whole, textFrom_append, goes]
    exact ⟨line, column, List.prefix_append _ _⟩
  · exact text.bareText_eq
  · intro token member word
    have spelled := writable token member
    exact ⟨(isWord_text word spelled).1, TokenKind.isKeyword_iff word spelled⟩
  · intro token _ mark
    cases kind : token.kind with
    | openBrace | closeBrace | arrow => simp [TokenKind.text]
    | word | useKeyword | enumKeyword | structKeyword | rpcKeyword =>
      rw [kind] at mark
      cases mark
  · intro front a b back split first second
    exact text.exists_gap split first second

end BinaryCodec.Definition
