import BinaryCodec.Proofs.Definition.Grammar

namespace BinaryCodec.Definition

inductive Gap : List Char → Prop
  | nil : Gap []
  | blank {c : Char} {rest : List Char} : Text.isBlank c → Gap rest → Gap (c :: rest)
  | comment {text rest : List Char} : '\n' ∉ text → Gap rest → Gap ('#' :: (text ++ '\n' :: rest))

inductive Ending : List Char → Prop
  | gap {gap : List Char} : Gap gap → Ending gap
  | comment {gap text : List Char} : Gap gap → '\n' ∉ text → Ending (gap ++ '#' :: text)

structure IsWord (chars : List Char) : Prop where
  filled : chars ≠ []
  whole : ∀ c ∈ chars, endsWord c = false
  noArrow : ¬['-', '>'] <:+: chars

def keywords : List String := ["use", "enum", "struct", "rpc"]

namespace TokenKind

def isWord : TokenKind → Bool
  | .word _ | .useKeyword | .enumKeyword | .structKeyword | .rpcKeyword => true
  | .openBrace | .closeBrace | .arrow => false

def isKeyword : TokenKind → Bool
  | .useKeyword | .enumKeyword | .structKeyword | .rpcKeyword => true
  | .word _ | .openBrace | .closeBrace | .arrow => false

def Writable : TokenKind → Prop
  | .word text => IsWord text.toList ∧ text ∉ keywords
  | _ => True

end TokenKind

/-- Tokens as a text, with gaps before, between and after them. Between two words the gap is not
empty; `before` says whether a word comes first. -/
inductive Written : (before : Bool) → List TokenKind → List Char → Prop
  | nil {before : Bool} {ending : List Char} : Ending ending → Written before [] ending
  | cons {before : Bool} {kind : TokenKind} {kinds : List TokenKind} {gap rest : List Char} :
      Gap gap → (before = true → kind.isWord = true → gap ≠ []) → Written kind.isWord kinds rest →
      Written before (kind :: kinds) (gap ++ (kind.text.toList ++ rest))

variable {place : Position} {chars rest gap : List Char} {c : Char}

theorem ne_dash_of_isBlank (blank : Text.isBlank c) : c ≠ '-' := by
  rintro rfl
  exact absurd blank (by decide)

theorem scan_blank (blank : Text.isBlank c) :
    scan place (c :: rest) = scan (place.next c) rest := by
  rw [scan]
  · rw [if_neg, if_neg, if_neg, if_pos blank]
    all_goals
      rintro rfl
      exact absurd blank (by decide)
  · exact fun _ dash => absurd dash (ne_dash_of_isBlank blank)

theorem scan_comment {text : List Char} (inside : '\n' ∉ text) :
    scan place ('#' :: (text ++ '\n' :: rest)) = scan (place.after ('#' :: (text ++ ['\n']))) rest := by
  have front : (text ++ '\n' :: rest).takeWhile (· ≠ '\n') = text := takeWhile_of_not_mem inside
  have step : scan place ('#' :: (text ++ '\n' :: rest)) =
      scan ((place.next '#').after text) ('\n' :: rest) := by
    rw [scan]
    · simp only [front, List.drop_left, if_pos]
    · exact fun _ dash => absurd dash (by decide)
  have whole : place.after ('#' :: (text ++ ['\n'])) = ((place.next '#').after text).next '\n' := by
    rw [Position.after, List.foldl_cons, List.foldl_append]
    rfl
  rw [step, scan_blank (by decide), whole]

theorem scan_gap (g : Gap gap) : scan place (gap ++ rest) = scan (place.after gap) rest := by
  induction g generalizing place with
  | nil => rfl
  | blank blank g ih => exact (scan_blank blank).trans ih
  | @comment text gap inside g ih =>
    have whole : place.after ('#' :: (text ++ '\n' :: gap)) =
        (place.after ('#' :: (text ++ ['\n']))).after gap := by
      simp only [Position.after, List.foldl_cons, List.foldl_append, List.foldl_nil]
    rw [List.cons_append, List.append_assoc, List.cons_append, scan_comment inside, ih, whole]

theorem scan_ending (e : Ending chars) : scan place chars = [] := by
  cases e with
  | gap g =>
    have same : scan place (chars ++ []) = scan (place.after chars) [] := scan_gap g
    rw [List.append_nil] at same
    rw [same, scan]
  | @comment gap text g inside =>
    rw [scan_gap g, scan]
    · have passed : ∀ d ∈ text, decide (d ≠ '\n') = true := by
        intro d member
        exact decide_eq_true fun line => inside (line ▸ member)
      have all : (text ++ []).takeWhile (· ≠ '\n') = text ++ [].takeWhile (· ≠ '\n') :=
        List.takeWhile_append_of_pos passed
      rw [List.append_nil, List.takeWhile_nil, List.append_nil] at all
      simp only [all, List.drop_length, if_pos]
      rw [scan]
    · exact fun _ dash => absurd dash (by decide)

def Stops (rest : List Char) : Prop := spanWord rest = ([], rest)

theorem stops_of_endsWord (ends : endsWord c) : Stops (c :: rest) := by
  unfold Stops
  rw [spanWord]
  · rw [if_pos ends]
  · rintro _ rfl
    exact absurd ends (by decide)

theorem stops_gap (g : Gap gap) (filled : gap ≠ []) : Stops (gap ++ rest) := by
  cases g with
  | nil => exact absurd rfl filled
  | blank blank g =>
    refine stops_of_endsWord ?_
    simp [endsWord, blank]
  | comment inside g => exact stops_of_endsWord (by decide)

theorem stops_ending (e : Ending rest) : Stops rest := by
  cases e with
  | gap g =>
    by_cases filled : rest = []
    · rw [filled]
      rfl
    · have stops : Stops (rest ++ []) := stops_gap g filled
      rwa [List.append_nil] at stops
  | @comment gap text g inside =>
    by_cases filled : gap = []
    · rw [filled]
      exact stops_of_endsWord (by decide)
    · exact stops_gap g filled

theorem stops_written {kinds : List TokenKind} (written : Written true kinds rest) : Stops rest := by
  generalize first : true = before at written
  cases written with
  | nil e => exact stops_ending e
  | @cons _ kind kinds gap rest g apart written =>
    by_cases filled : gap = []
    · rw [filled, List.nil_append]
      cases kind with
      | openBrace => exact stops_of_endsWord (by decide)
      | closeBrace => exact stops_of_endsWord (by decide)
      | arrow => rfl
      | word | useKeyword | enumKeyword | structKeyword | rpcKeyword =>
        exact absurd filled (apart first.symm rfl)
    · exact stops_gap g filled

theorem not_stops_angle : ¬Stops ('>' :: rest) := by
  intro stops
  unfold Stops at stops
  rw [spanWord] at stops
  · rw [if_neg (by decide)] at stops
    cases congrArg Prod.fst stops
  · exact fun _ dash => absurd dash (by decide)

theorem not_arrow {word back : List Char} (noArrow : ¬['-', '>'] <:+: c :: word) (stops : Stops rest)
    (dash : c = '-') : word ++ rest ≠ '>' :: back := by
  intro split
  cases word with
  | nil =>
    rw [List.nil_append] at split
    rw [split] at stops
    exact not_stops_angle stops
  | cons d word =>
    cases split
    exact noArrow ⟨[], word, by rw [dash]; rfl⟩

theorem spanWord_append {word : List Char} (whole : ∀ c ∈ word, endsWord c = false)
    (noArrow : ¬['-', '>'] <:+: word) (stops : Stops rest) :
    spanWord (word ++ rest) = (word, rest) := by
  induction word with
  | nil => exact stops
  | cons c word ih =>
    obtain ⟨first, others⟩ := List.forall_mem_cons.mp whole
    have tail := ih others fun inside => noArrow (List.infix_cons inside)
    rw [List.cons_append, spanWord]
    · rw [if_neg (by rw [first]; decide), tail]
    · exact fun _ => not_arrow noArrow stops

theorem scan_word {word : List Char} (valid : IsWord word) (stops : Stops rest) :
    scan place (word ++ rest) =
      ⟨.ofWord (String.ofList word), place⟩ :: scan (place.after word) rest := by
  obtain ⟨filled, whole, noArrow⟩ := valid
  cases word with
  | nil => exact absurd rfl filled
  | cons c word =>
    obtain ⟨first, others⟩ := List.forall_mem_cons.mp whole
    have tail := spanWord_append others (fun inside => noArrow (List.infix_cons inside)) stops
    simp only [endsWord, Bool.or_eq_false_iff, decide_eq_false_iff_not] at first
    obtain ⟨⟨⟨comment, opening⟩, closing⟩, blank⟩ := first
    rw [List.cons_append, scan]
    · rw [if_neg comment, if_neg opening, if_neg closing, if_neg (by rw [blank]; decide)]
      simp only [tail]
    · exact fun _ => not_arrow noArrow stops

theorem ofWord_of_not_mem {text : String} (other : text ∉ keywords) :
    TokenKind.ofWord text = .word text := by
  simp only [keywords, List.mem_cons, List.not_mem_nil, or_false, not_or] at other
  obtain ⟨notUse, notEnum, notStruct, notRpc⟩ := other
  unfold TokenKind.ofWord
  split <;> first | rfl | contradiction

theorem isWord_of_no_dash {word : List Char} (filled : word ≠ [])
    (whole : ∀ c ∈ word, endsWord c = false) (noDash : '-' ∉ word) : IsWord word :=
  ⟨filled, whole, fun inside => noDash (inside.subset (List.mem_cons_self ..))⟩

theorem endsWord_eq_false {word : List Char} (none : word.any endsWord = false) :
    ∀ c ∈ word, endsWord c = false :=
  fun c member => Bool.eq_false_iff.mpr (List.any_eq_false.mp none c member)

theorem isWord_text {kind : TokenKind} (word : kind.isWord = true) (writable : kind.Writable) :
    IsWord kind.text.toList ∧ TokenKind.ofWord kind.text = kind := by
  cases kind with
  | word text => exact ⟨writable.1, ofWord_of_not_mem writable.2⟩
  | useKeyword => exact ⟨isWord_of_no_dash (by decide) (endsWord_eq_false rfl) (by decide), rfl⟩
  | enumKeyword => exact ⟨isWord_of_no_dash (by decide) (endsWord_eq_false rfl) (by decide), rfl⟩
  | structKeyword => exact ⟨isWord_of_no_dash (by decide) (endsWord_eq_false rfl) (by decide), rfl⟩
  | rpcKeyword => exact ⟨isWord_of_no_dash (by decide) (endsWord_eq_false rfl) (by decide), rfl⟩
  | openBrace | closeBrace | arrow => cases word

theorem scan_mark {kind : TokenKind} (mark : kind.isWord = false) :
    scan place (kind.text.toList ++ rest) =
      ⟨kind, place⟩ :: scan (place.after kind.text.toList) rest := by
  cases kind with
  | openBrace =>
    show scan place ('\x7b' :: rest) = _
    rw [scan]
    · rw [if_neg (by decide), if_pos rfl]
      rfl
    · exact fun _ dash => absurd dash (by decide)
  | closeBrace =>
    show scan place ('\x7d' :: rest) = _
    rw [scan]
    · rw [if_neg (by decide), if_neg (by decide), if_pos rfl]
      rfl
    · exact fun _ dash => absurd dash (by decide)
  | arrow =>
    show scan place ('-' :: '>' :: rest) = _
    rw [scan]
    rfl
  | word | useKeyword | enumKeyword | structKeyword | rpcKeyword => cases mark

theorem scan_text {kind : TokenKind} (writable : kind.Writable)
    (stops : kind.isWord = true → Stops rest) :
    scan place (kind.text.toList ++ rest) =
      ⟨kind, place⟩ :: scan (place.after kind.text.toList) rest := by
  cases word : kind.isWord with
  | true =>
    obtain ⟨valid, same⟩ := isWord_text word writable
    rw [scan_word valid (stops word), String.ofList_toList, same]
  | false => exact scan_mark word

theorem kinds_scan {before : Bool} {kinds : List TokenKind}
    (written : Written before kinds chars) (writable : ∀ kind ∈ kinds, kind.Writable) :
    (scan place chars).map Token.kind = kinds := by
  induction written generalizing place with
  | nil e =>
    rw [scan_ending e]
    rfl
  | @cons before kind kinds gap rest g apart written ih =>
    obtain ⟨here, later⟩ := List.forall_mem_cons.mp writable
    have stops : kind.isWord = true → Stops rest := fun word => stops_written (word ▸ written)
    rw [scan_gap g, scan_text here stops, List.map_cons, ih later]

def spaced (kinds : List TokenKind) : List Char := kinds.flatMap fun kind => ' ' :: kind.text.toList

theorem written_spaced {before : Bool} (kinds : List TokenKind) :
    Written before kinds (spaced kinds) := by
  induction kinds generalizing before with
  | nil => exact .nil (.gap .nil)
  | cons kind kinds ih =>
    have blank : Gap [' '] := .blank (by decide) .nil
    exact .cons blank (fun _ _ => List.cons_ne_nil _ _) ih

theorem Gap.append {more : List Char} (g : Gap gap) (others : Gap more) : Gap (gap ++ more) := by
  induction g with
  | nil => exact others
  | blank blank g ih => exact .blank blank ih
  | @comment text gap inside g ih =>
    rw [List.cons_append, List.append_assoc, List.cons_append]
    exact .comment inside ih

theorem Ending.after (g : Gap gap) (e : Ending rest) : Ending (gap ++ rest) := by
  cases e with
  | gap others => exact .gap (g.append others)
  | comment others inside =>
    rw [← List.append_assoc]
    exact .comment (g.append others) inside

theorem Written.after {before first : Bool} {kinds : List TokenKind} (g : Gap gap) (filled : gap ≠ [])
    (written : Written first kinds rest) : Written before kinds (gap ++ rest) := by
  cases written with
  | nil e => exact .nil (e.after g)
  | cons others apart written =>
    rw [← List.append_assoc]
    exact .cons (g.append others) (fun _ _ => List.append_ne_nil_of_left_ne_nil filled _) written

theorem noArrow_nil : ¬['-', '>'] <:+: [] := by decide

theorem noArrow_cons {word more : List Char} (noArrow : ¬['-', '>'] <:+: word)
    (other : ∀ back, c = '-' → word ++ more = '>' :: back → False) : ¬['-', '>'] <:+: c :: word := by
  rw [List.infix_cons_iff, not_or]
  refine ⟨fun starts => ?_, noArrow⟩
  obtain ⟨back, same⟩ := starts
  cases same
  exact other (back ++ more) rfl rfl

theorem spanWord_spec (chars : List Char) :
    (spanWord chars).1 ++ (spanWord chars).2 = chars ∧ Stops (spanWord chars).2 ∧
      (∀ c ∈ (spanWord chars).1, endsWord c = false) ∧ ¬['-', '>'] <:+: (spanWord chars).1 := by
  fun_induction spanWord chars with
  | case1 => exact ⟨rfl, rfl, List.forall_mem_nil _, noArrow_nil⟩
  | case2 rest => exact ⟨rfl, rfl, List.forall_mem_nil _, noArrow_nil⟩
  | case3 c rest notArrow ends =>
    exact ⟨rfl, stops_of_endsWord ends, List.forall_mem_nil _, noArrow_nil⟩
  | case4 c rest notArrow goes word more split ih =>
    rw [split] at ih
    obtain ⟨whole, stops, inside, noArrow⟩ := ih
    refine ⟨congrArg (c :: ·) whole, stops, List.forall_mem_cons.mpr ⟨by simpa using goes, inside⟩, ?_⟩
    exact noArrow_cons noArrow fun back dash same => notArrow back dash (whole.symm.trans same)

theorem text_ofWord (text : String) : (TokenKind.ofWord text).text = text := by
  unfold TokenKind.ofWord
  split <;> rfl

theorem isWord_ofWord (text : String) : (TokenKind.ofWord text).isWord = true := by
  unfold TokenKind.ofWord
  split <;> rfl

theorem writable_ofWord {text : String} (valid : IsWord text.toList) :
    (TokenKind.ofWord text).Writable := by
  by_cases keyword : text ∈ keywords
  · have marks : ∀ text ∈ keywords, ∀ word, TokenKind.ofWord text ≠ .word word := by
      intro text member
      simp only [keywords, List.mem_cons, List.not_mem_nil, or_false] at member
      rcases member with rfl | rfl | rfl | rfl <;> exact fun _ same => nomatch same
    cases same : TokenKind.ofWord text with
    | word other => exact absurd same (marks text keyword other)
    | useKeyword | enumKeyword | structKeyword | rpcKeyword | openBrace | closeBrace | arrow =>
      exact True.intro
  · rw [ofWord_of_not_mem keyword]
    exact ⟨valid, keyword⟩

theorem not_stops_word (notArrow : ∀ more, c = '-' → rest = '>' :: more → False)
    (plain : endsWord c = false) : ¬Stops (c :: rest) := by
  intro stops
  unfold Stops at stops
  rw [spanWord] at stops
  · rw [plain, if_neg Bool.false_ne_true] at stops
    cases congrArg Prod.fst stops
  · exact notArrow

theorem isWord_span (notArrow : ∀ more, c = '-' → rest = '>' :: more → False)
    (plain : endsWord c = false) : IsWord (c :: (spanWord rest).1) := by
  obtain ⟨whole, -, inside, noArrow⟩ := spanWord_spec rest
  refine ⟨List.cons_ne_nil _ _, List.forall_mem_cons.mpr ⟨plain, inside⟩, ?_⟩
  exact noArrow_cons noArrow fun back dash same => notArrow back dash (whole.symm.trans same)

theorem writable_scan : ∀ token ∈ scan place chars, token.kind.Writable := by
  fun_induction scan place chars with
  | case1 => exact fun token none => nomatch none
  | case2 place rest ih => exact List.forall_mem_cons.mpr ⟨True.intro, ih⟩
  | case4 place rest _ _ ih => exact List.forall_mem_cons.mpr ⟨True.intro, ih⟩
  | case5 place rest _ _ _ ih => exact List.forall_mem_cons.mpr ⟨True.intro, ih⟩
  | case3 place rest comment _ ih => exact ih
  | case6 place c rest _ _ _ _ blank ih => exact ih
  | case7 place c rest notArrow comment opening closing blank more ih =>
    have plain : endsWord c = false := by simp [endsWord, comment, opening, closing, blank]
    refine List.forall_mem_cons.mpr ⟨writable_ofWord ?_, ih⟩
    rw [String.toList_ofList]
    exact isWord_span notArrow plain

theorem exists_line (rest : List Char) : ∃ line, rest.takeWhile (· ≠ '\n') = line ∧ '\n' ∉ line ∧
    (rest = line ∨ ∃ more, rest = line ++ '\n' :: more) := by
  refine ⟨_, rfl, fun member => ?_, ?_⟩
  · have all := List.all_takeWhile (p := (· ≠ '\n')) (l := rest)
    rw [List.all_eq_true] at all
    exact of_decide_eq_true (all _ member) rfl
  · cases dropped : rest.drop (rest.takeWhile (· ≠ '\n')).length with
    | nil =>
      have long := List.drop_eq_nil_iff.mp dropped
      exact .inl ((List.takeWhile_prefix _).eq_of_length_le long).symm
    | cons d more => exact .inr ⟨more, eq_of_drop_takeWhile dropped⟩

theorem written_mark {before : Bool} {kinds : List TokenKind} (kind : TokenKind)
    (mark : kind.isWord = false) (written : Written false kinds rest) :
    Written before (kind :: kinds) (kind.text.toList ++ rest) := by
  rw [← mark] at written
  refine .cons .nil (fun _ word => ?_) written
  rw [mark] at word
  cases word

theorem written_scan {before : Bool} (apart : before = true → Stops chars) :
    Written before ((scan place chars).map Token.kind) chars := by
  induction length : chars.length using Nat.strongRecOn generalizing place chars before with
  | ind n ih =>
    subst length
    have shorter {place : Position} {before : Bool} {rest : List Char} (less : rest.length < chars.length)
        (apart : before = true → Stops rest) : Written before ((scan place rest).map Token.kind) rest :=
      ih _ less apart rfl
    have fresh {place : Position} {rest : List Char} (less : rest.length < chars.length) :
        Written false ((scan place rest).map Token.kind) rest :=
      shorter less fun h => nomatch h
    clear ih
    fun_cases scan place chars with
    | case1 => exact .nil (.gap .nil)
    | case2 rest =>
      have less : rest.length < ('-' :: '>' :: rest).length := by
        simp only [List.length_cons]
        omega
      exact written_mark .arrow rfl (fresh less)
    | case3 rest comment notArrow =>
      obtain ⟨line, front, inside, whole⟩ := exists_line rest
      simp only [comment, front]
      rcases whole with rfl | ⟨more, rfl⟩
      · rw [List.drop_length, scan]
        exact .nil (.comment .nil inside)
      · rw [List.drop_left, scan_blank (by decide)]
        have gap : Gap ('#' :: (line ++ '\n' :: [])) := .comment inside .nil
        have less : more.length < ('#' :: (line ++ '\n' :: more)).length := by
          simp only [List.length_cons, List.length_append]
          omega
        have later {place : Position} {before : Bool} :
            Written before ((scan place more).map Token.kind) (('#' :: (line ++ ['\n'])) ++ more) :=
          (fresh less).after gap (List.cons_ne_nil _ _)
        rw [List.cons_append, List.append_assoc] at later
        exact later
    | case4 rest notArrow comment => exact written_mark .openBrace rfl (fresh (by simp))
    | case5 => exact written_mark .closeBrace rfl (fresh (by simp))
    | case6 c rest _ _ _ _ blank =>
      have gap : Gap [c] := .blank blank .nil
      exact (fresh (by simp)).after gap (List.cons_ne_nil _ _)
    | case7 c rest notArrow comment opening closing blank more =>
      have plain : endsWord c = false := by simp [endsWord, comment, opening, closing, blank]
      obtain ⟨whole, stops, -, -⟩ := spanWord_spec rest
      have less : more.2.length < (c :: rest).length := Nat.lt_succ_of_le (length_spanWord_le rest)
      have later : Written true ((scan (place.after (c :: more.1)) more.2).map Token.kind) more.2 :=
        shorter less fun _ => stops
      let kind := TokenKind.ofWord (String.ofList (c :: more.1))
      have text : c :: rest = [] ++ (kind.text.toList ++ more.2) := by
        rw [text_ofWord, String.toList_ofList, List.nil_append, List.cons_append, whole]
      have word : kind.isWord = true := isWord_ofWord _
      rw [← word] at later
      rw [List.map_cons, text]
      exact .cons .nil (fun first _ => absurd (apart first) (not_stops_word notArrow plain)) later

end BinaryCodec.Definition
