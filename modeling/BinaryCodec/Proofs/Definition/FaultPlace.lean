import BinaryCodec.Proofs.Definition.Partition
import BinaryCodec.Proofs.Definition.Soundness

namespace BinaryCodec.Definition

def Cause.ofLookup : Cause → Bool
  | .undefinedType _ | .recursiveType .. => true
  | .unexpectedToken .. | .unexpectedEnd _ | .invalidName _ | .reservedName _ | .duplicateType _
  | .duplicateField _ | .duplicateProcedure _ | .emptyEnumeration _ | .malformedProcedure _ => false

/-- How the text of the token that a cause is about is quoted: as it is, but a field without its brackets, a
procedure without its request, and a request without its procedure. -/
def Cause.Quotes (text : String) : Cause → Prop
  | .unexpectedEnd _ => False
  | .unexpectedToken _ found => found = text
  | .reservedName name | .duplicateType name | .emptyEnumeration name => name = text
  | .malformedProcedure signature => signature = text
  | .recursiveType message _ => message = text
  | .invalidName name | .duplicateField name => text = name ∨ text = name ++ "[]"
  | .duplicateProcedure name => ∃ request, text = name ++ "(" ++ request ++ ")"
  | .undefinedType name => text = name ∨ ∃ procedure, text = procedure ++ "(" ++ name ++ ")"

/-- A fault at one of some tokens, which its cause quotes, or where the text ends; `lookup` says whether
names were looked up. -/
inductive Fault.PointsInto (all : List Token) (final : Position) : (lookup : Bool) → Fault → Prop
  | token {lookup : Bool} {token : Token} {cause : Cause} : token ∈ all →
      cause.Quotes token.kind.text → cause.ofLookup = lookup →
      PointsInto all final lookup ⟨token.place, cause⟩
  | ending {expected : Expected} : PointsInto all final false ⟨final, .unexpectedEnd expected⟩

section steps

variable {ε α β : Type} {x : Except ε α} {d : ε}

theorem check_eq_error {p : Prop} [Decidable p] {e : ε} {k : Unit → Except ε β} :
    (if p then (throw e : Except ε Unit) >>= k else k ()) = .error d ↔
      p ∧ e = d ∨ ¬p ∧ k () = .error d := by
  by_cases h : p
  · rw [if_pos h]
    constructor
    · intro failed
      cases failed
      exact .inl ⟨h, rfl⟩
    · rintro (⟨-, rfl⟩ | ⟨absurd, -⟩)
      · rfl
      · exact (absurd h).elim
  · rw [if_neg h]
    constructor
    · exact fun failed => .inr ⟨h, failed⟩
    · rintro (⟨holds, -⟩ | ⟨-, failed⟩)
      · exact (h holds).elim
      · exact failed

theorem exists_of_mapM_error {f : α → Except ε β} {items : List α} (h : items.mapM f = .error d) :
    ∃ item ∈ items, f item = .error d := by
  induction items with
  | nil => cases h
  | cons item rest ih =>
    rw [List.mapM_cons] at h
    rcases bind_eq_error.mp h with here | ⟨r, -, more⟩
    · exact ⟨item, List.mem_cons_self .., here⟩
    · rcases bind_eq_error.mp more with later | ⟨others, -, last⟩
      · obtain ⟨other, among, failed⟩ := ih later
        exact ⟨other, List.mem_cons_of_mem _ among, failed⟩
      · cases last

end steps

section pass

variable {all tokens rest : List Token} {final : Position} {expected : Expected} {fault : Fault}
  {draft next : Draft} {name : Name}

theorem unexpected_points (within : tokens ⊆ all) :
    (unexpected final expected tokens).PointsInto all final false := by
  cases tokens with
  | nil => exact .ending
  | cons token rest => exact .token (List.cons_subset.mp within).1 rfl rfl

theorem Name.fault_points {text : String} {place : Position} {cause : Cause}
    (member : ⟨.word text, place⟩ ∈ all) (quotes : cause.Quotes text) (early : cause.ofLookup = false)
    (placed : name.place = place) : (name.fault cause).PointsInto all final false := by
  subst placed
  exact .token member quotes early

theorem Name.check_eq_error (failed : name.check = .error fault) :
    fault = name.fault (.invalidName name.text) := by
  unfold Name.check at failed
  split at failed
  · cases failed
  · exact (Except.error.inj failed).symm

theorem parseName_points (within : tokens ⊆ all)
    (failed : parseName final expected tokens = .error fault) : fault.PointsInto all final false := by
  unfold parseName at failed
  split at failed
  · cases failed
  · cases failed
    exact unexpected_points within

theorem parseOpen_points (within : tokens ⊆ all) (failed : parseOpen final tokens = .error fault) :
    fault.PointsInto all final false := by
  unfold parseOpen at failed
  split at failed
  · cases failed
  · cases failed
    exact unexpected_points within

theorem parseTypeName_points (within : tokens ⊆ all)
    (failed : parseTypeName final draft tokens = .error fault) : fault.PointsInto all final false := by
  simp only [parseTypeName, bind_eq_error, Definition.check_eq_error, Prod.exists, parseName_eq_ok]
    at failed
  rcases failed with missing | ⟨name, rest, rfl, invalid | ⟨-, -, taken⟩⟩
  · exact parseName_points within missing
  · rw [Name.check_eq_error invalid]
    exact name.fault_points (within (List.mem_cons_self ..)) (.inl rfl) rfl rfl
  · rcases taken with ⟨-, rfl⟩ | ⟨-, ⟨-, rfl⟩ | ⟨-, last⟩⟩
    · exact name.fault_points (within (List.mem_cons_self ..)) rfl rfl rfl
    · exact name.fault_points (within (List.mem_cons_self ..)) rfl rfl rfl
    · cases last

theorem loop_points {α : Type} {parse : List String → List Token → Except Fault (α × List Token)}
    (step : ∀ {seen tokens}, tokens ⊆ all → parse seen tokens = .error fault →
      fault.PointsInto all final false ∨
        ∃ more rest, rest.length < tokens.length ∧ rest ⊆ tokens ∧ parse more rest = .error fault)
    {seen : List String} (within : tokens ⊆ all) (failed : parse seen tokens = .error fault) :
    fault.PointsInto all final false := by
  generalize counted : tokens.length = count
  induction count using Nat.strongRecOn generalizing seen tokens with
  | ind count ih =>
    rcases step within failed with points | ⟨more, rest, fewer, part, again⟩
    · exact points
    · exact ih rest.length (counted ▸ fewer) (List.Subset.trans part within) again rfl

theorem parseValues_points {seen : List String} (within : tokens ⊆ all)
    (failed : parseValues final seen tokens = .error fault) : fault.PointsInto all final false := by
  refine loop_points (fun {seen tokens} within failed => ?_) within failed
  unfold parseValues at failed
  split at failed
  · cases failed
  · next text place rest =>
    have here : ⟨.word text, place⟩ ∈ all := within (List.mem_cons_self ..)
    simp only [bind_eq_error, Definition.check_eq_error, Prod.exists] at failed
    rcases failed with invalid | ⟨-, -, ⟨-, rfl⟩ | ⟨-, again | ⟨values, rest, -, last⟩⟩⟩
    · rw [Name.check_eq_error invalid]
      exact .inl (Name.fault_points here (.inl rfl) rfl rfl)
    · exact .inl (Name.fault_points here (.inl rfl) rfl rfl)
    · exact .inr ⟨_, rest, Nat.lt_succ_self _, List.subset_cons_self _ _, again⟩
    · cases last
  · cases failed
    exact .inl (unexpected_points within)

theorem parseFields_points {seen : List String} (within : tokens ⊆ all)
    (failed : parseFields final seen tokens = .error fault) : fault.PointsInto all final false := by
  refine loop_points (fun {seen tokens} within failed => ?_) within failed
  unfold parseFields at failed
  split at failed
  · cases failed
  · next text place rest =>
    obtain ⟨here, later⟩ := List.cons_subset.mp within
    simp only [bind_eq_error] at failed
    rcases failed with invalid | ⟨-, -, failed⟩
    · rw [Name.check_eq_error invalid]
      exact .inl (Name.fault_points here (.inl rfl) rfl rfl)
    · split at failed
      · next written position rest =>
        have named : ⟨.word written, position⟩ ∈ all := later (List.mem_cons_self ..)
        cases split : splitArray written with
        | mk name isArray =>
        have brackets : written = name ∨ written = name ++ "[]" := by
          cases isArray with
          | false => exact .inl (splitArray_eq split)
          | true => exact .inr (splitArray_eq split)
        simp only [split, bind_eq_error, Definition.check_eq_error, Prod.exists] at failed
        rcases failed with invalid | ⟨-, -, ⟨-, rfl⟩ | ⟨-, again | ⟨fields, rest, -, last⟩⟩⟩
        · rw [Name.check_eq_error invalid]
          exact .inl (Name.fault_points named brackets rfl rfl)
        · exact .inl (Name.fault_points named brackets rfl rfl)
        · refine .inr ⟨_, rest, ?_, ?_, again⟩
          · exact Nat.lt_succ_of_lt (Nat.lt_succ_self _)
          · exact fun token member => by simp [member]
        · cases last
      · cases failed
        exact .inl (unexpected_points later)
  · cases failed
    exact .inl (unexpected_points within)

theorem splitSignature_error {signature : Name} (failed : splitSignature signature = .error fault) :
    fault = signature.fault (.malformedProcedure signature.text) := by
  simp only [splitSignature] at failed
  split at failed
  · exact (Except.error.inj failed).symm
  · split at failed
    · split at failed
      · cases failed
      · exact (Except.error.inj failed).symm
    · exact (Except.error.inj failed).symm

theorem parseProcedures_points {seen : List String} (within : tokens ⊆ all)
    (failed : parseProcedures final seen tokens = .error fault) : fault.PointsInto all final false := by
  refine loop_points (fun {seen tokens} within failed => ?_) within failed
  unfold parseProcedures at failed
  split at failed
  · cases failed
  · next text place rest =>
    obtain ⟨here, later⟩ := List.cons_subset.mp within
    simp only [bind_eq_error, Definition.check_eq_error, Prod.exists] at failed
    rcases failed with malformed | ⟨name, request, split, ⟨-, rfl⟩ | ⟨-, failed⟩⟩
    · rw [splitSignature_error malformed]
      exact .inl (Name.fault_points here rfl rfl rfl)
    · obtain ⟨-, inner, whole, -⟩ := shape_of_splitSignature split
      exact .inl (Name.fault_points here ⟨inner, whole⟩ rfl rfl)
    · split at failed
      · next arrow answer position rest =>
        have answered : ⟨.word answer, position⟩ ∈ all := later (by simp)
        simp only [bind_eq_error, Prod.exists] at failed
        rcases failed with invalid | ⟨-, -, again | ⟨procedures, rest, -, last⟩⟩
        · rw [Name.check_eq_error invalid]
          exact .inl (Name.fault_points answered (.inl rfl) rfl rfl)
        · refine .inr ⟨_, rest, ?_, ?_, again⟩
          · simp only [List.length_cons]
            omega
          · exact fun token member => by simp [member]
        · cases last
      · cases failed
        exact .inl (unexpected_points (List.cons_subset.mp later).2)
      · cases failed
        exact .inl (unexpected_points later)
  · cases failed
    exact .inl (unexpected_points within)

namespace Draft

theorem parsePragma_points (within : tokens ⊆ all)
    (failed : draft.parsePragma final tokens = .error fault) : fault.PointsInto all final false := by
  simp only [parsePragma, bind_eq_error, Prod.exists] at failed
  rcases failed with missing | ⟨name, rest, -, last⟩
  · exact parseName_points within missing
  · cases last

theorem parseEnumeration_points (within : tokens ⊆ all)
    (failed : draft.parseEnumeration final tokens = .error fault) :
    fault.PointsInto all final false := by
  simp only [parseEnumeration, bind_eq_error, Definition.check_eq_error, Prod.exists,
    parseTypeName_eq_ok, parseOpen_eq_ok] at failed
  rcases failed with missing | ⟨name, rest, ⟨rfl, -⟩, failed⟩
  · exact parseTypeName_points within missing
  · obtain ⟨here, later⟩ := List.cons_subset.mp within
    rcases failed with unopened | ⟨rest, ⟨place, rfl⟩, unread | ⟨values, rest, -, empty⟩⟩
    · exact parseOpen_points later unopened
    · exact parseValues_points (List.cons_subset.mp later).2 unread
    · rcases empty with ⟨-, rfl⟩ | ⟨-, last⟩
      · exact Name.fault_points here rfl rfl rfl
      · cases last

theorem parseMessage_points (within : tokens ⊆ all)
    (failed : draft.parseMessage final tokens = .error fault) : fault.PointsInto all final false := by
  simp only [parseMessage, bind_eq_error, Prod.exists, parseTypeName_eq_ok, parseOpen_eq_ok] at failed
  rcases failed with missing | ⟨name, rest, ⟨rfl, -⟩, failed⟩
  · exact parseTypeName_points within missing
  · have later := (List.cons_subset.mp within).2
    rcases failed with unopened | ⟨rest, ⟨place, rfl⟩, unread | ⟨fields, rest, -, last⟩⟩
    · exact parseOpen_points later unopened
    · exact parseFields_points (List.cons_subset.mp later).2 unread
    · cases last

theorem parseService_points (within : tokens ⊆ all)
    (failed : draft.parseService final tokens = .error fault) : fault.PointsInto all final false := by
  simp only [parseService, bind_eq_error, Definition.check_eq_error, Prod.exists, parseName_eq_ok,
    parseOpen_eq_ok] at failed
  rcases failed with missing | ⟨name, rest, rfl, failed⟩
  · exact parseName_points within missing
  · obtain ⟨here, later⟩ := List.cons_subset.mp within
    rcases failed with invalid | ⟨-, -, ⟨-, rfl⟩ | ⟨-, failed⟩⟩
    · rw [Name.check_eq_error invalid]
      exact Name.fault_points here (.inl rfl) rfl rfl
    · exact Name.fault_points here rfl rfl rfl
    · rcases failed with unopened | ⟨rest, ⟨place, rfl⟩, unread | ⟨procedures, rest, -, last⟩⟩
      · exact parseOpen_points later unopened
      · exact parseProcedures_points (List.cons_subset.mp later).2 unread
      · cases last

theorem parseDeclaration_points (within : tokens ⊆ all)
    (failed : draft.parseDeclaration final tokens = .error fault) :
    fault.PointsInto all final false := by
  unfold parseDeclaration at failed
  split at failed
  · exact parsePragma_points (List.cons_subset.mp within).2 failed
  · exact parseEnumeration_points (List.cons_subset.mp within).2 failed
  · exact parseMessage_points (List.cons_subset.mp within).2 failed
  · exact parseService_points (List.cons_subset.mp within).2 failed
  · cases failed
    exact unexpected_points within

theorem parseAll_points {fuel : Nat} (within : tokens ⊆ all)
    (failed : parseAll final fuel draft tokens = .error fault) : fault.PointsInto all final false := by
  induction fuel generalizing draft tokens with
  | zero =>
    cases tokens <;> cases failed
  | succ fuel ih =>
    cases tokens with
    | nil => cases failed
    | cons token more =>
      simp only [parseAll, bind_eq_error, Prod.exists, parseDeclaration_eq_ok] at failed
      rcases failed with here | ⟨next, rest, ⟨item, body, -, whole, -⟩, later⟩
      · exact parseDeclaration_points within here
      · rw [whole] at within
        exact ih (List.append_subset.mp within).2 later

end Draft

end pass

theorem Row.exists_of_mem {α τ : Type} {spelled : α → List τ → Prop} {items : List α}
    {symbols : List τ} {item : α} (row : Row spelled items symbols) (member : item ∈ items) :
    ∃ first, spelled item first ∧ first ⊆ symbols := by
  induction row with
  | nil => cases member
  | @cons head items first more here row ih =>
    rcases List.mem_cons.mp member with rfl | later
    · exact ⟨first, here, List.subset_append_left _ _⟩
    · obtain ⟨part, spells, within⟩ := ih later
      exact ⟨part, spells, List.Subset.trans within (List.subset_append_right _ _)⟩

section lookup

variable {draft : Draft} {package : String} {fault : Fault} {all tokens : List Token}
  {items : List DraftItem}

theorem Draft.text_of_inlined? {text name inner : String} {isArray : Bool} {type : FieldType}
    {place : Position} (found : draft.fieldType? text = some type)
    (inlined : MessageField.inlined? ⟨name, type, isArray, place⟩ = some inner) : text = inner := by
  have spelling := spelling_of_fieldType? found
  cases isArray with
  | true => cases inlined
  | false =>
    cases type with
    | builtin type => cases inlined
    | enumeration name => cases inlined
    | message name =>
      cases inlined
      exact spelling

theorem Draft.resolve_error (failed : draft.resolve package = .error fault) :
    (∃ type ∈ draft.procedureTypes, fault = type.fault (.undefinedType type.text)) ∨
      ∃ m ∈ draft.messages, ∃ field ∈ m.fields,
        fault = field.type.fault (.undefinedType field.type.text) ∨
        fault = field.type.fault (.recursiveType field.type.text field.name) := by
  simp only [resolve] at failed
  split at failed
  · next type found =>
    cases failed
    exact .inl ⟨type, List.mem_of_find?_eq_some found, rfl⟩
  · right
    simp only [bind_eq_error] at failed
    rcases failed with unresolved | ⟨messages, made, cyclic | ⟨-, -, last⟩⟩
    · obtain ⟨m, member, failed⟩ := exists_of_mapM_error unresolved
      simp only [resolveMessage, bind_eq_error] at failed
      rcases failed with missing | ⟨fields, -, last⟩
      · obtain ⟨field, inside, failed⟩ := exists_of_mapM_error missing
        unfold resolveField at failed
        split at failed
        · cases failed
        · exact ⟨m, member, field, inside, .inl (Except.error.inj failed).symm⟩
      · cases last
    · obtain ⟨m, member, field, inside, inner, inlined, rfl, -⟩ := rejectInlineCycles_error cyclic
      obtain ⟨source, declared, one⟩ := exists_of_mapM_ok made member
      obtain ⟨line, listed, looked⟩ := exists_of_mapM_ok (resolveMessage_eq_ok.mp one).2.2 inside
      obtain ⟨type, found, rfl⟩ := resolveField_eq_ok.mp looked
      rw [← text_of_inlined? found inlined]
      exact ⟨source, declared, line, listed, .inr rfl⟩
    · cases last

theorem type_of_message {m : DraftMessage} {field : DraftField}
    (row : Row DraftItem.Spelled items tokens) (declared : m ∈ items.filterMap DraftItem.message?)
    (member : field ∈ m.fields) : ⟨.word field.type.text, field.type.place⟩ ∈ tokens := by
  obtain ⟨item, among, made⟩ := List.mem_filterMap.mp declared
  obtain ⟨part, ⟨place, written, spelled, rfl⟩, within⟩ := row.exists_of_mem among
  cases item with
  | pragma word => cases made
  | enumeration name values => cases made
  | service name procedures => cases made
  | message name fields =>
    cases made
    obtain ⟨opened, closed, body, fieldRow, rfl⟩ := spelled
    obtain ⟨first, ⟨position, rfl⟩, inside⟩ := fieldRow.exists_of_mem member
    have here := inside (List.mem_cons_self ..)
    exact within (by simp [here])

theorem type_of_procedure {type : Name} (row : Row DraftItem.Spelled items tokens)
    (listed : type ∈ items.flatMap DraftItem.procedureTypes) : ∃ token ∈ tokens,
    token.place = type.place ∧ (Cause.undefinedType type.text).Quotes token.kind.text := by
  obtain ⟨item, among, named⟩ := List.mem_flatMap.mp listed
  obtain ⟨part, ⟨place, written, spelled, rfl⟩, within⟩ := row.exists_of_mem among
  cases item with
  | pragma word => cases named
  | enumeration name values => cases named
  | message name fields => cases named
  | service name procedures =>
    obtain ⟨opened, closed, body, procedureRow, rfl⟩ := spelled
    obtain ⟨p, member, typed⟩ := List.mem_flatMap.mp named
    obtain ⟨first, shaped, inside⟩ := procedureRow.exists_of_mem member
    have among : first ⊆ tokens := by
      intro token here
      have reached := inside here
      exact within (by simp [reached])
    obtain ⟨signature, response, title, request, arrow, split, -, rfl, rfl⟩ := shaped
    obtain ⟨-, inner, whole, -, asked⟩ := shape_of_splitSignature split
    simp only [DraftProcedure.of, List.mem_append, Option.mem_toList, Option.map_eq_some_iff] at typed
    rcases typed with ⟨text, some, rfl⟩ | ⟨-, -, rfl⟩
    · refine ⟨⟨.word signature.text, signature.place⟩, among (by simp), rfl, .inr ⟨title, ?_⟩⟩
      have taken := requestSpelling_nonVoid asked
      rw [some] at taken
      have same : inner = text := taken
      exact same ▸ whole
    · exact ⟨⟨.word response.text, response.place⟩, among (by simp), rfl, .inl rfl⟩

theorem Draft.resolve_points (row : Row DraftItem.Spelled items tokens) {final : Position}
    (failed : (items.foldl add empty).resolve package = .error fault) :
    fault.PointsInto tokens final true := by
  rcases resolve_error failed with ⟨type, listed, rfl⟩ | ⟨m, declared, field, member, unresolved⟩
  · rw [foldl_add] at listed
    obtain ⟨token, among, placed, quotes⟩ := type_of_procedure row listed
    rw [Name.fault, ← placed]
    exact .token among quotes rfl
  · rw [foldl_add] at declared
    have among := type_of_message row declared member
    rcases unresolved with rfl | rfl
    · exact .token among (.inl rfl) rfl
    · exact .token among rfl rfl

end lookup

/-- Where the fault of a text stands, and which pass finds it. -/
structure Located (tokens : List Token) (fault : Fault) : Prop where
  quoting : (∀ expected, fault.cause ≠ .unexpectedEnd expected) →
    ∃ token ∈ tokens, fault.place = token.place ∧ fault.cause.Quotes token.kind.text
  ending : ∀ expected, fault.cause = .unexpectedEnd expected →
    ∃ last, tokens.getLast? = some last ∧ fault.place = last.place.after last.kind.text.toList
  first : ∀ early, Draft.ofTokens tokens = .error early → fault = early
  lookup : fault.cause.ofLookup = true ↔ ∃ draft, Draft.ofTokens tokens = .ok draft

section located

variable {tokens : List Token} {final : Position} {lookup : Bool} {fault : Fault}

theorem Fault.PointsInto.ofLookup_eq (points : fault.PointsInto tokens final lookup) :
    fault.cause.ofLookup = lookup := by
  cases points with
  | token member quotes found => exact found
  | ending => rfl

theorem Fault.PointsInto.exists_token (points : fault.PointsInto tokens final lookup)
    (whole : ∀ expected, fault.cause ≠ .unexpectedEnd expected) :
    ∃ token ∈ tokens, fault.place = token.place ∧ fault.cause.Quotes token.kind.text := by
  cases points with
  | @token _ blamed cause member quotes found => exact ⟨blamed, member, rfl, quotes⟩
  | @ending expected => exact absurd rfl (whole expected)

theorem Fault.PointsInto.place_eq (points : fault.PointsInto tokens final lookup)
    {expected : Expected} (ends : fault.cause = .unexpectedEnd expected) :
    fault.place = final ∧ lookup = false := by
  cases points with
  | token member quotes found =>
    cases ends
    exact quotes.elim
  | ending => exact ⟨rfl, rfl⟩

theorem finalPosition_tokens {source : String} {last : Token}
    (ends : (Definition.tokens source).getLast? = some last) :
    finalPosition (Definition.tokens source) = last.place.after last.kind.text.toList := by
  have writable := writable_scan last (List.mem_of_getLast? ends)
  rw [finalPosition, ends, Position.after_of_not_mem (TokenKind.feed_not_mem_text writable)]
  rfl

theorem exists_last (failed : Draft.ofTokens tokens = .error fault) :
    ∃ last, tokens.getLast? = some last := by
  cases tokens with
  | nil => cases failed
  | cons token rest => exact ⟨_, List.getLast?_eq_some_getLast (List.cons_ne_nil _ _)⟩

end located

/-- The fault of a text stands at a token that it quotes, or just past the last one where the text ends too
soon; and it is that of the pass over the tokens, unless that pass finds none. -/
theorem Document.located_of_parse {package source : String} {fault : Fault}
    (refused : Document.parse package source = .error fault) : Located (tokens source) fault := by
  rcases bind_eq_error.mp refused with early | ⟨draft, made, late⟩
  · have points := Draft.parseAll_points (List.Subset.refl _) early
    refine ⟨points.exists_token, fun expected ends => ?_, fun other failed => ?_, ?_⟩
    · obtain ⟨last, stands⟩ := exists_last early
      exact ⟨last, stands, (points.place_eq ends).1.trans (finalPosition_tokens stands)⟩
    · exact Except.error.inj (early.symm.trans failed)
    · rw [points.ofLookup_eq, early]
      simp
  · obtain ⟨items, row, -, rfl⟩ := Draft.ofTokens_eq_ok.mp made
    have points : fault.PointsInto (tokens source) .start true := Draft.resolve_points row late
    refine ⟨points.exists_token, fun expected ends => ?_, fun other failed => ?_, ?_⟩
    · cases (points.place_eq ends).2
    · rw [made] at failed
      cases failed
    · rw [points.ofLookup_eq, made]
      simp

/-- A type that is not declared, before a name that is taken. -/
def strayedSource : String := "struct A { Missing m }\nstruct A { }"

theorem Document.located_strayedSource :
    Document.parse "x" strayedSource = .error ⟨⟨2, 8⟩, .duplicateType "A"⟩ ∧
      Located (tokens strayedSource) ⟨⟨2, 8⟩, .duplicateType "A"⟩ := by
  have refused : Document.parse "x" strayedSource = .error ⟨⟨2, 8⟩, .duplicateType "A"⟩ := by
    decide +kernel
  exact ⟨refused, located_of_parse refused⟩

end BinaryCodec.Definition
