import BinaryCodec.Definition.Inlining
import BinaryCodec.Proofs.Definition.Grammar
import Mathlib.Logic.Relation

namespace BinaryCodec.Definition

open Relation

/-- Whether `outer` has a field, not an array, of the message `inner`. -/
def Inlines (messages : List Message) (outer inner : String) : Prop :=
  ∃ m ∈ messages, m.name = outer ∧ ∃ field ∈ m.fields, field.inlined? = some inner

variable {messages : List Message} {visit : String → Marks → Except Fault Marks}
  {marks after : Marks} {fault : Fault} {name : String}

/-- A fault of a field that closes a cycle: its message lies inside the one that the field is of. -/
def ClosesCycle (messages : List Message) (fault : Fault) : Prop :=
  ∃ m ∈ messages, ∃ field ∈ m.fields, ∃ name, field.inlined? = some name ∧
    fault = ⟨field.place, .recursiveType name field.name⟩ ∧
    ReflTransGen (Inlines messages) name m.name

def OpenLeadsTo (messages : List Message) (marks : Marks) (name : String) : Prop :=
  ∀ o, marks.lookup o = some .opened → ReflTransGen (Inlines messages) o name

structure Searches (messages : List Message) (visit : String → Marks → Except Fault Marks) :
    Prop where
  closes : ∀ {name marks after}, visit name marks = .ok after →
    ∀ o, after.lookup o = some .opened → marks.lookup o = some .opened
  fails : ∀ {name marks fault}, OpenLeadsTo messages marks name →
    visit name marks = .error fault → ClosesCycle messages fault

theorem bind_eq_error {ε α β : Type} {x : Except ε α} {f : α → Except ε β} {e : ε} :
    x >>= f = .error e ↔ x = .error e ∨ ∃ v, x = .ok v ∧ f v = .error e := by
  cases x with
  | error other => simp [bind, Except.bind]
  | ok v => simp [bind, Except.bind]

theorem closes_visitFields (searches : Searches messages visit) {fields : List MessageField}
    (run : visitFields visit fields marks = .ok after) {o : String}
    (opened : after.lookup o = some .opened) : marks.lookup o = some .opened := by
  induction fields generalizing marks with
  | nil =>
    cases run
    exact opened
  | cons field rest ih =>
    unfold visitFields at run
    split at run
    · exact ih run
    · split at run
      · cases run
      · exact ih run
      · obtain ⟨next, visited, more⟩ := bind_eq_ok.mp run
        exact searches.closes visited o (ih more)

theorem fails_visitFields (searches : Searches messages visit) {m : Message} (member : m ∈ messages)
    {fields : List MessageField} (within : ∀ field ∈ fields, field ∈ m.fields)
    (leads : OpenLeadsTo messages marks m.name)
    (run : visitFields visit fields marks = .error fault) : ClosesCycle messages fault := by
  induction fields generalizing marks with
  | nil => cases run
  | cons field rest ih =>
    obtain ⟨here, later⟩ := List.forall_mem_cons.mp within
    unfold visitFields at run
    split at run
    · exact ih later leads run
    · next inner inlined =>
      have step : Inlines messages m.name inner := ⟨m, member, rfl, field, here, inlined⟩
      split at run
      · next opened =>
        -- an open message leads to this one, which leads back to it
        cases run
        exact ⟨m, member, field, here, inner, inlined, rfl, leads inner opened⟩
      · exact ih later leads run
      · rcases bind_eq_error.mp run with failed | ⟨next, visited, more⟩
        · refine searches.fails (fun o opened => ?_) failed
          exact (leads o opened).tail step
        · refine ih later (fun o opened => ?_) more
          exact leads o (searches.closes visited o opened)

theorem lookup_cons_of_ne {mark : Mark} {o : String} (other : o ≠ name) :
    List.lookup o ((name, mark) :: marks) = marks.lookup o := by
  rw [List.lookup_cons, beq_false_of_ne other]

theorem searches_visitMessage (fuel : Nat) : Searches messages (visitMessage messages fuel) := by
  induction fuel with
  | zero =>
    constructor
    · intro name marks after run
      cases run
      exact fun o opened => opened
    · intro name marks fault leads run
      cases run
  | succ fuel ih =>
    constructor
    · intro name marks after run o opened
      unfold visitMessage at run
      split at run
      · cases run
        exact opened
      · obtain ⟨next, visited, same⟩ := bind_eq_ok.mp run
        cases same
        by_cases this : o = name
        · rw [this, List.lookup_cons, beq_self_eq_true] at opened
          cases opened
        · rw [lookup_cons_of_ne this] at opened
          have before := closes_visitFields ih visited opened
          rwa [lookup_cons_of_ne this] at before
    · intro name marks fault leads run
      unfold visitMessage at run
      split at run
      · cases run
      · next m found =>
        have member := List.mem_of_find?_eq_some found
        have named : m.name = name := by simpa using List.find?_some found
        rcases bind_eq_error.mp run with failed | ⟨next, visited, more⟩
        · refine fails_visitFields ih member (fun field h => h) (fun o opened => ?_) failed
          rw [named]
          by_cases this : o = name
          · rw [this]
          · rw [lookup_cons_of_ne this] at opened
            exact leads o opened
        · cases more

theorem visitAll_error {rest : List Message} (closed : ∀ o, marks.lookup o ≠ some .opened)
    (run : visitAll messages rest marks = .error fault) : ClosesCycle messages fault := by
  induction rest generalizing marks with
  | nil => cases run
  | cons m rest ih =>
    unfold visitAll at run
    have searches : Searches messages (visitMessage messages messages.length) := searches_visitMessage _
    split at run
    · exact ih closed run
    · rcases bind_eq_error.mp run with failed | ⟨next, visited, more⟩
      · exact searches.fails (fun o opened => absurd opened (closed o)) failed
      · exact ih (fun o opened => closed o (searches.closes visited o opened)) more

theorem rejectInlineCycles_error (run : rejectInlineCycles messages = .error fault) :
    ClosesCycle messages fault := by
  rcases bind_eq_error.mp run with failed | ⟨next, visited, more⟩
  · refine visitAll_error (fun o opened => ?_) failed
    cases opened
  · cases more

theorem rejectInlineCycles_ok (acyclic : ∀ name, ¬TransGen (Inlines messages) name name) :
    rejectInlineCycles messages = .ok () := by
  cases run : rejectInlineCycles messages with
  | ok u => rfl
  | error fault =>
    obtain ⟨m, member, field, here, name, inlined, -, leads⟩ := rejectInlineCycles_error run
    have step : Inlines messages m.name name := ⟨m, member, rfl, field, here, inlined⟩
    exact absurd (TransGen.tail' leads step) (acyclic name)

theorem acyclic_of_rank (rank : String → Nat)
    (lower : ∀ m ∈ messages, ∀ field ∈ m.fields, ∀ inner ∈ field.inlined?.toList,
      rank inner < rank m.name) : ∀ name, ¬TransGen (Inlines messages) name name := by
  have step : ∀ outer inner, Inlines messages outer inner → rank inner < rank outer := by
    intro outer inner inlines
    obtain ⟨m, member, rfl, field, within, inlined⟩ := inlines
    exact lower m member field within inner (Option.mem_toList.mpr inlined)
  have chain : ∀ outer inner, TransGen (Inlines messages) outer inner → rank inner < rank outer := by
    intro outer inner cycle
    induction cycle with
    | single one => exact step _ _ one
    | tail _ one ih => exact Nat.lt_trans (step _ _ one) ih
  exact fun name cycle => Nat.lt_irrefl _ (chain name name cycle)

end BinaryCodec.Definition
