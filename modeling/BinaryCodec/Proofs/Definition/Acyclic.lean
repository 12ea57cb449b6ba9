import BinaryCodec.Proofs.Definition.Inlining

namespace BinaryCodec.Definition

open Relation

abbrev Grounded (messages : List Message) (name : String) : Prop :=
  Acc (Function.swap (Inlines messages)) name

def unmet (messages : List Message) (marks : Marks) : Nat :=
  messages.countP fun m => (marks.lookup m.name).isNone

def DoneGrounded (messages : List Message) (marks : Marks) : Prop :=
  ∀ name, marks.lookup name = some .done → Grounded messages name

/-- What a search that passes leaves: marks of which those that are done are grounded, where every
message that was entered still is. -/
structure Passes (messages : List Message) (marks after : Marks) : Prop where
  done : DoneGrounded messages after
  met : ∀ name, after.lookup name = none → marks.lookup name = none

/-- A search that passes grounds the message it was asked for, as long as `budget` covers the messages
that it may still have to enter. -/
def Grounds (messages : List Message) (visit : String → Marks → Except Fault Marks)
    (budget : Nat) : Prop :=
  ∀ {name marks after}, DoneGrounded messages marks → unmet messages marks ≤ budget →
    marks.lookup name = none → visit name marks = .ok after →
      Grounded messages name ∧ Passes messages marks after

section

variable {messages : List Message} {visit : String → Marks → Except Fault Marks}
  {marks after : Marks} {name : String}

theorem not_transGen_of_grounded (grounded : Grounded messages name) :
    ¬TransGen (Inlines messages) name name := by
  induction grounded with
  | intro name _ ih =>
    intro cycle
    obtain ⟨inner, step, back⟩ := TransGen.head'_iff.mp cycle
    exact ih inner step (TransGen.tail' back step)

theorem grounded_of_undeclared (undeclared : ∀ m ∈ messages, m.name ≠ name) :
    Grounded messages name := by
  constructor
  rintro inner ⟨m, member, named, -⟩
  exact absurd named (undeclared m member)

theorem grounded_of_fields (distinct : (messages.map Message.name).Nodup) {m : Message}
    (member : m ∈ messages)
    (inside : ∀ field ∈ m.fields, ∀ inner, field.inlined? = some inner → Grounded messages inner) :
    Grounded messages m.name := by
  constructor
  rintro inner ⟨other, declared, named, field, within, inlined⟩
  obtain rfl := List.inj_on_of_nodup_map distinct declared member named
  exact inside field within inner inlined

theorem Passes.trans {next : Marks} (first : Passes messages marks next)
    (second : Passes messages next after) : Passes messages marks after :=
  ⟨second.done, fun name unmarked => first.met name (second.met name unmarked)⟩

theorem Passes.unmet_le (passes : Passes messages marks after) :
    unmet messages after ≤ unmet messages marks := by
  apply List.countP_mono_left
  intro m member unmarked
  rw [Option.isNone_iff_eq_none] at unmarked ⊢
  exact passes.met m.name unmarked

theorem met_cons {mark : Mark} {o : String}
    (unmarked : List.lookup o ((name, mark) :: marks) = none) : marks.lookup o = none := by
  by_cases this : o = name
  · rw [this, List.lookup_cons, beq_self_eq_true] at unmarked
    cases unmarked
  · rwa [lookup_cons_of_ne this] at unmarked

theorem unmet_cons_lt {m : Message} (member : m ∈ messages) (unmarked : marks.lookup m.name = none)
    (mark : Mark) : unmet messages ((m.name, mark) :: marks) < unmet messages marks := by
  have entered : List.lookup m.name ((m.name, mark) :: marks) = some mark := by
    rw [List.lookup_cons, beq_self_eq_true]
  have fewer : ∀ part : List Message, unmet part ((m.name, mark) :: marks) ≤ unmet part marks := by
    intro part
    apply List.countP_mono_left
    intro other _ unmarked
    rw [Option.isNone_iff_eq_none] at unmarked ⊢
    exact met_cons unmarked
  obtain ⟨front, back, rfl⟩ := List.append_of_mem member
  have before := fewer front
  have behind := fewer back
  unfold unmet at before behind ⊢
  rw [List.countP_append, List.countP_append, List.countP_cons_of_neg (by simp [entered]),
    List.countP_cons_of_pos (by simp [unmarked])]
  omega

theorem visitFields_grounds {budget : Nat} (grounds : Grounds messages visit budget)
    {fields : List MessageField} (done : DoneGrounded messages marks)
    (enough : unmet messages marks ≤ budget) (run : visitFields visit fields marks = .ok after) :
    (∀ field ∈ fields, ∀ inner, field.inlined? = some inner → Grounded messages inner) ∧
      Passes messages marks after := by
  induction fields generalizing marks with
  | nil =>
    cases run
    exact ⟨(fun field none => nomatch none), done, fun name unmarked => unmarked⟩
  | cons field rest ih =>
    rw [List.forall_mem_cons]
    unfold visitFields at run
    split at run
    · next none =>
      obtain ⟨later, passes⟩ := ih done enough run
      exact ⟨⟨fun inner inlined => by simp [none] at inlined, later⟩, passes⟩
    · next target inlines =>
      have only : ∀ inner, field.inlined? = some inner → inner = target := by
        intro inner inlined
        exact Option.some.inj (inlined.symm.trans inlines)
      split at run
      · cases run
      · next marked =>
        obtain ⟨later, passes⟩ := ih done enough run
        refine ⟨⟨fun inner inlined => ?_, later⟩, passes⟩
        rw [only inner inlined]
        exact done target marked
      · next unmarked =>
        obtain ⟨next, visited, more⟩ := bind_eq_ok.mp run
        obtain ⟨here, first⟩ := grounds done enough unmarked visited
        obtain ⟨later, passes⟩ := ih first.done (Nat.le_trans first.unmet_le enough) more
        refine ⟨⟨fun inner inlined => ?_, later⟩, first.trans passes⟩
        rw [only inner inlined]
        exact here

theorem doneGrounded_cons {mark : Mark} (done : DoneGrounded messages marks)
    (grounded : mark = .done → Grounded messages name) :
    DoneGrounded messages ((name, mark) :: marks) := by
  intro o marked
  by_cases this : o = name
  · rw [this, List.lookup_cons, beq_self_eq_true] at marked
    rw [this]
    exact grounded (Option.some.inj marked)
  · rw [lookup_cons_of_ne this] at marked
    exact done o marked

theorem visitMessage_grounds (distinct : (messages.map Message.name).Nodup) (fuel : Nat) :
    Grounds messages (visitMessage messages fuel) fuel := by
  induction fuel with
  | zero =>
    intro name marks after done enough unmarked run
    cases run
    refine ⟨grounded_of_undeclared fun m member named => ?_, done, fun o unmarked => unmarked⟩
    -- A message of this name would be one that the search may still have to enter.
    have spare := unmet_cons_lt member (named ▸ unmarked) .opened
    omega
  | succ fuel ih =>
    intro name marks after done enough unmarked run
    unfold visitMessage at run
    split at run
    · next absent =>
      cases run
      refine ⟨grounded_of_undeclared fun m member named => ?_, done, fun o unmarked => unmarked⟩
      simpa [named] using List.find?_eq_none.mp absent m member
    · next m found =>
      have member := List.mem_of_find?_eq_some found
      obtain rfl : m.name = name := by simpa using List.find?_some found
      obtain ⟨next, visited, same⟩ := bind_eq_ok.mp run
      cases same
      have entered : DoneGrounded messages ((m.name, .opened) :: marks) :=
        doneGrounded_cons done fun other => nomatch other
      have spare := unmet_cons_lt member unmarked .opened
      obtain ⟨inside, passes⟩ := visitFields_grounds ih entered (by omega) visited
      have here := grounded_of_fields distinct member inside
      refine ⟨here, doneGrounded_cons passes.done fun _ => here, fun o unmarked => ?_⟩
      exact met_cons (passes.met o (met_cons unmarked))

theorem visitAll_grounds (distinct : (messages.map Message.name).Nodup) {rest : List Message}
    (closed : ∀ o, marks.lookup o ≠ some .opened) (done : DoneGrounded messages marks)
    (run : visitAll messages rest marks = .ok after) :
    ∀ m ∈ rest, Grounded messages m.name := by
  induction rest generalizing marks with
  | nil => exact fun m none => nomatch none
  | cons m rest ih =>
    rw [List.forall_mem_cons]
    unfold visitAll at run
    split at run
    · next mark marked =>
      refine ⟨?_, ih closed done run⟩
      cases mark with
      | opened => exact absurd marked (closed m.name)
      | done => exact done m.name marked
    · next unmarked =>
      obtain ⟨next, visited, more⟩ := bind_eq_ok.mp run
      obtain ⟨here, passes⟩ :=
        visitMessage_grounds distinct messages.length done List.countP_le_length unmarked visited
      have searches : Searches messages (visitMessage messages messages.length) := searches_visitMessage _
      refine ⟨here, ih (fun o opened => closed o ?_) passes.done more⟩
      exact searches.closes visited o opened

theorem acyclic_of_rejectInlineCycles (distinct : (messages.map Message.name).Nodup)
    (run : rejectInlineCycles messages = .ok ()) :
    ∀ name, ¬TransGen (Inlines messages) name name := by
  obtain ⟨after, visited, -⟩ := bind_eq_ok.mp run
  have all := visitAll_grounds distinct (by simp) (fun o marked => by cases marked) visited
  intro name
  apply not_transGen_of_grounded
  by_cases declared : ∃ m ∈ messages, m.name = name
  · obtain ⟨m, member, rfl⟩ := declared
    exact all m member
  · push Not at declared
    exact grounded_of_undeclared declared

end

/-- Messages of distinct names pass exactly when none lies inside itself, and where they are refused
the field that is named closes a cycle. -/
theorem rejectInlineCycles_exact {messages : List Message}
    (distinct : (messages.map Message.name).Nodup) :
    (rejectInlineCycles messages = .ok () ↔ ∀ name, ¬TransGen (Inlines messages) name name) ∧
      ∀ fault, rejectInlineCycles messages = .error fault → ClosesCycle messages fault :=
  ⟨⟨acyclic_of_rejectInlineCycles distinct, rejectInlineCycles_ok⟩,
    fun _ run => rejectInlineCycles_error run⟩

/-- Two messages that lie inside one another, where the second also lists messages of its own kind. -/
def entwined : List Message :=
  [⟨"A", [⟨"b", .message "B", false, ⟨1, 12⟩⟩], ⟨1, 8⟩⟩,
    ⟨"B", [⟨"s", .builtin .string, false, ⟨2, 12⟩⟩, ⟨"children", .message "B", true, ⟨2, 21⟩⟩,
      ⟨"a", .message "A", false, ⟨2, 34⟩⟩], ⟨2, 8⟩⟩]

theorem rejectInlineCycles_entwined :
    (entwined.map Message.name).Nodup ∧
      rejectInlineCycles entwined = .error ⟨⟨2, 34⟩, .recursiveType "A" "a"⟩ ∧
      (¬∀ name, ¬TransGen (Inlines entwined) name name) ∧
      ClosesCycle entwined ⟨⟨2, 34⟩, .recursiveType "A" "a"⟩ := by
  have distinct : (entwined.map Message.name).Nodup := by decide
  have run : rejectInlineCycles entwined = .error ⟨⟨2, 34⟩, .recursiveType "A" "a"⟩ := by decide +kernel
  obtain ⟨passes, closes⟩ := rejectInlineCycles_exact distinct
  refine ⟨distinct, run, fun acyclic => ?_, closes _ run⟩
  rw [passes.mpr acyclic] at run
  cases run

end BinaryCodec.Definition
