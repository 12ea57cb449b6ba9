import BinaryCodec.Proofs.Buffer.Program

namespace BinaryCodec

def Error.IsDenial : Error → Prop
  | .readOnly _ | .closed _ => True
  | _ => False

/-- Whether the call changes what a store holds or where it is written next. -/
def StoreCall.mutates : StoreCall → Bool
  | write _ | seekWrite _ | erase => true
  | _ => false

/-- Whether the call needs a file that is open. -/
def StoreCall.touches : StoreCall → Bool
  | read _ | write _ | seekRead _ | seekWrite _ | size | contents | erase => true
  | _ => false

namespace Store

def stored : Store → Content
  | .memory m => m.content
  | .slice s => s.content
  | .reader r => r.content
  | .seekable s => s.content
  | .writer w => w.received
  | .file f => f.content

def ReadOnly : Store → Prop
  | .slice _ => True
  | .file f => f.readOnly = true
  | _ => False

def Locked (s : Store) : Prop := s.ReadOnly ∨ ∃ f, s = .file f ∧ f.isOpen = false

inductive Kept : Store → Store → Prop
  | slice (content : Content) (place next : Nat) :
      Kept (.slice ⟨content, place⟩) (.slice ⟨content, next⟩)
  | file (f : File) (next : Nat) (isOpen : Bool)
      (stays : f.isOpen = false → next = f.readPosition ∧ isOpen = false) :
      Kept (.file f) (.file { f with readPosition := next, isOpen })

variable {s t u : Store}

theorem Locked.kept (locked : s.Locked) : Kept s s := by
  cases s with
  | slice s => exact .slice s.content s.readPosition s.readPosition
  | file f => exact .file f f.readPosition f.isOpen fun closed => ⟨rfl, closed⟩
  | memory | reader | seekable | writer => simp [Locked, ReadOnly] at locked

theorem Kept.trans (first : Kept s t) (second : Kept t u) : Kept s u := by
  cases first with
  | slice content place next =>
    cases second
    exact .slice ..
  | file f next isOpen stays =>
    cases second with
    | file _ last ends staysOn =>
      refine .file f last ends fun closed => ?_
      obtain ⟨rfl, rfl⟩ := stays closed
      exact staysOn rfl

theorem Kept.stored (kept : Kept s t) : t.stored = s.stored := by
  cases kept <;> rfl

theorem Kept.writePosition (kept : Kept s t) : t.writePosition = s.writePosition := by
  cases kept <;> rfl

theorem Kept.kind (kept : Kept s t) : t.kind = s.kind := by
  cases kept <;> rfl

theorem Kept.readOnly (kept : Kept s t) (locked : s.ReadOnly) : t.ReadOnly := by
  cases kept <;> exact locked

theorem Kept.closed {f : File} (kept : Kept (.file f) t) (closed : f.isOpen = false) : t = .file f := by
  cases kept with
  | file _ next isOpen stays =>
    obtain ⟨rfl, rfl⟩ := stays closed
    rw [← closed]

theorem Kept.file_readOnly {f : File} (kept : Kept (.file f) t) :
    ∃ g, t = .file g ∧ g.readOnly = f.readOnly := by
  cases kept
  exact ⟨_, rfl, rfl⟩

theorem Kept.locked (kept : Kept s t) (locked : s.Locked) : t.Locked := by
  rcases locked with locked | ⟨f, rfl, closed⟩
  · exact .inl (kept.readOnly locked)
  · exact .inr ⟨f, kept.closed closed, closed⟩

def denial (f : File) (call : StoreCall) : Error :=
  if f.readOnly && call.mutates then .readOnly .file else .closed .file

theorem isDenial_denial (f : File) (call : StoreCall) : (denial f call).IsDenial := by
  unfold denial
  split <;> exact True.intro

theorem answer_of_readOnly (locked : s.ReadOnly) {call : StoreCall} (mutates : call.mutates) :
    call.answer s = (.error (.readOnly s.kind), s) := by
  cases s with
  | slice s => cases call <;> first | rfl | cases mutates
  | file f =>
    obtain ⟨content, place, next, readOnly, isOpen⟩ := f
    cases locked
    cases call <;> first | rfl | cases mutates
  | memory | reader | seekable | writer => exact locked.elim

theorem answer_of_closed {f : File} (closed : f.isOpen = false) {call : StoreCall} (touches : call.touches) :
    call.answer (.file f) = (.error (denial f call), .file f) := by
  obtain ⟨content, place, next, readOnly, isOpen⟩ := f
  cases closed
  cases readOnly <;> cases call <;> first | rfl | cases touches

theorem kept_answer_slice (s : Slice) (call : StoreCall) :
    Kept (.slice s) (call.answer (.slice s)).2 := by
  obtain ⟨content, place⟩ := s
  cases call with
  | seekRead position =>
    simp only [StoreCall.answer, seekRead, Slice.seekRead]
    cases checkPosition position content.size with
    | ok next => exact .slice ..
    | error e => exact .slice ..
  | _ => exact .slice ..

theorem kept_answer_open {f : File} (isOpen : f.isOpen = true) {call : StoreCall}
    (keeps : call.mutates = false) : Kept (.file f) (call.answer (.file f)).2 := by
  obtain ⟨content, place, next, readOnly, isOpen⟩ := f
  cases isOpen
  have stays (after : Nat) (still : Bool) :
      Kept (.file ⟨content, place, next, readOnly, true⟩)
        (.file ⟨content, after, next, readOnly, still⟩) :=
    .file _ after still nofun
  cases call with
  | seekRead position =>
    have moves : File.seekRead position ⟨content, place, next, readOnly, true⟩ =
        (checkPosition position content.size).map (⟨content, ·, next, readOnly, true⟩) := rfl
    simp only [StoreCall.answer, seekRead, moves]
    cases checkPosition position content.size <;> exact stays ..
  | flush => cases readOnly <;> exact stays ..
  | write | seekWrite | erase => cases keeps
  | _ => exact stays ..

theorem answer_closed {f : File} (closed : f.isOpen = false) (call : StoreCall) :
    (call.answer (.file f)).2 = .file f := by
  obtain ⟨content, place, next, readOnly, isOpen⟩ := f
  cases closed
  cases readOnly <;> cases call <;> rfl

theorem kept_answer (locked : s.Locked) (call : StoreCall) : Kept s (call.answer s).2 := by
  have same := locked.kept
  rcases locked with readOnly | ⟨f, rfl, closed⟩
  · cases mutates : call.mutates with
    | true =>
      rw [answer_of_readOnly readOnly mutates]
      exact same
    | false =>
      cases s with
      | slice s => exact kept_answer_slice s call
      | file f =>
        cases isOpen : f.isOpen with
        | true => exact kept_answer_open isOpen mutates
        | false =>
          rw [answer_closed isOpen]
          exact same
      | memory | reader | seekable | writer => exact readOnly.elim
  · rw [answer_closed closed]
    exact same

theorem file_answer (f : File) (call : StoreCall) :
    ∃ g, (call.answer (.file f)).2 = .file g ∧ g.readOnly = f.readOnly := by
  cases isOpen : f.isOpen with
  | false => exact ⟨f, answer_closed isOpen call, rfl⟩
  | true =>
    cases mutates : call.mutates with
    | false => exact (kept_answer_open isOpen mutates).file_readOnly
    | true =>
      cases readOnly : f.readOnly with
      | true =>
        have locked : ReadOnly (.file f) := readOnly
        rw [answer_of_readOnly locked mutates]
        exact ⟨f, rfl, readOnly⟩
      | false =>
        obtain ⟨content, place, next, _, _⟩ := f
        cases isOpen
        cases readOnly
        cases call with
        | write | erase => exact ⟨_, rfl, rfl⟩
        | seekWrite position =>
          have moves : File.seekWrite position ⟨content, place, next, false, true⟩ =
              (checkPosition position content.size).map (⟨content, place, ·, false, true⟩) := rfl
          simp only [StoreCall.answer, seekWrite, moves]
          cases checkPosition position content.size <;> exact ⟨_, rfl, rfl⟩
        | _ => cases mutates

end Store

namespace Program

variable {α : Type} {p : Program α} {b : Buffer}

theorem kept_run (locked : b.store.Locked) : Store.Kept b.store (settled (p.run b)).2.store := by
  induction p generalizing b with
  | done outcome => cases outcome <;> exact locked.kept
  | call c next ih =>
    have kept := Store.kept_answer locked c
    exact kept.trans (ih _ (b := ⟨_, b.bits⟩) (kept.locked locked))
  | unread next ih => exact ih _ locked
  | pending next ih => exact ih _ locked
  | keep bits next ih => exact ih (b := ⟨b.store, bits⟩) locked

theorem exists_of_mem_events (locked : b.store.Locked) {event : StoreEvent} (made : event ∈ p.events b) :
    ∃ s, Store.Kept b.store s ∧ event.answer = (event.call.answer s).1 := by
  induction p generalizing b with
  | done outcome => cases made
  | call c next ih =>
    rcases List.mem_cons.mp made with rfl | later
    · exact ⟨b.store, locked.kept, rfl⟩
    · have kept := Store.kept_answer locked c
      obtain ⟨s, reached, answered⟩ := ih _ (b := ⟨_, b.bits⟩) (kept.locked locked) later
      exact ⟨s, kept.trans reached, answered⟩
  | unread next ih => exact ih _ locked made
  | pending next ih => exact ih _ locked made
  | keep bits next ih => exact ih (b := ⟨b.store, bits⟩) locked made

theorem file_run {f : File} (file : b.store = .file f) :
    ∃ g, (settled (p.run b)).2.store = .file g ∧ g.readOnly = f.readOnly := by
  induction p generalizing b f with
  | done outcome => cases outcome <;> exact ⟨f, file, rfl⟩
  | call c next ih =>
    obtain ⟨store, bits⟩ := b
    obtain rfl : store = .file f := file
    obtain ⟨g, answered, same⟩ := Store.file_answer f c
    obtain ⟨last, ran, again⟩ := ih _ (b := ⟨_, bits⟩) answered
    exact ⟨last, ran, again.trans same⟩
  | unread next ih => exact ih _ file
  | pending next ih => exact ih _ file
  | keep bits next ih => exact ih (b := ⟨b.store, bits⟩) file

end Program

end BinaryCodec
