import BinaryCodec.Proofs.Schema.Restating

namespace BinaryCodec.Schema

open Buffer

variable {α β : Type} {registry : Registry}

theorem unread_advance {b : Buffer} {n : Nat} :
    (b.advance n).store.unread = b.store.unread - n := by
  rw [Store.unread_eq, Store.unread_eq]
  exact (congrArg List.length upcoming_advance).trans (List.length_drop ..)

structure Call where
  name : String
  unread : Nat
  deriving DecidableEq, Repr

structure Observed where
  buffer : Buffer
  entries : List (List Call)

abbrev ObservedM := EStateM Error Observed

def quietly (m : BufferM α) : ObservedM α := fun o =>
  match m o.buffer with
  | .ok v b => .ok v ⟨b, o.entries⟩
  | .error e b => .error e ⟨b, o.entries⟩

def enter (name : String) (stack : List Call) : ObservedM (List Call) := fun o =>
  .ok (⟨name, o.buffer.store.unread⟩ :: stack)
    ⟨o.buffer, (⟨name, o.buffer.store.unread⟩ :: stack) :: o.entries⟩

def observeItems (read : ObservedM Value) : (count : Nat) → ObservedM (List Value)
  | 0 => return []
  | count + 1 => do
    let v ← read
    return v :: (← observeItems read count)

def observeMove (registry : Registry) (message : String → ObservedM Value) : Move → ObservedM Value
  | .call method => quietly method.read
  | .message name => message name
  | .choice name => quietly (Message.readChoice (Message.choiceCount registry name))

def observeStep (registry : Registry) (message : String → ObservedM Value) (step : Step) :
    ObservedM Value := do
  if step.repeated then
    let count ← quietly (readLength (step.item.minSize registry))
    return .list (← observeItems (observeMove registry message step.read) count)
  else observeMove registry message step.read

def observeSteps (registry : Registry) (message : String → ObservedM Value) :
    List Step → ObservedM (List Value)
  | [] => return []
  | step :: rest => do
    let v ← observeStep registry message step
    return v :: (← observeSteps registry message rest)

/-- Reads as `decodeNamed` does, while the calls of `stack` are open. A message is entered even where no
fuel is left to read it. -/
def observeNamed (registry : Registry) :
    (fuel : Nat) → (stack : List Call) → (name : String) → ObservedM Value
  | 0, stack, name => do
    let _ ← enter name stack
    throw (.endOfData 1 0)
  | fuel + 1, stack, name =>
    match registry.shape? name with
    | some (.message steps) => do
      let inner ← enter name stack
      return .record (← observeSteps registry (observeNamed registry fuel inner) steps)
    | _ => quietly (decodeNamed registry (fuel + 1) name)

/-- The calls open after each entry, of a message that is read with no call open. -/
def openCalls (registry : Registry) (fuel : Nat) (name : String) (b : Buffer) : List (List Call) :=
  match observeNamed registry fuel [] name ⟨b, []⟩ with
  | .ok _ o => o.entries
  | .error _ o => o.entries

theorem observed_bind_apply (m : ObservedM α) (f : α → ObservedM β) (o : Observed) :
    (m >>= f) o = match m o with
      | .ok v o => f v o
      | .error e o => .error e o := by
  change EStateM.bind m f o = _
  unfold EStateM.bind
  cases m o <;> rfl

theorem quietly_eq_ok {m : BufferM α} {o after : Observed} {v : α} :
    quietly m o = .ok v after ↔ ∃ b, m o.buffer = .ok v b ∧ after = ⟨b, o.entries⟩ := by
  unfold quietly
  cases m o.buffer with
  | ok w b =>
    rw [EStateM.Result.ok.injEq]
    constructor
    · rintro ⟨rfl, rfl⟩
      exact ⟨b, rfl, rfl⟩
    · rintro ⟨_, ⟨⟩, rfl⟩
      exact ⟨rfl, rfl⟩
  | error e b => simp

/-- What is left of a result without the calls. -/
def forget : EStateM.Result Error Observed α → EStateM.Result Error Buffer α
  | .ok v o => .ok v o.buffer
  | .error e o => .error e o.buffer

def Observes (m : ObservedM α) (plain : BufferM α) : Prop := ∀ o, forget (m o) = plain o.buffer

section observes

variable {m : ObservedM α} {plain : BufferM α}

theorem Observes.pure (v : α) : Observes (pure v) (pure v) := fun _ => rfl

theorem Observes.quietly (m : BufferM α) : Observes (quietly m) m := by
  intro o
  unfold Schema.quietly
  cases m o.buffer <;> rfl

theorem Observes.bind {f : α → ObservedM β} {next : α → BufferM β} (first : Observes m plain)
    (goes : ∀ v, Observes (f v) (next v)) : Observes (m >>= f) (plain >>= next) := by
  intro o
  rw [observed_bind_apply, bind_apply, ← first o]
  cases m o with
  | ok v o => exact goes v o
  | error e o => rfl

theorem Observes.enter {f : List Call → ObservedM α} (name : String) (stack : List Call)
    (goes : ∀ inner, Observes (f inner) plain) : Observes (Schema.enter name stack >>= f) plain := by
  intro o
  exact goes _ ⟨o.buffer, _⟩

theorem Observes.cons {rest : ObservedM (List α)} {others : BufferM (List α)}
    (first : Observes m plain) (more : Observes rest others) :
    Observes (m >>= fun v => rest >>= fun vs => Pure.pure (v :: vs))
      (plain >>= fun v => others >>= fun vs => Pure.pure (v :: vs)) :=
  first.bind fun v => more.bind fun vs => .pure (v :: vs)

theorem observes_items {m : ObservedM Value} {plain : BufferM Value} (reads : Observes m plain)
    (count : Nat) : Observes (observeItems m count) (Message.readItems plain count) := by
  induction count with
  | zero => exact .pure []
  | succ count ih => exact reads.cons ih

theorem observes_steps {message : String → ObservedM Value} {plain : String → BufferM Value}
    (named : ∀ name, Observes (message name) (plain name)) (steps : List Step) :
    Observes (observeSteps registry message steps) (Message.decodeSteps registry plain steps) := by
  induction steps with
  | nil => exact .pure []
  | cons step rest ih =>
    have move : Observes (observeMove registry message step.read)
        (Message.decodeMove registry plain step.read) := by
      cases step.read with
      | call method => exact .quietly method.read
      | message name => exact named name
      | choice name => exact .quietly _
    refine Observes.cons ?_ ih
    unfold observeStep Message.decodeStep
    split
    · refine (Observes.quietly _).bind fun count => ?_
      exact (observes_items move count).bind fun items => .pure (Value.list items)
    · exact move

theorem observes_named (fuel : Nat) (stack : List Call) (name : String) :
    Observes (observeNamed registry fuel stack name) (decodeNamed registry fuel name) := by
  induction fuel generalizing stack name with
  | zero => exact .enter name stack fun _ _ => rfl
  | succ fuel ih =>
    unfold observeNamed
    split
    · next steps declared =>
      rw [decodeNamed_message declared]
      refine .enter name stack fun inner => ?_
      change Observes _ (Message.decodeSteps registry (decodeNamed registry fuel) steps >>= fun vs =>
        Pure.pure (Value.record vs))
      exact (observes_steps (fun other => ih inner other) steps).bind fun vs =>
        .pure (Value.record vs)
    · exact .quietly _

end observes

structure Falling (weight : Call → Nat) (bound : Nat) (stack : List Call) : Prop where
  falls : stack.Pairwise fun inner outer => weight inner < weight outer
  light : ∀ call ∈ stack, weight call < bound

/-- In a registry of compiled messages, a call that a message makes weighs less than the call of the
message: at once for a field that is no array, and after a byte for the items of an array. -/
structure Descends (registry : Registry) (weight : Call → Nat) : Prop where
  shapes (name : String) (shape : Shape) (declared : registry.shape? name = some shape) :
    (∃ steps, shape = .message steps) ∨ ∃ names, shape = .choices names
  falls {outer inner : String} {steps : List Step} {step : Step} {left unread : Nat}
    (declared : registry.shape? outer = some (.message steps)) (member : step ∈ steps)
    (reads : step.read = .message inner) (within : left ≤ unread)
    (consumed : step.repeated = true → left < unread) : weight ⟨inner, left⟩ < weight ⟨outer, unread⟩

section falling

variable {weight : Call → Nat} {bound most more : Nat} {stack : List Call}

theorem Falling.single {call : Call} (light : weight call < bound) : Falling weight bound [call] :=
  ⟨List.pairwise_singleton .., by simpa using light⟩

theorem Falling.cons {outer inner : Call} (falling : Falling weight bound (outer :: stack))
    (less : weight inner < weight outer) : Falling weight bound (inner :: outer :: stack) := by
  constructor
  · refine List.pairwise_cons.mpr ⟨?_, falling.falls⟩
    intro other member
    rcases List.mem_cons.mp member with rfl | below
    · exact less
    · exact Nat.lt_trans less (List.rel_of_pairwise_cons falling.falls below)
  · have light := falling.light outer (List.mem_cons_self ..)
    exact List.forall_mem_cons.mpr ⟨Nat.lt_trans less light, falling.light⟩

theorem Falling.length_le (falling : Falling weight bound stack) : stack.length ≤ bound := by
  have distinct : (stack.map weight).Nodup := by
    refine List.pairwise_map.mpr (List.Pairwise.imp ?_ falling.falls)
    intro inner outer less
    exact Nat.ne_of_lt less
  have inside : stack.map weight ⊆ List.range bound := by
    intro n member
    obtain ⟨call, among, rfl⟩ := List.mem_map.mp member
    exact List.mem_range.mpr (falling.light call among)
  have count := List.Nodup.length_le_of_subset distinct inside
  rwa [List.length_map, List.length_range] at count

structure Observed.Sound (weight : Call → Nat) (bound most : Nat) (o : Observed) : Prop where
  left : o.buffer.store.unread ≤ most
  falling : ∀ stack ∈ o.entries, Falling weight bound stack

structure Agrees (weight : Call → Nat) (bound most : Nat) (m other : ObservedM α) : Prop where
  same : ∀ o, o.Sound weight bound most → other o = m o
  ok : ∀ o v after, o.Sound weight bound most → m o = .ok v after → after.Sound weight bound most
  error : ∀ o e after, o.Sound weight bound most → m o = .error e after →
    ∀ stack ∈ after.entries, Falling weight bound stack

namespace Agrees

variable {m other : ObservedM α}

theorem pure (v : α) : Agrees weight bound most (pure v) (pure v) where
  same _ _ := rfl
  ok _ _ _ sound run := by cases run; exact sound
  error _ _ _ _ run := by cases run

theorem throw (e : Error) : Agrees weight bound most (throw e : ObservedM α) (throw e) where
  same _ _ := rfl
  ok _ _ _ _ run := by cases run
  error _ _ _ sound run := by cases run; exact sound.falling

theorem bind_of_left {f next : α → ObservedM β} (first : Agrees weight bound most m other)
    (goes : ∀ o v after, o.Sound weight bound most → m o = .ok v after →
      ∃ left ≤ most, after.Sound weight bound left ∧ Agrees weight bound left (f v) (next v)) :
    Agrees weight bound most (m >>= f) (other >>= next) := by
  constructor
  · intro o sound
    rw [observed_bind_apply, observed_bind_apply, first.same o sound]
    cases ran : m o with
    | ok v middle =>
      obtain ⟨left, -, middling, agrees⟩ := goes o v middle sound ran
      exact agrees.same middle middling
    | error e middle => rfl
  · intro o w after sound run
    rw [observed_bind_apply] at run
    cases ran : m o with
    | ok v middle =>
      rw [ran] at run
      obtain ⟨left, fewer, middling, agrees⟩ := goes o v middle sound ran
      obtain ⟨least, falling⟩ := agrees.ok middle w after middling run
      exact ⟨Nat.le_trans least fewer, falling⟩
    | error e middle => rw [ran] at run; cases run
  · intro o e after sound run
    rw [observed_bind_apply] at run
    cases ran : m o with
    | ok v middle =>
      rw [ran] at run
      obtain ⟨left, -, middling, agrees⟩ := goes o v middle sound ran
      exact agrees.error middle e after middling run
    | error fault middle =>
      rw [ran] at run
      cases run
      exact first.error o e after sound ran

theorem bind {f next : α → ObservedM β} (first : Agrees weight bound most m other)
    (goes : ∀ v, Agrees weight bound most (f v) (next v)) :
    Agrees weight bound most (m >>= f) (other >>= next) :=
  first.bind_of_left fun o v after sound ran =>
    ⟨most, Nat.le_refl _, first.ok o v after sound ran, goes v⟩

theorem cons {rest others : ObservedM (List α)} (first : Agrees weight bound most m other)
    (following : Agrees weight bound most rest others) :
    Agrees weight bound most (m >>= fun v => rest >>= fun vs => Pure.pure (v :: vs))
      (other >>= fun v => others >>= fun vs => Pure.pure (v :: vs)) :=
  first.bind fun v => following.bind fun vs => .pure (v :: vs)

theorem quietly (m : BufferM α) [forward : Forward m] :
    Agrees weight bound most (quietly m) (quietly m) := by
  constructor
  · exact fun _ _ => rfl
  · intro o v after sound run
    obtain ⟨b, ran, rfl⟩ := quietly_eq_ok.mp run
    obtain ⟨k, -, rfl⟩ := forward.advance_of_run o.buffer b v ran
    have least := sound.left
    refine ⟨?_, sound.falling⟩
    change (o.buffer.advance k).store.unread ≤ most
    rw [unread_advance]
    omega
  · intro o e after sound run
    unfold Schema.quietly at run
    cases ran : m o.buffer with
    | ok w b => rw [ran] at run; cases run
    | error other b =>
      rw [ran] at run
      cases run
      exact sound.falling

theorem length {f next : Nat → ObservedM β} {itemSize : Nat}
    (goes : ∀ count, ∀ left < most, Agrees weight bound left (f count) (next count)) :
    Agrees weight bound most (Schema.quietly (readLength itemSize) >>= f)
      (Schema.quietly (readLength itemSize) >>= next) := by
  refine (quietly (readLength itemSize)).bind_of_left fun o count after sound run => ?_
  obtain ⟨b, ran, rfl⟩ := quietly_eq_ok.mp run
  obtain ⟨k, positive, within, rfl⟩ := consumes_readLength itemSize o.buffer count b ran
  have least := sound.left
  change k ≤ o.buffer.store.upcoming.length at within
  rw [← Store.unread_eq] at within
  refine ⟨o.buffer.store.unread - k, by omega, ⟨?_, sound.falling⟩, goes count _ (by omega)⟩
  change (o.buffer.advance k).store.unread ≤ _
  rw [unread_advance]

theorem enter {f next : List Call → ObservedM α} {name : String}
    (falling : ∀ left ≤ most, Falling weight bound (⟨name, left⟩ :: stack))
    (goes : ∀ left ≤ most, Agrees weight bound left (f (⟨name, left⟩ :: stack))
      (next (⟨name, left⟩ :: stack))) :
    Agrees weight bound most (Schema.enter name stack >>= f) (Schema.enter name stack >>= next) := by
  have entered : Agrees weight bound most (Schema.enter name stack) (Schema.enter name stack) := by
    constructor
    · exact fun _ _ => rfl
    · intro o inner after sound run
      cases run
      exact ⟨sound.left, List.forall_mem_cons.mpr ⟨falling _ sound.left, sound.falling⟩⟩
    · intro o e after sound run
      cases run
  refine entered.bind_of_left fun o inner after sound run => ?_
  have falls := (entered.ok o inner after sound run).falling
  cases run
  exact ⟨_, sound.left, ⟨Nat.le_refl _, falls⟩, goes _ sound.left⟩

theorem items {m other : ObservedM Value} (reads : Agrees weight bound most m other) (count : Nat) :
    Agrees weight bound most (observeItems m count) (observeItems other count) := by
  induction count with
  | zero => exact .pure []
  | succ count ih => exact reads.cons ih

theorem move {message next : String → ObservedM Value} {move : Move}
    (named : ∀ inner, move = .message inner → Agrees weight bound most (message inner) (next inner)) :
    Agrees weight bound most (observeMove registry message move) (observeMove registry next move) := by
  cases move with
  | call method =>
    exact .quietly method.read
  | message inner => exact named inner rfl
  | choice name => exact .quietly _

theorem steps {message next : String → ObservedM Value} {steps : List Step}
    (named : ∀ step ∈ steps, ∀ inner, step.read = .message inner → ∀ left ≤ most,
      (step.repeated = true → left < most) → Agrees weight bound left (message inner) (next inner)) :
    Agrees weight bound most (observeSteps registry message steps) (observeSteps registry next steps) := by
  induction steps with
  | nil => exact .pure []
  | cons step rest ih =>
    obtain ⟨here, later⟩ := List.forall_mem_cons.mp named
    refine Agrees.cons ?_ (ih later)
    unfold observeStep
    cases repeated : step.repeated with
    | true =>
      refine Agrees.length fun count left fewer => ?_
      have reads : Agrees weight bound left (observeMove registry message step.read)
          (observeMove registry next step.read) :=
        move fun inner reads => here inner reads left (Nat.le_of_lt fewer) fun _ => fewer
      exact (reads.items count).bind fun items => .pure (Value.list items)
    | false =>
      refine move fun inner reads => here inner reads most (Nat.le_refl _) fun single => ?_
      rw [repeated] at single
      cases single

end Agrees

theorem agrees_observeNamed (descends : Descends registry weight) {fuel : Nat} {name : String}
    (falling : ∀ left ≤ most, Falling weight bound (⟨name, left⟩ :: stack))
    (enough : more = 0 ∨ ∀ left ≤ most, weight ⟨name, left⟩ < fuel) :
    Agrees weight bound most (observeNamed registry fuel stack name)
      (observeNamed registry (fuel + more) stack name) := by
  induction fuel generalizing name stack most with
  | zero =>
    obtain rfl : more = 0 := enough.resolve_right fun light =>
      Nat.not_lt_zero _ (light most (Nat.le_refl _))
    exact .enter falling fun left within => .throw _
  | succ fuel ih =>
    have count : fuel + 1 + more = (fuel + more) + 1 := by omega
    rw [count]
    unfold observeNamed
    split
    · next steps declared =>
      refine .enter falling fun left within => ?_
      refine Agrees.bind (Agrees.steps fun step member inner reads rest fewer consumed => ?_)
        fun vs => .pure (Value.record vs)
      have falls : ∀ last ≤ rest, weight ⟨inner, last⟩ < weight ⟨name, left⟩ := by
        intro last least
        exact descends.falls declared member reads (Nat.le_trans least fewer) fun repeated =>
          Nat.lt_of_le_of_lt least (consumed repeated)
      apply ih
      · exact fun last least => (falling left within).cons (falls last least)
      · refine enough.imp_right fun light last least => ?_
        have less := falls last least
        have heavy := light left within
        omega
    · next other =>
      -- What is no message is an enumeration, which needs no fuel.
      have plain : ∃ (read : BufferM Value) (_ : Forward read),
          ∀ n, decodeNamed registry (n + 1) name = read := by
        cases declared : registry.shape? name with
        | none => exact ⟨_, inferInstance, fun n => decodeNamed_undeclared declared⟩
        | some shape =>
          rcases descends.shapes name shape declared with message | choices
          · obtain ⟨steps, rfl⟩ := message
            exact absurd declared (other steps)
          · obtain ⟨names, rfl⟩ := choices
            exact ⟨_, inferInstance, fun n => decodeNamed_choices declared⟩
      obtain ⟨read, forward, same⟩ := plain
      rw [same, same]
      exact .quietly read

theorem agrees_openCalls (descends : Descends registry weight) {fuel : Nat} {name : String} {b : Buffer}
    (light : ∀ left ≤ b.store.unread, weight ⟨name, left⟩ < bound) (more : Nat)
    (enough : more = 0 ∨ ∀ left ≤ b.store.unread, weight ⟨name, left⟩ < fuel) :
    Agrees weight bound b.store.unread (observeNamed registry fuel [] name)
      (observeNamed registry (fuel + more) [] name) ∧
        Observed.Sound weight bound b.store.unread ⟨b, []⟩ :=
  ⟨agrees_observeNamed descends (fun left within => .single (light left within)) enough,
    Nat.le_refl _, fun _ member => nomatch member⟩

theorem falling_openCalls (descends : Descends registry weight) {name : String} {b : Buffer}
    (light : ∀ left ≤ b.store.unread, weight ⟨name, left⟩ < bound) (fuel : Nat) :
    ∀ stack ∈ openCalls registry fuel name b, Falling weight bound stack := by
  have quiet : (0 = 0 ∨ ∀ left ≤ b.store.unread, weight ⟨name, left⟩ < fuel) := .inl rfl
  obtain ⟨agrees, sound⟩ := agrees_openCalls descends light 0 quiet
  unfold openCalls
  cases ran : observeNamed registry fuel [] name ⟨b, []⟩ with
  | ok v after => exact (agrees.ok _ v after sound ran).falling
  | error e after => exact agrees.error _ e after sound ran

theorem decodeNamed_add (descends : Descends registry weight) {name : String} {b : Buffer} {fuel : Nat}
    (light : ∀ left ≤ b.store.unread, weight ⟨name, left⟩ < fuel) (more : Nat) :
    decodeNamed registry (fuel + more) name b = decodeNamed registry fuel name b := by
  obtain ⟨agrees, sound⟩ := agrees_openCalls descends light more (.inr light)
  rw [← observes_named (fuel + more) [] name ⟨b, []⟩, ← observes_named fuel [] name ⟨b, []⟩,
    agrees.same _ sound]

end falling

end BinaryCodec.Schema
