import BinaryCodec.Proofs.Buffer.Locked
import BinaryCodec.Proofs.Buffer.Reading

namespace BinaryCodec

namespace Buffer

variable {α β : Type}

/-- An operation with the program that it is, which does no more than the flags say. Where a locked store
refuses one of the calls, the operation fails, and `tell` says with what. -/
class Guarded (changes bits : Bool) (tell : Error → Error) (m : BufferM α) where
  program : Program α
  run_program : program.run = m
  confined : program.Confined changes bits
  tells (b : Buffer) (locked : b.store.Locked) (event : StoreEvent) (made : event ∈ program.events b)
    (e : Error) (answered : event.answer = .error e) (denial : e.IsDenial) :
    ∃ after, m b = .error (tell e) after

section compose

variable {changes bits : Bool} {tell : Error → Error}

abbrev Guarded.ofEq {m other : BufferM α} (same : other = m) (guarded : Guarded changes bits tell other) :
    Guarded changes bits tell m where
  program := guarded.program
  run_program := guarded.run_program.trans same
  confined := guarded.confined
  tells := same ▸ guarded.tells

instance guarded_pure (v : α) : Guarded changes bits tell (pure v) where
  program := .done (.ok v)
  run_program := rfl
  confined := True.intro
  tells _ _ _ made := by cases made

instance guarded_throw (e : Error) : Guarded changes bits tell (throw e : BufferM α) where
  program := .done (.error e)
  run_program := rfl
  confined := True.intro
  tells _ _ _ made := by cases made

theorem Guarded.locked {m : BufferM α} (guarded : Guarded changes bits tell m) {b : Buffer}
    (locked : b.store.Locked) : (settled (m b)).2.store.Locked := by
  have kept := Program.kept_run (p := guarded.program) locked
  rw [guarded.run_program] at kept
  exact kept.locked locked

abbrev guardedBind (m : BufferM α) (f : α → BufferM β) [first : Guarded changes bits tell m] (next : α → Program β)
    (runs : ∀ v, (next v).run = f v) (confined : ∀ v, (next v).Confined changes bits)
    (tells : ∀ (b after : Buffer) (v : α), b.store.Locked → m b = .ok v after → after.store.Locked →
      ∀ event ∈ (next v).events after, ∀ e, event.answer = .error e → e.IsDenial →
        ∃ final, f v after = .error (tell e) final) : Guarded changes bits tell (m >>= f) where
  program := first.program.bind next
  run_program := by
    rw [Program.run_bind, first.run_program]
    exact congrArg (m >>= ·) (funext runs)
  confined := first.confined.bind confined
  tells b locked event made e answered denial := by
    rcases Program.mem_events_bind.mp made with here | ⟨v, after, ran, later⟩
    · obtain ⟨after, failed⟩ := first.tells b locked event here e answered denial
      exact ⟨after, by rw [bind_apply, failed]⟩
    · rw [first.run_program] at ran
      have kept := first.locked locked
      rw [ran] at kept
      obtain ⟨final, failed⟩ := tells b after v locked ran kept event later e answered denial
      exact ⟨final, by rw [bind_apply, ran]; exact failed⟩

instance guarded_bind (m : BufferM α) (f : α → BufferM β) [Guarded changes bits tell m]
    [next : ∀ v, Guarded changes bits tell (f v)] : Guarded changes bits tell (m >>= f) :=
  guardedBind m f (fun v => (next v).program) (fun v => (next v).run_program) (fun v => (next v).confined)
    fun _ after v _ _ kept event made e answered denial =>
      (next v).tells after kept event made e answered denial

instance guarded_map (m : BufferM α) (f : α → β) [Guarded changes bits tell m] : Guarded changes bits tell (f <$> m) :=
  inferInstanceAs (Guarded changes bits tell (m >>= fun v => pure (f v)))

instance guarded_ite {c : Prop} [Decidable c] (m other : BufferM α) [first : Guarded changes bits tell m]
    [second : Guarded changes bits tell other] : Guarded changes bits tell (if c then m else other) :=
  if h : c then .ofEq (if_pos h).symm first else .ofEq (if_neg h).symm second

instance guarded_dite {c : Prop} [Decidable c] (m : c → BufferM α) (other : ¬c → BufferM α)
    [first : ∀ h, Guarded changes bits tell (m h)] [second : ∀ h, Guarded changes bits tell (other h)] :
    Guarded changes bits tell (if h : c then m h else other h) :=
  if h : c then .ofEq (dif_pos h).symm (first h) else .ofEq (dif_neg h).symm (second h)

abbrev guardedAttempt (m : BufferM α) (f : Except Error α → BufferM β) [inner : Guarded changes bits id m]
    [next : ∀ outcome, Guarded changes bits tell (f outcome)]
    (tells : ∀ (b after : Buffer) (e : Error), b.store.Locked → e.IsDenial → m b = .error e after →
      ∃ final, f (.error e) after = .error (tell e) final) : Guarded changes bits tell (attempt m >>= f) where
  program := inner.program.attempt.bind fun outcome => (next outcome).program
  run_program := by
    rw [Program.run_bind, Program.run_attempt, inner.run_program]
    exact congrArg (attempt m >>= ·) (funext fun outcome => (next outcome).run_program)
  confined := inner.confined.attempt.bind fun outcome => (next outcome).confined
  tells b locked event made e answered denial := by
    have kept := inner.locked locked
    rcases Program.mem_events_bind.mp made with here | ⟨outcome, after, ran, later⟩
    · rw [Program.events_attempt] at here
      obtain ⟨after, failed⟩ := inner.tells b locked event here e answered denial
      obtain ⟨final, told⟩ := tells b after e locked denial failed
      exact ⟨final, by rw [bind_apply, attempt, failed]; exact told⟩
    · rw [Program.run_attempt, inner.run_program] at ran
      have place : (settled (m b)).2 = after := by
        unfold attempt at ran
        generalize m b = result at ran
        cases result <;> cases ran <;> rfl
      rw [place] at kept
      obtain ⟨final, failed⟩ := (next outcome).tells after kept event later e answered denial
      exact ⟨final, by rw [bind_apply, ran]; exact failed⟩

end compose

section steps

variable {changes bits : Bool}

theorem run_onStore (action : StoreM α) :
    (fun b => (Program.done (settled (action b.store)).1).run ⟨(settled (action b.store)).2, b.bits⟩) =
      onStore action := by
  funext ⟨store, bits⟩
  cases found : action store <;> simp only [onStore, found] <;> rfl

theorem run_ask (question : Store → Except Error α) :
    (fun b => (Program.done (question b.store)).run b) = ask question := by
  funext b
  unfold ask
  cases question b.store <;> rfl

abbrev guardedCall (call : StoreCall) {m : BufferM call.Reply} (same : (Program.call call .done).run = m)
    (may : (call.advances || changes) = true) : Guarded changes bits id m where
  program := .call call .done
  run_program := same
  confined := ⟨may, fun _ => True.intro⟩
  tells b _ event made e answered _ := by
    cases List.mem_singleton.mp made
    have answered : (call.answer b.store).1 = .error e := answered
    refine ⟨⟨(call.answer b.store).2, b.bits⟩, ?_⟩
    rw [← same]
    change (Program.done (call.answer b.store).1).run _ = _
    rw [answered]
    rfl

instance guarded_read (n : Nat) : Guarded changes bits id (read n) := guardedCall (.read n) (run_onStore _) rfl

instance guarded_writeBytes (bytes : List UInt8) : Guarded true bits id (writeBytes bytes) :=
  guardedCall (.write bytes) (run_onStore _) rfl

instance guarded_seekRead (position : Nat) : Guarded true bits id (seekRead position) :=
  guardedCall (.seekRead position) (run_onStore _) rfl

instance guarded_seekWrite (position : Nat) : Guarded true bits id (seekWrite position) :=
  guardedCall (.seekWrite position) (run_onStore _) rfl

instance guarded_readPosition : Guarded changes bits id readPosition :=
  guardedCall .readPosition (run_ask Store.readPosition) rfl

instance guarded_writePosition : Guarded changes bits id writePosition :=
  guardedCall .writePosition (run_ask Store.writePosition) rfl

instance guarded_size : Guarded changes bits id size := guardedCall .size (run_ask Store.size) rfl

instance guarded_contents : Guarded true bits id contents := guardedCall .contents (run_onStore _) rfl

instance guarded_flush : Guarded true bits id flush := guardedCall .flush (run_onStore _) rfl

instance guarded_close : Guarded true bits id close := guardedCall .close (run_onStore _) rfl

variable {tell : Error → Error}

instance guarded_unread : Guarded changes bits tell unread where
  program := .unread fun n => .done (.ok n)
  run_program := rfl
  confined _ := True.intro
  tells _ _ _ made := by cases made

instance guarded_settle (value : Except Error α) : Guarded changes bits tell (settle value) :=
  match value with
  | .ok v => guarded_pure v
  | .error e => guarded_throw e

abbrev guardedPending (f : PendingBits → BufferM α) [next : ∀ held, Guarded changes bits tell (f held)] :
    Guarded changes bits tell (get >>= fun b => f b.bits) where
  program := .pending fun held => (next held).program
  run_program := funext fun b => congrFun (next b.bits).run_program b
  confined held := (next held).confined
  tells b := (next b.bits).tells b

abbrev guardedModify (f : PendingBits → PendingBits) :
    Guarded changes true tell (modify fun b => { b with bits := f b.bits } : BufferM Unit) where
  program := .pending fun held => .keep (f held) (.done (.ok ()))
  run_program := rfl
  confined _ := ⟨rfl, True.intro⟩
  tells _ _ _ made := by cases made

instance guarded_keep (held : PendingBits) :
    Guarded changes true tell (modify fun b => { b with bits := held } : BufferM Unit) :=
  guardedModify fun _ => held

end steps

end Buffer

end BinaryCodec
