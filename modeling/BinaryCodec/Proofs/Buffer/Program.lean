import BinaryCodec.Buffer.Basic

namespace BinaryCodec

/-- The answer of an operation, and the state that it came with. -/
def settled {α σ : Type} : EStateM.Result Error σ α → Except Error α × σ
  | .ok v s => (.ok v, s)
  | .error e s => (.error e, s)

inductive StoreCall where
  | read (n : Nat)
  | write (bytes : List UInt8)
  | seekRead (position : Nat)
  | seekWrite (position : Nat)
  | readPosition
  | writePosition
  | size
  | contents
  | erase
  | flush
  | close
  deriving DecidableEq, Repr

namespace StoreCall

abbrev Reply : StoreCall → Type
  | read _ | contents => List UInt8
  | readPosition | writePosition | size => Nat
  | write _ | seekRead _ | seekWrite _ | erase | flush | close => Unit

/-- The answer of a store to a call, and the store after it. -/
def answer : (call : StoreCall) → Store → Except Error call.Reply × Store
  | read n, s => settled (s.read n)
  | write bytes, s => settled (s.write bytes)
  | seekRead position, s => settled (s.seekRead position)
  | seekWrite position, s => settled (s.seekWrite position)
  | readPosition, s => (s.readPosition, s)
  | writePosition, s => (s.writePosition, s)
  | size, s => (s.size, s)
  | contents, s => settled s.contents
  | erase, s => settled s.erase
  | flush, s => settled s.flush
  | close, s => settled s.close

def advances : StoreCall → Bool
  | read _ | readPosition | writePosition | size => true
  | _ => false

end StoreCall

structure StoreEvent where
  call : StoreCall
  answer : Except Error call.Reply

inductive Program (α : Type) where
  | done (outcome : Except Error α)
  | call (call : StoreCall) (next : Except Error call.Reply → Program α)
  /-- Goes on with the number of bytes that reads can still deliver. -/
  | unread (next : Nat → Program α)
  | pending (next : PendingBits → Program α)
  | keep (bits : PendingBits) (next : Program α)

namespace Program

variable {α β : Type}

def run : Program α → BufferM α
  | .done (.ok v), b => .ok v b
  | .done (.error e), b => .error e b
  | .call c next, b => (next (c.answer b.store).1).run ⟨(c.answer b.store).2, b.bits⟩
  | .unread next, b => (next b.store.unread).run b
  | .pending next, b => (next b.bits).run b
  | .keep bits next, b => next.run ⟨b.store, bits⟩

def events : Program α → Buffer → List StoreEvent
  | .done _, _ => []
  | .call c next, b =>
    ⟨c, (c.answer b.store).1⟩ :: (next (c.answer b.store).1).events ⟨(c.answer b.store).2, b.bits⟩
  | .unread next, b => (next b.store.unread).events b
  | .pending next, b => (next b.bits).events b
  | .keep bits next, b => next.events ⟨b.store, bits⟩

def bind : Program α → (α → Program β) → Program β
  | .done (.ok v), f => f v
  | .done (.error e), _ => .done (.error e)
  | .call c next, f => .call c fun answer => (next answer).bind f
  | .unread next, f => .unread fun n => (next n).bind f
  | .pending next, f => .pending fun bits => (next bits).bind f
  | .keep bits next, f => .keep bits (next.bind f)

def attempt : Program α → Program (Except Error α)
  | .done outcome => .done (.ok outcome)
  | .call c next => .call c fun answer => (next answer).attempt
  | .unread next => .unread fun n => (next n).attempt
  | .pending next => .pending fun bits => (next bits).attempt
  | .keep bits next => .keep bits next.attempt

/-- Whether a program only reads on, unless it is one that `changes` the store otherwise, and leaves the
pending bits alone, unless it is one on `bits`. -/
def Confined (changes bits : Bool) : Program α → Prop
  | .done _ => True
  | .call c next => (c.advances || changes) = true ∧ ∀ answer, (next answer).Confined changes bits
  | .unread next => ∀ n, (next n).Confined changes bits
  | .pending next => ∀ held, (next held).Confined changes bits
  | .keep _ next => bits = true ∧ next.Confined changes bits

theorem run_bind (p : Program α) (f : α → Program β) :
    (p.bind f).run = p.run >>= fun v => (f v).run := by
  funext b
  induction p generalizing b with
  | done outcome => cases outcome <;> rfl
  | call c next ih => exact ih _ _
  | unread next ih => exact ih _ _
  | pending next ih => exact ih _ _
  | keep bits next ih => exact ih _

theorem mem_events_bind {p : Program α} {f : α → Program β} {b : Buffer} {event : StoreEvent} :
    event ∈ (p.bind f).events b ↔ event ∈ p.events b ∨
      ∃ v after, p.run b = .ok v after ∧ event ∈ (f v).events after := by
  induction p generalizing b with
  | done outcome =>
    cases outcome with
    | ok v => simp [bind, events, run, and_assoc]
    | error e => simp [bind, events, run]
  | call c next ih => simp only [bind, events, run, List.mem_cons, ih, or_assoc]
  | unread next ih => exact ih _
  | pending next ih => exact ih _
  | keep bits next ih => exact ih

theorem run_attempt (p : Program α) : p.attempt.run = Buffer.attempt p.run := by
  funext b
  induction p generalizing b with
  | done outcome => cases outcome <;> rfl
  | call c next ih => exact ih _ _
  | unread next ih => exact ih _ _
  | pending next ih => exact ih _ _
  | keep bits next ih => exact ih _

theorem events_attempt (p : Program α) : p.attempt.events = p.events := by
  funext b
  induction p generalizing b with
  | done outcome => rfl
  | call c next ih => exact congrArg _ (ih _ _)
  | unread next ih => exact ih _ _
  | pending next ih => exact ih _ _
  | keep bits next ih => exact ih _

variable {changes bits : Bool} {p : Program α}

theorem Confined.bind {f : α → Program β} (first : p.Confined changes bits)
    (next : ∀ v, (f v).Confined changes bits) : (p.bind f).Confined changes bits := by
  induction p with
  | done outcome =>
    cases outcome with
    | ok v => exact next v
    | error e => exact True.intro
  | call c _ ih => exact ⟨first.1, fun answer => ih answer (first.2 answer)⟩
  | unread _ ih => exact fun n => ih n (first n)
  | pending _ ih => exact fun held => ih held (first held)
  | keep _ _ ih => exact ⟨first.1, ih first.2⟩

theorem Confined.attempt (confined : p.Confined changes bits) : p.attempt.Confined changes bits := by
  induction p with
  | done outcome => exact True.intro
  | call c _ ih => exact ⟨confined.1, fun answer => ih answer (confined.2 answer)⟩
  | unread _ ih => exact fun n => ih n (confined n)
  | pending _ ih => exact fun held => ih held (confined held)
  | keep _ _ ih => exact ⟨confined.1, ih confined.2⟩

theorem Confined.bits_run (confined : p.Confined changes false) (b : Buffer) :
    (settled (p.run b)).2.bits = b.bits := by
  induction p generalizing b with
  | done outcome => cases outcome <;> rfl
  | call c next ih => exact ih _ (confined.2 _) _
  | unread next ih => exact ih _ (confined _) b
  | pending next ih => exact ih _ (confined _) b
  | keep held next ih => cases confined.1

end Program

end BinaryCodec
