import BinaryCodec.Buffer.Basic
import BinaryCodec.Proofs.Store.Supply

namespace BinaryCodec

structure Reading (α : Type) where
  result : Except Error α
  used : Nat

namespace Reading

variable {α β : Type}

def andThen (r : Reading α) (next : α → Nat → Reading β) : Reading β :=
  match r.result with
  | .ok v => ⟨(next v r.used).result, r.used + (next v r.used).used⟩
  | .error e => ⟨.error e, r.used⟩

@[simp] theorem andThen_ok (v : α) (n : Nat) (next : α → Nat → Reading β) :
    andThen ⟨.ok v, n⟩ next = ⟨(next v n).result, n + (next v n).used⟩ := rfl

@[simp] theorem andThen_error (e : Error) (n : Nat) (next : α → Nat → Reading β) :
    andThen ⟨.error e, n⟩ next = ⟨.error e, n⟩ := rfl

theorem andThen_result_ok {r : Reading α} {next : α → Nat → Reading β} {w : β}
    (h : (r.andThen next).result = .ok w) :
    ∃ v, r.result = .ok v ∧ (next v r.used).result = .ok w ∧
      (r.andThen next).used = r.used + (next v r.used).used := by
  obtain ⟨result, n⟩ := r
  cases result with
  | ok v => exact ⟨v, rfl, h, rfl⟩
  | error e => cases h

end Reading

namespace Buffer

variable {α β : Type}

def Supplies (b : Buffer) : Prop := b.store.Supplies

def Delivers (b : Buffer) : Prop := b.store.Delivers

theorem Delivers.supplies {b : Buffer} (delivers : b.Delivers) : b.Supplies :=
  Store.Delivers.supplies delivers

def advance (b : Buffer) (n : Nat) : Buffer := ⟨b.store.advance n, b.bits⟩

def upcoming (b : Buffer) : List UInt8 := b.store.upcoming

def ending (b : Buffer) : Ending := b.store.ending

def place (b : Buffer) : Nat := (b.store.readPosition.toOption).getD 0

@[simp] theorem upcoming_advance {b : Buffer} {n : Nat} :
    (b.advance n).upcoming = b.upcoming.drop n := Store.upcoming_advance

@[simp] theorem ending_advance {b : Buffer} {n : Nat} : (b.advance n).ending = b.ending :=
  Store.ending_advance

@[simp] theorem advance_zero {b : Buffer} : b.advance 0 = b := by
  simp only [advance, Store.advance_zero]

@[simp] theorem advance_advance {b : Buffer} {m n : Nat} :
    (b.advance m).advance n = b.advance (m + n) := by
  simp only [advance, Store.advance_advance]

theorem Supplies.advance {b : Buffer} (supplies : b.Supplies) (n : Nat) :
    (b.advance n).Supplies := Store.Supplies.advance supplies n

theorem Delivers.advance {b : Buffer} (delivers : b.Delivers) (n : Nat) :
    (b.advance n).Delivers := Store.Delivers.advance delivers n

theorem Delivers.place_advance {b : Buffer} (delivers : b.Delivers) (n : Nat) :
    (b.advance n).place = b.place + n := by
  obtain ⟨store, bits⟩ := b
  cases store with
  | writer w => exact delivers.elim
  | _ => rfl

def ofUpcoming (ending : Ending) (bytes : List UInt8) : Buffer :=
  match ending with
  | .known => ofSlice bytes
  | .unknown => ofStore (.reader ⟨bytes.toArray, fun _ => 1, none, 0⟩)
  | .failing fault => ofStore (.reader ⟨bytes.toArray, fun _ => 1, some ⟨bytes.length, fault⟩, 0⟩)

section ofUpcoming

variable (ending : Ending) (bytes : List UInt8)

theorem delivers_ofUpcoming : (ofUpcoming ending bytes).Delivers := by
  cases ending
  · exact True.intro
  all_goals
    intro position
    exact Nat.one_pos

@[simp] theorem upcoming_ofUpcoming : (ofUpcoming ending bytes).upcoming = bytes := by
  cases ending <;>
    simp [ofUpcoming, ofSlice, ofStore, upcoming, Store.upcoming, Slice.ofList, Reader.left,
      Reader.reach]

@[simp] theorem ending_ofUpcoming : (ofUpcoming ending bytes).ending = ending := by
  cases ending <;> rfl

@[simp] theorem place_ofUpcoming : (ofUpcoming ending bytes).place = 0 := by
  cases ending <;> rfl

end ofUpcoming

/-- A buffer over a stream that cannot tell its size and delivers at most `limit position` bytes with one
read. -/
def ofStream (bytes : List UInt8) (limit : Nat → Nat) : Buffer :=
  ofStore (.reader ⟨bytes.toArray, limit, none, 0⟩)

@[simp] theorem upcoming_ofSlice (bytes : List UInt8) : (ofSlice bytes).upcoming = bytes := by
  simp [ofSlice, ofStore, upcoming, Store.upcoming, Slice.ofList]

@[simp] theorem upcoming_ofStream (bytes : List UInt8) (limit : Nat → Nat) :
    (ofStream bytes limit).upcoming = bytes := by
  simp [ofStream, ofStore, upcoming, Store.upcoming, Reader.left, Reader.reach]

def conclude (b : Buffer) (r : Reading α) : EStateM.Result Error Buffer α :=
  match r.result with
  | .ok v => .ok v (b.advance r.used)
  | .error e => .error e (b.advance r.used)

@[simp] theorem conclude_ok (b : Buffer) (v : α) (n : Nat) :
    b.conclude ⟨.ok v, n⟩ = .ok v (b.advance n) := rfl

@[simp] theorem conclude_error (b : Buffer) (e : Error) (n : Nat) :
    b.conclude (⟨.error e, n⟩ : Reading α) = .error e (b.advance n) := rfl

def outcome (m : BufferM α) (ending : Ending) (bytes : List UInt8) : Reading α :=
  match m (ofUpcoming ending bytes) with
  | .ok v b => ⟨.ok v, b.place⟩
  | .error e b => ⟨.error e, b.place⟩

class Sequential (m : BufferM α) : Prop where
  run (b : Buffer) : b.Delivers → m b = b.conclude (outcome m b.ending b.upcoming)
  used_le (ending : Ending) (bytes : List UInt8) : (outcome m ending bytes).used ≤ bytes.length

structure Performs (m : BufferM α) (f : Ending → List UInt8 → Reading α) : Prop where
  run (b : Buffer) : b.Delivers → m b = b.conclude (f b.ending b.upcoming)
  used_le (ending : Ending) (bytes : List UInt8) : (f ending bytes).used ≤ bytes.length

theorem Performs.outcome_eq {m : BufferM α} {f : Ending → List UInt8 → Reading α}
    (performs : Performs m f) : outcome m = f := by
  funext ending bytes
  have delivers := delivers_ofUpcoming ending bytes
  have place := delivers.place_advance (f ending bytes).used
  have run := performs.run _ delivers
  rw [ending_ofUpcoming, upcoming_ofUpcoming] at run
  rw [place_ofUpcoming, Nat.zero_add] at place
  unfold outcome
  rw [run]
  revert place
  generalize f ending bytes = r
  obtain ⟨result, n⟩ := r
  intro place
  cases result <;> simp only [conclude, place]

theorem Performs.sequential {m : BufferM α} {f : Ending → List UInt8 → Reading α}
    (performs : Performs m f) : Sequential m := by
  constructor
  · rw [performs.outcome_eq]
    exact performs.run
  · rw [performs.outcome_eq]
    exact performs.used_le

theorem readPosition_advance {b : Buffer} {start : Nat} (begins : b.store.readPosition = .ok start)
    (n : Nat) : (b.advance n).store.readPosition = .ok (start + n) := by
  obtain ⟨store, bits⟩ := b
  cases store with
  | writer w => cases begins
  | _ =>
    cases begins
    rfl

section position

variable {m : BufferM α} [Sequential m] {b after : Buffer} {start : Nat}

theorem run_of_outcome (delivers : b.Delivers) {r : Reading α}
    (came : outcome m b.ending b.upcoming = r) : m b = b.conclude r := by
  rw [Sequential.run (m := m) b delivers, came]

theorem outcome_of_ok (delivers : b.Delivers) {v : α} (run : m b = .ok v after) :
    ∃ n, outcome m b.ending b.upcoming = ⟨.ok v, n⟩ ∧ after = b.advance n := by
  have ran := Sequential.run (m := m) b delivers
  rw [run] at ran
  cases came : outcome m b.ending b.upcoming with
  | mk result n =>
    rw [came] at ran
    cases result with
    | error e => cases ran
    | ok w =>
      cases ran
      exact ⟨n, rfl, rfl⟩

theorem outcome_of_error (delivers : b.Delivers) {e : Error} (run : m b = .error e after) :
    ∃ n, outcome m b.ending b.upcoming = ⟨.error e, n⟩ ∧ after = b.advance n := by
  have ran := Sequential.run (m := m) b delivers
  rw [run] at ran
  cases came : outcome m b.ending b.upcoming with
  | mk result n =>
    rw [came] at ran
    cases result with
    | ok v => cases ran
    | error other =>
      cases ran
      exact ⟨n, rfl, rfl⟩

theorem answers_iff (delivers : b.Delivers) (begins : b.store.readPosition = .ok start) (v : α)
    (n : Nat) :
    (∃ after, m b = .ok v after ∧ after.store.readPosition = .ok (start + n)) ↔
      outcome m b.ending b.upcoming = ⟨.ok v, n⟩ := by
  constructor
  · rintro ⟨after, run, place⟩
    obtain ⟨used, came, rfl⟩ := outcome_of_ok delivers run
    rw [readPosition_advance begins] at place
    obtain rfl : used = n := Nat.add_left_cancel (Except.ok.inj place)
    exact came
  · intro came
    exact ⟨b.advance n, run_of_outcome delivers came, readPosition_advance begins n⟩

theorem fails_iff (delivers : b.Delivers) (begins : b.store.readPosition = .ok start) (e : Error)
    (n : Nat) :
    (∃ after, m b = .error e after ∧ after.store.readPosition = .ok (start + n)) ↔
      outcome m b.ending b.upcoming = ⟨.error e, n⟩ := by
  constructor
  · rintro ⟨after, run, place⟩
    obtain ⟨used, came, rfl⟩ := outcome_of_error delivers run
    rw [readPosition_advance begins] at place
    obtain rfl : used = n := Nat.add_left_cancel (Except.ok.inj place)
    exact came
  · intro came
    exact ⟨b.advance n, run_of_outcome delivers came, readPosition_advance begins n⟩

variable (v : α) (e : Error) (n : Nat) (bytes : List UInt8)

theorem answers_slice_iff :
    (∃ after, m (.ofSlice bytes) = .ok v after ∧ after.store.readPosition = .ok n) ↔
      outcome m .known bytes = ⟨.ok v, n⟩ := by
  have delivers : (ofSlice bytes).Delivers := True.intro
  have begins : (ofSlice bytes).store.readPosition = .ok 0 := rfl
  have answers := answers_iff (m := m) delivers begins v n
  rwa [upcoming_ofSlice, Nat.zero_add] at answers

variable {e bytes} in
theorem fails_slice (run : m (.ofSlice bytes) = .error e after) :
    ∃ n, after.store.readPosition = .ok n ∧ outcome m .known bytes = ⟨.error e, n⟩ := by
  have delivers : (ofSlice bytes).Delivers := True.intro
  have begins : (ofSlice bytes).store.readPosition = .ok 0 := rfl
  obtain ⟨n, came, rfl⟩ := outcome_of_error delivers run
  have position := readPosition_advance begins n
  rw [Nat.zero_add] at position
  rw [upcoming_ofSlice] at came
  exact ⟨n, position, came⟩

variable {limit : Nat → Nat} (progress : ∀ position, 0 < limit position)
include progress

theorem answers_stream_iff :
    (∃ after, m (.ofStream bytes limit) = .ok v after ∧ after.store.readPosition = .ok n) ↔
      outcome m .unknown bytes = ⟨.ok v, n⟩ := by
  have delivers : (ofStream bytes limit).Delivers := progress
  have begins : (ofStream bytes limit).store.readPosition = .ok 0 := rfl
  have answers := answers_iff (m := m) delivers begins v n
  rwa [upcoming_ofStream, Nat.zero_add] at answers

theorem fails_stream_iff :
    (∃ after, m (.ofStream bytes limit) = .error e after ∧ after.store.readPosition = .ok n) ↔
      outcome m .unknown bytes = ⟨.error e, n⟩ := by
  have delivers : (ofStream bytes limit).Delivers := progress
  have begins : (ofStream bytes limit).store.readPosition = .ok 0 := rfl
  have fails := fails_iff (m := m) delivers begins e n
  rwa [upcoming_ofStream, Nat.zero_add] at fails

end position

section compose

theorem bind_apply (m : BufferM α) (f : α → BufferM β) (b : Buffer) :
    (m >>= f) b = match m b with
      | .ok v b => f v b
      | .error e b => .error e b := by
  change EStateM.bind m f b = _
  unfold EStateM.bind
  cases m b <;> rfl

theorem map_apply (f : α → β) (m : BufferM α) (b : Buffer) :
    (f <$> m) b = match m b with
      | .ok v b => .ok (f v) b
      | .error e b => .error e b := by
  rw [map_eq_pure_bind, bind_apply]
  rfl

theorem get_apply (b : Buffer) : (get : BufferM Buffer) b = .ok b b := rfl

theorem unread_apply (b : Buffer) : unread b = .ok b.upcoming.length b :=
  congrArg (EStateM.Result.ok · b) Store.unread_eq

theorem bind_congr_of_run {m : BufferM α} {f g : α → BufferM β}
    (same : ∀ b v after, m b = .ok v after → f v = g v) : m >>= f = m >>= g := by
  funext b
  rw [bind_apply, bind_apply]
  cases came : m b with
  | ok v after => exact congrFun (same b v after came) after
  | error e after => rfl

theorem performs_pure (v : α) : Performs (pure v) fun _ _ => ⟨.ok v, 0⟩ where
  run b _ := by
    rw [conclude_ok, advance_zero]
    rfl
  used_le _ _ := Nat.zero_le _

theorem performs_throw (e : Error) :
    Performs (throw e : BufferM α) fun _ _ => ⟨.error e, 0⟩ where
  run b _ := by
    rw [conclude_error, advance_zero]
    rfl
  used_le _ _ := Nat.zero_le _

theorem performs_bind (m : BufferM α) (f : α → BufferM β) [Sequential m]
    [∀ v, Sequential (f v)] :
    Performs (m >>= f) fun ending bytes => (outcome m ending bytes).andThen fun v n =>
      outcome (f v) ending (bytes.drop n) where
  run b delivers := by
    rw [bind_apply, Sequential.run (m := m) b delivers]
    obtain ⟨result, n⟩ := outcome m b.ending b.upcoming
    cases result with
    | error e => rfl
    | ok v =>
      simp only [conclude_ok, Reading.andThen_ok]
      rw [Sequential.run (m := f v) _ (delivers.advance n), ending_advance, upcoming_advance]
      obtain ⟨result, k⟩ := outcome (f v) b.ending (b.upcoming.drop n)
      cases result <;> simp only [conclude, advance_advance]
  used_le ending bytes := by
    have used := Sequential.used_le (m := m) ending bytes
    revert used
    obtain ⟨result, n⟩ := outcome m ending bytes
    intro used
    cases result with
    | error e => exact used
    | ok v =>
      have more := Sequential.used_le (m := f v) ending (bytes.drop n)
      rw [List.length_drop] at more
      simp only [Reading.andThen_ok] at used ⊢
      omega

theorem performs_available :
    Performs available fun ending bytes =>
      ⟨.ok (if ending = .known then some bytes.length else none), 0⟩ where
  run b delivers := by
    rw [conclude_ok, advance_zero]
    exact congrArg (EStateM.Result.ok · b) (Store.available_eq delivers)
  used_le _ _ := Nat.zero_le _

theorem performs_unread : Performs unread fun _ bytes => ⟨.ok bytes.length, 0⟩ where
  run b _ := by
    rw [conclude_ok, advance_zero]
    exact unread_apply b
  used_le _ _ := Nat.zero_le _

instance sequential_pure (v : α) : Sequential (pure v : BufferM α) := (performs_pure v).sequential

instance sequential_throw (e : Error) : Sequential (throw e : BufferM α) :=
  (performs_throw e).sequential

instance sequential_bind {m : BufferM α} {f : α → BufferM β} [Sequential m]
    [∀ v, Sequential (f v)] : Sequential (m >>= f) := (performs_bind m f).sequential

instance sequential_map {m : BufferM α} {f : α → β} [Sequential m] : Sequential (f <$> m) :=
  inferInstanceAs (Sequential (m >>= fun v => pure (f v)))

instance sequential_ite {c : Prop} [Decidable c] {m n : BufferM α} [Sequential m]
    [Sequential n] : Sequential (if c then m else n) := by
  split <;> infer_instance

instance sequential_settle (value : Except Error α) : Sequential (settle value) := by
  cases value with
  | ok v => exact sequential_pure v
  | error e => exact sequential_throw e

instance sequential_available : Sequential available := performs_available.sequential

instance sequential_unread : Sequential unread := performs_unread.sequential

variable (ending : Ending) (bytes : List UInt8)

@[simp] theorem outcome_pure (v : α) :
    outcome (pure v : BufferM α) ending bytes = ⟨.ok v, 0⟩ := by
  rw [(performs_pure v).outcome_eq]

@[simp] theorem outcome_throw (e : Error) :
    outcome (throw e : BufferM α) ending bytes = ⟨.error e, 0⟩ := by
  rw [(performs_throw e).outcome_eq]

theorem outcome_bind (m : BufferM α) (f : α → BufferM β) [Sequential m] [∀ v, Sequential (f v)] :
    outcome (m >>= f) ending bytes = (outcome m ending bytes).andThen fun v n =>
      outcome (f v) ending (bytes.drop n) := by
  rw [(performs_bind m f).outcome_eq]

theorem outcome_map (m : BufferM α) (f : α → β) [Sequential m] :
    outcome (f <$> m) ending bytes = (outcome m ending bytes).andThen fun v _ => ⟨.ok (f v), 0⟩ := by
  change outcome (m >>= fun v => pure (f v)) ending bytes = _
  simp only [outcome_bind, outcome_pure]

@[simp] theorem outcome_settle (value : Except Error α) :
    outcome (settle value) ending bytes = ⟨value, 0⟩ := by
  cases value with
  | ok v => exact outcome_pure ending bytes v
  | error e => exact outcome_throw ending bytes e

@[simp] theorem outcome_available :
    outcome available ending bytes =
      ⟨.ok (if ending = .known then some bytes.length else none), 0⟩ := by
  rw [performs_available.outcome_eq]

@[simp] theorem outcome_unread : outcome unread ending bytes = ⟨.ok bytes.length, 0⟩ := by
  rw [performs_unread.outcome_eq]

end compose

end Buffer

end BinaryCodec
