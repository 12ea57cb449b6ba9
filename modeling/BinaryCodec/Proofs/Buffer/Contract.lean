import BinaryCodec.Proofs.Buffer.Pieces

namespace BinaryCodec.Buffer

variable {α β : Type}

def Decodes (m : BufferM α) (bytes : List UInt8) (v : α) : Prop :=
  ∀ ending rest, outcome m ending (bytes ++ rest) = ⟨.ok v, bytes.length⟩

def Yields (m : BufferM α) (Q : α → Nat → Prop) : Prop :=
  ∀ ending bytes v, (outcome m ending bytes).result = .ok v → Q v (outcome m ending bytes).used

def Uniform (m : BufferM α) : Prop := outcome m .known = outcome m .unknown

def Agrees (m : BufferM α) : Prop :=
  ∀ bytes, outcome m .known bytes = outcome m .unknown bytes ∨
    (∃ length available, (outcome m .known bytes).result =
      .error (.lengthExceedsInput length available)) ∧
    ∃ e, (outcome m .unknown bytes).result = .error e

def Covers (other m : BufferM α) : Prop :=
  ∀ ending bytes v n, outcome m ending bytes = ⟨.ok v, n⟩ → outcome other ending bytes = ⟨.ok v, n⟩

theorem outcome_unread_bind {f : Nat → BufferM α} [∀ n, Sequential (f n)] (ending : Ending)
    (bytes : List UInt8) :
    outcome (unread >>= f) ending bytes = outcome (f bytes.length) ending bytes := by
  rw [outcome_bind, outcome_unread, Reading.andThen_ok, List.drop_zero, Nat.zero_add]

namespace Decodes

theorem pure (v : α) : Decodes (Pure.pure v) [] v := fun ending rest => outcome_pure ending rest v

theorem bind {m : BufferM α} {f : α → BufferM β} [Sequential m] [∀ v, Sequential (f v)]
    {front back : List UInt8} {v : α} {w : β} (first : Decodes m front v)
    (next : Decodes (f v) back w) : Decodes (m >>= f) (front ++ back) w := by
  intro ending rest
  rw [outcome_bind, List.append_assoc, first ending (back ++ rest)]
  simp only [Reading.andThen_ok, List.drop_left, next ending rest, List.length_append]

theorem map {m : BufferM α} [Sequential m] {bytes : List UInt8} {v : α} (f : α → β)
    (decodes : Decodes m bytes v) : Decodes (f <$> m) bytes (f v) := by
  intro ending rest
  rw [outcome_map, decodes ending rest]
  rfl

theorem bind_pure {m : BufferM α} {f : α → BufferM β} [Sequential m] [∀ v, Sequential (f v)]
    {bytes : List UInt8} {v : α} {w : β} (first : Decodes m bytes v)
    (next : Decodes (f v) [] w) : Decodes (m >>= f) bytes w := by
  simpa only [List.append_nil] using first.bind next

theorem settle (v : α) : Decodes (Buffer.settle (.ok v)) [] v := fun ending rest =>
  outcome_settle ending rest (.ok v)

theorem cons {m : BufferM α} {more : BufferM (List α)} [Sequential m] [Sequential more]
    {front back : List UInt8} {v : α} {vs : List α} (first : Decodes m front v)
    (rest : Decodes more back vs) :
    Decodes (m >>= fun v => more >>= fun vs => Pure.pure (v :: vs)) (front ++ back) (v :: vs) :=
  first.bind (rest.bind_pure (.pure _))

theorem unread {f : Nat → BufferM α} [∀ n, Sequential (f n)] {bytes : List UInt8} {v : α}
    (decodes : ∀ n, bytes.length ≤ n → Decodes (f n) bytes v) :
    Decodes (Buffer.unread >>= f) bytes v := by
  intro ending rest
  rw [outcome_unread_bind]
  exact decodes _ (by rw [List.length_append]; omega) ending rest

theorem run {m : BufferM α} [Sequential m] {bytes rest : List UInt8} {v : α} {b : Buffer}
    (decodes : Decodes m bytes v) (delivers : b.Delivers) (upcoming : b.upcoming = bytes ++ rest) :
    m b = .ok v (b.advance bytes.length) := by
  rw [Sequential.run (m := m) b delivers, upcoming, decodes]
  rfl

theorem yields {m : BufferM α} {bytes : List UInt8} {v : α} {Q : α → Nat → Prop}
    (decodes : Decodes m bytes v) (yields : Yields m Q) : Q v bytes.length := by
  have run := decodes .known []
  have result := yields .known (bytes ++ []) v (by rw [run])
  rwa [run] at result

end Decodes

namespace Yields

variable {P Q : α → Nat → Prop}

theorem mono {m : BufferM α} (yields : Yields m P) (weaker : ∀ v n, P v n → Q v n) : Yields m Q :=
  fun ending bytes v h => weaker v _ (yields ending bytes v h)

theorem and {m : BufferM α} (first : Yields m P) (second : Yields m Q) :
    Yields m fun v n => P v n ∧ Q v n :=
  fun ending bytes v h => ⟨first ending bytes v h, second ending bytes v h⟩

theorem pure {v : α} (h : Q v 0) : Yields (Pure.pure v) Q := by
  intro ending bytes w result
  rw [outcome_pure] at result ⊢
  cases result
  exact h

theorem throw (e : Error) : Yields (throw e : BufferM α) Q := by
  intro ending bytes v result
  rw [outcome_throw] at result
  cases result

theorem bind {m : BufferM α} {f : α → BufferM β} [Sequential m] [∀ v, Sequential (f v)]
    {R : β → Nat → Prop} (first : Yields m P)
    (next : ∀ v n, P v n → Yields (f v) fun w k => R w (n + k)) : Yields (m >>= f) R := by
  intro ending bytes w result
  rw [outcome_bind] at result ⊢
  obtain ⟨v, done, more, used⟩ := Reading.andThen_result_ok result
  rw [used]
  exact next v _ (first ending bytes v done) ending _ w more

theorem map {m : BufferM α} {f : α → β} [Sequential m] {R : β → Nat → Prop} (first : Yields m P)
    (next : ∀ v n, P v n → R (f v) n) : Yields (f <$> m) R := by
  intro ending bytes w result
  rw [outcome_map] at result ⊢
  obtain ⟨v, done, more, used⟩ := Reading.andThen_result_ok result
  cases more
  rw [used]
  exact next v _ (first ending bytes v done)

theorem settle {value : Except Error α} (h : ∀ v, value = .ok v → Q v 0) :
    Yields (Buffer.settle value) Q := by
  intro ending bytes v result
  rw [outcome_settle] at result ⊢
  exact h v result

theorem unread {f : Nat → BufferM α} [∀ n, Sequential (f n)] (yields : ∀ n, Yields (f n) Q) :
    Yields (Buffer.unread >>= f) Q := by
  intro ending bytes v result
  rw [outcome_unread_bind] at result ⊢
  exact yields _ ending bytes v result

theorem cons {m : BufferM α} {more : BufferM (List α)} [Sequential m] [Sequential more]
    {R S : List α → Nat → Prop} (first : Yields m P) (rest : Yields more R)
    (next : ∀ v n vs k, P v n → R vs k → S (v :: vs) (n + k)) :
    Yields (m >>= fun v => more >>= fun vs => Pure.pure (v :: vs)) S :=
  first.bind fun v n head => rest.bind fun vs k tail => .pure (next v n vs k head tail)

theorem of_run {m : BufferM α} [Sequential m] (yields : Yields m Q) {b after : Buffer} {v : α}
    (delivers : b.Delivers) (run : m b = .ok v after) : ∃ n, Q v n := by
  obtain ⟨n, came, -⟩ := outcome_of_ok delivers run
  have holds := yields b.ending b.upcoming v (by rw [came])
  exact ⟨_, holds⟩

theorem trivial (m : BufferM α) : Yields m fun _ _ => True := fun _ _ _ _ => True.intro

end Yields

namespace Uniform

theorem pure (v : α) : Uniform (Pure.pure v) := by
  funext bytes
  simp only [outcome_pure]

theorem throw (e : Error) : Uniform (throw e : BufferM α) := by
  funext bytes
  simp only [outcome_throw]

theorem settle (value : Except Error α) : Uniform (Buffer.settle value) := by
  funext bytes
  simp only [outcome_settle]

theorem unread : Uniform Buffer.unread := by
  funext bytes
  simp only [outcome_unread]

theorem bind {m : BufferM α} {f : α → BufferM β} [Sequential m] [∀ v, Sequential (f v)]
    (first : Uniform m) (next : ∀ v, Uniform (f v)) : Uniform (m >>= f) := by
  funext bytes
  rw [outcome_bind, outcome_bind, first]
  congr
  funext v n
  exact congrFun (next v) _

theorem map {m : BufferM α} {f : α → β} [Sequential m] (first : Uniform m) : Uniform (f <$> m) :=
  bind (f := fun v => (Pure.pure (f v) : BufferM β)) first fun v => pure (f v)

end Uniform

theorem Uniform.agrees {m : BufferM α} (uniform : Uniform m) : Agrees m :=
  fun bytes => .inl (congrFun uniform bytes)

namespace Agrees

theorem pure (v : α) : Agrees (Pure.pure v) := (Uniform.pure v).agrees

theorem bind {m : BufferM α} {f : α → BufferM β} [Sequential m] [∀ v, Sequential (f v)]
    (first : Agrees m) (next : ∀ v, Agrees (f v)) : Agrees (m >>= f) := by
  intro bytes
  rw [outcome_bind, outcome_bind]
  rcases first bytes with same | ⟨⟨length, available, refused⟩, e, failed⟩
  · rw [same]
    obtain ⟨result, n⟩ := outcome m .unknown bytes
    cases result with
    | error e => exact .inl rfl
    | ok v =>
      simp only [Reading.andThen_ok]
      rcases next v (bytes.drop n) with same | differ
      · rw [same]
        exact .inl rfl
      · exact .inr differ
  · refine .inr ⟨⟨length, available, ?_⟩, e, ?_⟩
    · simp only [Reading.andThen, refused]
    · simp only [Reading.andThen, failed]

theorem map {m : BufferM α} {f : α → β} [Sequential m] (first : Agrees m) : Agrees (f <$> m) :=
  bind (f := fun v => (Pure.pure (f v) : BufferM β)) first fun v => pure (f v)

theorem cons {m : BufferM α} {more : BufferM (List α)} [Sequential m] [Sequential more]
    (first : Agrees m) (rest : Agrees more) :
    Agrees (m >>= fun v => more >>= fun vs => Pure.pure (v :: vs)) :=
  first.bind fun _ => rest.bind fun _ => pure _

theorem ok_iff {m : BufferM α} (agrees : Agrees m) (bytes : List UInt8) (v : α) (n : Nat) :
    outcome m .known bytes = ⟨.ok v, n⟩ ↔ outcome m .unknown bytes = ⟨.ok v, n⟩ := by
  rcases agrees bytes with same | ⟨⟨length, available, refused⟩, e, failed⟩
  · rw [same]
  · constructor
    · intro h
      rw [h] at refused
      cases refused
    · intro h
      rw [h] at failed
      cases failed

theorem error_unknown {m : BufferM α} (agrees : Agrees m) {bytes : List UInt8} {e : Error} {n : Nat}
    (failed : outcome m .known bytes = ⟨.error e, n⟩)
    (other : ∀ length available, e ≠ .lengthExceedsInput length available) :
    outcome m .unknown bytes = ⟨.error e, n⟩ := by
  rcases agrees bytes with same | ⟨⟨length, available, refused⟩, -⟩
  · rw [← same, failed]
  · rw [failed] at refused
    exact absurd (Except.error.inj refused) (other length available)

end Agrees

namespace Covers

theorem refl (m : BufferM α) : Covers m m := fun _ _ _ _ h => h

theorem of_eq {other m : BufferM α} (same : outcome other = outcome m) : Covers other m := by
  intro ending bytes v n run
  rwa [same]

theorem trans {first second third : BufferM α} (covers : Covers first second)
    (next : Covers second third) : Covers first third :=
  fun ending bytes v n run => covers ending bytes v n (next ending bytes v n run)

theorem bind {other m : BufferM α} {f g : α → BufferM β} [Sequential other] [Sequential m]
    [∀ v, Sequential (f v)] [∀ v, Sequential (g v)] (first : Covers other m)
    (next : ∀ v, Covers (f v) (g v)) : Covers (other >>= f) (m >>= g) := by
  intro ending bytes w total run
  rw [outcome_bind] at run ⊢
  cases begun : outcome m ending bytes with
  | mk result n =>
    rw [begun] at run
    cases result with
    | error e => cases run
    | ok v =>
      rw [first ending bytes v n begun]
      rw [Reading.andThen_ok] at run ⊢
      cases ended : outcome (g v) ending (bytes.drop n) with
      | mk result k =>
        rw [ended] at run
        cases result with
        | error e => cases run
        | ok u => rwa [next v ending (bytes.drop n) u k ended]

theorem map {other m : BufferM α} [Sequential other] [Sequential m] (f : α → β)
    (covers : Covers other m) : Covers (f <$> other) (f <$> m) :=
  bind (f := fun v => (Pure.pure (f v) : BufferM β)) (g := fun v => Pure.pure (f v)) covers
    fun _ => refl _

theorem cons {other m : BufferM α} {rest more : BufferM (List α)} [Sequential other] [Sequential m]
    [Sequential rest] [Sequential more] (first : Covers other m) (next : Covers rest more) :
    Covers (other >>= fun v => rest >>= fun vs => Pure.pure (v :: vs))
      (m >>= fun v => more >>= fun vs => Pure.pure (v :: vs)) :=
  first.bind fun _ => next.bind fun _ => refl _

end Covers

theorem Decodes.of_covers {other m : BufferM α} {bytes : List UInt8} {v : α}
    (covers : Covers other m) (decodes : Decodes m bytes v) : Decodes other bytes v :=
  fun ending rest => covers ending _ v _ (decodes ending rest)

end BinaryCodec.Buffer
