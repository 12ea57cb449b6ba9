import BinaryCodec.Proofs.Buffer.Progress
import BinaryCodec.Proofs.Schema.Nesting
import BinaryCodec.Proofs.Schema.Reading
import Mathlib.Data.Nat.Find

namespace BinaryCodec.Schema

open Buffer

variable {α β : Type} {registry : Registry} {fuel : Nat}

def Blocked (registry : Registry) (fuel : Nat) (names : List String) (b : Buffer) : Prop :=
  ∀ name ∈ names, ∀ less ≤ fuel, ∀ v after, decodeNamed registry less name b ≠ .ok v after

/-- A number of declarations that does if `fuel` does, or if all but those of `names` may open before
the first byte, and all of them again after each of `used` bytes. -/
def Enough (registry : Registry) (fuel : Nat) (names : List String) (used more : Nat) : Prop :=
  fuel ≤ more ∨ used * (registry.length + 1) + closed registry names ≤ more

section enough

variable {names : List String} {used more : Nat}

theorem blocked_nil (b : Buffer) : Blocked registry fuel [] b := by
  intro name member
  cases member

theorem Blocked.mono {less : Nat} {b : Buffer} (blocked : Blocked registry fuel names b)
    (fewer : less ≤ fuel) : Blocked registry less names b :=
  fun name member n small => blocked name member n (Nat.le_trans small fewer)

theorem Enough.fewer {first : Nat} (enough : Enough registry fuel names used more)
    (part : first ≤ used) : Enough registry fuel names first more := by
  rcases enough with all | bytes
  · exact .inl all
  · have least := Nat.mul_le_mul_right (registry.length + 1) part
    right
    omega

theorem Enough.next {first rest : Nat} (enough : Enough registry fuel names (first + rest) more)
    (progress : 0 < first) : Enough registry fuel [] rest more := by
  rcases enough with all | bytes
  · exact .inl all
  · have bound := closed_le registry []
    have byte := Nat.mul_le_mul_right (registry.length + 1) progress
    rw [Nat.add_mul] at bytes
    right
    omega

end enough

def Settles (registry : Registry) (fuel : Nat) (m : Nat → BufferM α) : Prop :=
  ∀ names b v after, Blocked registry fuel names b → m fuel b = .ok v after →
    ∃ used, used ≤ b.upcoming.length ∧ after = b.advance used ∧
      ∀ more, Enough registry fuel names used more → m more b = .ok v after

namespace Settles

theorem const (m : BufferM α) [Forward m] : Settles registry fuel fun _ => m := by
  intro names b v after blocked run
  obtain ⟨used, within, ends⟩ := Forward.advance_of_run b after v run
  exact ⟨used, within, ends, fun _ _ => run⟩

theorem bind {m : Nat → BufferM α} {f : Nat → α → BufferM β} (first : Settles registry fuel m)
    (next : ∀ v, Settles registry fuel fun n => f n v) : Settles registry fuel fun n => m n >>= f n := by
  intro names b w after blocked run
  simp only [bind_apply] at run ⊢
  cases began : m fuel b with
  | error e b => rw [began] at run; cases run
  | ok v middle =>
    rw [began] at run
    obtain ⟨k, within, rfl, starts⟩ := first names b v middle blocked began
    -- What is open stays so unless a byte was read.
    have goes : ∃ used, used ≤ (b.advance k).upcoming.length ∧ after = (b.advance k).advance used ∧
        ∀ more, Enough registry fuel names (k + used) more → f more v (b.advance k) = .ok w after := by
      by_cases still : k = 0
      · subst still
        simp only [advance_zero] at run ⊢
        simp only [Nat.zero_add]
        exact next v names b w after blocked run
      · obtain ⟨used, rest, ends, same⟩ := next v [] (b.advance k) w after (blocked_nil _) run
        exact ⟨used, rest, ends, fun more enough => same more (enough.next (Nat.pos_of_ne_zero still))⟩
    obtain ⟨used, rest, rfl, same⟩ := goes
    rw [upcoming_advance, List.length_drop] at rest
    refine ⟨k + used, by omega, advance_advance, ?_⟩
    intro more enough
    rw [starts more (enough.fewer (Nat.le_add_right ..))]
    exact same more enough

theorem map {m : Nat → BufferM α} (f : α → β) (first : Settles registry fuel m) :
    Settles registry fuel fun n => f <$> m n :=
  first.bind (f := fun _ v => pure (f v)) fun v => const (pure (f v))

theorem cons {m : Nat → BufferM α} {rest : Nat → BufferM (List α)} (first : Settles registry fuel m)
    (more : Settles registry fuel rest) :
    Settles registry fuel fun n => m n >>= fun v => rest n >>= fun vs => pure (v :: vs) :=
  first.bind fun v => more.bind (f := fun _ vs => pure (v :: vs)) fun vs => const (pure (v :: vs))

theorem items {m : Nat → BufferM Value} (read : Settles registry fuel m) (count : Nat) :
    Settles registry fuel fun n => Message.readItems (m n) count := by
  induction count with
  | zero => exact const (pure [])
  | succ count ih => exact read.cons ih

theorem sequence {item : Schema} {m : Nat → BufferM Value} (read : Settles registry fuel m)
    (count : Nat) : Settles registry fuel fun n => readSequence item (m n) count := by
  cases byte : item.isByte with
  | true =>
    simp only [readSequence_of_isByte byte]
    exact (const (readBytes count)).map numbers
  | false =>
    simp only [readSequence_of_not_isByte byte]
    exact read.items count

end Settles

section schemas

/-- Reading, with a number of declarations that may open in a row. -/
abbrev reader (registry : Registry) (schema : Schema) (n : Nat) : BufferM Value :=
  decodeWith registry (decodeNamed registry n) schema

variable (named : ∀ name, Settles registry fuel fun n => decodeNamed registry n name)
include named

theorem settles_reader (schema : Schema) : Settles registry fuel (reader registry schema) := by
  induction schema using inductionOn with
  | leaf schema leaf =>
    have same (n : Nat) : reader registry schema n =
        decodeWith registry (fun _ => throw .invalidChar) schema := by
      cases schema <;> first | rfl | cases leaf
    rw [funext same]
    exact .const _
  | sequence kind item ih =>
    exact (Settles.const (readLength _)).bind fun count => (ih.sequence count).map _
  | array count item ih => exact (ih.sequence count).map _
  | set order item ih =>
    exact (Settles.const (readLength _)).bind fun count => (ih.sequence count).map _
  | map order key value keyIh valueIh =>
    refine (Settles.const (readLength _)).bind fun count => ?_
    exact (keyIh.sequence count).bind fun keys => (valueIh.sequence count).map _
  | pointer kind target ih => exact ih
  | option item ih => exact ih.map _
  | tuple items ih =>
    refine Settles.map _ ?_
    induction items with
    | nil => exact .const (pure [])
    | cons item rest more =>
      have first := ih item (List.mem_cons_self ..)
      exact first.cons (more fun item member => ih item (List.mem_cons_of_mem _ member))
  | named name => exact named name

theorem settles_decodeFields (fields : List Field) :
    Settles registry fuel fun n => decodeFields registry (decodeNamed registry n) fields := by
  induction fields with
  | nil => exact .const (pure [])
  | cons field rest ih =>
    simp only [decodeFields_cons]
    refine Settles.cons ?_ ih
    unfold readField
    cases field.skipped with
    | some v => exact .const (pure v)
    | none => exact settles_reader named field.schema

theorem settles_decodeSteps (steps : List Step) :
    Settles registry fuel fun n => Message.decodeSteps registry (decodeNamed registry n) steps := by
  induction steps with
  | nil => exact .const (pure [])
  | cons step rest ih =>
    have read : Settles registry fuel fun n =>
        Message.decodeMove registry (decodeNamed registry n) step.read := by
      cases step.read with
      | call method =>
        have same (n : Nat) : Message.decodeMove registry (decodeNamed registry n) (.call method) =
            reader registry method.schema n := read_eq_decodeWith method
        rw [funext same]
        exact settles_reader named method.schema
      | message name => exact named name
      | choice name =>
        exact .const (Message.readChoice (Message.choiceCount registry name))
    simp only [Message.decodeSteps_cons]
    refine Settles.cons ?_ ih
    cases repeated : step.repeated with
    | false =>
      simp only [Message.decodeStep_single repeated]
      exact read
    | true =>
      simp only [Message.decodeStep_repeated repeated]
      exact (Settles.const (readLength _)).bind fun count => (read.items count).map _

end schemas

section declarations

theorem settles_body {name : String}
    (named : ∀ name, Settles registry fuel fun n => decodeNamed registry n name) :
    Settles registry fuel fun n => decodeNamed registry (n + 1) name := by
  cases found : registry.shape? name with
  | none =>
    simp only [decodeNamed_undeclared found]
    exact .const _
  | some shape =>
    cases shape with
    | record fields =>
      simp only [decodeNamed_record found]
      exact (settles_decodeFields named fields).map _
    | message steps =>
      simp only [decodeNamed_message found]
      exact (settles_decodeSteps named steps).map _
    | choices names =>
      simp only [decodeNamed_choices found]
      exact .const (Message.readChoice names.length)
    | enumeration variants =>
      simp only [decodeNamed_enumeration found]
      refine (Settles.const (readUnsigned 64)).bind fun index => ?_
      unfold readCase
      cases variants[index]? with
      | none => exact .const (throw (.invalidTag index))
      | some variant => exact (settles_decodeFields named variant.fields).map _

theorem exists_least_answer {name : String} {b after : Buffer} {v : Value}
    (run : decodeNamed registry fuel name b = .ok v after) :
    ∃ n ≤ fuel, (∃ w ends, decodeNamed registry n name b = .ok w ends) ∧
      ∀ less < n, ∀ w ends, decodeNamed registry less name b ≠ .ok w ends := by
  have answers : ∃ n, ∃ w ends, decodeNamed registry n name b = .ok w ends := ⟨fuel, v, after, run⟩
  classical
  refine ⟨Nat.find answers, Nat.find_min' answers ⟨v, after, run⟩, Nat.find_spec answers, ?_⟩
  intro less small w ends ran
  exact Nat.find_min answers small ⟨w, ends, ran⟩

theorem declared_of_answer {name : String} {b after : Buffer} {v : Value}
    (run : decodeNamed registry (fuel + 1) name b = .ok v after) :
    ∃ shape, registry.shape? name = some shape := by
  cases found : registry.shape? name with
  | some shape => exact ⟨shape, rfl⟩
  | none =>
    rw [decodeNamed_undeclared found] at run
    cases run

theorem settles_decodeNamed (fuel : Nat) (name : String) :
    Settles registry fuel fun n => decodeNamed registry n name := by
  induction fuel using Nat.strongRecOn generalizing name with
  | ind fuel ih =>
    intro names b v after blocked run
    have fresh : name ∉ names := fun member => blocked name member fuel (Nat.le_refl _) v after run
    obtain ⟨n, bound, ⟨w, ends, least⟩, before⟩ := exists_least_answer run
    cases n with
    | zero => cases least
    | succ n =>
      -- Inside the declaration, its own name is blocked as well.
      have opened : Blocked registry n (name :: names) b := by
        intro other member less small u rest ran
        rcases List.mem_cons.mp member with rfl | member
        · exact before less (by omega) u rest ran
        · exact blocked other member less (by omega) u rest ran
      have body : Settles registry n fun n => decodeNamed registry (n + 1) name :=
        settles_body fun other => ih n (by omega) other
      obtain ⟨used, within, rfl, same⟩ := body (name :: names) b w ends opened least
      obtain ⟨shape, declared⟩ := declared_of_answer least
      have fewer : closed registry (name :: names) < closed registry names :=
        closed_cons_lt declared fresh
      obtain ⟨depth, rfl⟩ : ∃ depth, fuel = depth + 1 := ⟨fuel - 1, by omega⟩
      have again := same depth (.inl (by omega))
      rw [run] at again
      cases again
      refine ⟨used, within, rfl, ?_⟩
      intro more enough
      obtain ⟨left, rfl⟩ : ∃ left, more = left + 1 := by
        refine ⟨more - 1, ?_⟩
        rcases enough with all | bytes <;> omega
      apply same left
      rcases enough with all | bytes
      · left
        omega
      · right
        omega

theorem decode_eq_ok {schema : Schema} {b after : Buffer} {v : Value} :
    decode registry schema b = .ok v after ↔ ∃ n, reader registry schema n b = .ok v after := by
  have same : decode registry schema b =
      reader registry schema (decodeDepth registry b.store.unread) b := rfl
  rw [same]
  constructor
  · intro run
    exact ⟨_, run⟩
  · intro run
    obtain ⟨n, run⟩ := run
    obtain ⟨used, within, -, settled⟩ :=
      settles_reader (settles_decodeNamed n) schema [] b v after (blocked_nil b) run
    apply settled
    right
    have bound := closed_le registry []
    have bytes := Nat.mul_le_mul_right (registry.length + 1) within
    rw [decodeDepth, Store.unread_eq, Nat.add_mul, Nat.one_mul]
    change used * (registry.length + 1) + closed registry [] ≤
      b.upcoming.length * (registry.length + 1) + (registry.length + 1)
    omega

end declarations

end BinaryCodec.Schema
