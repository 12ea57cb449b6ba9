import BinaryCodec.Proofs.Schema.Depth
import BinaryCodec.Proofs.Schema.Structural

namespace BinaryCodec

namespace Buffer

variable {α β : Type}

def Matches (m other : BufferM α) : Prop := ∀ b, b.TellsRest → m b = other b

def Follows (m other : BufferM α) : Prop :=
  ∀ b v after, b.TellsRest → m b = .ok v after → other b = .ok v after ∧ after.TellsRest

structure Replaceable (rel : ∀ {α : Type}, BufferM α → BufferM α → Prop) : Prop where
  of_matches {α : Type} {m other : BufferM α} (forward : Forward m) (same : Matches m other) :
    rel m other
  bind {α β : Type} {m other : BufferM α} {f g : α → BufferM β} (first : rel m other)
    (next : ∀ v, rel (f v) (g v)) : rel (m >>= f) (other >>= g)

theorem Follows.bind {m other : BufferM α} {f g : α → BufferM β} (first : Follows m other)
    (next : ∀ v, Follows (f v) (g v)) : Follows (m >>= f) (other >>= g) := by
  intro b w after tells run
  rw [bind_apply] at run ⊢
  cases began : m b with
  | error e middle => rw [began] at run; cases run
  | ok v middle =>
    rw [began] at run
    obtain ⟨same, further⟩ := first b v middle tells began
    rw [same]
    exact next v middle w after further run

theorem replaceable_follows : Replaceable Follows where
  of_matches {_ m other} forward same := by
    intro b v after tells run
    obtain ⟨k, within, rfl⟩ := forward.advance_of_run b after v run
    rw [same b tells] at run
    exact ⟨run, tells.advance within⟩
  bind := .bind

theorem replaceable_followed : Replaceable fun m other => Follows other m where
  of_matches {_ m other} forward same := by
    intro b v after tells run
    rw [← same b tells] at run
    obtain ⟨k, within, rfl⟩ := forward.advance_of_run b after v run
    exact ⟨run, tells.advance within⟩
  bind := .bind

namespace Replaceable

variable {rel : ∀ {α : Type}, BufferM α → BufferM α → Prop} (replaceable : Replaceable rel)
include replaceable

theorem refl (m : BufferM α) [forward : Forward m] : rel m m :=
  replaceable.of_matches forward fun _ _ => rfl

theorem map {m other : BufferM α} (f : α → β) (first : rel m other) : rel (f <$> m) (f <$> other) :=
  replaceable.bind (f := fun v => pure (f v)) (g := fun v => pure (f v)) first
    fun v => replaceable.refl (pure (f v))

theorem cons {m other : BufferM α} {rest more : BufferM (List α)} (first : rel m other)
    (next : rel rest more) :
    rel (m >>= fun v => rest >>= fun vs => pure (v :: vs))
      (other >>= fun v => more >>= fun vs => pure (v :: vs)) :=
  replaceable.bind first fun v => replaceable.bind next fun vs => replaceable.refl (pure (v :: vs))

theorem items {m other : BufferM Value} (each : rel m other) (count : Nat) :
    rel (Message.readItems m count) (Message.readItems other count) := by
  induction count with
  | zero => exact replaceable.refl (pure [])
  | succ count ih => exact replaceable.cons each ih

end Replaceable

end Buffer

open Buffer

section bytes

variable {b : Buffer} {count : Nat}

theorem Message.readItems_within (tells : b.TellsRest) (within : count ≤ b.upcoming.length) :
    readItems (Method.read .u8) count b =
      .ok (Schema.numbers (b.upcoming.take count)) (b.advance count) := by
  induction count generalizing b with
  | zero =>
    rw [advance_zero]
    rfl
  | succ count ih =>
    cases starts : b.upcoming with
    | nil =>
      rw [starts] at within
      cases within
    | cons byte rest =>
      rw [starts, List.length_cons] at within
      have further : (b.advance 1).TellsRest := tells.advance (by rw [starts, List.length_cons]; omega)
      have left : (b.advance 1).upcoming = rest := by
        rw [upcoming_advance, starts]
        rfl
      have more := ih further (by rw [left]; omega)
      have first : Method.read .u8 b = .ok (.int byte.toNat) (b.advance 1) := by
        change ((fun b : UInt8 => Value.int b.toNat) <$> readByte) b = _
        rw [map_eq_pure_bind, bind_apply, readByte_within tells starts]
        rfl
      rw [readItems_succ, bind_apply, first]
      simp only [bind_apply, more, left, advance_advance]
      rw [Nat.add_comm 1 count]
      rfl

theorem matches_bytes :
    Matches
      (readLength 1 >>= fun count => .list <$> Message.readItems (Method.read .u8) count)
      (readLength 1 >>= fun count => Value.list <$> Schema.numbers <$> readBytes count) := by
  intro b tells
  rw [bind_apply, bind_apply]
  cases came : readLength 1 b with
  | error e after => rfl
  | ok count after =>
    obtain ⟨further, fits, room⟩ := room_of_readLength tells came
    have there : count ≤ after.upcoming.length := by
      have bound := Word.le_last_iff.mpr fits
      unfold needed at room
      omega
    simp only [map_eq_pure_bind, bind_apply, Message.readItems_within further there,
      readBytes_within further there]
    rfl

end bytes

structure Registry.Compiled (registry : Registry) : Prop where
  coherent : registry.Coherent
  shapes (name : String) (shape : Shape) (declared : registry.shape? name = some shape) :
    (∃ steps, shape = .message steps) ∨ ∃ names, shape = .choices names

namespace Schema

variable {registry : Registry} {message declared : String → BufferM Value}

theorem eq_call_of_schema {move : Move} (byte : move.schema = .integer .u8) : move = .call .u8 := by
  cases move with
  | call method => cases method <;> first | rfl | cases byte
  | message name | choice name => cases byte

section steps

variable {rel : ∀ {α : Type}, BufferM α → BufferM α → Prop} (replaceable : Replaceable rel)
include replaceable

theorem rel_decodeStep {step : Step} (coherent : step.Coherent registry)
    (moves : rel (Message.decodeMove registry message step.read)
      (decodeWith registry.structural declared step.item)) :
    rel (Message.decodeStep registry message step)
      (decodeWith registry.structural declared step.schema) := by
  unfold Step.schema
  cases repeated : step.repeated with
  | false =>
    rw [Message.decodeStep_single repeated]
    exact moves
  | true =>
    rw [Message.decodeStep_repeated repeated, if_pos rfl, decodeWith_sequence, minSize_structural]
    cases byte : step.item.isByte with
    | false =>
      simp only [readSequence_of_not_isByte byte]
      refine replaceable.bind (replaceable.refl (readLength _)) fun count => ?_
      exact replaceable.map _ (replaceable.items moves count)
    | true =>
      -- Here alone the two differ: a statement reads byte by byte, a schema all bytes at once.
      have item := isByte_iff.mp byte
      have call : step.read = .call .u8 := eq_call_of_schema (coherent.read_schema.trans item)
      simp only [item, call]
      have forward : Forward (readLength 1 >>= fun count =>
          Value.list <$> Message.readItems (Method.read .u8) count) := inferInstance
      exact replaceable.of_matches forward matches_bytes

theorem rel_decodeSteps {steps : List Step} (coherent : ∀ step ∈ steps, step.Coherent registry)
    (moves : ∀ step ∈ steps, rel (Message.decodeMove registry message step.read)
      (decodeWith registry.structural declared step.item)) :
    rel (Message.decodeSteps registry message steps)
      (decodeFields registry.structural declared (steps.map Step.toField)) := by
  induction steps with
  | nil => exact replaceable.refl (pure [])
  | cons step rest ih =>
    have more := ih (fun step member => coherent step (List.mem_cons_of_mem _ member))
      fun step member => moves step (List.mem_cons_of_mem _ member)
    have first := rel_decodeStep replaceable (coherent step (List.mem_cons_self ..))
      (moves step (List.mem_cons_self ..))
    rw [Message.decodeSteps_cons, List.map_cons, decodeFields_cons]
    exact replaceable.cons first more

theorem rel_decodeNamed (compiled : registry.Compiled) {fuel more : Nat}
    (messages : ∀ name, rel (decodeNamed registry fuel name) (decodeNamed registry.structural more name))
    (choices : ∀ name names, registry.shape? name = some (.choices names) →
      rel (Message.readChoice names.length) (decodeNamed registry.structural more name))
    (name : String) :
    rel (decodeNamed registry (fuel + 1) name) (decodeNamed registry.structural (more + 1) name) := by
  have restated := Registry.shape?_structural registry name
  cases found : registry.shape? name with
  | none =>
    rw [found] at restated
    rw [decodeNamed_undeclared found, decodeNamed_undeclared restated]
    exact replaceable.refl _
  | some shape =>
    rw [found] at restated
    rcases compiled.shapes name shape found with message | plain
    · obtain ⟨steps, rfl⟩ := message
      rw [decodeNamed_message found, decodeNamed_record restated]
      have coherent := compiled.coherent name steps found
      refine replaceable.map _ (rel_decodeSteps replaceable coherent ?_)
      intro step member
      have fits := coherent step member
      have known := fits.read_declared
      rw [← fits.read_schema]
      cases read : step.read with
      | call method =>
        change rel method.read _
        rw [Move.schema, ← read_eq_decodeWith]
        exact replaceable.refl _
      | message name => exact messages name
      | choice name =>
        -- A statement reads the number in place, a schema looks the enumeration up first.
        rw [read] at known
        obtain ⟨names, plain⟩ := known
        simp only [Message.decodeMove, Message.choiceCount, plain]
        exact choices name names plain
    · obtain ⟨names, rfl⟩ := plain
      rw [decodeNamed_choices found, decodeNamed_choices restated]
      exact replaceable.refl _

end steps

variable (compiled : registry.Compiled)
include compiled

theorem follows_message (fuel : Nat) (name : String) :
    Follows (decodeNamed registry.structural fuel name) (decodeNamed registry fuel name) := by
  induction fuel generalizing name with
  | zero =>
    intro b v after tells run
    cases run
  | succ fuel ih =>
    refine rel_decodeNamed replaceable_followed compiled ih ?_ name
    intro name names plain
    cases fuel with
    | zero =>
      intro b v after tells run
      cases run
    | succ fuel =>
      rw [decodeNamed_choices (Registry.shape?_structural_of_shape? plain)]
      exact replaceable_follows.refl _

theorem follows_record (fuel : Nat) (name : String) :
    Follows (decodeNamed registry fuel name) (decodeNamed registry.structural (fuel + 1) name) := by
  induction fuel generalizing name with
  | zero =>
    intro b v after tells run
    cases run
  | succ fuel ih =>
    refine rel_decodeNamed replaceable_follows compiled ih ?_ name
    intro name names plain
    rw [decodeNamed_choices (Registry.shape?_structural_of_shape? plain)]
    exact replaceable_follows.refl _

theorem decode_structural (name : String) {b after : Buffer} (tells : b.TellsRest) {v : Value} :
    decode registry (.named name) b = .ok v after ↔
      decode registry.structural (.named name) b = .ok v after := by
  rw [decode_eq_ok, decode_eq_ok]
  constructor
  · intro run
    obtain ⟨fuel, run⟩ := run
    exact ⟨fuel + 1, (follows_record compiled fuel name b v after tells run).1⟩
  · intro run
    obtain ⟨fuel, run⟩ := run
    exact ⟨fuel, (follows_message compiled fuel name b v after tells run).1⟩

end Schema

end BinaryCodec
