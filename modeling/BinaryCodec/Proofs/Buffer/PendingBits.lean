import BinaryCodec.Proofs.Buffer.History

namespace BinaryCodec

open Buffer

def Buffer.KeepsBits {α : Type} (m : BufferM α) : Prop :=
  ∀ b : Buffer, (settled (m b)).2.bits = b.bits

theorem Buffer.Guarded.keepsBits {α : Type} {tell : Error → Error} {m : BufferM α}
    (guarded : Guarded true false tell m) : KeepsBits m := by
  intro b
  have kept := guarded.confined.bits_run b
  rwa [guarded.run_program] at kept

def PendingBits.push (order : BitOrder) (bit : Bool) (bits : PendingBits) : PendingBits :=
  let byte := if bit then setBit bits.writeByte (order.place (8 - bits.free)) else bits.writeByte
  if bits.free = 1 then { bits with writeByte := 0, free := 8 }
  else { bits with writeByte := byte, free := bits.free - 1 }

namespace Buffer

variable {b : Buffer}

theorem bits_writeBit (order : BitOrder) (bit : Bool) :
    (settled (writeBit order bit b)).2.bits = b.bits.push order bit := by
  unfold writeBit PendingBits.push
  rw [bind_apply, get_apply]
  by_cases last : b.bits.free = 1
  · simp only [last, if_true]
    exact (guarded_writeByte _).keepsBits ⟨b.store, _⟩
  · simp only [last, if_false]
    rfl

theorem bits_flushBits : (settled (flushBits b)).2.bits = .none := by
  rw [flushBits_apply]
  have guarded : Guarded true false id (if b.bits.free < 8 then writeByte b.bits.writeByte else pure ()) :=
    inferInstance
  exact guarded.keepsBits ⟨b.store, .none⟩

theorem bits_erase : (settled (erase b)).2.bits = .none :=
  guarded_eraseStore.keepsBits ⟨b.store, .none⟩

theorem bits_finish : (settled (finish b)).2.bits = .none := by
  have flushed := bits_flushBits (b := b)
  unfold finish
  rw [bind_apply]
  cases came : flushBits b with
  | error e after =>
    rw [came] at flushed
    exact flushed
  | ok _ after =>
    rw [came] at flushed
    exact (guarded_contents.keepsBits after).trans flushed

theorem readBit_cases (order : BitOrder) (b : Buffer) :
    (∃ e after, readBit order b = .error e after ∧ after.bits = b.bits) ∨
      ∃ bit after, readBit order b = .ok bit after ∧ after.bits.free = b.bits.free ∧
        after.bits.used = (if 8 ≤ b.bits.used then 0 else b.bits.used) + 1 := by
  rw [readBit_eq, bind_apply, get_apply]
  by_cases done : 8 ≤ b.bits.used
  · simp only [done, if_true]
    rw [bind_apply]
    have kept := guarded_readByte.keepsBits b
    cases came : readByte b with
    | error e after =>
      rw [came] at kept
      exact .inl ⟨e, after, rfl, kept⟩
    | ok byte after =>
      rw [came] at kept
      have free : after.bits.free = b.bits.free := congrArg PendingBits.free kept
      exact .inr ⟨_, _, rfl, free, rfl⟩
  · simp only [done, if_false]
    exact .inr ⟨_, _, rfl, rfl, rfl⟩

end Buffer

namespace BufferRequest

/-- The requests that work on the pending bits. -/
inductive OnBits : BufferRequest → Prop
  | writeBit (order : BitOrder) (bit : Bool) : OnBits (.write (.bit order bit))
  | readBit (order : BitOrder) : OnBits (.read (.bit order))
  | flushBits : OnBits (.write .flushBits)
  | finish : OnBits (.read .finish)
  | erase : OnBits (.write .erase)

theorem onBits_or_keeps (request : BufferRequest) : request.OnBits ∨ KeepsBits request.perform := by
  cases request with
  | call c => exact .inr (guarded_call c).keepsBits
  | streamRead n => exact .inr (guarded_streamRead n).keepsBits
  | streamFlush => exact .inr guarded_streamFlush.keepsBits
  | read request =>
    cases request with
    | bit order => exact .inl (.readBit order)
    | finish => exact .inl .finish
    | available => exact .inr fun _ => rfl
    | stream n => exact .inr (guarded_streamReadExact n).keepsBits
    | _ =>
      refine .inr (@Guarded.keepsBits _ id _ ?_)
      delta perform ReadRequest.perform
      infer_instance
  | write request =>
    cases request with
    | bit order value => exact .inl (.writeBit order value)
    | flushBits => exact .inl .flushBits
    | erase => exact .inl .erase
    | stream bytes => exact .inr (guarded_streamWrite bytes).keepsBits
    | _ =>
      refine .inr (@Guarded.keepsBits _ id _ ?_)
      delta perform WriteRequest.perform
      infer_instance

end BufferRequest

end BinaryCodec
