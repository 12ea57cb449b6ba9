import BinaryCodec.Buffer.Bits
import BinaryCodec.Buffer.ByteStream
import BinaryCodec.Buffer.Digest
import BinaryCodec.Buffer.Search
import BinaryCodec.Proofs.Schema.Reading

namespace BinaryCodec

namespace Buffer

variable {R : Buffer → Buffer → Prop} {α β : Type}

/-- The same answer or the same error, and again related buffers. -/
inductive Alike (R : Buffer → Buffer → Prop) :
    EStateM.Result Error Buffer α → EStateM.Result Error Buffer α → Prop
  | ok (v : α) {b c : Buffer} (related : R b c) : Alike R (.ok v b) (.ok v c)
  | error (e : Error) {b c : Buffer} (related : R b c) : Alike R (.error e b) (.error e c)

class Respects (R : Buffer → Buffer → Prop) (m : BufferM α) : Prop where
  run (b c : Buffer) (related : R b c) : Alike R (m b) (m c)

class Simulation (R : Buffer → Buffer → Prop) : Prop where
  delivers {b c : Buffer} : R b c → b.Delivers ∧ c.Delivers
  upcoming {b c : Buffer} : R b c → b.upcoming = c.upcoming
  ending {b c : Buffer} : R b c → b.ending = c.ending
  readPosition {b c : Buffer} : R b c → b.store.readPosition = c.store.readPosition
  size {b c : Buffer} : R b c → b.store.size = c.store.size
  bits {b c : Buffer} : R b c → b.bits = c.bits
  advance {b c : Buffer} {n : Nat} : R b c → n ≤ b.upcoming.length → R (b.advance n) (c.advance n)
  /-- Bits to read may be others, as long as the written ones stay. -/
  refilled {b c : Buffer} (bits : PendingBits) : R b c → bits.free = b.bits.free →
    R ⟨b.store, bits⟩ ⟨c.store, bits⟩
  seekRead (position : Nat) : Respects R (seekRead position)
  contents : Respects R contents
  flushBits : Respects R flushBits

attribute [instance] Simulation.seekRead Simulation.contents Simulation.flushBits

theorem Simulation.available [Simulation R] {b c : Buffer} (related : R b c) :
    b.store.available = c.store.available := by
  obtain ⟨first, second⟩ := Simulation.delivers related
  have ending : b.store.ending = c.store.ending := Simulation.ending related
  have upcoming : b.store.upcoming = c.store.upcoming := Simulation.upcoming related
  rw [Store.available_eq first, Store.available_eq second, ending, upcoming]

section compose

instance respects_bind (m : BufferM α) (f : α → BufferM β) [first : Respects R m]
    [next : ∀ v, Respects R (f v)] : Respects R (m >>= f) := by
  constructor
  intro b c related
  rw [bind_apply, bind_apply]
  have alike := first.run b c related
  generalize m b = result at alike ⊢
  generalize m c = other at alike ⊢
  cases alike with
  | ok v related => exact (next v).run _ _ related
  | error e related => exact .error e related

instance respects_ite {p : Prop} [Decidable p] (m other : BufferM α) [Respects R m]
    [Respects R other] : Respects R (if p then m else other) := by
  split <;> assumption

instance respects_attempt (m : BufferM α) [inner : Respects R m] : Respects R (attempt m) := by
  constructor
  intro b c related
  have alike := inner.run b c related
  unfold attempt
  generalize m b = result at alike ⊢
  generalize m c = other at alike ⊢
  cases alike with
  | ok v related => exact .ok (Except.ok v) related
  | error e related => exact .ok (Except.error e) related

theorem respects_ask {question : Store → Except Error α}
    (same : ∀ {b c : Buffer}, R b c → question b.store = question c.store) : Respects R (ask question) := by
  constructor
  intro b c related
  unfold ask
  rw [same related]
  cases question c.store with
  | ok v => exact .ok v related
  | error e => exact .error e related

variable [simulation : Simulation R]

instance (priority := low) respects_of_sequential (m : BufferM α) [Sequential m] : Respects R m := by
  constructor
  intro b c related
  obtain ⟨first, second⟩ := simulation.delivers related
  have within := Sequential.used_le (m := m) b.ending b.upcoming
  rw [Sequential.run (m := m) b first, Sequential.run (m := m) c second, ← simulation.ending related,
    ← simulation.upcoming related]
  have moved := simulation.advance related within
  generalize outcome m b.ending b.upcoming = reading at moved
  obtain ⟨result, n⟩ := reading
  cases result with
  | ok v => exact .ok v moved
  | error e => exact .error e moved

instance respects_map (m : BufferM α) (f : α → β) [Respects R m] : Respects R (f <$> m) :=
  inferInstanceAs (Respects R (m >>= fun v => pure (f v)))

theorem respects_bits (f : PendingBits → BufferM α) (goes : ∀ bits, Respects R (f bits)) :
    Respects R (get >>= fun b => f b.bits) := by
  constructor
  intro b c related
  have next := (goes b.bits).run b c related
  rw [bind_apply, bind_apply, get_apply, get_apply]
  dsimp only
  rwa [← simulation.bits related]

theorem respects_refilled {f : PendingBits → PendingBits} (keeps : ∀ bits, (f bits).free = bits.free) :
    Respects R (modify fun b => { b with bits := f b.bits } : BufferM Unit) := by
  constructor
  intro b c related
  have refilled := simulation.refilled (f b.bits) related (keeps b.bits)
  have same : c.bits = b.bits := (simulation.bits related).symm
  have run (d : Buffer) : (modify fun b => { b with bits := f b.bits } : BufferM Unit) d =
    .ok () ⟨d.store, f d.bits⟩ := rfl
  rw [run, run, same]
  exact .ok () refilled

end compose

section operations

variable [simulation : Simulation R]

instance respects_readPosition : Respects R readPosition := respects_ask simulation.readPosition

instance respects_size : Respects R size := respects_ask simulation.size

instance respects_jump (n : Nat) : Respects R (jump n) :=
  inferInstanceAs (Respects R (readPosition >>= fun place => seekRead (min (place + n) maxPosition)))

instance respects_reverse (n : Nat) : Respects R (reverse n) :=
  inferInstanceAs (Respects R (readPosition >>= fun place => seekRead (place - n)))

instance respects_isEmpty : Respects R isEmpty :=
  inferInstanceAs (Respects R (size >>= fun n => pure (n == 0)))

instance respects_readAt (position n : Nat) : Respects R (readAt position n) :=
  inferInstanceAs (Respects R (readPosition >>= fun saved => seekRead position >>= fun _ =>
    attempt (readUpTo n) >>= fun outcome => seekRead saved >>= fun _ => settle outcome))

instance respects_sha512 : Respects R sha512 :=
  inferInstanceAs (Respects R (contents >>= fun bytes => pure (Sha512.digest bytes)))

instance respects_toBase64 : Respects R toBase64 :=
  inferInstanceAs (Respects R (contents >>= fun bytes =>
    pure (String.ofList ((Base64.encode bytes).map fun b => Char.ofNat b.toNat))))

instance respects_readRemainder : Respects R readRemainder :=
  have := performs_readRemainder.sequential
  inferInstance

instance respects_readCharsTo (mark : Char) (fuel : Nat) : Respects R (readCharsTo mark fuel) := by
  induction fuel with
  | zero => exact inferInstanceAs (Respects R (pure []))
  | succ fuel ih =>
    unfold readCharsTo
    have next (c : Except Error Char) : Respects R (match c with
        | .ok c => if c = mark then pure [] else readCharsTo mark fuel >>= fun rest => pure (c :: rest)
        | .error (.endOfData _ _) => pure []
        | .error e => throw e : BufferM (List Char)) := by
      split <;> infer_instance
    exact respects_bind (attempt readChar) _

instance respects_readUntilChar (mark : Char) : Respects R (readUntilChar mark) :=
  inferInstanceAs (Respects R (unread >>= fun n => readCharsTo mark (n + 1) >>= fun chars =>
    pure (String.ofList chars)))

instance respects_readDelimited (mark : UInt8) : Respects R (readDelimited mark) :=
  inferInstanceAs (Respects R (unread >>= fun n => readToMark mark (n + 1) >>= fun bytes =>
    pure (Utf8.decodeOrEmpty bytes)))

instance respects_searchChunks (needle : List UInt8) (fuel : Nat) (window : List UInt8) (start : Nat) :
    Respects R (searchChunks needle fuel window start) := by
  induction fuel generalizing window start with
  | zero => exact inferInstanceAs (Respects R (pure none))
  | succ fuel ih =>
    unfold searchChunks
    have next (bytes : List UInt8) : Respects R
        (let window := window ++ bytes
        match firstMatch? needle window with
        | some i => pure (some (start + i))
        | none =>
          let passed := window.length - min (needle.length - 1) window.length
          searchChunks needle fuel (window.drop passed) (start + passed) : BufferM (Option Nat)) := by
      dsimp only
      split <;> infer_instance
    exact inferInstanceAs (Respects R (readUpTo chunkSize >>= fun bytes =>
      if bytes.isEmpty then pure none else _))

instance respects_find (needle : List UInt8) : Respects R (find needle) :=
  inferInstanceAs (Respects R (readPosition >>= fun start =>
    if needle.isEmpty then pure (some start)
    else unread >>= fun n => searchChunks needle (n + 1) [] start >>= fun found =>
      seekRead start >>= fun _ => pure found))

instance respects_readToToken (token : List UInt8) (fuel : Nat) (got : List UInt8) :
    Respects R (readToToken token fuel got) := by
  induction fuel generalizing got with
  | zero => exact inferInstanceAs (Respects R (pure got))
  | succ fuel ih =>
    have next (bytes : List UInt8) : Respects R (match bytes with
        | b :: _ => readToToken token fuel (b :: got)
        | [] => throw (.endOfData (got.length + 1) got.length) : BufferM (List UInt8)) := by
      split <;> infer_instance
    exact inferInstanceAs (Respects R (if token.isPrefixOf got then pure got
      else readUpTo 1 >>= fun bytes => _))

instance respects_readUntilToken (token : List UInt8) : Respects R (readUntilToken token) :=
  inferInstanceAs (Respects R (if token.isEmpty then pure ""
    else unread >>= fun n => readToToken token.reverse (n + 2) [] >>= fun got =>
      pure (Utf8.decodeOrEmpty (got.drop token.length).reverse)))

instance respects_asStream (m : BufferM α) [Respects R m] : Respects R (asStream m) := by
  unfold asStream
  refine @respects_bind _ _ _ _ _ _ fun result => ?_
  cases result <;> infer_instance

instance respects_streamReadExact (n : Nat) : Respects R (streamReadExact n) := by
  unfold streamReadExact
  infer_instance

def takeBit (order : BitOrder) : BufferM Bool := do
  let bits := (← get).bits
  modify fun b => { b with bits := { bits with used := bits.used + 1 } }
  return bits.readByte.toNat.testBit (order.place bits.used)

theorem takeBit_apply (order : BitOrder) (b : Buffer) :
    takeBit order b = .ok (b.bits.readByte.toNat.testBit (order.place b.bits.used))
      ⟨b.store, { b.bits with used := b.bits.used + 1 }⟩ := rfl

instance respects_takeBit (order : BitOrder) : Respects R (takeBit order) := by
  constructor
  intro b c related
  rw [takeBit_apply, takeBit_apply, ← simulation.bits related]
  exact .ok _ (simulation.refilled _ related rfl)

theorem readBit_eq (order : BitOrder) : readBit order = get >>= fun b =>
    if 8 ≤ b.bits.used then readByte >>= fun byte =>
      (modify fun b => { b with bits := { b.bits with readByte := byte, used := 0 } }) >>= fun _ =>
        takeBit order
    else takeBit order := by
  unfold readBit takeBit
  rfl

instance respects_readBit (order : BitOrder) : Respects R (readBit order) := by
  rw [readBit_eq]
  apply respects_bits fun bits => if 8 ≤ bits.used then readByte >>= fun byte =>
    (modify fun b => { b with bits := { b.bits with readByte := byte, used := 0 } }) >>= fun _ =>
      takeBit order else takeBit order
  intro bits
  have fresh (byte : UInt8) :=
    respects_refilled (R := R) (f := fun bits => { bits with readByte := byte, used := 0 }) fun _ => rfl
  infer_instance

theorem flushBits_apply (b : Buffer) : flushBits b =
    (if b.bits.free < 8 then writeByte b.bits.writeByte else pure ()) ⟨b.store, .none⟩ := rfl

instance respects_finish : Respects R finish :=
  inferInstanceAs (Respects R (flushBits >>= fun _ => contents))

end operations

end Buffer

end BinaryCodec
