import BinaryCodec.Proofs.Buffer.Number
import BinaryCodec.Proofs.Buffer.Writing
import BinaryCodec.Proofs.Buffer.ZeroFill

namespace BinaryCodec.Buffer

variable {α β : Type} {b : Buffer} {n bits : Nat} {bytes front back : List UInt8}

def Puts (m : BufferM Unit) (bytes : List UInt8) : Prop :=
  ∀ b, b.Accepts → m b = .ok () (b.written bytes)

theorem puts_writeBytes (bytes : List UInt8) : Puts (writeBytes bytes) bytes := fun _ accepts =>
  writeBytes_eq accepts bytes

section readable

def Readable (b : Buffer) : Prop := b.Supplies ∨ b.store.Fills

theorem Supplies.readable (supplies : b.Supplies) : b.Readable := .inl supplies

theorem Supplies.not_fills (supplies : b.Supplies) : ¬b.store.Fills := by
  obtain ⟨store, pending⟩ := b
  cases store with
  | memory m =>
    intro fills
    cases (show m.mode = .short from supplies).symm.trans fills
  | _ => exact id

theorem Readable.advance (readable : b.Readable) (n : Nat) : (b.advance n).Readable :=
  readable.elim (fun supplies => .inl (supplies.advance n)) fun fills => .inr (fills.advance n)

theorem ending_fills (fills : b.store.Fills) : b.ending = .known := by
  obtain ⟨store, pending⟩ := b
  cases store with
  | memory m => rfl
  | _ => exact fills.elim

theorem filled_of_le (enough : n ≤ bytes.length) : filled n bytes = bytes.take n := by
  rw [filled, List.rightpad, List.length_take_of_le enough, Nat.sub_self, List.replicate_zero,
    List.append_nil]

theorem Readable.readExact_eq (readable : b.Readable) (enough : n ≤ b.upcoming.length) :
    readExact n b = .ok (b.upcoming.take n) (b.advance n) := by
  rcases readable with supplies | fills
  · rw [Buffer.readExact_eq supplies, exactly, if_neg (by omega), Nat.sub_zero, conclude_ok]
  · rw [readExact_fills fills, if_neg, filled_of_le enough, Nat.min_eq_left enough]
    rintro ⟨empty, positive⟩
    rw [empty, List.length_nil] at enough
    omega

theorem Readable.readExact_short (readable : b.Readable) (short : b.upcoming.length < n) :
    (b.store.Fills ∧ b.upcoming ≠ [] ∧
      readExact n b = .ok (filled n b.upcoming) (b.advance b.upcoming.length)) ∨
    (b.store.Fills → b.upcoming = []) ∧
      readExact n b =
        .error (b.ending.shortage n b.upcoming.length) (b.advance b.upcoming.length) := by
  rcases readable with supplies | fills
  · refine .inr ⟨fun fills => absurd fills supplies.not_fills, ?_⟩
    rw [Buffer.readExact_eq supplies, exactly, if_pos (by omega), Nat.zero_add, conclude_error]
  · by_cases empty : b.upcoming = []
    · refine .inr ⟨fun _ => empty, ?_⟩
      rw [empty, List.length_nil] at short
      rw [readExact_fills fills, if_pos ⟨empty, short⟩, empty, List.length_nil, advance_zero, ending_fills fills]
      rfl
    · refine .inl ⟨fills, empty, ?_⟩
      rw [readExact_fills fills, if_neg fun neither => empty neither.1, Nat.min_eq_right (Nat.le_of_lt short)]

theorem Readable.readBytes_eq (readable : b.Readable) (enough : n ≤ b.upcoming.length) :
    readBytes n b = .ok (b.upcoming.take n) (b.advance n) := by
  rcases readable with supplies | fills
  · rw [Buffer.readBytes_eq supplies, exactly, if_neg (by omega), Nat.sub_zero, conclude_ok]
  · rw [readBytes, readRest_fills fills, Nat.sub_zero, if_pos (Nat.le_trans enough (le_chunked _)),
      filled_of_le enough, Nat.min_eq_left enough]

end readable

section takes

def Takes (m : BufferM α) (bytes : List UInt8) (v : α) : Prop :=
  ∀ b rest, b.Readable → b.upcoming = bytes ++ rest → m b = .ok v (b.advance bytes.length)

theorem Takes.pure (v : α) : Takes (Pure.pure v) [] v := by
  intro b rest readable upcoming
  rw [List.length_nil, advance_zero]
  rfl

theorem Takes.settle (v : α) : Takes (Buffer.settle (.ok v)) [] v := .pure v

theorem Takes.bind {m : BufferM α} {f : α → BufferM β} {v : α} {w : β} (first : Takes m front v)
    (next : Takes (f v) back w) : Takes (m >>= f) (front ++ back) w := by
  intro b rest readable upcoming
  rw [List.append_assoc] at upcoming
  have left : (b.advance front.length).upcoming = back ++ rest := by
    rw [upcoming_advance, upcoming, List.drop_left]
  have after := next _ rest (readable.advance front.length) left
  rw [advance_advance, ← List.length_append] at after
  rw [bind_apply, first b _ readable upcoming]
  exact after

theorem Takes.bind_pure {m : BufferM α} {f : α → BufferM β} {v : α} {w : β} (first : Takes m bytes v)
    (next : Takes (f v) [] w) : Takes (m >>= f) bytes w := by
  have both := first.bind next
  rwa [List.append_nil] at both

theorem Takes.map {m : BufferM α} {v : α} (f : α → β) (takes : Takes m bytes v) :
    Takes (f <$> m) bytes (f v) := by
  rw [map_eq_pure_bind]
  exact takes.bind_pure (.pure (f v))

theorem takes_readExact (bytes : List UInt8) : Takes (readExact bytes.length) bytes bytes := by
  intro b rest readable upcoming
  have enough : bytes.length ≤ b.upcoming.length := by
    rw [upcoming, List.length_append]
    exact Nat.le_add_right ..
  rw [readable.readExact_eq enough, upcoming, List.take_left]

theorem takes_readBytes (bytes : List UInt8) : Takes (readBytes bytes.length) bytes bytes := by
  intro b rest readable upcoming
  have enough : bytes.length ≤ b.upcoming.length := by
    rw [upcoming, List.length_append]
    exact Nat.le_add_right ..
  rw [readable.readBytes_eq enough, upcoming, List.take_left]

theorem takes_readByte (b : UInt8) : Takes readByte [b] b := by
  have read := (takes_readExact [b]).map fun bytes => bytes.headD 0
  exact read

theorem takes_readGroups {groups : List UInt8} (grouped : Varint.Grouped groups) {left : Nat}
    (enough : groups.length ≤ left) : Takes (readGroups left) groups (some groups) := by
  obtain ⟨continued, last, rfl, all, ends⟩ := grouped
  induction continued generalizing left with
  | nil =>
    obtain ⟨left, rfl⟩ := Nat.exists_eq_add_of_le' enough
    unfold readGroups
    apply (takes_readByte last).bind_pure
    rw [if_pos ends]
    exact .pure _
  | cons group continued ih =>
    rw [List.cons_append, List.length_cons] at enough
    obtain ⟨left, rfl⟩ := Nat.exists_eq_succ_of_ne_zero (Nat.ne_zero_of_lt enough)
    obtain ⟨first, others⟩ := List.forall_mem_cons.mp all
    have rest := ih (Nat.le_of_succ_le_succ enough) others
    unfold readGroups
    apply (takes_readByte group).bind
    rw [if_neg (UInt8.not_lt.mpr first)]
    exact rest.map _

theorem takes_readUnsigned {groups : List UInt8} (grouped : Varint.Grouped groups)
    (enough : groups.length ≤ Varint.groupCount bits) {value : Nat}
    (holds : Varint.unsigned? bits groups = .ok value) : Takes (readUnsigned bits) groups value := by
  rw [readUnsigned_eq]
  apply (takes_readGroups grouped enough).bind_pure
  rw [ofGroups, holds]
  exact .settle value

theorem takes_readSigned {groups : List UInt8} (grouped : Varint.Grouped groups)
    (enough : groups.length ≤ Varint.groupCount bits) {value : Int}
    (holds : Varint.signed? bits groups = .ok value) : Takes (readSigned bits) groups value := by
  rw [readSigned_eq]
  apply (takes_readGroups grouped enough).bind_pure
  rw [ofGroups, holds]
  exact .settle value

end takes

end BinaryCodec.Buffer
