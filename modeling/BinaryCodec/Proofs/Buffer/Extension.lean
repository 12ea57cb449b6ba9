import BinaryCodec.Proofs.Buffer.Text

namespace BinaryCodec.Buffer

variable {α β : Type}

def Outlasts (other m : BufferM α) : Prop :=
  ∀ ending bytes v n, outcome m ending bytes = ⟨.ok v, n⟩ →
    ∀ rest, outcome other ending (bytes ++ rest) = ⟨.ok v, n⟩

abbrev Stable (m : BufferM α) : Prop := Outlasts m m

namespace Outlasts

theorem of_eq {other m later : BufferM α} (same : outcome other = outcome m)
    (outlasts : Outlasts later other) : Outlasts later m := by
  intro ending bytes v n run
  rw [← same] at run
  exact outlasts ending bytes v n run

theorem pure (v : α) : Stable (Pure.pure v) := by
  intro ending bytes w n run rest
  rw [outcome_pure] at run ⊢
  exact run

theorem throw (other : BufferM α) (e : Error) : Outlasts other (throw e) := by
  intro ending bytes v n run
  rw [outcome_throw] at run
  cases run

theorem settle (value : Except Error α) : Stable (Buffer.settle value) := by
  cases value with
  | ok v => exact pure v
  | error e => exact throw _ e

theorem bind {other m : BufferM α} {f g : α → BufferM β} [Sequential other] [Sequential m]
    [∀ v, Sequential (f v)] [∀ v, Sequential (g v)] (first : Outlasts other m)
    (next : ∀ v, Outlasts (f v) (g v)) : Outlasts (other >>= f) (m >>= g) := by
  intro ending bytes w total run rest
  rw [outcome_bind] at run ⊢
  cases begun : outcome m ending bytes with
  | mk result n =>
    rw [begun] at run
    cases result with
    | error e => cases run
    | ok v =>
      have within : n ≤ bytes.length := by
        have used := Sequential.used_le (m := m) ending bytes
        rwa [begun] at used
      rw [Reading.andThen_ok] at run
      cases ended : outcome (g v) ending (bytes.drop n) with
      | mk result k =>
        rw [ended] at run
        cases result with
        | error e => cases run
        | ok u =>
          rw [first ending bytes v n begun rest, Reading.andThen_ok,
            List.drop_append_of_le_length within, next v ending _ u k ended rest]
          exact run

theorem map {other m : BufferM α} [Sequential other] [Sequential m] (f : α → β)
    (outlasts : Outlasts other m) : Outlasts (f <$> other) (f <$> m) :=
  bind (f := fun v => (Pure.pure (f v) : BufferM β)) (g := fun v => Pure.pure (f v)) outlasts
    fun _ => pure _

theorem cons {other m : BufferM α} {rest more : BufferM (List α)} [Sequential other] [Sequential m]
    [Sequential rest] [Sequential more] (first : Outlasts other m) (next : Outlasts rest more) :
    Outlasts (other >>= fun v => rest >>= fun vs => Pure.pure (v :: vs))
      (m >>= fun v => more >>= fun vs => Pure.pure (v :: vs)) :=
  first.bind fun _ => next.bind fun _ => pure _

theorem unread {f : Nat → BufferM α} [∀ n, Sequential (f n)]
    (outlasts : ∀ m n, n ≤ m → Outlasts (f m) (f n)) : Stable (Buffer.unread >>= f) := by
  intro ending bytes v n run rest
  rw [outcome_unread_bind] at run ⊢
  have longer : bytes.length ≤ (bytes ++ rest).length := by
    rw [List.length_append]
    omega
  exact outlasts _ _ longer ending bytes v n run rest

theorem of_exactly {m : BufferM (List UInt8)} {n : Nat} (same : outcome m = exactly n 0) :
    Stable m := by
  intro ending bytes v k run rest
  rw [same] at run ⊢
  unfold exactly at run ⊢
  split at run
  · cases run
  · next long =>
    rw [Nat.zero_add, Nat.not_lt] at long
    have still : ¬0 + (bytes ++ rest).length < n := by
      rw [List.length_append]
      omega
    rw [Nat.sub_zero] at run ⊢
    rw [if_neg still, List.take_append_of_le_length long]
    exact run

end Outlasts

section numbers

theorem stable_readBytes (n : Nat) : Stable (readBytes n) := .of_exactly (outcome_readBytes n)

theorem stable_readExact (n : Nat) : Stable (readExact n) := .of_exactly (outcome_readExact n)

theorem stable_readByte : Stable readByte := (stable_readExact 1).map _

theorem stable_readGroups (left : Nat) : Stable (readGroups left) := by
  induction left with
  | zero => exact .pure none
  | succ left ih =>
    unfold readGroups
    apply stable_readByte.bind
    intro group
    split
    · exact .pure _
    · exact ih.bind fun _ => .pure _

theorem stable_readUnsigned (bits : Nat) : Stable (readUnsigned bits) := by
  rw [readUnsigned_eq]
  exact (stable_readGroups _).bind fun _ => .settle _

theorem stable_readSigned (bits : Nat) : Stable (readSigned bits) := by
  rw [readSigned_eq]
  exact (stable_readGroups _).bind fun _ => .settle _

theorem stable_checkRoom (itemSize length : Nat) : Stable (checkRoom itemSize length) := by
  intro ending bytes v n run rest
  rw [outcome_checkRoom] at run ⊢
  split at run
  · cases run
  · next room =>
    rw [if_neg]
    · exact run
    · rintro ⟨known, short⟩
      rw [List.length_append] at short
      exact room ⟨known, by omega⟩

theorem stable_readLength (itemSize : Nat) : Stable (readLength itemSize) := by
  rw [readLength_eq]
  apply (stable_readUnsigned 64).bind
  intro length
  exact (stable_checkRoom itemSize length).bind fun _ => .pure length

theorem stable_readLimited : Stable readLimited := (stable_readLength 1).bind stable_readBytes

theorem stable_readFixed (order : ByteOrder) (width : Nat) : Stable (readFixed order width) :=
  (stable_readExact width).map _

theorem stable_readBool : Stable readBool := stable_readByte.map _

theorem stable_readUuid : Stable readUuid := (stable_readExact 16).map _

theorem stable_readDate : Stable readDate := by
  rw [readDate_eq]
  exact (stable_readUnsigned 64).bind fun _ => .settle _

theorem stable_readTime : Stable readTime := (stable_readSigned 64).map _

end numbers

section texts

theorem stable_readString : Stable readString := stable_readLimited.map _

theorem stable_checkCapacity (size : Nat) : Stable (checkCapacity size) := by
  unfold checkCapacity
  split
  · exact .pure ()
  · exact .throw _ _

theorem stable_readFixedString (width : Nat) : Stable (readFixedString width) :=
  (stable_readBytes width).bind fun _ => (stable_checkCapacity width).bind fun _ => .pure _

end texts

end BinaryCodec.Buffer
