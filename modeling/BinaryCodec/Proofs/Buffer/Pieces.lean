import BinaryCodec.Proofs.Buffer.Reading

namespace BinaryCodec.Buffer

variable {b : Buffer}

theorem read_eq (supplies : b.Supplies) {n : Nat} (positive : 0 < n) :
    (∃ fault, b.upcoming = [] ∧ b.ending = .failing fault ∧ read n b = .error (.io fault) b) ∨
    ∃ k, k ≤ n ∧ k ≤ b.upcoming.length ∧ (b.upcoming ≠ [] → 0 < k) ∧
      (b.upcoming = [] → b.ending.fault? = none) ∧
      read n b = .ok (b.upcoming.take k) (b.advance k) := by
  obtain ⟨store, bits⟩ := b
  rcases Store.read_delivers supplies positive with
    ⟨fault, empty, fails, run⟩ | ⟨k, le, there, some, live, run⟩
  · refine .inl ⟨fault, empty, fails, ?_⟩
    simp only [read, onStore, run]
  · refine .inr ⟨k, le, there, some, live, ?_⟩
    simp only [read, onStore, run, upcoming, advance]

def upTo (n : Nat) (ending : Ending) (bytes : List UInt8) : Reading (List UInt8) :=
  match if bytes.length < n then ending.fault? else none with
  | some fault => ⟨.error (.io fault), bytes.length⟩
  | none => ⟨.ok (bytes.take n), min n bytes.length⟩

theorem upTo_of_live {ending : Ending} (live : ending.fault? = none) (n : Nat) (bytes : List UInt8) :
    upTo n ending bytes = ⟨.ok (bytes.take n), min n bytes.length⟩ := by
  simp only [upTo, live, ite_self]

theorem take_append_take_drop {α : Type} (k n : Nat) (h : k ≤ n) (bytes : List α) :
    bytes.take k ++ (bytes.drop k).take (n - k) = bytes.take n := by
  rw [show n = k + (n - k) by omega, List.take_add, Nat.add_sub_cancel_left]

theorem readUpTo_eq (supplies : b.Supplies) (n : Nat) :
    readUpTo n b = b.conclude (upTo n b.ending b.upcoming) := by
  -- The rest of the piece is read from where the first read stopped.
  induction n using Nat.strongRecOn generalizing b with
  | ind n ih =>
    rw [readUpTo]
    by_cases zero : n = 0
    · subst zero
      simp [upTo]
      rfl
    · simp only [zero, dite_false]
      rw [bind_apply]
      rcases read_eq supplies (Nat.pos_of_ne_zero zero) with
        ⟨fault, empty, fails, run⟩ | ⟨k, le, there, some, live, run⟩
      · simp [run, upTo, empty, fails, Nat.pos_of_ne_zero zero]
      · rw [run]
        simp only [List.length_take]
        by_cases stop : min k b.upcoming.length = 0
        · have empty : b.upcoming = [] := by
            by_cases h : b.upcoming = []
            · exact h
            · have := some h
              omega
          have stays : k = 0 := by omega
          simp [empty, stays, upTo_of_live (live empty)]
          rfl
        · simp only [stop, dite_false]
          rw [bind_apply, show min k b.upcoming.length = k by omega,
            ih (n - k) (by omega) (supplies.advance k), ending_advance, upcoming_advance]
          have short : b.upcoming.length - k < n - k ↔ b.upcoming.length < n := by omega
          simp only [upTo, List.length_drop, short]
          cases if b.upcoming.length < n then b.ending.fault? else none with
          | some fault =>
            simp only [conclude_error, advance_advance]
            congr 2
            omega
          | none =>
            simp only [conclude_ok, advance_advance]
            rw [← take_append_take_drop k n le b.upcoming,
              show k + min (n - k) (b.upcoming.length - k) = min n b.upcoming.length by omega]
            rfl

theorem performs_readUpTo (n : Nat) : Performs (readUpTo n) (upTo n) where
  run _ delivers := readUpTo_eq delivers.supplies n
  used_le ending bytes := by
    unfold upTo
    split
    · exact Nat.le_refl _
    · exact Nat.min_le_right _ _

instance sequential_readUpTo (n : Nat) : Sequential (readUpTo n) := (performs_readUpTo n).sequential

def exactly (n got : Nat) (ending : Ending) (bytes : List UInt8) : Reading (List UInt8) :=
  if got + bytes.length < n then ⟨.error (ending.shortage n (got + bytes.length)), bytes.length⟩
  else ⟨.ok (bytes.take (n - got)), n - got⟩

theorem used_exactly_le (n got : Nat) (ending : Ending) (bytes : List UInt8) :
    (exactly n got ending bytes).used ≤ bytes.length := by
  unfold exactly
  split
  · exact Nat.le_refl _
  · simp only
    omega

theorem readExact_eq (supplies : b.Supplies) (n : Nat) :
    readExact n b = b.conclude (exactly n 0 b.ending b.upcoming) := by
  simp only [readExact]
  rw [bind_apply, readUpTo_eq supplies]
  unfold upTo exactly
  by_cases short : b.upcoming.length < n
  · cases fails : b.ending.fault? with
    | some fault => simp [short, fails, Ending.shortage]
    | none =>
      have all : min n b.upcoming.length = b.upcoming.length := by omega
      simp [short, fails, Ending.shortage, all]
      rfl
  · have all : min n b.upcoming.length = n := by omega
    simp [short, all]
    rfl

theorem performs_readExact (n : Nat) : Performs (readExact n) (exactly n 0) where
  run _ delivers := readExact_eq delivers.supplies n
  used_le := used_exactly_le n 0

instance sequential_readExact (n : Nat) : Sequential (readExact n) :=
  (performs_readExact n).sequential

theorem readRest_eq (supplies : b.Supplies) (n got : Nat) :
    readRest n got b = b.conclude (exactly n got b.ending b.upcoming) := by
  -- As for `readUpTo_eq`, by the number of bytes that are missing.
  induction missing : n - got using Nat.strongRecOn generalizing b got with
  | ind m ih =>
    rw [readRest]
    by_cases more : got < n
    · simp only [more, dite_true]
      rw [bind_apply]
      have positive : 0 < min (n - got) chunkSize := by
        simp only [chunkSize]
        omega
      rcases read_eq supplies positive with
        ⟨fault, empty, fails, run⟩ | ⟨k, le, there, some, live, run⟩
      · simp [run, exactly, empty, fails, more, Ending.shortage]
      · rw [run]
        simp only [List.length_take]
        by_cases stop : min k b.upcoming.length = 0
        · have empty : b.upcoming = [] := by
            by_cases h : b.upcoming = []
            · exact h
            · have := some h
              omega
          have stays : k = 0 := by omega
          simp [empty, stays, exactly, live empty, more, Ending.shortage]
          rfl
        · simp only [stop, dite_false]
          rw [bind_apply, show min k b.upcoming.length = k by omega,
            ih (n - (got + k)) (by omega) (supplies.advance k) (got + k) rfl, ending_advance,
            upcoming_advance]
          have total : got + k + (b.upcoming.length - k) = got + b.upcoming.length := by omega
          simp only [exactly, List.length_drop, total]
          by_cases short : got + b.upcoming.length < n
          · simp only [short, if_true, conclude_error, advance_advance]
            congr 2
            omega
          · simp only [short, if_false, conclude_ok, advance_advance]
            rw [← take_append_take_drop k (n - got) (by omega) b.upcoming, Nat.sub_add_eq,
              show k + (n - got - k) = n - got by omega]
            rfl
    · have done : n - got = 0 := by omega
      simp only [more, dite_false, exactly, done]
      rw [if_neg (by omega), conclude_ok, advance_zero]
      rfl

theorem readBytes_eq (supplies : b.Supplies) (n : Nat) :
    readBytes n b = b.conclude (exactly n 0 b.ending b.upcoming) := readRest_eq supplies n 0

theorem performs_readBytes (n : Nat) : Performs (readBytes n) (exactly n 0) where
  run _ delivers := readBytes_eq delivers.supplies n
  used_le := used_exactly_le n 0

instance sequential_readBytes (n : Nat) : Sequential (readBytes n) :=
  (performs_readBytes n).sequential

def whole (ending : Ending) (bytes : List UInt8) : Reading (List UInt8) :=
  match ending.fault? with
  | some fault => ⟨.error (.io fault), bytes.length⟩
  | none => ⟨.ok bytes, bytes.length⟩

theorem whole_of_live {ending : Ending} (live : ending.fault? = none) (bytes : List UInt8) :
    whole ending bytes = ⟨.ok bytes, bytes.length⟩ := by
  simp only [whole, live]

theorem readChunks_eq {fuel : Nat} (supplies : b.Supplies) (enough : b.upcoming.length < fuel) :
    readChunks fuel b = b.conclude (whole b.ending b.upcoming) := by
  induction fuel generalizing b with
  | zero => omega
  | succ fuel ih =>
    simp only [readChunks]
    rw [bind_apply]
    rcases read_eq supplies (show 0 < chunkSize by decide) with
      ⟨fault, empty, fails, run⟩ | ⟨k, -, there, some, live, run⟩
    · simp [run, whole, empty, fails]
    · rw [run]
      by_cases empty : b.upcoming = []
      · have stays : k = 0 := by simpa [empty] using there
        simp [empty, stays, whole_of_live (live empty)]
        rfl
      · have moves := some empty
        have filled : (b.upcoming.take k).isEmpty = false := by
          rw [List.isEmpty_eq_false_iff, ← List.length_pos_iff, List.length_take]
          omega
        have left : (b.advance k).upcoming.length < fuel := by
          rw [upcoming_advance, List.length_drop]
          omega
        simp only [filled, Bool.false_eq_true, if_false]
        rw [bind_apply, ih (supplies.advance k) left, ending_advance, upcoming_advance]
        have total : k + (b.upcoming.length - k) = b.upcoming.length := by omega
        have pieces : b.upcoming.take k ++ b.upcoming.drop k = b.upcoming :=
          List.take_append_drop k b.upcoming
        cases fails : b.ending.fault? with
        | some fault =>
          simp only [whole, fails, conclude_error, advance_advance, List.length_drop, total]
        | none =>
          simp only [whole, fails, conclude_ok, advance_advance, List.length_drop, total]
          change EStateM.Result.ok (b.upcoming.take k ++ b.upcoming.drop k) _ = _
          rw [pieces]

theorem readRemainder_eq (supplies : b.Supplies) :
    readRemainder b = b.conclude (whole b.ending b.upcoming) := by
  unfold readRemainder
  rw [bind_apply, unread_apply]
  exact readChunks_eq supplies (Nat.lt_succ_self _)

theorem performs_readRemainder : Performs readRemainder whole where
  run _ delivers := readRemainder_eq delivers.supplies
  used_le ending bytes := by
    unfold whole
    split <;> exact Nat.le_refl _

theorem outcome_readExact (n : Nat) : outcome (readExact n) = exactly n 0 :=
  (performs_readExact n).outcome_eq

theorem outcome_readBytes (n : Nat) : outcome (readBytes n) = exactly n 0 :=
  (performs_readBytes n).outcome_eq

theorem outcome_readUpTo (n : Nat) : outcome (readUpTo n) = upTo n :=
  (performs_readUpTo n).outcome_eq

instance sequential_readByte : Sequential readByte :=
  inferInstanceAs (Sequential (readExact 1 >>= fun bytes => pure (bytes.headD 0)))

theorem outcome_readByte_cons (ending : Ending) (byte : UInt8) (rest : List UInt8) :
    outcome readByte ending (byte :: rest) = ⟨.ok byte, 1⟩ := by
  unfold readByte
  simp [outcome_map, outcome_readExact, exactly]

theorem outcome_readByte_nil (ending : Ending) :
    outcome readByte ending [] = ⟨.error (ending.shortage 1 0), 0⟩ := by
  unfold readByte
  simp [outcome_map, outcome_readExact, exactly]

end BinaryCodec.Buffer
