import BinaryCodec.Bytes.Hex

namespace BinaryCodec.Hex

def smallDigits : List Char :=
  ['0', '1', '2', '3', '4', '5', '6', '7', '8', '9', 'a', 'b', 'c', 'd', 'e', 'f']

def alphabet : List Char := smallDigits ++ ['A', 'B', 'C', 'D', 'E', 'F']

def numeral (c : Char) : Nat := smallDigits.idxOf c.toLower

/-- Whether `digits` are those of `bytes`, two for each byte and the higher one first. -/
inductive Pairs : (digits : List Char) → (bytes : List UInt8) → Prop
  | nil : Pairs [] []
  | cons {high low : Char} {b : UInt8} {digits : List Char} {bytes : List UInt8}
      (high_mem : high ∈ alphabet) (low_mem : low ∈ alphabet)
      (value : b.toNat = 16 * numeral high + numeral low) (rest : Pairs digits bytes) :
      Pairs (high :: low :: digits) (b :: bytes)

section digit

theorem lt_of_isDigit {c : Char} (h : isDigit c = true) : c.toNat < 128 := by
  simp only [isDigit, Bool.or_eq_true, Bool.and_eq_true, decide_eq_true_eq, Char.le_def,
    UInt32.le_iff_toNat_le, Char.toNat_val, Char.reduceVal, UInt32.reduceToNat] at h
  omega

theorem forall_mem_alphabet {p : Char → Prop} [DecidablePred p]
    (table : (alphabet.all fun c => decide (p c)) = true) : ∀ c ∈ alphabet, p c := fun c mem =>
  of_decide_eq_true (List.all_eq_true.mp table c mem)

theorem isDigit_iff {c : Char} : isDigit c = true ↔ c ∈ alphabet := by
  constructor
  · intro h
    -- Digits are in ASCII, which a table can go through.
    have table : ∀ n < 128, isDigit (Char.ofNat n) = true → Char.ofNat n ∈ alphabet := by decide
    have listed := table c.toNat (lt_of_isDigit h)
    rw [Char.ofNat_toNat] at listed
    exact listed h
  · have digits : ∀ c ∈ alphabet, isDigit c = true := forall_mem_alphabet (by decide)
    exact digits c

theorem value_eq_numeral : ∀ c ∈ alphabet, value c = numeral c := forall_mem_alphabet (by decide)

theorem numeral_lt : ∀ c ∈ alphabet, numeral c < 16 := forall_mem_alphabet (by decide)

theorem digit_numeral : ∀ c ∈ alphabet, digit (numeral c) = c.toLower :=
  forall_mem_alphabet (by decide)

theorem digit_mem : ∀ n < 16, digit n ∈ alphabet := by decide

theorem numeral_digit : ∀ n < 16, numeral (digit n) = n := by decide

end digit

section pairs

variable {digits : List Char} {bytes : List UInt8}

theorem decode?_eq_some_iff : decode? digits = some bytes ↔ Pairs digits bytes := by
  constructor
  · intro h
    fun_induction decode? digits generalizing bytes with
    | case1 =>
      cases h
      exact .nil
    | case2 => cases h
    | case3 high low rest pair ih =>
      obtain ⟨others, decoded, rfl⟩ := Option.map_eq_some_iff.mp h
      obtain ⟨first, second⟩ := Bool.and_eq_true_iff.mp pair
      rw [isDigit_iff] at first second
      have := numeral_lt high first
      have := numeral_lt low second
      refine .cons first second ?_ (ih decoded)
      rw [value_eq_numeral high first, value_eq_numeral low second, UInt8.toNat_ofNat']
      omega
    | case4 => cases h
  · intro pairs
    induction pairs with
    | nil => rfl
    | cons first second value rest ih =>
      rw [decode?, isDigit_iff.mpr first, isDigit_iff.mpr second, Bool.and_self, if_pos rfl, ih,
        value_eq_numeral _ first, value_eq_numeral _ second, Nat.mul_comm, ← value, UInt8.ofNat_toNat]
      rfl

theorem pairs_encode (bytes : List UInt8) : Pairs (encode bytes) bytes := by
  induction bytes with
  | nil => exact .nil
  | cons b rest ih =>
    have high : b.toNat / 16 < 16 := Nat.div_lt_of_lt_mul b.toNat_lt
    have low : b.toNat % 16 < 16 := Nat.mod_lt _ (by decide)
    refine .cons (digit_mem _ high) (digit_mem _ low) ?_ ih
    rw [numeral_digit _ high, numeral_digit _ low]
    omega

theorem Pairs.encode_eq (pairs : Pairs digits bytes) : encode bytes = digits.map Char.toLower := by
  induction pairs with
  | nil => rfl
  | @cons high low b digits bytes first second value rest ih =>
    have := numeral_lt low second
    have upper : b.toNat / 16 = numeral high := by omega
    have lower : b.toNat % 16 = numeral low := by omega
    have written : encode (b :: bytes) = ofByte b ++ encode bytes := List.flatMap_cons
    rw [written, ofByte, upper, lower, digit_numeral high first, digit_numeral low second, ih]
    rfl

theorem Pairs.length_eq (pairs : Pairs digits bytes) : digits.length = 2 * bytes.length := by
  induction pairs with
  | nil => rfl
  | cons _ _ _ _ ih =>
    simp only [List.length_cons, ih]
    omega

theorem Pairs.mem (pairs : Pairs digits bytes) : ∀ c ∈ digits, c ∈ alphabet := by
  induction pairs with
  | nil =>
    intro c inside
    cases inside
  | cons first second _ _ ih =>
    exact List.forall_mem_cons.mpr ⟨first, List.forall_mem_cons.mpr ⟨second, ih⟩⟩

theorem exists_pairs {n : Nat} (length : digits.length = 2 * n) (mem : ∀ c ∈ digits, c ∈ alphabet) :
    ∃ bytes, Pairs digits bytes := by
  induction n generalizing digits with
  | zero =>
    rw [List.length_eq_zero_iff.mp length]
    exact ⟨[], .nil⟩
  | succ n ih =>
    match digits with
    | [] => simp at length
    | [_] =>
      simp only [List.length_singleton] at length
      omega
    | high :: low :: rest =>
      simp only [List.length_cons] at length
      obtain ⟨first, mem⟩ := List.forall_mem_cons.mp mem
      obtain ⟨second, mem⟩ := List.forall_mem_cons.mp mem
      obtain ⟨bytes, pairs⟩ := ih (by omega) mem
      have := numeral_lt high first
      have := numeral_lt low second
      refine ⟨UInt8.ofNat (16 * numeral high + numeral low) :: bytes, .cons first second ?_ pairs⟩
      rw [UInt8.toNat_ofNat']
      omega

end pairs

end BinaryCodec.Hex
