import BinaryCodec.Proofs.Varint
import Mathlib.Algebra.BigOperators.Ring.Finset

namespace BinaryCodec.Varint

variable {σ α : Type} {bits shift left : Nat} {group : UInt8} {word : BitVec 128}

section groups

theorem toNat_payload (group : UInt8) : (payload group).toNat = group.toNat % 128 := by
  rw [payload, UInt8.toNat_and]
  exact Nat.and_two_pow_sub_one_eq_mod group.toNat 7

theorem continues_eq (group : UInt8) : continues group = !decide (group < 128) := by
  have bit : ∀ n < 256, n &&& 128 = n / 128 * 128 := by decide +kernel
  have masked : (group &&& 0x80).toNat = group.toNat / 128 * 128 := by
    rw [UInt8.toNat_and]
    exact bit group.toNat group.toNat_lt
  have zero : group &&& 0x80 = 0 ↔ group.toNat < 128 := by
    rw [← UInt8.toNat_inj, masked, UInt8.toNat_zero]
    omega
  have low : group < 128 ↔ group.toNat < 128 := UInt8.lt_iff_toNat_lt
  by_cases ends : group.toNat < 128
  · simp [continues, zero.mpr ends, low.mpr ends]
  · simp [continues, mt zero.mp ends, mt low.mp ends]

theorem isNegative_eq (group : UInt8) : isNegative group = decide (64 ≤ group.toNat % 128) := by
  have bit : ∀ n < 256, n &&& 64 = n % 128 / 64 * 64 := by decide +kernel
  have masked : (group &&& 0x40).toNat = group.toNat % 128 / 64 * 64 := by
    rw [UInt8.toNat_and]
    exact bit group.toNat group.toNat_lt
  have zero : group &&& 0x40 = 0 ↔ ¬64 ≤ group.toNat % 128 := by
    rw [← UInt8.toNat_inj, masked, UInt8.toNat_zero]
    omega
  by_cases sign : 64 ≤ group.toNat % 128
  · simp [isNegative, sign, mt zero.mp (not_not_intro sign)]
  · simp [isNegative, sign, zero.mpr sign]

theorem signedValue_singleton (group : UInt8) :
    signedValue [group] = (group.toNat % 128 : Nat) - if isNegative group then 128 else 0 := by
  rw [isNegative_eq]
  simp only [signedValue, decide_eq_true_eq]
  split <;> split <;> omega

end groups

section words

theorem or_shiftLeft (reach : shift ≤ 128) (small : word.toNat < Word.count shift)
    (other : BitVec 128) :
    word ||| other <<< shift = BitVec.ofNat 128 (word.toNat + Word.count shift * other.toNat) := by
  let rest := Word.count (128 - shift)
  have whole : 2 ^ 128 = Word.count shift * rest := by
    rw [← Word.count_add, Nat.add_sub_cancel' reach]
    rfl
  have cut : other.toNat <<< shift % 2 ^ 128 = Word.count shift * (other.toNat % rest) := by
    rw [Nat.shiftLeft_eq, whole, Nat.mul_comm]
    exact Nat.mul_mod_mul_left ..
  have split := Nat.div_add_mod other.toNat rest
  have below : Word.count shift * (other.toNat % rest + 1) ≤ Word.count shift * rest :=
    Nat.mul_le_mul_left _ (Nat.mod_lt _ (Word.count_pos _))
  rw [Nat.mul_succ] at below
  apply BitVec.eq_of_toNat_eq
  rw [BitVec.toNat_or, BitVec.toNat_shiftLeft, cut, BitVec.toNat_ofNat, Nat.or_comm]
  calc
    Word.count shift * (other.toNat % rest) ||| word.toNat
      = Word.count shift * (other.toNat % rest) + word.toNat :=
        (Nat.two_pow_add_eq_or_of_lt small _).symm
    _ = (Word.count shift * (other.toNat % rest) + word.toNat) % 2 ^ 128 :=
        (Nat.mod_eq_of_lt (by omega)).symm
    _ = (Word.count shift * (other.toNat % rest) + word.toNat +
          2 ^ 128 * (other.toNat / rest)) % 2 ^ 128 := (Nat.add_mul_mod_self_left ..).symm
    _ = (word.toNat + Word.count shift * other.toNat) % 2 ^ 128 := by
        congr 1
        rw [whole, Nat.mul_assoc]
        conv => rhs; rw [← split, Nat.mul_add]
        omega

theorem deposit_eq (reach : shift ≤ 128) (small : word.toNat < Word.count shift) :
    deposit word group shift =
      BitVec.ofNat 128 (word.toNat + Word.count shift * (group.toNat % 128)) := by
  have widened : ((payload group).toBitVec.setWidth 128).toNat = group.toNat % 128 := by
    rw [BitVec.toNat_setWidth_of_le (by decide)]
    exact toNat_payload group
  rw [deposit, or_shiftLeft reach small, widened]

theorem toNat_deposit (group : UInt8) (reach : shift + 7 ≤ 128) (small : word.toNat < Word.count shift) :
    (deposit word group shift).toNat = word.toNat + Word.count shift * (group.toNat % 128) ∧
      (deposit word group shift).toNat < Word.count (shift + 7) := by
  have next : Word.count (shift + 7) = Word.count shift * 128 := Word.count_add shift 7
  have bound : Word.count (shift + 7) ≤ 2 ^ 128 := Word.count_le reach
  have below : Word.count shift * (group.toNat % 128 + 1) ≤ Word.count shift * 128 :=
    Nat.mul_le_mul_left _ (Nat.mod_lt _ (by decide))
  rw [Nat.mul_succ] at below
  rw [deposit_eq (by omega) small, BitVec.toNat_ofNat, Nat.mod_eq_of_lt (by omega)]
  exact ⟨rfl, by omega⟩

theorem ofInt_congr {m n k : Int} (same : m = n + (2 ^ 128 : Nat) * k) :
    BitVec.ofInt 128 m = BitVec.ofInt 128 n := by
  apply BitVec.eq_of_toNat_eq
  rw [BitVec.toNat_ofInt, BitVec.toNat_ofInt, same, Int.add_mul_emod_self_left]

theorem extend_deposit (reach : shift ≤ 128) (small : word.toNat < Word.count shift) :
    extend (deposit word group shift) group (shift + 7) =
      BitVec.ofInt 128 (word.toNat + Word.count shift * signedValue [group]) := by
  have next : Word.count (shift + 7) = Word.count shift * 128 := Word.count_add shift 7
  rw [signedValue_singleton, extend]
  cases sign : isNegative group with
  | false =>
    simp only [Bool.and_false, Bool.false_eq_true, if_false, Int.sub_zero]
    rw [deposit_eq reach small, ← BitVec.ofInt_natCast, Int.natCast_add, Int.natCast_mul]
  | true =>
    simp only [Bool.and_true, decide_eq_true_eq, if_true]
    rw [Int.mul_sub]
    split
    · next more =>
      obtain ⟨whole, below⟩ := toNat_deposit group (Nat.le_of_lt more) small
      rw [or_shiftLeft (Nat.le_of_lt more) below, whole, BitVec.toNat_allOnes, ← BitVec.ofInt_natCast]
      refine ofInt_congr (k := Word.count (shift + 7)) ?_
      simp only [Int.natCast_add, Int.natCast_mul]
      omega
    · next last =>
      -- The groups end past bit 128, so that the word wraps around on its own.
      obtain ⟨beyond, ends⟩ : ∃ beyond, shift + 7 = 128 + beyond := ⟨shift + 7 - 128, by omega⟩
      have wraps : Word.count (shift + 7) = 2 ^ 128 * Word.count beyond := by
        rw [ends, Word.count_add]
        rfl
      rw [deposit_eq reach small, ← BitVec.ofInt_natCast]
      refine ofInt_congr (k := Word.count beyond) ?_
      simp only [Int.natCast_add, Int.natCast_mul]
      omega

end words

section checks

theorem exceeds_iff (group : UInt8) (started : shift ≤ bits) (small : word.toNat < Word.count shift) :
    exceeds bits group shift = true ↔ bits < shift + 7 ∧
      Word.count bits ≤ word.toNat + Word.count shift * (group.toNat % 128) := by
  have split : Word.count bits = Word.count shift * Word.count (bits - shift) := by
    rw [← Word.count_add, Nat.add_sub_cancel' started]
  have cut : ((payload group).toBitVec >>> (bits - shift)).toNat =
      group.toNat % 128 / Word.count (bits - shift) := by
    rw [BitVec.toNat_ushiftRight, Nat.shiftRight_eq_div_pow, UInt8.toNat_toBitVec, toNat_payload]
    rfl
  have less : group.toNat % 128 < Word.count (bits - shift) ↔
      word.toNat + Word.count shift * (group.toNat % 128) < Word.count bits := by
    rw [split, Nat.mul_comm _ (Word.count (bits - shift)), ← Nat.div_lt_iff_lt_mul (Word.count_pos _),
      Nat.add_mul_div_left _ _ (Word.count_pos _), Nat.div_eq_of_lt small, Nat.zero_add]
  have none : (payload group).toBitVec >>> (bits - shift) = 0#8 ↔
      group.toNat % 128 < Word.count (bits - shift) := by
    rw [← BitVec.toNat_inj, cut, BitVec.toNat_zero]
    exact Nat.div_eq_zero_iff_lt (Word.count_pos _)
  simp only [exceeds, Bool.and_eq_true, decide_eq_true_eq, bne_iff_ne]
  refine and_congr Iff.rfl ((not_congr (none.trans less)).trans Nat.not_lt)

theorem holdsSigned_add_mul (below : shift < bits) (small : word.toNat < Word.count shift) (n : Int) :
    Word.holdsSigned bits (word.toNat + Word.count shift * n) = true ↔
      Word.holdsSigned (bits - shift) n = true := by
  have split : Word.count (bits - 1) = Word.count shift * Word.count (bits - shift - 1) := by
    rw [← Word.count_add, show shift + (bits - shift - 1) = bits - 1 by omega]
  have scale {m k : Int} (le : m ≤ k) : Word.count shift * m ≤ Word.count shift * k :=
    Int.mul_le_mul_of_nonneg_left le (Int.natCast_nonneg _)
  rw [Word.holdsSigned_iff, Word.holdsSigned_iff, split, Int.natCast_mul, ← Int.mul_neg]
  refine and_congr ⟨fun low => ?_, fun low => ?_⟩ ⟨fun high => ?_, fun high => ?_⟩
  · refine Int.not_lt.mp fun less => ?_
    have := scale (Int.le_sub_one_of_lt less)
    rw [Int.mul_sub] at this
    omega
  · have := scale low
    omega
  · refine Int.not_le.mp fun more => ?_
    have := scale more
    omega
  · have := scale (Int.le_sub_one_of_lt high)
    rw [Int.mul_sub] at this
    omega

theorem spills_iff (group : UInt8) (begins : shift ≤ 126) (whole : 7 ∣ shift)
    (small : word.toNat < Word.count shift) :
    spills group shift = true ↔
      Word.holdsSigned 128 (word.toNat + Word.count shift * signedValue [group]) = false := by
  rw [← Bool.not_eq_true, holdsSigned_add_mul (by omega) small, Word.holdsSigned_iff]
  -- Eighteen groups fit below bit 128, so that only the nineteenth reaches past the word.
  by_cases last : shift = 126
  · subst last
    have cut : ((payload group).toBitVec >>> 1).toNat = group.toNat % 128 / 2 := by
      rw [BitVec.toNat_ushiftRight, Nat.shiftRight_eq_div_pow, UInt8.toNat_toBitVec, toNat_payload]
    have zeros : (payload group).toBitVec >>> 1 = 0#8 ↔ group.toNat % 128 / 2 = 0 := by
      rw [← BitVec.toNat_inj, cut]
      rfl
    have ones : (payload group).toBitVec >>> 1 = 0x7f#8 >>> 1 ↔ group.toNat % 128 / 2 = 63 := by
      rw [← BitVec.toNat_inj, cut]
      rfl
    have two : Word.count (128 - 126 - 1) = 2 := by decide
    have spilt : spills group 126 = true ↔ ¬group.toNat % 128 / 2 = 0 ∧ ¬group.toNat % 128 / 2 = 63 := by
      simp only [spills, Bool.and_eq_true, decide_eq_true_eq, bne_iff_ne, ← zeros, ← ones]
      exact and_iff_right (by decide)
    rw [spilt, two]
    simp only [signedValue]
    split <;> omega
  · have inside : ¬128 < shift + 7 := by omega
    have room : Word.count 8 ≤ Word.count (128 - shift - 1) := Word.count_le (by omega)
    have bounds : -64 ≤ signedValue [group] ∧ signedValue [group] < 64 := by
      simp only [signedValue]
      split <;> omega
    have many : Word.count 8 = 256 := by decide
    simp only [spills, inside, decide_false, Bool.false_and, Bool.false_eq_true, false_iff]
    omega

theorem toInt_ofInt (positive : 0 < bits) {n : Int} (holds : Word.holdsSigned bits n = true) :
    (BitVec.ofInt bits n).toInt = n := by
  obtain ⟨low, high⟩ := Word.holdsSigned_iff.mp holds
  apply BitVec.toInt_ofInt_eq_self positive
  · exact_mod_cast low
  · exact_mod_cast high

theorem setWidth_ofInt (narrow : bits ≤ 128) (n : Int) :
    (BitVec.ofInt 128 n).setWidth bits = BitVec.ofInt bits n := by
  have divides : ((2 ^ bits : Nat) : Int) ∣ (2 ^ 128 : Nat) :=
    Int.natCast_dvd_natCast.mpr (Nat.pow_dvd_pow 2 narrow)
  have whole : 0 ≤ n % (2 ^ 128 : Nat) := Int.emod_nonneg n (by decide)
  apply BitVec.eq_of_toNat_eq
  rw [BitVec.toNat_setWidth, BitVec.toNat_ofInt, BitVec.toNat_ofInt,
    ← Int.emod_emod_of_dvd n divides, Int.toNat_emod whole (Int.natCast_nonneg _), Int.toNat_natCast]

theorem toNat_setWidth_ofNat (narrow : bits ≤ 128) {n : Nat} (small : n < Word.count bits) :
    ((BitVec.ofNat 128 n).setWidth bits).toNat = n := by
  rw [BitVec.setWidth_ofNat_of_le narrow]
  exact Nat.mod_eq_of_lt small

theorem toInt_setWidth_ofInt (positive : 0 < bits) (narrow : bits ≤ 128) {n : Int}
    (holds : Word.holdsSigned bits n = true) : ((BitVec.ofInt 128 n).setWidth bits).toInt = n := by
  rw [setWidth_ofInt narrow, toInt_ofInt positive holds]

theorem greatest_eq (bits : Nat) :
    greatest bits = BitVec.ofInt 128 (Word.count (bits - 1) - 1) ∧
      -greatest bits - 1 = BitVec.ofInt 128 (-(Word.count (bits - 1))) := by
  have power : (1 : BitVec 128) <<< (bits - 1) = BitVec.ofInt 128 (Word.count (bits - 1)) := by
    apply BitVec.eq_of_toNat_eq
    rw [BitVec.ofInt_natCast, BitVec.toNat_shiftLeft, BitVec.toNat_ofNat, Nat.shiftLeft_eq]
    exact congrArg (· % 2 ^ 128) (Nat.one_mul _)
  have one : (-1 : BitVec 128) = BitVec.ofInt 128 (-1) := by decide
  have upper : greatest bits = BitVec.ofInt 128 (Word.count (bits - 1) - 1) := by
    rw [greatest, power, BitVec.sub_eq_add_neg, one, ← BitVec.ofInt_add]
    rfl
  refine ⟨upper, ?_⟩
  rw [upper, BitVec.sub_eq_add_neg, one, ← BitVec.ofInt_neg, ← BitVec.ofInt_add]
  congr 1
  omega

theorem within_iff (positive : 0 < bits) (narrow : bits ≤ 128) {n : Int}
    (holds : Word.holdsSigned 128 n = true) :
    within bits (BitVec.ofInt 128 n) = true ↔ Word.holdsSigned bits n = true := by
  by_cases full : bits = 128
  · subst full
    simp only [within, Nat.le_refl, decide_true, Bool.true_or, holds]
  · obtain ⟨upper, lower⟩ := greatest_eq bits
    have bound : Word.count (bits - 1) ≤ Word.count (128 - 1) := Word.count_le (by omega)
    have above := Word.count_pos (bits - 1)
    have least : Word.holdsSigned 128 (-(Word.count (bits - 1))) = true :=
      Word.holdsSigned_iff.mpr ⟨by omega, by omega⟩
    have most : Word.holdsSigned 128 (Word.count (bits - 1) - 1) = true :=
      Word.holdsSigned_iff.mpr ⟨by omega, by omega⟩
    have inside : ¬128 ≤ bits := by omega
    simp only [within, inside, decide_false, Bool.false_or, Bool.not_eq_true', Bool.or_eq_false_iff]
    rw [lower, upper, BitVec.slt_eq_decide, BitVec.slt_eq_decide, toInt_ofInt (by decide) holds,
      toInt_ofInt (by decide) least, toInt_ofInt (by decide) most, Word.holdsSigned_iff]
    simp only [decide_eq_false_iff_not]
    omega

end checks

section loops

variable {next : Source σ}

def groupsOf (next : Source σ) : (left : Nat) → EStateM Error σ (Option (List UInt8))
  | 0 => return none
  | left + 1 => do
    let group ← next
    if group < 128 then return some [group]
    else return (← groupsOf next left).map (group :: ·)

theorem groupsOf_bind_congr {f g : Option (List UInt8) → EStateM Error σ α}
    (same : ∀ groups, groups ≠ some [] → f groups = g groups) :
    groupsOf next left >>= f = groupsOf next left >>= g := by
  cases left with
  | zero => exact same none (by simp)
  | succ left =>
    simp only [groupsOf, bind_assoc]
    congr
    funext group
    split
    · exact same (some [group]) (by simp)
    · simp only [bind_assoc, pure_bind]
      congr
      funext rest
      exact same _ (by cases rest <;> simp)

def finishUnsigned (bits shift : Nat) (word : BitVec 128) :
    (groups : Option (List UInt8)) → EStateM Error σ (BitVec 128)
  | some groups =>
    let value := word.toNat + Word.count shift * unsignedValue groups
    if value < Word.count bits then return BitVec.ofNat 128 value
    else throw (.varintOverflow bits)
  | none => throw (.varintOverflow bits)

def finishSigned (bits shift : Nat) (word : BitVec 128) :
    (groups : Option (List UInt8)) → EStateM Error σ (BitVec 128)
  | some groups =>
    let value := word.toNat + Word.count shift * signedValue groups
    if Word.holdsSigned bits value then return BitVec.ofInt 128 value
    else throw (.varintOverflow bits)
  | none => throw (.varintOverflow bits)

theorem finishUnsigned_deposit (reach : shift + 7 ≤ 128) (small : word.toNat < Word.count shift)
    (rest : Option (List UInt8)) :
    (finishUnsigned bits (shift + 7) (deposit word group shift) rest : EStateM Error σ _) =
      finishUnsigned bits shift word (rest.map (group :: ·)) := by
  cases rest with
  | none => rfl
  | some rest =>
    have next : Word.count (shift + 7) = Word.count shift * 128 := Word.count_add shift 7
    simp only [finishUnsigned, Option.map_some, (toNat_deposit _ reach small).1, unsignedValue, next,
      Nat.mul_add, Nat.add_assoc, Nat.mul_assoc]

theorem finishSigned_deposit (reach : shift + 7 ≤ 128) (small : word.toNat < Word.count shift)
    {rest : Option (List UInt8)} (ended : rest ≠ some []) :
    (finishSigned bits (shift + 7) (deposit word group shift) rest : EStateM Error σ _) =
      finishSigned bits shift word (rest.map (group :: ·)) := by
  cases rest with
  | none => rfl
  | some rest =>
    have next : Word.count (shift + 7) = Word.count shift * 128 := Word.count_add shift 7
    have filled : rest ≠ [] := fun empty => ended (congrArg some empty)
    simp only [finishSigned, Option.map_some, (toNat_deposit _ reach small).1, signedValue_cons filled,
      next, Int.natCast_add, Int.natCast_mul, Int.natCast_emod, Int.mul_add, Int.add_assoc,
      Int.mul_assoc, Int.cast_ofNat_Int]

theorem gatherUnsigned_eq (narrow : bits ≤ 128) (near : shift + 7 * left < bits + 7)
    (small : word.toNat < Word.count shift) :
    gatherUnsigned next bits left shift word =
      groupsOf next left >>= finishUnsigned bits shift word := by
  induction left generalizing shift word with
  | zero => rfl
  | succ left ih =>
    simp only [gatherUnsigned, groupsOf, bind_assoc]
    congr
    funext group
    have bound := exceeds_iff group (show shift ≤ bits by omega) small
    have last : (finishUnsigned bits shift word (some [group]) : EStateM Error σ _) =
        if word.toNat + Word.count shift * (group.toNat % 128) < Word.count bits then
          return BitVec.ofNat 128 (word.toNat + Word.count shift * (group.toNat % 128))
        else throw (.varintOverflow bits) := by
      simp only [finishUnsigned, unsignedValue, Nat.mul_zero, Nat.add_zero]
      rfl
    rw [continues_eq]
    by_cases ends : group < 128
    · simp only [ends, decide_true, Bool.not_true, Bool.false_eq_true, if_false, if_true, pure_bind,
        last]
      by_cases wide : exceeds bits group shift = true
      · obtain ⟨-, above⟩ := bound.mp wide
        rw [if_pos wide, if_neg (Nat.not_lt.mpr above)]
      · have below : word.toNat + Word.count shift * (group.toNat % 128) < Word.count bits := by
          by_cases inside : bits < shift + 7
          · exact Nat.not_le.mp fun above => wide (bound.mpr ⟨inside, above⟩)
          · obtain ⟨whole, bound⟩ := toNat_deposit group
              (show shift + 7 ≤ 128 by omega) small
            rw [← whole]
            exact Nat.lt_of_lt_of_le bound (Word.count_le (by omega))
        rw [if_neg wide, if_pos below, deposit_eq (by omega) small]
    · simp only [ends, decide_false, Bool.not_false, if_true, if_false, bind_assoc, pure_bind]
      cases left with
      | zero =>
        -- This was the last group that may come, so that going on is refused as well.
        simp only [gatherUnsigned, ite_self]
        rfl
      | succ left =>
        have inside : ¬bits < shift + 7 := by omega
        have reach : shift + 7 ≤ 128 := by omega
        rw [if_neg fun wide => inside (bound.mp wide).1,
          ih (by omega) (toNat_deposit _ reach small).2]
        congr
        funext rest
        exact finishUnsigned_deposit reach small rest

theorem gatherSigned_eq (positive : 0 < bits) (narrow : bits ≤ 128)
    (near : shift + 7 * left < bits + 7) (whole : 7 ∣ shift) (small : word.toNat < Word.count shift) :
    gatherSigned next bits left shift word =
      groupsOf next left >>= finishSigned bits shift word := by
  induction left generalizing shift word with
  | zero => rfl
  | succ left ih =>
    simp only [gatherSigned, groupsOf, bind_assoc]
    congr
    funext group
    have spilt := spills_iff group (show shift ≤ 126 by omega) whole small
    have wide {n : Int} (outside : Word.holdsSigned 128 n = false) :
        ¬Word.holdsSigned bits n = true := fun holds =>
      Bool.noConfusion ((Word.holdsSigned_mono narrow holds).symm.trans outside)
    rw [continues_eq]
    by_cases ends : group < 128
    · simp only [ends, decide_true, Bool.not_true, Bool.false_eq_true, if_false, if_true, pure_bind,
        finishSigned, extend_deposit (show shift ≤ 128 by omega) small]
      by_cases falls : spills group shift = true
      · rw [if_pos falls, if_neg (wide (spilt.mp falls))]
      · have holds := Bool.not_eq_false _ ▸ mt spilt.mpr falls
        simp only [falls, Bool.false_eq_true, if_false, within_iff positive narrow holds]
    · simp only [ends, decide_false, Bool.not_false, if_true, if_false, bind_assoc, pure_bind]
      cases left with
      | zero =>
        simp only [gatherSigned, ite_self]
        rfl
      | succ left =>
        have reach : shift + 7 ≤ 128 := by omega
        have kept : ¬spills group shift = true := by
          have inside : ¬128 < shift + 7 := by omega
          simp [spills, inside]
        rw [if_neg kept, ih (by omega) (by omega) (toNat_deposit _ reach small).2]
        refine groupsOf_bind_congr fun rest ended => ?_
        exact finishSigned_deposit reach small ended

theorem finishUnsigned_zero (groups : List UInt8) :
    (finishUnsigned bits 0 0 (some groups) : EStateM Error σ _) =
      if unsignedValue groups < Word.count bits then
        return BitVec.ofNat 128 (unsignedValue groups)
      else throw (.varintOverflow bits) := by
  have start : (0 : BitVec 128).toNat + Word.count 0 * unsignedValue groups = unsignedValue groups := by
    simp [Word.count]
  simp only [finishUnsigned, start]

theorem finishSigned_zero (groups : List UInt8) :
    (finishSigned bits 0 0 (some groups) : EStateM Error σ _) =
      if Word.holdsSigned bits (signedValue groups) then
        return BitVec.ofInt 128 (signedValue groups)
      else throw (.varintOverflow bits) := by
  have start : (0 : BitVec 128).toNat + Word.count 0 * signedValue groups = signedValue groups := by
    simp [Word.count]
  simp only [finishSigned, start]

end loops

end BinaryCodec.Varint
