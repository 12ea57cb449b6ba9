import BinaryCodec.Proofs.Text.Utf8

namespace BinaryCodec.Utf8

variable {bytes rest : List UInt8} {c d : Char} {lead : UInt8} {width n : Nat}

def Starts (c : Char) (bytes : List UInt8) : Prop := String.utf8EncodeChar c <+: bytes

theorem starts_append (c : Char) (rest : List UInt8) : Starts c (String.utf8EncodeChar c ++ rest) :=
  List.prefix_append ..

theorem not_starts_nil : ¬Starts c [] := fun starts =>
  String.utf8EncodeChar_ne_nil (List.prefix_nil.mp starts)

theorem Starts.announced (starts : Starts c (lead :: rest)) :
    widthOf lead = some c.utf8Size ∧ c.utf8Size ≤ rest.length + 1 := by
  have within := starts.length_le
  obtain ⟨first, tail, encoded, announced⟩ := encodeChar_eq_cons c
  have size : c.utf8Size = tail.length + 1 := by
    rw [← String.length_utf8EncodeChar, encoded, List.length_cons]
  rw [String.length_utf8EncodeChar, List.length_cons] at within
  rw [Starts, encoded, List.cons_prefix_cons] at starts
  rw [← starts.1, announced, size]
  exact ⟨rfl, size ▸ within⟩

theorem starts_iff (announced : widthOf lead = some width) (enough : width ≤ rest.length + 1) :
    Starts c (lead :: rest) ↔ char? (lead :: rest.take (width - 1)) = some c := by
  constructor
  · intro starts
    obtain ⟨first, tail, encoded, tells⟩ := encodeChar_eq_cons c
    have whole := char?_encodeChar c
    rw [Starts, encoded, List.cons_prefix_cons] at starts
    obtain ⟨rfl, more⟩ := starts
    obtain rfl : tail.length + 1 = width := Option.some.inj (tells.symm.trans announced)
    rwa [Nat.add_sub_cancel, ← List.prefix_iff_eq_take.mp more, ← encoded]
  · intro whole
    rw [Starts, encodeChar_of_char? whole, List.cons_prefix_cons]
    exact ⟨rfl, List.take_prefix ..⟩

theorem Starts.unique (first : Starts c bytes) (second : Starts d bytes) : c = d := by
  cases bytes with
  | nil => exact absurd first not_starts_nil
  | cons lead rest =>
    obtain ⟨announced, enough⟩ := first.announced
    rw [starts_iff announced enough] at first second
    exact Option.some.inj (first.symm.trans second)

def Torn (bytes : List UInt8) : Prop :=
  ∃ lead rest width, bytes = lead :: rest ∧ widthOf lead = some width ∧ rest.length + 1 < width

theorem Torn.not_starts (torn : Torn bytes) : ¬Starts c bytes := by
  obtain ⟨lead, rest, width, rfl, announced, short⟩ := torn
  intro starts
  obtain ⟨size, enough⟩ := starts.announced
  obtain rfl := Option.some.inj (size.symm.trans announced)
  omega

theorem not_starts_unannounced (silent : widthOf lead = none) : ¬Starts c (lead :: rest) := by
  intro starts
  cases silent.symm.trans starts.announced.1

theorem not_torn_unannounced (silent : widthOf lead = none) : ¬Torn (lead :: rest) := by
  rintro ⟨first, tail, width, same, tells, -⟩
  cases same
  cases silent.symm.trans tells

theorem not_torn_nil : ¬Torn [] := by
  rintro ⟨lead, rest, width, empty, -⟩
  cases empty

theorem not_torn_cons (announced : widthOf lead = some width) (enough : width ≤ rest.length + 1) :
    ¬Torn (lead :: rest) := by
  rintro ⟨first, tail, other, same, tells, short⟩
  cases same
  obtain rfl := Option.some.inj (tells.symm.trans announced)
  omega

theorem char?_of_zero_mem (zero : 0 ∈ rest) : char? (lead :: rest) = none := by
  rw [Option.eq_none_iff_forall_ne_some]
  intro c whole
  have encoded := encodeChar_of_char? whole
  have null : c.toNat = 0 := by
    rw [← zero_mem_encodeChar_iff, encoded]
    exact List.mem_cons_of_mem _ zero
  rw [encodeChar_one (by omega), List.cons.injEq] at encoded
  rw [← encoded.2] at zero
  exact List.not_mem_nil zero

theorem widthOf_continuation (stray : isContinuation lead = true) : widthOf lead = none := by
  obtain ⟨low, high⟩ := isContinuation_iff.mp stray
  rw [← UInt8.ofNat_toNat (x := lead), widthOf_ofNat (by omega)]
  grind

theorem not_starts_cut (part : bytes <+: String.utf8EncodeChar c) (cut : bytes ≠ String.utf8EncodeChar c) :
    ¬Starts d bytes := by
  intro starts
  obtain rfl : d = c := Starts.unique (starts.trans part) (List.prefix_refl _)
  exact cut (part.eq_of_length (Nat.le_antisymm part.length_le starts.length_le))

section forms

/-- Numbers below this one have a form of `width` bytes. -/
def formLimit : (width : Nat) → Nat
  | 1 => 128
  | 2 => 2048
  | 3 => 65536
  | 4 => 2097152
  | _ => 0

/-- `n` in a form of `width` bytes, whether or not it is a character and needs that many. -/
def form : (width n : Nat) → List UInt8
  | 1, n => [.ofNat n]
  | 2, n => [.ofNat (n / 64 + 192), .ofNat (n % 64 + 128)]
  | 3, n => [.ofNat (n / 4096 + 224), .ofNat (n / 64 % 64 + 128), .ofNat (n % 64 + 128)]
  | 4, n => [.ofNat (n / 262144 + 240), .ofNat (n / 4096 % 64 + 128), .ofNat (n / 64 % 64 + 128),
      .ofNat (n % 64 + 128)]
  | _, _ => []

theorem width_cases (fits : n < formLimit width) : width = 1 ∨ width = 2 ∨ width = 3 ∨ width = 4 := by
  unfold formLimit at fits
  split at fits <;> omega

theorem form_eq_cons (fits : n < formLimit width) :
    ∃ lead rest, form width n = lead :: rest ∧ rest.length + 1 = width ∧
      (widthOf lead = none ∨ widthOf lead = some width) := by
  rcases width_cases fits with rfl | rfl | rfl | rfl <;> simp only [formLimit] at fits
  all_goals
    refine ⟨_, _, rfl, rfl, ?_⟩
    rw [widthOf_ofNat (by omega)]
    grind

theorem form_injective {m : Nat} (fits : n < formLimit width) (other : m < formLimit width)
    (same : form width n = form width m) : n = m := by
  have bytes {i j : Nat} (first : i < 256) (second : j < 256) (same : UInt8.ofNat i = UInt8.ofNat j) :
      i = j := by
    rw [ofNat_eq_iff second, UInt8.toNat_ofNat', Nat.mod_eq_of_lt first] at same
    exact same
  rcases width_cases fits with rfl | rfl | rfl | rfl <;>
    simp only [formLimit, form, List.cons.injEq, and_true] at fits other same
  · exact bytes (by omega) (by omega) same
  · have high := bytes (by omega) (by omega) same.1
    have low := bytes (by omega) (by omega) same.2
    omega
  · have high := bytes (by omega) (by omega) same.1
    have middle := bytes (by omega) (by omega) same.2.1
    have low := bytes (by omega) (by omega) same.2.2
    omega
  · have high := bytes (by omega) (by omega) same.1
    have upper := bytes (by omega) (by omega) same.2.1
    have lower := bytes (by omega) (by omega) same.2.2.1
    have low := bytes (by omega) (by omega) same.2.2.2
    omega

theorem form_utf8Size (c : Char) :
    form c.utf8Size c.toNat = String.utf8EncodeChar c ∧ c.toNat < formLimit c.utf8Size ∧
      formLimit (c.utf8Size - 1) ≤ c.toNat := by
  have bound := char_lt c
  have size := String.length_utf8EncodeChar c
  rcases encodeChar_cases c with one | ⟨low, high⟩ | ⟨low, high⟩ | low
  · rw [encodeChar_one one] at size ⊢
    rw [← size]
    exact ⟨rfl, one, Nat.zero_le _⟩
  · rw [encodeChar_two low high] at size ⊢
    rw [← size]
    exact ⟨rfl, high, low⟩
  · rw [encodeChar_three low high] at size ⊢
    rw [← size]
    exact ⟨rfl, high, low⟩
  · rw [encodeChar_four low] at size ⊢
    rw [← size]
    refine ⟨rfl, ?_, low⟩
    change c.toNat < 2097152
    omega

theorem starts_form_iff (fits : n < formLimit width) :
    Starts c (form width n ++ rest) ↔ c.toNat = n ∧ c.utf8Size = width := by
  obtain ⟨encoded, small, -⟩ := form_utf8Size c
  constructor
  · intro starts
    obtain ⟨lead, tail, formed, length, announced⟩ := form_eq_cons fits
    have tells := starts
    rw [formed, List.cons_append] at tells
    obtain rfl : c.utf8Size = width := by
      rcases announced with silent | announced
      · cases silent.symm.trans tells.announced.1
      · exact Option.some.inj (tells.announced.1.symm.trans announced)
    have sizes : (String.utf8EncodeChar c).length = (form c.utf8Size n).length := by
      rw [String.length_utf8EncodeChar, formed, List.length_cons, length]
    have same : String.utf8EncodeChar c = form c.utf8Size n :=
      (List.prefix_of_prefix_length_le starts (List.prefix_append ..) (Nat.le_of_eq sizes)).eq_of_length sizes
    exact ⟨form_injective small fits (encoded.trans same), rfl⟩
  · rintro ⟨rfl, rfl⟩
    rw [encoded]
    exact starts_append c rest

/-- Numbers that need fewer bytes than their form has, or that are no characters. -/
def Misformed (width n : Nat) : Prop :=
  n < formLimit (width - 1) ∨ 0xd800 ≤ n ∧ n ≤ 0xdfff ∨ 0x10ffff < n

theorem Misformed.not_starts (misformed : Misformed width n) (fits : n < formLimit width) :
    ¬Starts c (form width n ++ rest) := by
  rw [starts_form_iff fits]
  rintro ⟨rfl, rfl⟩
  have least := (form_utf8Size c).2.2
  have bound := char_lt c
  rcases misformed with long | surrogate | beyond
  · exact absurd long (Nat.not_lt.mpr least)
  · rcases c.valid with low | ⟨high, -⟩
    · change c.toNat < 55296 at low
      omega
    · change 57343 < c.toNat at high
      omega
  · omega

end forms

end BinaryCodec.Utf8
