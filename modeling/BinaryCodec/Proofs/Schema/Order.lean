import BinaryCodec.Schema.Value

namespace BinaryCodec.Value

def codeNumbers : List Nat → List Int
  | [] => [0]
  | n :: rest => 1 :: n :: codeNumbers rest

mutual

def code : Value → List Int
  | .unit => [0]
  | .bool b => [1, b.toNat]
  | .int n => [2, n]
  | .float pattern => [3, pattern]
  | .char c => [4, c.toNat]
  | .text s => 5 :: codeNumbers (s.toList.map Char.toNat)
  | .uuid id => 6 :: codeNumbers (id.bytes.toList.map UInt8.toNat)
  | .instant t => [7, t.seconds, t.nanos]
  | .list items => 8 :: codeAll items
  | .map entries => 9 :: codeEntries entries
  | .option none => [10, 0]
  | .option (some v) => 10 :: 1 :: code v
  | .record fields => 11 :: codeAll fields
  | .variant index fields => 12 :: index :: codeAll fields

def codeAll : List Value → List Int
  | [] => [0]
  | v :: rest => 1 :: (code v ++ codeAll rest)

def codeEntries : List (Value × Value) → List Int
  | [] => [0]
  | (k, v) :: rest => 1 :: (code k ++ (code v ++ codeEntries rest))

end

theorem compare_natCast (m n : Nat) : Ord.compare (m : Int) n = Ord.compare m n := by
  simp only [Int.compare_eq_ite_lt, Nat.compare_eq_ite_lt, Int.ofNat_lt]

theorem compare_codeNumbers (ms ns : List Nat) (xs ys : List Int) :
    Ord.compare (codeNumbers ms ++ xs) (codeNumbers ns ++ ys) =
      (compareNumbers ms ns).then (Ord.compare xs ys) := by
  induction ms generalizing ns with
  | nil =>
    cases ns with
    | nil => simp [codeNumbers, compareNumbers]
    | cons n ns => rfl
  | cons m ms ih =>
    cases ns with
    | nil => rfl
    | cons n ns => simp [codeNumbers, compareNumbers, ih, compare_natCast, Ordering.then_assoc]

mutual

theorem compare_code_append (a b : Value) (xs ys : List Int) :
    Ord.compare (code a ++ xs) (code b ++ ys) = (compare a b).then (Ord.compare xs ys) := by
  cases a with
  | unit =>
    cases b with
    | unit => rfl
    | option v => cases v <;> rfl
    | _ => rfl
  | bool flag =>
    cases b with
    | bool other => simp [code, compare, compare_natCast]
    | option v => cases v <;> rfl
    | _ => rfl
  | int n =>
    cases b with
    | int m => simp [code, compare]
    | option v => cases v <;> rfl
    | _ => rfl
  | float pattern =>
    cases b with
    | float other => simp [code, compare, compare_natCast]
    | option v => cases v <;> rfl
    | _ => rfl
  | char c =>
    cases b with
    | char d => simp [code, compare, compare_natCast]
    | option v => cases v <;> rfl
    | _ => rfl
  | text s =>
    cases b with
    | text t => simp [code, compare, compare_codeNumbers]
    | option v => cases v <;> rfl
    | _ => rfl
  | uuid id =>
    cases b with
    | uuid other => simp [code, compare, compare_codeNumbers]
    | option v => cases v <;> rfl
    | _ => rfl
  | instant t =>
    cases b with
    | instant u => simp [code, compare, compare_natCast, Ordering.then_assoc]
    | option v => cases v <;> rfl
    | _ => rfl
  | list items =>
    cases b with
    | list others => simp [code, compare, compare_codeAll_append items others]
    | option v => cases v <;> rfl
    | _ => rfl
  | map entries =>
    cases b with
    | map others => simp [code, compare, compare_codeEntries_append entries others]
    | option v => cases v <;> rfl
    | _ => rfl
  | option v =>
    cases b with
    | option w =>
      cases v with
      | none => cases w <;> rfl
      | some v =>
        cases w with
        | none => rfl
        | some w => simp [code, compare, compare_code_append v w]
    | _ => cases v <;> rfl
  | record fields =>
    cases b with
    | record others => simp [code, compare, compare_codeAll_append fields others]
    | option v => cases v <;> rfl
    | _ => rfl
  | variant index fields =>
    cases b with
    | variant other others =>
      simp [code, compare, compare_natCast, compare_codeAll_append fields others,
        Ordering.then_assoc]
    | option v => cases v <;> rfl
    | _ => rfl

theorem compare_codeAll_append (as bs : List Value) (xs ys : List Int) :
    Ord.compare (codeAll as ++ xs) (codeAll bs ++ ys) =
      (compareAll as bs).then (Ord.compare xs ys) := by
  cases as with
  | nil =>
    cases bs with
    | nil => simp [codeAll, compareAll]
    | cons b bs => rfl
  | cons a as =>
    cases bs with
    | nil => rfl
    | cons b bs =>
      simp [codeAll, compareAll, compare_code_append a b, compare_codeAll_append as bs,
        Ordering.then_assoc]

theorem compare_codeEntries_append (as bs : List (Value × Value)) (xs ys : List Int) :
    Ord.compare (codeEntries as ++ xs) (codeEntries bs ++ ys) =
      (compareEntries as bs).then (Ord.compare xs ys) := by
  cases as with
  | nil =>
    cases bs with
    | nil => simp [codeEntries, compareEntries]
    | cons b bs => rfl
  | cons a as =>
    cases bs with
    | nil => rfl
    | cons b bs =>
      obtain ⟨k, v⟩ := a
      obtain ⟨l, w⟩ := b
      simp [codeEntries, compareEntries, compare_code_append k l, compare_code_append v w,
        compare_codeEntries_append as bs, Ordering.then_assoc]

end

theorem compare_code (a b : Value) : compare a b = Ord.compare (code a) (code b) := by
  have append := compare_code_append a b [] []
  simpa using append.symm

theorem compareNumbers_eq (ms ns : List Nat) : compareNumbers ms ns = Ord.compare ms ns := by
  induction ms generalizing ns with
  | nil => cases ns <;> rfl
  | cons m ms ih =>
    cases ns with
    | nil => rfl
    | cons n ns => simp [compareNumbers, ih]

mutual

theorem eq_of_compare_eq (a b : Value) (h : compare a b = .eq) : a = b := by
  cases a with
  | unit =>
    cases b with
    | unit => rfl
    | option v => cases v <;> cases h
    | _ => cases h
  | bool flag =>
    cases b with
    | bool other =>
      have same := Nat.compare_eq_eq.mp h
      cases flag <;> cases other <;> first | rfl | cases same
    | option v => cases v <;> cases h
    | _ => cases h
  | int n =>
    cases b with
    | int m => exact congrArg _ (Std.LawfulEqOrd.eq_of_compare h)
    | option v => cases v <;> cases h
    | _ => cases h
  | float pattern =>
    cases b with
    | float other => exact congrArg _ (Std.LawfulEqOrd.eq_of_compare h)
    | option v => cases v <;> cases h
    | _ => cases h
  | char c =>
    cases b with
    | char d => exact congrArg _ (Char.toNat_inj.mp (Std.LawfulEqOrd.eq_of_compare h))
    | option v => cases v <;> cases h
    | _ => cases h
  | text s =>
    cases b with
    | text t =>
      rw [compare, compareNumbers_eq] at h
      have same := (List.map_inj_right fun _ _ => Char.toNat_inj.mp).mp
        (Std.LawfulEqOrd.eq_of_compare h)
      exact congrArg _ (String.toList_inj.mp same)
    | option v => cases v <;> cases h
    | _ => cases h
  | uuid id =>
    cases b with
    | uuid other =>
      rw [compare, compareNumbers_eq] at h
      have same := (List.map_inj_right fun _ _ => UInt8.toNat_inj.mp).mp
        (Std.LawfulEqOrd.eq_of_compare h)
      obtain ⟨bytes⟩ := id
      obtain ⟨others⟩ := other
      exact congrArg (Value.uuid ⟨·⟩) (Vector.toList_inj.mp same)
    | option v => cases v <;> cases h
    | _ => cases h
  | instant t =>
    cases b with
    | instant u =>
      obtain ⟨seconds, nanos⟩ := t
      obtain ⟨others, more⟩ := u
      rw [compare, Ordering.then_eq_eq] at h
      rw [show seconds = others from Std.LawfulEqOrd.eq_of_compare h.1,
        show nanos = more from Std.LawfulEqOrd.eq_of_compare h.2]
    | option v => cases v <;> cases h
    | _ => cases h
  | list items =>
    cases b with
    | list others => exact congrArg _ (eq_of_compareAll_eq items others h)
    | option v => cases v <;> cases h
    | _ => cases h
  | map entries =>
    cases b with
    | map others => exact congrArg _ (eq_of_compareEntries_eq entries others h)
    | option v => cases v <;> cases h
    | _ => cases h
  | option v =>
    cases b with
    | option w =>
      cases v with
      | none =>
        cases w with
        | none => rfl
        | some w => cases h
      | some v =>
        cases w with
        | none => cases h
        | some w => rw [eq_of_compare_eq v w h]
    | _ => cases v <;> cases h
  | record fields =>
    cases b with
    | record others => exact congrArg _ (eq_of_compareAll_eq fields others h)
    | option v => cases v <;> cases h
    | _ => cases h
  | variant index fields =>
    cases b with
    | variant other others =>
      rw [compare, Ordering.then_eq_eq] at h
      rw [show index = other from Std.LawfulEqOrd.eq_of_compare h.1,
        eq_of_compareAll_eq fields others h.2]
    | option v => cases v <;> cases h
    | _ => cases h

theorem eq_of_compareAll_eq (as bs : List Value) (h : compareAll as bs = .eq) : as = bs := by
  cases as with
  | nil =>
    cases bs with
    | nil => rfl
    | cons b bs => cases h
  | cons a as =>
    cases bs with
    | nil => cases h
    | cons b bs =>
      rw [compareAll, Ordering.then_eq_eq] at h
      rw [eq_of_compare_eq a b h.1, eq_of_compareAll_eq as bs h.2]

theorem eq_of_compareEntries_eq (as bs : List (Value × Value)) (h : compareEntries as bs = .eq) :
    as = bs := by
  cases as with
  | nil =>
    cases bs with
    | nil => rfl
    | cons b bs => cases h
  | cons a as =>
    cases bs with
    | nil => cases h
    | cons b bs =>
      obtain ⟨k, v⟩ := a
      obtain ⟨l, w⟩ := b
      rw [compareEntries, Ordering.then_eq_eq, Ordering.then_eq_eq] at h
      rw [eq_of_compare_eq k l h.1.1, eq_of_compare_eq v w h.1.2, eq_of_compareEntries_eq as bs h.2]

end

instance : Std.TransCmp compare where
  eq_swap {a b} := by
    rw [compare_code, compare_code]
    exact Std.OrientedOrd.eq_swap
  isLE_trans {a b c} first second := by
    rw [compare_code] at first second ⊢
    exact Std.TransOrd.isLE_trans first second

instance : Std.LawfulEqCmp compare where
  eq_of_compare {a b} := eq_of_compare_eq a b

end BinaryCodec.Value
