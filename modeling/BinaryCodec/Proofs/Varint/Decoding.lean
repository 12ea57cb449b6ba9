import BinaryCodec.Proofs.Varint.Words

namespace BinaryCodec.Varint

variable {bits left : Nat} {bytes groups rest : List UInt8}

section last

/-- The place of the last group, which is the first byte whose top bit is clear. -/
def lastGroup? (bytes : List UInt8) : Option Nat := bytes.findIdx? fun b => b &&& 0x80 == 0

theorem lastGroup?_cons (b : UInt8) (rest : List UInt8) :
    lastGroup? (b :: rest) = if b < 128 then some 0 else (lastGroup? rest).map (· + 1) := by
  have ends : (b &&& 0x80 == 0) = decide (b < 128) := by
    rw [← Bool.not_inj_iff, ← continues_eq]
    rfl
  rw [lastGroup?, List.findIdx?_cons, ends]
  simp only [decide_eq_true_eq, lastGroup?]

theorem lastGroup?_append (grouped : Grouped groups) (rest : List UInt8) :
    lastGroup? (groups ++ rest) = some (groups.length - 1) := by
  obtain ⟨continued, last, rfl, all, ends⟩ := grouped
  induction continued with
  | nil => simp [lastGroup?_cons, ends]
  | cons group continued ih =>
    have more : ¬group < 128 := UInt8.not_lt.mpr (all group (List.mem_cons_self ..))
    rw [List.cons_append, List.cons_append, lastGroup?_cons, if_neg more,
      ih fun b member => all b (List.mem_cons_of_mem _ member)]
    simp

theorem lt_of_lastGroup? {k : Nat} (found : lastGroup? bytes = some k) : k < bytes.length :=
  (List.findIdx?_eq_some_iff_findIdx_eq.mp found).1

theorem length_take_lastGroup? {k : Nat} (found : lastGroup? bytes = some k) :
    (bytes.take (k + 1)).length = k + 1 := by
  have := lt_of_lastGroup? found
  rw [List.length_take]
  omega

end last

section front

def frontGroups (bits : Nat) (bytes : List UInt8) : Except Error (List UInt8) :=
  match lastGroup? bytes with
  | some k => if k < groupCount bits then .ok (bytes.take (k + 1)) else .error (.varintOverflow bits)
  | none =>
    if bytes.length < groupCount bits then .error (.endOfData (bytes.length + 1) bytes.length)
    else .error (.varintOverflow bits)

theorem frontGroups_append (grouped : Grouped groups) (enough : groups.length ≤ groupCount bits)
    (rest : List UInt8) : frontGroups bits (groups ++ rest) = .ok groups := by
  have filled := grouped.length_pos
  rw [frontGroups, lastGroup?_append grouped]
  simp only [show groups.length - 1 < groupCount bits by omega, if_true,
    Nat.sub_add_cancel filled, List.take_left]

theorem frontGroups_append_of_lt (grouped : Grouped groups)
    (more : groupCount bits < groups.length) (rest : List UInt8) :
    frontGroups bits (groups ++ rest) = .error (.varintOverflow bits) := by
  rw [frontGroups, lastGroup?_append grouped]
  simp only [show ¬groups.length - 1 < groupCount bits by omega, if_false]

theorem run_bind {σ α β : Type} (m : EStateM Error σ α) (f : α → EStateM Error σ β) (s : σ) :
    (m >>= f) s = match m s with
      | .ok v s => f v s
      | .error e s => .error e s := by
  change EStateM.bind m f s = _
  unfold EStateM.bind
  cases m s <;> rfl

theorem nextOf_append (front : List UInt8) (b : UInt8) (rest : List UInt8) :
    nextOf (front ++ b :: rest) front.length = .ok b (front.length + 1) := by
  simp [nextOf]

theorem nextOf_length (bytes : List UInt8) :
    nextOf bytes bytes.length = .error (.endOfData (bytes.length + 1) bytes.length) bytes.length := by
  simp [nextOf]

theorem groupsOf_nextOf (left : Nat) (front rest : List UInt8) :
    groupsOf (nextOf (front ++ rest)) left front.length =
      match lastGroup? rest with
      | some k =>
        if k < left then .ok (some (rest.take (k + 1))) (front.length + (k + 1))
        else .ok none (front.length + left)
      | none =>
        if rest.length < left then
          .error (.endOfData ((front ++ rest).length + 1) (front ++ rest).length)
            (front ++ rest).length
        else .ok none (front.length + left) := by
  induction left generalizing front rest with
  | zero =>
    cases lastGroup? rest <;> rfl
  | succ left ih =>
    cases rest with
    | nil =>
      rw [List.append_nil, groupsOf, run_bind, nextOf_length]
      rfl
    | cons b rest =>
      have later := ih (front ++ [b]) rest
      have shift (n : Nat) : front.length + 1 + n = front.length + (n + 1) := by omega
      rw [List.append_assoc, List.singleton_append, List.length_append, List.length_singleton] at later
      simp only [shift] at later
      rw [groupsOf, run_bind, nextOf_append, lastGroup?_cons]
      by_cases ends : b < 128
      · simp only [ends, if_true, Nat.zero_lt_succ]
        rfl
      · simp only [ends, if_false]
        rw [run_bind, later]
        cases lastGroup? rest with
        | none =>
          by_cases short : rest.length < left
          · simp only [short, Option.map_none, List.length_cons, Nat.add_lt_add_iff_right, if_true]
          · simp only [short, Option.map_none, List.length_cons, Nat.add_lt_add_iff_right, if_false]
            rfl
        | some k =>
          by_cases enough : k < left
          · simp only [enough, Option.map_some, Nat.add_lt_add_iff_right, if_true]
            rfl
          · simp only [enough, Option.map_some, Nat.add_lt_add_iff_right, if_false]
            rfl

theorem decodeWith_groupsOf {α : Type} {bits : Nat} {bytes : List UInt8}
    {read : Source Nat → EStateM Error Nat α}
    {finish : Option (List UInt8) → EStateM Error Nat α} {value : List UInt8 → Except Error α}
    (reads : read (nextOf bytes) = groupsOf (nextOf bytes) (groupCount bits) >>= finish)
    (few : ∀ groups used, finish (some groups) used = match value groups with
      | .ok v => .ok v used
      | .error e => .error e used)
    (many : finish none = throw (.varintOverflow bits)) :
    decodeWith bytes read =
      frontGroups bits bytes >>= fun groups => (value groups).map fun v => (v, groups.length) := by
  have taken := groupsOf_nextOf (groupCount bits) [] bytes
  simp only [List.nil_append, List.length_nil, Nat.zero_add] at taken
  rw [decodeWith, reads, run_bind, taken, frontGroups]
  cases found : lastGroup? bytes with
  | none =>
    by_cases short : bytes.length < groupCount bits
    · simp only [short, if_true]
      rfl
    · simp only [short, if_false, many]
      rfl
  | some k =>
    by_cases enough : k < groupCount bits
    · simp only [enough, if_true, few]
      change _ = (value (bytes.take (k + 1))).map _
      rw [length_take_lastGroup? found]
      cases value (bytes.take (k + 1)) <;> rfl
    · simp only [enough, if_false, many]
      rfl

variable {α : Type} {value : List UInt8 → Except Error α}

theorem frontGroups_ok_iff {v : α} {used : Nat} :
    (frontGroups bits bytes >>= fun groups => (value groups).map fun v => (v, groups.length)) =
        .ok (v, used) ↔
      ∃ k, lastGroup? bytes = some k ∧ k < groupCount bits ∧ value (bytes.take (k + 1)) = .ok v ∧
        used = k + 1 := by
  rw [frontGroups]
  cases found : lastGroup? bytes with
  | none =>
    by_cases short : bytes.length < groupCount bits
    · simp [short, bind, Except.bind]
    · simp [short, bind, Except.bind]
  | some k =>
    have length := length_take_lastGroup? found
    by_cases enough : k < groupCount bits
    · simp only [enough, if_true, bind, Except.bind, Option.some.injEq]
      cases came : value (bytes.take (k + 1)) with
      | error e =>
        simp only [Except.map, reduceCtorEq, false_iff]
        rintro ⟨_, rfl, -, answer, -⟩
        cases came.symm.trans answer
      | ok w =>
        simp only [Except.map, length, Except.ok.injEq, Prod.mk.injEq]
        constructor
        · rintro ⟨rfl, rfl⟩
          exact ⟨k, rfl, enough, came, rfl⟩
        · rintro ⟨_, rfl, -, answer, rfl⟩
          exact ⟨Except.ok.inj (came.symm.trans answer), rfl⟩
    · simp only [enough, if_false, bind, Except.bind, Option.some.injEq, reduceCtorEq, false_iff]
      rintro ⟨_, rfl, inside, -⟩
      exact enough inside

theorem frontGroups_map_ok {β : Type} {f : α → β} {w : β} {used : Nat}
    (answer : (frontGroups bits bytes >>= fun groups =>
      ((value groups).map f).map fun w => (w, groups.length)) = .ok (w, used)) :
    ∃ k v, lastGroup? bytes = some k ∧ value (bytes.take (k + 1)) = .ok v ∧ w = f v := by
  obtain ⟨k, found, -, came, -⟩ := frontGroups_ok_iff.mp answer
  cases held : value (bytes.take (k + 1)) with
  | error e =>
    rw [held] at came
    cases came
  | ok v =>
    rw [held] at came
    cases came
    exact ⟨k, v, found, held, rfl⟩

theorem frontGroups_encoded {v : α} {fits : Prop} [Decidable fits] (grouped : Grouped groups)
    (enough : fits → groups.length ≤ groupCount bits)
    (settled : value groups = if fits then .ok v else .error (.varintOverflow bits))
    (rest : List UInt8) :
    (frontGroups bits (groups ++ rest) >>= fun groups =>
        (value groups).map fun v => (v, groups.length)) =
      if fits then .ok (v, groups.length) else .error (.varintOverflow bits) := by
  -- Too many groups are refused by their number alone, and their integer is too wide as well.
  by_cases few : groups.length ≤ groupCount bits
  · rw [frontGroups_append grouped few]
    simp only [bind, Except.bind, settled]
    split <;> rfl
  · rw [frontGroups_append_of_lt grouped (Nat.not_le.mp few), if_neg (mt enough few)]
    rfl

theorem frontGroups_error (wide : ∀ groups e, value groups = .error e → e = .varintOverflow bits)
    {e : Error} (fails : (frontGroups bits bytes >>= fun groups =>
      (value groups).map fun v => (v, groups.length)) = .error e) :
    e = if lastGroup? bytes = none ∧ bytes.length < groupCount bits then
      .endOfData (bytes.length + 1) bytes.length else .varintOverflow bits := by
  rw [frontGroups] at fails
  cases found : lastGroup? bytes with
  | none =>
    rw [found] at fails
    by_cases short : bytes.length < groupCount bits
    · simp only [short, if_true] at fails
      cases fails
      simp [short]
    · simp only [short, if_false] at fails
      cases fails
      simp [short]
  | some k =>
    rw [found] at fails
    by_cases enough : k < groupCount bits
    · simp only [enough, if_true] at fails
      cases came : value (bytes.take (k + 1)) with
      | error other =>
        simp only [bind, Except.bind, came] at fails
        cases fails
        simpa using wide _ _ came
      | ok v =>
        simp only [bind, Except.bind, came] at fails
        cases fails
    · simp only [enough, if_false] at fails
      cases fails
      simp

end front

section decoders

theorem groupCount_near (bits : Nat) : 0 + 7 * groupCount bits < bits + 7 := by
  unfold groupCount
  omega

theorem decodeWith_readUnsigned (narrow : bits ≤ 128) (bytes : List UInt8) :
    decodeWith bytes (fun next => readUnsigned next bits) = frontGroups bits bytes >>= fun groups =>
      ((unsigned? bits groups).map (BitVec.ofNat 128)).map fun word => (word, groups.length) := by
  refine decodeWith_groupsOf (gatherUnsigned_eq narrow (groupCount_near bits) (by decide))
    (fun groups used => ?_) rfl
  simp only [finishUnsigned_zero, unsigned?]
  split <;> rfl

theorem decodeWith_readSigned (positive : 0 < bits) (narrow : bits ≤ 128) (bytes : List UInt8) :
    decodeWith bytes (fun next => readSigned next bits) = frontGroups bits bytes >>= fun groups =>
      ((signed? bits groups).map (BitVec.ofInt 128)).map fun word => (word, groups.length) := by
  refine decodeWith_groupsOf
    (gatherSigned_eq positive narrow (groupCount_near bits) (by decide) (by decide))
    (fun groups used => ?_) rfl
  simp only [finishSigned_zero, signed?]
  split <;> rfl

theorem decodeUnsigned_eq (narrow : bits ≤ 128) (bytes : List UInt8) :
    decodeUnsigned bits bytes = frontGroups bits bytes >>= fun groups =>
      (unsigned? bits groups).map fun value => (value, groups.length) := by
  rw [decodeUnsigned, decodeWith_readUnsigned narrow]
  cases frontGroups bits bytes with
  | error e => rfl
  | ok groups =>
    change ((unsigned? bits groups).map _ |>.map _).bind _ = (unsigned? bits groups).map _
    cases fits : unsigned? bits groups with
    | error e => rfl
    | ok value =>
      change Except.ok (((BitVec.ofNat 128 value).setWidth bits).toNat, groups.length) = _
      rw [toNat_setWidth_ofNat narrow (lt_of_unsigned? fits)]
      rfl

theorem decodeSigned_eq (positive : 0 < bits) (narrow : bits ≤ 128) (bytes : List UInt8) :
    decodeSigned bits bytes = frontGroups bits bytes >>= fun groups =>
      (signed? bits groups).map fun value => (value, groups.length) := by
  rw [decodeSigned, decodeWith_readSigned positive narrow]
  cases frontGroups bits bytes with
  | error e => rfl
  | ok groups =>
    change ((signed? bits groups).map _ |>.map _).bind _ = (signed? bits groups).map _
    cases fits : signed? bits groups with
    | error e => rfl
    | ok value =>
      change Except.ok (((BitVec.ofInt 128 value).setWidth bits).toInt, groups.length) = _
      rw [toInt_setWidth_ofInt positive narrow (holds_of_signed? fits)]
      rfl

end decoders

end BinaryCodec.Varint
