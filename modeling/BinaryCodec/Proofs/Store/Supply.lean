import BinaryCodec.Store.Basic

namespace BinaryCodec

inductive Ending where
  | known
  /-- The store cannot tell, and reads deliver nothing at the end. -/
  | unknown
  /-- The store cannot tell, and reads fail at the end. -/
  | failing (fault : IoFault)
  deriving DecidableEq, Repr, Inhabited

/-- What reads at the end fail with, if they do. -/
def Ending.fault? : Ending → Option IoFault
  | .failing fault => some fault
  | .known | .unknown => none

@[simp] theorem Ending.fault?_known : Ending.known.fault? = none := rfl

@[simp] theorem Ending.fault?_unknown : Ending.unknown.fault? = none := rfl

@[simp] theorem Ending.fault?_failing (fault : IoFault) : (Ending.failing fault).fault? = some fault := rfl

def Ending.shortage (ending : Ending) (needed got : Nat) : Error :=
  match ending.fault? with
  | some fault => .io fault
  | none => .endOfData needed got

def Ending.ofFailure (otherwise : Ending) : Option Failure → Ending
  | none => otherwise
  | some failure => .failing failure.fault

theorem take_min_length {α : Type} (n : Nat) (bytes : List α) :
    bytes.take (min n bytes.length) = bytes.take n := by
  rw [← List.take_take, List.take_length]

namespace Reader

variable {r : Reader}

def left (r : Reader) : List UInt8 := (r.content.toList.drop r.position).take r.reach

theorem length_left : r.left.length = r.reach := by
  simp only [left, List.length_take, List.length_drop, Array.length_toList, reach]
  omega

theorem left_whole (whole : r.failsAt = none) : r.left = r.content.toList.drop r.position := by
  rw [left, List.take_of_length_le]
  simp [reach, whole]

theorem fault?_eq : r.fault? = if r.left = [] then r.failsAt.map Failure.fault else none := by
  have ended : r.left = [] ↔ r.reach = 0 := by rw [← length_left, List.length_eq_zero_iff]
  cases h : r.failsAt with
  | none => simp [fault?, h]
  | some failure =>
    simp only [ended, fault?, reach, h, Option.map_some, Option.getD_some]
    split <;> split <;> first | rfl | omega

theorem deliver_live (live : r.fault? = none) (n : Nat) :
    r.deliver n = .ok (r.left.take (min n (r.limit r.position))) := by
  simp only [deliver, live, ite_self, Content.piece_eq, left, List.take_take]

theorem deliver_cases (limit : 0 < r.limit r.position) {n : Nat} (positive : 0 < n) :
    (∃ failure, r.left = [] ∧ r.failsAt = some failure ∧ r.deliver n = .error (.io failure.fault)) ∨
    ∃ k, k ≤ n ∧ k ≤ r.left.length ∧ (r.left ≠ [] → 0 < k) ∧ (r.left = [] → r.failsAt = none) ∧
      r.deliver n = .ok (r.left.take k) := by
  have fault := fault?_eq (r := r)
  by_cases empty : r.left = []
  · rw [if_pos empty] at fault
    cases fails : r.failsAt with
    | some failure =>
      have asked : n ≠ 0 := by omega
      refine .inl ⟨failure, empty, rfl, ?_⟩
      simp [deliver, asked, fault, fails]
    | none =>
      rw [fails] at fault
      refine .inr ⟨0, Nat.zero_le _, Nat.zero_le _, fun filled => absurd empty filled, fun _ => rfl, ?_⟩
      rw [deliver_live fault, empty, List.take_nil, List.take_nil]
  · rw [if_neg empty] at fault
    have some := List.length_pos_iff.mpr empty
    refine .inr ⟨min (min n (r.limit r.position)) r.left.length, by omega, by omega, fun _ => by omega,
      fun ended => absurd ended empty, ?_⟩
    rw [deliver_live fault, take_min_length]

end Reader

namespace SeekableReader

variable {s : SeekableReader} {position : Nat}

/-- Nothing fails, neither a read nor taking the stream to a position. -/
def Steady (s : SeekableReader) : Prop :=
  s.stream.failsAt = none ∧ ∀ position, s.seekFault position = none

theorem seekRead_eq (steady : s.Steady) (position : Nat) :
    s.seekRead position =
      (checkPosition position s.content.size).map fun place => s.moveTo place place := by
  simp only [seekRead, checkSeek, steady.2]
  cases checkPosition position s.content.size <;> rfl

theorem placed_of_seekRead {after : SeekableReader} (came : s.seekRead position = .ok after) :
    after.streamPosition = after.readPosition := by
  simp only [seekRead, bind, Except.bind] at came
  split at came
  · cases came
  · split at came <;> cases came
    rfl

theorem contents_eq (steady : s.Steady) :
    s.contents = (.ok s.content.toList, s.moveTo s.readPosition s.readPosition) := by
  simp only [contents, checkSeek, steady.1, steady.2]

theorem steady_contents : s.contents.2.Steady ↔ s.Steady := by
  unfold contents
  split <;> exact Iff.rfl

end SeekableReader

namespace Store

def upcoming : Store → List UInt8
  | .memory m => m.content.toList.drop m.readPosition
  | .slice s => s.content.toList.drop s.readPosition
  | .reader r => r.left
  | .seekable s => s.stream.left
  | .writer _ => []
  | .file f => f.content.toList.drop f.readPosition

def ending : Store → Ending
  | .reader r => .ofFailure .unknown r.failsAt
  | .seekable s => .ofFailure .known s.stream.failsAt
  | .writer _ => .unknown
  | .memory _ | .slice _ | .file _ => .known

def advance (n : Nat) : Store → Store
  | .memory m => .memory { m with readPosition := m.readPosition + n }
  | .slice s => .slice { s with readPosition := s.readPosition + n }
  | .reader r => .reader { r with position := r.position + n }
  | .seekable s => .seekable (s.moveTo (s.streamPosition + n) (s.readPosition + n))
  | .writer w => .writer w
  | .file f => .file { f with readPosition := f.readPosition + n }

def Supplies : Store → Prop
  | .memory m => m.mode = .short
  | .slice _ | .seekable _ => True
  | .reader r => ∀ position, 0 < r.limit position
  | .writer _ => False
  | .file f => f.isOpen = true

/-- Whether the store also tells the truth about how many there are. -/
def Delivers : Store → Prop
  | .seekable s => s.stream.failsAt = none ∧ s.streamPosition = s.readPosition
  | store => store.Supplies

theorem Delivers.supplies {s : Store} (delivers : s.Delivers) : s.Supplies := by
  cases s with
  | seekable s => exact True.intro
  | _ => exact delivers

theorem read_held {s : Store} (supplies : s.Supplies) (held : (∀ r, s ≠ .reader r) ∧ ∀ t, s ≠ .seekable t)
    (n : Nat) : s.read n = .ok (s.upcoming.take n) (s.advance (min n s.upcoming.length)) := by
  cases s with
  | memory m =>
    simp only [Supplies] at supplies
    simp only [read, Memory.read, Content.piece_eq, supplies, upcoming, advance, List.length_take]
  | slice s => simp only [read, Slice.read, Content.piece_eq, upcoming, advance, List.length_take]
  | reader r => exact absurd rfl (held.1 r)
  | seekable t => exact absurd rfl (held.2 t)
  | writer w => exact supplies.elim
  | file f =>
    simp only [Supplies] at supplies
    simp [read, File.read, File.checkOpen, supplies, settle, Content.piece_eq, upcoming, advance,
      bind, Except.bind, pure, Except.pure]

theorem read_reader (r : Reader) (n : Nat) : (Store.reader r).read n =
    match r.deliver n with
    | .ok bytes => .ok bytes ((Store.reader r).advance bytes.length)
    | .error e => .error e (.reader r) := by
  simp only [read, Reader.read]
  cases r.deliver n <;> rfl

theorem read_seekable (s : SeekableReader) (n : Nat) : (Store.seekable s).read n =
    match s.stream.deliver n with
    | .ok bytes => .ok bytes ((Store.seekable s).advance bytes.length)
    | .error e => .error e (.seekable s) := by
  simp only [read, SeekableReader.read]
  cases s.stream.deliver n <;> rfl

theorem read_delivers {s : Store} (supplies : s.Supplies) {n : Nat} (positive : 0 < n) :
    (∃ fault, s.upcoming = [] ∧ s.ending = .failing fault ∧ s.read n = .error (.io fault) s) ∨
    ∃ k, k ≤ n ∧ k ≤ s.upcoming.length ∧ (s.upcoming ≠ [] → 0 < k) ∧
      (s.upcoming = [] → s.ending.fault? = none) ∧
      s.read n = .ok (s.upcoming.take k) (s.advance k) := by
  have held (held : (∀ r, s ≠ .reader r) ∧ ∀ t, s ≠ .seekable t) (live : s.ending.fault? = none) :
      ∃ k, k ≤ n ∧ k ≤ s.upcoming.length ∧ (s.upcoming ≠ [] → 0 < k) ∧
        (s.upcoming = [] → s.ending.fault? = none) ∧ s.read n = .ok (s.upcoming.take k) (s.advance k) := by
    refine ⟨min n s.upcoming.length, by omega, by omega, fun filled => ?_, fun _ => live, ?_⟩
    · have := List.length_pos_iff.mpr filled
      omega
    · rw [read_held supplies held, take_min_length]
  have streamed {r : Reader} (limit : 0 < r.limit r.position) {otherwise : Ending}
      (calm : otherwise.fault? = none) (upcoming : s.upcoming = r.left)
      (ending : s.ending = .ofFailure otherwise r.failsAt)
      (read : s.read n = match r.deliver n with
        | .ok bytes => .ok bytes (s.advance bytes.length)
        | .error e => .error e s) :
      (∃ fault, s.upcoming = [] ∧ s.ending = .failing fault ∧ s.read n = .error (.io fault) s) ∨
      ∃ k, k ≤ n ∧ k ≤ s.upcoming.length ∧ (s.upcoming ≠ [] → 0 < k) ∧
        (s.upcoming = [] → s.ending.fault? = none) ∧ s.read n = .ok (s.upcoming.take k) (s.advance k) := by
    rw [upcoming, ending]
    obtain ⟨failure, empty, fails, delivered⟩ | ⟨k, most, within, positive, live, delivered⟩ :=
      r.deliver_cases limit positive
    · exact .inl ⟨failure.fault, empty, by rw [fails]; rfl, by rw [read, delivered]⟩
    · refine .inr ⟨k, most, within, positive, fun empty => by rw [live empty]; exact calm, ?_⟩
      rw [read, delivered]
      simp only [List.length_take, Nat.min_eq_left within]
  cases s with
  | reader r => exact streamed (supplies r.position) rfl rfl rfl (read_reader r n)
  | seekable s => exact streamed (s.progress s.streamPosition) rfl rfl rfl (read_seekable s n)
  | writer w => exact supplies.elim
  | memory _ | slice _ | file _ => exact .inr (held ⟨by simp, by simp⟩ rfl)

variable {s : Store}

theorem upcoming_advance {n : Nat} : (s.advance n).upcoming = s.upcoming.drop n := by
  have left (r : Reader) : { r with position := r.position + n }.left = r.left.drop n := by
    simp only [Reader.left, Reader.reach, List.drop_take, List.drop_drop]
    congr 1
    omega
  cases s with
  | reader r => exact left r
  | seekable s => exact left s.stream
  | _ => simp only [upcoming, advance, List.drop_drop, List.drop_nil]

@[simp] theorem ending_advance {n : Nat} : (s.advance n).ending = s.ending := by
  cases s <;> rfl

theorem Supplies.advance (supplies : s.Supplies) (n : Nat) : (s.advance n).Supplies := by
  cases s <;> exact supplies

theorem Delivers.advance (delivers : s.Delivers) (n : Nat) : (s.advance n).Delivers := by
  cases s with
  | seekable s => exact ⟨delivers.1, congrArg (· + n) delivers.2⟩
  | _ => exact delivers

@[simp] theorem advance_zero : s.advance 0 = s := by
  cases s <;> rfl

@[simp] theorem advance_advance {m n : Nat} : (s.advance m).advance n = s.advance (m + n) := by
  cases s <;>
    simp only [Store.advance, SeekableReader.streamPosition_moveTo, SeekableReader.readPosition_moveTo,
      SeekableReader.moveTo_moveTo, Nat.add_assoc]

theorem available_eq (delivers : s.Delivers) :
    s.available = if s.ending = .known then some s.upcoming.length else none := by
  cases s with
  | reader r => cases h : r.failsAt <;> simp [available, ending, Ending.ofFailure, h]
  | writer w => exact delivers.elim
  | seekable s =>
    obtain ⟨whole, placed⟩ := delivers
    simp [available, ending, Ending.ofFailure, whole, upcoming, Reader.left_whole whole, ← placed,
      SeekableReader.content, SeekableReader.streamPosition]
  | file f =>
    simp only [Delivers, Supplies] at delivers
    simp [available, ending, upcoming, delivers]
  | memory _ | slice _ => simp [available, ending, upcoming]

theorem unread_eq : s.unread = s.upcoming.length := by
  cases s with
  | reader r => exact Reader.length_left.symm
  | seekable s => exact Reader.length_left.symm
  | _ => simp [unread, upcoming]

end Store

end BinaryCodec
