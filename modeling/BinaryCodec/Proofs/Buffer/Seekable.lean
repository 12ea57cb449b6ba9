import BinaryCodec.Proofs.Buffer.History
import BinaryCodec.Proofs.Buffer.Seeking

namespace BinaryCodec

open Buffer

inductive BufferRequest.Reads : BufferRequest → Prop
  | read (request : ReadRequest) : Reads (.read request)
  | once (n : Nat) : Reads (.call (.read n))
  | streamRead (n : Nat) : Reads (.streamRead n)

structure StepView where
  request : BufferRequest
  result : Except Error request.Reply
  position : Except Error Nat
  /-- Number of bytes that are left to read after it, where the store can tell. -/
  available : Option Nat

def BufferStep.view (step : BufferStep) : StepView :=
  ⟨step.request, step.result, step.after.store.readPosition, step.after.store.available⟩

namespace Buffer

/-- What a reader sees of requests one after another, those behind a failed one as well. -/
def views (requests : List BufferRequest) (b : Buffer) : List StepView :=
  (history requests b).map BufferStep.view

theorem views_append (earlier later : List BufferRequest) (b : Buffer) :
    views (earlier ++ later) b = views earlier b ++ views later (afterAll earlier b) := by
  unfold views
  rw [history_append, List.map_append]

theorem length_views (requests : List BufferRequest) (b : Buffer) :
    (views requests b).length = requests.length := by
  induction requests generalizing b with
  | nil => rfl
  | cons request rest ih => exact congrArg (· + 1) (ih (request.step b).after)

/-- A buffer over a stream that stands at its cursor, and one over a slice of the same bytes whose cursor
stands there. No bits wait to be written. -/
inductive Twins (bytes : List UInt8) : Buffer → Buffer → Prop
  | over (place : Nat) (within : place ≤ bytes.length) (bits : PendingBits) (unwritten : bits.free = 8) :
      Twins bytes ⟨.seekable (.ofList bytes place), bits⟩ ⟨.slice ⟨bytes.toArray, place⟩, bits⟩

theorem steady_ofList (bytes : List UInt8) (place : Nat) : (SeekableReader.ofList bytes place).Steady :=
  ⟨rfl, fun _ => rfl⟩

theorem seeks_ofList (bytes : List UInt8) (place : Nat) :
    (Store.seekable (.ofList bytes place)).Seeks := ⟨steady_ofList bytes place, rfl⟩

theorem upcoming_ofList (bytes : List UInt8) (place : Nat) :
    (Store.seekable (.ofList bytes place)).upcoming = bytes.drop place := Reader.left_whole rfl

theorem read_ofList (bytes : List UInt8) (place n : Nat) :
    (Store.seekable (.ofList bytes place)).read n =
      .ok ((bytes.drop place).take n)
        ((Store.seekable (.ofList bytes place)).advance (min n (bytes.drop place).length)) := by
  have left : (SeekableReader.ofList bytes place).stream.left = bytes.drop place := upcoming_ofList bytes place
  have short : (bytes.drop place).length ≤ bytes.length + 1 := by
    rw [List.length_drop]
    omega
  have all : (bytes.drop place).take (min n (bytes.length + 1)) = (bytes.drop place).take n := by
    rw [← List.take_take, List.take_of_length_le short]
  rw [Store.read_seekable, Reader.deliver_live rfl, left]
  change EStateM.Result.ok ((bytes.drop place).take (min n (bytes.length + 1)))
    (Store.advance ((bytes.drop place).take (min n (bytes.length + 1))).length _) = _
  rw [all, List.length_take]

section simulation

variable {bytes : List UInt8} {b c : Buffer}

theorem Twins.advance {n : Nat} (twins : Twins bytes b c) (enough : n ≤ b.upcoming.length) :
    Twins bytes (b.advance n) (c.advance n) := by
  obtain ⟨place, within, bits, unwritten⟩ := twins
  have left : n ≤ ((Store.seekable (.ofList bytes place)).upcoming).length := enough
  rw [upcoming_ofList, List.length_drop] at left
  exact .over (place + n) (by omega) bits unwritten

theorem Twins.contents (twins : Twins bytes b c) :
    Buffer.contents b = .ok bytes b ∧ Buffer.contents c = .ok bytes c := by
  obtain ⟨place, within, bits, unwritten⟩ := twins
  exact ⟨rfl, rfl⟩

theorem respects_seekRead (position : Nat) : Respects (Twins bytes) (seekRead position) := by
  constructor
  intro b c twins
  obtain ⟨place, within, bits, unwritten⟩ := twins
  have first := seekRead_eq (b := ⟨.seekable (.ofList bytes place), bits⟩) (seeks_ofList bytes place) position
  have second := seekRead_eq (b := ⟨.slice ⟨bytes.toArray, place⟩, bits⟩) True.intro position
  by_cases there : position ≤ bytes.length
  · rw [first.trans (if_pos there), second.trans (if_pos there)]
    exact .ok () (.over position there bits unwritten)
  · rw [first.trans (if_neg there), second.trans (if_neg there)]
    exact .error (.seekOutOfBounds position bytes.length) (.over place within bits unwritten)

theorem respects_contents : Respects (Twins bytes) contents := by
  constructor
  intro b c twins
  obtain ⟨first, second⟩ := twins.contents
  rw [first, second]
  exact .ok _ twins

theorem respects_flush : Respects (Twins bytes) flushBits := by
  constructor
  intro b c twins
  obtain ⟨place, within, bits, unwritten⟩ := twins
  have full : ¬bits.free < 8 := by omega
  rw [flushBits_apply, flushBits_apply]
  dsimp only
  rw [if_neg full]
  exact .ok () (.over place within .none rfl)

instance simulation_twins : Simulation (Twins bytes) where
  delivers := fun ⟨_, _, _, _⟩ => ⟨⟨rfl, rfl⟩, True.intro⟩
  upcoming := fun ⟨place, _, _, _⟩ => upcoming_ofList bytes place
  ending := fun ⟨_, _, _, _⟩ => rfl
  readPosition := fun ⟨_, _, _, _⟩ => rfl
  size := fun ⟨_, _, _, _⟩ => rfl
  bits := fun ⟨_, _, _, _⟩ => rfl
  advance := Twins.advance
  refilled bits := fun ⟨place, within, _, unwritten⟩ same => .over place within bits (same.trans unwritten)
  seekRead := respects_seekRead
  contents := respects_contents
  flushBits := respects_flush

theorem respects_read (n : Nat) : Respects (Twins bytes) (read n) := by
  constructor
  intro b c twins
  have moved := twins.advance (Nat.min_le_right n b.upcoming.length)
  obtain ⟨place, within, bits, unwritten⟩ := twins
  have first := read_ofList bytes place n
  have second := Store.read_held (s := .slice ⟨bytes.toArray, place⟩) True.intro ⟨by simp, by simp⟩ n
  have upcoming := upcoming_ofList bytes place
  unfold read onStore
  dsimp only
  rw [first, second]
  unfold Buffer.upcoming at moved
  rw [upcoming] at moved
  exact .ok _ moved

theorem respects_of_reads {request : BufferRequest} (reads : request.Reads) :
    Respects (Twins bytes) request.perform := by
  cases reads with
  | read request => exact request.respects_perform
  | once n => exact respects_read n
  | streamRead n =>
    have single : Respects (Twins bytes) (read n) := respects_read n
    exact respects_asStream (read n)

theorem Twins.step {request : BufferRequest} (twins : Twins bytes b c) (reads : request.Reads) :
    (request.step b).view = (request.step c).view ∧
      Twins bytes (request.step b).after (request.step c).after := by
  have alike := (respects_of_reads reads).run b c twins
  unfold BufferRequest.step BufferStep.view
  dsimp only
  generalize request.perform b = result at alike ⊢
  generalize request.perform c = other at alike ⊢
  cases alike with
  | ok reply after =>
    simp only [settled, simulation_twins.readPosition after, Simulation.available after, true_and]
    exact after
  | error e after =>
    simp only [settled, simulation_twins.readPosition after, Simulation.available after, true_and]
    exact after

theorem Twins.views {requests : List BufferRequest} (twins : Twins bytes b c)
    (reading : ∀ request ∈ requests, request.Reads) :
    Buffer.views requests b = Buffer.views requests c ∧
      Twins bytes (afterAll requests b) (afterAll requests c) := by
  induction requests generalizing b c with
  | nil => exact ⟨rfl, twins⟩
  | cons request rest ih =>
    obtain ⟨reads, others⟩ := List.forall_mem_cons.mp reading
    obtain ⟨same, after⟩ := twins.step reads
    obtain ⟨more, last⟩ := ih after others
    exact ⟨List.cons_eq_cons.mpr ⟨same, more⟩, last⟩

end simulation

theorem twins_seek {bytes : List UInt8} {start : Nat} (within : start ≤ bytes.length) :
    Twins bytes (ofStore (.seekable (.ofList bytes start)))
      (afterAll [.read (.seek start)] (ofSlice bytes)) := by
  have there : start ≤ (ofSlice bytes).store.stored.size := by
    change start ≤ bytes.toArray.size
    rwa [List.size_toArray]
  have moved := (seekRead_eq (b := ofSlice bytes) True.intro start).trans (if_pos there)
  have sought : afterAll [.read (.seek start)] (ofSlice bytes) = (ofSlice bytes).readingFrom start := by
    change (settled (seekRead start (ofSlice bytes))).2 = _
    rw [moved]
    rfl
  rw [sought]
  exact .over start there .none rfl

/-- Whatever is read of a stream that can seek, a slice of the same bytes that has been sought to where the stream
begins answers alike at every step. To ask for all bytes on the way adds a step and changes no other. -/
theorem views_seekable {bytes : List UInt8} {start : Nat} (within : start ≤ bytes.length)
    {requests : List BufferRequest} (reading : ∀ request ∈ requests, request.Reads) :
    let stream := ofStore (.seekable (.ofList bytes start))
    views requests stream = views requests (afterAll [.read (.seek start)] (ofSlice bytes)) ∧
      ∀ earlier later, earlier ++ later = requests →
        let between := afterAll earlier stream
        ∃ front back, front.length = earlier.length ∧ views requests stream = front ++ back ∧
          views (earlier ++ .read .contents :: later) stream = front ++
            ⟨.read .contents, .ok bytes, between.store.readPosition, between.store.available⟩ :: back := by
  intro stream
  have twins := twins_seek within
  refine ⟨(twins.views reading).1, ?_⟩
  rintro earlier later rfl between
  have reached := (twins.views fun request member => reading request (List.mem_append_left _ member)).2
  have answered : contents between = .ok bytes between := reached.contents.1
  have asked : (BufferRequest.step (.read .contents) between).view =
      ⟨.read .contents, .ok bytes, between.store.readPosition, between.store.available⟩ ∧
        (BufferRequest.step (.read .contents) between).after = between := by
    unfold BufferRequest.step BufferStep.view
    simp only [BufferRequest.perform, ReadRequest.perform, answered, settled, and_self]
  refine ⟨views earlier stream, views later between, length_views earlier stream,
    views_append earlier later stream, ?_⟩
  rw [views_append]
  exact congrArg _ (List.cons_eq_cons.mpr ⟨asked.1, congrArg (views later) asked.2⟩)

def roamedBytes : List UInt8 := [6, 1, 2, 3, 4]

/-- Requests that seek past the end and ask for all bytes between two reads. -/
def roamingRequests : List BufferRequest :=
  [.read (.bytes 2), .read .contents, .read (.seek 9), .read (.jump 1), .read (.exact 3), .read (.reverse 2),
    .streamRead 1]

theorem views_seekable_roaming :
    1 ≤ roamedBytes.length ∧ (∀ request ∈ roamingRequests, request.Reads) ∧
      views roamingRequests (ofStore (.seekable (.ofList roamedBytes 1))) =
        views roamingRequests (afterAll [.read (.seek 1)] (ofSlice roamedBytes)) ∧
      views roamingRequests (ofStore (.seekable (.ofList roamedBytes 1))) =
        [⟨.read (.bytes 2), .ok [1, 2], .ok 3, some 2⟩,
          ⟨.read .contents, .ok [6, 1, 2, 3, 4], .ok 3, some 2⟩,
          ⟨.read (.seek 9), .error (.seekOutOfBounds 9 5), .ok 3, some 2⟩,
          ⟨.read (.jump 1), .ok (), .ok 4, some 1⟩,
          ⟨.read (.exact 3), .error (.endOfData 3 1), .ok 5, some 0⟩,
          ⟨.read (.reverse 2), .ok (), .ok 3, some 2⟩,
          ⟨.streamRead 1, .ok [3], .ok 4, some 1⟩] := by
  have within : 1 ≤ roamedBytes.length := by decide
  have reading (request : BufferRequest) (member : request ∈ roamingRequests) : request.Reads := by
    simp only [roamingRequests, List.mem_cons, List.not_mem_nil, or_false] at member
    rcases member with rfl | rfl | rfl | rfl | rfl | rfl | rfl
    all_goals constructor
  exact ⟨within, reading, (views_seekable within reading).1, by with_unfolding_all rfl⟩

end Buffer

end BinaryCodec
