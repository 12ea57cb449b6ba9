import BinaryCodec.Proofs.Buffer.Request

namespace BinaryCodec

/-- Bytes with two cursors, neither past the end. -/
structure TwoCursor where
  content : List UInt8
  readCursor : Nat
  writeCursor : Nat
  read_le : readCursor ≤ content.length
  write_le : writeCursor ≤ content.length

namespace TwoCursor

def upcoming (t : TwoCursor) : List UInt8 := t.content.drop t.readCursor

def forward (n : Nat) (t : TwoCursor) : TwoCursor :=
  { t with
    readCursor := min (t.readCursor + n) t.content.length
    read_le := Nat.min_le_right .. }

/-- Puts bytes in the place of those at the write cursor, past the end if there are fewer. -/
def write (bytes : List UInt8) (t : TwoCursor) : TwoCursor where
  content := t.content.take t.writeCursor ++ bytes ++ t.content.drop (t.writeCursor + bytes.length)
  readCursor := t.readCursor
  writeCursor := t.writeCursor + bytes.length
  read_le := by
    have := t.read_le
    have := t.write_le
    simp only [List.length_append, List.length_take, List.length_drop]
    omega
  write_le := by
    have := t.write_le
    simp only [List.length_append, List.length_take, List.length_drop]
    omega

def seekRead (position : Nat) (t : TwoCursor) : Except Error TwoCursor :=
  if h : position ≤ t.content.length then .ok { t with readCursor := position, read_le := h }
  else .error (.seekOutOfBounds position t.content.length)

def seekWrite (position : Nat) (t : TwoCursor) : Except Error TwoCursor :=
  if h : position ≤ t.content.length then .ok { t with writeCursor := position, write_le := h }
  else .error (.seekOutOfBounds position t.content.length)

def erased : TwoCursor := ⟨[], 0, 0, Nat.le_refl 0, Nat.le_refl 0⟩

def settle (t : TwoCursor) : Except Error TwoCursor → EStateM.Result Error TwoCursor Answer
  | .ok moved => .ok .done moved
  | .error e => .error e t

/-- Reads of a fixed number of bytes take all there are when these are too few. -/
def perform : Request → EStateM Error TwoCursor Answer
  | .write bytes, t => .ok .done (t.write bytes)
  | .readInto n, t => .ok (.bytes (t.upcoming.take n)) (t.forward n)
  | .readBytes n, t =>
    if t.upcoming.length < n then .error (.endOfData n t.upcoming.length) (t.forward n)
    else .ok (.bytes (t.upcoming.take n)) (t.forward n)
  | .readRemainder, t => .ok (.bytes t.upcoming) (t.forward t.upcoming.length)
  | .seekRead position, t => t.settle (t.seekRead position)
  | .seekWrite position, t => t.settle (t.seekWrite position)
  | .jump n, t => t.settle (t.seekRead (min (t.readCursor + n) Buffer.maxPosition))
  | .reverse n, t => t.settle (t.seekRead (t.readCursor - n))
  | .contents, t => .ok (.bytes t.content) t
  | .size, t => .ok (.size t.content.length) t
  | .available, t => .ok (.available (some (t.content.length - t.readCursor))) t
  | .erase, _ => .ok .done erased

def run (t : TwoCursor) (requests : List Request) : List (Except Error Answer) × TwoCursor :=
  runRequests perform requests t

def bitsAfter (bits : PendingBits) : Request → PendingBits
  | .erase => .none
  | _ => bits

def memory (t : TwoCursor) (bits : PendingBits) : Buffer :=
  ⟨.memory ⟨t.content.toArray, t.readCursor, t.writeCursor, .short⟩, bits⟩

def file (t : TwoCursor) (bits : PendingBits) : Buffer :=
  ⟨.file ⟨t.content.toArray, t.readCursor, t.writeCursor, false, true⟩, bits⟩

/-- A store on an open file that has been left at `place`. -/
def session (t : TwoCursor) (place : Nat) : Session :=
  ⟨⟨t.content.toArray, place⟩, t.readCursor, t.writeCursor, false, true⟩

def fill {σ : Type} (build : Content → Nat → Nat → σ) (t : TwoCursor) : σ :=
  build t.content.toArray t.readCursor t.writeCursor

def carried (image : TwoCursor → PendingBits → Buffer) (t : TwoCursor) (bits : PendingBits) :
    Except Error TwoCursor → EStateM.Result Error Buffer Unit
  | .ok moved => .ok () (image moved bits)
  | .error e => .error e (image t bits)

structure Presents (image : TwoCursor → PendingBits → Buffer) : Prop where
  delivers : ∀ t bits, (image t bits).Delivers
  known : ∀ t bits, (image t bits).ending = .known
  upcoming : ∀ t bits, (image t bits).upcoming = t.upcoming
  advance : ∀ t bits n, (image t bits).advance (min n t.upcoming.length) = image (t.forward n) bits
  write : ∀ t bits bytes, Buffer.writeBytes bytes (image t bits) = .ok () (image (t.write bytes) bits)
  readPosition : ∀ t bits, Buffer.readPosition (image t bits) = .ok t.readCursor (image t bits)
  seekRead : ∀ t bits position,
    Buffer.seekRead position (image t bits) = carried image t bits (t.seekRead position)
  seekWrite : ∀ t bits position,
    Buffer.seekWrite position (image t bits) = carried image t bits (t.seekWrite position)
  contents : ∀ t bits, Buffer.contents (image t bits) = .ok t.content (image t bits)
  size : ∀ t bits, Buffer.size (image t bits) = .ok t.content.length (image t bits)
  erase : ∀ t bits, Buffer.erase (image t bits) = .ok () (image erased .none)

theorem forward_eq (t : TwoCursor) (n : Nat) :
    t.readCursor + min n t.upcoming.length = (t.forward n).readCursor := by
  have within := t.read_le
  simp only [upcoming, forward, List.length_drop]
  omega

theorem overwrite_eq (t : TwoCursor) (bytes : List UInt8) :
    Content.overwrite t.content.toArray t.writeCursor bytes = (t.write bytes).content.toArray := by
  apply Array.toList_inj.mp
  rw [Content.toList_overwrite (by simpa using t.write_le)]
  rfl

theorem map_seekRead {σ : Type} (build : Content → Nat → Nat → σ) (t : TwoCursor) (position : Nat) :
    (do return build t.content.toArray (← checkPosition position t.content.length) t.writeCursor) =
      (t.seekRead position).map (fill build) := by
  unfold checkPosition seekRead
  split <;> rfl

theorem map_seekWrite {σ : Type} (build : Content → Nat → Nat → σ) (t : TwoCursor) (position : Nat) :
    (do return build t.content.toArray t.readCursor (← checkPosition position t.content.length)) =
      (t.seekWrite position).map (fill build) := by
  unfold checkPosition seekWrite
  split <;> rfl

theorem onStore_seek {σ : Type} (wrap : σ → Store) (build : Content → Nat → Nat → σ)
    {action : StoreM Unit} {t : TwoCursor} (bits : PendingBits) {moved : Except Error TwoCursor}
    (same : action (wrap (t.fill build)) =
      Store.move (wrap (t.fill build)) wrap (moved.map (fill build))) :
    Buffer.onStore action ⟨wrap (t.fill build), bits⟩ =
      carried (fun t bits => ⟨wrap (t.fill build), bits⟩) t bits moved := by
  simp only [Buffer.onStore, same]
  cases moved <;> rfl

def inMemory (content : Content) (read write : Nat) : Memory := ⟨content, read, write, .short⟩

def onFile (content : Content) (read write : Nat) : File := ⟨content, read, write, false, true⟩

theorem presents_memory : Presents memory where
  delivers _ _ := rfl
  known _ _ := rfl
  upcoming _ _ := rfl
  advance t bits n := by
    simp only [Buffer.advance, Store.advance, memory, forward_eq]
    rfl
  write t bits bytes := by
    simp only [Buffer.writeBytes, Buffer.onStore, memory, Store.write, Memory.write, overwrite_eq]
    rfl
  readPosition _ _ := rfl
  seekRead t bits position :=
    onStore_seek .memory inMemory bits
      (congrArg (Store.move _ .memory) (map_seekRead inMemory t position))
  seekWrite t bits position :=
    onStore_seek .memory inMemory bits
      (congrArg (Store.move _ .memory) (map_seekWrite inMemory t position))
  contents _ _ := rfl
  size _ _ := rfl
  erase _ _ := rfl

theorem presents_file : Presents file where
  delivers _ _ := rfl
  known _ _ := rfl
  upcoming _ _ := rfl
  advance t bits n := by
    simp only [Buffer.advance, Store.advance, file, forward_eq]
    rfl
  write t bits bytes := by
    simp only [Buffer.writeBytes, Buffer.onStore, file, Store.write, File.write, overwrite_eq]
    rfl
  readPosition _ _ := rfl
  seekRead t bits position :=
    onStore_seek .file onFile bits
      (congrArg (Store.move _ .file) (map_seekRead onFile t position))
  seekWrite t bits position :=
    onStore_seek .file onFile bits
      (congrArg (Store.move _ .file) (map_seekWrite onFile t position))
  contents _ _ := rfl
  size _ _ := rfl
  erase _ _ := rfl

def shown (image : TwoCursor → PendingBits → Buffer) (bits : PendingBits) :
    EStateM.Result Error TwoCursor Answer → EStateM.Result Error Buffer Answer
  | .ok answer t => .ok answer (image t bits)
  | .error e t => .error e (image t bits)

theorem settle_eq {image : TwoCursor → PendingBits → Buffer} {t : TwoCursor} {bits : PendingBits}
    {seek : BufferM Unit} {moved : Except Error TwoCursor}
    (run : seek (image t bits) = carried image t bits moved) :
    (do seek; return .done : BufferM Answer) (image t bits) = shown image bits (t.settle moved) := by
  rw [Buffer.bind_apply, run]
  cases moved <;> rfl

section Presents

variable {image : TwoCursor → PendingBits → Buffer} (presents : Presents image) (t : TwoCursor)
  (bits : PendingBits)
include presents

theorem Presents.conclude (result : Except Error (List UInt8)) (n : Nat) :
    (image t bits).conclude ⟨result, min n t.upcoming.length⟩ =
      match result with
      | .ok bytes => .ok bytes (image (t.forward n) bits)
      | .error e => .error e (image (t.forward n) bits) := by
  have moved := presents.advance t bits n
  cases result with
  | ok bytes => rw [Buffer.conclude_ok, moved]
  | error e => rw [Buffer.conclude_error, moved]

theorem Presents.readUpTo (n : Nat) :
    Buffer.readUpTo n (image t bits) = .ok (t.upcoming.take n) (image (t.forward n) bits) := by
  rw [Buffer.readUpTo_eq (presents.delivers t bits).supplies, presents.known, presents.upcoming,
    Buffer.upTo_of_live Ending.fault?_known, presents.conclude]

theorem Presents.readBytes (n : Nat) :
    Buffer.readBytes n (image t bits) =
      if t.upcoming.length < n then
        .error (.endOfData n t.upcoming.length) (image (t.forward n) bits)
      else .ok (t.upcoming.take n) (image (t.forward n) bits) := by
  have run := (Buffer.performs_readBytes n).run _ (presents.delivers t bits)
  rw [run, presents.known, presents.upcoming, Buffer.exactly]
  by_cases short : t.upcoming.length < n
  · have all : min n t.upcoming.length = t.upcoming.length := by omega
    have conclude := presents.conclude t bits (.error (.endOfData n t.upcoming.length)) n
    rw [all] at conclude
    simpa [short, Ending.shortage] using conclude
  · have all : min n t.upcoming.length = n := by omega
    have conclude := presents.conclude t bits (.ok (t.upcoming.take n)) n
    rw [all] at conclude
    simpa [short] using conclude

theorem Presents.readRemainder :
    Buffer.readRemainder (image t bits) =
      .ok t.upcoming (image (t.forward t.upcoming.length) bits) := by
  have run := Buffer.performs_readRemainder.run _ (presents.delivers t bits)
  have conclude := presents.conclude t bits (.ok t.upcoming) t.upcoming.length
  rw [Nat.min_self] at conclude
  rw [run, presents.known, presents.upcoming, Buffer.whole_of_live Ending.fault?_known, conclude]

theorem Presents.perform (request : Request) :
    Buffer.perform request (image t bits) =
      shown image (bitsAfter bits request) (t.perform request) := by
  cases request with
  | write bytes =>
    simp only [Buffer.perform]
    rw [Buffer.bind_apply, presents.write]
    rfl
  | readInto n =>
    simp only [Buffer.perform, Buffer.map_apply, presents.readUpTo]
    rfl
  | readBytes n =>
    simp only [Buffer.perform, Buffer.map_apply, presents.readBytes, TwoCursor.perform]
    by_cases short : t.upcoming.length < n
    · simp only [short, if_true]
      rfl
    · simp only [short, if_false]
      rfl
  | readRemainder =>
    simp only [Buffer.perform, Buffer.map_apply, presents.readRemainder]
    rfl
  | seekRead position => exact settle_eq (presents.seekRead t bits position)
  | seekWrite position => exact settle_eq (presents.seekWrite t bits position)
  | jump n =>
    refine settle_eq (show Buffer.jump n (image t bits) = _ from ?_)
    unfold Buffer.jump
    rw [Buffer.bind_apply, presents.readPosition]
    exact presents.seekRead t bits _
  | reverse n =>
    refine settle_eq (show Buffer.reverse n (image t bits) = _ from ?_)
    unfold Buffer.reverse
    rw [Buffer.bind_apply, presents.readPosition]
    exact presents.seekRead t bits _
  | contents =>
    simp only [Buffer.perform, Buffer.map_apply, presents.contents]
    rfl
  | size =>
    simp only [Buffer.perform, Buffer.map_apply, presents.size]
    rfl
  | available =>
    have run := Buffer.performs_available.run _ (presents.delivers t bits)
    have left : t.upcoming.length = t.content.length - t.readCursor := List.length_drop
    simp only [presents.known, presents.upcoming, Buffer.conclude_ok, Buffer.advance_zero, if_true,
      left] at run
    simp only [Buffer.perform, Buffer.map_apply, run]
    rfl
  | erase =>
    simp only [Buffer.perform]
    rw [Buffer.bind_apply, presents.erase]
    rfl

theorem Presents.runRequests (requests : List Request) :
    runRequests Buffer.perform requests (image t bits) =
      ((t.run requests).1, image (t.run requests).2 (requests.foldl bitsAfter bits)) := by
  induction requests generalizing t bits with
  | nil => rfl
  | cons request rest ih =>
    simp only [BinaryCodec.runRequests, presents.perform, run, List.foldl_cons]
    cases t.perform request with
    | ok answer moved => simp only [shown, ih, run]
    | error e moved => simp only [shown, ih, run]

end Presents

theorem session_of_file {t : TwoCursor} {bits others : PendingBits} {s : Session}
    (same : t.file bits = ⟨.file s.file, others⟩) : t.session s.handle.place = s := by
  obtain ⟨⟨content, place⟩, readPosition, writePosition, readOnly, isOpen⟩ := s
  simp only [file, Session.file, Buffer.mk.injEq, Store.file.injEq, File.mk.injEq] at same
  obtain ⟨⟨rfl, rfl, rfl, rfl, rfl⟩, -⟩ := same
  rfl

theorem perform_session (request : Request) (t : TwoCursor) (place : Nat) :
    ∃ left, Session.perform request (t.session place) =
      match t.perform request with
      | .ok answer moved => .ok answer (moved.session left)
      | .error e moved => .error e (moved.session left) := by
  have within : (t.session place).writePosition ≤ (t.session place).handle.content.size := by
    simpa [session] using t.write_le
  -- A buffer over the same file comes to the same, and shows all of the session but the place.
  have follows := Session.follows_perform request .none within
  have shows : Buffer.perform request ⟨.file (t.session place).file, .none⟩ = _ :=
    presents_file.perform t .none request
  rw [shows] at follows
  revert follows
  generalize Session.perform request (t.session place) = result
  intro follows
  cases came : t.perform request with
  | ok answer moved =>
    rw [came, shown] at follows
    generalize reached : moved.file _ = b at follows
    cases follows with
    | ok answer s bits => exact ⟨s.handle.place, by simp only [session_of_file reached]⟩
  | error e moved =>
    rw [came, shown] at follows
    generalize reached : moved.file _ = b at follows
    cases follows with
    | error e s bits => exact ⟨s.handle.place, by simp only [session_of_file reached]⟩

theorem runRequests_session (requests : List Request) (t : TwoCursor) (place : Nat) :
    ∃ left, runRequests Session.perform requests (t.session place) =
      ((t.run requests).1, (t.run requests).2.session left) := by
  induction requests generalizing t place with
  | nil => exact ⟨place, rfl⟩
  | cons request rest ih =>
    obtain ⟨between, first⟩ := perform_session request t place
    simp only [runRequests, first, run]
    cases t.perform request with
    | ok answer moved =>
      obtain ⟨left, more⟩ := ih moved between
      exact ⟨left, by simp only [more, run]⟩
    | error e moved =>
      obtain ⟨left, more⟩ := ih moved between
      exact ⟨left, by simp only [more, run]⟩

/-- Requests to bytes with two cursors, to a memory, to a file, and to a store on an open file whose
place is anywhere get the same answers, and the same bytes and cursors are left. -/
theorem runRequests_agree (t : TwoCursor) (bits : PendingBits) (place : Nat) (requests : List Request) :
    runRequests Buffer.perform requests (t.memory bits) =
        ((t.run requests).1, (t.run requests).2.memory (requests.foldl bitsAfter bits)) ∧
      runRequests Buffer.perform requests (t.file bits) =
        ((t.run requests).1, (t.run requests).2.file (requests.foldl bitsAfter bits)) ∧
      ∃ left, runRequests Session.perform requests (t.session place) =
        ((t.run requests).1, (t.run requests).2.session left) :=
  ⟨presents_memory.runRequests t bits requests, presents_file.runRequests t bits requests,
    runRequests_session requests t place⟩

end TwoCursor

end BinaryCodec
