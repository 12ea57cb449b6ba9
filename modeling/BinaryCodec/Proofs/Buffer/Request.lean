import BinaryCodec.Proofs.Buffer.Pieces
import BinaryCodec.Proofs.Store.Handle

namespace BinaryCodec

/-- What a buffer with two cursors can be asked. -/
inductive Request where
  | write (bytes : List UInt8)
  | readInto (n : Nat)
  | readBytes (n : Nat)
  | readRemainder
  | seekRead (position : Nat)
  | seekWrite (position : Nat)
  | jump (n : Nat)
  | reverse (n : Nat)
  | contents
  | size
  | available
  | erase

inductive Answer where
  | done
  | bytes (bytes : List UInt8)
  | size (n : Nat)
  | available (n : Option Nat)

/-- Answers requests one after another, those behind a failed one as well. -/
def runRequests {σ : Type} (perform : Request → EStateM Error σ Answer) :
    List Request → σ → List (Except Error Answer) × σ
  | [], s => ([], s)
  | request :: rest, s =>
    match perform request s with
    | .ok answer s =>
      let (answers, s) := runRequests perform rest s
      (.ok answer :: answers, s)
    | .error e s =>
      let (answers, s) := runRequests perform rest s
      (.error e :: answers, s)

def Buffer.perform : Request → BufferM Answer
  | .write bytes => do writeBytes bytes; return .done
  | .readInto n => .bytes <$> readUpTo n
  | .readBytes n => .bytes <$> Buffer.readBytes n
  | .readRemainder => .bytes <$> Buffer.readRemainder
  | .seekRead position => do Buffer.seekRead position; return .done
  | .seekWrite position => do Buffer.seekWrite position; return .done
  | .jump n => do Buffer.jump n; return .done
  | .reverse n => do Buffer.reverse n; return .done
  | .contents => .bytes <$> Buffer.contents
  | .size => .size <$> Buffer.size
  | .available => .available <$> Buffer.available
  | .erase => do Buffer.erase; return .done

section loops

variable {σ : Type} (read : Nat → EStateM Error σ (List UInt8))

def readUpToBy (n : Nat) : EStateM Error σ (List UInt8) := do
  if _h : n = 0 then return []
  else
    let bytes ← read n
    if _h : bytes.length = 0 then return []
    else return bytes ++ (← readUpToBy (n - bytes.length))
termination_by n

def readRestBy (n got : Nat) : EStateM Error σ (List UInt8) := do
  if _h : got < n then
    let bytes ← read (min (n - got) Buffer.chunkSize)
    if _h : bytes.length = 0 then throw (.endOfData n got)
    else return bytes ++ (← readRestBy n (got + bytes.length))
  else return []
termination_by n - got

def readChunksBy : (fuel : Nat) → EStateM Error σ (List UInt8)
  | 0 => return []
  | fuel + 1 => do
    let bytes ← read Buffer.chunkSize
    if bytes.isEmpty then return []
    else return bytes ++ (← readChunksBy fuel)

theorem readUpTo_eq_by (n : Nat) : Buffer.readUpTo n = readUpToBy Buffer.read n := by
  induction n using Nat.strongRecOn with
  | ind n ih =>
    rw [Buffer.readUpTo, readUpToBy]
    by_cases zero : n = 0
    · simp only [zero, dite_true]
    · simp only [zero, dite_false]
      congr
      funext bytes
      by_cases empty : bytes.length = 0
      · simp only [empty, dite_true]
      · simp only [empty, dite_false, ih (n - bytes.length) (by omega)]

theorem readRest_eq_by (n got : Nat) : Buffer.readRest n got = readRestBy Buffer.read n got := by
  induction missing : n - got using Nat.strongRecOn generalizing got with
  | ind m ih =>
    rw [Buffer.readRest, readRestBy]
    by_cases more : got < n
    · simp only [more, dite_true]
      congr
      funext bytes
      by_cases empty : bytes.length = 0
      · simp only [empty, dite_true]
      · simp only [empty, dite_false, ih (n - (got + bytes.length)) (by omega) _ rfl]
    · simp only [more, dite_false]

theorem readChunks_eq_by (fuel : Nat) : Buffer.readChunks fuel = readChunksBy Buffer.read fuel := by
  induction fuel with
  | zero => rfl
  | succ fuel ih => simp only [Buffer.readChunks, readChunksBy, ih]

end loops

namespace Session

/-- A step that answers and goes on to another state, or fails and stays. -/
def step {α : Type} (next : Session → Except Error (α × Session)) : EStateM Error Session α :=
  fun s =>
    match next s with
    | .ok (value, s) => .ok value s
    | .error e => .error e s

def move (next : Session → Except Error Session) : EStateM Error Session Unit :=
  step fun s => (next s).map fun s => ((), s)

/-- As `Buffer.perform`, by the calls of a file store on its open file. -/
def perform : Request → EStateM Error Session Answer
  | .write bytes => do move (write bytes); return .done
  | .readInto n => .bytes <$> readUpToBy (fun n => step (read n)) n
  | .readBytes n => .bytes <$> readRestBy (fun n => step (read n)) n 0
  | .readRemainder => do
    let unread := (Store.file (← get).file).unread
    .bytes <$> readChunksBy (fun n => step (read n)) (unread + 1)
  | .seekRead position => do move (seekRead position); return .done
  | .seekWrite position => do move (seekWrite position); return .done
  | .jump n => do
    move (seekRead (min ((← get).readPosition + n) Buffer.maxPosition))
    return .done
  | .reverse n => do move (seekRead ((← get).readPosition - n)); return .done
  | .contents => .bytes <$> step contents
  | .size => .size <$> step fun s => s.size.map fun n => (n, s)
  | .available => return .available (Store.file (← get).file).available
  | .erase => do move erase; return .done

variable {α β : Type}

inductive Follows : EStateM.Result Error Session α → EStateM.Result Error Buffer α → Prop
  | ok (v : α) (s : Session) (bits : PendingBits) : Follows (.ok v s) (.ok v ⟨.file s.file, bits⟩)
  | error (e : Error) (s : Session) (bits : PendingBits) :
    Follows (.error e s) (.error e ⟨.file s.file, bits⟩)

def Tracks (m : EStateM Error Session α) (n : BufferM α) : Prop :=
  ∀ s bits, Follows (m s) (n ⟨.file s.file, bits⟩)

theorem Follows.bind {m : EStateM Error Session α} {n : BufferM α}
    {f : α → EStateM Error Session β} {g : α → BufferM β} {s : Session} {b : Buffer}
    (first : Follows (m s) (n b)) (next : ∀ v, Tracks (f v) (g v)) :
    Follows ((m >>= f) s) ((n >>= g) b) := by
  change Follows (EStateM.bind m f s) (EStateM.bind n g b)
  unfold EStateM.bind
  revert first
  generalize m s = left
  generalize n b = right
  intro first
  cases first with
  | ok v s bits => exact next v s bits
  | error e s bits => exact .error e s bits

theorem Tracks.bind {m : EStateM Error Session α} {n : BufferM α}
    {f : α → EStateM Error Session β} {g : α → BufferM β} (first : Tracks m n)
    (next : ∀ v, Tracks (f v) (g v)) : Tracks (m >>= f) (n >>= g) :=
  fun s bits => (first s bits).bind next

theorem Tracks.pure (v : α) : Tracks (Pure.pure v) (Pure.pure v) := fun s bits => .ok v s bits

theorem Tracks.map {m : EStateM Error Session α} {n : BufferM α} (f : α → β) (tracks : Tracks m n) :
    Tracks (f <$> m) (f <$> n) :=
  tracks.bind fun v => .pure (f v)

theorem follows_step {next : Session → Except Error (α × Session)} {action : StoreM α} {s : Session}
    (bits : PendingBits)
    (same : action (.file s.file) = Store.settle (.file s.file) .file
      ((next s).map fun step => (step.1, step.2.file))) :
    Follows (step next s) (Buffer.onStore action ⟨.file s.file, bits⟩) := by
  simp only [Buffer.onStore, same, step]
  cases next s with
  | error e => exact .error e s bits
  | ok answer => exact .ok answer.1 answer.2 bits

theorem follows_move {next : Session → Except Error Session} {action : StoreM Unit} {s : Session}
    (bits : PendingBits)
    (same : action (.file s.file) = Store.move (.file s.file) .file ((next s).map file)) :
    Follows (move next s) (Buffer.onStore action ⟨.file s.file, bits⟩) := by
  refine follows_step bits (same.trans ?_)
  cases next s <;> rfl

theorem tracks_read (n : Nat) : Tracks (step (read n)) (Buffer.read n) := by
  intro s bits
  apply follows_step bits
  rw [← read_eq n]
  rfl

theorem tracks_readUpTo (n : Nat) :
    Tracks (readUpToBy (fun n => step (read n)) n) (Buffer.readUpTo n) := by
  rw [readUpTo_eq_by]
  induction n using Nat.strongRecOn with
  | ind n ih =>
    rw [readUpToBy, readUpToBy]
    by_cases zero : n = 0
    · simp only [zero, dite_true]
      exact .pure []
    · simp only [zero, dite_false]
      refine (tracks_read n).bind fun bytes => ?_
      by_cases empty : bytes.length = 0
      · simp only [empty, dite_true]
        exact .pure []
      · simp only [empty, dite_false]
        exact (ih _ (by omega)).bind fun rest => .pure (bytes ++ rest)

theorem tracks_readRest (n got : Nat) :
    Tracks (readRestBy (fun n => step (read n)) n got) (Buffer.readRest n got) := by
  rw [readRest_eq_by]
  induction missing : n - got using Nat.strongRecOn generalizing got with
  | ind m ih =>
    rw [readRestBy, readRestBy]
    by_cases more : got < n
    · simp only [more, dite_true]
      refine (tracks_read _).bind fun bytes => ?_
      by_cases empty : bytes.length = 0
      · simp only [empty, dite_true]
        exact fun s bits => .error _ s bits
      · simp only [empty, dite_false]
        exact (ih _ (by omega) _ rfl).bind fun rest => .pure (bytes ++ rest)
    · simp only [more, dite_false]
      exact .pure []

theorem tracks_readChunks (fuel : Nat) :
    Tracks (readChunksBy (fun n => step (read n)) fuel) (Buffer.readChunks fuel) := by
  rw [readChunks_eq_by]
  induction fuel with
  | zero => exact .pure []
  | succ fuel ih =>
    refine (tracks_read _).bind fun bytes => ?_
    split
    · exact .pure []
    · exact ih.bind fun rest => .pure (bytes ++ rest)

theorem follows_perform (request : Request) {s : Session} (bits : PendingBits)
    (within : s.writePosition ≤ s.handle.content.size) :
    Follows (perform request s) (Buffer.perform request ⟨.file s.file, bits⟩) := by
  have done : ∀ v : Unit, Tracks (Pure.pure Answer.done) (Pure.pure Answer.done) :=
    fun _ => Tracks.pure Answer.done
  have seek : ∀ position, Follows (move (seekRead position) s)
      (Buffer.seekRead position ⟨.file s.file, bits⟩) := by
    intro position
    apply follows_move bits
    rw [← seekRead_eq]
    rfl
  cases request with
  | write bytes =>
    refine Follows.bind (follows_move bits ?_) done
    rw [← write_eq within]
    rfl
  | readInto n => exact (tracks_readUpTo n).map Answer.bytes s bits
  | readBytes n => exact (tracks_readRest n 0).map Answer.bytes s bits
  | readRemainder => exact (tracks_readChunks _).map Answer.bytes s bits
  | seekRead position => exact (seek position).bind done
  | seekWrite position =>
    refine Follows.bind (follows_move bits ?_) done
    rw [← seekWrite_eq]
    rfl
  | jump n => exact (seek _).bind done
  | reverse n => exact (seek _).bind done
  | contents =>
    refine Follows.bind (follows_step bits ?_) fun v => .pure (Answer.bytes v)
    rw [← contents_eq]
    rfl
  | size =>
    refine Follows.bind (n := Buffer.size) ?_ fun v => .pure (Answer.size v)
    have answer : ∀ result : Except Error Nat, s.file.size = result →
        Follows (step (fun s => s.size.map fun n => (n, s)) s) (Buffer.size ⟨.file s.file, bits⟩) := by
      intro result came
      simp only [step, size, Buffer.size, Buffer.ask, Store.size, came]
      cases result with
      | ok n => exact .ok n s bits
      | error e => exact .error e s bits
    exact answer _ rfl
  | available => exact .ok _ s bits
  | erase =>
    refine Follows.bind (n := Buffer.erase) (follows_move .none ?_) done
    rw [← erase_eq]
    rfl

end Session

end BinaryCodec
