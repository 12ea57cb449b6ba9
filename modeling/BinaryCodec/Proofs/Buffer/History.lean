import BinaryCodec.Proofs.Schema.GuardedDecode

namespace BinaryCodec

/-- A single call, as a buffer passes it on to its store. -/
def StoreCall.perform : (call : StoreCall) → BufferM call.Reply
  | read n => Buffer.read n
  | write bytes => Buffer.writeBytes bytes
  | seekRead position => Buffer.seekRead position
  | seekWrite position => Buffer.seekWrite position
  | readPosition => Buffer.readPosition
  | writePosition => Buffer.writePosition
  | size => Buffer.size
  | contents => Buffer.contents
  | erase => Buffer.onStore Store.erase
  | flush => Buffer.flush
  | close => Buffer.close

namespace Buffer

inductive WriteRequest where
  | byte (b : UInt8)
  | bool (value : Bool)
  /-- A number of `width` bytes, or the bit pattern of a float. -/
  | word (order : ByteOrder) (width n : Nat)
  | integer (order : ByteOrder) (width : Nat) (value : Int)
  | unsigned (value : Nat)
  | signed (value : Int)
  | uuid (id : Uuid)
  | date (t : Instant)
  | time (t : Instant)
  | limited (bytes : List UInt8)
  | «at» (position : Nat) (bytes : List UInt8)
  | string (s : String)
  | fixedString (s : String) (width : Nat)
  | invertedString (s : String) (width : Nat)
  | cString (s : String)
  | char (c : Char)
  | utf16 (s : String)
  | bit (order : BitOrder) (value : Bool)
  | flushBits
  | random (n : Nat) (gen : StdGen)
  | erase
  | stream (bytes : List UInt8)
  | encode (registry : Registry) (schema : Schema) (v : Value)

namespace WriteRequest

abbrev Reply : WriteRequest → Type
  | random _ _ => StdGen
  | stream _ => Nat
  | _ => Unit

def perform : (request : WriteRequest) → BufferM request.Reply
  | byte b => writeByte b
  | bool value => writeBool value
  | word order width n => writeFixed order width n
  | integer order width value => writeFixedInt order width value
  | unsigned value => writeUnsigned value
  | signed value => writeSigned value
  | uuid id => writeUuid id
  | date t => writeDate t
  | time t => writeTime t
  | limited bytes => writeLimited bytes
  | «at» position bytes => writeAt position bytes
  | string s => writeString s
  | fixedString s width => writeFixedString s width
  | invertedString s width => writeInvertedString s width
  | cString s => writeCString s
  | char c => writeChar c
  | utf16 s => writeUtf16 s
  | bit order value => writeBit order value
  | flushBits => Buffer.flushBits
  | random n gen => writeRandom n gen
  | erase => Buffer.erase
  | stream bytes => streamWrite bytes
  | encode registry schema v => writeOutput (Schema.encode registry schema v)

end WriteRequest

end Buffer

open Buffer

/-- What a buffer can be asked that keeps its store. -/
inductive BufferRequest where
  | call (call : StoreCall)
  | read (request : ReadRequest)
  | write (request : WriteRequest)
  | streamRead (n : Nat)
  | streamFlush

namespace BufferRequest

abbrev Reply : BufferRequest → Type
  | call c => c.Reply
  | read request => request.Reply
  | write request => request.Reply
  | streamRead _ => List UInt8
  | streamFlush => Unit

def perform : (request : BufferRequest) → BufferM request.Reply
  | call c => c.perform
  | read request => request.perform
  | write request => request.perform
  | streamRead n => Buffer.streamRead n
  | streamFlush => Buffer.streamFlush

/-- The error of a request when a call fails with the given one. -/
def tell : BufferRequest → Error → Error
  | read (.stream _) | write (.stream _) | streamRead _ | streamFlush => Error.inStream
  | _ => id

/-- What a request comes to when a call fails with the given error. -/
def report : (request : BufferRequest) → Error → Except Error request.Reply
  | read .available, _ => .ok none
  | request, e => .error (request.tell e)

end BufferRequest

namespace Buffer

variable {α : Type}

class Reports (report : Error → Except Error α) (m : BufferM α) where
  program : Program α
  run_program : program.run = m
  reports (b : Buffer) (locked : b.store.Locked) (event : StoreEvent) (made : event ∈ program.events b)
    (e : Error) (answered : event.answer = .error e) (denial : e.IsDenial) :
    (settled (m b)).1 = report e

abbrev Guarded.reports {tell : Error → Error} {m : BufferM α} (guarded : Guarded true true tell m) :
    Reports (fun e => .error (tell e)) m where
  program := guarded.program
  run_program := guarded.run_program
  reports b locked event made e answered denial := by
    obtain ⟨after, failed⟩ := guarded.tells b locked event made e answered denial
    rw [failed]
    rfl

instance reports_available : Reports (fun _ => .ok none) available where
  program := availableProgram
  run_program := run_availableProgram
  reports b locked event made e answered _ := by
    rcases delivers_or_closed locked with delivers | ⟨f, bits, rfl, closed⟩
    · obtain ⟨reply, told⟩ := answered_availableProgram locked delivers made
      cases told.symm.trans answered
    · obtain ⟨content, place, next, readOnly, isOpen⟩ := f
      cases closed
      rfl

theorem not_mutates_availableProgram {b : Buffer} {event : StoreEvent}
    (made : event ∈ availableProgram.events b) : ¬event.call.mutates := by
  simp only [availableProgram, Program.events, StoreCall.answer, List.mem_cons] at made
  rcases made with rfl | made
  · exact Bool.false_ne_true
  · cases told : b.store.size with
    | error e =>
      rw [told] at made
      cases made
    | ok size =>
      rw [told] at made
      simp only [Program.events, StoreCall.answer, List.mem_cons] at made
      rcases made with rfl | made
      · exact Bool.false_ne_true
      · cases place : b.store.readPosition <;> rw [place] at made <;> cases made

end Buffer

namespace BufferRequest

instance guarded_call {bits : Bool} (call : StoreCall) : Guarded true bits id call.perform := by
  cases call <;> delta StoreCall.perform <;> infer_instance

instance reports_perform (request : BufferRequest) : Reports request.report request.perform := by
  cases request with
  | call c => exact (guarded_call c).reports
  | streamRead n => exact (guarded_streamRead n).reports
  | streamFlush => exact guarded_streamFlush.reports
  | read request =>
    cases request with
    | available => exact reports_available
    | stream n => exact (guarded_streamReadExact n).reports
    | _ =>
      refine @Guarded.reports _ id _ ?_
      delta perform ReadRequest.perform
      infer_instance
  | write request =>
    cases request with
    | stream bytes => exact (guarded_streamWrite bytes).reports
    | _ =>
      refine @Guarded.reports _ id _ ?_
      delta perform WriteRequest.perform
      infer_instance

def program (request : BufferRequest) : Program request.Reply := (reports_perform request).program

theorem run_program (request : BufferRequest) : request.program.run = request.perform :=
  (reports_perform request).run_program

theorem report_of_mutates {request : BufferRequest} {b : Buffer} {event : StoreEvent}
    (made : event ∈ request.program.events b) (mutates : event.call.mutates) (e : Error) :
    request.report e = .error (request.tell e) := by
  cases request with
  | read request =>
    cases request with
    | available => exact absurd mutates (not_mutates_availableProgram made)
    | _ => rfl
  | _ => rfl

end BufferRequest

/-- A request that was made, with the calls on the store, what it came to, and the buffer after it. -/
structure BufferStep where
  request : BufferRequest
  calls : List StoreEvent
  result : Except Error request.Reply
  after : Buffer

namespace BufferRequest

def step (request : BufferRequest) (b : Buffer) : BufferStep :=
  ⟨request, request.program.events b, (settled (request.perform b)).1, (settled (request.perform b)).2⟩

variable {request : BufferRequest} {b : Buffer} {event : StoreEvent}

theorem kept_step (locked : b.store.Locked) : Store.Kept b.store (request.step b).after.store := by
  have kept := Program.kept_run (p := request.program) locked
  rwa [run_program] at kept

theorem file_step {f : File} (file : b.store = .file f) :
    ∃ g, (request.step b).after.store = .file g ∧ g.readOnly = f.readOnly := by
  have ran := Program.file_run (p := request.program) file
  rwa [run_program] at ran

theorem step_of_readOnly (readOnly : b.store.ReadOnly) (made : event ∈ (request.step b).calls)
    (mutates : event.call.mutates) : event.answer = .error (.readOnly b.store.kind) ∧
      (request.step b).result = .error (request.tell (.readOnly b.store.kind)) := by
  obtain ⟨s, kept, answered⟩ := Program.exists_of_mem_events (.inl readOnly) made
  rw [Store.answer_of_readOnly (kept.readOnly readOnly) mutates, kept.kind] at answered
  have told := (reports_perform request).reports b (.inl readOnly) event made _ answered True.intro
  exact ⟨answered, told.trans (report_of_mutates made mutates _)⟩

theorem step_of_closed {f : File} (file : b.store = .file f) (closed : f.isOpen = false)
    (made : event ∈ (request.step b).calls) (touches : event.call.touches) :
    event.answer = .error (Store.denial f event.call) ∧
      (request.step b).result = request.report (Store.denial f event.call) := by
  have locked : b.store.Locked := .inr ⟨f, file, closed⟩
  obtain ⟨s, kept, answered⟩ := Program.exists_of_mem_events locked made
  rw [file] at kept
  rw [kept.closed closed, Store.answer_of_closed closed touches] at answered
  exact ⟨answered, (reports_perform request).reports b locked event made _ answered
    (Store.isDenial_denial f event.call)⟩

end BufferRequest

namespace Buffer

/-- What becomes of requests one after another, those behind a failed one as well. -/
def history : List BufferRequest → Buffer → List BufferStep
  | [], _ => []
  | request :: rest, b => request.step b :: history rest (request.step b).after

def afterAll (requests : List BufferRequest) (b : Buffer) : Buffer :=
  requests.foldl (fun b request => (request.step b).after) b

variable {b : Buffer} {requests : List BufferRequest}

theorem history_append (earlier later : List BufferRequest) (b : Buffer) :
    history (earlier ++ later) b = history earlier b ++ history later (afterAll earlier b) := by
  induction earlier generalizing b with
  | nil => rfl
  | cons request rest ih => exact congrArg (request.step b :: ·) (ih (request.step b).after)

theorem afterAll_concat (earlier : List BufferRequest) (last : BufferRequest) (b : Buffer) :
    afterAll (earlier ++ [last]) b = (last.step (afterAll earlier b)).after := List.foldl_append ..

theorem file_afterAll {f : File} (requests : List BufferRequest) (file : b.store = .file f) :
    ∃ g, (afterAll requests b).store = .file g ∧ g.readOnly = f.readOnly := by
  induction requests generalizing b f with
  | nil => exact ⟨f, file, rfl⟩
  | cons request rest ih =>
    obtain ⟨g, stepped, same⟩ := request.file_step file
    obtain ⟨last, ended, again⟩ := ih stepped
    exact ⟨last, ended, again.trans same⟩

theorem exists_of_mem_history (locked : b.store.Locked) {step : BufferStep}
    (member : step ∈ history requests b) :
    ∃ request before, Store.Kept b.store before.store ∧ step = BufferRequest.step request before := by
  induction requests generalizing b with
  | nil => cases member
  | cons request rest ih =>
    rcases List.mem_cons.mp member with rfl | later
    · exact ⟨request, b, locked.kept, rfl⟩
    · have kept := request.kept_step locked
      obtain ⟨made, before, reached, same⟩ := ih (kept.locked locked) later
      exact ⟨made, before, kept.trans reached, same⟩

theorem history_readOnly (readOnly : b.store.ReadOnly) {step : BufferStep}
    (member : step ∈ history requests b) :
    step.after.store.stored = b.store.stored ∧
      step.after.store.writePosition = b.store.writePosition ∧
      ∀ event ∈ step.calls, event.call.mutates → event.answer = .error (.readOnly b.store.kind) ∧
        step.result = .error (step.request.tell (.readOnly b.store.kind)) := by
  obtain ⟨request, before, reached, rfl⟩ := exists_of_mem_history (.inl readOnly) member
  have still := reached.readOnly readOnly
  have kept := reached.trans (request.kept_step (.inl still))
  refine ⟨kept.stored, kept.writePosition, fun event made mutates => ?_⟩
  rw [← reached.kind]
  exact request.step_of_readOnly still made mutates

theorem history_closed {f : File} (file : b.store = .file f) (closed : f.isOpen = false)
    {step : BufferStep} (member : step ∈ history requests b) :
    step.after.store = .file f ∧ ∀ event ∈ step.calls, event.call.touches →
      event.answer = .error (Store.denial f event.call) ∧
        step.result = step.request.report (Store.denial f event.call) := by
  have locked : b.store.Locked := .inr ⟨f, file, closed⟩
  obtain ⟨request, before, reached, rfl⟩ := exists_of_mem_history locked member
  rw [file] at reached
  have still := reached.closed closed
  have kept := request.kept_step (.inr ⟨f, still, closed⟩)
  rw [still] at kept
  exact ⟨kept.closed closed, fun event made touches => request.step_of_closed still closed made touches⟩

/-- Requests are the programs of their calls. Whatever is asked of a buffer over a read-only store, the
bytes and the place to write at stay, and requests fail that would change them. Whatever is asked of one
over a file after it was closed, the file and both cursors stay, and requests fail that need the file, apart
from the one for what is left to read. -/
theorem history_locked :
    (∀ request : BufferRequest, request.program.run = request.perform) ∧
    (∀ (b : Buffer) (requests : List BufferRequest), b.store.ReadOnly →
      ∀ step ∈ history requests b,
        step.after.store.stored = b.store.stored ∧
        step.after.store.writePosition = b.store.writePosition ∧
        ∀ event ∈ step.calls, event.call.mutates →
          event.answer = .error (.readOnly b.store.kind) ∧
          step.result = .error (step.request.tell (.readOnly b.store.kind))) ∧
    (∀ (b : Buffer) (f : File) (earlier later : List BufferRequest), b.store = .file f →
      ∃ (g : File) (steps : List BufferStep),
        (afterAll earlier b).store = .file g ∧ g.readOnly = f.readOnly ∧
        (afterAll (earlier ++ [.call .close]) b).store = .file g.close ∧
        history (earlier ++ [.call .close] ++ later) b = history (earlier ++ [.call .close]) b ++ steps ∧
        ∀ step ∈ steps,
          step.after.store = .file g.close ∧
          ∀ event ∈ step.calls, event.call.touches →
            event.answer = .error (Store.denial g event.call) ∧
            step.result = step.request.report (Store.denial g event.call)) := by
  refine ⟨BufferRequest.run_program,
    fun b requests readOnly step member => history_readOnly readOnly member, ?_⟩
  intro b f earlier later file
  obtain ⟨g, ended, same⟩ := file_afterAll earlier file
  have closed : (afterAll (earlier ++ [.call .close]) b).store = .file g.close := by
    rw [afterAll_concat]
    generalize afterAll earlier b = reached at ended
    obtain ⟨store, bits⟩ := reached
    obtain rfl : store = .file g := ended
    rfl
  exact ⟨g, _, ended, same, closed, history_append _ later b,
    fun step member => history_closed closed rfl member⟩

/-- Requests that would change what a buffer holds, or that ask for it. -/
def variedRequests : List BufferRequest :=
  [.write (.bit .highFirst true), .write .flushBits, .write (.at 0 [9]), .read .contents,
    .write (.encode [] .bool (.bool true)), .write .erase, .streamFlush, .read .available]

def openedBuffer : Buffer := ofStore (.file (.openFile (some [7, 8])))

theorem history_locked_varied :
    (ofSlice [7, 8]).store.ReadOnly ∧
    (∀ step ∈ history variedRequests (ofSlice [7, 8]),
      step.after.store.stored = #[7, 8] ∧ step.after.store.writePosition = .ok 2 ∧
      ∀ event ∈ step.calls, event.call.mutates → event.answer = .error (.readOnly .slice) ∧
        step.result = .error (step.request.tell (.readOnly .slice))) ∧
    (history variedRequests (ofSlice [7, 8])).map (fun step => step.calls.map StoreEvent.call) =
      [[], [.write [128]], [.writePosition, .seekWrite 0], [.contents], [.write [1]], [.erase], [.flush],
        [.size, .readPosition]] ∧
    openedBuffer.store = .file (.openFile (some [7, 8])) ∧
    (∃ (g : File) (steps : List BufferStep),
      (afterAll [.write (.byte 9)] openedBuffer).store = .file g ∧ g.readOnly = false ∧
      (afterAll [.write (.byte 9), .call .close] openedBuffer).store = .file g.close ∧
      history ([.write (.byte 9), .call .close] ++ variedRequests) openedBuffer =
        history [.write (.byte 9), .call .close] openedBuffer ++ steps ∧
      ∀ step ∈ steps, step.after.store = .file g.close ∧ ∀ event ∈ step.calls, event.call.touches →
        event.answer = .error (Store.denial g event.call) ∧
        step.result = step.request.report (Store.denial g event.call)) ∧
    (history ([.write (.byte 9), .call .close] ++ variedRequests) openedBuffer).map
        (fun step => step.calls.map StoreEvent.call) =
      [[.write [9]], [.close], [], [.write [128]], [.writePosition, .seekWrite 0], [.contents],
        [.write [1]], [.erase], [.flush], [.size]] := by
  have locked : (ofSlice [7, 8]).store.ReadOnly := True.intro
  have file : openedBuffer.store = .file (.openFile (some [7, 8])) := rfl
  exact ⟨locked, history_locked.2.1 (ofSlice [7, 8]) variedRequests locked, by with_unfolding_all rfl,
    file, history_locked.2.2 openedBuffer _ [.write (.byte 9)] variedRequests file,
    by with_unfolding_all rfl⟩

/-- A stream tells of a refused write in its own words, and what is left to read is answered although the
file is closed that was asked for its size. -/
theorem history_refused_otherwise :
    (∃ step ∈ history [.write (.stream [9])] (ofSlice [7, 8]),
      ∃ event ∈ step.calls, event.call.mutates ∧ step.result ≠ .error (.readOnly .slice)) ∧
    (∃ step ∈ (history [.call .close, .read .available] openedBuffer).drop 1,
      ∃ event ∈ step.calls, event.call.touches ∧ ∀ e, step.result ≠ .error e) := by
  constructor
  · refine ⟨BufferRequest.step (.write (.stream [9])) (ofSlice [7, 8]), List.mem_cons_self ..,
      ⟨.write [9], .error (.readOnly .slice)⟩, List.mem_cons_self .., rfl, ?_⟩
    intro same
    cases same
  · refine ⟨BufferRequest.step (.read .available) (afterAll [.call .close] openedBuffer),
      List.mem_cons_self .., ⟨.size, .error (.closed .file)⟩, List.mem_cons_self .., rfl, ?_⟩
    intro e same
    cases same

end Buffer

end BinaryCodec
