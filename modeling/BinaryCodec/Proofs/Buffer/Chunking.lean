import BinaryCodec.Proofs.Buffer.Simulation

namespace BinaryCodec

/-- Two streams that still deliver the same bytes and come to the same end, in reads of any sizes. -/
structure Reader.Recuts (r s : Reader) : Prop where
  upcoming : (Store.reader r).upcoming = (Store.reader s).upcoming
  ending : (Store.reader r).ending = (Store.reader s).ending
  position : r.position = s.position
  progress (place : Nat) : 0 < r.limit place
  progressOther (place : Nat) : 0 < s.limit place

theorem Reader.Recuts.advance {r s : Reader} (recuts : r.Recuts s) (n : Nat) :
    Recuts { r with position := r.position + n } { s with position := s.position + n } where
  upcoming := by
    have first : ((Store.reader r).advance n).upcoming = _ := Store.upcoming_advance
    have second : ((Store.reader s).advance n).upcoming = _ := Store.upcoming_advance
    rw [recuts.upcoming, ← second] at first
    exact first
  ending := recuts.ending
  position := congrArg (· + n) recuts.position
  progress := recuts.progress
  progressOther := recuts.progressOther

namespace Buffer

variable {α : Type}

inductive Recut : Buffer → Buffer → Prop
  | over {r s : Reader} (recuts : r.Recuts s) (bits : PendingBits) :
      Recut ⟨.reader r, bits⟩ ⟨.reader s, bits⟩

inductive SameOutcome : EStateM.Result Error Buffer α → EStateM.Result Error Buffer α → Prop
  | ok (v : α) {b c : Buffer} (recut : Recut b c) : SameOutcome (.ok v b) (.ok v c)
  | error (e : Error) {b c : Buffer} (recut : Recut b c) : SameOutcome (.error e b) (.error e c)

class Indifferent (m : BufferM α) : Prop where
  run (b c : Buffer) (recut : Recut b c) : SameOutcome (m b) (m c)

section simulation

variable {b c : Buffer}

theorem Recut.delivers (recut : Recut b c) : b.Delivers ∧ c.Delivers := by
  obtain ⟨recuts, bits⟩ := recut
  exact ⟨recuts.progress, recuts.progressOther⟩

theorem Recut.readPosition (recut : Recut b c) : b.store.readPosition = c.store.readPosition := by
  obtain ⟨recuts, bits⟩ := recut
  exact congrArg Except.ok recuts.position

theorem respects_refused (action : StoreM α) (e : Error)
    (refuses : ∀ r, action (.reader r) = .error e (.reader r)) : Respects Recut (onStore action) := by
  constructor
  intro b c recut
  obtain ⟨recuts, bits⟩ := recut
  simp only [onStore, refuses]
  exact .error e (.over recuts bits)

theorem respects_flushBits : Respects Recut flushBits := by
  constructor
  intro b c recut
  obtain ⟨recuts, bits⟩ := recut
  rw [flushBits_apply, flushBits_apply]
  dsimp only
  by_cases waiting : bits.free < 8
  · rw [if_pos waiting]
    exact (respects_refused _ (.unsupported .reader .write) fun _ => rfl).run _ _ (.over recuts .none)
  · rw [if_neg waiting]
    exact .ok () (.over recuts .none)

instance simulation_recut : Simulation Recut where
  delivers := Recut.delivers
  upcoming := fun ⟨recuts, _⟩ => recuts.upcoming
  ending := fun ⟨recuts, _⟩ => recuts.ending
  readPosition := Recut.readPosition
  size := fun ⟨_, _⟩ => rfl
  bits := fun ⟨_, _⟩ => rfl
  advance := fun ⟨recuts, bits⟩ _ => .over (recuts.advance _) bits
  refilled bits := fun ⟨recuts, _⟩ _ => .over recuts bits
  seekRead _ := respects_refused _ (.unsupported .reader .seek) fun _ => rfl
  contents := respects_refused _ (.unsupported .reader .contents) fun _ => rfl
  flushBits := respects_flushBits

instance indifferent_of_respects (m : BufferM α) [Respects Recut m] : Indifferent m := by
  constructor
  intro b c recut
  have alike := Respects.run (m := m) b c recut
  generalize m b = result at alike ⊢
  generalize m c = other at alike ⊢
  cases alike with
  | ok v recut => exact .ok v recut
  | error e recut => exact .error e recut

end simulation

section requests

/-- What a reader can be asked, except for a single read of its stream. -/
inductive ReadRequest where
  | byte
  | bool
  /-- A number of `width` bytes, or the bit pattern of a float. -/
  | word (order : ByteOrder) (width : Nat)
  | integer (order : ByteOrder) (width : Nat)
  | unsigned (bits : Nat)
  | signed (bits : Nat)
  | uuid
  | date
  | time
  | upTo (n : Nat)
  | exact (n : Nat)
  | bytes (n : Nat)
  | remainder
  | limited
  | length (itemSize : Nat)
  | «at» (position n : Nat)
  | string
  | fixedString (width : Nat)
  | invertedString (width : Nat)
  | cString
  | delimited (mark : UInt8)
  | char
  | untilChar (mark : Char)
  | untilToken (token : List UInt8)
  | utf16 (units : Nat)
  | bit (order : BitOrder)
  | find (needle : List UInt8)
  | seek (position : Nat)
  | jump (n : Nat)
  | reverse (n : Nat)
  | position
  | size
  | isEmpty
  | available
  | contents
  | finish
  | sha512
  | base64
  | stream (n : Nat)
  | decode (registry : Registry) (schema : Schema)

namespace ReadRequest

abbrev Reply : ReadRequest → Type
  | byte => UInt8
  | bool | bit _ | isEmpty => Bool
  | word _ _ | unsigned _ | length _ | position | size => Nat
  | integer _ _ | signed _ => Int
  | uuid => Uuid
  | date | time => Instant
  | upTo _ | exact _ | bytes _ | remainder | limited | «at» _ _ | contents | finish | sha512 | stream _ =>
    List UInt8
  | string | fixedString _ | invertedString _ | cString | delimited _ | untilChar _ | untilToken _
  | utf16 _ | base64 => String
  | char => Char
  | find _ | available => Option Nat
  | seek _ | jump _ | reverse _ => Unit
  | decode _ _ => Value

def perform : (request : ReadRequest) → BufferM request.Reply
  | byte => readByte
  | bool => readBool
  | word order width => readFixed order width
  | integer order width => readFixedInt order width
  | unsigned bits => readUnsigned bits
  | signed bits => readSigned bits
  | uuid => readUuid
  | date => readDate
  | time => readTime
  | upTo n => readUpTo n
  | exact n => readExact n
  | bytes n => readBytes n
  | remainder => readRemainder
  | limited => readLimited
  | length itemSize => readLength itemSize
  | «at» place n => readAt place n
  | string => readString
  | fixedString width => readFixedString width
  | invertedString width => readInvertedString width
  | cString => readCString
  | delimited mark => readDelimited mark
  | char => readChar
  | untilChar mark => readUntilChar mark
  | untilToken token => readUntilToken token
  | utf16 units => readUtf16 units
  | bit order => readBit order
  | find needle => Buffer.find needle
  | seek place => seekRead place
  | jump n => Buffer.jump n
  | reverse n => Buffer.reverse n
  | position => readPosition
  | size => Buffer.size
  | isEmpty => Buffer.isEmpty
  | available => Buffer.available
  | contents => Buffer.contents
  | finish => Buffer.finish
  | sha512 => Buffer.sha512
  | base64 => toBase64
  | stream n => streamReadExact n
  | decode registry schema => Schema.decode registry schema

instance respects_perform {R : Buffer → Buffer → Prop} [Simulation R] (request : ReadRequest) :
    Respects R request.perform := by
  cases request <;> unfold perform <;> infer_instance

end ReadRequest

structure ReadStep where
  request : ReadRequest
  result : Except Error request.Reply
  position : Except Error Nat

/-- Answers requests one after another, those behind a failed one as well. -/
def runReads : List ReadRequest → Buffer → List ReadStep
  | [], _ => []
  | request :: rest, b =>
    match request.perform b with
    | .ok reply after => ⟨request, .ok reply, after.store.readPosition⟩ :: runReads rest after
    | .error e after => ⟨request, .error e, after.store.readPosition⟩ :: runReads rest after

theorem runReads_recut (requests : List ReadRequest) {b c : Buffer} (recut : Recut b c) :
    runReads requests b = runReads requests c := by
  induction requests generalizing b c with
  | nil => rfl
  | cons request rest ih =>
    have outcome := Indifferent.run (m := request.perform) b c recut
    unfold runReads
    generalize request.perform b = result at outcome ⊢
    generalize request.perform c = other at outcome ⊢
    cases outcome with
    | ok reply after => simp only [ih after, after.readPosition]
    | error e after => simp only [ih after, after.readPosition]

/-- Whatever is asked of two readers of the same bytes, the answers, the errors and the positions after
each of them are the same. -/
theorem runReads_recuts {r s : Reader} (recuts : r.Recuts s) (requests : List ReadRequest) :
    runReads requests (ofStore (.reader r)) = runReads requests (ofStore (.reader s)) :=
  runReads_recut requests (.over recuts .none)

/-- A stream that holds more than it delivers before it fails. -/
def tornInside : Reader :=
  ⟨#[3, 97, 98, 99, 129, 1, 120, 59, 121, 122, 33], fun place => place % 3 + 1,
    some ⟨10, ⟨.invalidData, "torn"⟩⟩, 0⟩

/-- A stream of the same bytes that fails at its end. -/
def tornOff : Reader :=
  ⟨#[3, 97, 98, 99, 129, 1, 120, 59, 121, 122], fun _ => 7, some ⟨12, ⟨.invalidData, "torn"⟩⟩, 0⟩

def tornRequests : List ReadRequest := [.limited, .untilChar ';', .seek 0, .bytes 9, .available]

theorem runReads_recuts_torn : tornInside.Recuts tornOff ∧
    runReads tornRequests (ofStore (.reader tornInside)) =
      runReads tornRequests (ofStore (.reader tornOff)) ∧
    runReads tornRequests (ofStore (.reader tornOff)) =
      [⟨.limited, .ok [97, 98, 99], .ok 4⟩, ⟨.untilChar ';', .error .invalidChar, .ok 5⟩,
        ⟨.seek 0, .error (.unsupported .reader .seek), .ok 5⟩,
        ⟨.bytes 9, .error (.io ⟨.invalidData, "torn"⟩), .ok 10⟩, ⟨.available, .ok none, .ok 10⟩] := by
  have recuts : tornInside.Recuts tornOff :=
    ⟨by decide, rfl, rfl, fun _ => Nat.succ_pos _, fun _ => Nat.succ_pos _⟩
  exact ⟨recuts, runReads_recuts recuts tornRequests, by with_unfolding_all rfl⟩

end requests

end Buffer

end BinaryCodec
