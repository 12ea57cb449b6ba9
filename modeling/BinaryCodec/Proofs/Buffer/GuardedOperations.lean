import BinaryCodec.Proofs.Buffer.Chunking
import BinaryCodec.Proofs.Buffer.Guarded

namespace BinaryCodec

def Error.inStream (e : Error) : Error := .io e.toIo

namespace Buffer

variable {α : Type} {changes bits : Bool}

section bytes

instance guarded_jump (n : Nat) : Guarded true bits id (jump n) := by
  delta jump
  infer_instance

instance guarded_reverse (n : Nat) : Guarded true bits id (reverse n) := by
  delta reverse
  infer_instance

instance guarded_isEmpty : Guarded changes bits id isEmpty := by
  delta isEmpty
  infer_instance

instance guarded_eraseStore : Guarded true bits id (onStore Store.erase) := guardedCall .erase (run_onStore _) rfl

instance guarded_erase : Guarded true true id erase := guarded_bind _ _

theorem readUpTo_eq_dite (n : Nat) : readUpTo n = if _ : n = 0 then pure [] else
    read n >>= fun bytes => if _ : bytes.length = 0 then pure [] else
      readUpTo (n - bytes.length) >>= fun rest => pure (bytes ++ rest) := by
  rw [readUpTo]

instance guarded_readUpTo (n : Nat) : Guarded changes bits id (readUpTo n) :=
  .ofEq (readUpTo_eq_dite n).symm <|
    @guarded_dite _ _ _ _ _ _ _ _ (fun _ => guarded_pure []) fun _ =>
      @guarded_bind _ _ _ _ _ _ _ _ fun bytes =>
        @guarded_dite _ _ _ _ _ _ _ _ (fun _ => guarded_pure []) fun _ =>
          have := guarded_readUpTo (n - bytes.length)
          guarded_bind _ _
termination_by n

instance guarded_readExact (n : Nat) : Guarded changes bits id (readExact n) := by
  delta readExact
  infer_instance

theorem readRest_eq_dite (n got : Nat) : readRest n got = if _ : got < n then
    read (min (n - got) chunkSize) >>= fun bytes => if _ : bytes.length = 0 then throw (.endOfData n got)
      else readRest n (got + bytes.length) >>= fun rest => pure (bytes ++ rest)
    else pure [] := by
  rw [readRest]

instance guarded_readRest (n got : Nat) : Guarded changes bits id (readRest n got) :=
  .ofEq (readRest_eq_dite n got).symm <|
    @guarded_dite _ _ _ _ _ _ _ _ (fun _ =>
      @guarded_bind _ _ _ _ _ _ _ _ fun bytes =>
        @guarded_dite _ _ _ _ _ _ _ _ (fun _ => guarded_throw _) fun _ =>
          have := guarded_readRest n (got + bytes.length)
          guarded_bind _ _) fun _ => guarded_pure []
termination_by n - got

instance guarded_readBytes (n : Nat) : Guarded changes bits id (readBytes n) := by
  delta readBytes
  infer_instance

instance guarded_readChunks : (fuel : Nat) → Guarded changes bits id (readChunks fuel)
  | 0 => guarded_pure []
  | fuel + 1 =>
    have := guarded_readChunks fuel
    inferInstanceAs (Guarded changes bits id (read chunkSize >>= fun bytes =>
      if bytes.isEmpty then pure [] else readChunks fuel >>= fun rest => pure (bytes ++ rest)))

instance guarded_readRemainder : Guarded changes bits id readRemainder := by
  delta readRemainder
  infer_instance

instance guarded_writeByte (b : UInt8) : Guarded true bits id (writeByte b) := by
  delta writeByte
  infer_instance

instance guarded_readByte : Guarded changes bits id readByte := by
  delta readByte
  infer_instance

instance guarded_readGroups : (left : Nat) → Guarded changes bits id (readGroups left)
  | 0 => guarded_pure none
  | left + 1 =>
    have := guarded_readGroups left
    inferInstanceAs (Guarded changes bits id (readByte >>= fun group =>
      if group < 128 then pure (some [group])
      else readGroups left >>= fun rest => pure (rest.map (group :: ·))))

instance guarded_readUnsigned (width : Nat) : Guarded changes bits id (readUnsigned width) :=
  @guarded_bind _ _ _ _ _ _ _ _ fun
    | some _ => guarded_settle _
    | none => guarded_throw _

instance guarded_readSigned (width : Nat) : Guarded changes bits id (readSigned width) :=
  @guarded_bind _ _ _ _ _ _ _ _ fun
    | some _ => guarded_settle _
    | none => guarded_throw _

instance guarded_writeUnsigned (value : Nat) : Guarded true bits id (writeUnsigned value) := by
  delta writeUnsigned
  infer_instance

instance guarded_writeSigned (value : Int) : Guarded true bits id (writeSigned value) := by
  delta writeSigned
  infer_instance

instance guarded_writeLimited (bytes : List UInt8) : Guarded true bits id (writeLimited bytes) := by
  delta writeLimited
  infer_instance

/-- What is left to read, as a store tells it that knows its size and the cursor to read at. A refusal is
hidden here: nothing is known then. -/
def availableProgram : Program (Option Nat) :=
  .call .size fun
    | .ok size => .call .readPosition fun
      | .ok position => .done (.ok (some (size - position)))
      | .error _ => .done (.ok none)
    | .error _ => .done (.ok none)

theorem run_availableProgram : availableProgram.run = available := by
  funext ⟨store, bits⟩
  cases store with
  | file f =>
    obtain ⟨content, place, next, readOnly, isOpen⟩ := f
    cases isOpen <;> rfl
  | _ => rfl

theorem confined_availableProgram : availableProgram.Confined changes bits :=
  ⟨rfl, fun
    | .ok _ => ⟨rfl, fun
      | .ok _ => True.intro
      | .error _ => True.intro⟩
    | .error _ => True.intro⟩

theorem delivers_or_closed {b : Buffer} (locked : b.store.Locked) :
    b.Delivers ∨ ∃ f bits, b = ⟨.file f, bits⟩ ∧ f.isOpen = false := by
  obtain ⟨store, bits⟩ := b
  cases store with
  | slice s => exact .inl True.intro
  | file f =>
    cases isOpen : f.isOpen with
    | true => exact .inl isOpen
    | false => exact .inr ⟨f, bits, rfl, isOpen⟩
  | memory | reader | seekable | writer => simp [Store.Locked, Store.ReadOnly] at locked

theorem answered_availableProgram {b : Buffer} (locked : b.store.Locked) (delivers : b.Delivers)
    {event : StoreEvent} (made : event ∈ availableProgram.events b) :
    ∃ reply, event.answer = .ok reply := by
  obtain ⟨store, bits⟩ := b
  cases store with
  | slice s =>
    have made : event ∈ [⟨.size, .ok s.content.size⟩, ⟨.readPosition, .ok s.readPosition⟩] := made
    obtain rfl | rfl := by simpa using made
    all_goals exact ⟨_, rfl⟩
  | file f =>
    obtain ⟨content, place, next, readOnly, isOpen⟩ := f
    obtain rfl : isOpen = true := delivers
    have made : event ∈ [⟨.size, .ok content.size⟩, ⟨.readPosition, .ok place⟩] := made
    obtain rfl | rfl := by simpa using made
    all_goals exact ⟨_, rfl⟩
  | memory | reader | seekable | writer => simp [Store.Locked, Store.ReadOnly] at locked

theorem readByte_of_closed {f : File} (closed : f.isOpen = false) (bits : PendingBits) :
    readByte ⟨.file f, bits⟩ = .error (.closed .file) ⟨.file f, bits⟩ := by
  obtain ⟨content, place, next, readOnly, isOpen⟩ := f
  cases closed
  unfold readByte readExact
  rw [readUpTo_eq_dite]
  rfl

theorem delivers_of_readUnsigned {b after : Buffer} (locked : b.store.Locked) {n : Nat}
    (ran : readUnsigned 64 b = .ok n after) : after.Delivers := by
  rcases delivers_or_closed locked with delivers | ⟨f, bits, rfl, closed⟩
  · obtain ⟨used, -, rfl⟩ := outcome_of_ok delivers ran
    exact delivers.advance used
  · have failed : readUnsigned 64 ⟨.file f, bits⟩ = .error (.closed .file) ⟨.file f, bits⟩ := by
      unfold readUnsigned
      rw [show Varint.groupCount 64 = 9 + 1 from rfl, readGroups, bind_apply, bind_apply,
        readByte_of_closed closed]
    rw [failed] at ran
    cases ran

instance guarded_readLength (itemSize : Nat) : Guarded changes bits id (readLength itemSize) :=
  .ofEq (readLength_eq itemSize).symm <|
    guardedBind (readUnsigned 64) _
      (fun length => availableProgram.bind fun known =>
        .done (if known.any (· < needed length itemSize) then
          .error (.lengthExceedsInput length (known.getD 0)) else .ok length))
      (fun length => by
        rw [Program.run_bind, run_availableProgram, checkRoom, bind_assoc]
        refine congrArg (available >>= ·) (funext fun known => ?_)
        split <;> rfl)
      (fun _ => confined_availableProgram.bind fun _ => True.intro)
      fun b after length locked ran kept event made e answered denial => by
        have delivers := delivers_of_readUnsigned locked ran
        rcases Program.mem_events_bind.mp made with here | ⟨known, last, asked, later⟩
        · obtain ⟨reply, told⟩ := answered_availableProgram kept delivers here
          cases told.symm.trans answered
        · cases later

instance guarded_readLimited : Guarded changes bits id readLimited := by
  delta readLimited
  infer_instance

end bytes

section positions

variable {b after : Buffer} {e : Error}

theorem closed_of_read (locked : b.store.Locked) {n : Nat} (failed : read n b = .error e after) :
    ∃ f, after.store = .file f ∧ f.isOpen = false ∧ e = .closed .file := by
  obtain ⟨store, bits⟩ := b
  cases store with
  | slice s => cases failed
  | file f =>
    obtain ⟨content, place, next, readOnly, isOpen⟩ := f
    cases isOpen with
    | true => cases failed
    | false =>
      cases failed
      exact ⟨_, rfl, rfl, rfl⟩
  | memory | reader | seekable | writer => simp [Store.Locked, Store.ReadOnly] at locked

theorem closed_of_readUpTo (locked : b.store.Locked) {n : Nat} (failed : readUpTo n b = .error e after) :
    ∃ f, after.store = .file f ∧ f.isOpen = false ∧ e = .closed .file := by
  induction n using Nat.strongRecOn generalizing b with
  | ind n ih =>
    rw [readUpTo_eq_dite] at failed
    split at failed
    · cases failed
    · rw [bind_apply] at failed
      cases ran : read n b with
      | error other reached =>
        rw [ran] at failed
        cases failed
        exact closed_of_read locked ran
      | ok bytes reached =>
        have guarded : Guarded false false id (read n) := guarded_read n
        have kept := guarded.locked locked
        rw [ran] at failed kept
        dsimp only at failed
        split at failed
        · cases failed
        · rw [bind_apply] at failed
          cases more : readUpTo (n - bytes.length) reached with
          | ok rest last =>
            rw [more] at failed
            cases failed
          | error other last =>
            rw [more] at failed
            cases failed
            exact ih _ (by omega) kept more

theorem writeBytes_of_locked (locked : b.store.Locked) (bytes : List UInt8) :
    ∃ e, writeBytes bytes b = .error e b ∧ ∀ position, seekWrite position b = .error e b := by
  obtain ⟨store, bits⟩ := b
  cases store with
  | slice s => exact ⟨_, rfl, fun _ => rfl⟩
  | file f =>
    obtain ⟨content, place, next, readOnly, isOpen⟩ := f
    cases readOnly with
    | true => exact ⟨_, rfl, fun _ => rfl⟩
    | false =>
      have closed : isOpen = false := by simpa [Store.Locked, Store.ReadOnly] using locked
      cases closed
      exact ⟨_, rfl, fun _ => rfl⟩
  | memory | reader | seekable | writer => simp [Store.Locked, Store.ReadOnly] at locked

instance guarded_readAt (position n : Nat) : Guarded true bits id (readAt position n) :=
  have (saved : Nat) : Guarded true bits id (attempt (readUpTo n) >>= fun outcome =>
      seekRead saved >>= fun _ => settle outcome) := by
    refine guardedAttempt _ _ fun b after e locked _ failed => ?_
    obtain ⟨f, file, closed, rfl⟩ := closed_of_readUpTo locked failed
    obtain ⟨store, bits⟩ := after
    obtain ⟨content, place, next, readOnly, isOpen⟩ := f
    cases file
    cases closed
    exact ⟨_, rfl⟩
  inferInstanceAs (Guarded true bits id (readPosition >>= fun saved => seekRead position >>= fun _ =>
    attempt (readUpTo n) >>= fun outcome => seekRead saved >>= fun _ => settle outcome))

instance guarded_writeAt (position : Nat) (bytes : List UInt8) : Guarded true bits id (writeAt position bytes) :=
  have (saved : Nat) : Guarded true bits id (attempt (writeBytes bytes) >>= fun outcome =>
      seekWrite saved >>= fun _ => settle outcome) := by
    refine guardedAttempt _ _ fun b after e locked _ failed => ?_
    obtain ⟨other, refused, again⟩ := writeBytes_of_locked locked bytes
    cases failed.symm.trans refused
    exact ⟨b, by rw [bind_apply, again]; rfl⟩
  inferInstanceAs (Guarded true bits id (writePosition >>= fun saved => seekWrite position >>= fun _ =>
    attempt (writeBytes bytes) >>= fun outcome => seekWrite saved >>= fun _ => settle outcome))

end positions

section numbers

instance guarded_writeFixed (order : ByteOrder) (width n : Nat) : Guarded true bits id (writeFixed order width n) := by
  delta writeFixed
  infer_instance

instance guarded_readFixed (order : ByteOrder) (width : Nat) : Guarded changes bits id (readFixed order width) := by
  delta readFixed
  infer_instance

instance guarded_writeFixedInt (order : ByteOrder) (width : Nat) (value : Int) :
    Guarded true bits id (writeFixedInt order width value) := by
  delta writeFixedInt
  infer_instance

instance guarded_readFixedInt (order : ByteOrder) (width : Nat) : Guarded changes bits id (readFixedInt order width) := by
  delta readFixedInt
  infer_instance

instance guarded_writeBool (value : Bool) : Guarded true bits id (writeBool value) := by
  delta writeBool
  infer_instance

instance guarded_readBool : Guarded changes bits id readBool := by
  delta readBool
  infer_instance

instance guarded_writeUuid (uuid : Uuid) : Guarded true bits id (writeUuid uuid) := by
  delta writeUuid
  infer_instance

instance guarded_readUuid : Guarded changes bits id readUuid := by
  delta readUuid
  infer_instance

instance guarded_writeDate (t : Instant) : Guarded true bits id (writeDate t) := by
  delta writeDate
  infer_instance

instance guarded_readDate : Guarded changes bits id readDate :=
  @guarded_bind _ _ _ _ _ _ _ _ fun millis => by
    cases Instant.ofMillis? millis with
    | some t => exact guarded_pure t
    | none => exact guarded_throw _

instance guarded_writeTime (t : Instant) : Guarded true bits id (writeTime t) := by
  delta writeTime
  infer_instance

instance guarded_readTime : Guarded changes bits id readTime := by
  delta readTime
  infer_instance

end numbers

section texts

instance guarded_writeString (s : String) : Guarded true bits id (writeString s) := by
  delta writeString
  infer_instance

instance guarded_readString : Guarded changes bits id readString := by
  delta readString
  infer_instance

instance guarded_checkCapacity (size : Nat) : Guarded changes bits id (checkCapacity size) := by
  delta checkCapacity
  infer_instance

instance guarded_writeFixedString (s : String) (width : Nat) : Guarded true bits id (writeFixedString s width) := by
  delta writeFixedString
  infer_instance

instance guarded_readFixedString (width : Nat) : Guarded changes bits id (readFixedString width) := by
  delta readFixedString
  infer_instance

instance guarded_writeInvertedString (s : String) (width : Nat) :
    Guarded true bits id (writeInvertedString s width) := by
  delta writeInvertedString
  infer_instance

instance guarded_readInvertedString (width : Nat) : Guarded changes bits id (readInvertedString width) := by
  delta readInvertedString
  infer_instance

instance guarded_writeCString (s : String) : Guarded true bits id (writeCString s) := by
  delta writeCString
  infer_instance

instance guarded_readToMark (mark : UInt8) : (fuel : Nat) → Guarded changes bits id (readToMark mark fuel)
  | 0 => guarded_pure []
  | fuel + 1 =>
    have := guarded_readToMark mark fuel
    .ofEq (readToMark_succ mark fuel).symm inferInstance

instance guarded_readDelimited (mark : UInt8) : Guarded changes bits id (readDelimited mark) := by
  delta readDelimited
  infer_instance

instance guarded_readCString : Guarded changes bits id readCString := by
  delta readCString
  infer_instance

instance guarded_writeChar (c : Char) : Guarded true bits id (writeChar c) := by
  delta writeChar
  infer_instance

instance guarded_readTail (lead : UInt8) : Guarded changes bits id (readTail lead) := by
  delta readTail
  cases Utf8.widthOf lead with
  | none => exact guarded_throw _
  | some width => exact guarded_bind _ _

instance guarded_readChar : Guarded changes bits id readChar := .ofEq readChar_eq.symm inferInstance

instance guarded_readCharsTo (mark : Char) : (fuel : Nat) → Guarded changes bits id (readCharsTo mark fuel)
  | 0 => guarded_pure []
  | fuel + 1 =>
    have := guarded_readCharsTo mark fuel
    have next : (outcome : Except Error Char) → Guarded changes bits id (match outcome with
        | .ok c => if c = mark then pure [] else readCharsTo mark fuel >>= fun rest => pure (c :: rest)
        | .error (.endOfData _ _) => pure []
        | .error e => throw e : BufferM (List Char)) := by
      rintro (e | c)
      · cases e <;> first | exact guarded_pure [] | exact guarded_throw _
      · infer_instance
    guardedAttempt readChar _ fun _ after e _ denial _ => by
      cases e <;> first | exact denial.elim | exact ⟨after, rfl⟩

instance guarded_readUntilChar (mark : Char) : Guarded changes bits id (readUntilChar mark) := by
  delta readUntilChar
  infer_instance

instance guarded_forM (f : α → BufferM Unit) [∀ v, Guarded changes bits id (f v)] :
    (items : List α) → Guarded changes bits id (items.forM f)
  | [] => guarded_pure ()
  | v :: rest =>
    have := guarded_forM f rest
    inferInstanceAs (Guarded changes bits id (f v >>= fun _ => rest.forM f))

instance guarded_writeUtf16 (s : String) : Guarded true bits id (writeUtf16 s) := by
  delta writeUtf16
  infer_instance

instance guarded_readUnits : (count : Nat) → Guarded changes bits id (readUnits count)
  | 0 => guarded_pure []
  | count + 1 =>
    have := guarded_readUnits count
    inferInstanceAs (Guarded changes bits id (readFixed .little 2 >>= fun unit =>
      readUnits count >>= fun rest => pure (UInt16.ofNat unit :: rest)))

instance guarded_readUtf16 (units : Nat) : Guarded changes bits id (readUtf16 units) := by
  delta readUtf16
  infer_instance

end texts

section search

instance guarded_searchChunks (needle : List UInt8) :
    (fuel : Nat) → (window : List UInt8) → (start : Nat) → Guarded changes bits id (searchChunks needle fuel window start)
  | 0, _, _ => guarded_pure none
  | fuel + 1, window, start =>
    have again (bytes : List UInt8) : Guarded changes bits id
        (let window := window ++ bytes
        match firstMatch? needle window with
        | some i => pure (some (start + i))
        | none =>
          let passed := window.length - min (needle.length - 1) window.length
          searchChunks needle fuel (window.drop passed) (start + passed) : BufferM (Option Nat)) := by
      dsimp only
      cases firstMatch? needle (window ++ bytes) with
      | some i => exact guarded_pure _
      | none => exact guarded_searchChunks needle fuel _ _
    @guarded_bind _ _ _ _ _ _ _ _ fun bytes => @guarded_ite _ _ _ _ _ _ _ _ (guarded_pure none) (again bytes)

instance guarded_find (needle : List UInt8) : Guarded true bits id (find needle) :=
  inferInstanceAs (Guarded true bits id (readPosition >>= fun start =>
    if needle.isEmpty then pure (some start)
    else unread >>= fun n => searchChunks needle (n + 1) [] start >>= fun found =>
      seekRead start >>= fun _ => pure found))

instance guarded_readToToken (token : List UInt8) :
    (fuel : Nat) → (got : List UInt8) → Guarded changes bits id (readToToken token fuel got)
  | 0, got => guarded_pure got
  | fuel + 1, got =>
    @guarded_ite _ _ _ _ _ _ _ _ (guarded_pure got) <| @guarded_bind _ _ _ _ _ _ _ _ fun
      | b :: _ => guarded_readToToken token fuel (b :: got)
      | [] => guarded_throw _

instance guarded_readUntilToken (token : List UInt8) : Guarded changes bits id (readUntilToken token) := by
  delta readUntilToken
  infer_instance

end search

section digests

instance guarded_sha512 : Guarded true bits id sha512 := by
  delta sha512
  infer_instance

instance guarded_toBase64 : Guarded true bits id toBase64 := by
  delta toBase64
  infer_instance

instance guarded_writeRandom (n : Nat) (gen : StdGen) : Guarded true bits id (writeRandom n gen) := by
  delta writeRandom
  infer_instance

end digests

section bits

instance guarded_writeBit (order : BitOrder) (bit : Bool) : Guarded true true id (writeBit order bit) :=
  guardedPending fun bits =>
    let byte := if bit then setBit bits.writeByte (order.place (8 - bits.free)) else bits.writeByte
    if bits.free = 1 then (modify fun b => { b with bits := { bits with writeByte := 0, free := 8 } }) >>=
      fun _ => writeByte byte
    else modify fun b => { b with bits := { bits with writeByte := byte, free := bits.free - 1 } }

instance guarded_takeBit (order : BitOrder) : Guarded changes true id (takeBit order) :=
  guardedPending fun bits => (modify fun b => { b with bits := { bits with used := bits.used + 1 } }) >>=
    fun _ => pure (bits.readByte.toNat.testBit (order.place bits.used))

def refill (byte : UInt8) : BufferM Unit :=
  modify fun b => { b with bits := { b.bits with readByte := byte, used := 0 } }

instance guarded_refill (byte : UInt8) : Guarded changes true id (refill byte) :=
  guardedModify fun bits => { bits with readByte := byte, used := 0 }

instance guarded_readBit (order : BitOrder) : Guarded changes true id (readBit order) :=
  .ofEq (readBit_eq order).symm <| guardedPending fun bits =>
    if 8 ≤ bits.used then readByte >>= fun byte => refill byte >>= fun _ => takeBit order
    else takeBit order

instance guarded_flushBits : Guarded true true id flushBits :=
  guardedPending fun bits => (modify fun b => { b with bits := .none }) >>= fun _ =>
    if bits.free < 8 then writeByte bits.writeByte else pure ()

instance guarded_finish : Guarded true true id finish := by
  delta finish
  infer_instance

end bits

section streams

instance guarded_asStream (m : BufferM α) [Guarded changes bits id m] : Guarded changes bits Error.inStream (asStream m) :=
  have (outcome : Except Error α) : Guarded changes bits Error.inStream (match outcome with
      | .ok v => pure v
      | .error e => throw (.io e.toIo) : BufferM α) :=
    match outcome with
    | .ok v => guarded_pure v
    | .error _ => guarded_throw _
  guardedAttempt m _ fun _ after _ _ _ _ => ⟨after, rfl⟩

instance guarded_streamRead (n : Nat) : Guarded changes bits Error.inStream (streamRead n) := by
  delta streamRead
  infer_instance

instance guarded_streamReadExact (n : Nat) : Guarded changes bits Error.inStream (streamReadExact n) := by
  delta streamReadExact
  infer_instance

instance guarded_streamWrite (bytes : List UInt8) : Guarded true bits Error.inStream (streamWrite bytes) := by
  delta streamWrite
  infer_instance

instance guarded_streamFlush : Guarded true bits Error.inStream streamFlush := by
  delta streamFlush
  infer_instance

end streams

end Buffer

end BinaryCodec
