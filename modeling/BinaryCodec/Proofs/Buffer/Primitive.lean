import BinaryCodec.Proofs.Buffer.Bits
import BinaryCodec.Proofs.Buffer.Text

namespace BinaryCodec.Buffer

inductive Primitive where
  | byte
  | bool
  /-- A number of `width` bytes, or the bit pattern of a float. -/
  | word (order : ByteOrder) (width : Nat)
  | integer (order : ByteOrder) (width : Nat)
  | unsigned (bits : Nat)
  | signed (bits : Nat)
  | uuid
  | bytes (count : Nat)
  | limited
  | string
  | char
  | cString
  | fixedString (width : Nat)
  | invertedString (width : Nat)
  | utf16 (units : Nat)
  | date
  | time
  | bits (order : BitOrder) (count : Nat)
  deriving DecidableEq, Repr

namespace Primitive

abbrev Content : Primitive → Type
  | byte => UInt8
  | bool => Bool
  | word _ _ | unsigned _ => Nat
  | integer _ _ | signed _ => Int
  | uuid => Uuid
  | bytes _ | limited => List UInt8
  | string | cString | fixedString _ | invertedString _ | utf16 _ => String
  | char => Char
  | date | time => Instant
  | bits _ _ => List Bool

def write : (kind : Primitive) → kind.Content → BufferM Unit
  | byte, b => writeByte b
  | bool, b => writeBool b
  | word order width, n => writeFixed order width n
  | integer order width, n => writeFixedInt order width n
  | unsigned _, n => writeUnsigned n
  | signed _, n => writeSigned n
  | uuid, id => writeUuid id
  | bytes _, all => writeBytes all
  | limited, all => writeLimited all
  | string, s => writeString s
  | char, c => writeChar c
  | cString, s => writeCString s
  | fixedString width, s => writeFixedString s width
  | invertedString width, s => writeInvertedString s width
  | utf16 _, s => writeUtf16 s
  | date, t => writeDate t
  | time, t => writeTime t
  | bits order _, run => do run.forM (writeBit order); flushBits

def read : (kind : Primitive) → BufferM kind.Content
  | byte => readByte
  | bool => readBool
  | word order width => readFixed order width
  | integer order width => readFixedInt order width
  | unsigned width => readUnsigned width
  | signed width => readSigned width
  | uuid => readUuid
  | bytes count => readBytes count
  | limited => readLimited
  | string => readString
  | char => readChar
  | cString => readCString
  | fixedString width => readFixedString width
  | invertedString width => readInvertedString width
  | utf16 units => readUtf16 units
  | date => readDate
  | time => readTime
  | bits order count => do let run ← readBits order count; flushBits; return run

/-- Whether an item of the kind gives its content back. -/
def Fits : (kind : Primitive) → kind.Content → Prop
  | byte, _ | bool, _ | uuid, _ | char, _ => True
  | word _ width, n => n < Word.count (8 * width)
  | integer _ width, n => 0 < width ∧ Word.holdsSigned (8 * width) n = true
  | unsigned width, n => 0 < width ∧ n < Word.count width
  | signed width, n => 0 < width ∧ Word.holdsSigned width n = true
  | bytes count, all => all.length = count
  | limited, all => all.length < Word.count 64
  | string, s => Utf8.size s < Word.count 64
  | cString, s => '\x00' ∉ s.toList
  | fixedString width, s => width ≤ maxCapacity ∧ Utf8.size s ≤ width ∧ s.toList.getLast? ≠ some '\x00'
  | invertedString width, s => width ≤ maxCapacity ∧ Utf8.size s ≤ width ∧ s.toList.head? ≠ some '\x00'
  | utf16 units, s => (Utf16.encode s).length = units
  | date, t => IsDate t
  | time, t => IsTime t
  | bits _ count, run => run.length = count

def encoding : (kind : Primitive) → kind.Content → List UInt8
  | byte, b => [b]
  | bool, b => [if b then 1 else 0]
  | word order width, n => Endian.encode order width n
  | integer order width, n => Endian.encode order width (Word.wrap (8 * width) n)
  | unsigned _, n => Varint.encodeUnsigned n
  | signed _, n => Varint.encodeSigned n
  | uuid, id => id.bytes.toList
  | bytes _, all => all
  | limited, all => Varint.encodeUnsigned all.length ++ all
  | string, s => Varint.encodeUnsigned (Utf8.size s) ++ Utf8.encode s
  | char, c => String.utf8EncodeChar c
  | cString, s => Utf8.encode s ++ [0]
  | fixedString width, s => fixedField width s.toList
  | invertedString width, s => fixedField width (invert s).toList
  | utf16 _, s => (Utf16.encode s).flatMap unitBytes
  | date, t => Varint.encodeUnsigned t.toMillis.toNat
  | time, t => Varint.encodeSigned t.toNanos
  | bits order _, run => packBits order run

end Primitive

structure Item where
  kind : Primitive
  content : kind.Content

namespace Item

def Fits (item : Item) : Prop := item.kind.Fits item.content

def encoding (item : Item) : List UInt8 := item.kind.encoding item.content

end Item

def writeItems (items : List Item) : BufferM Unit := items.forM fun item => item.kind.write item.content

def readItems : (kinds : List Primitive) → BufferM (List Item)
  | [] => return []
  | kind :: rest => do
    let content ← kind.read
    return ⟨kind, content⟩ :: (← readItems rest)

section one

variable {b : Buffer}

theorem writeUnits_eq (accepts : b.Accepts) (units : List UInt16) :
    (units.forM fun unit => writeFixed .little 2 unit.toNat) b =
      .ok () (b.written (units.flatMap unitBytes)) := by
  have pieces := writePieces_eq accepts (units.map unitBytes)
  rw [List.forM_eq_forM, List.forM_map] at pieces
  exact pieces

theorem writePair_eq (accepts : b.Accepts) (front back : List UInt8) :
    (writeBytes front >>= fun _ => writeBytes back) b = .ok () (b.written (front ++ back)) := by
  rw [bind_apply, writeBytes_eq accepts]
  simp only [writeBytes_eq (accepts.written front), written_written]

theorem Primitive.write_eq (accepts : b.Accepts) (clean : b.bits = .none) {kind : Primitive}
    {content : kind.Content} (fits : kind.Fits content) :
    kind.write content b = .ok () (b.written (kind.encoding content)) := by
  cases kind with
  | limited => exact writePair_eq accepts (Varint.encodeUnsigned content.length) content
  | string => exact writePair_eq accepts (Varint.encodeUnsigned (Utf8.size content)) (Utf8.encode content)
  | cString => exact writePair_eq accepts (Utf8.encode content) [0]
  | utf16 units => exact writeUnits_eq accepts (Utf16.encode content)
  | date =>
    have written := writeBytes_eq accepts (Varint.encodeUnsigned (Instant.toMillis content).toNat)
    simp only [write, writeDate, fits.dateMillis]
    exact written
  | time =>
    have written := writeBytes_eq accepts (Varint.encodeSigned (Instant.toNanos content))
    simp only [write, writeTime, fits.timeNanos]
    exact written
  | fixedString width =>
    simp only [write, writeFixedString_eq fits.1]
    exact writeBytes_eq accepts _
  | invertedString width =>
    simp only [write, writeInvertedString, writeFixedString_eq fits.1]
    exact writeBytes_eq accepts _
  | bits order count =>
    obtain ⟨store, pending⟩ := b
    cases clean
    exact writeBits_eq accepts (Nat.zero_lt_succ 7) content
  | _ => exact writeBytes_eq accepts _

theorem Primitive.read_eq (delivers : b.Delivers) (clean : b.bits = .none) {kind : Primitive}
    {content : kind.Content} (fits : kind.Fits content) {rest : List UInt8}
    (upcoming : b.upcoming = kind.encoding content ++ rest) :
    kind.read b = .ok content (b.advance (kind.encoding content).length) := by
  cases kind with
  | byte => exact (decodes_readByte content).run delivers upcoming
  | bool => exact (decodes_readBool content).run delivers upcoming
  | word order width => exact (decodes_readFixed order fits).run delivers upcoming
  | integer order width => exact (decodes_readFixedInt order fits.1 fits.2).run delivers upcoming
  | unsigned width => exact (decodes_readUnsigned fits.1 fits.2).run delivers upcoming
  | signed width => exact (decodes_readSigned fits.1 fits.2).run delivers upcoming
  | uuid => exact (decodes_readUuid content).run delivers upcoming
  | bytes count => exact (decodes_readBytes fits).run delivers upcoming
  | limited => exact (decodes_readLimited fits).run delivers upcoming
  | string => exact (decodes_readString fits).run delivers upcoming
  | char => exact (decodes_readChar content).run delivers upcoming
  | cString => exact (decodes_readCString fits).run delivers upcoming
  | fixedString width => exact (decodes_readFixedString fits.1 fits.2).run delivers upcoming
  | invertedString width =>
    exact (decodes_readInvertedString fits.1 (fitsField_invert_iff.mpr fits.2)).run delivers upcoming
  | utf16 units =>
    have decodes := decodes_readUtf16 content
    rw [show (Utf16.encode content).length = units from fits] at decodes
    exact decodes.run delivers upcoming
  | date => exact (decodes_readDate fits).run delivers upcoming
  | time => exact (decodes_readTime fits).run delivers upcoming
  | bits order count =>
    have run : (do let run ← readBits order (List.length content); flushBits; return run) b = _ :=
      readBits_flush content delivers clean upcoming
    rw [show List.length content = count from fits] at run
    exact run

end one

section items

variable {b : Buffer} {items : List Item}

theorem writeItems_eq (accepts : b.Accepts) (clean : b.bits = .none)
    (fits : ∀ item ∈ items, item.Fits) :
    writeItems items b = .ok () (b.written (items.flatMap Item.encoding)) := by
  induction items generalizing b with
  | nil =>
    rw [List.flatMap_nil, written_nil]
    rfl
  | cons item rest ih =>
    obtain ⟨first, others⟩ := List.forall_mem_cons.mp fits
    have next := ih (accepts.written item.encoding) clean others
    change (item.kind.write item.content >>= fun _ => writeItems rest) b = _
    rw [bind_apply, Primitive.write_eq accepts clean first]
    rw [written_written] at next
    exact next

theorem readItems_eq (delivers : b.Delivers) (clean : b.bits = .none)
    (fits : ∀ item ∈ items, item.Fits) {rest : List UInt8}
    (upcoming : b.upcoming = items.flatMap Item.encoding ++ rest) :
    readItems (items.map Item.kind) b =
      .ok items (b.advance (items.flatMap Item.encoding).length) := by
  induction items generalizing b with
  | nil =>
    rw [List.flatMap_nil, List.length_nil, advance_zero]
    rfl
  | cons item more ih =>
    obtain ⟨first, others⟩ := List.forall_mem_cons.mp fits
    rw [List.flatMap_cons, List.append_assoc] at upcoming
    have behind : (b.advance item.encoding.length).upcoming =
        more.flatMap Item.encoding ++ rest := by
      rw [upcoming_advance, upcoming, List.drop_left]
    have next := ih (delivers.advance item.encoding.length) clean others behind
    rw [advance_advance, ← List.length_append, ← List.flatMap_cons] at next
    have here : item.kind.read b = .ok item.content (b.advance item.encoding.length) :=
      Primitive.read_eq delivers clean first upcoming
    rw [List.map_cons, readItems, bind_apply, here]
    simp only [bind_apply, next]
    rfl

end items

/-- Whether the items are read back from the buffer, each from the place on where it was written, with
no bits left between them. -/
def ReadsBack (items : List Item) (b : Buffer) : Prop :=
  ∀ front back, items = front ++ back → ∃ stage after position,
    writeItems front .empty = .ok () stage ∧ stage.store.writePosition = .ok position ∧
    readItems (front.map Item.kind) b = .ok front after ∧
    after.store.readPosition = .ok position ∧ after.bits = .none

theorem accepts_empty : Buffer.empty.Accepts := True.intro

theorem toList_written_empty (bytes : List UInt8) :
    (Content.overwrite #[] 0 bytes).toList = bytes := by
  rw [Content.toList_overwrite (Nat.zero_le _)]
  simp

theorem readsBack_of_upcoming {items : List Item} (fits : ∀ item ∈ items, item.Fits) {b : Buffer}
    (delivers : b.Delivers) (clean : b.bits = .none) (start : b.store.readPosition = .ok 0)
    (upcoming : b.upcoming = items.flatMap Item.encoding) : ReadsBack items b := by
  rintro front back rfl
  have some : ∀ item ∈ front, item.Fits := fun item member =>
    fits item (List.mem_append_left back member)
  rw [List.flatMap_append] at upcoming
  have place := readPosition_advance start (front.flatMap Item.encoding).length
  rw [Nat.zero_add] at place
  refine ⟨_, _, (front.flatMap Item.encoding).length, writeItems_eq accepts_empty rfl some, ?_,
    readItems_eq delivers clean some upcoming, ?_, clean⟩
  · exact congrArg Except.ok (Nat.zero_add _)
  · exact place

/-- Items of any kinds that were written to an empty buffer are read back from it, from a slice of its
bytes, and from a stream of them, however it cuts them. -/
theorem readItems_writeItems {items : List Item} (fits : ∀ item ∈ items, item.Fits) :
    ∃ bytes written, writeItems items .empty = .ok () written ∧
      contents written = .ok bytes written ∧ written.store.size = .ok bytes.length ∧
      written.store.writePosition = .ok bytes.length ∧
      ReadsBack items written ∧ ReadsBack items (.ofSlice bytes) ∧
      ∀ limit, (∀ position, 0 < limit position) → ReadsBack items (.ofStream bytes limit) := by
  let bytes := items.flatMap Item.encoding
  have filled := toList_written_empty bytes
  refine ⟨bytes, _, writeItems_eq accepts_empty rfl fits, ?_, ?_, ?_, ?_, ?_, ?_⟩
  · exact congrArg (fun all => EStateM.Result.ok all _) filled
  · exact congrArg (fun all => Except.ok (List.length all)) filled
  · exact congrArg Except.ok (Nat.zero_add _)
  · exact readsBack_of_upcoming fits rfl rfl rfl filled
  · exact readsBack_of_upcoming fits True.intro rfl rfl (upcoming_ofSlice bytes)
  · intro limit positive
    exact readsBack_of_upcoming fits positive rfl rfl (upcoming_ofStream bytes limit)

/-- Eleven bits, a date, a text in UTF-16, numbers, texts up to a zero and in a field, and an instant
before the epoch. -/
def assorted : List Item := [
  ⟨.bits .lowFirst 3, [true, false, true]⟩, ⟨.date, (⟨1615734566, 7000000⟩ : Instant)⟩,
  ⟨.utf16 2, "hé"⟩, ⟨.bits .highFirst 8, [true, true, false, false, true, false, true, false]⟩,
  ⟨.integer .big 2, (-2 : Int)⟩, ⟨.signed 128, (-300 : Int)⟩, ⟨.cString, "ab"⟩,
  ⟨.invertedString 4, "ab"⟩, ⟨.time, (⟨-14182980, 1⟩ : Instant)⟩, ⟨.bool, true⟩]

theorem readItems_writeItems_assorted : (∀ item ∈ assorted, item.Fits) ∧
    ∃ bytes written, writeItems assorted .empty = .ok () written ∧
      contents written = .ok bytes written ∧ written.store.size = .ok bytes.length ∧
      written.store.writePosition = .ok bytes.length ∧
      ReadsBack assorted written ∧ ReadsBack assorted (.ofSlice bytes) ∧
      ∀ limit, (∀ position, 0 < limit position) → ReadsBack assorted (.ofStream bytes limit) := by
  have date : IsDate ⟨1615734566, 7000000⟩ := ⟨by decide, by decide, by decide, by decide⟩
  have time : IsTime ⟨-14182980, 1⟩ := ⟨by decide, by decide⟩
  have fits : ∀ item ∈ assorted, item.Fits := by
    simp only [assorted, List.forall_mem_cons]
    refine ⟨rfl, date, ?_, rfl, ⟨by decide, by decide⟩, ⟨by decide, by decide⟩, ?_, ?_, time,
      True.intro, nofun⟩
    · simp [Item.Fits, Primitive.Fits, Utf16.encode, Utf16.encodeChar]
    · simp [Item.Fits, Primitive.Fits]
    · refine ⟨by decide, ?_, by simp⟩
      simp [Utf8.size, Utf8.encode]
      decide
  exact ⟨fits, readItems_writeItems fits⟩

theorem readItems_of_write_eq {kind : Primitive} {content other : kind.Content}
    (same : kind.write content = kind.write other) (fits : kind.Fits other) :
    ∃ written after, writeItems [⟨kind, content⟩] .empty = .ok () written ∧
      readItems [kind] written = .ok [⟨kind, other⟩] after := by
  have fit : ∀ item ∈ [(⟨kind, other⟩ : Item)], item.Fits := by
    intro item member
    cases List.mem_singleton.mp member
    exact fits
  have wrote := writeItems_eq accepts_empty rfl fit
  have both : writeItems [⟨kind, content⟩] = writeItems [⟨kind, other⟩] := by
    simp only [writeItems, List.forM_eq_forM, List.forM_cons, same]
  have upcoming : (Buffer.empty.written ([(⟨kind, other⟩ : Item)].flatMap Item.encoding)).upcoming =
      [(⟨kind, other⟩ : Item)].flatMap Item.encoding ++ [] := by
    rw [List.append_nil]
    exact toList_written_empty _
  have delivers : (Buffer.empty.written ([(⟨kind, other⟩ : Item)].flatMap Item.encoding)).Delivers := rfl
  exact ⟨_, _, both ▸ wrote, readItems_eq delivers rfl fit upcoming⟩

/-- An instant before the epoch has no date, one within a leap second is read back as the instant that is
as far from the epoch, and no vector holds the widest fields. -/
theorem items_not_read_back :
    writeItems [⟨.date, (⟨-1, 0⟩ : Instant)⟩] .empty =
      .error (.timestampOutOfRange (-1000)) .empty ∧
    (∃ written after, writeItems [⟨.date, (⟨59, 1500000000⟩ : Instant)⟩] .empty = .ok () written ∧
      readItems [.date] written = .ok [⟨.date, (⟨60, 500000000⟩ : Instant)⟩] after) ∧
    (∃ written after, writeItems [⟨.time, (⟨59, 1500000000⟩ : Instant)⟩] .empty = .ok () written ∧
      readItems [.time] written = .ok [⟨.time, (⟨60, 500000000⟩ : Instant)⟩] after) ∧
    writeItems [⟨.fixedString (Word.last 64), ""⟩] .empty = .error .capacityOverflow .empty := by
  refine ⟨rfl, ?_, ?_, ?_⟩
  · exact readItems_of_write_eq rfl ⟨by decide, by decide, by decide, by decide⟩
  · exact readItems_of_write_eq rfl ⟨by decide, by decide⟩
  · have wide : ¬Word.last 64 ≤ maxCapacity := by decide
    have refused : Primitive.write (.fixedString (Word.last 64)) "" .empty =
        .error .capacityOverflow .empty := by
      simp only [Primitive.write, writeFixedString_wide wide]
      rfl
    simp only [writeItems, List.forM_eq_forM, List.forM_cons]
    rw [bind_apply, refused]

end BinaryCodec.Buffer
