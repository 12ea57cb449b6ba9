import BinaryCodec.Store.File
import BinaryCodec.Store.Stream

namespace BinaryCodec

/-- A byte store with a cursor to read at and a cursor to write at. -/
inductive Store where
  | memory (m : Memory)
  | slice (s : Slice)
  | reader (r : Reader)
  | seekable (s : SeekableReader)
  | writer (w : Writer)
  | file (f : File)

instance : Inhabited Store := ⟨.memory .empty⟩

abbrev StoreM := EStateM Error Store

namespace Store

def kind : Store → StoreKind
  | .memory _ => .memory
  | .slice _ => .slice
  | .reader _ => .reader
  | .seekable _ => .seekableReader
  | .writer _ => .writer
  | .file _ => .file

def refusal (store : Store) (operation : Operation) : Error := .unsupported store.kind operation

/-- Answers with the value and the new state of a step, or fails and keeps the state. -/
def settle {α σ : Type} (store : Store) (rebuild : σ → Store) :
    Except Error (α × σ) → EStateM.Result Error Store α
  | .ok (value, state) => .ok value (rebuild state)
  | .error e => .error e store

def move {σ : Type} (store : Store) (rebuild : σ → Store) :
    Except Error σ → EStateM.Result Error Store Unit
  | .ok state => .ok () (rebuild state)
  | .error e => .error e store

/-- At most `n` bytes at the read cursor, which moves past them. None are read at the end. -/
def read (n : Nat) : StoreM (List UInt8)
  | .memory m => let (bytes, m) := m.read n; .ok bytes (.memory m)
  | .slice s => let (bytes, s) := s.read n; .ok bytes (.slice s)
  | .reader r => settle (.reader r) .reader (r.read n)
  | .seekable s => settle (.seekable s) .seekable (s.read n)
  | .writer w => .error (.unsupported .writer .read) (.writer w)
  | .file f => settle (.file f) .file (f.read n)

/-- Writes all of `bytes` at the write cursor, which moves past them. -/
def write (bytes : List UInt8) : StoreM Unit
  | .memory m => .ok () (.memory (m.write bytes))
  | .slice s => .error (.readOnly .slice) (.slice s)
  | .reader r => .error (.unsupported .reader .write) (.reader r)
  | .seekable s => .error (.unsupported .seekableReader .write) (.seekable s)
  | .writer w =>
    match w.write bytes with
    | (.ok (), w) => .ok () (.writer w)
    | (.error e, w) => .error e (.writer w)
  | .file f => move (.file f) .file (f.write bytes)

def seekRead (position : Nat) : StoreM Unit
  | .memory m => move (.memory m) .memory (m.seekRead position)
  | .slice s => move (.slice s) .slice (s.seekRead position)
  | .reader r => .error (.unsupported .reader .seek) (.reader r)
  | .seekable s => move (.seekable s) .seekable (s.seekRead position)
  | .writer w => .error (.unsupported .writer .seek) (.writer w)
  | .file f => move (.file f) .file (f.seekRead position)

def seekWrite (position : Nat) : StoreM Unit
  | .memory m => move (.memory m) .memory (m.seekWrite position)
  | .slice s => .error (.readOnly .slice) (.slice s)
  | .reader r => .error (.unsupported .reader .seek) (.reader r)
  | .seekable s => .error (.unsupported .seekableReader .seekWrite) (.seekable s)
  | .writer w => .error (.unsupported .writer .seek) (.writer w)
  | .file f => move (.file f) .file (f.seekWrite position)

def readPosition (store : Store) : Except Error Nat :=
  match store with
  | .memory m => .ok m.readPosition
  | .slice s => .ok s.readPosition
  | .reader r => .ok r.position
  | .seekable s => .ok s.readPosition
  | .writer _ => .error (store.refusal .readPosition)
  | .file f => .ok f.readPosition

def writePosition (store : Store) : Except Error Nat :=
  match store with
  | .memory m => .ok m.writePosition
  | .slice s => .ok s.content.size
  | .reader _ | .seekable _ => .error (store.refusal .writePosition)
  | .writer w => .ok w.written
  | .file f => .ok f.writePosition

def size (store : Store) : Except Error Nat :=
  match store with
  | .memory m => .ok m.content.size
  | .slice s => .ok s.content.size
  | .reader _ => .error (store.refusal .size)
  | .seekable s => .ok s.content.size
  | .writer w => .ok w.written
  | .file f => f.size

def contents : StoreM (List UInt8)
  | .memory m => .ok m.content.toList (.memory m)
  | .slice s => .ok s.content.toList (.slice s)
  | .reader r => .error (.unsupported .reader .contents) (.reader r)
  | .seekable s =>
    match s.contents with
    | (.ok bytes, s) => .ok bytes (.seekable s)
    | (.error e, s) => .error e (.seekable s)
  | .writer w => .error (.unsupported .writer .contents) (.writer w)
  | .file f => settle (.file f) .file (f.contents.map fun bytes => (bytes, f))

/-- Drops all bytes and takes both cursors to the start. -/
def erase : StoreM Unit
  | .memory m => .ok () (.memory m.erase)
  | .slice s => .error (.readOnly .slice) (.slice s)
  | .reader r => .error (.unsupported .reader .erase) (.reader r)
  | .seekable s => .error (.unsupported .seekableReader .erase) (.seekable s)
  | .writer w => .error (.unsupported .writer .erase) (.writer w)
  | .file f => move (.file f) .file f.erase

def flush : StoreM Unit
  | .file f => move (.file f) .file (f.flush.map fun _ => f)
  | .writer w => move (.writer w) .writer (w.flush.map fun _ => w)
  | store => .ok () store

/-- Lets go of the file under the store, if there is one. A sink gets what is held back. -/
def close : StoreM Unit
  | .file f => .ok () (.file f.close)
  | .writer w => flush (.writer w)
  | store => .ok () store

/-- Number of bytes between the read cursor and the end, where the store can tell. -/
def available (store : Store) : Option Nat :=
  match store with
  | .memory m => some (m.content.size - m.readPosition)
  | .slice s => some (s.content.size - s.readPosition)
  | .reader _ | .writer _ => none
  | .seekable s => some (s.content.size - s.readPosition)
  | .file f => if f.isOpen then some (f.content.size - f.readPosition) else none

/-- Number of bytes that reads can still deliver, whether or not the store can tell. -/
def unread (store : Store) : Nat :=
  match store with
  | .memory m => m.content.size - m.readPosition
  | .slice s => s.content.size - s.readPosition
  | .reader r => r.reach
  | .seekable s => s.stream.reach
  | .writer _ => 0
  | .file f => f.content.size - f.readPosition

end Store

end BinaryCodec
