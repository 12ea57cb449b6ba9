import BinaryCodec.Instant
import BinaryCodec.Schema.Basic
import BinaryCodec.Uuid

namespace BinaryCodec

/-- A value. Floating-point numbers are bit patterns; sequences, sets, arrays and tuples are lists;
a pointer is what it points at. -/
inductive Value where
  | unit
  | bool (b : Bool)
  | int (n : Int)
  | float (pattern : Nat)
  | char (c : Char)
  | text (s : String)
  | uuid (id : Uuid)
  | instant (t : Instant)
  | list (items : List Value)
  | map (entries : List (Value × Value))
  | option (value : Option Value)
  | record (fields : List Value)
  | variant (index : Nat) (fields : List Value)
  deriving Repr, Inhabited

namespace Value

def rank : Value → Nat
  | .unit => 0
  | .bool _ => 1
  | .int _ => 2
  | .float _ => 3
  | .char _ => 4
  | .text _ => 5
  | .uuid _ => 6
  | .instant _ => 7
  | .list _ => 8
  | .map _ => 9
  | .option _ => 10
  | .record _ => 11
  | .variant _ _ => 12

/-- Compares item by item; of two lists one of which starts with the other, the shorter is less. -/
def compareNumbers : List Nat → List Nat → Ordering
  | [], [] => .eq
  | [], _ :: _ => .lt
  | _ :: _, [] => .gt
  | m :: ms, n :: ns => (Ord.compare m n).then (compareNumbers ms ns)

mutual

/-- The order of values: numbers by size, texts and lists item by item, absence before presence,
variants by index. -/
def compare : Value → Value → Ordering
  | .unit, .unit => .eq
  | .bool a, .bool b => Ord.compare a.toNat b.toNat
  | .int a, .int b => Ord.compare a b
  | .float a, .float b => Ord.compare a b
  | .char a, .char b => Ord.compare a.toNat b.toNat
  | .text a, .text b => compareNumbers (a.toList.map Char.toNat) (b.toList.map Char.toNat)
  | .uuid a, .uuid b =>
    compareNumbers (a.bytes.toList.map UInt8.toNat) (b.bytes.toList.map UInt8.toNat)
  | .instant a, .instant b => (Ord.compare a.seconds b.seconds).then (Ord.compare a.nanos b.nanos)
  | .list as, .list bs => compareAll as bs
  | .map as, .map bs => compareEntries as bs
  | .option none, .option none => .eq
  | .option none, .option (some _) => .lt
  | .option (some _), .option none => .gt
  | .option (some a), .option (some b) => compare a b
  | .record as, .record bs => compareAll as bs
  | .variant i as, .variant j bs => (Ord.compare i j).then (compareAll as bs)
  | a, b => Ord.compare a.rank b.rank

def compareAll : List Value → List Value → Ordering
  | [], [] => .eq
  | [], _ :: _ => .lt
  | _ :: _, [] => .gt
  | a :: as, b :: bs => (compare a b).then (compareAll as bs)

def compareEntries : List (Value × Value) → List (Value × Value) → Ordering
  | [], [] => .eq
  | [], _ :: _ => .lt
  | _ :: _, [] => .gt
  | (k, a) :: as, (l, b) :: bs =>
    ((compare k l).then (compare a b)).then (compareEntries as bs)

end

/-- Puts an entry at its place among entries in ascending order; the entry of an equal key is
replaced. -/
def insertSorted (key value : Value) : List (Value × Value) → List (Value × Value)
  | [] => [(key, value)]
  | (k, v) :: rest =>
    match compare key k with
    | .lt => (key, value) :: (k, v) :: rest
    | .eq => (key, value) :: rest
    | .gt => (k, v) :: insertSorted key value rest

/-- Puts an entry after all others; the value of an equal key is replaced where it stands. -/
def insertLast (key value : Value) : List (Value × Value) → List (Value × Value)
  | [] => [(key, value)]
  | (k, v) :: rest =>
    if compare key k = .eq then (k, value) :: rest else (k, v) :: insertLast key value rest

/-- Puts an entry into a map. A map that keeps no order lists its keys in ascending order. -/
def insertEntry (order : KeyOrder) (entries : List (Value × Value)) (entry : Value × Value) :
    List (Value × Value) :=
  match order with
  | .sorted | .hashed => insertSorted entry.1 entry.2 entries
  | .insertion => insertLast entry.1 entry.2 entries

def mapOf (order : KeyOrder) (entries : List (Value × Value)) : Value :=
  .map (entries.foldl (insertEntry order) [])

def setOf (order : KeyOrder) (items : List Value) : Value :=
  .list (((items.map fun item => (item, Value.unit)).foldl (insertEntry order) []).map Prod.fst)

def ofBytes (bytes : List UInt8) : Value := .list (bytes.map fun b => .int b.toNat)

def toByte : Value → UInt8
  | .int n => UInt8.ofNat n.toNat
  | _ => 0

end Value

end BinaryCodec
