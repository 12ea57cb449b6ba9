import BinaryCodec.Text.Blank

namespace BinaryCodec.Definition

structure Position where
  line : Nat
  column : Nat
  deriving DecidableEq, Repr, Inhabited

namespace Position

def start : Position := ⟨1, 1⟩

def next (place : Position) (c : Char) : Position :=
  if c = '\n' then ⟨place.line + 1, 1⟩ else ⟨place.line, place.column + 1⟩

def after (place : Position) (chars : List Char) : Position := chars.foldl next place

end Position

inductive TokenKind where
  | word (text : String)
  | useKeyword
  | enumKeyword
  | structKeyword
  | rpcKeyword
  | openBrace
  | closeBrace
  | arrow
  deriving DecidableEq, Repr, Inhabited

namespace TokenKind

def ofWord (text : String) : TokenKind :=
  match text with
  | "use" => .useKeyword
  | "enum" => .enumKeyword
  | "struct" => .structKeyword
  | "rpc" => .rpcKeyword
  | text => .word text

def text : TokenKind → String
  | .word text => text
  | .useKeyword => "use"
  | .enumKeyword => "enum"
  | .structKeyword => "struct"
  | .rpcKeyword => "rpc"
  | .openBrace => "\x7b"
  | .closeBrace => "\x7d"
  | .arrow => "->"

end TokenKind

structure Token where
  kind : TokenKind
  place : Position
  deriving DecidableEq, Repr, Inhabited

def endsWord (c : Char) : Bool := c = '#' || c = '\x7b' || c = '\x7d' || Text.isBlank c

/-- The rest of a word, which ends before an arrow or a character that ends words, and what follows
it. -/
def spanWord : (chars : List Char) → List Char × List Char
  | [] => ([], [])
  | '-' :: '>' :: rest => ([], '-' :: '>' :: rest)
  | c :: rest => if endsWord c then ([], c :: rest) else
    let (word, more) := spanWord rest
    (c :: word, more)

theorem length_spanWord_le (chars : List Char) : (spanWord chars).2.length ≤ chars.length := by
  fun_induction spanWord chars with
  | case1 => exact Nat.le_refl _
  | case2 => exact Nat.le_refl _
  | case3 => exact Nat.le_refl _
  | case4 _ _ _ _ _ _ h ih =>
    rw [h] at ih
    exact Nat.le_succ_of_le ih

def scan (place : Position) : (chars : List Char) → List Token
  | [] => []
  | '-' :: '>' :: rest => ⟨.arrow, place⟩ :: scan ((place.next '-').next '>') rest
  | c :: rest =>
    if c = '#' then
      let comment := rest.takeWhile (· ≠ '\n')
      scan ((place.next c).after comment) (rest.drop comment.length)
    else if c = '\x7b' then ⟨.openBrace, place⟩ :: scan (place.next c) rest
    else if c = '\x7d' then ⟨.closeBrace, place⟩ :: scan (place.next c) rest
    else if Text.isBlank c then scan (place.next c) rest
    else
      let more := spanWord rest
      ⟨.ofWord (String.ofList (c :: more.1)), place⟩ :: scan (place.after (c :: more.1)) more.2
termination_by chars => chars.length
decreasing_by
  all_goals
    have h := length_spanWord_le ‹List Char›
    simp_all
    try omega

def tokens (source : String) : List Token := scan .start source.toList

end BinaryCodec.Definition
