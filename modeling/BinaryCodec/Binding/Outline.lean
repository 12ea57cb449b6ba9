namespace BinaryCodec.Binding

inductive Outline where
  | line (text : String)
  /-- A first line that ends with an opening brace, lines one level deeper, and a closing brace
  with what follows it. -/
  | block (head : String) (body : List Outline) (tail : String)
  deriving Repr, Inhabited

def braced (text : String) : String := "\x7b" ++ text ++ "\x7d"

namespace Outline

def blank : Outline := .line ""

def indented (width : Nat) (text : String) : String :=
  if text.isEmpty then "" else String.ofList (List.replicate width ' ') ++ text

mutual

/-- The lines of a piece whose own lines start with `width` blanks; each level adds `step`. -/
def lines (step width : Nat) : Outline → List String
  | .line text => [indented width text]
  | .block head body tail =>
    indented width (head ++ " \x7b") :: linesAll step (width + step) body ++
      [indented width ("\x7d" ++ tail)]

def linesAll (step width : Nat) : List Outline → List String
  | [] => []
  | piece :: rest => lines step width piece ++ linesAll step width rest

end

def text (step : Nat) (pieces : List Outline) : String :=
  String.join ((linesAll step 0 pieces).map (· ++ "\n"))

end Outline

end BinaryCodec.Binding
