namespace BinaryCodec.Binding

/-- Characters without underscores; a word starts with a capital where `start` says so and after
each underscore. -/
def camelChars (start : Bool) : (chars : List Char) → List Char
  | [] => []
  | c :: rest =>
    if c = '_' then camelChars true rest
    else (if start then c.toUpper else c) :: camelChars false rest

def camelCase (name : String) : String := String.ofList (camelChars true name.toList)

/-- Characters in lower case; an underscore comes before a capital that follows a small letter or a
digit. -/
def snakeChars (afterSmall : Bool) : (chars : List Char) → List Char
  | [] => []
  | c :: rest =>
    if c.isUpper then
      (if afterSmall then ['_', c.toLower] else [c.toLower]) ++ snakeChars false rest
    else c :: snakeChars (c.isLower || c.isDigit) rest

def snakeCase (name : String) : String := String.ofList (snakeChars false name.toList)

def keywords : List String := [
  "abstract", "as", "async", "await", "become", "box", "break", "const", "continue", "do", "dyn",
  "else", "enum", "extern", "false", "final", "fn", "for", "gen", "if", "impl", "in", "let", "loop",
  "macro", "match", "mod", "move", "mut", "override", "priv", "pub", "ref", "return", "static",
  "struct", "trait", "true", "try", "type", "typeof", "unsafe", "unsized", "use", "virtual",
  "where", "while", "yield"]

def pathWords : List String := ["self", "Self", "super", "crate", ""]

def startsWithDigit (word : String) : Bool :=
  match word.toList with
  | c :: _ => c.isDigit
  | [] => false

def identifier (word : String) : String :=
  if word ∈ pathWords then word ++ "_"
  else if startsWithDigit word then "_" ++ word
  else if word ∈ keywords then "r#" ++ word
  else word

def typeIdentifier (name : String) : String := identifier (camelCase name)

def fieldIdentifier (name : String) : String := identifier (snakeCase name)

end BinaryCodec.Binding
