namespace BinaryCodec.Project.Path

def isAbsolute (path : String) : Bool := path.toList.head? = some '/'

def names (path : String) : List String := (path.splitOn "/").filter (· ≠ "")

def parts (path : String) : List String :=
  let names := names path
  let rest := names.filter (· ≠ ".")
  if !isAbsolute path && names.head? = some "." then "." :: rest else rest

def ofParts (absolute : Bool) (parts : List String) : String :=
  (if absolute then "/" else "") ++ "/".intercalate parts

def parent? (path : String) : Option String :=
  let parts := parts path
  if parts.isEmpty then none else some (ofParts (isAbsolute path) parts.dropLast)

def fileName? (path : String) : Option String :=
  match (parts path).getLast? with
  | some name => if name = "." ∨ name = ".." then none else some name
  | none => none

def join (dir name : String) : String :=
  if isAbsolute name then name
  else if dir.isEmpty || dir.toList.getLast? = some '/' then dir ++ name
  else dir ++ "/" ++ name

/-- The package that a file defines: its name up to the first dot, unless that is empty. -/
def packageName? (path : String) : Option String := do
  let name ← fileName? path
  let stem := name.toList.takeWhile (· ≠ '.')
  if stem.isEmpty then none else some (String.ofList stem)

end BinaryCodec.Project.Path
