import BinaryCodec.Project.Access

namespace BinaryCodec.Project

inductive Entry where
  | file (content : List UInt8)
  | directory
  deriving DecidableEq, Repr, Inhabited

abbrev Route := List String

structure FileTree where
  workingDirectory : Route
  entries : List (Route × Entry)
  deriving DecidableEq, Repr, Inhabited

inductive Spot where
  | taken (route : Route) (entry : Entry)
  | vacant (route : Route)
  deriving DecidableEq, Repr, Inhabited

namespace FileTree

def entry? (tree : FileTree) (route : Route) : Option Entry :=
  if route.isEmpty then some .directory else tree.entries.lookup route

def put (tree : FileTree) (route : Route) (entry : Entry) : FileTree :=
  { tree with entries := (route, entry) :: tree.entries.filter fun old => old.1 ≠ route }

def follow (tree : FileTree) (here : Route) : (names : List String) → Except IoFault Spot
  | [] => .ok (.taken here .directory)
  | name :: rest =>
    if name = "." then tree.follow here rest
    else if name = ".." then tree.follow here.dropLast rest
    else
      let route := here ++ [name]
      match tree.entry? route with
      | some .directory => tree.follow route rest
      | some (.file content) =>
        if rest.isEmpty then .ok (.taken route (.file content)) else .error .notDirectory
      | none => if rest.isEmpty then .ok (.vacant route) else .error .missing

/-- The names of a path. A slash at the end asks for a directory, as a dot after it does. -/
def namesOf (path : String) : List String :=
  Path.names path ++ (if path.toList.getLast? = some '/' then ["."] else [])

/-- Where a list of names leads that belongs to `path`. -/
def find (tree : FileTree) (path : String) (names : List String) : Except IoFault Spot :=
  if path.isEmpty then .error .missing
  else tree.follow (if Path.isAbsolute path then [] else tree.workingDirectory) names

def isDirectory (tree : FileTree) (path : String) : Bool :=
  match tree.find path (namesOf path) with
  | .ok (.taken _ .directory) => true
  | _ => false

def read (tree : FileTree) (path : String) : Except IoFault (List UInt8) := do
  match ← tree.find path (namesOf path) with
  | .taken _ (.file content) => return content
  | .taken _ .directory => throw .directory
  | .vacant _ => throw .missing

def write (tree : FileTree) (path : String) (bytes : List UInt8) : Except IoFault FileTree := do
  match ← tree.find path (namesOf path) with
  | .taken route (.file _) | .vacant route => return tree.put route (.file bytes)
  | .taken _ .directory => throw .directory

def createDirectory (tree : FileTree) (path : String) : Except IoFault FileTree := do
  match ← tree.find path (Path.names path) with
  | .vacant route => return tree.put route .directory
  | .taken _ _ => throw .occupied

/-- Makes a directory, after at most `fuel` of those above it. One that is there already is left
alone. -/
def createWithin (tree : FileTree) : (fuel : Nat) → (path : String) → Except IoFault FileTree
  | 0, _ => .ok tree
  | fuel + 1, path =>
    if path.isEmpty then .ok tree
    else match tree.createDirectory path with
      | .ok tree => .ok tree
      | .error fault =>
        if fault = .missing then do
          let parent := (Path.parent? path).getD ""
          let tree ← tree.createWithin fuel parent
          match tree.createDirectory path with
          | .ok tree => return tree
          | .error fault => if tree.isDirectory path then return tree else throw fault
        else if tree.isDirectory path then .ok tree else .error fault

def createDirectories (tree : FileTree) (path : String) : Except IoFault FileTree :=
  tree.createWithin ((Path.parts path).length + 1) path

def addFile (tree : FileTree) (file : String × List UInt8) : FileTree :=
  let step := do
    let tree ← tree.createDirectories ((Path.parent? file.1).getD "")
    tree.write file.1 file.2
  match step with
  | .ok tree => tree
  | .error _ => tree

def ofFiles (workingDirectory : Route) (files : List (String × List UInt8)) : FileTree :=
  let above := (List.range workingDirectory.length).map fun n => workingDirectory.take (n + 1)
  files.foldl addFile ⟨workingDirectory, above.map fun route => (route, .directory)⟩

def files (tree : FileTree) : List (String × List UInt8) :=
  tree.entries.filterMap fun (route, entry) =>
    match entry with
    | .file content =>
      if tree.workingDirectory.isPrefixOf route then
        some ("/".intercalate (route.drop tree.workingDirectory.length), content)
      else none
    | .directory => none

def update (step : FileTree → Except IoFault FileTree) : StateM FileTree (Except IoFault Unit) :=
  fun tree =>
    match step tree with
    | .ok tree => (.ok (), tree)
    | .error fault => (.error fault, tree)

def access : FileAccess (StateM FileTree) where
  read path := return (← get).read path
  createDirectories path := update fun tree => tree.createDirectories path
  write path bytes := update fun tree => tree.write path bytes

end FileTree

end BinaryCodec.Project
