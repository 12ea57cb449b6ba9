import BinaryCodec.Binding.Compilation
import BinaryCodec.Definition.Json
import BinaryCodec.Project.Access
import BinaryCodec.Project.Options

namespace BinaryCodec.Project

open Binding

structure Outcome where
  code : Nat
  output : String
  errors : String
  deriving DecidableEq, Repr, Inhabited

structure Obstacle where
  context : String
  cause : Option String
  deriving DecidableEq, Repr, Inhabited

def Obstacle.report (obstacle : Obstacle) : String :=
  match obstacle.cause with
  | none => "Error: " ++ obstacle.context ++ "\n"
  | some cause => "Error: " ++ obstacle.context ++ "\n\nCaused by:\n    " ++ cause ++ "\n"

namespace Command

def failureCode : Nat := 1

def usageCode : Nat := 2

def usage : String := "Usage: wirebuf-schema-gen [OPTIONS] <SCHEMA>\n"

def help : String :=
  "Generate wirebuf codecs from a schema file\n\n" ++ usage ++
  "\nArguments:\n" ++
  "  <SCHEMA>  Schema file to compile\n" ++
  "\nOptions:\n" ++
  "      --pkg <PKG>                Package name (default: schema file name up to the first '.')\n" ++
  "      --rust-out <RUST_OUT>      Directory for generated Rust\n" ++
  "      --js-out <JS_OUT>          Directory for generated JavaScript\n" ++
  "      --js-runtime <JS_RUNTIME>  Module required by generated JavaScript [default: " ++
    Settings.defaultScriptRuntime ++ "]\n" ++
  "      --runtime <RUNTIME>        Path to the wirebuf crate in generated Rust [default: " ++
    Settings.defaultRuntime ++ "]\n" ++
  "      --no-services              Skip rpc service traits\n" ++
  "      --dump-ast                 Print the parsed schema as JSON\n" ++
  "  -v, --verbose                  Log debug output\n" ++
  "  -h, --help                     Print help\n"

variable {m : Type → Type} [Monad m]

def writeModule (files : FileAccess m) (dir name text : String) : ExceptT Obstacle m Unit := do
  match ← files.createDirectories dir with
  | .error fault => throw ⟨"creating " ++ dir, some fault.message⟩
  | .ok () => pure ()
  let path := Path.join dir name
  match ← files.writeText path text with
  | .error fault => throw ⟨"writing " ++ path, some fault.message⟩
  | .ok () => pure ()

def compile (files : FileAccess m) (options : Options) (schema : String) :
    ExceptT Obstacle m Compilation := do
  match (options.value? .package).or (Path.packageName? schema) with
  | none => throw ⟨"cannot derive a package name from the schema path, pass --pkg", none⟩
  | some package =>
    match ← files.readText schema with
    | .error fault => throw ⟨"reading " ++ schema, some fault.message⟩
    | .ok source =>
      match Compilation.ofSource (options.settings package) source with
      | .error fault => throw ⟨"compiling " ++ schema, some fault.message⟩
      | .ok c => return c

def writeModules (files : FileAccess m) (options : Options) (c : Compilation) :
    ExceptT Obstacle m Unit := do
  match options.value? .nativeOut with
  | some dir => writeModule files dir c.nativeFile c.native
  | none => pure ()
  match options.value? .scriptOut with
  | some dir => writeModule files dir c.scriptFile c.script
  | none => pure ()

def shown (options : Options) (c : Compilation) : String :=
  if options.has .dumpDocument then c.document.toJson.pretty 0 ++ "\n" else ""

/-- Runs the command with its arguments. The document is shown before anything is written. -/
def run (files : FileAccess m) (arguments : List String) : m Outcome := do
  match Options.none.parse arguments with
  | some .help => return ⟨0, help, ""⟩
  | some (.compile options@⟨some schema, _, _⟩) =>
    match ← (compile files options schema).run with
    | .error obstacle => return ⟨failureCode, "", obstacle.report⟩
    | .ok c =>
      match ← (writeModules files options c).run with
      | .error obstacle => return ⟨failureCode, shown options c, obstacle.report⟩
      | .ok () => return ⟨0, shown options c, ""⟩
  | _ => return ⟨usageCode, "", usage⟩

end Command

end BinaryCodec.Project
