import BinaryCodec.Binding.Compilation
import BinaryCodec.Project.Access

namespace BinaryCodec.Project

open Binding

/-- What a job is to do. What is not given is taken from the path of the definition or is as usual. -/
structure Job where
  schema : String
  outDir : Option String
  package : Option String
  runtime : Option String
  scriptRuntime : Option String
  services : Bool
  native : Bool
  script : Bool
  deriving DecidableEq, Repr, Inhabited

inductive JobFault where
  | io (path : String) (fault : IoFault)
  | definition (path : String) (fault : Definition.Fault)
  | missingOutDir
  deriving DecidableEq, Repr, Inhabited

def JobFault.message : JobFault → String
  | .io path fault => path ++ ": " ++ fault.message
  | .definition path fault => path ++ ":" ++ fault.message
  | .missingOutDir => "no output directory: set `out_dir` or run from a build script"

namespace Job

def defaultPackage : String := "schema"

def ofSchema (schema : String) : Job := ⟨schema, none, none, none, none, true, true, false⟩

def settings (job : Job) : Settings where
  package := (job.package.or (Path.packageName? job.schema)).getD defaultPackage
  runtime := job.runtime.getD Settings.defaultRuntime
  scriptRuntime := job.scriptRuntime.getD Settings.defaultScriptRuntime
  services := job.services

variable {m : Type → Type} [Monad m]

/-- Writes a module into a directory and answers with its path, which every fault names. -/
def writeModule (files : FileAccess m) (dir name text : String) : ExceptT JobFault m String := do
  let path := Path.join dir name
  let step (action : m (Except IoFault Unit)) : ExceptT JobFault m Unit := do
    match ← action with
    | .ok () => pure ()
    | .error fault => throw (.io path fault)
  step (files.createDirectories dir)
  step (files.writeText path text)
  return path

def writeIf (wanted : Bool) (files : FileAccess m) (dir name text : String) :
    ExceptT JobFault m (List String) := do
  if wanted then return [← writeModule files dir name text] else return []

/-- Runs a job and answers with the paths of the files written. -/
def run (files : FileAccess m) (job : Job) : ExceptT JobFault m (List String) := do
  match job.outDir with
  | none => throw .missingOutDir
  | some dir =>
    match ← files.readText job.schema with
    | .error fault => throw (.io job.schema fault)
    | .ok source =>
      match Compilation.ofSource job.settings source with
      | .error fault => throw (.definition job.schema fault)
      | .ok c =>
        let native ← writeIf job.native files dir c.nativeFile c.native
        let script ← writeIf job.script files dir c.scriptFile c.script
        return native ++ script

end Job

end BinaryCodec.Project
