import BinaryCodec.Binding.Settings

namespace BinaryCodec.Project

inductive ValueOption where
  | package
  | nativeOut
  | scriptOut
  | scriptRuntime
  | runtime
  deriving DecidableEq, Repr, Inhabited

namespace ValueOption

def all : List ValueOption := [.package, .nativeOut, .scriptOut, .scriptRuntime, .runtime]

def name : ValueOption → String
  | .package => "--pkg"
  | .nativeOut => "--rust-out"
  | .scriptOut => "--js-out"
  | .scriptRuntime => "--js-runtime"
  | .runtime => "--runtime"

def isPath : ValueOption → Bool
  | .nativeOut | .scriptOut => true
  | _ => false

def accepts (option : ValueOption) (value : String) : Bool := !(option.isPath && value.isEmpty)

end ValueOption

inductive Switch where
  | noServices
  | dumpDocument
  | verbose
  deriving DecidableEq, Repr, Inhabited

def Switch.ofArgument? (argument : String) : Option Switch :=
  if argument = "--no-services" then some .noServices
  else if argument = "--dump-ast" then some .dumpDocument
  else if argument = "--verbose" then some .verbose
  else none

structure Options where
  schema : Option String
  values : List (ValueOption × String)
  switches : List Switch
  deriving DecidableEq, Repr, Inhabited

inductive Request where
  | compile (options : Options)
  | help
  deriving DecidableEq, Repr, Inhabited

namespace Options

def none : Options := ⟨.none, [], []⟩

def addSchema (options : Options) (path : String) : Option Options :=
  if options.schema.isSome || path.isEmpty then .none else some { options with schema := some path }

def addValue (options : Options) (option : ValueOption) (value : String) : Option Options :=
  if (options.values.lookup option).isSome || !option.accepts value then .none
  else some { options with values := (option, value) :: options.values }

def addSwitch (options : Options) (switch : Switch) : Option Options :=
  if switch ∈ options.switches then .none
  else some { options with switches := switch :: options.switches }

def isOption (argument : String) : Bool :=
  match argument.toList with
  | '-' :: _ :: _ => true
  | _ => false

def splitValue (argument : String) : String × Option String :=
  let name := argument.toList.takeWhile (· ≠ '=')
  match argument.toList.drop name.length with
  | [] => (argument, .none)
  | _ :: value => (String.ofList name, some (String.ofList value))

def letters? (argument : String) : Option (List Char) :=
  match argument.toList with
  | '-' :: '-' :: _ => .none
  | '-' :: letters => some letters
  | _ => .none

def addLetters (options : Options) : (letters : List Char) → Option Request
  | [] => some (.compile options)
  | 'v' :: rest => do addLetters (← options.addSwitch .verbose) rest
  | 'h' :: _ => some .help
  | _ => .none

/-- Reads arguments up to a call for help; nothing if they are used wrongly. -/
def parse (options : Options) : (arguments : List String) → Option Request
  | [] => some (.compile options)
  | argument :: rest =>
    if argument = "--" then Request.compile <$> rest.foldlM addSchema options
    else if !isOption argument then do parse (← options.addSchema argument) rest
    else if let some letters := letters? argument then
      match options.addLetters letters with
      | some (.compile options) => parse options rest
      | answer => answer
    else if argument = "--help" then some .help
    else match Switch.ofArgument? argument with
      | some switch => do parse (← options.addSwitch switch) rest
      | .none =>
        let (name, joined) := splitValue argument
        match ValueOption.all.find? fun option => option.name = name, joined, rest with
        | .none, _, _ => .none
        | some option, some value, rest => do parse (← options.addValue option value) rest
        | some _, .none, [] => .none
        | some option, .none, value :: rest =>
          if isOption value then .none else do parse (← options.addValue option value) rest

def value? (options : Options) (option : ValueOption) : Option String :=
  options.values.lookup option

def has (options : Options) (switch : Switch) : Bool := options.switches.contains switch

/-- The settings of the modules, under a given package. -/
def settings (options : Options) (package : String) : Binding.Settings where
  package := package
  runtime := (options.value? .runtime).getD Binding.Settings.defaultRuntime
  scriptRuntime := (options.value? .scriptRuntime).getD Binding.Settings.defaultScriptRuntime
  services := !options.has .noServices

end Options

end BinaryCodec.Project
