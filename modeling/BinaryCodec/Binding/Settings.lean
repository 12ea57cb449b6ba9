namespace BinaryCodec.Binding

structure Settings where
  package : String
  runtime : String
  scriptRuntime : String
  services : Bool
  deriving DecidableEq, Repr, Inhabited

namespace Settings

def defaultRuntime : String := "::wirebuf"

def defaultScriptRuntime : String := "wirebuf-js"

def ofPackage (package : String) : Settings :=
  ⟨package, defaultRuntime, defaultScriptRuntime, true⟩

end Settings

def banner (package : String) : String :=
  "// @generated by wirebuf-schema-gen from package `" ++ package ++ "`. Do not edit."

end BinaryCodec.Binding
