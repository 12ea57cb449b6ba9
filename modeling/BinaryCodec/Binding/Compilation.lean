import BinaryCodec.Binding.NativeText
import BinaryCodec.Binding.ScriptText
import BinaryCodec.Definition.Resolution

namespace BinaryCodec.Binding

open Definition

structure Compilation where
  document : Document
  native : String
  script : String
  deriving DecidableEq, Repr, Inhabited

namespace Compilation

def ofSource (settings : Settings) (source : String) : Except Fault Compilation := do
  let doc ← Document.parse settings.package source
  return ⟨doc, (NativeModule.ofDocument settings doc).text,
    (ScriptModule.ofDocument settings doc).text⟩

def nativeFile (c : Compilation) : String := c.document.package ++ ".wb.rs"

def scriptFile (c : Compilation) : String := c.document.package ++ ".wb.js"

end Compilation

end BinaryCodec.Binding
