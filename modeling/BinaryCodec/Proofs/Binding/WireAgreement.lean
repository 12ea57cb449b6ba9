import BinaryCodec.Proofs.Binding.NativeMethods
import BinaryCodec.Proofs.Binding.ScriptScope

namespace BinaryCodec.Binding

open Definition

section scopes

def apart (identifiers : List String) : Bool := decide identifiers.Nodup && !identifiers.contains "_"

/-- Whether Rust admits the names of a module: those that it declares, and those of every declaration. -/
def NativeModule.admits (m : NativeModule) : Bool :=
  apart m.declared && m.enumerations.all (fun e => apart (e.cases.map NativeCase.name)) &&
    m.records.all (fun record => apart (record.fields.map NativeField.name)) &&
    m.traits.all fun t => apart (t.methods.map NativeMethod.name)

/-- The fields that each method puts on the wire, of a module whose names are admitted. -/
def NativeModule.encoders (m : NativeModule) : List (String × Option (List (String × WireOp WireKind Unit))) :=
  (NativeWire.kinds (NativeWire.encoders m.pieces)).map fun (type, fields) =>
    (type, if m.admits then fields else none)

/-- The fields that each method takes from the wire, of a module whose names are admitted. -/
def NativeModule.decoders (m : NativeModule) :
    List (String × Option (List (String × WireOp WireKind String))) :=
  (NativeWire.kinds (NativeWire.decoders m.pieces)).map fun (type, fields) =>
    (type, if m.admits then fields else none)

end scopes

variable {settings : Settings} {source : String} {c : Compilation}

section native

variable {doc : Document} (settings : Settings) (wellFormed : doc.WellFormed)
include wellFormed

theorem NativeModule.encoders_ofDocument : (NativeModule.ofDocument settings doc).encoders =
    doc.messages.map fun m => (typeIdentifier m.name, if (NativeModule.ofDocument settings doc).admits then
      some (spelled fieldIdentifier (fun _ => ()) (wire m)) else none) := by
  rw [NativeModule.encoders, NativeWire.encoders_ofDocument settings wellFormed,
    NativeWire.kinds_map _ NativeWire.ofMethod_writeMethod, List.map_map]
  rfl

theorem NativeModule.decoders_ofDocument : (NativeModule.ofDocument settings doc).decoders =
    doc.messages.map fun m => (typeIdentifier m.name, if (NativeModule.ofDocument settings doc).admits then
      some (spelled fieldIdentifier typeIdentifier (wire m)) else none) := by
  rw [NativeModule.decoders, NativeWire.decoders_ofDocument settings wellFormed,
    NativeWire.kinds_map _ NativeWire.ofMethod_readMethod, List.map_map]
  rfl

end native

def shadowedSource : String := "struct input\x7bbool b\x7d struct M\x7binput a\x7d"

def shadowedDocument : Document where
  package := "app"
  pragmas := []
  messages := [⟨"input", [⟨"b", .builtin .bool, false, ⟨1, 14⟩⟩], ⟨1, 8⟩⟩,
    ⟨"M", [⟨"a", .message "input", false, ⟨1, 31⟩⟩], ⟨1, 29⟩⟩]
  enumerations := []
  services := []

end BinaryCodec.Binding
