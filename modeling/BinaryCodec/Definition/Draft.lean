import BinaryCodec.Definition.Document
import BinaryCodec.Definition.Fault

namespace BinaryCodec.Definition

structure Name where
  text : String
  place : Position
  deriving DecidableEq, Repr, Inhabited

def Name.fault (name : Name) (cause : Cause) : Fault := ⟨name.place, cause⟩

def isNameChar (c : Char) : Bool := c.isAlphanum || c = '_'

def isName (text : String) : Bool := !text.isEmpty && text.toList.all isNameChar

def Name.check (name : Name) : Except Fault Unit :=
  if isName name.text then .ok () else .error (name.fault (.invalidName name.text))

structure DraftField where
  name : String
  isArray : Bool
  type : Name
  deriving DecidableEq, Repr, Inhabited

structure DraftMessage where
  name : Name
  fields : List DraftField
  deriving DecidableEq, Repr, Inhabited

structure Draft where
  pragmas : List String
  messages : List DraftMessage
  enumerations : List Enumeration
  services : List Service
  procedureTypes : List Name
  deriving DecidableEq, Repr, Inhabited

namespace Draft

def empty : Draft := ⟨[], [], [], [], []⟩

def typeNames (draft : Draft) : List String :=
  draft.messages.map (·.name.text) ++ draft.enumerations.map (·.name)

def serviceNames (draft : Draft) : List String := draft.services.map (·.name)

end Draft

def voidName : String := "void"

def nonVoid (name : String) : Option String := if name = voidName then none else some name

/-- The fault of a token that is not what it should have been, or of a text that ends. -/
def unexpected (final : Position) (expected : Expected) : List Token → Fault
  | [] => ⟨final, .unexpectedEnd expected⟩
  | token :: _ => ⟨token.place, .unexpectedToken expected token.kind.text⟩

def parseName (final : Position) (expected : Expected) : List Token → Except Fault (Name × List Token)
  | ⟨.word text, place⟩ :: rest => .ok (⟨text, place⟩, rest)
  | tokens => .error (unexpected final expected tokens)

def parseTypeName (final : Position) (draft : Draft) (tokens : List Token) :
    Except Fault (Name × List Token) := do
  let (name, rest) ← parseName final .typeName tokens
  name.check
  if (Builtin.ofName? name.text).isSome ∨ name.text = voidName then
    throw (name.fault (.reservedName name.text))
  if name.text ∈ draft.typeNames then throw (name.fault (.duplicateType name.text))
  return (name, rest)

def parseOpen (final : Position) : List Token → Except Fault (List Token)
  | ⟨.openBrace, _⟩ :: rest => .ok rest
  | tokens => .error (unexpected final .openBrace tokens)

/-- Reads the values of an enumeration through the closing brace. `seen` are the names before, whose
number is that of the next value. -/
def parseValues (final : Position) : (seen : List String) → List Token →
    Except Fault (List EnumerationValue × List Token)
  | _, ⟨.closeBrace, _⟩ :: rest => .ok ([], rest)
  | seen, ⟨.word text, place⟩ :: rest => do
    let name : Name := ⟨text, place⟩
    name.check
    if text ∈ seen then throw (name.fault (.duplicateField text))
    let (values, rest) ← parseValues final (seen ++ [text]) rest
    return (⟨text, seen.length⟩ :: values, rest)
  | _, tokens => .error (unexpected final .valueOrClose tokens)

/-- The name of a field without the brackets that mark an array, and whether they are there. -/
def splitArray (text : String) : String × Bool :=
  match text.toList.reverse with
  | ']' :: '[' :: rest => (String.ofList rest.reverse, true)
  | _ => (text, false)

/-- Reads the fields of a message through the closing brace. `seen` are the names before. -/
def parseFields (final : Position) : (seen : List String) → List Token →
    Except Fault (List DraftField × List Token)
  | _, ⟨.closeBrace, _⟩ :: rest => .ok ([], rest)
  | seen, ⟨.word text, place⟩ :: rest => do
    let type : Name := ⟨text, place⟩
    type.check
    match rest with
    | ⟨.word written, place⟩ :: rest =>
      let (text, isArray) := splitArray written
      let name : Name := ⟨text, place⟩
      name.check
      if text ∈ seen then throw (name.fault (.duplicateField text))
      let (fields, rest) ← parseFields final (seen ++ [text]) rest
      return (⟨text, isArray, type⟩ :: fields, rest)
    | tokens => throw (unexpected final .fieldName tokens)
  | _, tokens => .error (unexpected final .fieldOrClose tokens)

def splitSignature (signature : Name) : Except Fault (String × String) :=
  let chars := signature.text.toList
  let name := chars.takeWhile (· ≠ '(')
  let malformed := signature.fault (.malformedProcedure signature.text)
  match chars.drop name.length with
  | [] => .error malformed
  | _ :: rest =>
    match rest.reverse with
    | ')' :: request =>
      let name := String.ofList name
      let request := String.ofList request.reverse
      if isName name && (request.isEmpty || isName request) then
        .ok (name, if request.isEmpty then voidName else request)
      else .error malformed
    | _ => .error malformed

structure DraftProcedure where
  procedure : Procedure
  types : List Name
  deriving DecidableEq, Repr, Inhabited

def DraftProcedure.of (signature : Name) (name request : String) (response : Name) :
    DraftProcedure :=
  let request := nonVoid request
  let answer := nonVoid response.text
  { procedure := ⟨name, request, answer⟩
    types := (request.map fun text => ⟨text, signature.place⟩).toList ++
      (answer.map fun _ => response).toList }

/-- Reads the procedures of a service through the closing brace. `seen` are the names before. -/
def parseProcedures (final : Position) :
    (seen : List String) → List Token → Except Fault (List DraftProcedure × List Token)
  | _, ⟨.closeBrace, _⟩ :: rest => .ok ([], rest)
  | seen, ⟨.word text, place⟩ :: rest => do
    let signature : Name := ⟨text, place⟩
    let (name, request) ← splitSignature signature
    if name ∈ seen then throw (signature.fault (.duplicateProcedure name))
    match rest with
    | ⟨.arrow, _⟩ :: ⟨.word text, place⟩ :: rest =>
      let response : Name := ⟨text, place⟩
      response.check
      let (procedures, rest) ← parseProcedures final (seen ++ [name]) rest
      return (.of signature name request response :: procedures, rest)
    | ⟨.arrow, _⟩ :: tokens => throw (unexpected final .responseType tokens)
    | tokens => throw (unexpected final .arrow tokens)
  | _, tokens => .error (unexpected final .procedureOrClose tokens)

namespace Draft

def parsePragma (final : Position) (draft : Draft) (tokens : List Token) :
    Except Fault (Draft × List Token) := do
  let (name, rest) ← parseName final .pragmaName tokens
  return ({ draft with pragmas := draft.pragmas ++ [name.text] }, rest)

def parseEnumeration (final : Position) (draft : Draft) (tokens : List Token) :
    Except Fault (Draft × List Token) := do
  let (name, rest) ← parseTypeName final draft tokens
  let (values, rest) ← parseValues final [] (← parseOpen final rest)
  if values.isEmpty then throw (name.fault (.emptyEnumeration name.text))
  return ({ draft with enumerations := draft.enumerations ++ [⟨name.text, values⟩] }, rest)

def parseMessage (final : Position) (draft : Draft) (tokens : List Token) :
    Except Fault (Draft × List Token) := do
  let (name, rest) ← parseTypeName final draft tokens
  let (fields, rest) ← parseFields final [] (← parseOpen final rest)
  return ({ draft with messages := draft.messages ++ [⟨name, fields⟩] }, rest)

def parseService (final : Position) (draft : Draft) (tokens : List Token) :
    Except Fault (Draft × List Token) := do
  let (name, rest) ← parseName final .serviceName tokens
  name.check
  if name.text ∈ draft.serviceNames then throw (name.fault (.duplicateType name.text))
  let (procedures, rest) ← parseProcedures final [] (← parseOpen final rest)
  let service : Service := ⟨name.text, procedures.map DraftProcedure.procedure⟩
  return ({ draft with
    services := draft.services ++ [service]
    procedureTypes := draft.procedureTypes ++ procedures.flatMap DraftProcedure.types }, rest)

def parseDeclaration (final : Position) (draft : Draft) : List Token → Except Fault (Draft × List Token)
  | ⟨.useKeyword, _⟩ :: rest => draft.parsePragma final rest
  | ⟨.enumKeyword, _⟩ :: rest => draft.parseEnumeration final rest
  | ⟨.structKeyword, _⟩ :: rest => draft.parseMessage final rest
  | ⟨.rpcKeyword, _⟩ :: rest => draft.parseService final rest
  | tokens => .error (unexpected final .declaration tokens)

def parseAll (final : Position) : (fuel : Nat) → Draft → List Token → Except Fault Draft
  | _, draft, [] => .ok draft
  | 0, draft, _ => .ok draft
  | fuel + 1, draft, tokens => do
    let (draft, rest) ← draft.parseDeclaration final tokens
    parseAll final fuel draft rest

end Draft

def finalPosition (tokens : List Token) : Position :=
  match tokens.getLast? with
  | some token => ⟨token.place.line, token.place.column + token.kind.text.length⟩
  | none => .start

def Draft.ofTokens (tokens : List Token) : Except Fault Draft :=
  parseAll (finalPosition tokens) tokens.length .empty tokens

end BinaryCodec.Definition
