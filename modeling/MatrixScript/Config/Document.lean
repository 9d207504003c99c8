/-
# `Config.Document` — configurations as JSON

A configuration document is an object with the members `declarations`,
`temp_prefix` and `warnings_as_errors`, or an array of these in this order.
What is missing has its default, unknown members are passed over, a known
one may stand only once, and of two declarations of a variable the later one
counts.  A fault is reported where it is met, before the rest is looked at.
-/
import MatrixScript.Config
import MatrixScript.Json.Scanner

namespace MatrixScript.Config

open Json (Reader)
open Json.Reader

/-- Reads the name of a type. -/
def typeReader : Reader Datatype := do
  match Datatype.ofText (← wantString) with
  | .ok d => return d
  | .error e => fault (.unfit (some e.message))

/-- Reads declarations up to the end of their object. -/
def declarationsFrom : Nat → Bool → NameTable Datatype → Reader (NameTable Datatype)
  | 0, _, _ => fault .truncated
  | n + 1, first, table => do
      if ← nextMember first then
        let name ← string
        colon
        let d ← typeReader
        declarationsFrom n false (table.insert name d)
      else
        closing '\x7d'
        return table

/-- Reads an object of declarations. -/
def declarationsReader : Reader (NameTable Datatype) := do
  match ← ahead? with
  | some '\x7b' =>
      pass 1
      declarationsFrom ((← get).length + 1) true .empty
  | _ => wrongKind

/-- The members of a document that have been read. -/
structure Draft where
  declarations : Option (NameTable Datatype) := none
  tempStem : Option String := none
  warningsAsErrors : Option Bool := none

/-- The configuration of what has been read, with defaults elsewhere. -/
def Draft.config (d : Draft) : Config :=
  let usual : Config := {}
  { declarations := d.declarations.getD usual.declarations
    tempStem := d.tempStem.getD usual.tempStem
    warningsAsErrors := d.warningsAsErrors.getD usual.warningsAsErrors }

/-- Stops if a member has been read before. -/
def once {α : Type} (read : Option α) : Reader PUnit :=
  if read.isSome then fault (.unfit none) else pure ⟨⟩

/-- Reads the member of a name whose colon is ahead. -/
def memberReader (name : String) (d : Draft) : Reader Draft := do
  if name = "declarations" then
    once d.declarations
    colon
    return { d with declarations := some (← declarationsReader) }
  else if name = "temp_prefix" then
    once d.tempStem
    colon
    return { d with tempStem := some (← wantString) }
  else if name = "warnings_as_errors" then
    once d.warningsAsErrors
    colon
    return { d with warningsAsErrors := some (← wantBool) }
  else
    colon
    skipValue
    return d

/-- Reads members up to the end of the document's object. -/
def membersFrom : Nat → Bool → Draft → Reader Draft
  | 0, _, _ => fault .truncated
  | n + 1, first, d => do
      if ← nextMember first then
        let name ← string
        membersFrom n false (← memberReader name d)
      else
        closing '\x7d'
        return d

/-- Reads the elements of the document's array. -/
def elementsReader : Reader Draft := do
  let mut d : Draft := {}
  if ← nextElement true then
    d := { d with declarations := some (← declarationsReader) }
    if ← nextElement false then
      d := { d with tempStem := some (← wantString) }
      if ← nextElement false then
        d := { d with warningsAsErrors := some (← wantBool) }
  closing ']'
  return d

/-- Reads a configuration document. -/
def documentReader : Reader Draft := do
  match ← ahead? with
  | some '\x7b' =>
      pass 1
      membersFrom ((← get).length + 1) true {}
  | some '[' =>
      pass 1
      elementsReader
  | _ => wrongKind

/-- The configuration of a document, whether its declarations are valid or not. -/
def ofDocument (text : String) : Except DocumentFault Config :=
  match (do
      let d ← documentReader
      finish
      return d.config : Reader Config) text.toList with
  | .ok (config, _) => .ok config
  | .error f => .error f

/-- The valid configuration of a document. -/
def ofJson (text : String) : Except Error Config :=
  match ofDocument text with
  | .ok config => config.validate
  | .error f => .error (.config f)

end MatrixScript.Config
