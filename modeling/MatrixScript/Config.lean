/-
# `Config` — what a translation is told beforehand

The declared types of variables, the start of the names of temporaries, and
whether warnings count as errors.  No built-in name can be declared:
`declareType` refuses it, and `validate` finds one that came in otherwise.
-/
import MatrixScript.Builtin
import MatrixScript.Datatype
import MatrixScript.NameTable

namespace MatrixScript

/-- Configuration of a translation. -/
structure Config where
  /-- declared type of each variable -/
  declarations : NameTable Datatype := .empty
  /-- start of the names of temporaries -/
  tempStem : String := "_aux"
  /-- warnings count when the outcome is judged -/
  warningsAsErrors : Bool := false
deriving DecidableEq, Repr, Inhabited

namespace Config

/-- Declares the type of a variable. -/
def declareType (c : Config) (name : String) (d : Datatype) : Except Error Config :=
  if Builtin.isReserved name then .error (.reservedName name)
  else .ok { c with declarations := c.declarations.insert name d }

/-- Declares the type of a variable by the type's name; the name of the type is read first. -/
def declare (c : Config) (name typeName : String) : Except Error Config :=
  match Datatype.ofText typeName with
  | .ok d => c.declareType name d
  | .error e => .error e

/-- Declares one variable after the other, up to the first error. -/
def declareAll (c : Config) : List (String × String) → Except Error Config
  | [] => .ok c
  | (name, typeName) :: rest =>
      match c.declare name typeName with
      | .ok c => c.declareAll rest
      | .error e => .error e

/-- First declared name that is reserved. -/
def reservedDeclaration? (c : Config) : Option String :=
  c.declarations.names.find? Builtin.isReserved

/-- The configuration, if no declared name is reserved. -/
def validate (c : Config) : Except Error Config :=
  match c.reservedDeclaration? with
  | some name => .error (.reservedName name)
  | none => .ok c

end Config

end MatrixScript
