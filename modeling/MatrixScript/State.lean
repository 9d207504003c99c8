/-
# `State` — what a translation remembers

The state holds the types of variables (declared ones first, then those
inferred in the innermost scope), the diagnostics, the helpers in use, the
suggested declarations, the wall clock, and the temporaries: which node was
hoisted under which name, and the definitions that still have to be placed
in front of the current statement.
-/
import MatrixScript.Config
import MatrixScript.Diagnostic
import MatrixScript.Include

namespace MatrixScript

/-- The wall clock that emitted code may read. -/
structure WallClock where
  started : Bool := false
  used : Bool := false
deriving DecidableEq, Repr, Inhabited

namespace WallClock

/-- Starts the clock. -/
def tic (_ : WallClock) : WallClock := ⟨true, true⟩

/-- Reads the clock. -/
def toc (c : WallClock) : WallClock := { c with used := true }

end WallClock

/-- A hoisted node: its temporary and the statement that defines it. -/
structure Temporary where
  node : NodeId
  name : String
  definition : String
deriving DecidableEq, Repr

/-- What a translation remembers. -/
structure State where
  config : Config := {}
  diagnostics : List Diagnostic := []
  /-- helpers in use, in any order -/
  includes : List Include := []
  /-- suggested type of each variable and temporary -/
  suggestions : NameTable Datatype := .empty
  clock : WallClock := {}
  /-- inferred types in the innermost scope -/
  scope : NameTable Datatype := .empty
  /-- inferred types in the scopes around it, innermost first -/
  outer : List (NameTable Datatype) := []
  temporaries : List Temporary := []
  /-- definitions to place in front of the current statement -/
  pending : List String := []
  /-- temporaries made so far, by type name -/
  counters : NameTable Nat := .empty
deriving DecidableEq, Repr, Inhabited

namespace State

/-- The state before anything is translated. -/
def ofConfig (config : Config) : State := { config }

/-! ## Types of variables -/

/-- Type of a variable: the declared one, else the one inferred in the innermost scope. -/
def lookup (s : State) (name : String) : Option Datatype :=
  match s.config.declarations.get? name with
  | some d => some d
  | none => s.scope.get? name

/-- The variable has a declared type. -/
def isDeclared (s : State) (name : String) : Bool := s.config.declarations.contains name

/-- The type of a variable after it is assigned a value of type `d`. -/
def merged (s : State) (name : String) (d : Datatype) : Datatype :=
  match s.scope.get? name with
  | some previous => if previous = d then d else previous.join d
  | none => d

/-- Remembers that a variable is assigned a value of a type; unknown types and
declared variables leave no trace. -/
def record (s : State) (name : String) (d : Datatype) : State :=
  if !d.isKnown || s.isDeclared name then s
  else
    { s with
      scope := s.scope.insert name (s.merged name d)
      suggestions := s.suggestions.insert name (s.merged name d) }

/-- Opens a scope. -/
def pushScope (s : State) : State := { s with scope := .empty, outer := s.scope :: s.outer }

/-- Closes the innermost scope; the outermost one stays open. -/
def popScope (s : State) : State :=
  match s.outer with
  | [] => s
  | scope :: outer => { s with scope, outer }

theorem popScope_pushScope (s : State) : s.pushScope.popScope = s := rfl

/-! ## Temporaries -/

/-- The state with other pending definitions. -/
def withPending (s : State) (pending : List String) : State := { s with pending }

/-- The temporary that stands for a node. -/
def temporary? (s : State) (node : NodeId) : Option Temporary :=
  s.temporaries.find? (·.node == node)

/-- Number of the next temporary of a type. -/
def nextNumber (s : State) (d : Datatype) : Nat := (s.counters.get? d.typeName).getD 0 + 1

/-- Name of the next temporary of a type. -/
def nextName (s : State) (d : Datatype) : String :=
  s.config.tempStem ++ "_" ++ d.typeName ++ "_" ++ toString (s.nextNumber d)

/-- Name under which a node of a type is hoisted: that of its temporary if it
has one, else a new one. -/
def temporaryName (s : State) (node : NodeId) (d : Datatype) : String :=
  match s.temporary? node with
  | some t => t.name
  | none => s.nextName d

/-- Definition of a temporary. -/
def definition (name text : String) (d : Datatype) : String :=
  d.typeName ++ " " ++ name ++ " = " ++ text ++ " ;"

/-- Hoists a node into its temporary: the definition becomes pending unless it
is, and a new temporary is suggested for declaration. -/
def hoist (s : State) (node : NodeId) (text : String) (d : Datatype) : State :=
  match s.temporary? node with
  | some t =>
      if t.definition ∈ s.pending then s else { s with pending := s.pending ++ [t.definition] }
  | none =>
      let name := s.nextName d
      let line := definition name text d
      { s with
        pending := s.pending ++ [line]
        suggestions := s.suggestions.insert name d
        temporaries := s.temporaries ++ [⟨node, name, line⟩]
        counters := s.counters.insert d.typeName (s.nextNumber d) }

/-! ## Other effects -/

/-- Reports a problem at a node. -/
def report (s : State) (tree : Tree) (id : NodeId) (problem : Problem) (message : String) :
    State :=
  { s with diagnostics := Diagnostic.report s.diagnostics (.ofNode tree id problem message) }

/-- Takes a helper into use. -/
def addInclude (s : State) (i : Include) : State :=
  { s with includes := if i ∈ s.includes then s.includes else s.includes ++ [i] }

end State

end MatrixScript
