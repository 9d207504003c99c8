/-
# `Rule.Assignment` — statements that stand alone or assign

A built-in name cannot be assigned to: that is an error of the statement.
A variable remembers the type of what it is assigned.  Several destinations
take their values from a call, which gets them as trailing arguments.
-/
import MatrixScript.Rule

namespace MatrixScript.Rule

/-- First reserved name among destinations. -/
def reservedDestination? (destinations : List Operand) : Option String :=
  (destinations.map (·.node.name)).find? Builtin.isReserved

/-- Fails if a destination has a reserved name. -/
def checkDestinations (destinations : List Operand) : Except Error PUnit :=
  match reservedDestination? destinations with
  | some name => .error (.reservedName name)
  | none => .ok ⟨⟩

/-- What a destination remembers of a value of type `d`: only a variable does. -/
def binding (destination : Operand) (d : Datatype) : List Effect :=
  if destination.node.category == .var then [.record destination.node.name d] else []

/-- An expression that stands alone. -/
def statement : Rule := fun s => s.keep (.format "%(0)s ;")

/-- One destination and its value. -/
def assign : Rule := fun s =>
  match s.operands with
  | destination :: value :: _ => do
      checkDestinations [destination]
      s.keep (.format "%(0)s = %(1)s ;") (binding destination value.datatype)
  | _ => .error .malformedTree

/-- Destinations of a multi-value assignment and the value behind them. -/
def splitLast? : List Operand → Option (List Operand × Operand)
  | [] => none
  | [value] => some ([], value)
  | o :: rest => (splitLast? rest).map fun (destinations, value) => (o :: destinations, value)

/-- The value is a call of a function of the script. -/
def isForeignCall (s : Site) (value : Node) : Bool :=
  (value.category == .get || value.category == .var)
    && !s.isVariable value.name && !Builtin.isReserved value.name

/-- Several destinations of a call that no built-in has a rule for. -/
def assigns : Rule := fun s =>
  match splitLast? s.operands with
  | none => .error .malformedTree
  | some (destinations, value) => do
      checkDestinations destinations
      let outputs := destinations.map (·.text)
      if isForeignCall s value.node then
        let arguments := value.node.children.map fun a => (s.tree.node a).text
        s.keep
          (.fixed (value.node.name ++ "(" ++ Text.joined ", " (arguments ++ outputs) ++ ") ;"))
      else
        s.keep (.fixed ("[" ++ Text.joined ", " outputs ++ "] = " ++ value.text ++ " ;"))
          [.report s.id .unsupportedConstruct
            "multi-value assignment from an expression that is not a function call"]

end MatrixScript.Rule
