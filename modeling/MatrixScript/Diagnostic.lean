/-
# `Diagnostic` — problems that translation goes on with

A diagnostic is attached to the node that it is about.  Its kind decides
whether it is an error or a warning.  A list of diagnostics holds none
twice: `report` adds one at the end unless it is there.
-/
import MatrixScript.Tree

namespace MatrixScript

/-- How bad a problem is. -/
inductive Severity where
  | error
  | warning
deriving DecidableEq, Repr

/-- Name of a severity. -/
def Severity.text : Severity → String
  | .error => "error"
  | .warning => "warning"

/-- Kinds of problems. -/
inductive Problem where
  /-- operands of a multiplicative operator do not conform -/
  | shapeMismatch
  /-- arithmetic or a comparison on text -/
  | nonNumericOperand
  /-- no rule for the arguments -/
  | unsupportedConstruct
  /-- a built-in name used as a variable -/
  | reservedNameConflict
  /-- a reduction over a matrix without a literal axis -/
  | ambiguousAxis
  /-- legal, and probably not what was meant -/
  | likelyMisuse
deriving DecidableEq, Repr

namespace Problem

/-- Severity of a kind. -/
def severity : Problem → Severity
  | .ambiguousAxis | .likelyMisuse => .warning
  | _ => .error

/-- Name of a kind in messages. -/
def text : Problem → String
  | .shapeMismatch => "shape mismatch"
  | .nonNumericOperand => "non-numeric operand"
  | .unsupportedConstruct => "unsupported construct"
  | .reservedNameConflict => "reserved name"
  | .ambiguousAxis => "ambiguous axis"
  | .likelyMisuse => "likely misuse"

/-- Name of a kind in documents. -/
def code : Problem → String
  | .shapeMismatch => "shape-mismatch"
  | .nonNumericOperand => "non-numeric-operand"
  | .unsupportedConstruct => "unsupported-construct"
  | .reservedNameConflict => "reserved-name-conflict"
  | .ambiguousAxis => "ambiguous-axis"
  | .likelyMisuse => "likely-misuse"

end Problem

/-- Kind under which an error is reported at a node. -/
def Error.problem : Error → Problem
  | .reservedName _ => .reservedNameConflict
  | _ => .unsupportedConstruct

/-- A problem at a node. -/
structure Diagnostic where
  problem : Problem
  node : NodeId
  category : Category
  /-- what messages call the node -/
  label : String
  message : String
deriving DecidableEq, Repr

namespace Diagnostic

/-- Severity of the problem. -/
def severity (d : Diagnostic) : Severity := d.problem.severity

/-- The diagnostic as one line. -/
def text (d : Diagnostic) : String :=
  d.severity.text ++ " [" ++ d.problem.text ++ "] in " ++ d.category.name ++ " '" ++ d.label
    ++ "': " ++ d.message

/-- The diagnostic of a problem at a node of a tree. -/
def ofNode (tree : Tree) (id : NodeId) (problem : Problem) (message : String) : Diagnostic :=
  { problem, node := id, category := (tree.node id).category, label := (tree.node id).label,
    message }

/-- Diagnostics with one more, unless it is there. -/
def report (ds : List Diagnostic) (d : Diagnostic) : List Diagnostic :=
  if d ∈ ds then ds else ds ++ [d]

theorem mem_report {ds : List Diagnostic} {d e : Diagnostic} :
    e ∈ report ds d ↔ e ∈ ds ∨ e = d := by
  unfold report
  split
  · next h => exact ⟨.inl, fun h' => h'.elim id fun h'' => h'' ▸ h⟩
  · simp

/-- Diagnostics of a severity, in order. -/
def ofSeverity (s : Severity) (ds : List Diagnostic) : List Diagnostic :=
  ds.filter (·.severity == s)

end Diagnostic

end MatrixScript
