/-
# `Rule.Definition` — function definitions and ways out of them

A function with one output returns it.  With none or several, the outputs
are trailing reference parameters of a `void` function.
-/
import MatrixScript.Rule

namespace MatrixScript.Rule

/-- Type in which a name is declared. -/
def declaredType (s : Site) (name : String) : String :=
  ((s.lookup name).getD .unknown).typeName

/-- Names of the children of a node. -/
def namesOf (s : Site) (o : Operand) : List String :=
  o.node.children.map fun c => (s.tree.node c).name

/-- A parameter. -/
def parameter (s : Site) (name : String) : String := declaredType s name ++ " " ++ name

/-- A reference parameter. -/
def reference (s : Site) (name : String) : String := declaredType s name ++ "& " ++ name

/-- Lines of a body whose value is returned at its end. -/
def returning (output : String) (body : List String) : List String :=
  if body.getLast?.any (·.startsWith "return") then body
  else body ++ ["return " ++ output ++ " ;"]

/-- A definition from its first line and the lines of its body. -/
def definition (head : String) (body : List String) : String :=
  Text.joined "\n" (head :: "\x7b" :: body ++ ["\x7d"])

/-- A function definition. -/
def function : Rule := fun s =>
  match s.operands with
  | params :: returns :: block :: _ =>
      let arguments := (namesOf s params).map (parameter s)
      let body := Text.lines block.text
      match namesOf s returns with
      | [output] =>
          s.keep (.fixed (definition
            (declaredType s output ++ " " ++ s.name ++ "(" ++ Text.joined ", " arguments ++ ")")
            (returning output body)))
      | outputs =>
          s.keep (.fixed (definition
            ("void " ++ s.name ++ "("
              ++ Text.joined ", " (arguments ++ outputs.map (reference s)) ++ ")")
            body))
  | _ => .error .malformedTree

/-- Parameters or outputs of a function. -/
def names : Rule := fun s => s.keep (.join "" ", " "")

/-- Names of the outputs of the function around the node. -/
def outputsAround? (s : Site) : Option (List String) :=
  match s.tree.enclosingFunction? s.id with
  | none => none
  | some f =>
      match s.tree.child? f 1 with
      | none => none
      | some returns => some ((s.tree.children returns).map fun c => (s.tree.node c).name)

/-- Leaves a function, with its output if there is one only. -/
def ret : Rule := fun s =>
  match outputsAround? s with
  | some [output] => s.keep (.fixed ("return " ++ output ++ " ;"))
  | _ => s.keep (.fixed "return ;")

/-- Leaves a loop. -/
def brk : Rule := fun s => s.keep (.fixed "break ;")

end MatrixScript.Rule
