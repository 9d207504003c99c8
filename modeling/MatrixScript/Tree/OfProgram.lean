/-
# `Tree.OfProgram` — numbering a program

The tree of a program.  Operands come before their operator, so a node is
mostly younger than its children.  Two kinds of nodes are older than some of
theirs: a subscripted name, which is numbered before its arguments, and a
chain of operators, which is numbered right after its second operand.
-/
import MatrixScript.Program
import MatrixScript.Program.Parser
import MatrixScript.Tree

namespace MatrixScript

namespace Tree

/-- Grows a tree. -/
abbrev Build := StateM Tree

namespace Build

/-- Appends a node and answers its number. -/
def node (category : Category) (name : String) (children : List NodeId) : Build NodeId :=
  fun t => (t.size, t.push category name children)

/-- Appends a literal and answers its number. -/
def literal (category : Category) (value : String) : Build NodeId :=
  fun t => (t.size, t.pushLiteral category value)

/-- Appends nodes to the children of `parent`. -/
def adoptAll (parent : NodeId) (ids : List NodeId) : Build PUnit :=
  fun t => (⟨⟩, ids.foldl (fun t id => t.adopt parent id) t)

/-- Appends a node for every element of a list. -/
def each {α : Type} (one : α → Build NodeId) : List α → Build (List NodeId)
  | [] => return []
  | a :: as => do
      let id ← one a
      return id :: (← each one as)

mutual

/-- Appends the nodes of an expression. -/
def expr : Expr → Build NodeId
  | .name x => node .var x []
  | .call f arguments => do
      let id ← node .get f []
      adoptAll id (← exprs arguments)
      return id
  | .cellCall f arguments => do
      let id ← node .cget f []
      adoptAll id (← exprs arguments)
      return id
  | .literal kind text => literal kind.category text
  | .last => node .last "" []
  | .all => node .all "" []
  | .paren inner => do node .paren "" [← expr inner]
  | .matrix rows => do
      let elements ← rowsOf rows
      node .matrix "" (← each (node .row "") elements)
  | .cell elements => do node .cell "" (← exprs elements)
  | .sign op operand => do node op.category "" [← expr operand]
  | .transpose op operand => do node op.category "" [← expr operand]
  | .chain op first second more => do
      let a ← expr first
      let b ← expr second
      let id ← node op.category "" [a, b]
      operands id more
      return id
  | .compare op left right => do
      let a ← expr left
      node op.category "" [a, ← expr right]
  | .range start stop => do
      let a ← expr start
      node .range "" [a, ← expr stop]
  | .stepped start step stop => do
      let a ← expr start
      let b ← expr step
      node .range "" [a, b, ← expr stop]

/-- Appends the nodes of several expressions. -/
def exprs : List Expr → Build (List NodeId)
  | [] => return []
  | e :: es => do
      let id ← expr e
      return id :: (← exprs es)

/-- Appends the nodes of the rows of a literal, but not the rows themselves. -/
def rowsOf : List (List Expr) → Build (List (List NodeId))
  | [] => return []
  | row :: rows => do
      let ids ← exprs row
      return ids :: (← rowsOf rows)

/-- Appends further operands of the chain `parent`, one at a time. -/
def operands (parent : NodeId) : List Expr → Build PUnit
  | [] => return
  | e :: es => do
      let id ← expr e
      adoptAll parent [id]
      operands parent es

end

/-- Appends the nodes of a destination. -/
def target : Target → Build NodeId
  | .variable x => node .var x []
  | .element x arguments => do
      let id ← node .set x []
      adoptAll id (← exprs arguments)
      return id

/-- Appends the nodes of a statement. -/
def statement : Statement → Build NodeId
  | .expression e => do node .statement "" [← expr e]
  | .assign t value => do
      let destination ← target t
      node .assign "" [destination, ← expr value]
  | .assigns targets value => do
      let destinations ← each target targets
      node .assigns "" (destinations ++ [← expr value])
  | .ret => node .ret "" []
  | .brk => node .brk "" []
  | .command name words => do
      let call ← node .get name (← each (literal .str) words)
      node .statement "" [call]

/-- Appends a variable. -/
def named (x : String) : Build NodeId := node .var x []

/-- Appends the nodes of a function definition: its names and its body first,
then the nodes that gather them. -/
def function (f : Function) : Build NodeId := do
  let outputs ← each named f.outputs
  let params ← each named f.params
  let body ← each statement f.body
  let params ← node .params "" params
  let returns ← node .returns "" outputs
  let block ← node .block "" body
  node .function f.name [params, returns, block]

/-- Appends the nodes of what stands at the top level. -/
def item : Item → Build NodeId
  | .statement s => statement s
  | .function f => function f

/-- Appends the nodes of a program. -/
def program (p : Program) : Build NodeId := do node .block "" (← each item p)

end Build

/-- The tree of a program. -/
def ofProgram (p : Program) : Tree :=
  let (root, t) := (Build.program p).run empty
  t.withRoot root

/-- The tree of a source text. -/
def parse (source : String) : Except Error Tree :=
  match Program.parse source with
  | .ok p => .ok (ofProgram p)
  | .error e => .error e

end Tree

end MatrixScript
