/-
# `Workspace` — a tree under translation

The tree and the translation state together, and the three steps that change
them at a node: `seed` gives the typing to start from, `perform` brings
about one effect of a rule, `commit` all that an outcome asks for.
-/
import MatrixScript.Rule

namespace MatrixScript

/-- A tree and what is remembered of its translation. -/
structure Workspace where
  tree : Tree
  state : State
deriving Repr

namespace Workspace

/-- Changes a node. -/
def modifyNode (w : Workspace) (id : NodeId) (f : Node → Node) : Workspace :=
  { w with tree := w.tree.modify id f }

/-- Typing that a node starts from: operators the join of their operands,
numeric if all of those are, and everything else the unknown one. -/
def seedTyping (tree : Tree) (n : Node) : Typing :=
  if n.category.isOperator then
    let operands := n.children.map tree.node
    let d := Datatype.joinAll (operands.map (·.datatype))
    ⟨d, d.isNumeric && operands.all (·.numeric)⟩
  else .unknown

/-- Gives a node the typing to start from. -/
def seed (w : Workspace) (id : NodeId) : Workspace :=
  w.modifyNode id fun n => { n with typing := seedTyping w.tree n }

/-- What the rule of a node sees, given the texts of its children. -/
def site (w : Workspace) (id : NodeId) (texts : List String) : Site :=
  { tree := w.tree
    state := w.state
    id
    operands := ((w.tree.children id).zip texts).map fun (c, text) => ⟨c, w.tree.node c, text⟩ }

/-! ## Effects -/

/-- Types a destination, which remembers the type if it is a variable. -/
def typeDestination (w : Workspace) (child : NodeId) (d : Datatype) : Workspace :=
  let w := w.modifyNode child fun n => { n with suggest := some d, typing := .of d }
  let n := w.tree.node child
  if n.category == .var then { w with state := w.state.record n.name d } else w

/-- Redirects the parent of a node. -/
def redirectParent (w : Workspace) (id : NodeId) (b : Builtin) : Workspace :=
  match w.tree.parent? id with
  | some p => w.modifyNode p fun n => { n with redirect := some b }
  | none => w

/-- Hoists a node, which from then on reads as its temporary. -/
def hoist (w : Workspace) (node : NodeId) (text : String) (d : Datatype) : Workspace :=
  let name := w.state.temporaryName node d
  { w with state := w.state.hoist node text d }.modifyNode node
    fun n => { n with rendered := some name }

/-- Brings about an effect of the rule of the node `id`. -/
def perform (id : NodeId) (w : Workspace) : Effect → Workspace
  | .report node problem message =>
      { w with state := w.state.report w.tree node problem message }
  | .use i => { w with state := w.state.addInclude i }
  | .record name d => { w with state := w.state.record name d }
  | .destination child d => w.typeDestination child d
  | .redirect b => w.redirectParent id b
  | .hoist node text d => w.hoist node text d
  | .tic => { w with state := { w.state with clock := w.state.clock.tic } }
  | .toc => { w with state := { w.state with clock := w.state.clock.toc } }

/-- Text of an outcome at a node. -/
def textOf (w : Workspace) (id : NodeId) (texts : List String) (o : Outcome) : String :=
  o.template.render { w.tree.node id with typing := o.typing } texts

/-- Brings about an outcome: the effects in order, then the typing and the text. -/
def commit (w : Workspace) (id : NodeId) (texts : List String) (o : Outcome) : Workspace :=
  let text := w.textOf id texts o
  (o.effects.foldl (perform id) w).modifyNode id
    fun n => { n with typing := o.typing, rendered := some text }

end Workspace

end MatrixScript
