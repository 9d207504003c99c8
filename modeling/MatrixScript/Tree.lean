/-
# `Tree` — the nodes of one program

A program tree is an array of nodes.  A node knows its children and its
parent by their numbers, which are given in order of creation.  Beside the
program text a node has slots that translation fills in: its typing, a hint
for its declaration, a rule to use instead of the usual one, and the text
that its rule gave.  Reading outside of the array gives the blank node.
-/
import MatrixScript.Builtin
import MatrixScript.Category
import MatrixScript.Datatype
import MatrixScript.Text.Digits

namespace MatrixScript

/-- Number of a node in its tree. -/
abbrev NodeId := Nat

/-- What is inferred about the value of a node: its type, and whether it can
be counted on as a number. -/
structure Typing where
  datatype : Datatype
  numeric : Bool
deriving DecidableEq, Repr

namespace Typing

/-- Nothing is known. -/
def unknown : Typing := ⟨.unknown, false⟩

/-- The typing of a value of type `d`: numeric exactly if the type is. -/
def of (d : Datatype) : Typing := ⟨d, d.isNumeric⟩

end Typing

/-- One element of a program with its slots. -/
structure Node where
  category : Category
  /-- identifier of variables, calls and functions -/
  name : String := ""
  /-- text of literals -/
  value : Option String := none
  children : List NodeId := []
  parent : Option NodeId := none
  typing : Typing := .unknown
  /-- hint for the declaration of a destination -/
  suggest : Option Datatype := none
  /-- built-in whose rule is used instead of the one that the name selects -/
  redirect : Option Builtin := none
  /-- text that the node's rule gave -/
  rendered : Option String := none
deriving DecidableEq, Repr, Inhabited

namespace Node

/-- Inferred type. -/
def datatype (n : Node) : Datatype := n.typing.datatype

/-- Inferred shape. -/
def shape (n : Node) : Shape := n.typing.datatype.shape

/-- Inferred storage class. -/
def cls (n : Node) : StorageClass := n.typing.datatype.cls

/-- The value counts as a number. -/
def numeric (n : Node) : Bool := n.typing.numeric

/-- What messages call the node: its name, or its category if it has none. -/
def label (n : Node) : String := if n.name = "" then n.category.name else n.name

/-- Text of the node, or what stands for it before its rule has run. -/
def text (n : Node) : String := n.rendered.getD n.label

/-! ## Integer literals -/

/-- Integer of a digit string with or without a sign, if it fits into 64 bits. -/
def integer? (cs : List Char) : Option Int :=
  let value : Option Int :=
    match cs with
    | '-' :: ds => (Text.natural? ds).map fun n => -(n : Int)
    | '+' :: ds => (Text.natural? ds).map fun n => (n : Int)
    | ds => (Text.natural? ds).map fun n => (n : Int)
  value.filter fun v => decide (-(Int.pow 2 63) ≤ v ∧ v < Int.pow 2 63)

/-- Value of an integer literal, for folding constants. -/
def intValue? (n : Node) : Option Int :=
  match n.category, n.value with
  | .int, some text => integer? text.toList
  | _, _ => none

/-- The integer before another one, in 64 bits: before the least comes the greatest. -/
def predecessor (v : Int) : Int := (v - 1).bmod (Nat.pow 2 64)

theorem predecessor_eq {v : Int} (low : -(Int.pow 2 63) < v) (high : v ≤ Int.pow 2 63) :
    predecessor v = v - 1 := by
  have half : Int.pow 2 63 = 9223372036854775808 := rfl
  have word : Nat.pow 2 64 = 18446744073709551616 := rfl
  exact Int.bmod_eq_of_le_mul_two (by omega) (by omega)

/-- The node is an integer literal of this value. -/
def isInt (n : Node) (v : Int) : Bool := n.intValue? == some v

end Node

/-- Nodes in order of creation, and the root once there is one. -/
structure Tree where
  nodes : Array Node := #[]
  root : Option NodeId := none
deriving DecidableEq, Repr, Inhabited

namespace Tree

/-- No nodes. -/
def empty : Tree := {}

/-- Number of nodes. -/
def size (t : Tree) : Nat := t.nodes.size

/-- The node of a number. -/
def node (t : Tree) (id : NodeId) : Node := t.nodes.getD id default

/-- Children of a node. -/
def children (t : Tree) (id : NodeId) : List NodeId := (t.node id).children

/-- The child at a place. -/
def child? (t : Tree) (id : NodeId) (k : Nat) : Option NodeId := (t.children id)[k]?

/-- Parent of a node. -/
def parent? (t : Tree) (id : NodeId) : Option NodeId := (t.node id).parent

/-- Changes one node. -/
def modify (t : Tree) (id : NodeId) (f : Node → Node) : Tree :=
  { t with nodes := t.nodes.modify id f }

@[simp] theorem size_modify (t : Tree) (id : NodeId) (f : Node → Node) :
    (t.modify id f).size = t.size := by
  simp [modify, size]

/-! ## Construction -/

/-- Makes `parent` the parent of every one of `ids`. -/
def setParents (t : Tree) (parent : NodeId) (ids : List NodeId) : Tree :=
  ids.foldl (fun t id => t.modify id fun n => { n with parent := some parent }) t

/-- Appends a node and makes it the parent of its children. -/
def insert (t : Tree) (n : Node) : Tree :=
  setParents { t with nodes := t.nodes.push n } t.size n.children

/-- Appends a node of a category with a name and children. -/
def push (t : Tree) (category : Category) (name : String) (children : List NodeId) : Tree :=
  t.insert { category, name, children }

/-- Appends a literal. -/
def pushLiteral (t : Tree) (category : Category) (value : String) : Tree :=
  t.insert { category, value := some value }

/-- Appends `child` to the children of `parent`. -/
def adopt (t : Tree) (parent child : NodeId) : Tree :=
  (t.modify child fun n => { n with parent := some parent }).modify parent
    fun n => { n with children := n.children ++ [child] }

/-- The tree with another root. -/
def withRoot (t : Tree) (root : NodeId) : Tree := { t with root := some root }

/-! ## Around a node -/

/-- Place of a node among its parent's children. -/
def position? (t : Tree) (id : NodeId) : Option Nat :=
  match t.parent? id with
  | some p => (t.children p).findIdx? (· == id)
  | none => none

/-- Parents above a node, nearest first, at most `n` of them. -/
def ancestorsWithin (t : Tree) : Nat → NodeId → List NodeId
  | 0, _ => []
  | n + 1, id =>
      match t.parent? id with
      | some p => p :: t.ancestorsWithin n p
      | none => []

/-- Parents above a node, nearest first; there are fewer than nodes. -/
def ancestors (t : Tree) (id : NodeId) : List NodeId := t.ancestorsWithin t.size id

/-- Nodes that belong to the expression around them. -/
def isInner (c : Category) : Bool := c.isOperator || c == .range || c == .row

/-- Nearest ancestor that is no part of an arithmetic expression. -/
def group? (t : Tree) (id : NodeId) : Option NodeId :=
  (t.ancestors id).find? fun a => !isInner (t.node a).category

/-- Function definition around a node. -/
def enclosingFunction? (t : Tree) (id : NodeId) : Option NodeId :=
  (t.ancestors id).find? fun a => (t.node a).category == .function

/-- First node of a category, in order of creation. -/
def find? (t : Tree) (category : Category) : Option NodeId :=
  t.nodes.findIdx? (·.category == category)

end Tree

end MatrixScript
