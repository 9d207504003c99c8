/-
# `Rule` — what a translation rule sees and answers

A rule is a function from the `Site` of a node, where its operands are
already resolved, to an `Outcome`: the template of its text, its typing, and
a list of effects in the order in which they take place.  A rule changes
nothing itself; `Effect` is the complete list of what it can bring about
outside of its own node's typing and text.  A rule that fails has no effect.
-/
import MatrixScript.State
import MatrixScript.Template

namespace MatrixScript

/-- A resolved child. -/
structure Operand where
  id : NodeId
  node : Node
  text : String
deriving Repr

namespace Operand

/-- Inferred type of the child. -/
def datatype (o : Operand) : Datatype := o.node.datatype

/-- Inferred shape of the child. -/
def shape (o : Operand) : Shape := o.node.shape

/-- Inferred storage class of the child. -/
def cls (o : Operand) : StorageClass := o.node.cls

/-- The child counts as a number. -/
def numeric (o : Operand) : Bool := o.node.numeric

/-- The child is an empty matrix literal, which holds the place of an argument. -/
def isPlaceholder (o : Operand) : Bool := o.node.category == .matrix && o.node.children.isEmpty

end Operand

/-- A node whose children are resolved and whose typing is seeded. -/
structure Site where
  tree : Tree
  state : State
  id : NodeId
  operands : List Operand
deriving Repr

namespace Site

/-- The node itself. -/
def node (s : Site) : Node := s.tree.node s.id

/-- Name of the node. -/
def name (s : Site) : String := s.node.name

/-- Typing that the node starts from. -/
def seed (s : Site) : Typing := s.node.typing

/-- Number of children. -/
def arity (s : Site) : Nat := s.operands.length

/-- Texts of the children. -/
def texts (s : Site) : List String := s.operands.map (·.text)

/-- Types of the children. -/
def types (s : Site) : List Datatype := s.operands.map (·.datatype)

/-- Type of a variable, declared or inferred. -/
def lookup (s : Site) (name : String) : Option Datatype := s.state.lookup name

/-- A variable of this name is known. -/
def isVariable (s : Site) (name : String) : Bool := (s.lookup name).isSome

/-- Parent of the node. -/
def parent? (s : Site) : Option Node := (s.tree.parent? s.id).map s.tree.node

/-- Category of the parent. -/
def parentCategory? (s : Site) : Option Category := s.parent?.map (·.category)

/-- Nearest node around this one that is no part of an arithmetic expression. -/
def group? (s : Site) : Option Node := (s.tree.group? s.id).map s.tree.node

end Site

/-- What a rule can bring about beside its own node's typing and text. -/
inductive Effect where
  /-- a problem at a node -/
  | report (node : NodeId) (problem : Problem) (message : String)
  /-- a helper is in use -/
  | use (i : Include)
  /-- a variable is assigned a value of a type -/
  | record (name : String) (d : Datatype)
  /-- a destination of a multi-value assignment is given a type -/
  | destination (child : NodeId) (d : Datatype)
  /-- the parent is translated by the rule of another built-in -/
  | redirect (b : Builtin)
  /-- a node goes into a temporary -/
  | hoist (node : NodeId) (text : String) (d : Datatype)
  /-- the wall clock is started -/
  | tic
  /-- the wall clock is read -/
  | toc
deriving DecidableEq, Repr

/-- What a rule answers. -/
structure Outcome where
  template : Template
  typing : Typing
  effects : List Effect := []
deriving DecidableEq, Repr

/-- A translation rule. -/
abbrev Rule := Site → Except Error Outcome

namespace Site

/-! ## Common answers -/

/-- The node keeps the typing that it started from. -/
def keep (s : Site) (template : Template) (effects : List Effect := []) :
    Except Error Outcome :=
  .ok { template, typing := s.seed, effects }

/-- The node gets the type `d`, and is numeric if that is. -/
def typed (_ : Site) (d : Datatype) (template : Template) (effects : List Effect := []) :
    Except Error Outcome :=
  .ok { template, typing := .of d, effects }

/-- The node gets a typing as it is. -/
def withTyping (_ : Site) (typing : Typing) (template : Template) (effects : List Effect := []) :
    Except Error Outcome :=
  .ok { template, typing, effects }

/-- The call as it is written. -/
def verbatim (s : Site) : Template := .join (s.name ++ "(") ", " ")"

/-- The problem of a built-in that is called with the wrong number of arguments. -/
def wrongArity (s : Site) : Effect :=
  .report s.id .unsupportedConstruct
    ("'" ++ s.name ++ "' with " ++ toString s.arity ++ " arguments")

/-- A call with the wrong number of arguments is reported and kept. -/
def refuse (s : Site) : Except Error Outcome := s.keep s.verbatim [s.wrongArity]

end Site

end MatrixScript
