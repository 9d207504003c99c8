/-
# `Program` — matrix scripts as data

The grammar of scripts as inductive types.  A chain of one left-associative
operator is a single flat node (`Expr.chain`) with at least two operands;
`Expr.binary` is the constructor that keeps chains flat while a parser meets
their operands from left to right.  Destinations of assignments are a type
of their own, so nothing but a variable or a subscript can be assigned to.
-/
import MatrixScript.Category

namespace MatrixScript

/-- Left-associative operators whose chains are flat. -/
inductive ChainOp where
  | add
  | sub
  | mul
  | elMul
  | rightDiv
  | leftDiv
  | elRightDiv
  | elLeftDiv
  | pow
  | elPow
  | andAnd
  | and
  | orOr
  | or
deriving DecidableEq, Repr

/-- Category of the nodes of an operator. -/
def ChainOp.category : ChainOp → Category
  | .add => .add
  | .sub => .sub
  | .mul => .mul
  | .elMul => .elMul
  | .rightDiv => .rightDiv
  | .leftDiv => .leftDiv
  | .elRightDiv => .elRightDiv
  | .elLeftDiv => .elLeftDiv
  | .pow => .pow
  | .elPow => .elPow
  | .andAnd => .andAnd
  | .and => .and
  | .orOr => .orOr
  | .or => .or

theorem ChainOp.isChained_category (op : ChainOp) : op.category.isChained := by cases op <;> rfl

/-- Comparisons of two operands. -/
inductive Comparison where
  | eq
  | ne
  | lt
  | le
  | gt
  | ge
deriving DecidableEq, Repr

/-- Category of the nodes of a comparison. -/
def Comparison.category : Comparison → Category
  | .eq => .eq
  | .ne => .ne
  | .lt => .lt
  | .le => .le
  | .gt => .gt
  | .ge => .ge

/-- Operators between two operands. -/
inductive BinaryOp where
  | chain (op : ChainOp)
  | compare (op : Comparison)
deriving DecidableEq, Repr

/-- Signs in front of an operand; a plus sign leaves no trace. -/
inductive SignOp where
  | neg
  | not
deriving DecidableEq, Repr

/-- Category of the nodes of a sign. -/
def SignOp.category : SignOp → Category
  | .neg => .neg
  | .not => .not

/-- Quotes behind an operand. -/
inductive TransposeOp where
  | conjugate
  | plain
deriving DecidableEq, Repr

/-- Category of the nodes of a transpose. -/
def TransposeOp.category : TransposeOp → Category
  | .conjugate => .ctranspose
  | .plain => .transpose

/-- Kinds of literals. -/
inductive LiteralKind where
  | int
  | float
  | imag
  | str
deriving DecidableEq, Repr

/-- Category of the nodes of a literal. -/
def LiteralKind.category : LiteralKind → Category
  | .int => .int
  | .float => .float
  | .imag => .imag
  | .str => .str

/-- Expressions. -/
inductive Expr where
  /-- a variable, or a call without arguments -/
  | name (x : String)
  /-- a subscript in parentheses, or a call -/
  | call (f : String) (arguments : List Expr)
  /-- a subscript in braces -/
  | cellCall (f : String) (arguments : List Expr)
  | literal (kind : LiteralKind) (text : String)
  /-- the last index of the subscript around it -/
  | last
  /-- every index of an axis; it stands only as a whole argument -/
  | all
  | paren (inner : Expr)
  | matrix (rows : List (List Expr))
  | cell (elements : List Expr)
  | sign (op : SignOp) (operand : Expr)
  | transpose (op : TransposeOp) (operand : Expr)
  | chain (op : ChainOp) (first second : Expr) (more : List Expr)
  | compare (op : Comparison) (left right : Expr)
  /-- both bounds -/
  | range (start stop : Expr)
  /-- both bounds with a step between them -/
  | stepped (start step stop : Expr)
deriving Repr, Inhabited

/-- An operator between two expressions; a chain of the same operator on the
left takes the right one as its next operand. -/
def Expr.binary (op : BinaryOp) (left right : Expr) : Expr :=
  match op with
  | .compare op => .compare op left right
  | .chain op =>
      match left with
      | .chain first a b more =>
          if first = op then .chain op a b (more ++ [right]) else .chain op left right []
      | left => .chain op left right []

/-- What an assignment can write to. -/
inductive Target where
  | variable (x : String)
  | element (x : String) (arguments : List Expr)
deriving Repr, Inhabited

/-- The destination that an expression on the left of an equals sign names. -/
def Expr.target? : Expr → Option Target
  | .name x => some (.variable x)
  | .call x arguments => some (.element x arguments)
  | _ => none

/-- Statements other than function definitions. -/
inductive Statement where
  | expression (e : Expr)
  | assign (target : Target) (value : Expr)
  /-- several destinations in brackets -/
  | assigns (targets : List Target) (value : Expr)
  /-- leaves the function -/
  | ret
  /-- leaves the loop -/
  | brk
  /-- a name with words behind it, as in `hold on` -/
  | command (name : String) (words : List String)
deriving Repr, Inhabited

/-- Function definitions. -/
structure Function where
  name : String
  outputs : List String
  params : List String
  body : List Statement
deriving Repr

/-- What stands at the top level of a script; functions do not nest. -/
inductive Item where
  | statement (s : Statement)
  | function (f : Function)
deriving Repr

/-- A whole script. -/
abbrev Program := List Item

end MatrixScript
