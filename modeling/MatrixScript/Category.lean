/-
# `Category` — the roles of tree nodes

Every node of a program tree plays one role.  The classes of roles below
decide how types are seeded (operators), what an index belongs to
(subscripts) and which chains are flat (n-ary operators).
-/

namespace MatrixScript

/-- Role of a node in a program tree. -/
inductive Category where
  | block
  /-- an expression that stands alone -/
  | statement
  /-- one destination and its value -/
  | assign
  /-- several destinations and their value -/
  | assigns
  | function
  | params
  | returns
  /-- leaves a function -/
  | ret
  /-- leaves a loop -/
  | brk
  /-- a variable, or a call without parentheses -/
  | var
  /-- reading through a subscript, or a call -/
  | get
  /-- writing through a subscript -/
  | set
  | int
  | float
  | imag
  | str
  /-- a matrix literal; its children are rows -/
  | matrix
  | row
  /-- a cell literal -/
  | cell
  /-- a subscript in braces -/
  | cget
  | add
  | sub
  | mul
  | elMul
  | rightDiv
  | leftDiv
  | elRightDiv
  | elLeftDiv
  | pow
  | elPow
  | gt
  | ge
  | lt
  | le
  | ne
  | eq
  | andAnd
  | and
  | orOr
  | or
  | neg
  | not
  | transpose
  | ctranspose
  /-- two or three bounds -/
  | range
  /-- every index along one axis -/
  | all
  /-- the last index along one axis -/
  | last
  | paren
deriving DecidableEq, Repr, Inhabited

namespace Category

/-- Every category, in the order of the definition. -/
def list : List Category :=
  [ .block, .statement, .assign, .assigns, .function, .params, .returns, .ret, .brk,
    .var, .get, .set, .int, .float, .imag, .str, .matrix, .row, .cell, .cget,
    .add, .sub, .mul, .elMul, .rightDiv, .leftDiv, .elRightDiv, .elLeftDiv, .pow, .elPow,
    .gt, .ge, .lt, .le, .ne, .eq, .andAnd, .and, .orOr, .or,
    .neg, .not, .transpose, .ctranspose, .range, .all, .last, .paren ]

theorem mem_list (c : Category) : c ∈ list := by cases c <;> decide

/-- Name of a category in messages and documents. -/
def name : Category → String
  | .block => "Block"
  | .statement => "Statement"
  | .assign => "Assign"
  | .assigns => "Assigns"
  | .function => "Function"
  | .params => "Params"
  | .returns => "Returns"
  | .ret => "Return"
  | .brk => "Break"
  | .var => "Var"
  | .get => "Get"
  | .set => "Set"
  | .int => "Int"
  | .float => "Float"
  | .imag => "Imag"
  | .str => "Str"
  | .matrix => "Matrix"
  | .row => "Row"
  | .cell => "Cell"
  | .cget => "Cget"
  | .add => "Add"
  | .sub => "Sub"
  | .mul => "Mul"
  | .elMul => "ElMul"
  | .rightDiv => "RightDiv"
  | .leftDiv => "LeftDiv"
  | .elRightDiv => "ElRightDiv"
  | .elLeftDiv => "ElLeftDiv"
  | .pow => "Pow"
  | .elPow => "ElPow"
  | .gt => "Gt"
  | .ge => "Ge"
  | .lt => "Lt"
  | .le => "Le"
  | .ne => "Ne"
  | .eq => "Eq"
  | .andAnd => "AndAnd"
  | .and => "And"
  | .orOr => "OrOr"
  | .or => "Or"
  | .neg => "Neg"
  | .not => "Not"
  | .transpose => "Transpose"
  | .ctranspose => "CTranspose"
  | .range => "Range"
  | .all => "All"
  | .last => "End"
  | .paren => "Paren"

/-- The category of a name. -/
def ofName? (name : String) : Option Category := list.find? (·.name == name)

/-- Reads or writes through a subscript in parentheses. -/
def isSubscript : Category → Bool
  | .get | .set => true
  | _ => false

/-- Chains of the operator are flat: one node with all the operands. -/
def isChained : Category → Bool
  | .add | .sub | .mul | .elMul | .rightDiv | .leftDiv | .elRightDiv | .elLeftDiv
  | .pow | .elPow | .andAnd | .and | .orOr | .or => true
  | _ => false

/-- Compares two operands. -/
def isComparison : Category → Bool
  | .gt | .ge | .lt | .le | .ne | .eq => true
  | _ => false

/-- Operators with one operand, parentheses among them. -/
def isUnary : Category → Bool
  | .neg | .not | .transpose | .ctranspose | .paren => true
  | _ => false

/-- Operators and parentheses: their type starts from that of the operands. -/
def isOperator (c : Category) : Bool := c.isChained || c.isComparison || c.isUnary

/-- Real number literals. -/
def isNumber : Category → Bool
  | .int | .float => true
  | _ => false

end Category

end MatrixScript
