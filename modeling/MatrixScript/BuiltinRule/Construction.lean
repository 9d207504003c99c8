/-
# `BuiltinRule.Construction` — arrays out of dimensions

`eye`, `rand`, `zeros`, `ones`, `linspace`, `diag` and `hankel`.  The shape
of zeros and ones follows the hint of the destination where it is a vector,
and the number of dimensions otherwise; a vector of dimensions is read
element by element and goes into a temporary unless it is a variable.
-/
import MatrixScript.BuiltinRule.Constant

namespace MatrixScript.BuiltinRule

def eye : Rule := fun s =>
  let d : Datatype := ⟨.matrix, .float⟩
  match s.operands with
  | [] => unit s
  | [n] =>
      if !n.numeric then s.keep s.verbatim
      else if n.shape.isVector then s.typed d (.format "arma::eye<mat>(%(0)s(0), %(0)s(1))")
      else s.typed d (.format "arma::eye<mat>(%(0)s, %(0)s)")
  | [n, _] =>
      if !n.numeric then s.keep s.verbatim
      else s.typed d (.format "arma::eye<mat>(%(0)s, %(1)s)")
  | _ => s.refuse

/-- Random numbers in a shape. -/
def randomArray (shape : Shape) : Rule := fun s =>
  let d : Datatype := ⟨shape, .float⟩
  s.typed d (.join ("arma::randu<" ++ d.typeName ++ ">(") ", " ")")

def rand : Rule := fun s =>
  match s.operands with
  | [] => randomNumber s
  | [_] => randomArray .colvec s
  | [_, _] => randomArray .matrix s
  | [_, _, _] => randomArray .cube s
  | _ => s.refuse

/-! ## Zeros and ones -/

/-- Type that the destination of the node asks for: the hint of the node
itself, or the type of the variable that it is assigned to. -/
def assignmentHint? (s : Site) : Option Datatype :=
  match s.node.suggest with
  | some d => some d
  | none =>
      match s.parent? with
      | none => none
      | some p =>
          if p.category == .assign && s.tree.position? s.id == some 1 then
            match p.children with
            | d :: _ =>
                let target := s.tree.node d
                if target.category == .var then s.lookup target.name else none
            | [] => none
          else none

/-- The hint, if it says something. -/
def knownHint? (s : Site) : Option Datatype := (assignmentHint? s).filter (·.isKnown)

/-- Class of filled arrays: that of the hint, else a float; indices inside a subscript. -/
def fillClass (s : Site) : StorageClass :=
  if s.group?.any (·.category.isSubscript) then .uword
  else ((knownHint? s).map (·.cls)).getD .float

/-- The dimensions are one vector of numbers. -/
def isDimensionVector (s : Site) : Bool :=
  match s.operands with
  | [d] => d.numeric && d.shape.isVector
  | _ => false

/-- Shape of filled arrays without the hint of a vector. -/
def fillShapeOfArguments (hint : Option Shape) (s : Site) : Shape :=
  match s.operands with
  | [_] =>
      if isDimensionVector s then (if hint == some .cube then .cube else .matrix) else .colvec
  | [rows, columns] =>
      if rows.node.isInt 1 then .rowvec
      else if columns.node.isInt 1 then .colvec
      else .matrix
  | _ => .cube

/-- Shape of filled arrays. -/
def fillShape (s : Site) : Shape :=
  match knownHint? s with
  | some d => if d.shape.isVector then d.shape else fillShapeOfArguments (some d.shape) s
  | none => fillShapeOfArguments none s

/-- Elements of a vector of dimensions that an array of a shape needs. -/
def dimensionsOf (dims : String) : Shape → String
  | .colvec | .rowvec => dims ++ "(0)"
  | .cube => dims ++ "(0), " ++ dims ++ "(1), " ++ dims ++ "(2)"
  | _ => dims ++ "(0), " ++ dims ++ "(1)"

/-- A filled array whose dimensions are the elements of one vector. -/
def filledByVector (constructor : String) (d : Datatype) (dims : Operand) : Rule := fun s =>
  let (text, effects) : String × List Effect :=
    if dims.node.category == .var then (dims.text, [])
    else
      (s.state.temporaryName dims.id dims.datatype, [.hoist dims.id dims.node.text dims.datatype])
  s.typed d (.fixed (constructor ++ "(" ++ dimensionsOf text d.shape ++ ")")) effects

/-- A filled array whose dimensions are given one by one; a vector takes the
one beside a literal 1. -/
def filledByNumbers (constructor : String) (d : Datatype) : Rule := fun s =>
  let whole := Template.join (constructor ++ "(") ", " ")"
  match s.operands with
  | [rows, columns] =>
      if !d.shape.isVector then s.typed d whole
      else if rows.node.isInt 1 then s.typed d (.format (constructor ++ "(%(1)s)"))
      else if columns.node.isInt 1 then s.typed d (.format (constructor ++ "(%(0)s)"))
      else s.typed d whole
  | _ => s.typed d whole

/-- `zeros` and `ones` -/
def filled : Rule := fun s =>
  match s.operands with
  | [] => s.typed (.scalar .float) (.fixed (if s.name = "ones" then "1" else "0"))
  | first :: _ =>
      if 3 < s.arity then s.refuse
      else
        let d : Datatype := ⟨fillShape s, fillClass s⟩
        let constructor := "arma::" ++ s.name ++ "<" ++ d.typeName ++ ">"
        if isDimensionVector s then filledByVector constructor d first s
        else filledByNumbers constructor d s

/-! ## Others -/

def linspace : Rule := fun s =>
  s.typed ⟨.rowvec, .float⟩ (.join "arma::linspace<rowvec>(" ", " ")")

/-- A diagonal matrix of a vector, or the diagonal of a matrix. -/
def diagonal (x : Operand) : Rule := fun s =>
  if !x.numeric then s.keep s.verbatim
  else
    match x.shape with
    | .scalar => s.withTyping x.node.typing (.format "%(0)s")
    | .colvec | .rowvec =>
        s.typed (x.datatype.withShape .matrix) (.join "arma::diagmat(" ", " ")")
    | .matrix => s.typed (x.datatype.withShape .colvec) (.join "arma::diagvec(" ", " ")")
    | _ => s.refuse

def diag : Rule := fun s =>
  match s.operands with
  | [x] => diagonal x s
  | [x, _] => diagonal x s
  | _ => s.refuse

/-- Class of a Hankel matrix: that of its first argument if it is a number. -/
def hankelClass (s : Site) : StorageClass :=
  match s.operands with
  | [] => .float
  | x :: _ => if x.numeric then x.cls else .float

def hankel : Rule := fun s =>
  s.typed ⟨.matrix, hankelClass s⟩ (.join "m2cpp::hankel(" ", " ")") [.use .hankel]

end MatrixScript.BuiltinRule
