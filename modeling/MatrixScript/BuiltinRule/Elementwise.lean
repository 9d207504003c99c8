/-
# `BuiltinRule.Elementwise` — functions of every element

Absolute values, logic, transposes, rounding and complex parts.  Each of
them takes over the typing of its first argument and changes the class where
the function does.
-/
import MatrixScript.Rule.Operator

namespace MatrixScript.BuiltinRule

open Rule

/-- The argument of a function that takes exactly one; any other call is refused. -/
def ofOne (rule : Operand → Rule) : Rule := fun s =>
  match s.operands with
  | [argument] => rule argument s
  | _ => s.refuse

/-- `std::` in front of a function of scalars, `arma::` in front of one of arrays. -/
def library (shape : Shape) : String := if shape == .scalar then "std" else "arma"

/-- A call of a library function with the first argument. -/
def applied (shape : Shape) (function : String) : Template :=
  .format (library shape ++ "::" ++ function ++ "(%(0)s)")

/-- A typing in another class. -/
def recast (typing : Typing) (c : StorageClass) : Typing := .of (typing.datatype.withClass c)

def abs : Rule := ofOne fun x s =>
  let typing := x.node.typing
  if !typing.numeric then s.withTyping typing s.verbatim
  else
    s.withTyping (if x.cls == .complex then recast typing .float else typing)
      (applied x.shape "abs")

/-! ## Logic -/

def land : Rule := fun s => s.typed (.joinAll s.types) (.join "(" "*" ")")

/-- A disjunction is a sum of squares. -/
def lor : Rule := fun s =>
  s.typed (.joinAll s.types)
    (.fixed ("(" ++ Text.joined "+" (s.texts.map fun t => t ++ "*" ++ t) ++ ")"))

def lnot : Rule := ofOne fun x s => negation x.node.typing s

/-! ## Turning around -/

def transpose : Rule := ofOne fun x s => transposed x.node.typing s

def ctranspose : Rule := ofOne fun x s => conjugated x.node.typing s

def flipud : Rule := ofOne fun x s => s.withTyping x.node.typing (.format "arma::flipud(%(0)s)")

/-! ## Rounding -/

/-- The header of mathematical functions is needed for scalars only. -/
def mathFor (shape : Shape) : List Effect := if shape == .scalar then [.use .math] else []

/-- A value rounded to a number of decimal places, `texts` of its call. -/
def roundedToPlaces (shape : Shape) : Template :=
  .format (library shape ++ "::round(%(0)s*std::pow(10, %(1)s))*std::pow(10, -%(1)s)")

/-- Rounds a number; `places` is the number of decimal places, if it is given. -/
def rounded (x : Operand) (places : Option Operand) : Rule := fun s =>
  let typing := x.node.typing
  if !typing.numeric then s.withTyping typing s.verbatim
  else if x.cls.isIntegral then s.withTyping typing (.format "%(0)s")
  else if places.all (·.node.isInt 0) then
    s.withTyping typing (applied x.shape "round") (mathFor x.shape)
  else s.withTyping typing (roundedToPlaces x.shape) (mathFor x.shape)

def round : Rule := fun s =>
  match s.operands with
  | [x] => rounded x none s
  | [x, places] => rounded x (some places) s
  | _ => s.refuse

/-- Rounds down to a value of an integer class. -/
def floor : Rule := ofOne fun x s =>
  let typing := x.node.typing
  if !typing.numeric then s.withTyping typing s.verbatim
  else
    s.withTyping (if .int < x.cls then recast typing .int else typing)
      (applied x.shape "floor") (mathFor x.shape)

/-! ## Complex parts -/

/-- `real` and `imag`: the part of a complex number is a float. -/
def part : Rule := ofOne fun x s =>
  let typing := x.node.typing
  s.withTyping (if typing.numeric && x.cls == .complex then recast typing .float else typing)
    (.format ("arma::" ++ s.name ++ "(%(0)s)"))

def conj : Rule := ofOne fun x s => s.withTyping x.node.typing (.format "arma::conj(%(0)s)")

end MatrixScript.BuiltinRule
