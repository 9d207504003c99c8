/-
# `BuiltinRule.Reduction` — functions along an axis

`any`, `all`, `min`, `max` and `sum`.  A reduction of a matrix needs its
axis as a literal, because the shape of the result depends on it; without
one the value no longer counts as a number.
-/
import MatrixScript.Rule

namespace MatrixScript.BuiltinRule

/-- A call of an array function with the first argument. -/
def reduced (function : String) : Template := .format ("arma::" ++ function ++ "(%(0)s)")

/-- The same along an axis, counted from zero. -/
def reducedAlong (function axis : String) : Template :=
  .format ("arma::" ++ function ++ "(%(0)s, " ++ axis ++ ")")

/-! ## Truth values -/

/-- `any` and `all` over a matrix. -/
def truthOfMatrix (x : Operand) (s : Site) : Except Error Outcome :=
  let typing := x.node.typing
  let ambiguous : Effect :=
    .report s.id .ambiguousAxis
      ("'" ++ s.name ++ "' over a matrix needs a literal axis argument")
  match s.operands with
  | [_, axis] =>
      match axis.node.intValue? with
      | some 1 => s.typed (typing.datatype.withShape .rowvec) (reducedAlong s.name "0")
      | some 2 => s.typed (typing.datatype.withShape .colvec) (reducedAlong s.name "1")
      | _ =>
          s.withTyping { typing with numeric := false } (reducedAlong s.name "%(1)s-1")
            [ambiguous]
  | _ => s.withTyping { typing with numeric := false } (reduced s.name) [ambiguous]

/-- `any` and `all`. -/
def truthReduction : Rule := fun s =>
  match s.operands with
  | [] => s.keep s.verbatim
  | x :: _ =>
      let typing := x.node.typing
      if !typing.numeric then s.keep s.verbatim
      else
        match x.shape with
        | .scalar => s.withTyping typing (.format "%(0)s")
        | .colvec | .rowvec => s.typed (typing.datatype.withShape .scalar) (reduced s.name)
        | .matrix => truthOfMatrix x s
        | .cube =>
            s.typed (typing.datatype.withShape .matrix)
              (.join ("arma::" ++ s.name ++ "(") ", " ")")
        | .unknown => s.withTyping typing s.verbatim

/-! ## Extrema -/

/-- `min` and `max` of values that are not all scalars; the first one gives the type. -/
def extremumOfArrays (x : Operand) (s : Site) : Except Error Outcome :=
  let d := x.datatype
  match s.operands with
  | [_] => s.typed (d.withShape d.shape.reduced) (reduced s.name)
  | [_, _] => s.typed d (reducedAlong s.name "%(1)s")
  | [_, _, axis] =>
      match axis.node.intValue? with
      | some 1 => s.typed (d.withShape .rowvec) (reducedAlong s.name "0")
      | some 2 => s.typed (d.withShape .colvec) (reducedAlong s.name "1")
      | _ =>
          s.withTyping ⟨d, false⟩ (reducedAlong s.name "%(2)s-1")
            [.report s.id .ambiguousAxis
              ("'" ++ s.name ++ "' axis argument is not a literal 1 or 2")]
  | _ => s.typed d s.verbatim [s.wrongArity]

/-- `min` and `max`. -/
def extremum : Rule := fun s =>
  match s.operands with
  | [] => s.keep s.verbatim
  | x :: _ =>
      if !s.operands.all (fun o => o.isPlaceholder || o.numeric) then s.keep s.verbatim
      else if s.operands.all (·.shape == .scalar) then
        s.typed (.joinAll s.types) (.join ("std::" ++ s.name ++ "(") ", " ")")
      else extremumOfArrays x s

/-! ## Sums -/

/-- Shape of a sum along a literal axis, if there is one. -/
def sumShape (shape : Shape) (axis : Option Int) : Shape :=
  if shape == .matrix && axis == some 2 then .colvec else shape.reduced

/-- Sum of an argument; `axis` is the second one, if it is given. -/
def sumOf (x : Operand) (axis : Option Operand) : Rule := fun s =>
  if !x.numeric || x.shape == .scalar then
    s.keep s.verbatim
      [.report s.id .unsupportedConstruct ("sum over non-array " ++ x.datatype.typeName)]
  else
    let literal := axis.bind (·.node.intValue?)
    s.typed (x.datatype.withShape (sumShape x.shape literal))
      (match axis, literal with
        | none, _ => reduced "sum"
        | some _, some k => reducedAlong "sum" (toString (Node.predecessor k))
        | some _, none => reducedAlong "sum" "%(1)s-1")

def sum : Rule := fun s =>
  match s.operands with
  | [x] => sumOf x none s
  | [x, axis] => sumOf x (some axis) s
  | _ => s.refuse

end MatrixScript.BuiltinRule
