/-
# `BuiltinRule.Signal` — Fourier transforms and interpolation

A Fourier transform is complex in the shape of its argument.  Its second
argument is a length, its third an axis; the forms that Armadillo lacks are
helpers.
-/
import MatrixScript.Rule

namespace MatrixScript.BuiltinRule

/-- An inverse transform of real data is probably a mistake. -/
def realInverse (x : Operand) (s : Site) : List Effect :=
  if s.name = "ifft" ∧ x.cls ≠ .complex then
    [.report s.id .likelyMisuse
      ("argument of 'ifft' should be complex, not " ++ x.datatype.typeName)]
  else []

/-- A transform along an axis; a matrix literal as its length counts as none. -/
def transformAlong (x length : Operand) (s : Site) : Template × List Effect :=
  let inverse := s.name = "ifft"
  if x.shape.isVector then
    (if length.isPlaceholder then .format ("arma::" ++ s.name ++ "(%(0)s)")
      else .format ("arma::" ++ s.name ++ "(%(0)s, %(1)s)"), [])
  else if length.node.category == .matrix then
    (.format ("m2cpp::" ++ s.name ++ "<" ++ x.datatype.typeName ++ ">(%(0)s, %(2)s)"),
      [.use (if inverse then .ifft else .fft)])
  else
    (.format ("m2cpp::" ++ s.name ++ "n<" ++ x.datatype.typeName ++ ">(%(0)s, %(1)s, %(2)s)"),
      [.use (if inverse then .ifftn else .fftn)])

/-- The call of a transform and the effects that it takes. -/
def transformCall (x : Operand) (s : Site) : Template × List Effect :=
  match s.operands with
  | [_] => (.format ("arma::" ++ s.name ++ "(%(0)s)"), [])
  | [_, _] => (.format ("arma::" ++ s.name ++ "(%(0)s, %(1)s)"), [])
  | [_, length, _] => transformAlong x length s
  | _ =>
      (.join ("arma::" ++ s.name ++ "(") ", " ")",
        [.report s.id .unsupportedConstruct
          ("number of arguments to '" ++ s.name ++ "' should be between 1 and 3")])

/-- `fft` and `ifft` -/
def fourier : Rule := fun s =>
  match s.operands with
  | [] => s.refuse
  | x :: _ =>
      if !x.numeric then s.keep s.verbatim
      else
        let (template, effects) := transformCall x s
        s.typed (x.datatype.withClass .complex) template (realInverse x s ++ effects)

def nextpow2 : Rule := fun s =>
  s.typed (.scalar .int) (.join "m2cpp::nextpow2(" ", " ")") [.use .nextpow2]

/-- An interpolation has the shape of the places that it is asked for. -/
def interp1 : Rule := fun s =>
  let call := Template.join "arma::interp1(" ", " ")"
  match s.operands with
  | _ :: _ :: queries :: _ =>
      if queries.datatype.isKnown then s.typed ⟨queries.shape, .float⟩ call else s.keep call
  | _ => s.keep call

end MatrixScript.BuiltinRule
