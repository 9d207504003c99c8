/-
# `Rule.Table` — which rule a node gets

A built-in has rules by the category in which its name is used.  A node gets
the rule of the built-in that it is redirected to or named by, if that has
one for its category, else the rule of the category; cells have none.
-/
import MatrixScript.BuiltinRule.Construction
import MatrixScript.BuiltinRule.Elementwise
import MatrixScript.BuiltinRule.Extent
import MatrixScript.BuiltinRule.Reduction
import MatrixScript.BuiltinRule.Signal
import MatrixScript.Rule.Assignment
import MatrixScript.Rule.Definition
import MatrixScript.Rule.Division
import MatrixScript.Rule.Index
import MatrixScript.Rule.Literal

namespace MatrixScript.Rule

/-- Rule of a category. -/
def ofCategory? : Category → Option Rule
  | .statement => some statement
  | .assign => some assign
  | .assigns => some assigns
  | .function => some function
  | .params | .returns => some names
  | .ret => some ret
  | .brk => some brk
  | .var => some var
  | .get | .set => some subscript
  | .int => some int
  | .float => some float
  | .imag => some imag
  | .str => some string
  | .matrix => some matrix
  | .row => some row
  | .add => some add
  | .sub => some sub
  | .mul => some mul
  | .elMul => some elMul
  | .rightDiv => some rightDiv
  | .leftDiv => some leftDiv
  | .elRightDiv => some elRightDiv
  | .elLeftDiv => some elLeftDiv
  | .pow | .elPow => some power
  | .gt => some (comparison ">")
  | .ge => some (comparison ">=")
  | .lt => some (comparison "<")
  | .le => some (comparison "<=")
  | .ne => some (comparison "!=")
  | .eq => some (comparison "==")
  | .andAnd => some (logical "&&")
  | .and => some (logical "&")
  | .orOr => some (logical "||")
  | .or => some (logical "|")
  | .neg => some neg
  | .not => some not
  | .transpose => some transpose
  | .ctranspose => some ctranspose
  | .paren => some paren
  | .range => some range
  | .all => some all
  | .last => some last
  | .block | .cell | .cget => none

/-- Rule of a built-in that stands without arguments. -/
def ofBareName? : Builtin → Option Rule
  | .i => some BuiltinRule.i
  | .pi => some BuiltinRule.pi
  | .inf => some BuiltinRule.inf
  | .nan => some BuiltinRule.nan
  | .truth => some BuiltinRule.truth
  | .falsity => some BuiltinRule.falsity
  | .eye => some BuiltinRule.unit
  | .rand => some BuiltinRule.randomNumber
  | .tic => some BuiltinRule.tic
  | .toc => some BuiltinRule.toc
  | .clear | .close | .plot | .hold => some BuiltinRule.housekeeping
  | _ => none

/-- Rule of a built-in that is called. -/
def ofCall? : Builtin → Option Rule
  | .abs => some BuiltinRule.abs
  | .land => some BuiltinRule.land
  | .lor => some BuiltinRule.lor
  | .lnot => some BuiltinRule.lnot
  | .any | .all => some BuiltinRule.truthReduction
  | .size => some BuiltinRule.size
  | .length => some BuiltinRule.length
  | .min | .max => some BuiltinRule.extremum
  | .eye => some BuiltinRule.eye
  | .transpose => some BuiltinRule.transpose
  | .ctranspose => some BuiltinRule.ctranspose
  | .flipud => some BuiltinRule.flipud
  | .zeros | .ones => some BuiltinRule.filled
  | .round => some BuiltinRule.round
  | .floor => some BuiltinRule.floor
  | .rand => some BuiltinRule.rand
  | .nextpow2 => some BuiltinRule.nextpow2
  | .fft | .ifft => some BuiltinRule.fourier
  | .hankel => some BuiltinRule.hankel
  | .interp1 => some BuiltinRule.interp1
  | .linspace => some BuiltinRule.linspace
  | .sum => some BuiltinRule.sum
  | .real | .imag => some BuiltinRule.part
  | .conj => some BuiltinRule.conj
  | .diag => some BuiltinRule.diag
  | .tic => some BuiltinRule.tic
  | .toc => some BuiltinRule.toc
  | .clear | .close | .plot | .hold => some BuiltinRule.housekeeping
  | .i | .falsity | .truth | .pi | .inf | .nan => none

/-- Rule of a built-in whose values several destinations take. -/
def ofDestructured? : Builtin → Option Rule
  | .size => some BuiltinRule.assignsSize
  | .min | .max => some BuiltinRule.assignsExtremum
  | _ => none

/-- Rule of a built-in in a category. -/
def ofBuiltin? : Category → Builtin → Option Rule
  | .var, b => ofBareName? b
  | .get, b => ofCall? b
  | .assign, .size => some BuiltinRule.assignSize
  | .assigns, b => ofDestructured? b
  | _, _ => none

/-- The built-in that a node is about: the one that it is redirected to, else
the one of its name, or of the call that several destinations take apart. -/
def builtinOf? (tree : Tree) (n : Node) : Option Builtin :=
  match n.redirect with
  | some b => some b
  | none =>
      match n.category with
      | .var | .get => Builtin.ofName? n.name
      | .assigns =>
          match n.children.getLast? with
          | some value =>
              if (tree.node value).category == .get then
                Builtin.ofName? (tree.node value).name
              else none
          | none => none
      | _ => none

/-- Without a rule a node is reported and kept as its label. -/
def untranslated : Rule := fun s =>
  s.keep (.fixed s.node.label)
    [.report s.id .unsupportedConstruct ("no translation rule for " ++ s.node.category.name)]

/-- The rule of a node. -/
def select (tree : Tree) (n : Node) : Rule :=
  match (builtinOf? tree n).bind (ofBuiltin? n.category) with
  | some rule => rule
  | none => (ofCategory? n.category).getD untranslated

end MatrixScript.Rule
