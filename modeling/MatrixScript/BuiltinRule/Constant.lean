/-
# `BuiltinRule.Constant` — constants, the wall clock, and commands

Names that stand for a value of their own, `tic` and `toc`, and the figure
and workspace commands, which are kept as comments.
-/
import MatrixScript.Rule

namespace MatrixScript.BuiltinRule

/-- A name that stands for a scalar. -/
def constant (c : StorageClass) (text : String) : Rule := fun s => s.typed (.scalar c) (.fixed text)

def i : Rule := constant .complex "cx_double(0, 1)"

def pi : Rule := constant .float "datum::pi"

def inf : Rule := constant .float "datum::inf"

def nan : Rule := constant .float "datum::nan"

def truth : Rule := constant .int "1"

def falsity : Rule := constant .int "0"

/-- The identity without a size is one. -/
def unit : Rule := constant .int "1"

/-- A random number. -/
def randomNumber : Rule := constant .float "arma::randu()"

/-! ## The wall clock -/

def tic : Rule := fun s => s.keep (.fixed "_timer.tic()") [.tic]

/-- Reads the clock; alone in a statement it prints the time. -/
def toc : Rule := fun s =>
  let effects : List Effect :=
    if s.state.clock.started then [.toc]
    else [.toc, .report s.id .likelyMisuse "toc without a preceding tic"]
  if s.parentCategory? == some .statement then
    s.keep (.fixed "cout << \"Elapsed time = \" << _timer.toc() << endl") effects
  else s.typed (.scalar .float) (.fixed "_timer.toc()") effects

/-! ## Commands -/

/-- A command of figures or of the workspace, as a comment. -/
def housekeeping : Rule := fun s =>
  if s.node.category == .var then s.keep (.fixed ("// " ++ s.name))
  else s.keep (.join ("// " ++ s.name ++ "(") ", " ")")

end MatrixScript.BuiltinRule
