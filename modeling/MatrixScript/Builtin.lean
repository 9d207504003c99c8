/-
# `Builtin` — reserved names

The functions, constants and commands with rules of their own.  Their names
are reserved: no variable may have one.  `ofName?` reads a spelling, `name`
gives the canonical one, and `ofName?_name` says that it is read back.
-/

namespace MatrixScript

/-- Built-in functions, constants and commands. -/
inductive Builtin where
  /-- the imaginary unit -/
  | i
  | land
  | lor
  | lnot
  | all
  | any
  | falsity
  | truth
  | pi
  | inf
  | nan
  | eye
  | flipud
  | length
  | max
  | min
  | size
  | transpose
  | ctranspose
  | abs
  | nextpow2
  | fft
  | ifft
  | hankel
  | zeros
  | ones
  | round
  | rand
  | floor
  | clear
  | close
  | plot
  | hold
  | interp1
  | linspace
  | sum
  | conj
  | real
  | imag
  | tic
  | toc
  | diag
deriving DecidableEq, Repr

namespace Builtin

/-- Canonical spelling. -/
def name : Builtin → String
  | .i => "i"
  | .land => "and"
  | .lor => "or"
  | .lnot => "not"
  | .all => "all"
  | .any => "any"
  | .falsity => "false"
  | .truth => "true"
  | .pi => "pi"
  | .inf => "inf"
  | .nan => "nan"
  | .eye => "eye"
  | .flipud => "flipud"
  | .length => "length"
  | .max => "max"
  | .min => "min"
  | .size => "size"
  | .transpose => "transpose"
  | .ctranspose => "ctranspose"
  | .abs => "abs"
  | .nextpow2 => "nextpow2"
  | .fft => "fft"
  | .ifft => "ifft"
  | .hankel => "hankel"
  | .zeros => "zeros"
  | .ones => "ones"
  | .round => "round"
  | .rand => "rand"
  | .floor => "floor"
  | .clear => "clear"
  | .close => "close"
  | .plot => "plot"
  | .hold => "hold"
  | .interp1 => "interp1"
  | .linspace => "linspace"
  | .sum => "sum"
  | .conj => "conj"
  | .real => "real"
  | .imag => "imag"
  | .tic => "tic"
  | .toc => "toc"
  | .diag => "diag"

/-- Every built-in, in the order of the definition. -/
def list : List Builtin :=
  [ .i, .land, .lor, .lnot, .all, .any, .falsity, .truth, .pi, .inf, .nan, .eye, .flipud,
    .length, .max, .min, .size, .transpose, .ctranspose, .abs, .nextpow2, .fft, .ifft,
    .hankel, .zeros, .ones, .round, .rand, .floor, .clear, .close, .plot, .hold, .interp1,
    .linspace, .sum, .conj, .real, .imag, .tic, .toc, .diag ]

theorem mem_list (b : Builtin) : b ∈ list := by cases b <;> decide

/-- Spellings and what they name: the canonical ones and two capitalised constants. -/
def spellings : List (String × Builtin) :=
  list.map (fun b => (b.name, b)) ++ [("Inf", .inf), ("NaN", .nan)]

/-- The built-in of a spelling. -/
def ofName? (name : String) : Option Builtin := spellings.lookup name

theorem ofName?_name (b : Builtin) : ofName? b.name = some b := by cases b <;> rfl

/-- The name is that of a built-in. -/
def isReserved (name : String) : Bool := (ofName? name).isSome

end Builtin

end MatrixScript
