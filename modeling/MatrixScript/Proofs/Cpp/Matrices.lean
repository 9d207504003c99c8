/-
# `Proofs.Cpp.Matrices` — what expressions of matrices are worth

Matrices carry their extents, and an operation has no value where these do not conform or an
inverse does not exist.  Armadillo's `solve(P, Q)` is the inverse of `P` times `Q`, so solving
a transposed system and transposing back divides on the right (`Mat.solve_transpose`).
`Assembly.matrixValue` is the worth of an expression that is read as it is put together.
-/
import Mathlib.LinearAlgebra.Matrix.NonsingularInverse
import MatrixScript.Proofs.Cpp.Assembly

namespace MatrixScript

/-- A matrix with its extents. -/
structure Mat (K : Type) where
  rows : Nat
  cols : Nat
  entries : Matrix (Fin rows) (Fin cols) K

namespace Mat

variable {K : Type} [Field K]

def transpose (a : Mat K) : Mat K := ⟨a.cols, a.rows, a.entries.transpose⟩

/-- Product of matrices that conform. -/
def product (a b : Mat K) : Option (Mat K) :=
  if h : a.cols = b.rows then
    some ⟨a.rows, b.cols, a.entries * b.entries.submatrix (Fin.cast h) id⟩
  else none

/-- An operation between the elements of matrices of the same extents. -/
def entrywise (f : K → K → K) (a b : Mat K) : Option (Mat K) :=
  if h : a.rows = b.rows ∧ a.cols = b.cols then
    some ⟨a.rows, a.cols,
      .of fun i j => f (a.entries i j) (b.entries (Fin.cast h.1 i) (Fin.cast h.2 j))⟩
  else none

open Classical in
/-- Inverse of a square matrix that is not singular. -/
noncomputable def squareInverse {n : Nat} (a : Matrix (Fin n) (Fin n) K) : Option (Mat K) :=
  if a.det = 0 then none else some ⟨n, n, a⁻¹⟩

/-- Inverse of a matrix that has one. -/
noncomputable def inverse (a : Mat K) : Option (Mat K) :=
  if h : a.rows = a.cols then squareInverse (a.entries.submatrix id (Fin.cast h)) else none

/-- Solution of a linear system. -/
noncomputable def solve (p q : Mat K) : Option (Mat K) := p.inverse.bind (product · q)

/-- A matrix times the inverse of another. -/
noncomputable def divide (a b : Mat K) : Option (Mat K) := b.inverse.bind (product a ·)

section

variable {m n p : Nat}

theorem product_mk (a : Matrix (Fin m) (Fin n) K) (b : Matrix (Fin n) (Fin p) K) :
    product ⟨m, n, a⟩ ⟨n, p, b⟩ = some ⟨m, p, a * b⟩ :=
  dif_pos rfl

theorem inverse_mk (a : Matrix (Fin n) (Fin n) K) : inverse ⟨n, n, a⟩ = squareInverse a :=
  dif_pos rfl

theorem squareInverse_transpose (a : Matrix (Fin n) (Fin n) K) :
    squareInverse a.transpose = (squareInverse a).map transpose := by
  unfold squareInverse
  rw [Matrix.det_transpose]
  split
  · rfl
  · rw [← Matrix.transpose_nonsing_inv]
    rfl

end

theorem product_transpose (a b : Mat K) :
    product b.transpose a.transpose = (product a b).map transpose := by
  obtain ⟨m, n, a⟩ := a
  obtain ⟨n', p, b⟩ := b
  show product ⟨p, n', b.transpose⟩ ⟨n, m, a.transpose⟩ = _
  by_cases conform : n = n'
  · subst conform
    rw [product_mk, product_mk, ← Matrix.transpose_mul]
    rfl
  · rw [product, dif_neg fun same => conform same.symm, product, dif_neg conform, Option.map_none]

theorem inverse_transpose (a : Mat K) : a.transpose.inverse = a.inverse.map transpose := by
  obtain ⟨m, n, a⟩ := a
  show inverse ⟨n, m, a.transpose⟩ = _
  by_cases square : m = n
  · subst square
    rw [inverse_mk, inverse_mk, squareInverse_transpose]
  · rw [inverse, dif_neg fun same => square same.symm, inverse, dif_neg square, Option.map_none]

/-- Solving the transposed system and transposing back divides on the right. -/
theorem solve_transpose (a b : Mat K) : (solve b.transpose a.transpose).map transpose = a.divide b := by
  rw [solve, divide, inverse_transpose]
  cases b.inverse with
  | none => rfl
  | some c =>
    show (product c.transpose a.transpose).map transpose = product a c
    rw [product_transpose, Option.map_map]
    exact Option.map_id'

/-- An operation on matrices that have a value. -/
def both (f : Mat K → Mat K → Option (Mat K)) (x y : Option (Mat K)) : Option (Mat K) :=
  x.bind fun a => y.bind (f a)

theorem both_solve_transpose (x y : Option (Mat K)) :
    (both solve (y.map transpose) (x.map transpose)).map transpose = both divide x y := by
  cases x with
  | none => cases y <;> rfl
  | some a =>
    cases y with
    | none => rfl
    | some b => exact solve_transpose a b

end Mat

namespace Cpp

variable {K : Type} [Field K]

/-- Operators that Armadillo has between matrices, as far as they are emitted for products and
quotients. -/
def Operator.onMatrices : Operator → Mat K → Mat K → Option (Mat K)
  | .mul => Mat.product
  | .mod => Mat.entrywise (· * ·)
  | .div => Mat.entrywise (· / ·)
  | _ => fun _ _ => none

namespace Assembly

mutual

/-- What an expression of matrices is worth; a factor `1.0` on the right is a number, and leaves
the matrix. -/
noncomputable def matrixValue (env : String → Option (Mat K)) : Assembly → Option (Mat K)
  | whole text => env text
  | parens e => e.matrixValue env
  | call f items =>
      match f.name, matrixValues env items with
      | "arma::solve", [p, q] => Mat.both Mat.solve p q
      | _, _ => none
  | applied (member e m) [] => if m.name = "t" then (e.matrixValue env).map Mat.transpose else none
  | binary op _ left right =>
      if op = .mul ∧ right.spelled = "1.0" then left.matrixValue env
      else Mat.both op.onMatrices (left.matrixValue env) (right.matrixValue env)
  | _ => none

noncomputable def matrixValues (env : String → Option (Mat K)) : List Assembly → List (Option (Mat K))
  | [] => []
  | e :: es => e.matrixValue env :: matrixValues env es

end

section

variable {env : String → Option (Mat K)} {op : Operator} {spaced : Bool} {left right : Assembly}

theorem matrixValue_whole (text : String) : (whole text).matrixValue env = env text := rfl

theorem matrixValue_parens (e : Assembly) : (parens e).matrixValue env = e.matrixValue env := rfl

/-- A factor `1.0` on the right leaves the matrix. -/
theorem matrixValue_one (one : right.spelled = "1.0") :
    (binary .mul spaced left right).matrixValue env = left.matrixValue env := if_pos ⟨rfl, one⟩

theorem matrixValue_binary (other : ¬(op = .mul ∧ right.spelled = "1.0")) :
    (binary op spaced left right).matrixValue env
      = Mat.both op.onMatrices (left.matrixValue env) (right.matrixValue env) := if_neg other

end

end Assembly

end Cpp

end MatrixScript
