/-
# `Shape` — how many axes a value has

The shapes of matrix algebra, from the unknown one up to a cube, with the
two conformability tables: `Shape.mul` for products and `Shape.div` for
structural quotients.  A pair without an entry is a `ShapeMismatch`, which
keeps both sides so that a report can name them.  The order of the shapes
is the order in which a join widens them.
-/

namespace MatrixScript

/-- Axes of a value, in widening order. -/
inductive Shape where
  | unknown
  | scalar
  | colvec
  | rowvec
  | matrix
  | cube
deriving DecidableEq, Repr, Inhabited

namespace Shape

/-- Every shape, narrowest first. -/
def all : List Shape := [.unknown, .scalar, .colvec, .rowvec, .matrix, .cube]

/-- Place of a shape in the widening order. -/
def width : Shape → Nat
  | .unknown => 0
  | .scalar => 1
  | .colvec => 2
  | .rowvec => 3
  | .matrix => 4
  | .cube => 5

theorem width_injective {a b : Shape} (h : a.width = b.width) : a = b := by
  cases a <;> cases b <;> first | rfl | cases h

instance : LE Shape := ⟨fun a b => a.width ≤ b.width⟩
instance : LT Shape := ⟨fun a b => a.width < b.width⟩
instance (a b : Shape) : Decidable (a ≤ b) := inferInstanceAs (Decidable (a.width ≤ b.width))
instance (a b : Shape) : Decidable (a < b) := inferInstanceAs (Decidable (a.width < b.width))

/-- The wider of two shapes. -/
instance : Max Shape := ⟨fun a b => if a ≤ b then b else a⟩

theorem width_max (a b : Shape) : (max a b).width = max a.width b.width := by
  cases a <;> cases b <;> rfl

/-- Number of the shape on the scale from scalar to cube; an unknown shape has none. -/
def rank? : Shape → Option Nat
  | .unknown => none
  | .scalar => some 0
  | .colvec => some 1
  | .rowvec => some 2
  | .matrix => some 3
  | .cube => some 4

/-- One axis, in either direction. -/
def isVector : Shape → Bool
  | .colvec | .rowvec => true
  | _ => false

/-- At least one axis. -/
def isArray : Shape → Bool
  | .colvec | .rowvec | .matrix | .cube => true
  | _ => false

/-- Column and row vectors change places, all other shapes stay. -/
def transposed : Shape → Shape
  | .colvec => .rowvec
  | .rowvec => .colvec
  | s => s

/-- The shape left by a reduction along the trailing axis. -/
def reduced : Shape → Shape
  | .colvec | .rowvec => .scalar
  | .matrix => .rowvec
  | .cube => .matrix
  | s => s

/-- Name of a shape in messages and documents. -/
def label : Shape → String
  | .unknown => "unknown"
  | .scalar => "scalar"
  | .colvec => "colvec"
  | .rowvec => "rowvec"
  | .matrix => "matrix"
  | .cube => "cube"

end Shape

/-- Two shapes that a multiplicative operator cannot combine. -/
structure ShapeMismatch where
  left : Shape
  right : Shape
deriving DecidableEq, Repr

namespace Shape

/-! ## The conformability tables -/

/-- Shape of a product.  A cube on the left, or on the right of a vector or a
matrix, has no entry and leaves the left shape. -/
def mul : Shape → Shape → Except ShapeMismatch Shape
  | .unknown, _ | _, .unknown => .ok .unknown
  | .scalar, b => .ok b
  | .colvec, .scalar => .ok .colvec
  | .colvec, .rowvec => .ok .matrix
  | .colvec, b => .error ⟨.colvec, b⟩
  | .rowvec, .colvec => .ok .scalar
  | .rowvec, .rowvec => .error ⟨.rowvec, .rowvec⟩
  | .rowvec, .matrix => .ok .matrix
  | .matrix, .colvec => .ok .colvec
  | .matrix, .rowvec => .error ⟨.matrix, .rowvec⟩
  | a, _ => .ok a

/-- Shape of a structural quotient.  It differs from the product where a row
vector is divided by a matrix, and where the divisor is a cube. -/
def div : Shape → Shape → Except ShapeMismatch Shape
  | .unknown, _ | _, .unknown => .ok .unknown
  | .scalar, b => .ok b
  | .colvec, .scalar => .ok .colvec
  | .colvec, .rowvec => .ok .matrix
  | .colvec, b => .error ⟨.colvec, b⟩
  | .rowvec, .colvec => .ok .scalar
  | .rowvec, .rowvec => .error ⟨.rowvec, .rowvec⟩
  | .rowvec, .cube => .ok .matrix
  | .matrix, .colvec => .ok .colvec
  | .matrix, .rowvec => .error ⟨.matrix, .rowvec⟩
  | .matrix, .cube => .ok .cube
  | a, _ => .ok a

end Shape

end MatrixScript
