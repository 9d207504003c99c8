/-
# `Datatype` — the type lattice of translated values

A datatype pairs a `Shape` with a `StorageClass`.  Operands are joined by
taking the wider of both parts, and anything unknown makes the join
unknown.  Every known datatype has one Armadillo name (`typeName`), and
`ofName?` reads the names back, with `float` and `colvec` as second
spellings; `ofName?_typeName` says that a known type is found again.
-/
import MatrixScript.Error
import MatrixScript.Shape
import MatrixScript.Text.Blank

namespace MatrixScript

/-- How the elements of a value are stored, in promotion order. -/
inductive StorageClass where
  | unresolved
  | int
  | uword
  | float
  | complex
  | text
deriving DecidableEq, Repr, Inhabited

namespace StorageClass

/-- Every storage class, lowest first. -/
def all : List StorageClass := [.unresolved, .int, .uword, .float, .complex, .text]

/-- Place of a class in the promotion order. -/
def precedence : StorageClass → Nat
  | .unresolved => 0
  | .int => 1
  | .uword => 2
  | .float => 3
  | .complex => 4
  | .text => 5

theorem precedence_injective {a b : StorageClass} (h : a.precedence = b.precedence) : a = b := by
  cases a <;> cases b <;> first | rfl | cases h

instance : LE StorageClass := ⟨fun a b => a.precedence ≤ b.precedence⟩
instance : LT StorageClass := ⟨fun a b => a.precedence < b.precedence⟩
instance (a b : StorageClass) : Decidable (a ≤ b) :=
  inferInstanceAs (Decidable (a.precedence ≤ b.precedence))
instance (a b : StorageClass) : Decidable (a < b) :=
  inferInstanceAs (Decidable (a.precedence < b.precedence))

/-- The class that holds the values of both. -/
instance : Max StorageClass := ⟨fun a b => if a ≤ b then b else a⟩

theorem precedence_max (a b : StorageClass) :
    (max a b).precedence = max a.precedence b.precedence := by
  cases a <;> cases b <;> rfl

/-- Numbers of any kind. -/
def isNumeric : StorageClass → Bool
  | .int | .uword | .float | .complex => true
  | _ => false

/-- A quotient in this class would be cut to an integer. -/
def isIntegral (c : StorageClass) : Bool := c < .float

/-- Name of a class in documents. -/
def label : StorageClass → String
  | .unresolved => "unresolved"
  | .int => "int"
  | .uword => "uword"
  | .float => "float"
  | .complex => "complex"
  | .text => "text"

end StorageClass

/-- Shape and storage class of a value. -/
structure Datatype where
  shape : Shape
  cls : StorageClass
deriving DecidableEq, Repr

namespace Datatype

/-- Nothing is known about the value. -/
def unknown : Datatype := ⟨.unknown, .unresolved⟩

/-- A character string. -/
def string : Datatype := ⟨.scalar, .text⟩

/-- A single element. -/
def scalar (c : StorageClass) : Datatype := ⟨.scalar, c⟩

instance : Inhabited Datatype := ⟨unknown⟩

/-- Both parts are settled. -/
def isKnown (d : Datatype) : Bool := d.cls != .unresolved && d.shape != .unknown

/-- A known type of numbers. -/
def isNumeric (d : Datatype) : Bool := d.isKnown && d.cls.isNumeric

/-- The same class in another shape. -/
def withShape (d : Datatype) (s : Shape) : Datatype := ⟨s, d.cls⟩

/-- The same shape of another class. -/
def withClass (d : Datatype) (c : StorageClass) : Datatype := ⟨d.shape, c⟩

/-- Least type that covers both; unknown if either is. -/
def join (a b : Datatype) : Datatype :=
  if a.isKnown && b.isKnown then ⟨max a.shape b.shape, max a.cls b.cls⟩ else unknown

/-- Join of any number of types; no types join to the unknown one. -/
def joinAll : List Datatype → Datatype
  | [] => unknown
  | d :: ds => ds.foldl join d

/-! ## Names -/

/-- Armadillo type in which a value of this type is declared. -/
def typeName (d : Datatype) : String :=
  match d.cls, d.shape with
  | .unresolved, _ | _, .unknown => "TYPE"
  | .text, _ => "string"
  | .int, .scalar => "int"
  | .int, .colvec => "ivec"
  | .int, .rowvec => "irowvec"
  | .int, .matrix => "imat"
  | .int, .cube => "icube"
  | .uword, .scalar => "uword"
  | .uword, .colvec => "uvec"
  | .uword, .rowvec => "urowvec"
  | .uword, .matrix => "umat"
  | .uword, .cube => "ucube"
  | .float, .scalar => "double"
  | .float, .colvec => "vec"
  | .float, .rowvec => "rowvec"
  | .float, .matrix => "mat"
  | .float, .cube => "cube"
  | .complex, .scalar => "cx_double"
  | .complex, .colvec => "cx_vec"
  | .complex, .rowvec => "cx_rowvec"
  | .complex, .matrix => "cx_mat"
  | .complex, .cube => "cx_cube"

/-- Every accepted type name with its type. -/
def names : List (String × Datatype) :=
  [ ("TYPE", unknown), ("string", string),
    ("int", ⟨.scalar, .int⟩), ("ivec", ⟨.colvec, .int⟩), ("irowvec", ⟨.rowvec, .int⟩),
    ("imat", ⟨.matrix, .int⟩), ("icube", ⟨.cube, .int⟩),
    ("uword", ⟨.scalar, .uword⟩), ("uvec", ⟨.colvec, .uword⟩), ("urowvec", ⟨.rowvec, .uword⟩),
    ("umat", ⟨.matrix, .uword⟩), ("ucube", ⟨.cube, .uword⟩),
    ("double", ⟨.scalar, .float⟩), ("float", ⟨.scalar, .float⟩),
    ("vec", ⟨.colvec, .float⟩), ("colvec", ⟨.colvec, .float⟩), ("rowvec", ⟨.rowvec, .float⟩),
    ("mat", ⟨.matrix, .float⟩), ("cube", ⟨.cube, .float⟩),
    ("cx_double", ⟨.scalar, .complex⟩), ("cx_vec", ⟨.colvec, .complex⟩),
    ("cx_rowvec", ⟨.rowvec, .complex⟩), ("cx_mat", ⟨.matrix, .complex⟩),
    ("cx_cube", ⟨.cube, .complex⟩) ]

/-- The type of a name as it is spelled, with no blanks around it. -/
def ofName? (name : String) : Option Datatype := names.lookup name

/-- The type that a text names, blanks around the name aside. -/
def ofText (text : String) : Except Error Datatype :=
  match ofName? (Text.trim text) with
  | some d => .ok d
  | none => .error (.unknownType (Text.trim text))

theorem ofName?_typeName (d : Datatype) (h : d.isKnown) (ht : d.cls ≠ .text) :
    ofName? d.typeName = some d := by
  obtain ⟨s, c⟩ := d
  cases s <;> cases c <;> first | rfl | simp_all [isKnown]

end Datatype

end MatrixScript
