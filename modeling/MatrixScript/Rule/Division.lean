/-
# `Rule.Division` — the four divisions

Between scalars a division is written with `/`, widened where both sides are
integers so that nothing is cut off.  A right division by a matrix and a
left division by an array solve a linear system.  Each division runs over
the operands from left to right with the quotient so far.
-/
import MatrixScript.Rule.Operator

namespace MatrixScript.Rule

/-- The quotient of the operands so far. -/
structure Quotient where
  text : String
  cls : StorageClass
  shape : Shape
deriving DecidableEq, Repr

/-- The first operand alone. -/
def Quotient.ofOperand (o : Operand) : Quotient := ⟨o.text, o.cls, o.shape⟩

/-- A quotient in this class and of this operand would be cut to an integer. -/
def bothIntegral (q : Quotient) (o : Operand) : Bool := q.cls.isIntegral && o.cls.isIntegral

/-- Class of an element-wise quotient: never less than floating point. -/
def widened (q : Quotient) (o : Operand) : StorageClass := max (max q.cls o.cls) .float

/-- Typing of an element-wise quotient of operands that start from `seed`. -/
def quotientTyping (seed : Typing) : Typing :=
  if seed.numeric then .of (seed.datatype.withClass (max seed.datatype.cls .float)) else seed

/-! ## Element-wise -/

/-- One more divisor; an integer literal is written as a floating-point one. -/
def divideBy (typed : Bool) (q : Quotient) (o : Operand) : Quotient :=
  { q with
    text :=
      if o.node.category == .int then q.text ++ "/" ++ o.text ++ ".0"
      else if typed && bothIntegral q o then q.text ++ "*1.0/" ++ o.text
      else q.text ++ "/" ++ o.text
    cls := widened q o }

/-- `a ./ b`, and `a / b` of scalars. -/
def elRightDiv : Rule := fun s =>
  match s.operands with
  | [] => .error .malformedTree
  | first :: rest =>
      let q := rest.foldl (divideBy s.seed.numeric) (.ofOperand first)
      s.withTyping (quotientTyping s.seed) (.fixed q.text) (checkNumeric "division" s)

/-- One more numerator over the quotient so far; `literal` says that this is an
integer literal. -/
def divideInto (typed literal : Bool) (q : Quotient) (divisor : String) (o : Operand) : Quotient :=
  { q with
    text :=
      if literal then o.text ++ "/" ++ divisor ++ ".0"
      else if typed && bothIntegral q o then o.text ++ "*1.0/" ++ divisor
      else o.text ++ "/" ++ divisor
    cls := widened q o }

/-- A later numerator stands over the whole quotient before it. -/
def divideIntoQuotient (typed : Bool) (q : Quotient) (o : Operand) : Quotient :=
  divideInto typed false q ("(" ++ q.text ++ ")") o

/-- `a .\ b`, and `a \ b` of scalars: each operand is divided by the quotient so far. -/
def elLeftDiv : Rule := fun s =>
  match s.operands with
  | [] => .error .malformedTree
  | first :: rest =>
      let start := Quotient.ofOperand first
      let typed := s.seed.numeric
      let q :=
        match rest with
        | [] => start
        | second :: more =>
            more.foldl (divideIntoQuotient typed)
              (divideInto typed (first.node.category == Category.int) start first.text second)
      s.withTyping (quotientTyping s.seed) (.fixed q.text) (checkNumeric "division" s)

/-! ## By matrices -/

/-- Every operand is a scalar. -/
def allScalar (s : Site) : Bool := s.operands.all (·.shape == .scalar)

/-- Reports operands that do not conform. -/
def quotientMismatch (s : Site) (operator : String) (m : ShapeMismatch) : Effect :=
  .report s.id .shapeMismatch
    ("Matrix division error '" ++ m.left.label ++ operator ++ m.right.label ++ "'")

/-- Shape of the quotient with one more operand; one that does not conform is
reported and leaves the shape. -/
def quotientShape (s : Site) (operator : String) (q : Quotient) (o : Operand) :
    Shape × List Effect :=
  match q.shape.div o.shape with
  | .ok shape => (shape, [])
  | .error m => (q.shape, [quotientMismatch s operator m])

/-- One more divisor on the right: a matrix solves the transposed system. -/
def solveRight (q : Quotient) (o : Operand) : Quotient :=
  if .matrix ≤ o.shape then
    { q with
      text := "arma::solve(" ++ o.text ++ ".t(), " ++ q.text ++ ".t()).t()"
      cls := max q.cls o.cls }
  else if bothIntegral q o then
    { q with text := q.text ++ "*1.0/" ++ o.text, cls := max .float o.cls }
  else { q with text := q.text ++ "/" ++ o.text, cls := max q.cls o.cls }

/-- One more operand on the left division: an array solves the system. -/
def solveLeft (q : Quotient) (o : Operand) : Quotient :=
  if o.shape.isArray then
    { q with text := "arma::solve(" ++ q.text ++ ", " ++ o.text ++ ")", cls := max q.cls o.cls }
  else if bothIntegral q o then
    { q with text := "(" ++ q.text ++ ")*1.0/" ++ o.text, cls := max .float o.cls }
  else { q with text := "(" ++ q.text ++ ")/" ++ o.text, cls := max q.cls o.cls }

/-- Quotient of all operands and the problems met on the way. -/
def quotient (s : Site) (operator : String) (step : Quotient → Operand → Quotient)
    (q : Quotient) : List Operand → Quotient × List Effect
  | [] => (q, [])
  | o :: rest =>
      let (shape, problems) := quotientShape s operator q o
      let (final, effects) := quotient s operator step { step q o with shape } rest
      (final, problems ++ effects)

/-- A division that solves systems, element-wise between scalars. -/
def structural (operator : String) (step : Quotient → Operand → Quotient) (scalars : Rule) :
    Rule := fun s =>
  if !s.seed.datatype.isKnown then s.keep (between operator)
  else if allScalar s then scalars s
  else
    match s.operands with
    | [] => .error .malformedTree
    | first :: rest =>
        let (q, effects) := quotient s operator step (.ofOperand first) rest
        s.typed ⟨q.shape, q.cls⟩ (.fixed q.text) (checkNumeric "division" s ++ effects)

/-- `A / B` -/
def rightDiv : Rule := structural "/" solveRight elRightDiv

/-- `A \ B` -/
def leftDiv : Rule := structural "\\" solveLeft elLeftDiv

end MatrixScript.Rule
