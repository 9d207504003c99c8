/-
# `Rule.Operator` — sums, products, powers, comparisons, signs

An operator starts from the join of its operands' types, so a rule here only
says where that is not right: a matrix product composes the shapes, and a
transpose turns a vector around.  Arithmetic on text is reported.
-/
import MatrixScript.Rule

namespace MatrixScript.Rule

/-- Types of the operands, for messages. -/
def operandTypes (s : Site) : String :=
  "[" ++ Text.joined ", " (s.types.map (·.typeName)) ++ "]"

/-- Some operand is text. -/
def hasText (s : Site) : Bool := s.operands.any (·.cls == .text)

/-- Reports an operation on text. -/
def checkNumeric (operation : String) (s : Site) : List Effect :=
  if !s.seed.numeric && hasText s then
    [.report s.id .nonNumericOperand ("non-numerical " ++ operation ++ " " ++ operandTypes s)]
  else []

/-- Operands with the operator between them. -/
def between (operator : String) : Template := .join "" operator ""

/-! ## Sums and products -/

def add : Rule := fun s => s.keep (between "+") (checkNumeric "addition" s)

def sub : Rule := fun s => s.keep (between "-") (checkNumeric "subtraction" s)

/-- Reports an operand that does not conform. -/
def productMismatch (o : Operand) (m : ShapeMismatch) : Effect :=
  .report o.id .shapeMismatch
    ("multiplication shape mismatch, " ++ m.left.label ++ "*" ++ m.right.label)

/-- Shape of a product from left to right; an operand that does not conform is
reported and passed over. -/
def productShape (shape : Shape) : List Operand → Shape × List Effect
  | [] => (shape, [])
  | o :: rest =>
      match shape.mul o.shape with
      | .ok next => productShape next rest
      | .error m =>
          let (final, effects) := productShape shape rest
          (final, productMismatch o m :: effects)

/-- Matrix products. -/
def mul : Rule := fun s =>
  if !s.seed.datatype.isKnown then s.keep (between "*")
  else if !s.seed.numeric then
    s.keep (between "*")
      [.report s.id .nonNumericOperand ("non-numerical multiplication " ++ operandTypes s)]
  else
    match s.operands with
    | [] => .error .malformedTree
    | first :: rest =>
        let (shape, effects) := productShape first.shape rest
        s.typed (s.seed.datatype.withShape shape) (between "*") effects

/-- Element-wise products: Armadillo's Schur product, or a plain one of scalars. -/
def elMul : Rule := fun s =>
  s.keep
    (if s.seed.numeric && s.seed.datatype.shape == .scalar then between "*" else between "%")
    (checkNumeric "multiplication" s)

/-! ## Powers -/

/-- The function that raises to a power. -/
def powerFunction (s : Site) : String :=
  if !s.seed.numeric then "pow"
  else if s.seed.datatype.shape == .scalar then "std::pow"
  else "arma::pow"

/-- Powers, as calls nested to the left. -/
def power : Rule := fun s =>
  match s.texts with
  | [] => .error .malformedTree
  | first :: rest =>
      s.keep (.fixed
        (rest.foldl (fun base e => powerFunction s ++ "(" ++ base ++ ", " ++ e ++ ")") first))

/-! ## Comparisons and logic -/

/-- A comparison with an operator of the target language. -/
def comparison (operator : String) : Rule := fun s =>
  s.keep (between operator)
    (if hasText s then
      [.report s.id .nonNumericOperand
        ("comparison '" ++ operator ++ "' on non-numeric operands " ++ operandTypes s)]
    else [])

/-- A logical operator of the target language. -/
def logical (operator : String) : Rule := fun s => s.keep (between operator)

/-! ## One operand -/

def neg : Rule := fun s => s.keep (.join "-(" "" ")")

/-- Truth of a number is a comparison with zero. -/
def negation (typing : Typing) : Rule := fun s =>
  s.withTyping typing (.format (if typing.numeric then "(%(0)s == 0)" else "not(%(0)s)"))

def not : Rule := fun s => negation s.seed s

/-- The type after a transpose: of the node's class, in the shape of the operand turned around. -/
def turned (typing : Typing) (s : Site) : Except Error Datatype :=
  match s.operands with
  | [] => .error .malformedTree
  | o :: _ => .ok (typing.datatype.withShape o.shape.transposed)

/-- Plain transpose of an operand with a typing. -/
def transposed (typing : Typing) : Rule := fun s =>
  if !typing.numeric then s.withTyping typing (.format "arma::strans(%(0)s)")
  else do s.typed (← turned typing s) (.join "arma::strans(" "" ")")

def transpose : Rule := fun s => transposed s.seed s

/-- Conjugate transpose of an operand with a typing: of real data the plain one. -/
def conjugated (typing : Typing) : Rule := fun s =>
  if !typing.numeric then s.withTyping typing (.join "arma::trans(" "" ")")
  else do
    let d ← turned typing s
    s.typed d
      (if d.cls == .complex then .join "arma::trans(" "" ")" else .join "arma::strans(" "" ")")

def ctranspose : Rule := fun s => conjugated s.seed s

def paren : Rule := fun s => s.keep (.format "(%(0)s)")

end MatrixScript.Rule
