/-
# `Proofs.Cpp.Grouping` — how C++ groups a text by its operators

An expression is read character by character (`Scan`).  Names, numbers, literals and
delimited groups are operands; members, calls and subscripts go on behind an operand,
signs stand in front of one, and operators between two.  Tokens are as long as they can
be, so `--` is not two signs and a sign behind the `e` of a number belongs to the number.
What stands inside of delimiters or of a literal is passed over: it is read for itself.

The operands are then grouped (`Grouping`).  The tighter one of two operators takes the
operand between them, and the left one if they are on the same level; signs are tighter
than every operator, and what goes on behind an operand is tighter than its signs.

A name of a library, such as `arma::eye`, is no operand without arguments, and an angle
bracket behind it opens the types of a template.
-/
import MatrixScript.Proofs.Cpp.Call

namespace MatrixScript.Cpp

/-! ## Operators -/

/-- Operators between two operands, from the loosest to the tightest. -/
inductive Operator where
  | orOr
  | andAnd
  | or
  | and
  | eq
  | ne
  | lt
  | gt
  | le
  | ge
  | add
  | sub
  | mul
  | div
  | mod
deriving DecidableEq, Repr

namespace Operator

/-- How tight the operator is. -/
def level : Operator → Nat
  | orOr => 0
  | andAnd => 1
  | or => 2
  | and => 3
  | eq | ne => 4
  | lt | gt | le | ge => 5
  | add | sub => 6
  | mul | div | mod => 7

/-- Characters of the operator. -/
def symbol : Operator → String
  | orOr => "||"
  | andAnd => "&&"
  | or => "|"
  | and => "&"
  | eq => "=="
  | ne => "!="
  | lt => "<"
  | gt => ">"
  | le => "<="
  | ge => ">="
  | add => "+"
  | sub => "-"
  | mul => "*"
  | div => "/"
  | mod => "%"

theorem level_lt (op : Operator) : op.level < 8 := by cases op <;> decide

/-- The operator of two characters, if it is one. -/
def double? : Char → Char → Option Operator
  | '|', '|' => some orOr
  | '&', '&' => some andAnd
  | '=', '=' => some eq
  | '!', '=' => some ne
  | '<', '=' => some le
  | '>', '=' => some ge
  | _, _ => none

/-- The operator of one character, if it is one. -/
def single? : Char → Option Operator
  | '|' => some or
  | '&' => some and
  | '<' => some lt
  | '>' => some gt
  | '+' => some add
  | '-' => some sub
  | '*' => some mul
  | '/' => some div
  | '%' => some mod
  | _ => none

end Operator

/-- An operator starts with this character. -/
def isMark (c : Char) : Bool := (Operator.single? c).isSome || c == '=' || c == '!'

/-- The two characters make one token, which is no operator between operands. -/
def fuses (c d : Char) : Bool := c == d && (c == '+' || c == '-')

/-! ## Groupings -/

/-- An expression whose operands are kept as they are spelled. -/
inductive Grouping where
  /-- what the operand begins with, and what goes on behind that -/
  | operand (parts : List String)
  | sign (c : Char) (e : Grouping)
  | binary (op : Operator) (left right : Grouping)
deriving DecidableEq, Repr

namespace Grouping

/-- How tight the outermost operator is: 8 for a sign, 9 for an operand. -/
def level : Grouping → Nat
  | operand _ => 9
  | sign _ _ => 8
  | binary op _ _ => op.level

/-- One more operator and the operand behind it.  It takes the right end of what stands in
front, down to the first operator that is not looser. -/
def attach : Grouping → Operator → Grouping → Grouping
  | binary o left right, op, x =>
      if o.level < op.level then binary o left (right.attach op x)
      else binary op (binary o left right) x
  | e, op, x => binary op e x

end Grouping

/-! ## Scanning -/

/-- An operand that is being read. -/
structure Factor where
  signs : List Char := []
  /-- what it consists of; the last part first, and of each part the last character first -/
  parts : List (List Char) := []
deriving DecidableEq, Repr

namespace Factor

/-- One more character of the last part. -/
def put (f : Factor) (c : Char) : Factor :=
  match f.parts with
  | [] => f
  | p :: ps => { f with parts := (c :: p) :: ps }

/-- One more part. -/
def begin (f : Factor) (c : Char) : Factor := { f with parts := [c] :: f.parts }

/-- The operand with its signs. -/
def grouping (f : Factor) : Grouping :=
  f.signs.foldr .sign (.operand (f.parts.reverse.map fun p => String.ofList p.reverse))

/-- The last part is the name of something in a library. -/
def isScoped (f : Factor) : Bool :=
  f.parts.head?.any fun p =>
    ["arma::", "m2cpp::", "std::"].any fun scope => scope.toList.isPrefixOf p.reverse

/-- A sign would go on with the number that is read last. -/
def takesSign (f : Factor) : Bool :=
  f.parts.head?.any fun p => p.head? == some 'e' || p.head? == some 'E'

end Factor

/-- What is being read. -/
inductive Stage where
  /-- an operand or a sign is to come -/
  | ahead
  /-- right behind a sign -/
  | sign (c : Char)
  | name
  | number
  /-- the types of a template -/
  | types
  | member
  /-- within delimiters or a literal -/
  | inside (spot : Spot)
  /-- an operand is complete -/
  | behind
  /-- behind an operand and the first character of an operator -/
  | mark (c : Char)
deriving DecidableEq

/-- Where reading has come to. -/
structure Scan where
  /-- operands with the operator behind each of them, the last one first -/
  done : List (Factor × Operator) := []
  factor : Factor := {}
  stage : Stage := .ahead
deriving DecidableEq

namespace Scan

/-- An operand can end here. -/
def complete (s : Scan) : Bool :=
  match s.stage with
  | .name => !s.factor.isScoped
  | .number => !s.factor.takesSign
  | .member => s.factor.parts.head? != some ['.']
  | .behind => true
  | _ => false

/-- One more character of the last part. -/
def put (s : Scan) (c : Char) : Scan := { s with factor := s.factor.put c }

/-- A part that begins with `c`. -/
def begin (s : Scan) (c : Char) (stage : Stage) : Scan :=
  { s with factor := s.factor.begin c, stage }

/-- The operand is done, and an operator stands behind it. -/
def close (s : Scan) (op : Operator) : Scan := { done := (s.factor, op) :: s.done }

/-- A character of an operand that is to come, or of the signs in front. -/
def ahead (s : Scan) (c : Char) : Option Scan :=
  if c = ' ' then some { s with stage := .ahead }
  else if c = '-' ∨ c = '+' ∨ c = '!' then
    some { s with factor := { s.factor with signs := s.factor.signs ++ [c] }, stage := .sign c }
  else if Token.isWordStart c then some (s.begin c .name)
  else if c.isDigit ∨ c = '.' then some (s.begin c .number)
  else if (closer? c).isSome ∨ c = '\x22' then
    (Spot.start.step c).map fun spot => s.begin c (.inside spot)
  else none

/-- A character behind an operand. -/
def behind (s : Scan) (c : Char) : Option Scan :=
  if c = '(' ∨ c = '[' then (Spot.start.step c).map fun spot => s.begin c (.inside spot)
  else if c = '.' then some (s.begin c .member)
  else if s.complete then
    if c = ' ' then some { s with stage := .behind }
    else if isMark c then some { s with stage := .mark c }
    else none
  else none

/-- A character of a name, number or member, or behind it. -/
def more (s : Scan) (here : Bool) (c : Char) : Option Scan :=
  if here then some (s.put c) else s.behind c

/-- A character behind the first one of an operator, which may be longer. -/
def marked (s : Scan) (d c : Char) : Option Scan :=
  match Operator.double? d c with
  | some op => some (s.close op)
  | none =>
      match Operator.single? d with
      | some op => if fuses d c then none else (s.close op).ahead c
      | none => none

/-- Reads a character. -/
def step (s : Scan) (c : Char) : Option Scan :=
  match s.stage with
  | .ahead => s.ahead c
  | .sign d => if fuses d c then none else s.ahead c
  | .name =>
      if c = '<' ∧ s.factor.isScoped then some { s.put c with stage := .types }
      else s.more (Token.isWordRest c || c == ':') c
  | .number =>
      s.more (Token.isWordRest c || c == '.' || (s.factor.takesSign && (c == '+' || c == '-'))) c
  | .types =>
      if c = '>' then some { s.put c with stage := .behind }
      else if Token.isWordRest c then some (s.put c) else none
  | .member => s.more (Token.isWordRest c) c
  | .inside spot => (spot.step c).map fun spot =>
      { s.put c with stage := if spot = .start then .behind else .inside spot }
  | .behind => s.behind c
  | .mark d => s.marked d c

/-- Reads characters. -/
def run (s : Scan) : List Char → Option Scan
  | [] => some s
  | c :: cs => (s.step c).bind fun s => s.run cs

/-- An operand behind operands with operators behind them. -/
def joined (x : Grouping) : Option (Grouping × Operator) → Grouping
  | none => x
  | some (e, op) => e.attach op x

/-- The grouping of operands with operators behind them, but for the last operator. -/
def closed : List (Factor × Operator) → Option (Grouping × Operator)
  | [] => none
  | (f, op) :: rest => some (joined f.grouping (closed rest), op)

/-- The grouping of what is read. -/
def grouping (s : Scan) : Grouping := joined s.factor.grouping (closed s.done)

end Scan

/-- The grouping of an expression. -/
def group? (text : String) : Option Grouping :=
  match Scan.run {} text.toList with
  | some s => if s.complete then some s.grouping else none
  | none => none

example : group? "a+b*c-d" = some (.binary .sub
    (.binary .add (.operand ["a"]) (.binary .mul (.operand ["b"]) (.operand ["c"])))
    (.operand ["d"])) := by decide

example : group? "-A.t()(0) == arma::eye<mat>(n, m)" = some (.binary .eq
    (.sign '-' (.operand ["A", ".t", "()", "(0)"]))
    (.operand ["arma::eye<mat>", "(n, m)"])) := by decide

example : group? "a--b" = none ∧ group? "a- -b" = some (.binary .sub (.operand ["a"])
    (.sign '-' (.operand ["b"]))) ∧ group? "1e-5" = some (.operand ["1e-5"]) := by decide

end MatrixScript.Cpp
