/-
# `Program.ExprParser` — reading expressions

One small parser per level of precedence, loosest last, each of them a
function of the parser for what stands inside brackets.  `exprAt` ties the
knot: its number bounds the nesting of brackets, and `expr` starts it with
the number of tokens ahead, which no nesting can exceed.  Loops are bounded
in the same way.
-/
import MatrixScript.Program
import MatrixScript.Program.Cursor

namespace MatrixScript.Parser

/-! ## Operators by level -/

def orOrOp : Token → Option BinaryOp
  | .pipePipe => some (.chain .orOr)
  | _ => none

def andAndOp : Token → Option BinaryOp
  | .ampAmp => some (.chain .andAnd)
  | _ => none

def orOp : Token → Option BinaryOp
  | .pipe => some (.chain .or)
  | _ => none

def andOp : Token → Option BinaryOp
  | .amp => some (.chain .and)
  | _ => none

def comparisonOp : Token → Option BinaryOp
  | .eqEq => some (.compare .eq)
  | .notEq => some (.compare .ne)
  | .less => some (.compare .lt)
  | .lessEq => some (.compare .le)
  | .greater => some (.compare .gt)
  | .greaterEq => some (.compare .ge)
  | _ => none

def additiveOp : Token → Option BinaryOp
  | .plus => some (.chain .add)
  | .minus => some (.chain .sub)
  | _ => none

def multiplicativeOp : Token → Option BinaryOp
  | .star => some (.chain .mul)
  | .slash => some (.chain .rightDiv)
  | .backslash => some (.chain .leftDiv)
  | .dotStar => some (.chain .elMul)
  | .dotSlash => some (.chain .elRightDiv)
  | .dotBackslash => some (.chain .elLeftDiv)
  | _ => none

def powerOp : Token → Option BinaryOp
  | .caret => some (.chain .pow)
  | .dotCaret => some (.chain .elPow)
  | _ => none

/-- A sign with a blank before it and none behind it starts a new element
where blanks separate elements: `[a -b]` has two and `[a - b]` has one. -/
def signStartsElement (c : Cursor) : Bool :=
  (c.peek? == some .plus || c.peek? == some .minus)
    && c.inConcat && c.spacedAt 0 && !c.spacedAt 1

/-- The operator of a level ahead. -/
def operatorAhead? (operator : Token → Option BinaryOp) (c : Cursor) : Option BinaryOp :=
  if signStartsElement c then none else c.peek?.bind operator

/-- Operators of a level, each with an operand behind it, applied to `left`. -/
def chainFrom (operand : Parser Expr) (operator : Token → Option BinaryOp) :
    Nat → Expr → Parser Expr
  | 0, left => pure left
  | n + 1, left => do
      match operatorAhead? operator (← get) with
      | none => pure left
      | some op =>
          advance
          let right ← operand
          chainFrom operand operator n (.binary op left right)

/-- A level of left-associative operators. -/
def chainOf (first operand : Parser Expr) (operator : Token → Option BinaryOp) : Parser Expr := do
  let left ← first
  chainFrom operand operator (← remaining) left

/-! ## Brackets -/

/-- A colon that is a whole argument. -/
def wholeAxisAhead (c : Cursor) : Bool :=
  c.peek? == some .colon &&
    match c.peekAt? 1 with
    | some .comma | some .rightParen | some .rightBrace => true
    | _ => false

/-- One argument of a subscript. -/
def argument (inner : Parser Expr) : Parser Expr := do
  if wholeAxisAhead (← get) then
    advance
    return .all
  else inner

/-- Arguments up to the bracket `close`, which stays ahead. -/
def argumentsFrom (inner : Parser Expr) (close : Token) : Nat → Parser (List Expr)
  | 0 => fail ("Expected '" ++ close.text ++ "'")
  | n + 1 => do
      if ← isAt close then return []
      if (← peek?).isNone then fail ("Expected '" ++ close.text ++ "'")
      let e ← argument inner
      if ← isAt .comma then
        advance
        return e :: (← argumentsFrom inner close n)
      else if ← isAt close then return [e]
      else fail "Expected ',' between arguments"

/-- Arguments of a subscript whose opening bracket is ahead. -/
def arguments (inner : Parser Expr) (close : Token) : Parser (List Expr) := do
  advance
  enter .paren
  let es ← argumentsFrom inner close ((← remaining) + 1)
  leave
  advance
  return es

/-- `rows` with `row` behind them, unless it is empty. -/
def withRow (rows : List (List Expr)) (row : List Expr) : List (List Expr) :=
  if row.isEmpty then rows else rows ++ [row]

/-- Rows of a literal up to the bracket `close`, which stays ahead; `row` is
the open one. -/
def rowsFrom (inner : Parser Expr) (close : Token) :
    Nat → List (List Expr) → List Expr → Parser (List (List Expr))
  | 0, _, _ => fail ("Expected '" ++ close.text ++ "'")
  | n + 1, rows, row => do
      match ← peek? with
      | none => fail ("Expected '" ++ close.text ++ "'")
      | some t =>
          if t = close then return withRow rows row
          else if t = .semicolon ∨ t = .newline then
            advance
            rowsFrom inner close n (withRow rows row) []
          else if t = .comma then
            advance
            rowsFrom inner close n rows row
          else
            let e ← inner
            rowsFrom inner close n rows (row ++ [e])

/-- Rows of a literal whose opening bracket is ahead. -/
def rows (inner : Parser Expr) (close : Token) : Parser (List (List Expr)) := do
  advance
  enter .concat
  let found ← rowsFrom inner close ((← remaining) + 1) [] []
  leave
  advance
  return found

/-- An expression in parentheses whose opening one is ahead. -/
def parenthesised (inner : Parser Expr) : Parser Expr := do
  advance
  enter .paren
  let e ← inner
  leave
  expect .rightParen
  return .paren e

/-! ## Levels, tightest first -/

/-- Passes the token ahead and answers `e`. -/
def passing (e : Expr) : Parser Expr := do
  advance
  return e

/-- Literals, names and brackets. -/
def primary (inner : Parser Expr) : Parser Expr := do
  match ← peek? with
  | none => fail "Expected expression"
  | some (.int s) => passing (.literal .int s)
  | some (.float s) => passing (.literal .float s)
  | some (.imag s) => passing (.literal .imag s)
  | some (.str s) => passing (.literal .str s)
  | some (.ident x) => passing (.name x)
  | some .last => passing .last
  | some .leftParen => parenthesised inner
  | some .leftBracket => return .matrix (← rows inner .rightBracket)
  | some .leftBrace => return .cell (← rows inner .rightBrace).flatten
  | some t => fail ("Unexpected token '" ++ t.text ++ "'")

/-- What can stand right behind an operand. -/
inductive Suffix where
  | call (f : String)
  | cellCall (f : String)
  | transpose (op : TransposeOp)
  | nothing

/-- The suffix of `e` at the cursor: only a bare name takes a subscript, and
where blanks separate elements none may stand before it. -/
def suffixAhead (c : Cursor) (e : Expr) : Suffix :=
  match c.peek?, e with
  | some .leftParen, .name f => if c.inConcat && c.spacedAt 0 then .nothing else .call f
  | some .leftBrace, .name f => if c.inConcat && c.spacedAt 0 then .nothing else .cellCall f
  | some .apostrophe, _ => .transpose .conjugate
  | some .dotApostrophe, _ => .transpose .plain
  | _, _ => .nothing

/-- Suffixes behind `e`. -/
def suffixesFrom (inner : Parser Expr) : Nat → Expr → Parser Expr
  | 0, e => pure e
  | n + 1, e => do
      match suffixAhead (← get) e with
      | .nothing => return e
      | .transpose op =>
          advance
          suffixesFrom inner n (.transpose op e)
      | .call f => suffixesFrom inner n (.call f (← arguments inner .rightParen))
      | .cellCall f => suffixesFrom inner n (.cellCall f (← arguments inner .rightBrace))

/-- An operand with its subscripts and transposes. -/
def suffixed (inner : Parser Expr) : Parser Expr := do
  let e ← primary inner
  suffixesFrom inner (← remaining) e

/-- An operand behind a power sign may carry one minus of its own. -/
def exponent (inner : Parser Expr) : Parser Expr := do
  if ← isAt .minus then
    advance
    return .sign .neg (← suffixed inner)
  else suffixed inner

/-- Powers. -/
def power (inner : Parser Expr) : Parser Expr :=
  chainOf (suffixed inner) (exponent inner) powerOp

/-- Signs in front of an operand. -/
def signedFrom (operand : Parser Expr) : Nat → Parser Expr
  | 0 => operand
  | n + 1 => do
      match ← peek? with
      | some .minus =>
          advance
          return .sign .neg (← signedFrom operand n)
      | some .tilde =>
          advance
          return .sign .not (← signedFrom operand n)
      | some .plus =>
          advance
          signedFrom operand n
      | _ => operand

/-- Operands with signs. -/
def signed (inner : Parser Expr) : Parser Expr := do
  signedFrom (power inner) (← remaining)

/-- Products and quotients. -/
def multiplicative (inner : Parser Expr) : Parser Expr :=
  chainOf (signed inner) (signed inner) multiplicativeOp

/-- Sums and differences. -/
def additive (inner : Parser Expr) : Parser Expr :=
  chainOf (multiplicative inner) (multiplicative inner) additiveOp

/-- Ranges of two or three bounds. -/
def range (inner : Parser Expr) : Parser Expr := do
  let start ← additive inner
  if ← isAt .colon then
    advance
    let second ← additive inner
    if ← isAt .colon then
      advance
      return .stepped start second (← additive inner)
    else return .range start second
  else return start

/-- Comparisons. -/
def comparison (inner : Parser Expr) : Parser Expr :=
  chainOf (range inner) (range inner) comparisonOp

/-- Element-wise conjunctions. -/
def conjunction (inner : Parser Expr) : Parser Expr :=
  chainOf (comparison inner) (comparison inner) andOp

/-- Element-wise disjunctions. -/
def disjunction (inner : Parser Expr) : Parser Expr :=
  chainOf (conjunction inner) (conjunction inner) orOp

/-- Short-circuit conjunctions. -/
def shortConjunction (inner : Parser Expr) : Parser Expr :=
  chainOf (disjunction inner) (disjunction inner) andAndOp

/-- Short-circuit disjunctions, the loosest level. -/
def shortDisjunction (inner : Parser Expr) : Parser Expr :=
  chainOf (shortConjunction inner) (shortConjunction inner) orOrOp

/-! ## The knot -/

/-- Expressions whose brackets nest less than `n` deep. -/
def exprAt : Nat → Parser Expr
  | 0 => fail "Expected expression"
  | n + 1 => shortDisjunction (exprAt n)

/-- Expressions: every open bracket takes a token, so the tokens ahead bound the nesting. -/
def expr : Parser Expr := do exprAt ((← remaining) + 1)

/-- Operands with their subscripts and transposes. -/
def operand : Parser Expr := do suffixed (exprAt ((← remaining) + 1))

end MatrixScript.Parser
