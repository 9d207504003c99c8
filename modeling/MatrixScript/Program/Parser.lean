/-
# `Program.Parser` — reading scripts

Statements, function definitions and whole programs.  A function's body ends
at `end`, at the next `function` or with the text; everything else ends with
the text.  `Program.parse` reads a source text.
-/
import MatrixScript.Program.ExprParser
import MatrixScript.Token.Lexer

namespace MatrixScript

namespace Parser

/-- Names that open statements of control flow, which scripts may not have. -/
def controlFlow : List String :=
  ["if", "elseif", "else", "for", "while", "switch", "case", "otherwise", "try"]

/-! ## What kind of statement is ahead -/

/-- The bracket that closes the outermost of `depth` open ones has an equals
sign right behind it on the same line. -/
def closesBeforeEquals : Nat → List Token → Bool
  | _, [] => false
  | depth, t :: rest =>
      match t with
      | .leftBracket | .leftParen | .leftBrace => closesBeforeEquals (depth + 1) rest
      | .rightBracket | .rightParen | .rightBrace =>
          if depth ≤ 1 then rest.head? == some .equals else closesBeforeEquals (depth - 1) rest
      | .newline => false
      | _ => closesBeforeEquals depth rest

/-- Several destinations in brackets are ahead. -/
def isMultiAssignment (c : Cursor) : Bool := closesBeforeEquals 0 (c.rest.map (·.token))

/-- A name with words behind it is ahead: the second token is a name with a
blank before it, and neither an assignment nor a call follows. -/
def isCommand (c : Cursor) : Bool :=
  (match c.peekAt? 1 with
    | some (.ident _) => true
    | _ => false)
  && c.spacedAt 1
  && (match c.peekAt? 2 with
    | some .equals | some .leftParen => false
    | _ => true)

/-! ## Statements -/

/-- Destinations up to the closing bracket, which stays ahead. -/
def targetsFrom : Nat → Parser (List Target)
  | 0 => fail "Expected expression"
  | n + 1 => do
      if ← isAt .rightBracket then return []
      if ← isAt .comma then
        advance
        targetsFrom n
      else
        match (← operand).target? with
        | some t => return t :: (← targetsFrom n)
        | none => fail "Invalid assignment target"

/-- An assignment to several destinations. -/
def multiAssignment : Parser Statement := do
  expect .leftBracket
  enter .concat
  let targets ← targetsFrom ((← remaining) + 1)
  leave
  expect .rightBracket
  expect .equals
  return .assigns targets (← expr)

/-- Words of a command: names and integers. -/
def wordsFrom : Nat → Parser (List String)
  | 0 => return []
  | n + 1 => do
      match ← peek? with
      | some (.ident w) | some (.int w) =>
          advance
          return w :: (← wordsFrom n)
      | _ => return []

/-- A name with words behind it. -/
def command : Parser Statement := do
  let name ← ident
  return .command name (← wordsFrom (← remaining))

/-- An expression, or an assignment to the destination that it names. -/
def simpleStatement : Parser Statement := do
  let e ← expr
  if ← isAt .equals then
    match e.target? with
    | some t =>
        advance
        return .assign t (← expr)
    | none => fail "Invalid assignment target"
  else return .expression e

/-- A statement other than a function definition. -/
def statement : Parser Statement := do
  let c ← get
  match c.peek? with
  | some .ret =>
      advance
      return .ret
  | some .brk =>
      advance
      return .brk
  | some .leftBracket => if isMultiAssignment c then multiAssignment else simpleStatement
  | some (.ident name) =>
      if controlFlow.contains name then fail ("Control flow '" ++ name ++ "' is not supported")
      else if isCommand c then command
      else simpleStatement
  | _ => simpleStatement

/-- Statements with separators between them, up to a token that `stops` holds of. -/
def sequenceFrom {α : Type} (stops : Token → Bool) (item : Parser α) : Nat → Parser (List α)
  | 0 => return []
  | n + 1 => do
      modify Cursor.skipSeparators
      match ← peek? with
      | none => return []
      | some t =>
          if stops t then return []
          else if t = .last then fail "Unexpected 'end'"
          else
            let s ← item
            match ← peek? with
            | none => return [s]
            | some t =>
                if t.isSeparator || stops t then return s :: (← sequenceFrom stops item n)
                else fail "Expected end of statement"

/-- Statements up to a stopping token or the end of the text. -/
def sequence {α : Type} (stops : Token → Bool) (item : Parser α) : Parser (List α) := do
  sequenceFrom stops item ((← remaining) + 1)

/-! ## Functions and programs -/

/-- Names up to the bracket `close`, which is passed; commas are optional. -/
def namesFrom (close : Token) : Nat → Parser (List String)
  | 0 => fail "Expected identifier"
  | n + 1 => do
      if ← isAt close then
        advance
        return []
      else if ← isAt .comma then
        advance
        namesFrom close n
      else
        let x ← ident
        return x :: (← namesFrom close n)

/-- Names in brackets whose opening one is ahead. -/
def names (close : Token) : Parser (List String) := do
  advance
  namesFrom close ((← remaining) + 1)

/-- Outputs of a function with the equals sign behind them, if it has any. -/
def outputs : Parser (List String) := do
  if ← isAt .leftBracket then
    let xs ← names .rightBracket
    expect .equals
    return xs
  else if (← get).peekAt? 1 == some .equals then
    let x ← ident
    advance
    return [x]
  else return []

/-- Parameters of a function, if it has a list of them. -/
def params : Parser (List String) := do
  if ← isAt .leftParen then names .rightParen else return []

/-- A function's body stops here. -/
def stopsBody : Token → Bool
  | .last | .function => true
  | _ => false

/-- A function definition. -/
def function : Parser Function := do
  expect .function
  let outputs ← outputs
  let name ← ident
  let params ← params
  let body ← sequence stopsBody statement
  if ← isAt .last then advance
  return ⟨name, outputs, params, body⟩

/-- What stands at the top level. -/
def item : Parser Item := do
  if ← isAt .function then return .function (← function)
  else return .statement (← statement)

/-- A whole program. -/
def program : Parser Program := sequence (fun _ => false) item

end Parser

/-- Program of a list of tokens. -/
def Program.ofTokens (tokens : List Spanned) : Except Error Program :=
  match Parser.program (Cursor.start tokens) with
  | .ok (p, _) => .ok p
  | .error e => .error e

/-- Program of a source text. -/
def Program.parse (source : String) : Except Error Program :=
  match Token.tokenize source with
  | .ok tokens => Program.ofTokens tokens
  | .error e => .error e

end MatrixScript
