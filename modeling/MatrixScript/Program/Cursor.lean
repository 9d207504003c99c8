/-
# `Program.Cursor` — a place in a list of tokens

The parser's state is what is left of the tokens and the brackets that are
open, innermost first: inside `[ ]` and `{ }` a blank separates elements,
inside `( )` it means nothing.  `Parser` threads that state and stops at the
first error, whose message names the token it stands at.
-/
import MatrixScript.Error
import MatrixScript.Token

namespace MatrixScript

/-- How blanks read inside an open bracket. -/
inductive Group where
  /-- blanks separate elements -/
  | concat
  /-- blanks mean nothing -/
  | paren
deriving DecidableEq, Repr

/-- The tokens ahead and the brackets around them, innermost first. -/
structure Cursor where
  rest : List Spanned
  groups : List Group
deriving DecidableEq, Repr

namespace Cursor

/-- At the first token of a text, outside of all brackets. -/
def start (tokens : List Spanned) : Cursor := ⟨tokens, []⟩

/-- The token ahead. -/
def peek? (c : Cursor) : Option Token := c.rest.head?.map (·.token)

/-- The token `k` places further on. -/
def peekAt? (c : Cursor) (k : Nat) : Option Token := c.rest[k]?.map (·.token)

/-- Something skipped stands before the token `k` places further on. -/
def spacedAt (c : Cursor) (k : Nat) : Bool := c.rest[k]?.any (·.spaced)

/-- The innermost open bracket separates elements by blanks. -/
def inConcat (c : Cursor) : Bool := c.groups.head? == some .concat

/-- What stands at the cursor, for messages. -/
def found (c : Cursor) : String :=
  match c.rest with
  | t :: _ => "'" ++ t.token.text ++ "' at position " ++ toString t.start
  | [] => "end of input"

/-- The cursor behind the token ahead. -/
def step (c : Cursor) : Cursor := { c with rest := c.rest.tail }

/-- The cursor behind the separators ahead. -/
def skipSeparators (c : Cursor) : Cursor :=
  { c with rest := c.rest.dropWhile (·.token.isSeparator) }

end Cursor

/-- Reads a value and moves the cursor, or fails. -/
abbrev Parser := StateT Cursor (Except Error)

namespace Parser

/-- Fails with a message about the token ahead. -/
def fail {α : Type} (reason : String) : Parser α :=
  fun c => .error (.parser (reason ++ ", found " ++ c.found))

/-- The token ahead. -/
def peek? : Parser (Option Token) := do return (← get).peek?

/-- The token ahead is `t`. -/
def isAt (t : Token) : Parser Bool := do return (← get).peek? == some t

/-- Passes the token ahead. -/
def advance : Parser PUnit := modify Cursor.step

/-- Passes the token `t`, which must be ahead. -/
def expect (t : Token) : Parser PUnit := do
  if ← isAt t then advance else fail ("Expected '" ++ t.text ++ "'")

/-- Reads an identifier. -/
def ident : Parser String := do
  match ← peek? with
  | some (.ident x) =>
      advance
      return x
  | _ => fail "Expected identifier"

/-- Opens a bracket. -/
def enter (g : Group) : Parser PUnit := modify fun c => { c with groups := g :: c.groups }

/-- Closes the innermost bracket. -/
def leave : Parser PUnit := modify fun c => { c with groups := c.groups.tail }

/-- Tokens ahead, which bound every loop of the parser. -/
def remaining : Parser Nat := do return (← get).rest.length

end Parser

end MatrixScript
