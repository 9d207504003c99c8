/-
# `Token.Lexer` — from a source text to its tokens

`lexemeAt` says what the head of a text is: something skipped (a blank, a
comment to the end of the line, a continuation with its newline), a token,
or nothing that a script may hold.  The longest token wins.  `tokenize`
walks over the text with it and keeps byte positions; whether a quote is a
transpose depends on the token right before it.
-/
import MatrixScript.Error
import MatrixScript.Text.Lines
import MatrixScript.Token
import MatrixScript.Token.Number

namespace MatrixScript.Token

/-- What the head of a text is; `more` counts the characters after the first. -/
inductive Lexeme where
  | gap (more : Nat)
  | token (t : Token) (more : Nat)
  /-- no token starts here -/
  | invalid (more : Nat)
  /-- a string opens and is not closed on its line -/
  | unterminated
deriving DecidableEq, Repr

/-- Characters up to the end of the line. -/
def restOfLine (cs : List Char) : List Char := cs.takeWhile (· != '\n')

/-- Blanks inside a line. -/
def isGap (c : Char) : Bool := c == ' ' || c == '\t' || c == '\r'

/-- First character of a word. -/
def isWordStart (c : Char) : Bool := c.isAlpha || c == '_'

/-- Later character of a word. -/
def isWordRest (c : Char) : Bool := c.isAlphanum || c == '_'

/-! ## Strings -/

/-- Contents of a string after its opening quote, and the characters up to
and with the closing one; a doubled quote stands for one. -/
def quotedAt? (quote : Char) : List Char → Option (List Char × Nat)
  | [] => none
  | [c] => if c = quote then some ([], 1) else none
  | c :: d :: rest =>
      if c = quote then
        if d = quote then (quotedAt? quote rest).map fun (text, n) => (quote :: text, n + 2)
        else some ([], 1)
      else if c = '\n' then none
      else (quotedAt? quote (d :: rest)).map fun (text, n) => (c :: text, n + 1)

/-- A string in double quotes; one without its end is invalid up to the end of the line. -/
def doubleQuotedAt (rest : List Char) : Lexeme :=
  match quotedAt? '\x22' rest with
  | some (text, n) => .token (.str (String.ofList text)) n
  | none => .invalid (restOfLine rest).length

/-- A quote: a transpose right after a value, else the start of a string. -/
def quoteAt (afterValue : Bool) (rest : List Char) : Lexeme :=
  if afterValue then .token .apostrophe 0
  else
    match quotedAt? '\x27' rest with
    | some (text, n) => .token (.str (String.ofList text)) n
    | none => .unterminated

/-! ## Words, numbers and symbols -/

/-- A keyword or an identifier. -/
def wordAt (c : Char) (rest : List Char) : Lexeme :=
  let more := rest.takeWhile isWordRest
  .token (ofWord (String.ofList (c :: more))) more.length

/-- A number literal of a kind. -/
def ofNumber : NumberKind → String → Token
  | .int, s => .int s
  | .float, s => .float s
  | .imag, s => .imag s

/-- Two dots after a dot: the line goes on behind the next newline. -/
def continuationAt? : List Char → Option Nat
  | '.' :: '.' :: rest =>
      let line := (restOfLine rest).length
      some (2 + line + (if line < rest.length then 1 else 0))
  | _ => none

/-- An operator that starts with a dot. -/
def dottedAt : List Char → Lexeme
  | '*' :: _ => .token .dotStar 1
  | '/' :: _ => .token .dotSlash 1
  | '\\' :: _ => .token .dotBackslash 1
  | '^' :: _ => .token .dotCaret 1
  | '\x27' :: _ => .token .dotApostrophe 1
  | rest =>
      match continuationAt? rest with
      | some more => .gap more
      | none => .invalid 0

/-- `double` if `d` follows, else `single`. -/
def pairOr (d : Char) (double single : Token) : List Char → Lexeme
  | [] => .token single 0
  | c :: _ => if c = d then .token double 1 else .token single 0

/-- `!` is inequality only with `=` behind it, and negation elsewhere; so is `~`. -/
def symbolAt (c : Char) (rest : List Char) : Lexeme :=
  match c with
  | '+' => .token .plus 0
  | '-' => .token .minus 0
  | '*' => .token .star 0
  | '/' => .token .slash 0
  | '\\' => .token .backslash 0
  | '^' => .token .caret 0
  | '=' => pairOr '=' .eqEq .equals rest
  | '~' => pairOr '=' .notEq .tilde rest
  | '!' => pairOr '=' .notEq .tilde rest
  | '<' => pairOr '=' .lessEq .less rest
  | '>' => pairOr '=' .greaterEq .greater rest
  | '&' => pairOr '&' .ampAmp .amp rest
  | '|' => pairOr '|' .pipePipe .pipe rest
  | '(' => .token .leftParen 0
  | ')' => .token .rightParen 0
  | '[' => .token .leftBracket 0
  | ']' => .token .rightBracket 0
  | '\x7b' => .token .leftBrace 0
  | '\x7d' => .token .rightBrace 0
  | ',' => .token .comma 0
  | ';' => .token .semicolon 0
  | ':' => .token .colon 0
  | '\n' => .token .newline 0
  | _ => .invalid 0

/-- What the text `c :: rest` starts with. -/
def lexemeAt (afterValue : Bool) (c : Char) (rest : List Char) : Lexeme :=
  if isGap c then .gap 0
  else if c = '%' then .gap (restOfLine rest).length
  else if isWordStart c then wordAt c rest
  else if c = '\x22' then doubleQuotedAt rest
  else if c = '\x27' then quoteAt afterValue rest
  else
    match numberAt? (c :: rest) with
    | some (kind, n) => .token (ofNumber kind (String.ofList ((c :: rest).take n))) (n - 1)
    | none => if c = '.' then dottedAt rest else symbolAt c rest

/-! ## The whole text -/

/-- A quote at `position` is a transpose: the token before it ends a value right there. -/
def quoteTransposes (previous : Option Token) (previousEnd position : Nat) : Bool :=
  previous.any endsValue && previousEnd == position

/-- Tokens of the text `cs`, which starts at the byte `position`. -/
def tokensFrom (cs : List Char) (position previousEnd : Nat) (previous : Option Token) :
    Except Error (List Spanned) :=
  match cs with
  | [] => .ok []
  | c :: rest =>
      match lexemeAt (quoteTransposes previous previousEnd position) c rest with
      | .gap more =>
          tokensFrom (rest.drop more) (position + Text.occupied (c :: rest.take more))
            previousEnd previous
      | .token t more =>
          let stop := position + Text.occupied (c :: rest.take more)
          match tokensFrom (rest.drop more) stop stop (some t) with
          | .ok ts => .ok (⟨t, position, stop, previousEnd < position⟩ :: ts)
          | .error e => .error e
      | .invalid more =>
          .error (.lexer position
            ("unexpected input '" ++ String.ofList (c :: rest.take more) ++ "'"))
      | .unterminated => .error (.lexer position "unterminated string")
termination_by cs.length
decreasing_by all_goals simp only [List.length_drop, List.length_cons]; omega

/-- Tokens of a source text. -/
def tokenize (source : String) : Except Error (List Spanned) :=
  tokensFrom source.toList 0 0 none

end MatrixScript.Token
