/-
# `Token` — the words of a matrix script

The kinds of tokens, the text by which messages call them, and the one
property that the lexer needs: after a token that ends a value a quote is a
transpose, elsewhere it opens a string.
-/

namespace MatrixScript

/-- A word of a script; literals and identifiers carry their text, a string
its contents without the quotes. -/
inductive Token where
  | int (text : String)
  | float (text : String)
  | imag (text : String)
  | str (text : String)
  | ident (text : String)
  /-- the keyword that opens a function definition -/
  | function
  /-- the keyword that closes one, or the last index inside a subscript -/
  | last
  /-- the keyword that leaves a function -/
  | ret
  /-- the keyword that leaves a loop -/
  | brk
  | plus
  | minus
  | star
  | slash
  | backslash
  | caret
  | dotStar
  | dotSlash
  | dotBackslash
  | dotCaret
  /-- conjugate transpose -/
  | apostrophe
  | dotApostrophe
  | eqEq
  | notEq
  | less
  | lessEq
  | greater
  | greaterEq
  | amp
  | ampAmp
  | pipe
  | pipePipe
  | tilde
  | equals
  | leftParen
  | rightParen
  | leftBracket
  | rightBracket
  | leftBrace
  | rightBrace
  | comma
  | semicolon
  | colon
  | newline
deriving DecidableEq, Repr

namespace Token

/-- The text that literals and identifiers carry. -/
def payload? : Token → Option String
  | .int s | .float s | .imag s | .str s | .ident s => some s
  | _ => none

/-- The token as messages show it. -/
def text : Token → String
  | .int s | .float s | .imag s | .ident s => s
  | .str s => "'" ++ s ++ "'"
  | .function => "function"
  | .last => "end"
  | .ret => "return"
  | .brk => "break"
  | .plus => "+"
  | .minus => "-"
  | .star => "*"
  | .slash => "/"
  | .backslash => "\\"
  | .caret => "^"
  | .dotStar => ".*"
  | .dotSlash => "./"
  | .dotBackslash => ".\\"
  | .dotCaret => ".^"
  | .apostrophe => "'"
  | .dotApostrophe => ".'"
  | .eqEq => "=="
  | .notEq => "~="
  | .less => "<"
  | .lessEq => "<="
  | .greater => ">"
  | .greaterEq => ">="
  | .amp => "&"
  | .ampAmp => "&&"
  | .pipe => "|"
  | .pipePipe => "||"
  | .tilde => "~"
  | .equals => "="
  | .leftParen => "("
  | .rightParen => ")"
  | .leftBracket => "["
  | .rightBracket => "]"
  | .leftBrace => "\x7b"
  | .rightBrace => "\x7d"
  | .comma => ","
  | .semicolon => ";"
  | .colon => ":"
  | .newline => "newline"

/-- A quote right after this token is a transpose. -/
def endsValue : Token → Bool
  | .int _ | .float _ | .imag _ | .str _ | .ident _ | .last
  | .rightParen | .rightBracket | .rightBrace | .apostrophe | .dotApostrophe => true
  | _ => false

/-- Separates statements. -/
def isSeparator : Token → Bool
  | .semicolon | .comma | .newline => true
  | _ => false

/-- The keyword or identifier that a word is. -/
def ofWord (word : String) : Token :=
  if word = "function" then .function
  else if word = "end" then .last
  else if word = "return" then .ret
  else if word = "break" then .brk
  else .ident word

end Token

/-- A token with the bytes from `start` to `stop` that it takes; `spaced` says
that something skipped stands between it and the token before. -/
structure Spanned where
  token : Token
  start : Nat
  stop : Nat
  spaced : Bool
deriving DecidableEq, Repr

end MatrixScript
