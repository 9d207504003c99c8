/-
# `Proofs.Program.Printer` — the words and the text of a program

Every program has a list of words: tokens with the flag that says whether a
blank stands in front of them.  A blank stands on both sides of an infix
operator and in front of a plain transpose, and nowhere else, except that a
`Layout` may have one behind every comma and semicolon; every statement ends
with a newline.  `Program.text` spells the
words out, strings in double quotes.  A word is a `Spanned` at no place, so
that a list of words can be read like a list of tokens.
-/
import MatrixScript.Proofs.Program.Grammar

namespace MatrixScript

/-- What printing leaves open. -/
class Layout where
  /-- a blank stands behind a comma and a semicolon -/
  gap : Bool

variable [Layout]

/-! ## Words -/

/-- A token with nothing in front of it, at no place. -/
def Token.tight (t : Token) : Spanned := ⟨t, 0, 0, false⟩

/-- A token with a blank in front of it, at no place. -/
def Token.apart (t : Token) : Spanned := ⟨t, 0, 0, true⟩

/-- A token with or without a blank in front of it, at no place. -/
def Token.word (spaced : Bool) (t : Token) : Spanned := ⟨t, 0, 0, spaced⟩

def ChainOp.token : ChainOp → Token
  | .add => .plus
  | .sub => .minus
  | .mul => .star
  | .elMul => .dotStar
  | .rightDiv => .slash
  | .leftDiv => .backslash
  | .elRightDiv => .dotSlash
  | .elLeftDiv => .dotBackslash
  | .pow => .caret
  | .elPow => .dotCaret
  | .andAnd => .ampAmp
  | .and => .amp
  | .orOr => .pipePipe
  | .or => .pipe

def Comparison.token : Comparison → Token
  | .eq => .eqEq
  | .ne => .notEq
  | .lt => .less
  | .le => .lessEq
  | .gt => .greater
  | .ge => .greaterEq

def SignOp.token : SignOp → Token
  | .neg => .minus
  | .not => .tilde

/-- A conjugate transpose stands right behind its operand, where a quote opens
no string; a plain one stands apart, so that its point joins no number. -/
def TransposeOp.word : TransposeOp → Spanned
  | .conjugate => Token.tight .apostrophe
  | .plain => Token.apart .dotApostrophe

def LiteralKind.token : LiteralKind → String → Token
  | .int, s => .int s
  | .float, s => .float s
  | .imag, s => .imag s
  | .str, s => .str s

/-! ## Expressions -/

mutual

/-- Words of an expression; `spaced` says whether a blank stands in front. -/
def Expr.words (spaced : Bool) : Expr → List Spanned
  | .name x => [Token.word spaced (.ident x)]
  | .call f arguments =>
      Token.word spaced (.ident f) :: Token.tight .leftParen ::
        (elementWords false arguments ++ [Token.tight .rightParen])
  | .cellCall f arguments =>
      Token.word spaced (.ident f) :: Token.tight .leftBrace ::
        (elementWords false arguments ++ [Token.tight .rightBrace])
  | .literal kind text => [Token.word spaced (kind.token text)]
  | .last => [Token.word spaced .last]
  | .all => [Token.word spaced .colon]
  | .paren inner =>
      Token.word spaced .leftParen :: (inner.words false ++ [Token.tight .rightParen])
  | .matrix rows =>
      Token.word spaced .leftBracket :: (rowWords rows ++ [Token.tight .rightBracket])
  | .cell elements =>
      Token.word spaced .leftBrace :: (elementWords false elements ++ [Token.tight .rightBrace])
  | .sign op operand => Token.word spaced op.token :: operand.words false
  | .transpose op operand => operand.words spaced ++ [op.word]
  | .chain op first second more =>
      first.words spaced ++ Token.apart op.token :: (second.words true ++ operandWords op more)
  | .compare op left right => left.words spaced ++ Token.apart op.token :: right.words true
  | .range start stop => start.words spaced ++ Token.apart .colon :: stop.words true
  | .stepped start step stop =>
      start.words spaced ++ Token.apart .colon ::
        (step.words true ++ Token.apart .colon :: stop.words true)

/-- Words of expressions with commas between them; `spaced` is for the first one. -/
def elementWords (spaced : Bool) : List Expr → List Spanned
  | [] => []
  | e :: es => e.words spaced ++ laterElementWords es

/-- Words of expressions with a comma in front of each. -/
def laterElementWords : List Expr → List Spanned
  | [] => []
  | e :: es => Token.tight .comma :: (e.words Layout.gap ++ laterElementWords es)

/-- Words of the rows of a literal, with semicolons between them. -/
def rowWords : List (List Expr) → List Spanned
  | [] => []
  | row :: rows => elementWords false row ++ laterRowWords rows

/-- Words of rows with a semicolon in front of each. -/
def laterRowWords : List (List Expr) → List Spanned
  | [] => []
  | row :: rows =>
      Token.tight .semicolon :: (elementWords Layout.gap row ++ laterRowWords rows)

/-- Words of further operands of a chain, with the operator in front of each. -/
def operandWords (op : ChainOp) : List Expr → List Spanned
  | [] => []
  | e :: es => Token.apart op.token :: (e.words true ++ operandWords op es)

end

/-- The words of an expression start with its first token. -/
theorem Expr.words_eq_cons :
    (e : Expr) → (b : Bool) → ∃ ws, e.words b = Token.word b e.first :: ws
  | .name _, _ | .call _ _, _ | .cellCall _ _, _ | .last, _ | .all, _ | .paren _, _
  | .matrix _, _ | .cell _, _ => ⟨_, rfl⟩
  | .literal kind _, _ => by cases kind <;> exact ⟨_, rfl⟩
  | .sign op _, _ => by cases op <;> exact ⟨_, rfl⟩
  | .transpose _ e, b | .chain _ e _ _, b | .compare _ e _, b | .range e _, b
  | .stepped e _ _, b => by
      obtain ⟨ws, shape⟩ := Expr.words_eq_cons e b
      simp only [Expr.words, shape, Expr.first, List.cons_append]
      exact ⟨_, rfl⟩

/-! ## Statements, functions, programs -/

/-- The expression that a destination looks like. -/
def Target.expr : Target → Expr
  | .variable x => .name x
  | .element x arguments => .call x arguments

/-- Words of names with commas between them. -/
def nameWords (xs : List String) : List Spanned := elementWords false (xs.map .name)

/-- Words of a statement. -/
def Statement.words : Statement → List Spanned
  | .expression e => e.words false
  | .assign target value =>
      target.expr.words false ++ Token.apart .equals :: value.words true
  | .assigns targets value =>
      Token.tight .leftBracket :: (elementWords false (targets.map Target.expr)
        ++ Token.tight .rightBracket :: Token.apart .equals :: value.words true)
  | .ret => [Token.tight .ret]
  | .brk => [Token.tight .brk]
  | .command name words =>
      Token.tight (.ident name) :: words.map fun w => Token.apart (.ident w)

/-- Words of a statement with the newline behind it. -/
def Statement.line (s : Statement) : List Spanned := s.words ++ [Token.tight .newline]

/-- Words of a function definition; it has a list of outputs and one of parameters. -/
def Function.words (f : Function) : List Spanned :=
  Token.tight .function :: Token.apart .leftBracket ::
    (nameWords f.outputs ++ Token.tight .rightBracket :: Token.apart .equals ::
      Token.apart (.ident f.name) :: Token.tight .leftParen ::
        (nameWords f.params ++ Token.tight .rightParen :: Token.tight .newline ::
          (f.body.flatMap Statement.line ++ [Token.tight .last])))

/-- Words of what stands at the top level. -/
def Item.words : Item → List Spanned
  | .statement s => s.words
  | .function f => f.words

/-- Words of what stands at the top level with the newline behind it. -/
def Item.line (i : Item) : List Spanned := i.words ++ [Token.tight .newline]

/-- Words of a program. -/
def Program.words (p : Program) : List Spanned := p.flatMap Item.line

/-! ## Texts -/

/-- Characters of a string with its double quotes doubled. -/
def doubled : List Char → List Char
  | [] => []
  | c :: rest => if c = '\x22' then c :: c :: doubled rest else c :: doubled rest

/-- Characters of a token in a script. -/
def Token.spelling : Token → List Char
  | .str s => '\x22' :: (doubled s.toList ++ ['\x22'])
  | .newline => ['\n']
  | t => t.text.toList

/-- Characters of a word. -/
def Spanned.spelling (w : Spanned) : List Char :=
  if w.spaced then ' ' :: w.token.spelling else w.token.spelling

/-- Characters of words in a row. -/
def spelled (ws : List Spanned) : List Char := ws.flatMap Spanned.spelling

/-- The text of a program. -/
def Program.text (p : Program) : String := String.ofList (spelled p.words)

example : @Program.text ⟨true⟩
    [.statement (.assign (.element "A" [.literal .int "1", .all])
      (.chain .add (.name "x") (.transpose .conjugate (.literal .str "it's")) []))]
    = "A(1, :) = x + \"it's\"'\n" := by
  decide

end MatrixScript
