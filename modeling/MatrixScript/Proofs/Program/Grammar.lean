/-
# `Proofs.Program.Grammar` — the language of programs, without a parser

Which programs are written the way the parser reads them.  An expression has
a level (`Expr.level`), and `Expr.Canonical` says that every operand stands at
a level its operator can take, that chains of one operator are flat, and that
names and literals are single tokens.  The levels are

    0 `||`   1 `&&`   2 `|`   3 `&`   4 comparisons   5 ranges   6 sums
    7 products   8 signs   9 powers   10 subscripts and transposes
    11 names, literals and brackets

`Program.Canonical` lifts this to statements, functions and programs.  A
statement must not start with `end` or with a word of control flow: there the
parser has its own messages (`Statement.Opens`).
-/
import MatrixScript.Program.Parser

namespace MatrixScript

/-! ## Names and literals -/

/-- An identifier that is no keyword. -/
def isName (x : String) : Bool :=
  match x.toList with
  | [] => false
  | c :: rest =>
      Token.isWordStart c && rest.all Token.isWordRest && Token.ofWord x == .ident x

/-- A text that is one token of a kind of literals; for strings, their contents. -/
def LiteralKind.spells : LiteralKind → String → Bool
  | .int, s => Token.numberAt? s.toList == some (.int, s.toList.length)
  | .float, s => Token.numberAt? s.toList == some (.float, s.toList.length)
  | .imag, s => Token.numberAt? s.toList == some (.imag, s.toList.length)
  | .str, s => s.toList.all (· != '\n')

/-! ## Levels -/

/-- Level of an operator whose chains are flat. -/
def ChainOp.level : ChainOp → Nat
  | .orOr => 0
  | .andAnd => 1
  | .or => 2
  | .and => 3
  | .add | .sub => 6
  | .mul | .elMul | .rightDiv | .leftDiv | .elRightDiv | .elLeftDiv => 7
  | .pow | .elPow => 9

/-- Level of an expression: that of its outermost operator. -/
def Expr.level : Expr → Nat
  | .chain op _ _ _ => op.level
  | .compare _ _ _ => 4
  | .range _ _ | .stepped _ _ _ => 5
  | .sign _ _ => 8
  | .call _ _ | .cellCall _ _ | .transpose _ _ => 10
  | _ => 11

theorem ChainOp.level_le (op : ChainOp) : op.level ≤ 9 := by cases op <;> decide

theorem Expr.level_le (e : Expr) : e.level ≤ 11 := by
  cases e with
  | chain op first second more => exact Nat.le_trans op.level_le (by decide)
  | _ => simp [Expr.level]

/-- The operator of a chain. -/
def Expr.chainOp? : Expr → Option ChainOp
  | .chain op _ _ _ => some op
  | _ => none

/-- The expression without the minus in front of it. -/
def Expr.withoutMinus : Expr → Expr
  | .sign .neg e => e
  | e => e

/-- `e` can be an operand of a chain behind the first one: it is tighter than
the operator, and an exponent may have a minus of its own. -/
def ChainOp.Takes (op : ChainOp) (e : Expr) : Prop :=
  op.level < (if op.level = 9 then e.withoutMinus else e).level

/-! ## Expressions -/

/-- The expression is written as the parser reads it; a colon for a whole axis
stands only as an argument. -/
inductive Expr.Canonical : Expr → Prop
  | name {x : String} : isName x → Canonical (.name x)
  | call {f : String} {arguments : List Expr} : isName f →
      (∀ e ∈ arguments, e ≠ .all → Canonical e) → Canonical (.call f arguments)
  | cellCall {f : String} {arguments : List Expr} : isName f →
      (∀ e ∈ arguments, e ≠ .all → Canonical e) → Canonical (.cellCall f arguments)
  | literal {kind : LiteralKind} {text : String} : kind.spells text →
      Canonical (.literal kind text)
  | last : Canonical .last
  | paren {e : Expr} : Canonical e → Canonical (.paren e)
  | matrix {rows : List (List Expr)} : (∀ row ∈ rows, row ≠ []) →
      (∀ row ∈ rows, ∀ e ∈ row, Canonical e) → Canonical (.matrix rows)
  | cell {elements : List Expr} : (∀ e ∈ elements, Canonical e) → Canonical (.cell elements)
  | sign {op : SignOp} {e : Expr} : Canonical e → 8 ≤ e.level → Canonical (.sign op e)
  | transpose {op : TransposeOp} {e : Expr} : Canonical e → 10 ≤ e.level →
      Canonical (.transpose op e)
  | chain {op : ChainOp} {first second : Expr} {more : List Expr} :
      Canonical first → op.level ≤ first.level → first.chainOp? ≠ some op →
      (∀ e ∈ second :: more, Canonical e) → (∀ e ∈ second :: more, op.Takes e) →
      Canonical (.chain op first second more)
  | compare {op : Comparison} {left right : Expr} : Canonical left → 4 ≤ left.level →
      Canonical right → 5 ≤ right.level → Canonical (.compare op left right)
  | range {start stop : Expr} : Canonical start → 6 ≤ start.level →
      Canonical stop → 6 ≤ stop.level → Canonical (.range start stop)
  | stepped {start step stop : Expr} : Canonical start → 6 ≤ start.level →
      Canonical step → 6 ≤ step.level → Canonical stop → 6 ≤ stop.level →
      Canonical (.stepped start step stop)

/-! ## First tokens -/

/-- Token that an expression starts with. -/
def Expr.first : Expr → Token
  | .name x | .call x _ | .cellCall x _ => .ident x
  | .literal .int s => .int s
  | .literal .float s => .float s
  | .literal .imag s => .imag s
  | .literal .str s => .str s
  | .last => .last
  | .all => .colon
  | .paren _ => .leftParen
  | .matrix _ => .leftBracket
  | .cell _ => .leftBrace
  | .sign .neg _ => .minus
  | .sign .not _ => .tilde
  | .transpose _ e => e.first
  | .chain _ e _ _ => e.first
  | .compare _ e _ => e.first
  | .range e _ => e.first
  | .stepped e _ _ => e.first

/-- An expression can start with this token. -/
def Token.starts : Token → Bool
  | .int _ | .float _ | .imag _ | .str _ | .ident _ | .last | .leftParen | .leftBracket
  | .leftBrace | .minus | .tilde => true
  | _ => false

/-- The token is a sign that the parser of signs passes. -/
def Token.isSign : Token → Bool
  | .minus | .tilde | .plus => true
  | _ => false

theorem Expr.Canonical.starts {e : Expr} (h : e.Canonical) : e.first.starts := by
  induction h with
  | @literal kind text _ => cases kind <;> rfl
  | @sign op e _ _ _ => cases op <;> rfl
  | name | call | cellCall | last | paren | matrix | cell => rfl
  | transpose _ _ ih => exact ih
  | chain _ _ _ _ _ ih _ => exact ih
  | compare _ _ _ _ ih _ => exact ih
  | range _ _ _ _ ih _ => exact ih
  | stepped _ _ _ _ _ _ ih _ _ => exact ih

/-- What is tighter than a sign does not start with one. -/
theorem Expr.Canonical.first_not_sign {e : Expr} (h : e.Canonical) (tight : 9 ≤ e.level) :
    e.first.isSign = false := by
  induction h with
  | @literal kind text _ => cases kind <;> rfl
  | name | call | cellCall | last | paren | matrix | cell => rfl
  | sign => exact absurd tight (by simp [Expr.level])
  | transpose _ tighter ih => exact ih (by omega)
  | chain _ le _ _ _ ih _ => exact ih (Nat.le_trans tight le)
  | compare => exact absurd tight (by simp [Expr.level])
  | range => exact absurd tight (by simp [Expr.level])
  | stepped => exact absurd tight (by simp [Expr.level])

/-! ## Statements, functions, programs -/

/-- Name of a destination. -/
def Target.name : Target → String
  | .variable x => x
  | .element x _ => x

/-- A destination is a name, or a subscript that is canonical as an expression. -/
def Target.Canonical : Target → Prop
  | .variable x => isName x
  | .element x arguments => isName x ∧ ∀ e ∈ arguments, e ≠ .all → e.Canonical

/-- A statement can start with this token: it is not `end` and no word of control flow. -/
def Token.Opens (t : Token) : Prop := t ≠ .last ∧ ∀ x ∈ Parser.controlFlow, t ≠ .ident x

/-- The statement is written as the parser reads it, wherever it stands. -/
def Statement.Canonical : Statement → Prop
  | .expression e => e.Canonical
  | .assign target value => target.Canonical ∧ value.Canonical
  | .assigns targets value => (∀ t ∈ targets, t.Canonical) ∧ value.Canonical
  | .ret | .brk => True
  | .command _ _ => False

/-- The statement starts with a token that statements can start with. -/
def Statement.Opens : Statement → Prop
  | .expression e => e.first.Opens
  | .assign target _ => (Token.ident target.name).Opens
  | _ => True

/-- The statement is canonical, or a command with a name and words that have no line end. -/
def Statement.Accepted : Statement → Prop
  | .command name words => isName name ∧ ∀ word ∈ words, LiteralKind.str.spells word
  | s => s.Canonical

section Spelled

variable (P : Statement → Prop)

/-- All names are identifiers and every statement of the body satisfies `P`. -/
structure Function.Spelled (f : Function) : Prop where
  name : isName f.name
  outputs : ∀ x ∈ f.outputs, isName x
  params : ∀ x ∈ f.params, isName x
  body : ∀ s ∈ f.body, P s

/-- What stands at the top level is spelled, with statements that satisfy `P`. -/
def Item.Spelled : Item → Prop
  | .statement s => P s
  | .function f => f.Spelled P

/-- Every part of the program is spelled, with statements that satisfy `P`. -/
def Program.Spelled (p : Program) : Prop := ∀ i ∈ p, i.Spelled P

end Spelled

/-- Every part of the program is written as the parser reads it. -/
abbrev Program.Canonical (p : Program) : Prop := p.Spelled Statement.Canonical

/-- Every part of the program is canonical or a command. -/
abbrev Program.Accepted (p : Program) : Prop := p.Spelled Statement.Accepted

/-- Every statement at the top level and in function bodies can stand there. -/
def Item.Opens : Item → Prop
  | .statement s => s.Opens
  | .function f => ∀ s ∈ f.body, s.Opens

/-- No statement starts with `end` or with a word of control flow. -/
def Program.Opens (p : Program) : Prop := ∀ i ∈ p, i.Opens

end MatrixScript
