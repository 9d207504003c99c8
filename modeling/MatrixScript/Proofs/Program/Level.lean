/-
# `Proofs.Program.Level` — the parser by levels

The parsers of expressions stand in a row, loosest first.  `atLevel` numbers
them as `Expr.level` does, and `atLevel_eq_loop` says that nearly all of them
are the same: an operand of the next level and then a loop.
-/
import Mathlib.Data.Nat.Init
import MatrixScript.Proofs.Program.Grammar
import MatrixScript.Proofs.Program.Printer
import MatrixScript.Proofs.Program.Step

namespace MatrixScript.Parser

/-- The parser of a level. -/
def atLevel (inner : Parser Expr) : Nat → Parser Expr
  | 0 => shortDisjunction inner
  | 1 => shortConjunction inner
  | 2 => disjunction inner
  | 3 => conjunction inner
  | 4 => comparison inner
  | 5 => range inner
  | 6 => additive inner
  | 7 => multiplicative inner
  | 8 => signed inner
  | 9 => power inner
  | 10 => suffixed inner
  | _ => primary inner

/-- Operators of a level. -/
def operatorAt : Nat → Token → Option BinaryOp
  | 0 => orOrOp
  | 1 => andAndOp
  | 2 => orOp
  | 3 => andOp
  | 4 => comparisonOp
  | 6 => additiveOp
  | 7 => multiplicativeOp
  | 9 => powerOp
  | _ => fun _ => none

/-- The parser of the operands behind the operators of a level. -/
def operandAt (inner : Parser Expr) : Nat → Parser Expr
  | 9 => exponent inner
  | ℓ => atLevel inner (ℓ + 1)

/-- The level has operators between operands. -/
def Chains (ℓ : Nat) : Prop := ℓ ∈ [0, 1, 2, 3, 4, 6, 7, 9]

/-- The parser of the level runs a loop behind its first operand. -/
def Loops (ℓ : Nat) : Prop := Chains ℓ ∨ ℓ = 10

instance (ℓ : Nat) : Decidable (Chains ℓ) := inferInstanceAs (Decidable (ℓ ∈ _))
instance (ℓ : Nat) : Decidable (Loops ℓ) := inferInstanceAs (Decidable (_ ∨ _))

/-- The loop of a level, with the operand so far. -/
def loopAt (inner : Parser Expr) (ℓ n : Nat) (e : Expr) : Parser Expr :=
  if ℓ = 10 then suffixesFrom inner n e
  else chainFrom (operandAt inner ℓ) (operatorAt ℓ) n e

theorem atLevel_eq_loop {ℓ : Nat} (h : Loops ℓ) (inner : Parser Expr) :
    atLevel inner ℓ
      = atLevel inner (ℓ + 1) >>= fun e => remaining >>= fun n => loopAt inner ℓ n e := by
  have cases : ℓ = 0 ∨ ℓ = 1 ∨ ℓ = 2 ∨ ℓ = 3 ∨ ℓ = 4 ∨ ℓ = 6 ∨ ℓ = 7 ∨ ℓ = 9 ∨ ℓ = 10 := by
    simpa [Loops, Chains, or_assoc] using h
  rcases cases with rfl | rfl | rfl | rfl | rfl | rfl | rfl | rfl | rfl <;> rfl

/-- Ranges and signs are the only levels without a loop. -/
theorem eq_of_not_loops {ℓ : Nat} (lt : ℓ < 11) (loops : ¬ Loops ℓ) : ℓ = 5 ∨ ℓ = 8 := by
  revert ℓ
  decide

theorem loopAt_eq_chainFrom {ℓ : Nat} (h : Chains ℓ) (inner : Parser Expr) :
    loopAt inner ℓ = chainFrom (operandAt inner ℓ) (operatorAt ℓ) := by
  have : ℓ ≠ 10 := by rintro rfl; exact absurd h (by decide)
  funext n e
  simp [loopAt, this]

/-! ## Operators and their tokens -/

theorem chains_level (op : ChainOp) : Chains op.level := by cases op <;> decide

/-- Level at which a token goes on with the expression in front of it. -/
def continues : Token → Option Nat
  | .pipePipe => some 0
  | .ampAmp => some 1
  | .pipe => some 2
  | .amp => some 3
  | .eqEq | .notEq | .less | .lessEq | .greater | .greaterEq => some 4
  | .colon => some 5
  | .plus | .minus => some 6
  | .star | .slash | .backslash | .dotStar | .dotSlash | .dotBackslash => some 7
  | .caret | .dotCaret => some 9
  | .apostrophe | .dotApostrophe => some 10
  | .leftParen | .leftBrace => some 11
  | _ => none

theorem continues_of_operatorAt {ℓ : Nat} {t : Token} {op : BinaryOp}
    (h : operatorAt ℓ t = some op) : continues t = some ℓ := by
  unfold operatorAt at h
  split at h <;> cases t <;> first | rfl | cases h

/-- An operator between operands has the level of its token. -/
theorem level_of_operatorAt {ℓ : Nat} {t : Token} {op : BinaryOp}
    (h : operatorAt ℓ t = some op) :
    (∃ o : ChainOp, op = .chain o ∧ o.level = ℓ) ∨ (∃ o : Comparison, op = .compare o ∧ ℓ = 4) := by
  unfold operatorAt at h
  split at h <;> cases t <;>
    first
    | (cases h; exact .inl ⟨_, rfl, rfl⟩)
    | (cases h; exact .inr ⟨_, rfl, rfl⟩)
    | cases h

theorem binary_of_chainOp?_ne {op : ChainOp} {left : Expr} (h : left.chainOp? ≠ some op)
    (right : Expr) : Expr.binary (.chain op) left right = .chain op left right [] := by
  cases left with
  | chain op' first second more =>
    have ne : op' ≠ op := by simpa [Expr.chainOp?] using h
    simp [Expr.binary, ne]
  | _ => rfl

/-! ## Loops with nothing to do -/

/-- No word that goes on at level `ℓ` or a tighter one is ahead. -/
def Closes (ℓ : Nat) (ws : List Spanned) : Prop :=
  ∀ w ∈ ws.head?, ∀ m ∈ continues w.token, m < ℓ

theorem Closes.mono {ℓ m : Nat} {ws : List Spanned} (h : Closes ℓ ws) (le : ℓ ≤ m) :
    Closes m ws :=
  fun w hw k hk => Nat.lt_of_lt_of_le (h w hw k hk) le

theorem closes_cons {ℓ : Nat} {w : Spanned} {ws : List Spanned}
    (h : ∀ m ∈ continues w.token, m < ℓ) : Closes ℓ (w :: ws) := by
  intro v hv
  obtain rfl : w = v := by simpa using hv
  exact h

/-- A token that goes on with no expression closes every level. -/
theorem closes_of_continues {ℓ : Nat} {w : Spanned} {ws : List Spanned}
    (h : continues w.token = none) : Closes ℓ (w :: ws) := by
  refine closes_cons fun m hm => ?_
  simp [h] at hm

theorem operatorAhead?_of_closes {ℓ : Nat} {ws : List Spanned} (h : Closes ℓ ws)
    (gs : List Group) : operatorAhead? (operatorAt ℓ) ⟨ws, gs⟩ = none := by
  unfold operatorAhead?
  split
  case isTrue => rfl
  case isFalse =>
    cases ws with
    | nil => rfl
    | cons w ws =>
      show operatorAt ℓ w.token = none
      cases found : operatorAt ℓ w.token with
      | none => rfl
      | some op =>
        exact absurd (h w rfl ℓ (continues_of_operatorAt found)) (Nat.lt_irrefl ℓ)

theorem suffixAhead_of_closes {ws : List Spanned} (h : Closes 10 ws) (gs : List Group)
    (e : Expr) : suffixAhead ⟨ws, gs⟩ e = .nothing := by
  cases ws with
  | nil => rfl
  | cons w ws =>
    have tight : ∀ m ∈ continues w.token, m < 10 := h w rfl
    unfold suffixAhead
    rw [Cursor.peek?_cons]
    cases found : w.token <;> simp [found, continues] at tight ⊢

theorem loopAt_of_closes {ℓ : Nat} (loops : Loops ℓ) {ws : List Spanned} (h : Closes ℓ ws)
    (inner : Parser Expr) (n : Nat) (e : Expr) (gs : List Group) :
    loopAt inner ℓ n e ⟨ws, gs⟩ = .ok (e, ⟨ws, gs⟩) := by
  rcases loops with chains | rfl
  · rw [loopAt_eq_chainFrom chains]
    cases n with
    | zero => rfl
    | succ n => simp [chainFrom, operatorAhead?_of_closes h gs, -bind_pure_comp]
  · cases n with
    | zero => rfl
    | succ n => simp [loopAt, suffixesFrom, suffixAhead_of_closes h gs e, -bind_pure_comp]

theorem peek?_ne_colon {rest : List Spanned} (closes : Closes 5 rest) (gs : List Group) :
    Cursor.peek? ⟨rest, gs⟩ ≠ some .colon := by
  cases rest with
  | nil => simp
  | cons w rest =>
    rw [Cursor.peek?_cons]
    intro colon
    have level : continues w.token = some 5 := by rw [Option.some.inj colon]; rfl
    exact Nat.lt_irrefl 5 (closes w rfl 5 level)

/-! ## From the level of an expression down to level 0

`Reads ℓ e` says that the parser of level `ℓ` reads the words of `e` as `e` and
stops behind them, wherever nothing that follows goes on at that level.  An
expression is read at its own level for a reason of its own; at every looser
level it is the first operand of a loop with nothing to do.  `Feeds` is what
is true before that loop starts, so that a chain can go on with it. -/

/-! ## Reading and feeding -/

theorem signedFrom_of_not_sign {t : Token} (h : t.isSign = false) (operand : Parser Expr)
    (n : Nat) (b : Bool) (ws : List Spanned) (gs : List Group) :
    signedFrom operand n ⟨Token.word b t :: ws, gs⟩ = operand ⟨Token.word b t :: ws, gs⟩ := by
  cases n with
  | zero => rfl
  | succ n => cases t <;> first | rfl | cases h

variable [Layout]

/-- The parser of level `ℓ` reads `e` and stops behind it. -/
def Reads (ℓ : Nat) (e : Expr) : Prop :=
  ∀ (n : Nat) (b : Bool) (rest : List Spanned) (gs : List Group), Closes ℓ rest →
    (e.words b).length ≤ n →
      atLevel (exprAt n) ℓ ⟨e.words b ++ rest, gs⟩ = .ok (e, ⟨rest, gs⟩)

/-- The parser of level `ℓ` reads `e` and is in its loop behind it. -/
def Feeds (ℓ : Nat) (e : Expr) : Prop :=
  ∀ (n : Nat) (b : Bool) (rest : List Spanned) (gs : List Group), Closes (ℓ + 1) rest →
    (e.words b).length ≤ n → ∃ k, rest.length ≤ k ∧
      atLevel (exprAt n) ℓ ⟨e.words b ++ rest, gs⟩ = loopAt (exprAt n) ℓ k e ⟨rest, gs⟩

theorem reads_of_feeds {ℓ : Nat} {e : Expr} (loops : Loops ℓ) (h : Feeds ℓ e) : Reads ℓ e := by
  intro n b rest gs closes short
  obtain ⟨k, -, run⟩ := h n b rest gs (closes.mono (Nat.le_succ ℓ)) short
  rw [run]
  exact loopAt_of_closes loops closes (exprAt n) k e gs

theorem feeds_of_reads {ℓ : Nat} {e : Expr} (loops : Loops ℓ) (h : Reads (ℓ + 1) e) :
    Feeds ℓ e := by
  intro n b rest gs closes short
  refine ⟨rest.length, Nat.le_refl _, ?_⟩
  rw [atLevel_eq_loop loops, bind_run (h n b rest gs closes short)]
  rfl

/-- A range may be a single bound. -/
theorem reads_range {e : Expr} (h : Reads 6 e) : Reads 5 e := by
  intro n b rest gs closes short
  have bound : additive (exprAt n) ⟨e.words b ++ rest, gs⟩ = .ok (e, ⟨rest, gs⟩) :=
    h n b rest gs (closes.mono (by decide)) short
  show range (exprAt n) _ = _
  unfold range
  rw [bind_run bound]
  simp [peek?_ne_colon closes gs, -bind_pure_comp]

theorem reads_signed {e : Expr} {t : Token} (first : ∀ b, ∃ ws, e.words b = Token.word b t :: ws)
    (noSign : t.isSign = false) (h : Reads 9 e) : Reads 8 e := by
  intro n b rest gs closes short
  obtain ⟨ws, shape⟩ := first b
  have run : power (exprAt n) ⟨e.words b ++ rest, gs⟩ = .ok (e, ⟨rest, gs⟩) :=
    h n b rest gs (closes.mono (by decide)) short
  show signed (exprAt n) _ = _
  unfold signed
  rw [remaining_bind_run]
  rw [shape] at run ⊢
  rw [List.cons_append] at run ⊢
  rw [signedFrom_of_not_sign noSign]
  exact run

/-! ## Descent -/

/-- The expression is read at every level it can stand at. -/
def Read (e : Expr) : Prop := ∀ ℓ ≤ e.level, Reads ℓ e ∧ (Loops ℓ → Feeds ℓ e)

/-- One level down: there the expression is all that stands in front of the loop. -/
theorem read_below {e : Expr} (canonical : e.Canonical) {ℓ : Nat} (lt : ℓ < e.level)
    (h : Reads (ℓ + 1) e) : Reads ℓ e ∧ (Loops ℓ → Feeds ℓ e) := by
  by_cases loops : Loops ℓ
  case pos =>
    have feeds : Feeds ℓ e := feeds_of_reads loops h
    exact ⟨reads_of_feeds loops feeds, fun _ => feeds⟩
  case neg =>
    refine ⟨?_, fun loops' => absurd loops' loops⟩
    have inside : ℓ < 11 := Nat.lt_of_lt_of_le lt e.level_le
    rcases eq_of_not_loops inside loops with rfl | rfl
    · exact reads_range h
    · exact reads_signed (e.words_eq_cons) (canonical.first_not_sign lt) h

/-- An expression that is read at its own level is read at all looser ones. -/
theorem read_of_own {e : Expr} (canonical : e.Canonical)
    (own : Reads e.level e ∧ (Loops e.level → Feeds e.level e)) : Read e := by
  intro ℓ le
  induction le using Nat.decreasingInduction with
  | self => exact own
  | of_succ k lt ih => exact read_below canonical lt ih.1

theorem read_of_feeds {e : Expr} (canonical : e.Canonical) (loops : Loops e.level)
    (own : Feeds e.level e) : Read e :=
  read_of_own canonical ⟨reads_of_feeds loops own, fun _ => own⟩

theorem read_of_reads {e : Expr} (canonical : e.Canonical) (loops : ¬ Loops e.level)
    (own : Reads e.level e) : Read e :=
  read_of_own canonical ⟨own, fun loops' => absurd loops' loops⟩

end MatrixScript.Parser
