/-
# `Proofs.Program.Position` — positions do not matter to the parser

Two lists of tokens that look the same, whatever bytes they take, are read as
the same program (`Program.ofTokens_alike`).  The argument is that of a
noninterference proof: every parser takes cursors that look the same to the
same value and to cursors that look the same, or fails at both
(`PositionFree`); each parser is built from a few primitives by combinators
that keep this.
-/
import MatrixScript.Proofs.Token.Words
import MatrixScript.Program.Parser

namespace MatrixScript

/-! ## Cursors that look the same -/

namespace Cursor

/-- The tokens ahead and the blanks between them are the same, and so are the brackets. -/
def Alike (c d : Cursor) : Prop :=
  c.rest.map Spanned.look = d.rest.map Spanned.look ∧ c.groups = d.groups

namespace Alike

variable {c d : Cursor}

theorem getElem? (h : c.Alike d) (k : Nat) :
    c.rest[k]?.map Spanned.look = d.rest[k]?.map Spanned.look := by
  rw [← List.getElem?_map, h.1, List.getElem?_map]

theorem peekAt? (h : c.Alike d) (k : Nat) : c.peekAt? k = d.peekAt? k := by
  have tokens := congrArg (Option.map Prod.fst) (h.getElem? k)
  rw [Option.map_map, Option.map_map] at tokens
  exact tokens

theorem peek? (h : c.Alike d) : c.peek? = d.peek? := by
  unfold Cursor.peek?
  rw [List.head?_eq_getElem?, List.head?_eq_getElem?]
  exact h.peekAt? 0

theorem spacedAt (h : c.Alike d) (k : Nat) : c.spacedAt k = d.spacedAt k := by
  have blanks := congrArg (Option.any Prod.snd) (h.getElem? k)
  rw [Option.any_map, Option.any_map] at blanks
  exact blanks

theorem inConcat (h : c.Alike d) : c.inConcat = d.inConcat := by
  unfold Cursor.inConcat
  rw [h.2]

theorem length (h : c.Alike d) : c.rest.length = d.rest.length := by
  simpa using congrArg List.length h.1

theorem tokens (h : c.Alike d) : c.rest.map (·.token) = d.rest.map (·.token) := by
  have firsts := congrArg (List.map Prod.fst) h.1
  rw [List.map_map, List.map_map] at firsts
  exact firsts

theorem step (h : c.Alike d) : c.step.Alike d.step := by
  refine ⟨?_, h.2⟩
  show c.rest.tail.map _ = d.rest.tail.map _
  rw [List.map_tail, h.1, List.map_tail]

theorem skipSeparators (h : c.Alike d) : c.skipSeparators.Alike d.skipSeparators := by
  refine ⟨?_, h.2⟩
  have drop : ∀ ws : List Spanned, (ws.dropWhile (·.token.isSeparator)).map Spanned.look
      = (ws.map Spanned.look).dropWhile (·.1.isSeparator) := by
    intro ws
    rw [List.dropWhile_map]
    rfl
  show (c.rest.dropWhile _).map _ = (d.rest.dropWhile _).map _
  rw [drop, h.1, drop]

theorem enter (h : c.Alike d) (g : Group) :
    Alike { c with groups := g :: c.groups } { d with groups := g :: d.groups } :=
  ⟨h.1, by rw [h.2]⟩

theorem leave (h : c.Alike d) :
    Alike { c with groups := c.groups.tail } { d with groups := d.groups.tail } :=
  ⟨h.1, by rw [h.2]⟩

end Alike

end Cursor

namespace Parser

open Cursor (Alike)

variable {α β : Type}

/-- The same value at cursors that look the same, or an error at both. -/
def SameResult : Except Error (α × Cursor) → Except Error (α × Cursor) → Prop
  | .ok (a, c), .ok (b, d) => a = b ∧ Alike c d
  | .error _, .error _ => True
  | _, _ => False

/-- The parser does the same at cursors that look the same. -/
def PositionFree (p : Parser α) : Prop := ∀ c d, Alike c d → SameResult (p c) (p d)

/-! ## Combinators -/

theorem positionFree_pure (a : α) : PositionFree (pure a : Parser α) := fun _ _ alike => ⟨rfl, alike⟩

theorem positionFree_fail (reason : String) : PositionFree (fail reason : Parser α) :=
  fun _ _ _ => trivial

theorem PositionFree.bind {p : Parser α} {f : α → Parser β} (hp : PositionFree p)
    (hf : ∀ a, PositionFree (f a)) : PositionFree (p >>= f) := by
  intro c d alike
  have first := hp c d alike
  show SameResult ((p c).bind fun r => f r.1 r.2) ((p d).bind fun r => f r.1 r.2)
  cases hc : p c with
  | error => cases hd : p d with
    | error => trivial
    | ok => rw [hc, hd] at first; exact first.elim
  | ok r => cases hd : p d with
    | error => rw [hc, hd] at first; exact first.elim
    | ok s =>
      rw [hc, hd] at first
      obtain ⟨a, c'⟩ := r
      obtain ⟨b, d'⟩ := s
      obtain ⟨rfl, alike'⟩ := first
      exact hf a c' d' alike'

theorem PositionFree.map {p : Parser α} (hp : PositionFree p) (f : α → β) :
    PositionFree (f <$> p) := by
  rw [map_eq_pure_bind]
  exact hp.bind fun a => positionFree_pure (f a)

/-- A look at the cursor, whatever it sees at two that look the same. -/
theorem positionFree_get {f : Cursor → Parser β}
    (h : ∀ c d, Alike c d → SameResult (f c c) (f d d)) :
    PositionFree ((get : Parser Cursor) >>= f) := h

theorem positionFree_modify {g : Cursor → Cursor} (keeps : ∀ c d, Alike c d → Alike (g c) (g d)) :
    PositionFree (modify g : Parser PUnit) :=
  fun c d alike => ⟨rfl, keeps c d alike⟩

theorem positionFree_ite {b : Prop} [Decidable b] {p q : Parser α} (hp : PositionFree p)
    (hq : PositionFree q) : PositionFree (if b then p else q) := by
  split
  · exact hp
  · exact hq

/-! ## Primitives -/

theorem positionFree_peek? : PositionFree peek? :=
  positionFree_get fun _ _ alike => ⟨alike.peek?, alike⟩

theorem positionFree_isAt (t : Token) : PositionFree (isAt t) :=
  positionFree_get fun _ _ alike => ⟨by rw [alike.peek?], alike⟩

theorem positionFree_remaining : PositionFree remaining :=
  positionFree_get fun _ _ alike => ⟨alike.length, alike⟩

theorem positionFree_advance : PositionFree advance :=
  positionFree_modify fun _ _ alike => alike.step

theorem positionFree_enter (g : Group) : PositionFree (enter g) :=
  positionFree_modify fun _ _ alike => alike.enter g

theorem positionFree_leave : PositionFree leave :=
  positionFree_modify fun _ _ alike => alike.leave

theorem positionFree_expect (t : Token) : PositionFree (expect t) :=
  (positionFree_isAt t).bind fun _ => positionFree_ite positionFree_advance (positionFree_fail _)

theorem positionFree_ident : PositionFree ident := by
  refine positionFree_peek?.bind fun ahead => ?_
  split
  · exact positionFree_advance.bind fun _ => positionFree_pure _
  · exact positionFree_fail _

theorem positionFree_passing (e : Expr) : PositionFree (passing e) :=
  positionFree_advance.bind fun _ => positionFree_pure e

/-! ## Expressions -/

theorem signStartsElement_alike {c d : Cursor} (alike : Alike c d) :
    signStartsElement c = signStartsElement d := by
  unfold signStartsElement
  rw [alike.peek?, alike.inConcat, alike.spacedAt, alike.spacedAt]

theorem operatorAhead?_alike (operator : Token → Option BinaryOp) {c d : Cursor}
    (alike : Alike c d) : operatorAhead? operator c = operatorAhead? operator d := by
  unfold operatorAhead?
  rw [signStartsElement_alike alike, alike.peek?]

theorem wholeAxisAhead_alike {c d : Cursor} (alike : Alike c d) :
    wholeAxisAhead c = wholeAxisAhead d := by
  unfold wholeAxisAhead
  rw [alike.peek?, alike.peekAt?]

theorem suffixAhead_alike (e : Expr) {c d : Cursor} (alike : Alike c d) :
    suffixAhead c e = suffixAhead d e := by
  unfold suffixAhead
  rw [alike.peek?, alike.inConcat, alike.spacedAt]

section Inner

variable {inner : Parser Expr} (h : PositionFree inner)
include h

theorem positionFree_chainFrom (operator : Token → Option BinaryOp) (n : Nat) (left : Expr) :
    PositionFree (chainFrom inner operator n left) := by
  induction n generalizing left with
  | zero => exact positionFree_pure left
  | succ n ih =>
    refine positionFree_get fun c d alike => ?_
    rw [operatorAhead?_alike operator alike]
    cases operatorAhead? operator d with
    | none => exact positionFree_pure left c d alike
    | some op => exact (positionFree_advance.bind fun _ => h.bind fun right => ih _) c d alike

theorem positionFree_chainOf {operand : Parser Expr} (hoperand : PositionFree operand)
    (operator : Token → Option BinaryOp) : PositionFree (chainOf inner operand operator) :=
  h.bind fun left => positionFree_remaining.bind fun n =>
    positionFree_chainFrom hoperand operator n left

theorem positionFree_argument : PositionFree (argument inner) := by
  refine positionFree_get fun c d alike => ?_
  rw [wholeAxisAhead_alike alike]
  exact positionFree_ite (positionFree_advance.bind fun _ => positionFree_pure _) h c d alike

theorem positionFree_argumentsFrom (close : Token) (n : Nat) :
    PositionFree (argumentsFrom inner close n) := by
  induction n with
  | zero => exact positionFree_fail _
  | succ n ih =>
    refine (positionFree_isAt close).bind fun _ => positionFree_ite (positionFree_pure _) ?_
    refine positionFree_peek?.bind fun _ => positionFree_ite (positionFree_fail _) ?_
    refine (positionFree_argument h).bind fun e => (positionFree_isAt .comma).bind fun _ => ?_
    refine positionFree_ite (positionFree_advance.bind fun _ => ih.bind fun _ =>
      positionFree_pure _) ?_
    exact (positionFree_isAt close).bind fun _ =>
      positionFree_ite (positionFree_pure _) (positionFree_fail _)

theorem positionFree_arguments (close : Token) : PositionFree (arguments inner close) :=
  positionFree_advance.bind fun _ => (positionFree_enter .paren).bind fun _ =>
    positionFree_remaining.bind fun n => (positionFree_argumentsFrom h close (n + 1)).bind fun _ =>
      positionFree_leave.bind fun _ => positionFree_advance.bind fun _ => positionFree_pure _

theorem positionFree_rowsFrom (close : Token) (n : Nat) (rows : List (List Expr))
    (row : List Expr) : PositionFree (rowsFrom inner close n rows row) := by
  induction n generalizing rows row with
  | zero => exact positionFree_fail _
  | succ n ih =>
    refine positionFree_peek?.bind fun ahead => ?_
    cases ahead with
    | none => exact positionFree_fail _
    | some t =>
      refine positionFree_ite (positionFree_pure _) ?_
      refine positionFree_ite (positionFree_advance.bind fun _ => ih _ _) ?_
      refine positionFree_ite (positionFree_advance.bind fun _ => ih _ _) ?_
      exact h.bind fun e => ih _ _

theorem positionFree_rows (close : Token) : PositionFree (rows inner close) :=
  positionFree_advance.bind fun _ => (positionFree_enter .concat).bind fun _ =>
    positionFree_remaining.bind fun n => (positionFree_rowsFrom h close (n + 1) [] []).bind fun _ =>
      positionFree_leave.bind fun _ => positionFree_advance.bind fun _ => positionFree_pure _

theorem positionFree_parenthesised : PositionFree (parenthesised inner) :=
  positionFree_advance.bind fun _ => (positionFree_enter .paren).bind fun _ => h.bind fun _ =>
    positionFree_leave.bind fun _ => (positionFree_expect .rightParen).bind fun _ =>
      positionFree_pure _

theorem positionFree_primary : PositionFree (primary inner) := by
  refine positionFree_peek?.bind fun ahead => ?_
  split <;>
    first
    | exact positionFree_fail _
    | exact positionFree_passing _
    | exact positionFree_parenthesised h
    | exact (positionFree_rows h _).bind fun _ => positionFree_pure _

theorem positionFree_suffixesFrom (n : Nat) (e : Expr) :
    PositionFree (suffixesFrom inner n e) := by
  induction n generalizing e with
  | zero => exact positionFree_pure e
  | succ n ih =>
    refine positionFree_get fun c d alike => ?_
    rw [suffixAhead_alike e alike]
    cases suffixAhead d e with
    | nothing => exact positionFree_pure e c d alike
    | transpose op => exact (positionFree_advance.bind fun _ => ih _) c d alike
    | call f => exact ((positionFree_arguments h .rightParen).bind fun _ => ih _) c d alike
    | cellCall f => exact ((positionFree_arguments h .rightBrace).bind fun _ => ih _) c d alike

theorem positionFree_suffixed : PositionFree (suffixed inner) :=
  (positionFree_primary h).bind fun e => positionFree_remaining.bind fun n =>
    positionFree_suffixesFrom h n e

theorem positionFree_exponent : PositionFree (exponent inner) :=
  (positionFree_isAt .minus).bind fun _ => positionFree_ite
    (positionFree_advance.bind fun _ => (positionFree_suffixed h).bind fun _ => positionFree_pure _)
    (positionFree_suffixed h)

theorem positionFree_power : PositionFree (power inner) :=
  positionFree_chainOf (positionFree_suffixed h) (positionFree_exponent h) powerOp

theorem positionFree_signedFrom (n : Nat) : PositionFree (signedFrom inner n) := by
  induction n with
  | zero => exact h
  | succ n ih =>
    refine positionFree_peek?.bind fun ahead => ?_
    split
    · exact positionFree_advance.bind fun _ => ih.bind fun _ => positionFree_pure _
    · exact positionFree_advance.bind fun _ => ih.bind fun _ => positionFree_pure _
    · exact positionFree_advance.bind fun _ => ih
    · exact h

theorem positionFree_signed : PositionFree (signed inner) :=
  positionFree_remaining.bind fun n => positionFree_signedFrom (positionFree_power h) n

theorem positionFree_multiplicative : PositionFree (multiplicative inner) :=
  positionFree_chainOf (positionFree_signed h) (positionFree_signed h) multiplicativeOp

theorem positionFree_additive : PositionFree (additive inner) :=
  positionFree_chainOf (positionFree_multiplicative h) (positionFree_multiplicative h) additiveOp

theorem positionFree_range : PositionFree (range inner) := by
  have bound := positionFree_additive h
  refine bound.bind fun _ => (positionFree_isAt .colon).bind fun _ => ?_
  refine positionFree_ite (positionFree_advance.bind fun _ => bound.bind fun _ => ?_)
    (positionFree_pure _)
  exact (positionFree_isAt .colon).bind fun _ => positionFree_ite
    (positionFree_advance.bind fun _ => bound.bind fun _ => positionFree_pure _)
    (positionFree_pure _)

theorem positionFree_comparison : PositionFree (comparison inner) :=
  positionFree_chainOf (positionFree_range h) (positionFree_range h) comparisonOp

theorem positionFree_conjunction : PositionFree (conjunction inner) :=
  positionFree_chainOf (positionFree_comparison h) (positionFree_comparison h) andOp

theorem positionFree_disjunction : PositionFree (disjunction inner) :=
  positionFree_chainOf (positionFree_conjunction h) (positionFree_conjunction h) orOp

theorem positionFree_shortConjunction : PositionFree (shortConjunction inner) :=
  positionFree_chainOf (positionFree_disjunction h) (positionFree_disjunction h) andAndOp

theorem positionFree_shortDisjunction : PositionFree (shortDisjunction inner) :=
  positionFree_chainOf (positionFree_shortConjunction h) (positionFree_shortConjunction h) orOrOp

end Inner

theorem positionFree_exprAt (n : Nat) : PositionFree (exprAt n) := by
  induction n with
  | zero => exact positionFree_fail _
  | succ n ih => exact positionFree_shortDisjunction ih

theorem positionFree_expr : PositionFree expr :=
  positionFree_remaining.bind fun n => positionFree_exprAt (n + 1)

theorem positionFree_operand : PositionFree operand :=
  positionFree_remaining.bind fun n => positionFree_suffixed (positionFree_exprAt (n + 1))

/-! ## Statements -/

theorem isMultiAssignment_alike {c d : Cursor} (alike : Alike c d) :
    isMultiAssignment c = isMultiAssignment d := by
  unfold isMultiAssignment
  rw [alike.tokens]

theorem isCommand_alike {c d : Cursor} (alike : Alike c d) : isCommand c = isCommand d := by
  unfold isCommand
  rw [alike.peekAt?, alike.peekAt?, alike.spacedAt]

theorem positionFree_targetsFrom (n : Nat) : PositionFree (targetsFrom n) := by
  induction n with
  | zero => exact positionFree_fail _
  | succ n ih =>
    refine (positionFree_isAt .rightBracket).bind fun _ => positionFree_ite (positionFree_pure _) ?_
    refine (positionFree_isAt .comma).bind fun _ => positionFree_ite
      (positionFree_advance.bind fun _ => ih) ?_
    refine positionFree_operand.bind fun e => ?_
    split
    · exact ih.bind fun _ => positionFree_pure _
    · exact positionFree_fail _

theorem positionFree_multiAssignment : PositionFree multiAssignment :=
  (positionFree_expect .leftBracket).bind fun _ => (positionFree_enter .concat).bind fun _ =>
    positionFree_remaining.bind fun n => (positionFree_targetsFrom (n + 1)).bind fun _ =>
      positionFree_leave.bind fun _ => (positionFree_expect .rightBracket).bind fun _ =>
        (positionFree_expect .equals).bind fun _ => positionFree_expr.bind fun _ =>
          positionFree_pure _

theorem positionFree_wordsFrom (n : Nat) : PositionFree (wordsFrom n) := by
  induction n with
  | zero => exact positionFree_pure _
  | succ n ih =>
    refine positionFree_peek?.bind fun ahead => ?_
    split
    · exact positionFree_advance.bind fun _ => ih.bind fun _ => positionFree_pure _
    · exact positionFree_advance.bind fun _ => ih.bind fun _ => positionFree_pure _
    · exact positionFree_pure _

theorem positionFree_command : PositionFree command :=
  positionFree_ident.bind fun _ => positionFree_remaining.bind fun n =>
    (positionFree_wordsFrom n).bind fun _ => positionFree_pure _

theorem positionFree_simpleStatement : PositionFree simpleStatement := by
  refine positionFree_expr.bind fun e => (positionFree_isAt .equals).bind fun _ => ?_
  refine positionFree_ite ?_ (positionFree_pure _)
  split
  · exact positionFree_advance.bind fun _ => positionFree_expr.bind fun _ => positionFree_pure _
  · exact positionFree_fail _

/-- The statement that the tokens behind a cursor call for. -/
theorem positionFree_statementAt (d : Cursor) :
    PositionFree (match d.peek? with
      | some .ret => do advance; return .ret
      | some .brk => do advance; return .brk
      | some .leftBracket => if isMultiAssignment d then multiAssignment else simpleStatement
      | some (.ident name) =>
          if controlFlow.contains name then
            fail ("Control flow '" ++ name ++ "' is not supported")
          else if isCommand d then command
          else simpleStatement
      | _ => simpleStatement) := by
  split
  · exact positionFree_advance.bind fun _ => positionFree_pure _
  · exact positionFree_advance.bind fun _ => positionFree_pure _
  · exact positionFree_ite positionFree_multiAssignment positionFree_simpleStatement
  · exact positionFree_ite (positionFree_fail _)
      (positionFree_ite positionFree_command positionFree_simpleStatement)
  · exact positionFree_simpleStatement

theorem positionFree_statement : PositionFree statement := by
  refine positionFree_get fun c d alike => ?_
  rw [alike.peek?, isMultiAssignment_alike alike, isCommand_alike alike]
  exact positionFree_statementAt d c d alike

theorem positionFree_sequenceFrom (stops : Token → Bool) {item : Parser α}
    (h : PositionFree item) (n : Nat) : PositionFree (sequenceFrom stops item n) := by
  induction n with
  | zero => exact positionFree_pure _
  | succ n ih =>
    refine (positionFree_modify fun _ _ alike => alike.skipSeparators).bind fun _ => ?_
    refine positionFree_peek?.bind fun ahead => ?_
    cases ahead with
    | none => exact positionFree_pure _
    | some t =>
      refine positionFree_ite (positionFree_pure _) (positionFree_ite (positionFree_fail _) ?_)
      refine h.bind fun x => positionFree_peek?.bind fun ahead => ?_
      cases ahead with
      | none => exact positionFree_pure _
      | some t =>
        exact positionFree_ite (ih.bind fun _ => positionFree_pure _) (positionFree_fail _)

theorem positionFree_sequence (stops : Token → Bool) {item : Parser α} (h : PositionFree item) :
    PositionFree (sequence stops item) :=
  positionFree_remaining.bind fun n => positionFree_sequenceFrom stops h (n + 1)

/-! ## Functions and programs -/

theorem positionFree_namesFrom (close : Token) (n : Nat) : PositionFree (namesFrom close n) := by
  induction n with
  | zero => exact positionFree_fail _
  | succ n ih =>
    refine (positionFree_isAt close).bind fun _ => positionFree_ite
      (positionFree_advance.bind fun _ => positionFree_pure _) ?_
    refine (positionFree_isAt .comma).bind fun _ => positionFree_ite
      (positionFree_advance.bind fun _ => ih) ?_
    exact positionFree_ident.bind fun _ => ih.bind fun _ => positionFree_pure _

theorem positionFree_names (close : Token) : PositionFree (names close) :=
  positionFree_advance.bind fun _ => positionFree_remaining.bind fun n =>
    positionFree_namesFrom close (n + 1)

theorem positionFree_outputs : PositionFree outputs := by
  refine (positionFree_isAt .leftBracket).bind fun _ => positionFree_ite ?_ ?_
  · exact (positionFree_names .rightBracket).bind fun _ => (positionFree_expect .equals).bind
      fun _ => positionFree_pure _
  · refine positionFree_get fun c d alike => ?_
    rw [alike.peekAt?]
    refine positionFree_ite ?_ (positionFree_pure _) c d alike
    exact positionFree_ident.bind fun _ => positionFree_advance.bind fun _ => positionFree_pure _

theorem positionFree_params : PositionFree params :=
  (positionFree_isAt .leftParen).bind fun _ =>
    positionFree_ite (positionFree_names .rightParen) (positionFree_pure _)

theorem positionFree_function : PositionFree function := by
  refine (positionFree_expect .function).bind fun _ => positionFree_outputs.bind fun _ => ?_
  refine positionFree_ident.bind fun _ => positionFree_params.bind fun _ => ?_
  refine (positionFree_sequence stopsBody positionFree_statement).bind fun _ => ?_
  refine (positionFree_isAt .last).bind fun _ => ?_
  exact positionFree_ite (positionFree_advance.bind fun _ => positionFree_pure _)
    (positionFree_pure _)

theorem positionFree_item : PositionFree item :=
  (positionFree_isAt .function).bind fun _ => positionFree_ite
    (positionFree_function.bind fun _ => positionFree_pure _)
    (positionFree_statement.bind fun _ => positionFree_pure _)

theorem positionFree_program : PositionFree program :=
  positionFree_sequence _ positionFree_item

end Parser

/-- Tokens that look the same are the same program. -/
theorem Program.ofTokens_alike {ts us : List Spanned}
    (looks : ts.map Spanned.look = us.map Spanned.look) {p : Program}
    (h : Program.ofTokens us = .ok p) : Program.ofTokens ts = .ok p := by
  have same := Parser.positionFree_program (Cursor.start ts) (Cursor.start us) ⟨looks, rfl⟩
  unfold Program.ofTokens at h ⊢
  cases hu : Parser.program (Cursor.start us) with
  | error => rw [hu] at h; cases h
  | ok r =>
    rw [hu] at h same
    cases ht : Parser.program (Cursor.start ts) with
    | error => rw [ht] at same; exact same.elim
    | ok s =>
      rw [ht] at same
      have value : s.1 = r.1 := same.1
      exact (congrArg Except.ok value).trans h

end MatrixScript
