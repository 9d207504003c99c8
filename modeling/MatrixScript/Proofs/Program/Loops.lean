/-
# `Proofs.Program.Loops` — every loop of the parser is over in time

Every round of a loop hands over to the next one with fewer tokens ahead than it had
itself, in runs that fail too (`Parser.Shrinks`).  So a loop is over after at most one more
round than tokens are ahead, whatever a further round would do (`Parser.Finishes`): the
bounds that the parser gives its loops never stop it, and neither does the one that it
gives the nesting of brackets (`Parser.exprAt_agrees`).

Loops are compared with themselves unrolled a number of times (`Parser.unrolled`), and
parsers with each other on few tokens (`Parser.AgreesBelow`).
-/
import MatrixScript.Proofs.Program.Progress
import MatrixScript.Proofs.Tree.Linked

namespace MatrixScript

namespace Parser

variable {α β σ : Type} {c : Cursor} {k n m : Nat}

/-! ## Parsers that agree on few tokens -/

/-- With fewer than `k` tokens ahead the two parsers do the same, failing included. -/
def AgreesBelow (k : Nat) (p q : Parser α) : Prop := ∀ c : Cursor, c.rest.length < k → p c = q c

theorem agreesBelow_refl (k : Nat) (p : Parser α) : AgreesBelow k p p := fun _ _ => rfl

/-- Behind parsers that do the same there are no more tokens ahead. -/
theorem bind_agrees {p q : Parser α} {f g : α → Parser β} (same : p c = q c) (stays : StaysAt c p)
    (lt : c.rest.length < k) (later : ∀ a, AgreesBelow k (f a) (g a)) :
    (p >>= f) c = (q >>= g) c := by
  show (p c).bind (fun r => f r.1 r.2) = (q c).bind (fun r => g r.1 r.2)
  rw [← same]
  cases run : p c with
  | error => rfl
  | ok r => exact later r.1 r.2 (Nat.lt_of_le_of_lt (stays r.1 r.2 run).1.length_le lt)

/-- Behind a parser that advances there are fewer tokens ahead. -/
theorem bind_agrees_advances {p q : Parser α} {f g : α → Parser β} (same : p c = q c)
    (advances : AdvancesAt c p) (lt : c.rest.length < k + 1)
    (later : ∀ a, AgreesBelow k (f a) (g a)) : (p >>= f) c = (q >>= g) c := by
  show (p c).bind (fun r => f r.1 r.2) = (q c).bind (fun r => g r.1 r.2)
  rw [← same]
  cases run : p c with
  | error => rfl
  | ok r =>
    obtain ⟨some, part, -⟩ := advances r.1 r.2 run
    have tail : c.step.rest.length = c.rest.length - 1 := List.length_tail
    have filled := List.length_pos_iff.mpr some
    exact later r.1 r.2 (by have := part.length_le; omega)

theorem AgreesBelow.bind {p q : Parser α} {f g : α → Parser β} (h : AgreesBelow k p q)
    (stays : Stays p) (later : ∀ a, AgreesBelow k (f a) (g a)) :
    AgreesBelow k (p >>= f) (q >>= g) := fun c lt => bind_agrees (h c lt) (stays c) lt later

/-- Behind the token ahead there are fewer. -/
theorem AgreesBelow.step {p q : Parser α} {t : Token} (h : AgreesBelow k p q)
    (ahead : c.peek? = some t) (lt : c.rest.length < k + 1) : p c.step = q c.step := by
  have tail : c.step.rest.length = c.rest.length - 1 := List.length_tail
  have filled := List.length_pos_iff.mpr (ne_nil_of_peek? ahead)
  exact h c.step (by omega)

theorem AgreesBelow.ite {b : Prop} [Decidable b] {p q p' q' : Parser α} (h : AgreesBelow k p q)
    (h' : AgreesBelow k p' q') : AgreesBelow k (if b then p else p') (if b then q else q') := by
  split
  · exact h
  · exact h'

/-- A look at the cursor. -/
theorem agreesBelow_get {f g : Cursor → Parser β} (h : ∀ c, AgreesBelow k (f c) (g c)) :
    AgreesBelow k ((get : Parser Cursor) >>= f) ((get : Parser Cursor) >>= g) := fun c => h c c

/-- The bound of a loop. -/
theorem agreesBelow_remaining {f g : Nat → Parser β} (h : ∀ n, AgreesBelow k (f n) (g n)) :
    AgreesBelow k (remaining >>= f) (remaining >>= g) := fun c => h c.rest.length c

/-- A look at the token ahead. -/
theorem agreesBelow_peek? {f g : Option Token → Parser β} (h : ∀ t, AgreesBelow k (f t) (g t)) :
    AgreesBelow k (peek? >>= f) (peek? >>= g) := fun c => h c.peek? c

theorem agreesBelow_isAt {t : Token} {f g : Bool → Parser β} (h : ∀ b, AgreesBelow k (f b) (g b)) :
    AgreesBelow k (isAt t >>= f) (isAt t >>= g) := fun c => h (c.peek? == some t) c

theorem AgreesBelow.advance {f g : PUnit → Parser β} (h : AgreesBelow k (f ⟨⟩) (g ⟨⟩)) :
    AgreesBelow k (advance >>= f) (advance >>= g) := fun c lt =>
  h c.step (Nat.lt_of_le_of_lt (List.tail_suffix c.rest).length_le lt)

theorem AgreesBelow.enter {f g : PUnit → Parser β} {i : Group} (h : AgreesBelow k (f ⟨⟩) (g ⟨⟩)) :
    AgreesBelow k (enter i >>= f) (enter i >>= g) := fun c lt =>
  h { c with groups := i :: c.groups } lt

/-- What follows does not matter where the first parser does the same. -/
theorem AgreesBelow.then {p q : Parser α} (h : AgreesBelow k p q) (f : α → Parser β) :
    AgreesBelow k (p >>= f) (q >>= f) := by
  intro c lt
  show (p c).bind _ = (q c).bind _
  rw [h c lt]

/-- A bracket is passed. -/
theorem AgreesBelow.pass {f g : PUnit → Parser β} {t : Token} (h : AgreesBelow k (f ⟨⟩) (g ⟨⟩))
    (ahead : c.peek? = some t) (lt : c.rest.length < k + 1) :
    (Parser.advance >>= f) c = (Parser.advance >>= g) c := h.step ahead lt

/-! ## Nesting -/

theorem agrees_chainFrom {operand operand' : Parser Expr} (h : AgreesBelow k operand operand')
    (stays : Stays operand) (operator : Token → Option BinaryOp) :
    ∀ n left, AgreesBelow k (chainFrom operand operator n left) (chainFrom operand' operator n left)
  | 0, _ => agreesBelow_refl k _
  | n + 1, left => by
    refine agreesBelow_get fun c => ?_
    split
    · exact agreesBelow_refl k _
    · exact (h.bind stays fun right => agrees_chainFrom h stays operator n _).advance

theorem agrees_chainOf {first first' operand operand' : Parser Expr}
    (h : AgreesBelow k first first') (stays : Stays first) (h' : AgreesBelow k operand operand')
    (stays' : Stays operand) (operator : Token → Option BinaryOp) :
    AgreesBelow k (chainOf first operand operator) (chainOf first' operand' operator) :=
  h.bind stays fun left => agreesBelow_remaining fun n => agrees_chainFrom h' stays' operator n left

section Inner

variable {inner inner' : Parser Expr} (h : AgreesBelow k inner inner')
  (carried : Carried [] inner inner)

include h in
theorem agrees_argument : AgreesBelow k (argument inner) (argument inner') :=
  agreesBelow_get fun _ => .ite (agreesBelow_refl k _) h

include h carried

theorem agrees_argumentsFrom (close : Token) :
    ∀ n, AgreesBelow k (argumentsFrom inner close n) (argumentsFrom inner' close n)
  | 0 => agreesBelow_refl k _
  | n + 1 => by
    refine agreesBelow_isAt fun _ => .ite (agreesBelow_refl k _) ?_
    refine agreesBelow_peek? fun _ => .ite (agreesBelow_refl k _) ?_
    refine (agrees_argument h).bind (carried_argument carried).stays fun e => ?_
    refine agreesBelow_isAt fun _ => .ite ?_ (agreesBelow_refl k _)
    exact ((agrees_argumentsFrom close n).then _).advance

theorem agrees_rowsFrom (close : Token) : ∀ n rows row,
    AgreesBelow k (rowsFrom inner close n rows row) (rowsFrom inner' close n rows row)
  | 0, _, _ => agreesBelow_refl k _
  | n + 1, rows, row => by
    refine agreesBelow_peek? fun t => ?_
    cases t with
    | none => exact agreesBelow_refl k _
    | some t =>
      refine .ite (agreesBelow_refl k _) (.ite (agrees_rowsFrom close n _ _).advance ?_)
      refine .ite (agrees_rowsFrom close n _ _).advance ?_
      exact h.bind carried.stays fun e => agrees_rowsFrom close n _ _

/-- Arguments are behind a bracket. -/
theorem arguments_agrees (close : Token) {t : Token} (ahead : c.peek? = some t)
    (lt : c.rest.length < k + 1) : arguments inner close c = arguments inner' close c :=
  AgreesBelow.pass (.enter (agreesBelow_remaining fun n =>
    (agrees_argumentsFrom h carried close (n + 1)).then _)) ahead lt

/-- Rows are behind a bracket. -/
theorem rows_agrees (close : Token) {t : Token} (ahead : c.peek? = some t)
    (lt : c.rest.length < k + 1) : rows inner close c = rows inner' close c :=
  AgreesBelow.pass (.enter (agreesBelow_remaining fun n =>
    (agrees_rowsFrom h carried close (n + 1) [] []).then _)) ahead lt

theorem agrees_primary : AgreesBelow (k + 1) (primary inner) (primary inner') := by
  intro c lt
  rw [primary, primary, peek?_bind_run, peek?_bind_run]
  cases ahead : c.peek? with
  | none => rfl
  | some t =>
    cases t with
    | leftParen => exact AgreesBelow.pass (.enter (h.then _)) ahead lt
    | leftBracket =>
      show (rows inner .rightBracket c).bind _ = (rows inner' .rightBracket c).bind _
      rw [rows_agrees h carried .rightBracket ahead lt]
    | leftBrace =>
      show (rows inner .rightBrace c).bind _ = (rows inner' .rightBrace c).bind _
      rw [rows_agrees h carried .rightBrace ahead lt]
    | _ => rfl

theorem agrees_suffixesFrom :
    ∀ n e, AgreesBelow (k + 1) (suffixesFrom inner n e) (suffixesFrom inner' n e)
  | 0, _ => agreesBelow_refl _ _
  | n + 1, e => by
    intro c lt
    rw [suffixesFrom, suffixesFrom, get_bind_run, get_bind_run]
    cases suffix : suffixAhead c e with
    | nothing => rfl
    | transpose op => exact (agrees_suffixesFrom n _).advance c lt
    | call f =>
      have ahead := leftParen_of_suffixAhead suffix
      have stays := ((bracketed_arguments carried (.inl rfl) ahead (by rintro ⟨⟩)
        (show Token.rightParen ≠ .newline by rintro ⟨⟩)).advancesAt ahead).staysAt
      exact bind_agrees (arguments_agrees h carried _ ahead lt) stays lt
        fun es => agrees_suffixesFrom n _
    | cellCall f =>
      have ahead := leftBrace_of_suffixAhead suffix
      have stays := ((bracketed_arguments carried (.inl rfl) ahead (by rintro ⟨⟩)
        (show Token.rightBrace ≠ .newline by rintro ⟨⟩)).advancesAt ahead).staysAt
      exact bind_agrees (arguments_agrees h carried _ ahead lt) stays lt
        fun es => agrees_suffixesFrom n _

theorem agrees_suffixed : AgreesBelow (k + 1) (suffixed inner) (suffixed inner') :=
  (agrees_primary h carried).bind (carried_primary carried).stays fun e =>
    agreesBelow_remaining fun n => agrees_suffixesFrom h carried n e

theorem agrees_exponent : AgreesBelow (k + 1) (exponent inner) (exponent inner') :=
  agreesBelow_isAt fun _ =>
    .ite ((agrees_suffixed h carried).then _).advance (agrees_suffixed h carried)

theorem agrees_power : AgreesBelow (k + 1) (power inner) (power inner') :=
  agrees_chainOf (agrees_suffixed h carried) (carried_suffixed carried).stays
    (agrees_exponent h carried) (carried_exponent carried).stays powerOp

omit h carried in
theorem agrees_signedFrom {operand operand' : Parser Expr} (h : AgreesBelow k operand operand') :
    ∀ n, AgreesBelow k (signedFrom operand n) (signedFrom operand' n)
  | 0 => h
  | n + 1 => by
    refine agreesBelow_peek? fun t => ?_
    split
    · exact ((agrees_signedFrom h n).then _).advance
    · exact ((agrees_signedFrom h n).then _).advance
    · exact (agrees_signedFrom h n).advance
    · exact h

theorem agrees_signed : AgreesBelow (k + 1) (signed inner) (signed inner') :=
  agreesBelow_remaining fun n => agrees_signedFrom (agrees_power h carried) n

theorem agrees_multiplicative : AgreesBelow (k + 1) (multiplicative inner) (multiplicative inner') :=
  have operand := agrees_signed h carried
  have stays := (carried_signed carried).stays
  agrees_chainOf operand stays operand stays multiplicativeOp

theorem agrees_additive : AgreesBelow (k + 1) (additive inner) (additive inner') :=
  have operand := agrees_multiplicative h carried
  have stays := (carried_multiplicative carried).stays
  agrees_chainOf operand stays operand stays additiveOp

theorem agrees_range : AgreesBelow (k + 1) (range inner) (range inner') := by
  have bound := agrees_additive h carried
  have stays := (carried_additive carried).stays
  refine bound.bind stays fun start => agreesBelow_isAt fun _ => .ite ?_ (agreesBelow_refl _ _)
  refine (bound.bind stays fun second => agreesBelow_isAt fun _ => .ite ?_ (agreesBelow_refl _ _)).advance
  exact (bound.then _).advance

theorem agrees_comparison : AgreesBelow (k + 1) (comparison inner) (comparison inner') :=
  have operand := agrees_range h carried
  have stays := (carried_range carried).stays
  agrees_chainOf operand stays operand stays comparisonOp

theorem agrees_conjunction : AgreesBelow (k + 1) (conjunction inner) (conjunction inner') :=
  have operand := agrees_comparison h carried
  have stays := (carried_comparison carried).stays
  agrees_chainOf operand stays operand stays andOp

theorem agrees_disjunction : AgreesBelow (k + 1) (disjunction inner) (disjunction inner') :=
  have operand := agrees_conjunction h carried
  have stays := (carried_conjunction carried).stays
  agrees_chainOf operand stays operand stays orOp

theorem agrees_shortConjunction :
    AgreesBelow (k + 1) (shortConjunction inner) (shortConjunction inner') :=
  have operand := agrees_disjunction h carried
  have stays := (carried_disjunction carried).stays
  agrees_chainOf operand stays operand stays andAndOp

theorem agrees_shortDisjunction :
    AgreesBelow (k + 1) (shortDisjunction inner) (shortDisjunction inner') :=
  have operand := agrees_shortConjunction h carried
  have stays := (carried_shortConjunction carried).stays
  agrees_chainOf operand stays operand stays orOrOp

end Inner

/-- Brackets cannot nest deeper than there are tokens. -/
theorem exprAt_agrees : ∀ k n m, k ≤ n → k ≤ m → AgreesBelow k (exprAt n) (exprAt m)
  | 0, _, _, _, _ => fun _ lt => absurd lt (Nat.not_lt_zero _)
  | k + 1, n + 1, m + 1, le, le' =>
      agrees_shortDisjunction
        (exprAt_agrees k n m (Nat.le_of_succ_le_succ le) (Nat.le_of_succ_le_succ le'))
        (carried_inner n)

theorem exprAt_eq_expr {n : Nat} (lt : c.rest.length < n) : exprAt n c = expr c := by
  rw [expr, remaining_bind_run]
  exact exprAt_agrees (c.rest.length + 1) n _ lt (Nat.le_refl _) c (Nat.lt_succ_self _)

/-! ## Loops -/

/-- A loop of at most `n` rounds; `beyond` is what would be done in a further one.  A round is
told what the next one does, and may hand over to it. -/
def unrolled (round : (σ → Parser α) → σ → Parser α) (beyond : σ → Parser α) : Nat → σ → Parser α
  | 0 => beyond
  | n + 1 => round (unrolled round beyond n)

/-- A round hands over to the next one only with fewer tokens ahead. -/
def Shrinks (round : (σ → Parser α) → σ → Parser α) : Prop :=
  ∀ k f g, (∀ s, AgreesBelow k (f s) (g s)) → ∀ s, AgreesBelow (k + 1) (round f s) (round g s)

/-- The loop is over after at most one more round than tokens are ahead: what a further one
would do makes no difference, wherever the loop starts and whatever it ends with. -/
def Finishes (round : (σ → Parser α) → σ → Parser α) (loop : σ → Parser α) : Prop :=
  ∀ beyond s c, unrolled round beyond (c.rest.length + 1) s c = loop s c

section

variable {round : (σ → Parser α) → σ → Parser α}

theorem Shrinks.unrolled_agrees (h : Shrinks round) (f g : σ → Parser α) :
    ∀ k n m, k ≤ n → k ≤ m → ∀ s, AgreesBelow k (unrolled round f n s) (unrolled round g m s)
  | 0, _, _, _, _, _ => fun _ lt => absurd lt (Nat.not_lt_zero _)
  | k + 1, n + 1, m + 1, le, le', s =>
      h k _ _ (h.unrolled_agrees f g k n m (Nat.le_of_succ_le_succ le) (Nat.le_of_succ_le_succ le')) s

theorem unrolled_eq {loop : Nat → σ → Parser α} (step : ∀ n, loop (n + 1) = round (loop n)) :
    ∀ n, loop n = unrolled round (loop 0) n
  | 0 => rfl
  | n + 1 => by rw [step, unrolled_eq step n, unrolled]

/-- A loop that is bounded by one more round than tokens are ahead. -/
theorem Shrinks.finishes (h : Shrinks round) (loop : Nat → σ → Parser α)
    (step : ∀ n, loop (n + 1) = round (loop n)) :
    Finishes round (fun s => do loop ((← remaining) + 1) s) := by
  intro beyond s c
  show _ = loop (c.rest.length + 1) s c
  rw [unrolled_eq step]
  exact h.unrolled_agrees beyond _ _ _ _ (Nat.le_refl _) (Nat.le_refl _) s c (Nat.lt_succ_self _)

/-- Where nothing is ahead a round is what the loop does when its bound has run out. -/
theorem Shrinks.last_round (h : Shrinks round) {last : σ → Parser α}
    (empty : ∀ f s gs, round f s ⟨[], gs⟩ = last s ⟨[], gs⟩) : ∀ n s,
    AgreesBelow (n + 1) (unrolled round last n s) (unrolled round last (n + 1) s)
  | 0, s => fun c lt => by
    obtain ⟨rest, gs⟩ := c
    obtain rfl : rest = [] := List.eq_nil_of_length_eq_zero (Nat.lt_one_iff.mp lt)
    exact (empty _ s gs).symm
  | n + 1, s => h (n + 1) _ _ (h.last_round empty n) s

/-- A loop that is bounded by the number of tokens ahead. -/
theorem Shrinks.finishes_of_empty (h : Shrinks round) (loop : Nat → σ → Parser α)
    (step : ∀ n, loop (n + 1) = round (loop n))
    (empty : ∀ f s gs, round f s ⟨[], gs⟩ = loop 0 s ⟨[], gs⟩) :
    Finishes round (fun s => do loop (← remaining) s) := by
  intro beyond s c
  show _ = loop c.rest.length s c
  rw [h.finishes loop step beyond s c, unrolled_eq step]
  show loop (c.rest.length + 1) s c = _
  rw [unrolled_eq step]
  exact (h.last_round empty c.rest.length s c (Nat.lt_succ_self _)).symm

end

/-! ### Rounds -/

/-- One operator of a level with its operand. -/
def chainRound (operand : Parser Expr) (operator : Token → Option BinaryOp)
    (again : Expr → Parser Expr) (left : Expr) : Parser Expr := do
  match operatorAhead? operator (← get) with
  | none => pure left
  | some op =>
      advance
      let right ← operand
      again (.binary op left right)

/-- One argument. -/
def argumentsRound (inner : Parser Expr) (close : Token) (again : Unit → Parser (List Expr))
    (_ : Unit) : Parser (List Expr) := do
  if ← isAt close then return []
  if (← peek?).isNone then fail ("Expected '" ++ close.text ++ "'")
  let e ← argument inner
  if ← isAt .comma then
    advance
    return e :: (← again ())
  else if ← isAt close then return [e]
  else fail "Expected ',' between arguments"

/-- One element or separator of a literal, with the rows so far and the open one. -/
def rowsRound (inner : Parser Expr) (close : Token)
    (again : List (List Expr) × List Expr → Parser (List (List Expr)))
    (s : List (List Expr) × List Expr) : Parser (List (List Expr)) := do
  match ← peek? with
  | none => fail ("Expected '" ++ close.text ++ "'")
  | some t =>
      if t = close then return withRow s.1 s.2
      else if t = .semicolon ∨ t = .newline then
        advance
        again (withRow s.1 s.2, [])
      else if t = .comma then
        advance
        again s
      else
        let e ← inner
        again (s.1, s.2 ++ [e])

/-- One suffix. -/
def suffixRound (inner : Parser Expr) (again : Expr → Parser Expr) (e : Expr) : Parser Expr := do
  match suffixAhead (← get) e with
  | .nothing => return e
  | .transpose op =>
      advance
      again (.transpose op e)
  | .call f => again (.call f (← arguments inner .rightParen))
  | .cellCall f => again (.cellCall f (← arguments inner .rightBrace))

/-- One sign. -/
def signRound (operand : Parser Expr) (again : Unit → Parser Expr) (_ : Unit) : Parser Expr := do
  match ← peek? with
  | some .minus =>
      advance
      return .sign .neg (← again ())
  | some .tilde =>
      advance
      return .sign .not (← again ())
  | some .plus =>
      advance
      again ()
  | _ => operand

/-- One destination. -/
def targetsRound (again : Unit → Parser (List Target)) (_ : Unit) : Parser (List Target) := do
  if ← isAt .rightBracket then return []
  if ← isAt .comma then
    advance
    again ()
  else
    match (← operand).target? with
    | some t => return t :: (← again ())
    | none => fail "Invalid assignment target"

/-- One word of a command. -/
def wordsRound (again : Unit → Parser (List String)) (_ : Unit) : Parser (List String) := do
  match ← peek? with
  | some (.ident w) | some (.int w) =>
      advance
      return w :: (← again ())
  | _ => return []

/-- One separator. -/
def separatorRound (again : Unit → Parser PUnit) (_ : Unit) : Parser PUnit := do
  if (← peek?).any Token.isSeparator then
    advance
    again ()
  else return

/-- One statement with the separators before it. -/
def sequenceRound (stops : Token → Bool) (item : Parser α) (again : Unit → Parser (List α))
    (_ : Unit) : Parser (List α) := do
  modify Cursor.skipSeparators
  match ← peek? with
  | none => return []
  | some t =>
      if stops t then return []
      else if t = .last then fail "Unexpected 'end'"
      else
        let s ← item
        match ← peek? with
        | none => return [s]
        | some t =>
            if t.isSeparator || stops t then return s :: (← again ())
            else fail "Expected end of statement"

/-- One name in a list of outputs or parameters. -/
def namesRound (close : Token) (again : Unit → Parser (List String)) (_ : Unit) :
    Parser (List String) := do
  if ← isAt close then
    advance
    return []
  else if ← isAt .comma then
    advance
    again ()
  else
    let x ← ident
    return x :: (← again ())

/-! ### The loops of expressions -/

theorem ahead_of_operatorAhead {operator : Token → Option BinaryOp} {op : BinaryOp}
    (h : operatorAhead? operator c = some op) : ∃ t, c.peek? = some t := by
  unfold operatorAhead? at h
  split at h
  · cases h
  · obtain ⟨t, ahead, -⟩ := Option.bind_eq_some_iff.mp h
    exact ⟨t, ahead⟩

theorem ahead_of_suffixAhead {e : Expr} (h : suffixAhead c e ≠ .nothing) :
    ∃ t, c.peek? = some t := by
  cases ahead : c.peek? with
  | some t => exact ⟨t, rfl⟩
  | none =>
    refine absurd ?_ h
    unfold suffixAhead
    rw [ahead]

theorem finishes_chainFrom {operand : Parser Expr} (stays : Stays operand)
    (operator : Token → Option BinaryOp) : Finishes (chainRound operand operator)
      (fun left => do chainFrom operand operator (← remaining) left) := by
  have shrinks : Shrinks (chainRound operand operator) := by
    intro k f g same left c lt
    rw [chainRound, chainRound, get_bind_run, get_bind_run]
    cases operation : operatorAhead? operator c with
    | none => rfl
    | some op =>
      obtain ⟨t, ahead⟩ := ahead_of_operatorAhead operation
      exact AgreesBelow.pass ((agreesBelow_refl k operand).bind stays fun right => same _) ahead lt
  exact shrinks.finishes_of_empty (chainFrom operand operator) (fun _ => rfl)
    fun _ _ _ => rfl

theorem finishes_signedFrom (operand : Parser Expr) :
    Finishes (signRound operand) (fun _ => do signedFrom operand (← remaining)) := by
  have shrinks : Shrinks (signRound operand) := by
    intro k f g same _ c lt
    rw [signRound, signRound, peek?_bind_run, peek?_bind_run]
    cases ahead : c.peek? with
    | none => rfl
    | some t =>
      cases t with
      | minus => exact AgreesBelow.pass ((same ()).then _) ahead lt
      | tilde => exact AgreesBelow.pass ((same ()).then _) ahead lt
      | plus => exact AgreesBelow.pass (same ()) ahead lt
      | _ => rfl
  exact shrinks.finishes_of_empty (fun n _ => signedFrom operand n) (fun _ => rfl)
    fun _ _ _ => rfl

section Inner

variable {inner : Parser Expr} (carried : Carried [] inner inner)
include carried

theorem finishes_argumentsFrom (close : Token) : Finishes (argumentsRound inner close)
    (fun _ => do argumentsFrom inner close ((← remaining) + 1)) := by
  have shrinks : Shrinks (argumentsRound inner close) := by
    intro k f g same _
    refine agreesBelow_isAt fun _ => .ite (agreesBelow_refl _ _) ?_
    refine agreesBelow_peek? fun _ => .ite (agreesBelow_refl _ _) ?_
    refine (agreesBelow_refl _ _).bind (carried_argument carried).stays fun e d lt => ?_
    rw [isAt_bind_run, isAt_bind_run]
    split
    case isTrue comma => exact AgreesBelow.pass ((same ()).then _) (beq_iff_eq.mp comma) lt
    case isFalse => rfl
  exact shrinks.finishes (fun n _ => argumentsFrom inner close n) fun _ => rfl

theorem finishes_suffixesFrom :
    Finishes (suffixRound inner) (fun e => do suffixesFrom inner (← remaining) e) := by
  have shrinks : Shrinks (suffixRound inner) := by
    intro k f g same e c lt
    rw [suffixRound, suffixRound, get_bind_run, get_bind_run]
    cases suffix : suffixAhead c e with
    | nothing => rfl
    | transpose op =>
      obtain ⟨t, ahead⟩ := ahead_of_suffixAhead (c := c) (e := e) (by rw [suffix]; rintro ⟨⟩)
      exact AgreesBelow.pass (same _) ahead lt
    | call f =>
      have ahead := leftParen_of_suffixAhead suffix
      have advances := (bracketed_arguments carried (.inl rfl) ahead (by rintro ⟨⟩)
        (show Token.rightParen ≠ .newline by rintro ⟨⟩)).advancesAt ahead
      exact bind_agrees_advances rfl advances lt fun es => same _
    | cellCall f =>
      have ahead := leftBrace_of_suffixAhead suffix
      have advances := (bracketed_arguments carried (.inl rfl) ahead (by rintro ⟨⟩)
        (show Token.rightBrace ≠ .newline by rintro ⟨⟩)).advancesAt ahead
      exact bind_agrees_advances rfl advances lt fun es => same _
  exact shrinks.finishes_of_empty (suffixesFrom inner) (fun _ => rfl) fun _ e _ => rfl

omit carried in
theorem finishes_rowsFrom (advances : Advances inner) (close : Token) :
    Finishes (rowsRound inner close)
      (fun s => do rowsFrom inner close ((← remaining) + 1) s.1 s.2) := by
  have shrinks : Shrinks (rowsRound inner close) := by
    intro k f g same s c lt
    rw [rowsRound, rowsRound, peek?_bind_run, peek?_bind_run]
    cases ahead : c.peek? with
    | none => rfl
    | some t =>
      dsimp only
      split
      · rfl
      · split
        · exact AgreesBelow.pass (same _) ahead lt
        · split
          · exact AgreesBelow.pass (same s) ahead lt
          · exact bind_agrees_advances rfl (advances c) lt fun e => same _
  exact shrinks.finishes (fun n s => rowsFrom inner close n s.1 s.2) fun _ => rfl

end Inner

/-! ### The loops of statements -/

theorem finishes_targetsFrom :
    Finishes targetsRound (fun _ => do targetsFrom ((← remaining) + 1)) := by
  have shrinks : Shrinks targetsRound := by
    intro k f g same _
    refine agreesBelow_isAt fun _ => .ite (agreesBelow_refl _ _) fun c lt => ?_
    rw [isAt_bind_run, isAt_bind_run]
    split
    case isTrue comma => exact AgreesBelow.pass (same ()) (beq_iff_eq.mp comma) lt
    case isFalse =>
      refine bind_agrees_advances rfl (advances_operand c) lt fun e => ?_
      cases e.target? with
      | none => exact agreesBelow_refl _ _
      | some t => exact (same ()).then _
  exact shrinks.finishes (fun n _ => targetsFrom n) fun _ => rfl

theorem finishes_wordsFrom : Finishes wordsRound (fun _ => do wordsFrom (← remaining)) := by
  have shrinks : Shrinks wordsRound := by
    intro k f g same _ c lt
    rw [wordsRound, wordsRound, peek?_bind_run, peek?_bind_run]
    cases ahead : c.peek? with
    | none => rfl
    | some t =>
      cases t with
      | ident w => exact AgreesBelow.pass ((same ()).then _) ahead lt
      | int w => exact AgreesBelow.pass ((same ()).then _) ahead lt
      | _ => rfl
  exact shrinks.finishes_of_empty (fun n _ => wordsFrom n) (fun _ => rfl) fun _ _ _ => rfl

theorem finishes_namesFrom (close : Token) :
    Finishes (namesRound close) (fun _ => do namesFrom close ((← remaining) + 1)) := by
  have shrinks : Shrinks (namesRound close) := by
    intro k f g same _ c lt
    rw [namesRound, namesRound, isAt_bind_run, isAt_bind_run]
    split
    case isTrue => rfl
    case isFalse =>
      rw [isAt_bind_run, isAt_bind_run]
      split
      case isTrue comma => exact AgreesBelow.pass (same ()) (beq_iff_eq.mp comma) lt
      case isFalse => exact bind_agrees_advances rfl (advances_ident c) lt fun x => (same ()).then _
  exact shrinks.finishes (fun n _ => namesFrom close n) fun _ => rfl

theorem finishes_sequenceFrom (stops : Token → Bool) {item : Parser α} (advances : Advances item) :
    Finishes (sequenceRound stops item) (fun _ => sequence stops item) := by
  have shrinks : Shrinks (sequenceRound stops item) := by
    intro k f g same _ c lt
    rw [sequenceRound, sequenceRound, modify_bind_run, modify_bind_run, peek?_bind_run,
      peek?_bind_run]
    have lt' : c.skipSeparators.rest.length < k + 1 :=
      Nat.lt_of_le_of_lt (skipSeparators_suffix c).length_le lt
    cases c.skipSeparators.peek? with
    | none => rfl
    | some t =>
      dsimp only
      split
      · rfl
      · split
        · rfl
        · refine bind_agrees_advances rfl (advances _) lt' fun s => agreesBelow_peek? fun u => ?_
          cases u with
          | none => exact agreesBelow_refl _ _
          | some u => exact .ite ((same ()).then _) (agreesBelow_refl _ _)
  exact shrinks.finishes (fun n _ => sequenceFrom stops item n) fun _ => rfl

theorem finishes_skipSeparators :
    Finishes separatorRound (fun _ => modify Cursor.skipSeparators) := by
  intro beyond _ c
  obtain ⟨rest, gs⟩ := c
  show unrolled separatorRound beyond (rest.length + 1) () ⟨rest, gs⟩
    = .ok (⟨⟩, ⟨rest.dropWhile (·.token.isSeparator), gs⟩)
  induction rest with
  | nil => rfl
  | cons w ws ih =>
    rw [unrolled, separatorRound, peek?_bind_run, Cursor.peek?_cons, Option.any_some]
    split
    case isTrue separator =>
      have passed : (w :: ws).dropWhile (·.token.isSeparator) = ws.dropWhile (·.token.isSeparator) :=
        List.dropWhile_cons_of_pos separator
      rw [passed, ← ih]
      rfl
    case isFalse other =>
      have stays : (w :: ws).dropWhile (·.token.isSeparator) = w :: ws :=
        List.dropWhile_cons_of_neg other
      rw [stays]
      rfl

/-! ## The whole parser -/

/-- What a successful call does: it takes at least one of the tokens ahead and stops within
them, the brackets that are open behind it are the ones that were open before it, and the
tree grows by nodes of its own. -/
structure Progress (c d : Cursor) (t : Tree) (number : Tree.Build NodeId) : Prop where
  taken : ∃ passed, passed ≠ [] ∧ passed ++ d.rest = c.rest
  groups : d.groups = c.groups
  tree : Tree.Build.Extends t number

/-- Every successful call of `p` does so, whatever the tokens, the open brackets and the tree
are; what it reads is numbered by `number`. -/
def Progresses (p : Parser α) (number : α → Tree.Build NodeId) : Prop :=
  ∀ c a d, p c = .ok (a, d) → ∀ t, Progress c d t (number a)

theorem Advances.progresses {p : Parser α} {number : α → Tree.Build NodeId} (h : Advances p)
    (grows : ∀ t a, Tree.Build.Extends t (number a)) : Progresses p number := by
  intro c a d run t
  obtain ⟨some, ⟨passed, whole⟩, groups⟩ := h c a d run
  refine ⟨⟨c.rest.head some :: passed, List.cons_ne_nil _ _, ?_⟩, groups, grows t a⟩
  rw [List.cons_append, whole]
  exact List.cons_head_tail some

/-- The operands of each level that operators join, with these operators. -/
def levels (inner : Parser Expr) : List (Parser Expr × (Token → Option BinaryOp)) :=
  [(exponent inner, powerOp), (signed inner, multiplicativeOp), (multiplicative inner, additiveOp),
    (range inner, comparisonOp), (comparison inner, andOp), (conjunction inner, orOp),
    (disjunction inner, andAndOp), (shortConjunction inner, orOrOp)]

/-- The loops of expressions are over in time. -/
structure ExprLoopsEnd (inner : Parser Expr) : Prop where
  chains : ∀ level ∈ levels inner, Finishes (chainRound level.1 level.2)
    (fun left => do chainFrom level.1 level.2 (← remaining) left)
  signs : Finishes (signRound (power inner)) (fun _ => do signedFrom (power inner) (← remaining))
  suffixes : Finishes (suffixRound inner) (fun e => do suffixesFrom inner (← remaining) e)
  arguments : ∀ close, Finishes (argumentsRound inner close)
    (fun _ => do argumentsFrom inner close ((← remaining) + 1))
  rows : ∀ close, Finishes (rowsRound inner close)
    (fun s => do rowsFrom inner close ((← remaining) + 1) s.1 s.2)

/-- The loops of statements are over in time. -/
structure StatementLoopsEnd : Prop where
  targets : Finishes targetsRound (fun _ => do targetsFrom ((← remaining) + 1))
  words : Finishes wordsRound (fun _ => do wordsFrom (← remaining))
  separators : Finishes separatorRound (fun _ => modify Cursor.skipSeparators)
  names : ∀ close, Finishes (namesRound close) (fun _ => do namesFrom close ((← remaining) + 1))
  body : Finishes (sequenceRound stopsBody statement) (fun _ => sequence stopsBody statement)
  program : Finishes (sequenceRound (fun _ => false) item) (fun _ => program)

theorem exprLoopsEnd {inner : Parser Expr} (carried : Carried [] inner inner)
    (advances : Advances inner) : ExprLoopsEnd inner where
  chains level mem := by
    refine finishes_chainFrom ?_ level.2
    simp only [levels, List.mem_cons, List.not_mem_nil, or_false] at mem
    rcases mem with rfl | rfl | rfl | rfl | rfl | rfl | rfl | rfl
    · exact (carried_exponent carried).stays
    · exact (carried_signed carried).stays
    · exact (carried_multiplicative carried).stays
    · exact (carried_range carried).stays
    · exact (carried_comparison carried).stays
    · exact (carried_conjunction carried).stays
    · exact (carried_disjunction carried).stays
    · exact (carried_shortConjunction carried).stays
  signs := finishes_signedFrom (power inner)
  suffixes := finishes_suffixesFrom carried
  arguments := finishes_argumentsFrom carried
  rows := finishes_rowsFrom advances

theorem statementLoopsEnd : StatementLoopsEnd where
  targets := finishes_targetsFrom
  words := finishes_wordsFrom
  separators := finishes_skipSeparators
  names := finishes_namesFrom
  body := finishes_sequenceFrom stopsBody advances_statement
  program := finishes_sequenceFrom (fun _ => false) advances_item

open Tree.Build (extends_expr extends_statement extends_function extends_item)

/-- The parser always advances: every successful call takes a token, stays within the tokens,
leaves the open brackets as they were and the nodes before it alone, and so every loop is
over after at most one more round than tokens are ahead, and brackets nest no deeper.  The
bound `n` of the parsers inside brackets may be any. -/
theorem parsers_progress :
    (Progresses expr Tree.Build.expr ∧ Progresses operand Tree.Build.expr
      ∧ Progresses statement Tree.Build.statement ∧ Progresses item Tree.Build.item
      ∧ Progresses function Tree.Build.function
      ∧ ∀ n, Progresses (signed (exprAt n)) Tree.Build.expr
        ∧ Progresses (suffixed (exprAt n)) Tree.Build.expr
        ∧ Progresses (primary (exprAt n)) Tree.Build.expr)
    ∧ (∀ n, ExprLoopsEnd (exprAt n)) ∧ StatementLoopsEnd
    ∧ ∀ n (c : Cursor), c.rest.length < n → exprAt n c = expr c := by
  refine ⟨⟨?_, ?_, ?_, ?_, ?_, fun n => ⟨?_, ?_, ?_⟩⟩, fun n => ?_, statementLoopsEnd,
    fun n c lt => exprAt_eq_expr lt⟩
  · exact advances_expr.progresses extends_expr
  · exact advances_operand.progresses extends_expr
  · exact advances_statement.progresses extends_statement
  · exact advances_item.progresses extends_item
  · exact advances_function.progresses extends_function
  · exact (advances_signed (carried_inner n)).progresses extends_expr
  · exact (advances_suffixed (carried_inner n)).progresses extends_expr
  · exact (advances_primary (carried_inner n)).progresses extends_expr
  · exact exprLoopsEnd (carried_inner n) (advances_exprAt n)

/-- Inside of a matrix `-b` is an element of its own: the expression ends in front of it, with
the bracket still open. -/
theorem parsers_progress_before_sign :
    let sign : List Spanned := [⟨.minus, 3, 4, true⟩, ⟨.ident "b", 4, 5, false⟩]
    expr ⟨⟨.ident "a", 1, 2, false⟩ :: sign, [.concat]⟩ = .ok (.name "a", ⟨sign, [.concat]⟩)
      ∧ Progress ⟨⟨.ident "a", 1, 2, false⟩ :: sign, [.concat]⟩ ⟨sign, [.concat]⟩ .empty
        (Tree.Build.expr (.name "a")) :=
  ⟨rfl, parsers_progress.1.1 _ _ _ rfl .empty⟩

end Parser

end MatrixScript
