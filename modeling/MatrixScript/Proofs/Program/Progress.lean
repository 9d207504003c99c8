/-
# `Proofs.Program.Progress` — the parser advances

Whatever the tokens are and wherever the parser stands, what it reads takes at least one
token, ends within the tokens and leaves the open brackets as they were
(`Parser.Advances`).  That it stays within the tokens is known (`Carried`, with nothing
behind them); here the first token is watched.
-/
import MatrixScript.Proofs.Program.Append

namespace MatrixScript

namespace Parser

variable {α β : Type} {c : Cursor}

/-! ## Tokens taken -/

/-- What `p` reads at the cursor ends within the tokens ahead, with the same brackets open. -/
def StaysAt (c : Cursor) (p : Parser α) : Prop :=
  ∀ a d, p c = .ok (a, d) → d.rest <:+ c.rest ∧ d.groups = c.groups

/-- Besides, it takes the token ahead. -/
def AdvancesAt (c : Cursor) (p : Parser α) : Prop :=
  ∀ a d, p c = .ok (a, d) → c.rest ≠ [] ∧ d.rest <:+ c.step.rest ∧ d.groups = c.groups

/-- So it does everywhere. -/
def Stays (p : Parser α) : Prop := ∀ c, StaysAt c p

/-- So it does everywhere. -/
def Advances (p : Parser α) : Prop := ∀ c, AdvancesAt c p

theorem Carries.staysAt {p : Parser α} (h : Carries [] c.groups c p p) : StaysAt c p :=
  fun a d run => ⟨(h a d run).1, (h a d run).2.1⟩

theorem Carried.stays {p : Parser α} (h : Carried [] p p) : Stays p :=
  fun c => (h c (.inl rfl)).staysAt

theorem AdvancesAt.staysAt {p : Parser α} (h : AdvancesAt c p) : StaysAt c p := fun a d run =>
  ⟨(h a d run).2.1.trans (List.tail_suffix _), (h a d run).2.2⟩

theorem advancesAt_fail (reason : String) : AdvancesAt c (fail reason : Parser α) := by
  intro a d run
  cases run

theorem AdvancesAt.bind {p : Parser α} {f : α → Parser β} (h : AdvancesAt c p)
    (later : ∀ a, Stays (f a)) : AdvancesAt c (p >>= f) := by
  intro b e run
  obtain ⟨a, d, first, rest⟩ := exists_of_bind_run run
  obtain ⟨some, part, groups⟩ := h a d first
  obtain ⟨part', groups'⟩ := later a d b e rest
  exact ⟨some, part'.trans part, groups'.trans groups⟩

/-- The token ahead is passed. -/
theorem advancesAt_pass {t : Token} {f : PUnit → Parser β} (ahead : c.peek? = some t)
    (later : StaysAt c.step (f ⟨⟩)) : AdvancesAt c (advance >>= f) := fun b e run =>
  ⟨ne_nil_of_peek? ahead, later b e run⟩

theorem advancesAt_ite {b : Prop} [Decidable b] {p q : Parser α} (h : b → AdvancesAt c p)
    (h' : ¬b → AdvancesAt c q) : AdvancesAt c (if b then p else q) := by
  split
  · exact h ‹_›
  · exact h' ‹_›

theorem staysAt_pure (a : α) : StaysAt c (pure a) := by
  intro b d run
  cases run
  exact ⟨List.suffix_rfl, rfl⟩

theorem advancesAt_peek? {f : Option Token → Parser β} (h : AdvancesAt c (f c.peek?)) :
    AdvancesAt c (peek? >>= f) := h

theorem advancesAt_get {f : Cursor → Parser β} (h : AdvancesAt c (f c)) :
    AdvancesAt c ((get : Parser Cursor) >>= f) := h

theorem advancesAt_isAt {t : Token} {f : Bool → Parser β} (h : AdvancesAt c (f (c.peek? == some t))) :
    AdvancesAt c (isAt t >>= f) := h

theorem advances_expect (t : Token) : Advances (expect t) := by
  intro c
  refine advancesAt_isAt (advancesAt_ite (fun ahead => ?_) fun _ => advancesAt_fail _)
  have pass := advancesAt_pass (f := pure) (beq_iff_eq.mp ahead) (staysAt_pure PUnit.unit)
  rwa [bind_pure] at pass

theorem advances_ident : Advances ident := by
  intro c
  refine advancesAt_peek? ?_
  split
  case h_1 ahead => exact advancesAt_pass ahead (staysAt_pure _)
  case h_2 => exact advancesAt_fail _

/-- What stands in brackets takes the opening one. -/
theorem Bracketed.advancesAt {p q : Parser α} {t : Token} (h : Bracketed [] c p q)
    (ahead : c.peek? = some t) : AdvancesAt c p := fun a d run =>
  ⟨ne_nil_of_peek? ahead, h.shorter a d run, (h.carries a d run).2.1⟩

/-! ### Expressions -/

section Inner

variable {inner : Parser Expr} (h : Carried [] inner inner)
include h

theorem advancesAt_parenthesised (ahead : c.peek? = some .leftParen) :
    AdvancesAt c (parenthesised inner) := by
  refine advancesAt_pass ahead fun a d run => ?_
  rw [enter_bind_run] at run
  obtain ⟨e, f, first, later⟩ := exists_of_bind_run run
  obtain ⟨part, groups⟩ := h.stays _ e f first
  have closing : Token.rightParen ≠ .newline := by rintro ⟨⟩
  obtain ⟨part', groups'⟩ :=
    ((carried_expect closing).bind fun _ => carried_pure (Expr.paren e)).stays _ a d later
  refine ⟨part'.trans part, groups'.trans ?_⟩
  show f.groups.tail = _
  rw [groups]
  rfl

theorem advances_primary : Advances (primary inner) := by
  intro c
  have passing : ∀ {t : Token} (e : Expr), c.peek? = some t → AdvancesAt c (passing e) :=
    fun e ahead => advancesAt_pass ahead (staysAt_pure e)
  refine advancesAt_peek? ?_
  split
  case h_1 => exact advancesAt_fail _
  case h_2 ahead => exact passing _ ahead
  case h_3 ahead => exact passing _ ahead
  case h_4 ahead => exact passing _ ahead
  case h_5 ahead => exact passing _ ahead
  case h_6 ahead => exact passing _ ahead
  case h_7 ahead => exact passing _ ahead
  case h_8 ahead => exact advancesAt_parenthesised h ahead
  case h_9 ahead =>
    exact ((bracketed_rows h (.inl rfl) ahead (by rintro ⟨⟩) (by rintro ⟨⟩)).advancesAt ahead).bind
      fun _ => (carried_pure _).stays
  case h_10 ahead =>
    exact ((bracketed_rows h (.inl rfl) ahead (by rintro ⟨⟩) (by rintro ⟨⟩)).advancesAt ahead).bind
      fun _ => (carried_pure _).stays
  case h_11 => exact advancesAt_fail _

theorem advances_suffixed : Advances (suffixed inner) := fun c =>
  (advances_primary h c).bind fun e => Carried.stays fun _ fits => carries_remaining fun _ le =>
    carries_suffixesFrom h le e fits (Nat.le_refl _)

omit h in
theorem advances_chainOf {first operand : Parser Expr} (advances : Advances first)
    (carried : Carried [] operand operand) {operator : Token → Option BinaryOp}
    (other : operator .newline = none) : Advances (chainOf first operand operator) := fun c =>
  (advances c).bind fun left => Carried.stays fun _ fits => carries_remaining fun _ le =>
    carries_chainFrom carried other le left fits (Nat.le_refl _)

theorem advances_power : Advances (power inner) :=
  advances_chainOf (advances_suffixed h) (carried_exponent h) rfl

omit h in
/-- A sign is a token, and behind the signs stands an operand. -/
theorem advances_signedFrom {operand : Parser Expr} (advances : Advances operand) (n : Nat) :
    Advances (signedFrom operand n) := by
  induction n with
  | zero => exact advances
  | succ n ih =>
    intro c
    have signed : ∀ op : SignOp, StaysAt c.step (do return Expr.sign op (← signedFrom operand n)) :=
      fun op => ((ih c.step).bind fun e => (carried_pure (Expr.sign op e)).stays).staysAt
    refine advancesAt_peek? ?_
    split
    case h_1 ahead => exact advancesAt_pass ahead (signed .neg)
    case h_2 ahead => exact advancesAt_pass ahead (signed .not)
    case h_3 ahead => exact advancesAt_pass ahead (ih c.step).staysAt
    case h_4 => exact advances c

theorem advances_signed : Advances (signed inner) := fun c =>
  advances_signedFrom (advances_power h) c.rest.length c

theorem advances_multiplicative : Advances (multiplicative inner) :=
  advances_chainOf (advances_signed h) (carried_signed h) rfl

theorem advances_additive : Advances (additive inner) :=
  advances_chainOf (advances_multiplicative h) (carried_multiplicative h) rfl

theorem advances_range : Advances (range inner) := fun c =>
  (advances_additive h c).bind fun start => (carried_boundsFrom h start).stays

theorem advances_comparison : Advances (comparison inner) :=
  advances_chainOf (advances_range h) (carried_range h) rfl

theorem advances_conjunction : Advances (conjunction inner) :=
  advances_chainOf (advances_comparison h) (carried_comparison h) rfl

theorem advances_disjunction : Advances (disjunction inner) :=
  advances_chainOf (advances_conjunction h) (carried_conjunction h) rfl

theorem advances_shortConjunction : Advances (shortConjunction inner) :=
  advances_chainOf (advances_disjunction h) (carried_disjunction h) rfl

theorem advances_shortDisjunction : Advances (shortDisjunction inner) :=
  advances_chainOf (advances_shortConjunction h) (carried_shortConjunction h) rfl

end Inner

/-- Brackets of any depth are read as they are by more patient parsers. -/
theorem carried_inner (n : Nat) : Carried [] (exprAt n) (exprAt n) := carried_exprAt (Nat.le_refl n)

theorem advances_exprAt : ∀ n, Advances (exprAt n)
  | 0, _ => advancesAt_fail _
  | n + 1, c => advances_shortDisjunction (carried_inner n) c

theorem advances_expr : Advances expr := by
  intro c a d run
  rw [expr, remaining_bind_run] at run
  exact advances_exprAt _ c a d run

theorem advances_operand : Advances operand := by
  intro c a d run
  rw [operand, remaining_bind_run] at run
  exact advances_suffixed (carried_inner _) c a d run

/-! ### Statements and functions -/

theorem advances_simpleStatement : Advances simpleStatement := fun c =>
  (advances_expr c).bind fun e => (carried_assignedFrom e).stays

theorem advances_command : Advances command := fun c =>
  (advances_ident c).bind fun name => (carried_commandWords name).stays

theorem advances_multiAssignment : Advances multiAssignment := fun c =>
  (advances_expect .leftBracket c).bind fun _ => carried_destinations.stays

theorem advances_statement : Advances statement := by
  intro c
  refine advancesAt_get ?_
  split
  case h_1 ahead => exact advancesAt_pass ahead (staysAt_pure _)
  case h_2 ahead => exact advancesAt_pass ahead (staysAt_pure _)
  case h_3 =>
    exact advancesAt_ite (fun _ => advances_multiAssignment c) fun _ => advances_simpleStatement c
  case h_4 =>
    exact advancesAt_ite (fun _ => advancesAt_fail _) fun _ =>
      advancesAt_ite (fun _ => advances_command c) fun _ => advances_simpleStatement c
  case h_5 => exact advances_simpleStatement c

theorem advances_heading : Advances heading := fun c =>
  (advances_expect .function c).bind fun _ => carried_signature.stays

theorem stays_sequence {stops : Token → Bool} {item : Parser α} (carried : Carried [] item item) :
    Stays (sequence stops item) := by
  intro c as d run
  have rounds := rounds_of_sequenceFrom (n := c.rest.length + 1) run
  obtain ⟨part, groups, -⟩ :=
    rounds.carried carried (Nat.le_refl _) (.inl rfl) (lasts_length stops c)
  exact ⟨part, groups⟩

theorem Stays.bind {p : Parser α} {f : α → Parser β} (h : Stays p) (later : ∀ a, Stays (f a)) :
    Stays (p >>= f) := by
  intro c b e run
  obtain ⟨a, d, first, rest⟩ := exists_of_bind_run run
  obtain ⟨part, groups⟩ := h c a d first
  obtain ⟨part', groups'⟩ := later a d b e rest
  exact ⟨part'.trans part, groups'.trans groups⟩

theorem advances_function : Advances function := by
  rw [function_eq]
  refine fun c => (advances_heading c).bind fun h => (stays_sequence carried_statement).bind
    fun body => Carried.stays fun c fits => ?_
  refine carries_isAt fits .last (carries_ite (fun last => ?_) fun _ => carries_pure fits _)
  exact carries_pass fits (beq_iff_eq.mp last) (by rintro ⟨⟩) fun behind => carries_pure behind _

theorem advances_item : Advances item := fun c =>
  advancesAt_isAt (advancesAt_ite
    (fun _ => (advances_function c).bind fun f => (carried_pure (Item.function f)).stays)
    fun _ => (advances_statement c).bind fun s => (carried_pure (Item.statement s)).stays)

end Parser

end MatrixScript
