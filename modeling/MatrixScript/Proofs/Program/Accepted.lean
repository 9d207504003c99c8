/-
# `Proofs.Program.Accepted` — what the parser reads is canonical

The converse of reading printed programs: whatever the parser gives back is a
canonical program, but for commands, which printing leaves out
(`Program.accepted_of_parse`).  `Yields p P` says that the values of `p`
satisfy `P` wherever the tokens ahead are spelled; each parser has one lemma,
in the order of their definitions.  What level an expression stands at is what
the row of parsers is about (`Standing`).
-/
import MatrixScript.Proofs.Program.Level
import MatrixScript.Proofs.Token.Decimal
import MatrixScript.Proofs.Token.Sound
import MatrixScript.Program.Parser

namespace MatrixScript

namespace Parser

variable {α β : Type}

/-- Every token ahead is spelled as its kind demands. -/
def Spells (c : Cursor) : Prop := ∀ w ∈ c.rest, w.token.Spelled

/-- Where the tokens ahead are spelled, the parser's values satisfy `P`; the tokens
that it leaves are spelled too. -/
def Yields (p : Parser α) (P : α → Prop) : Prop :=
  ∀ c a d, Spells c → p c = .ok (a, d) → P a ∧ Spells d

/-! ## Combinators -/

theorem yields_pure {P : α → Prop} {a : α} (h : P a) : Yields (pure a) P := by
  rintro c _ _ spells run
  cases run
  exact ⟨h, spells⟩

theorem yields_fail (reason : String) (P : α → Prop) : Yields (fail reason) P := by
  rintro c a d - run
  cases run

theorem Yields.bind {p : Parser α} {f : α → Parser β} {P : α → Prop} {Q : β → Prop}
    (hp : Yields p P) (hf : ∀ a, P a → Yields (f a) Q) : Yields (p >>= f) Q := by
  intro c b d spells run
  cases first : p c with
  | error e =>
    have failed : (p >>= f) c = .error e := by simp [Bind.bind, StateT.bind, first, Except.bind]
    rw [failed] at run
    cases run
  | ok r =>
    obtain ⟨a, c'⟩ := r
    rw [bind_run first] at run
    obtain ⟨ha, spells'⟩ := hp c a c' spells first
    exact hf a ha c' b d spells' run

theorem yields_get {f : Cursor → Parser β} {Q : β → Prop} (h : ∀ c, Spells c → Yields (f c) Q) :
    Yields ((get : Parser Cursor) >>= f) Q :=
  fun c b d spells run => h c spells c b d spells run

theorem yields_modify {g : Cursor → Cursor} (h : ∀ c, Spells c → Spells (g c)) :
    Yields (modify g) fun _ => True := by
  rintro c _ _ spells run
  cases run
  exact ⟨trivial, h c spells⟩

theorem yields_ite {b : Prop} [Decidable b] {p q : Parser α} {P : α → Prop} (hp : Yields p P)
    (hq : Yields q P) : Yields (if b then p else q) P := by
  split
  · exact hp
  · exact hq

/-! ## Primitives -/

theorem Spells.peek? {c : Cursor} (h : Spells c) : ∀ t ∈ c.peek?, t.Spelled := by
  intro t ht
  cases rest : c.rest with
  | nil => simp [Cursor.peek?, rest] at ht
  | cons w ws =>
    obtain rfl : w.token = t := by simpa [Cursor.peek?, rest] using ht
    exact h w (by rw [rest]; exact List.mem_cons_self)

theorem yields_peek? : Yields peek? fun ahead => ∀ t ∈ ahead, t.Spelled :=
  yields_get fun _ spells => yields_pure spells.peek?

theorem yields_isAt (t : Token) : Yields (isAt t) fun _ => True :=
  yields_get fun _ _ => yields_pure trivial

theorem yields_remaining : Yields remaining fun _ => True :=
  yields_get fun _ _ => yields_pure trivial

theorem yields_advance : Yields advance fun _ => True :=
  yields_modify fun _ spells w mem => spells w (List.mem_of_mem_tail mem)

theorem yields_enter (g : Group) : Yields (enter g) fun _ => True :=
  yields_modify fun _ spells => spells

theorem yields_leave : Yields leave fun _ => True := yields_modify fun _ spells => spells

theorem yields_expect (t : Token) : Yields (expect t) fun _ => True :=
  (yields_isAt t).bind fun _ _ => yields_ite yields_advance (yields_fail _ _)

theorem yields_ident : Yields ident fun x => isName x := by
  refine yields_peek?.bind fun ahead spelled => ?_
  split
  case h_1 x => exact yields_advance.bind fun _ _ => yields_pure (spelled (.ident x) rfl)
  case h_2 => exact yields_fail _ _

/-! ## Levels -/

/-- The expression is canonical and stands at level `ℓ` or a tighter one. -/
def Standing (ℓ : Nat) (e : Expr) : Prop := e.Canonical ∧ ℓ ≤ e.level

theorem Standing.mono {ℓ m : Nat} {e : Expr} (h : Standing m e) (le : ℓ ≤ m) : Standing ℓ e :=
  ⟨h.1, Nat.le_trans le h.2⟩

/-- The expression can stand behind an operator of level `ℓ`. -/
def StandingBehind (ℓ : Nat) (e : Expr) : Prop :=
  e.Canonical ∧ ℓ < (if ℓ = 9 then e.withoutMinus else e).level

theorem standingBehind_of_standing {ℓ : Nat} (ne : ℓ ≠ 9) {e : Expr} (h : Standing (ℓ + 1) e) :
    StandingBehind ℓ e := by
  refine ⟨h.1, ?_⟩
  rw [if_neg ne]
  exact h.2

theorem canonical_of_chain {op : ChainOp} {first second : Expr} {more : List Expr}
    (h : (Expr.chain op first second more).Canonical) {e : Expr} (canonical : e.Canonical)
    (takes : op.Takes e) : (Expr.chain op first second (more ++ [e])).Canonical := by
  cases h with
  | chain canonicalFirst le other canonicals takesAll =>
    have cons : second :: (more ++ [e]) = (second :: more) ++ [e] := rfl
    refine .chain canonicalFirst le other ?_ ?_
    · rw [cons]
      intro e' mem
      rcases List.mem_append.mp mem with mem | mem
      · exact canonicals e' mem
      · obtain rfl := List.mem_singleton.mp mem
        exact canonical
    · rw [cons]
      intro e' mem
      rcases List.mem_append.mp mem with mem | mem
      · exact takesAll e' mem
      · obtain rfl := List.mem_singleton.mp mem
        exact takes

theorem standing_binary {ℓ : Nat} {t : Token} {op : BinaryOp} (h : operatorAt ℓ t = some op)
    {left right : Expr} (hl : Standing ℓ left) (hr : StandingBehind ℓ right) :
    Standing ℓ (.binary op left right) := by
  rcases level_of_operatorAt h with ⟨o, rfl, rfl⟩ | ⟨o, rfl, rfl⟩
  case inr =>
    have tight : 5 ≤ right.level := hr.2
    exact ⟨.compare hl.1 hl.2 hr.1 tight, Nat.le_refl _⟩
  case inl =>
    by_cases same : left.chainOp? = some o
    case neg =>
      rw [binary_of_chainOp?_ne same]
      have takes : o.Takes right := hr.2
      exact ⟨.chain hl.1 hl.2 same (by simpa using hr.1) (by simpa using takes), Nat.le_refl _⟩
    case pos =>
      cases left with
      | chain o' first second more =>
        obtain rfl : o' = o := by simpa [Expr.chainOp?] using same
        have flat : Expr.binary (.chain o') (.chain o' first second more) right
            = .chain o' first second (more ++ [right]) := by simp [Expr.binary]
        rw [flat]
        exact ⟨canonical_of_chain hl.1 hr.1 hr.2, Nat.le_refl _⟩
      | _ => cases same

/-! ## Expressions -/

theorem yields_chainFrom {ℓ : Nat} {operand : Parser Expr}
    (h : Yields operand (StandingBehind ℓ)) (n : Nat) {left : Expr} (hl : Standing ℓ left) :
    Yields (chainFrom operand (operatorAt ℓ) n left) (Standing ℓ) := by
  induction n generalizing left with
  | zero => exact yields_pure hl
  | succ n ih =>
    refine yields_get fun c _ => ?_
    cases ahead : operatorAhead? (operatorAt ℓ) c with
    | none => exact yields_pure hl
    | some op =>
      have operator : ∃ t, operatorAt ℓ t = some op := by
        unfold operatorAhead? at ahead
        split at ahead
        · cases ahead
        · obtain ⟨t, -, found⟩ := Option.bind_eq_some_iff.mp ahead
          exact ⟨t, found⟩
      obtain ⟨t, found⟩ := operator
      exact yields_advance.bind fun _ _ => h.bind fun right hr => ih (standing_binary found hl hr)

theorem yields_chainOf {ℓ : Nat} {first operand : Parser Expr} (hf : Yields first (Standing (ℓ + 1)))
    (ho : Yields operand (StandingBehind ℓ)) :
    Yields (chainOf first operand (operatorAt ℓ)) (Standing ℓ) :=
  hf.bind fun _ hl => yields_remaining.bind fun n _ =>
    yields_chainFrom ho n (hl.mono (Nat.le_succ ℓ))

/-- A level whose operands are all of the next one. -/
theorem yields_level {ℓ : Nat} (ne : ℓ ≠ 9) {p : Parser Expr} (h : Yields p (Standing (ℓ + 1))) :
    Yields (chainOf p p (operatorAt ℓ)) (Standing ℓ) := by
  refine yields_chainOf h ?_
  intro c e d spells run
  obtain ⟨standing, spells'⟩ := h c e d spells run
  exact ⟨standingBehind_of_standing ne standing, spells'⟩

/-- The expression can be an argument. -/
def Argument (e : Expr) : Prop := e ≠ .all → e.Canonical

section Inner

variable {inner : Parser Expr} (h : Yields inner (Standing 0))
include h

theorem yields_argument : Yields (argument inner) Argument := by
  refine yields_get fun c _ => yields_ite ?_ ?_
  · exact yields_advance.bind fun _ _ => yields_pure fun ne => absurd rfl ne
  · intro c e d spells run
    obtain ⟨standing, spells'⟩ := h c e d spells run
    exact ⟨fun _ => standing.1, spells'⟩

theorem yields_argumentsFrom (close : Token) (n : Nat) :
    Yields (argumentsFrom inner close n) fun es => ∀ e ∈ es, Argument e := by
  induction n with
  | zero => exact yields_fail _ _
  | succ n ih =>
    refine (yields_isAt close).bind fun _ _ => yields_ite (yields_pure (by simp)) ?_
    refine yields_peek?.bind fun _ _ => yields_ite (yields_fail _ _) ?_
    refine (yields_argument h).bind fun e he => (yields_isAt .comma).bind fun _ _ => ?_
    refine yields_ite (yields_advance.bind fun _ _ => ih.bind fun es hes => yields_pure ?_) ?_
    · exact List.forall_mem_cons.mpr ⟨he, hes⟩
    · refine (yields_isAt close).bind fun _ _ => yields_ite (yields_pure ?_) (yields_fail _ _)
      exact List.forall_mem_singleton.mpr he

theorem yields_arguments (close : Token) :
    Yields (arguments inner close) fun es => ∀ e ∈ es, Argument e :=
  yields_advance.bind fun _ _ => (yields_enter .paren).bind fun _ _ =>
    yields_remaining.bind fun n _ => (yields_argumentsFrom h close (n + 1)).bind fun _ hes =>
      yields_leave.bind fun _ _ => yields_advance.bind fun _ _ => yields_pure hes

/-- No row is empty and every element is canonical. -/
def Rows (rows : List (List Expr)) : Prop :=
  (∀ row ∈ rows, row ≠ []) ∧ ∀ row ∈ rows, ∀ e ∈ row, e.Canonical

omit h in
theorem rows_withRow {rows : List (List Expr)} {row : List Expr} (hrows : Rows rows)
    (hrow : ∀ e ∈ row, e.Canonical) : Rows (withRow rows row) := by
  unfold withRow
  split
  case isTrue => exact hrows
  case isFalse filled =>
    have ne : row ≠ [] := by simpa using filled
    constructor
    · intro r mem
      rcases List.mem_append.mp mem with mem | mem
      · exact hrows.1 r mem
      · rw [List.mem_singleton.mp mem]
        exact ne
    · intro r mem
      rcases List.mem_append.mp mem with mem | mem
      · exact hrows.2 r mem
      · rw [List.mem_singleton.mp mem]
        exact hrow

theorem yields_rowsFrom (close : Token) (n : Nat) {rows : List (List Expr)} {row : List Expr}
    (hrows : Rows rows) (hrow : ∀ e ∈ row, e.Canonical) :
    Yields (rowsFrom inner close n rows row) Rows := by
  induction n generalizing rows row with
  | zero => exact yields_fail _ _
  | succ n ih =>
    refine yields_peek?.bind fun ahead _ => ?_
    cases ahead with
    | none => exact yields_fail _ _
    | some t =>
      refine yields_ite (yields_pure (rows_withRow hrows hrow)) ?_
      refine yields_ite (yields_advance.bind fun _ _ => ih (rows_withRow hrows hrow) (by simp)) ?_
      refine yields_ite (yields_advance.bind fun _ _ => ih hrows hrow) ?_
      refine h.bind fun e he => ih hrows ?_
      intro e' mem
      rcases List.mem_append.mp mem with mem | mem
      · exact hrow e' mem
      · rw [List.mem_singleton.mp mem]
        exact he.1

theorem yields_rows (close : Token) : Yields (rows inner close) Rows :=
  yields_advance.bind fun _ _ => (yields_enter .concat).bind fun _ _ =>
    yields_remaining.bind fun n _ =>
      (yields_rowsFrom h close (n + 1) ⟨by simp, by simp⟩ (by simp)).bind fun _ hrows =>
        yields_leave.bind fun _ _ => yields_advance.bind fun _ _ => yields_pure hrows

theorem yields_primary : Yields (primary inner) (Standing 11) := by
  refine yields_peek?.bind fun ahead spelled => ?_
  have passing : ∀ e : Expr, e.Canonical → 11 ≤ e.level → Yields (passing e) (Standing 11) :=
    fun e canonical level => yields_advance.bind fun _ _ => yields_pure ⟨canonical, level⟩
  split
  case h_1 => exact yields_fail _ _
  case h_2 s => exact passing _ (.literal (spelled (.int s) rfl)) (Nat.le_refl _)
  case h_3 s => exact passing _ (.literal (spelled (.float s) rfl)) (Nat.le_refl _)
  case h_4 s => exact passing _ (.literal (spelled (.imag s) rfl)) (Nat.le_refl _)
  case h_5 s => exact passing _ (.literal (spelled (.str s) rfl)) (Nat.le_refl _)
  case h_6 x => exact passing _ (.name (spelled (.ident x) rfl)) (Nat.le_refl _)
  case h_7 => exact passing _ .last (Nat.le_refl _)
  case h_8 =>
    exact yields_advance.bind fun _ _ => (yields_enter .paren).bind fun _ _ =>
      h.bind fun _ he => yields_leave.bind fun _ _ => (yields_expect .rightParen).bind fun _ _ =>
        yields_pure ⟨.paren he.1, Nat.le_refl _⟩
  case h_9 =>
    exact (yields_rows h .rightBracket).bind fun _ hrows =>
      yields_pure ⟨.matrix hrows.1 hrows.2, Nat.le_refl _⟩
  case h_10 =>
    refine (yields_rows h .rightBrace).bind fun found hrows =>
      yields_pure ⟨.cell ?_, Nat.le_refl _⟩
    intro e mem
    obtain ⟨row, memRow, memElement⟩ := List.mem_flatten.mp mem
    exact hrows.2 row memRow e memElement
  case h_11 => exact yields_fail _ _

omit h in
/-- Only a name takes a subscript. -/
theorem eq_name_of_suffixAhead {c : Cursor} {e : Expr} {f : String}
    (ahead : suffixAhead c e = .call f ∨ suffixAhead c e = .cellCall f) : e = .name f := by
  unfold suffixAhead at ahead
  split at ahead
  · split at ahead
    · rcases ahead with ahead | ahead <;> cases ahead
    · rcases ahead with ahead | ahead <;> cases ahead
      rfl
  · split at ahead
    · rcases ahead with ahead | ahead <;> cases ahead
    · rcases ahead with ahead | ahead <;> cases ahead
      rfl
  all_goals rcases ahead with ahead | ahead <;> cases ahead

omit h in
theorem isName_of_canonical {f : String} (canonical : (Expr.name f).Canonical) : isName f := by
  cases canonical with
  | name spelled => exact spelled

theorem yields_suffixesFrom (n : Nat) {e : Expr} (he : Standing 10 e) :
    Yields (suffixesFrom inner n e) (Standing 10) := by
  induction n generalizing e with
  | zero => exact yields_pure he
  | succ n ih =>
    refine yields_get fun c _ => ?_
    cases ahead : suffixAhead c e with
    | nothing => exact yields_pure he
    | transpose op =>
      exact yields_advance.bind fun _ _ => ih ⟨.transpose he.1 he.2, Nat.le_refl _⟩
    | call f =>
      obtain rfl := eq_name_of_suffixAhead (.inl ahead)
      exact (yields_arguments h .rightParen).bind fun es hes =>
        ih ⟨.call (isName_of_canonical he.1) hes, Nat.le_refl _⟩
    | cellCall f =>
      obtain rfl := eq_name_of_suffixAhead (.inr ahead)
      exact (yields_arguments h .rightBrace).bind fun es hes =>
        ih ⟨.cellCall (isName_of_canonical he.1) hes, Nat.le_refl _⟩

theorem yields_suffixed : Yields (suffixed inner) (Standing 10) :=
  (yields_primary h).bind fun _ he => yields_remaining.bind fun n _ =>
    yields_suffixesFrom h n (he.mono (by decide))

theorem yields_exponent : Yields (exponent inner) (StandingBehind 9) := by
  refine (yields_isAt .minus).bind fun _ _ => yields_ite ?_ ?_
  · refine yields_advance.bind fun _ _ => (yields_suffixed h).bind fun e he => yields_pure ?_
    exact ⟨.sign he.1 (Nat.le_trans (by decide) he.2), he.2⟩
  · intro c e d spells run
    obtain ⟨standing, spells'⟩ := yields_suffixed h c e d spells run
    refine ⟨⟨standing.1, ?_⟩, spells'⟩
    have same : e.withoutMinus = e := by
      cases e with
      | sign => exact absurd standing.2 (by simp [Expr.level])
      | _ => rfl
    rw [if_pos rfl, same]
    exact standing.2

theorem yields_power : Yields (power inner) (Standing 9) :=
  yields_chainOf (yields_suffixed h) (yields_exponent h)

omit h in
theorem yields_signedFrom {operand : Parser Expr} (ho : Yields operand (Standing 9)) (n : Nat) :
    Yields (signedFrom operand n) (Standing 8) := by
  have loose : Yields operand (Standing 8) := by
    intro c e d spells run
    obtain ⟨standing, spells'⟩ := ho c e d spells run
    exact ⟨standing.mono (by decide), spells'⟩
  induction n with
  | zero => exact loose
  | succ n ih =>
    refine yields_peek?.bind fun ahead _ => ?_
    split
    · exact yields_advance.bind fun _ _ => ih.bind fun e he =>
        yields_pure ⟨.sign he.1 he.2, Nat.le_refl _⟩
    · exact yields_advance.bind fun _ _ => ih.bind fun e he =>
        yields_pure ⟨.sign he.1 he.2, Nat.le_refl _⟩
    · exact yields_advance.bind fun _ _ => ih
    · exact loose

theorem yields_signed : Yields (signed inner) (Standing 8) :=
  yields_remaining.bind fun n _ => yields_signedFrom (yields_power h) n

theorem yields_multiplicative : Yields (multiplicative inner) (Standing 7) :=
  yields_level (by decide) (yields_signed h)

theorem yields_additive : Yields (additive inner) (Standing 6) :=
  yields_level (by decide) (yields_multiplicative h)

theorem yields_range : Yields (range inner) (Standing 5) := by
  refine (yields_additive h).bind fun start hs => (yields_isAt .colon).bind fun _ _ => ?_
  refine yields_ite ?_ (yields_pure (hs.mono (by decide)))
  refine yields_advance.bind fun _ _ => (yields_additive h).bind fun second h2 => ?_
  refine (yields_isAt .colon).bind fun _ _ => yields_ite ?_ ?_
  · exact yields_advance.bind fun _ _ => (yields_additive h).bind fun stop h3 =>
      yields_pure ⟨.stepped hs.1 hs.2 h2.1 h2.2 h3.1 h3.2, Nat.le_refl _⟩
  · exact yields_pure ⟨.range hs.1 hs.2 h2.1 h2.2, Nat.le_refl _⟩

theorem yields_comparison : Yields (comparison inner) (Standing 4) :=
  yields_level (by decide) (yields_range h)

theorem yields_conjunction : Yields (conjunction inner) (Standing 3) :=
  yields_level (by decide) (yields_comparison h)

theorem yields_disjunction : Yields (disjunction inner) (Standing 2) :=
  yields_level (by decide) (yields_conjunction h)

theorem yields_shortConjunction : Yields (shortConjunction inner) (Standing 1) :=
  yields_level (by decide) (yields_disjunction h)

theorem yields_shortDisjunction : Yields (shortDisjunction inner) (Standing 0) :=
  yields_level (by decide) (yields_shortConjunction h)

end Inner

theorem yields_exprAt (n : Nat) : Yields (exprAt n) (Standing 0) := by
  induction n with
  | zero => exact yields_fail _ _
  | succ n ih => exact yields_shortDisjunction ih

theorem yields_expr : Yields expr Expr.Canonical := by
  refine yields_remaining.bind fun n _ => ?_
  intro c e d spells run
  obtain ⟨standing, spells'⟩ := yields_exprAt (n + 1) c e d spells run
  exact ⟨standing.1, spells'⟩

theorem yields_operand : Yields operand Expr.Canonical := by
  refine yields_remaining.bind fun n _ => ?_
  intro c e d spells run
  obtain ⟨standing, spells'⟩ := yields_suffixed (yields_exprAt (n + 1)) c e d spells run
  exact ⟨standing.1, spells'⟩

/-! ## Statements -/

theorem canonical_of_target? {e : Expr} {t : Target} (canonical : e.Canonical)
    (target : e.target? = some t) : t.Canonical := by
  cases canonical with
  | name spelled =>
    cases target
    exact spelled
  | call spelled arguments =>
    cases target
    exact ⟨spelled, arguments⟩
  | _ => cases target

theorem yields_targetsFrom (n : Nat) : Yields (targetsFrom n) fun ts => ∀ t ∈ ts, t.Canonical := by
  induction n with
  | zero => exact yields_fail _ _
  | succ n ih =>
    refine (yields_isAt .rightBracket).bind fun _ _ => yields_ite (yields_pure (by simp)) ?_
    refine (yields_isAt .comma).bind fun _ _ => yields_ite (yields_advance.bind fun _ _ => ih) ?_
    refine yields_operand.bind fun e he => ?_
    split
    case h_1 t target =>
      refine ih.bind fun ts hts => yields_pure ?_
      exact List.forall_mem_cons.mpr ⟨canonical_of_target? he target, hts⟩
    case h_2 => exact yields_fail _ _

theorem yields_multiAssignment : Yields multiAssignment Statement.Accepted :=
  (yields_expect .leftBracket).bind fun _ _ => (yields_enter .concat).bind fun _ _ =>
    yields_remaining.bind fun n _ => (yields_targetsFrom (n + 1)).bind fun _ hts =>
      yields_leave.bind fun _ _ => (yields_expect .rightBracket).bind fun _ _ =>
        (yields_expect .equals).bind fun _ _ => yields_expr.bind fun _ he =>
          yields_pure (P := Statement.Accepted) ⟨hts, he⟩

/-- Names and integers have no line end. -/
theorem spells_str_of_word {w : String} (h : isName w ∨ LiteralKind.int.spells w) :
    LiteralKind.str.spells w := by
  have line : ∀ c ∈ w.toList, c ≠ '\n' := by
    rcases h with name | int
    · unfold isName at name
      intro c mem
      rintro rfl
      split at name
      · cases name
      · rename_i first rest letters
        rw [letters] at mem
        simp only [Bool.and_eq_true, List.all_eq_true] at name
        rcases List.mem_cons.mp mem with eq | mem
        · rw [← eq] at name
          exact absurd name.1.1 (by decide)
        · exact absurd (name.1.2 _ mem) (by decide)
    · intro c mem
      have numeral := List.all_eq_true.mp (Token.all_isNumeral (eq_of_beq int) (by decide)) c mem
      rintro rfl
      exact absurd numeral (by decide)
  simpa [LiteralKind.spells] using line

theorem yields_wordsFrom (n : Nat) :
    Yields (wordsFrom n) fun words => ∀ word ∈ words, LiteralKind.str.spells word := by
  induction n with
  | zero => exact yields_pure (by simp)
  | succ n ih =>
    refine yields_peek?.bind fun ahead spelled => ?_
    split
    · rename_i w
      have name : isName w := spelled _ rfl
      exact yields_advance.bind fun _ _ => ih.bind fun _ words => yields_pure
        (List.forall_mem_cons.mpr ⟨spells_str_of_word (.inl name), words⟩)
    · rename_i w
      have int : LiteralKind.int.spells w := spelled _ rfl
      exact yields_advance.bind fun _ _ => ih.bind fun _ words => yields_pure
        (List.forall_mem_cons.mpr ⟨spells_str_of_word (.inr int), words⟩)
    · exact yields_pure (by simp)

theorem yields_command : Yields command Statement.Accepted :=
  yields_ident.bind fun _ name => yields_remaining.bind fun n _ =>
    (yields_wordsFrom n).bind fun _ words =>
      yields_pure (P := Statement.Accepted) ⟨name, words⟩

theorem yields_simpleStatement : Yields simpleStatement Statement.Accepted := by
  refine yields_expr.bind fun e he => (yields_isAt .equals).bind fun _ _ => ?_
  refine yields_ite ?_ (yields_pure (P := Statement.Accepted) he)
  split
  case h_1 t target =>
    exact yields_advance.bind fun _ _ => yields_expr.bind fun _ hv =>
      yields_pure (P := Statement.Accepted) ⟨canonical_of_target? he target, hv⟩
  case h_2 => exact yields_fail _ _

theorem yields_statement : Yields statement Statement.Accepted := by
  refine yields_get fun c _ => ?_
  split
  · exact yields_advance.bind fun _ _ => yields_pure (P := Statement.Accepted) trivial
  · exact yields_advance.bind fun _ _ => yields_pure (P := Statement.Accepted) trivial
  · exact yields_ite yields_multiAssignment yields_simpleStatement
  · exact yields_ite (yields_fail _ _) (yields_ite yields_command yields_simpleStatement)
  · exact yields_simpleStatement

theorem yields_sequenceFrom (stops : Token → Bool) {item : Parser α} {P : α → Prop}
    (h : Yields item P) (n : Nat) : Yields (sequenceFrom stops item n) fun xs => ∀ x ∈ xs, P x := by
  induction n with
  | zero => exact yields_pure (by simp)
  | succ n ih =>
    have skips : Yields (modify Cursor.skipSeparators) fun _ => True :=
      yields_modify fun c spells w mem => spells w ((List.dropWhile_sublist _).subset mem)
    refine skips.bind fun _ _ => yields_peek?.bind fun ahead _ => ?_
    cases ahead with
    | none => exact yields_pure (by simp)
    | some t =>
      refine yields_ite (yields_pure (by simp)) (yields_ite (yields_fail _ _) ?_)
      refine h.bind fun x hx => yields_peek?.bind fun ahead _ => ?_
      cases ahead with
      | none => exact yields_pure (List.forall_mem_singleton.mpr hx)
      | some t =>
        exact yields_ite
          (ih.bind fun xs hxs => yields_pure (List.forall_mem_cons.mpr ⟨hx, hxs⟩))
          (yields_fail _ _)

theorem yields_sequence (stops : Token → Bool) {item : Parser α} {P : α → Prop}
    (h : Yields item P) : Yields (sequence stops item) fun xs => ∀ x ∈ xs, P x :=
  yields_remaining.bind fun n _ => yields_sequenceFrom stops h (n + 1)

/-! ## Functions and programs -/

theorem yields_namesFrom (close : Token) (n : Nat) :
    Yields (namesFrom close n) fun xs => ∀ x ∈ xs, isName x := by
  induction n with
  | zero => exact yields_fail _ _
  | succ n ih =>
    refine (yields_isAt close).bind fun _ _ => yields_ite
      (yields_advance.bind fun _ _ => yields_pure (by simp)) ?_
    refine (yields_isAt .comma).bind fun _ _ => yields_ite (yields_advance.bind fun _ _ => ih) ?_
    exact yields_ident.bind fun x hx => ih.bind fun xs hxs =>
      yields_pure (List.forall_mem_cons.mpr ⟨hx, hxs⟩)

theorem yields_names (close : Token) : Yields (names close) fun xs => ∀ x ∈ xs, isName x :=
  yields_advance.bind fun _ _ => yields_remaining.bind fun n _ => yields_namesFrom close (n + 1)

theorem yields_outputs : Yields outputs fun xs => ∀ x ∈ xs, isName x := by
  refine (yields_isAt .leftBracket).bind fun _ _ => yields_ite ?_ ?_
  · exact (yields_names .rightBracket).bind fun _ hxs => (yields_expect .equals).bind fun _ _ =>
      yields_pure hxs
  · refine yields_get fun c _ => yields_ite ?_ (yields_pure (by simp))
    exact yields_ident.bind fun x hx => yields_advance.bind fun _ _ =>
      yields_pure (List.forall_mem_singleton.mpr hx)

theorem yields_params : Yields params fun xs => ∀ x ∈ xs, isName x :=
  (yields_isAt .leftParen).bind fun _ _ =>
    yields_ite (yields_names .rightParen) (yields_pure (by simp))

theorem yields_function : Yields function (Function.Spelled Statement.Accepted) := by
  refine (yields_expect .function).bind fun _ _ => yields_outputs.bind fun outputs houtputs => ?_
  refine yields_ident.bind fun name hname => yields_params.bind fun params hparams => ?_
  refine (yields_sequence stopsBody yields_statement).bind fun body hbody => ?_
  refine (yields_isAt .last).bind fun _ _ => ?_
  have spelled : Function.Spelled Statement.Accepted ⟨name, outputs, params, body⟩ :=
    ⟨hname, houtputs, hparams, hbody⟩
  exact yields_ite (yields_advance.bind fun _ _ => yields_pure spelled) (yields_pure spelled)

theorem yields_item : Yields item (Item.Spelled Statement.Accepted) :=
  (yields_isAt .function).bind fun _ _ => yields_ite
    (yields_function.bind fun _ hf => yields_pure (P := Item.Spelled Statement.Accepted) hf)
    (yields_statement.bind fun _ hs => yields_pure (P := Item.Spelled Statement.Accepted) hs)

theorem yields_program : Yields program Program.Accepted := yields_sequence _ yields_item

end Parser

/-- Whatever the parser reads is canonical, but for commands. -/
theorem Program.accepted_of_parse {source : String} {p : Program}
    (h : Program.parse source = .ok p) : p.Accepted := by
  unfold Program.parse at h
  cases tokens : Token.tokenize source with
  | error e => rw [tokens] at h; cases h
  | ok ts =>
    rw [tokens] at h
    dsimp only at h
    unfold Program.ofTokens at h
    cases run : Parser.program (Cursor.start ts) with
    | error e => rw [run] at h; cases h
    | ok r =>
      obtain ⟨q, d⟩ := r
      rw [run] at h
      cases h
      exact (Parser.yields_program (Cursor.start ts) _ d (Token.spelled_of_tokenize tokens) run).1

end MatrixScript
