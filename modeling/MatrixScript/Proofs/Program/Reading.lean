/-
# `Proofs.Program.Reading` — the parser reads printed expressions

What each construct does with its own words, given that its parts are read:
names with their suffixes, chains, signs and ranges.  `Expr.Canonical.read`
puts them together by induction on the expression.
-/
import MatrixScript.Proofs.Program.Brackets

namespace MatrixScript.Parser

/-! ## Single steps -/

theorem primary_name (inner : Parser Expr) (x : String) (b : Bool) (ws : List Spanned)
    (gs : List Group) :
    primary inner ⟨Token.word b (.ident x) :: ws, gs⟩ = .ok (.name x, ⟨ws, gs⟩) := rfl

theorem exponent_of_not_sign {t : Token} (h : t.isSign = false) (inner : Parser Expr) (b : Bool)
    (ws : List Spanned) (gs : List Group) :
    exponent inner ⟨Token.word b t :: ws, gs⟩ = suffixed inner ⟨Token.word b t :: ws, gs⟩ := by
  cases t <;> first | rfl | cases h

theorem operatorAt_chain (op : ChainOp) : operatorAt op.level op.token = some (.chain op) := by
  cases op <;> rfl

theorem operatorAt_compare (op : Comparison) : operatorAt 4 op.token = some (.compare op) := by
  cases op <;> rfl

theorem signedFrom_sign (op : SignOp) (operand : Parser Expr) (n : Nat) (b : Bool)
    (ws : List Spanned) (gs : List Group) :
    signedFrom operand (n + 1) ⟨Token.word b op.token :: ws, gs⟩
      = (signedFrom operand n >>= fun e => pure (.sign op e)) ⟨ws, gs⟩ := by
  cases op <;> rfl

theorem closes_apart {ℓ : Nat} {t : Token} {op : BinaryOp} (h : operatorAt ℓ t = some op)
    (ws : List Spanned) : Closes (ℓ + 1) (Token.apart t :: ws) := by
  refine closes_cons fun m hm => ?_
  have level : continues t = some ℓ := continues_of_operatorAt h
  obtain rfl : ℓ = m := by simpa [Token.apart, level] using hm
  exact Nat.lt_succ_self ℓ

variable [Layout]

/-! ## What stands alone -/

theorem reads_paren {e : Expr} (read : Reads 0 e) : Reads 11 (.paren e) := by
  intro n b rest gs _ short
  have shortInner : (e.words false).length < n := by
    simp only [Expr.words, List.length_cons, List.length_append] at short
    omega
  have run : exprAt n ⟨e.words false ++ Token.tight .rightParen :: rest, .paren :: gs⟩
      = .ok (e, ⟨Token.tight .rightParen :: rest, .paren :: gs⟩) :=
    exprAt_run read (closes_of_continues rfl) shortInner
  simp only [Expr.words, List.cons_append, List.append_assoc, List.nil_append]
  show parenthesised (exprAt n) _ = _
  unfold parenthesised
  simp only [advance_bind_run, Cursor.step_cons, enter_bind_run]
  rw [bind_run run, leave_bind_run]
  exact expect_bind_run (w := Token.tight .rightParen) rfl rest gs _

theorem reads_matrix {found : List (List Expr)} (filled : ∀ r ∈ found, r ≠ [])
    (inside : ∀ r ∈ found, ∀ e ∈ r, ReadInside e) : Reads 11 (.matrix found) := by
  intro n b rest gs _ short
  have shortInner : (rowWords found).length < n := by
    simp only [Expr.words, List.length_cons, List.length_append] at short
    omega
  simp only [Expr.words, List.cons_append, List.append_assoc, List.nil_append]
  show (rows (exprAt n) .rightBracket >>= fun r => pure (Expr.matrix r)) _ = _
  rw [bind_run (rows_run (.inl rfl) filled inside shortInner _ rest gs)]
  rfl

/-- A literal in braces is one row, or none if it is empty. -/
theorem exists_rows_of_elements {elements : List Expr} (inside : ∀ e ∈ elements, ReadInside e) :
    ∃ found, rowWords found = elementWords false elements ∧ found.flatten = elements ∧
      (∀ r ∈ found, r ≠ []) ∧ ∀ r ∈ found, ∀ e ∈ r, ReadInside e := by
  cases elements with
  | nil => exact ⟨[], rfl, rfl, by simp, by simp⟩
  | cons e es =>
    refine ⟨[e :: es], ?_, by simp, by simp, by simpa using inside⟩
    simp [rowWords, laterRowWords]

theorem reads_cell {elements : List Expr} (inside : ∀ e ∈ elements, ReadInside e) :
    Reads 11 (.cell elements) := by
  intro n b rest gs _ short
  have shortInner : (elementWords false elements).length < n := by
    simp only [Expr.words, List.length_cons, List.length_append] at short
    omega
  obtain ⟨found, words, flat, filled, insideFound⟩ := exists_rows_of_elements inside
  simp only [Expr.words, List.cons_append, List.append_assoc, List.nil_append]
  rw [← words] at shortInner ⊢
  show (rows (exprAt n) .rightBrace >>= fun r => pure (Expr.cell r.flatten)) _ = _
  rw [bind_run (rows_run (.inr rfl) filled insideFound shortInner _ rest gs), flat]
  rfl

theorem reads_name (x : String) : Reads 11 (.name x) :=
  fun n b rest gs _ _ => primary_name (exprAt n) x b rest gs

theorem reads_last : Reads 11 .last := fun _ _ _ _ _ _ => rfl

theorem reads_literal (kind : LiteralKind) (text : String) : Reads 11 (.literal kind text) := by
  intro n b rest gs _ _
  cases kind <;> rfl

/-! ## Suffixes -/

section Subscript

variable {f : String} {opening close : Token} {make : List Expr → Expr}

/-- A subscript behind a name, in brackets of either kind. -/
theorem feeds_subscript (closing : close = .rightParen ∨ close = .rightBrace)
    (words : ∀ es b, (make es).words b = Token.word b (.ident f) :: Token.tight opening ::
      (elementWords false es ++ [Token.tight close]))
    (step : ∀ inner k ws gs,
      suffixesFrom inner (k + 1) (.name f) ⟨Token.tight opening :: ws, gs⟩
        = (arguments inner close >>= fun es => suffixesFrom inner k (make es))
            ⟨Token.tight opening :: ws, gs⟩)
    {es : List Expr} (inside : ∀ e ∈ es, e ≠ .all → ReadInside e) : Feeds 10 (make es) := by
  intro n b rest gs _ short
  rw [words] at short ⊢
  have shortInner : (elementWords false es).length < n := by
    simp only [List.length_cons, List.length_append] at short
    omega
  refine ⟨(elementWords false es ++ Token.tight close :: rest).length, ?_, ?_⟩
  · rw [List.length_append, List.length_cons]
    omega
  · have call := arguments_run closing inside shortInner (Token.tight opening) rest gs
    simp only [List.cons_append, List.append_assoc, List.nil_append]
    rw [atLevel_eq_loop (.inr rfl)]
    refine (bind_run (primary_name (exprAt n) f b _ gs)).trans ?_
    rw [remaining_bind_run, List.length_cons]
    show suffixesFrom (exprAt n) (_ + 1) _ _ = _
    rw [step, bind_run call]
    rfl

theorem feeds_call {es : List Expr} (inside : ∀ e ∈ es, e ≠ .all → ReadInside e) :
    Feeds 10 (.call f es) := by
  refine feeds_subscript (f := f) (.inl rfl) (fun _ _ => by rw [Expr.words]) ?_ inside
  intro inner k ws gs
  have ahead : suffixAhead ⟨Token.tight .leftParen :: ws, gs⟩ (.name f) = .call f := by
    simp [suffixAhead, Token.tight, Cursor.spacedAt]
  rw [suffixesFrom, get_bind_run, ahead]

theorem feeds_cellCall {es : List Expr} (inside : ∀ e ∈ es, e ≠ .all → ReadInside e) :
    Feeds 10 (.cellCall f es) := by
  refine feeds_subscript (f := f) (.inr rfl) (fun _ _ => by rw [Expr.words]) ?_ inside
  intro inner k ws gs
  have ahead : suffixAhead ⟨Token.tight .leftBrace :: ws, gs⟩ (.name f) = .cellCall f := by
    simp [suffixAhead, Token.tight, Cursor.spacedAt]
  rw [suffixesFrom, get_bind_run, ahead]

end Subscript

theorem feeds_transpose {op : TransposeOp} {e : Expr} (feeds : Feeds 10 e) :
    Feeds 10 (.transpose op e) := by
  intro n b rest gs _ short
  have shortInner : (e.words b).length ≤ n := by
    simp only [Expr.words, List.length_append] at short
    omega
  have goesOn : Closes 11 (op.word :: rest) := by
    refine closes_cons fun m hm => ?_
    cases op <;> cases hm <;> decide
  obtain ⟨k, le, run⟩ := feeds n b (op.word :: rest) gs goesOn shortInner
  rw [List.length_cons] at le
  obtain ⟨k, rfl⟩ := Nat.exists_eq_add_one_of_ne_zero (n := k) (by omega)
  refine ⟨k, by omega, ?_⟩
  simp only [Expr.words, List.append_assoc, List.cons_append, List.nil_append]
  rw [run]
  have ahead : suffixAhead ⟨op.word :: rest, gs⟩ e = .transpose op := by cases op <;> rfl
  simp only [loopAt, if_true, suffixesFrom, get_bind_run, ahead]
  rfl

/-! ## Chains and comparisons -/

/-- The expression is read behind an operator of level `ℓ`. -/
def ReadOperand (ℓ : Nat) (e : Expr) : Prop :=
  ∀ (n : Nat) (rest : List Spanned) (gs : List Group), Closes (ℓ + 1) rest →
    (e.words true).length ≤ n →
      operandAt (exprAt n) ℓ ⟨e.words true ++ rest, gs⟩ = .ok (e, ⟨rest, gs⟩)

theorem readOperand_of_reads {ℓ : Nat} (ne : ℓ ≠ 9) {e : Expr} (reads : Reads (ℓ + 1) e) :
    ReadOperand ℓ e := by
  intro n rest gs closes short
  have operand : operandAt (exprAt n) ℓ = atLevel (exprAt n) (ℓ + 1) := by
    unfold operandAt
    split
    case h_1 => exact absurd rfl ne
    case h_2 => rfl
  rw [operand]
  exact reads n true rest gs closes short

/-- An exponent without a minus. -/
theorem readOperand_nine {e : Expr} (noSign : e.first.isSign = false) (reads : Reads 10 e) :
    ReadOperand 9 e := by
  intro n rest gs closes short
  obtain ⟨ws, shape⟩ := e.words_eq_cons true
  have run := reads n true rest gs closes short
  rw [shape, List.cons_append] at run ⊢
  exact (exponent_of_not_sign noSign (exprAt n) true _ gs).trans run

/-- An exponent with a minus of its own. -/
theorem readOperand_neg {e : Expr} (reads : Reads 10 e) : ReadOperand 9 (.sign .neg e) := by
  intro n rest gs closes short
  have shortInner : (e.words false).length ≤ n := by
    rw [Expr.words, List.length_cons] at short
    omega
  have run : suffixed (exprAt n) ⟨e.words false ++ rest, gs⟩ = .ok (e, ⟨rest, gs⟩) :=
    reads n false rest gs closes shortInner
  rw [Expr.words, List.cons_append]
  show (suffixed (exprAt n) >>= fun e => pure (Expr.sign .neg e)) ⟨e.words false ++ rest, gs⟩ = _
  rw [bind_run run]
  rfl

/-- An operator with blanks on both sides starts no new element. -/
theorem operatorAhead?_apart {ℓ : Nat} {t : Token} {op : BinaryOp}
    (h : operatorAt ℓ t = some op) (e : Expr) (rest : List Spanned) (gs : List Group) :
    operatorAhead? (operatorAt ℓ) ⟨Token.apart t :: (e.words true ++ rest), gs⟩ = some op := by
  obtain ⟨ws, shape⟩ := e.words_eq_cons true
  have noSign :
      signStartsElement ⟨Token.apart t :: (e.words true ++ rest), gs⟩ = false := by
    simp [signStartsElement, Cursor.spacedAt, shape, Token.word]
  rw [operatorAhead?, noSign]
  exact h

/-- One round of the loop of a level. -/
theorem loopAt_operator {ℓ : Nat} {t : Token} {op : BinaryOp} (h : operatorAt ℓ t = some op)
    {e' : Expr} (operand : ReadOperand ℓ e') {n : Nat} {rest : List Spanned}
    (closes : Closes (ℓ + 1) rest) (short : (e'.words true).length ≤ n) (k : Nat) (e : Expr)
    (gs : List Group) :
    loopAt (exprAt n) ℓ (k + 1) e ⟨Token.apart t :: (e'.words true ++ rest), gs⟩
      = loopAt (exprAt n) ℓ k (.binary op e e') ⟨rest, gs⟩ := by
  have chains : Chains ℓ := by
    rcases level_of_operatorAt h with ⟨o, -, rfl⟩ | ⟨o, -, rfl⟩
    · exact chains_level o
    · decide
  rw [loopAt_eq_chainFrom chains]
  rw [chainFrom, get_bind_run, operatorAhead?_apart h]
  simp only [advance_bind_run, Cursor.step_cons]
  exact bind_run (operand n rest gs closes short)

theorem closes_operandWords {op : ChainOp} {rest : List Spanned}
    (closes : Closes (op.level + 1) rest) (more : List Expr) :
    Closes (op.level + 1) (operandWords op more ++ rest) := by
  cases more with
  | nil => exact closes
  | cons e es =>
    rw [operandWords, List.cons_append]
    exact closes_apart (operatorAt_chain op) _

/-- The loop takes in all further operands of a chain. -/
theorem loopAt_operands {op : ChainOp} {n : Nat} {rest : List Spanned}
    (closes : Closes (op.level + 1) rest) (first second : Expr) (gs : List Group) :
    (more seen : List Expr) → (∀ e ∈ more, ReadOperand op.level e) →
      (operandWords op more).length ≤ n → (k : Nat) →
      (operandWords op more ++ rest).length ≤ k → ∃ m, rest.length ≤ m ∧
        loopAt (exprAt n) op.level k (.chain op first second seen)
            ⟨operandWords op more ++ rest, gs⟩
          = loopAt (exprAt n) op.level m (.chain op first second (seen ++ more)) ⟨rest, gs⟩
  | [], seen, _, _, k, enough => ⟨k, enough, by rw [List.append_nil]; rfl⟩
  | e :: es, seen, operands, short, k, enough => by
      simp only [operandWords, List.cons_append, List.append_assoc, List.length_cons,
        List.length_append] at short enough ⊢
      obtain ⟨k, rfl⟩ := Nat.exists_eq_add_one_of_ne_zero (n := k) (by omega)
      have step := loopAt_operator (operatorAt_chain op) (operands e List.mem_cons_self)
        (n := n) (closes_operandWords closes es) (by omega) k (.chain op first second seen) gs
      obtain ⟨m, le, run⟩ := loopAt_operands closes first second gs es (seen ++ [e])
        (fun e' mem => operands e' (List.mem_cons_of_mem e mem)) (n := n) (by omega) k
        (by rw [List.length_append]; omega)
      refine ⟨m, le, ?_⟩
      rw [step]
      have flat : Expr.binary (.chain op) (.chain op first second seen) e
          = .chain op first second (seen ++ [e]) := by simp [Expr.binary]
      rw [flat, run, List.append_assoc]
      rfl

theorem feeds_chain {op : ChainOp} {first second : Expr} {more : List Expr}
    (feeds : Feeds op.level first) (other : first.chainOp? ≠ some op)
    (operands : ∀ e ∈ second :: more, ReadOperand op.level e) :
    Feeds op.level (.chain op first second more) := by
  intro n b rest gs closes short
  simp only [Expr.words, List.cons_append, List.append_assoc, List.length_append,
    List.length_cons] at short ⊢
  obtain ⟨k, le, run⟩ := feeds n b
    (Token.apart op.token :: (second.words true ++ (operandWords op more ++ rest))) gs
    (closes_apart (operatorAt_chain op) _) (by omega)
  simp only [List.length_append, List.length_cons] at le
  obtain ⟨k, rfl⟩ := Nat.exists_eq_add_one_of_ne_zero (n := k) (by omega)
  have step := loopAt_operator (operatorAt_chain op) (operands second List.mem_cons_self)
    (n := n) (closes_operandWords closes more) (by omega) k first gs
  obtain ⟨m, le', later⟩ := loopAt_operands closes first second gs more []
    (fun e mem => operands e (List.mem_cons_of_mem second mem)) (n := n) (by omega) k
    (by rw [List.length_append]; omega)
  refine ⟨m, le', ?_⟩
  rw [run, step, binary_of_chainOp?_ne other, later, List.nil_append]

theorem feeds_compare {op : Comparison} {left right : Expr} (feeds : Feeds 4 left)
    (reads : Reads 5 right) : Feeds 4 (.compare op left right) := by
  intro n b rest gs closes short
  simp only [Expr.words, List.cons_append, List.append_assoc, List.length_append,
    List.length_cons] at short ⊢
  obtain ⟨k, le, run⟩ := feeds n b (Token.apart op.token :: (right.words true ++ rest)) gs
    (closes_apart (operatorAt_compare op) _) (by omega)
  simp only [List.length_append, List.length_cons] at le
  obtain ⟨k, rfl⟩ := Nat.exists_eq_add_one_of_ne_zero (n := k) (by omega)
  refine ⟨k, by omega, ?_⟩
  rw [run]
  exact loopAt_operator (operatorAt_compare op) (readOperand_of_reads (by decide) reads) closes
    (by omega) k left gs

/-! ## Signs and ranges -/

theorem reads_sign {op : SignOp} {e : Expr} (reads : Reads 8 e) : Reads 8 (.sign op e) := by
  intro n b rest gs closes short
  rw [Expr.words, List.length_cons] at short
  have run : signedFrom (power (exprAt n)) (e.words false ++ rest).length
      ⟨e.words false ++ rest, gs⟩ = .ok (e, ⟨rest, gs⟩) :=
    reads n false rest gs closes (by omega)
  rw [Expr.words, List.cons_append]
  show signedFrom (power (exprAt n)) (_ + 1) _ = _
  rw [signedFrom_sign, bind_run run]
  rfl

theorem reads_range_bounds {start stop : Expr} (first : Reads 6 start) (second : Reads 6 stop) :
    Reads 5 (.range start stop) := by
  intro n b rest gs closes short
  simp only [Expr.words, List.cons_append, List.append_assoc, List.length_append,
    List.length_cons] at short ⊢
  have runFirst : additive (exprAt n)
        ⟨start.words b ++ Token.apart .colon :: (stop.words true ++ rest), gs⟩
      = .ok (start, ⟨Token.apart .colon :: (stop.words true ++ rest), gs⟩) :=
    first n b _ gs (closes_cons (by simp [Token.apart, continues])) (by omega)
  have runSecond : additive (exprAt n) ⟨stop.words true ++ rest, gs⟩ = .ok (stop, ⟨rest, gs⟩) :=
    second n true rest gs (closes.mono (by decide)) (by omega)
  show range (exprAt n) _ = _
  unfold range
  rw [bind_run runFirst]
  simp only [isAt_bind_run, Cursor.peek?_cons, Token.apart, beq_self_eq_true, if_true, ite_run,
    advance_bind_run, Cursor.step_cons]
  rw [bind_run runSecond]
  simp [peek?_ne_colon closes gs, -bind_pure_comp]

theorem reads_stepped {start step stop : Expr} (first : Reads 6 start) (second : Reads 6 step)
    (third : Reads 6 stop) : Reads 5 (.stepped start step stop) := by
  intro n b rest gs closes short
  simp only [Expr.words, List.cons_append, List.append_assoc, List.length_append,
    List.length_cons] at short ⊢
  have colon : ∀ ws, Closes 6 (Token.apart .colon :: ws) :=
    fun ws => closes_cons (by simp [Token.apart, continues])
  have runFirst := first n b
    (Token.apart .colon :: (step.words true ++ Token.apart .colon :: (stop.words true ++ rest))) gs
    (colon _) (by omega)
  have runSecond := second n true (Token.apart .colon :: (stop.words true ++ rest)) gs (colon _)
    (by omega)
  have runThird := third n true rest gs (closes.mono (by decide)) (by omega)
  show range (exprAt n) _ = _
  unfold range
  refine (bind_run runFirst).trans ?_
  simp only [isAt_bind_run, Cursor.peek?_cons, Token.apart, beq_self_eq_true, if_true, ite_run,
    advance_bind_run, Cursor.step_cons]
  refine (bind_run runSecond).trans ?_
  simp only [isAt_bind_run, Cursor.peek?_cons, Token.apart, beq_self_eq_true, if_true, ite_run,
    advance_bind_run, Cursor.step_cons]
  refine (bind_run runThird).trans ?_
  rfl

/-! ## All expressions -/

/-- An operand of a chain is read there, since all that is tighter is read. -/
theorem readOperand_of_takes {op : ChainOp} {e : Expr} (canonical : e.Canonical)
    (takes : op.Takes e) (read : Read e) (readInner : Read e.withoutMinus) :
    ReadOperand op.level e := by
  unfold ChainOp.Takes at takes
  by_cases power : op.level = 9
  case neg =>
    rw [if_neg power] at takes
    exact readOperand_of_reads power (read _ takes).1
  case pos =>
    rw [if_pos power] at takes
    rw [power] at takes ⊢
    by_cases minus : ∃ e', e = .sign .neg e'
    case pos =>
      obtain ⟨e', rfl⟩ := minus
      exact readOperand_neg (readInner 10 takes).1
    case neg =>
      have same : e.withoutMinus = e := by
        unfold Expr.withoutMinus
        split
        case h_1 e' => exact absurd ⟨e', rfl⟩ minus
        case h_2 => rfl
      rw [same] at takes
      exact readOperand_nine (canonical.first_not_sign (Nat.le_of_lt takes)) (read 10 takes).1

theorem readInside_of_read {e : Expr} (canonical : e.Canonical) (read : Read e) : ReadInside e :=
  ⟨canonical.starts, (read 0 (Nat.zero_le _)).1⟩

/-- A canonical expression is read at every level it can stand at, and so is
what stands behind its minus. -/
theorem read_of_canonical {e : Expr} (h : e.Canonical) : Read e ∧ Read e.withoutMinus := by
  have alone : ¬ Loops 11 := by decide
  have both : ∀ {e : Expr}, e.withoutMinus = e → Read e → Read e ∧ Read e.withoutMinus := by
    intro e same read
    rw [same]
    exact ⟨read, read⟩
  induction h with
  | @name x spelled =>
    exact both rfl (read_of_reads (.name spelled) alone (reads_name x))
  | @call f es spelled canonical ih =>
    refine both rfl (read_of_feeds (.call spelled canonical) (.inr rfl) (feeds_call ?_))
    exact fun e mem ne => readInside_of_read (canonical e mem ne) (ih e mem ne).1
  | @cellCall f es spelled canonical ih =>
    refine both rfl (read_of_feeds (.cellCall spelled canonical) (.inr rfl) (feeds_cellCall ?_))
    exact fun e mem ne => readInside_of_read (canonical e mem ne) (ih e mem ne).1
  | @literal kind text spelled =>
    exact both rfl (read_of_reads (.literal spelled) alone (reads_literal kind text))
  | last => exact both rfl (read_of_reads .last alone reads_last)
  | @paren e canonical ih =>
    exact both rfl (read_of_reads (.paren canonical) alone
      (reads_paren (ih.1 0 (Nat.zero_le _)).1))
  | @matrix found filled canonical ih =>
    refine both rfl (read_of_reads (.matrix filled canonical) alone (reads_matrix filled ?_))
    exact fun r memRow e mem =>
      readInside_of_read (canonical r memRow e mem) (ih r memRow e mem).1
  | @cell es canonical ih =>
    refine both rfl (read_of_reads (.cell canonical) alone (reads_cell ?_))
    exact fun e mem => readInside_of_read (canonical e mem) (ih e mem).1
  | @sign op e canonical tight ih =>
    have read : Read (.sign op e) := read_of_reads (.sign canonical tight)
      (show ¬ Loops 8 by decide) (reads_sign (ih.1 8 tight).1)
    cases op with
    | neg => exact ⟨read, ih.1⟩
    | not => exact both rfl read
  | @transpose op e canonical tight ih =>
    exact both rfl (read_of_feeds (.transpose canonical tight) (.inr rfl)
      (feeds_transpose ((ih.1 10 tight).2 (.inr rfl))))
  | @chain op first second more canonical le other canonicals takes ih ihs =>
    refine both rfl (read_of_feeds (.chain canonical le other canonicals takes)
      (.inl (chains_level op)) (feeds_chain ((ih.1 _ le).2 (.inl (chains_level op))) other ?_))
    exact fun e mem => readOperand_of_takes (canonicals e mem) (takes e mem) (ihs e mem).1
      (ihs e mem).2
  | @compare op left right canonical le canonical' le' ih ih' =>
    exact both rfl (read_of_feeds (.compare canonical le canonical' le')
      (show Loops 4 by decide) (feeds_compare ((ih.1 4 le).2 (by decide)) (ih'.1 5 le').1))
  | @range start stop canonical le canonical' le' ih ih' =>
    exact both rfl (read_of_reads (.range canonical le canonical' le')
      (show ¬ Loops 5 by decide) (reads_range_bounds (ih.1 6 le).1 (ih'.1 6 le').1))
  | @stepped start step stop canonical le canonical' le' canonical'' le'' ih ih' ih'' =>
    exact both rfl (read_of_reads (.stepped canonical le canonical' le' canonical'' le'')
      (show ¬ Loops 5 by decide)
      (reads_stepped (ih.1 6 le).1 (ih'.1 6 le').1 (ih''.1 6 le'').1))

end MatrixScript.Parser
