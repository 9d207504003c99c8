/-
# `Proofs.Program.Statements` — the parser reads printed programs

A statement is dispatched by its first words: a bracket with an equals sign
behind it opens several destinations, a name with a name behind it is a
command.  A printed expression on a line of its own looks like neither
(`isMultiAssignment_words`, `isCommand_words`): its brackets are in balance,
and behind what it starts with stands an operator or nothing.  So statements
are read by their dispatch, and then sequences of lines, functions and whole
programs (`program_run`).
-/
import MatrixScript.Proofs.Program.Level
import MatrixScript.Proofs.Program.Printer
import MatrixScript.Proofs.Program.Reading

namespace MatrixScript.Parser

/-! ## Brackets in balance -/

/-- Words that close every bracket they open, on one line. -/
def Balanced (ws : List Spanned) : Prop :=
  ∀ depth rest, closesBeforeEquals (depth + 1) (ws.map (·.token) ++ rest)
    = closesBeforeEquals (depth + 1) rest

/-- Neither a bracket nor the end of a line. -/
def isPlain : Token → Bool
  | .leftBracket | .leftParen | .leftBrace | .rightBracket | .rightParen | .rightBrace
  | .newline => false
  | _ => true

/-- A bracket that opens. -/
def isOpening : Token → Bool
  | .leftBracket | .leftParen | .leftBrace => true
  | _ => false

/-- A bracket that closes. -/
def isClosing : Token → Bool
  | .rightBracket | .rightParen | .rightBrace => true
  | _ => false

theorem closesBeforeEquals_plain {t : Token} (h : isPlain t) (depth : Nat) (rest : List Token) :
    closesBeforeEquals depth (t :: rest) = closesBeforeEquals depth rest := by
  cases t <;> first | rfl | cases h

theorem closesBeforeEquals_opening {t : Token} (h : isOpening t) (depth : Nat)
    (rest : List Token) :
    closesBeforeEquals depth (t :: rest) = closesBeforeEquals (depth + 1) rest := by
  cases t <;> first | rfl | cases h

theorem closesBeforeEquals_closing {t : Token} (h : isClosing t) (depth : Nat)
    (rest : List Token) :
    closesBeforeEquals (depth + 2) (t :: rest) = closesBeforeEquals (depth + 1) rest := by
  cases t <;> first | (simp [closesBeforeEquals]; done) | cases h

theorem balanced_nil : Balanced [] := fun _ _ => rfl

theorem Balanced.append {vs ws : List Spanned} (hv : Balanced vs) (hw : Balanced ws) :
    Balanced (vs ++ ws) := by
  intro depth rest
  rw [List.map_append, List.append_assoc, hv, hw]

theorem balanced_plain {w : Spanned} (h : isPlain w.token) {ws : List Spanned}
    (hw : Balanced ws) : Balanced (w :: ws) := by
  intro depth rest
  rw [List.map_cons, List.cons_append, closesBeforeEquals_plain h, hw]

theorem balanced_brackets {v w : Spanned} {inner : List Spanned} (opening : isOpening v.token)
    (closing : isClosing w.token) (h : Balanced inner) : Balanced (v :: (inner ++ [w])) := by
  intro depth rest
  simp only [List.map_cons, List.map_append, List.map_nil, List.cons_append, List.append_assoc,
    List.nil_append]
  rw [closesBeforeEquals_opening opening, h, closesBeforeEquals_closing closing]

/-- Whether a bracket opens several destinations is up to the word behind it. -/
theorem isMultiAssignment_brackets {inner : List Spanned} (h : Balanced inner)
    (b : Bool) (ws : List Spanned) (gs : List Group) :
    isMultiAssignment
        ⟨Token.word b .leftBracket :: (inner ++ Token.tight .rightBracket :: ws), gs⟩
      = ((ws.map (·.token)).head? == some .equals) := by
  unfold isMultiAssignment
  simp only [List.map_cons, List.map_append]
  exact h 0 _

/-! ## Second words -/

/-- A word that is no name is ahead in second place. -/
theorem isCommand_of_second {w : Spanned} {ws : List Spanned}
    (h : ∀ v ∈ ws.head?, ∀ x, v.token ≠ .ident x) (gs : List Group) :
    isCommand ⟨w :: ws, gs⟩ = false := by
  cases ws with
  | nil => rfl
  | cons v vs =>
    have other : ∀ x, v.token ≠ .ident x := h v rfl
    have second : Cursor.peekAt? ⟨w :: v :: vs, gs⟩ 1 = some v.token := rfl
    rw [isCommand, second]
    cases found : v.token with
    | ident x => exact absurd found (other x)
    | _ => rfl

/-- Words that are empty or start with one that goes on with an expression. -/
def GoesOn (ws : List Spanned) : Prop := ∀ w ∈ ws.head?, (continues w.token).isSome

theorem GoesOn.append {ws : List Spanned} (h : GoesOn ws) {w : Spanned}
    (hw : (continues w.token).isSome) (rest : List Spanned) : GoesOn (ws ++ w :: rest) := by
  cases ws with
  | nil =>
    intro v hv
    obtain rfl : w = v := by simpa using hv
    exact hw
  | cons v vs => exact h

theorem ne_ident_of_continues {t : Token} (h : (continues t).isSome) (x : String) :
    t ≠ .ident x := by
  rintro rfl
  cases h

theorem ne_equals_of_continues {t : Token} (h : (continues t).isSome) : t ≠ .equals := by
  rintro rfl
  cases h

/-! ## Printed brackets are in balance -/

section Words

variable [Layout]

mutual

theorem balanced_words : (e : Expr) → (b : Bool) → Balanced (e.words b)
  | .name _, _ | .last, _ | .all, _ => balanced_plain rfl balanced_nil
  | .literal kind _, _ => by cases kind <;> exact balanced_plain rfl balanced_nil
  | .call _ es, _ | .cellCall _ es, _ =>
      balanced_plain rfl (balanced_brackets rfl rfl (balanced_elementWords es false))
  | .paren e, _ => balanced_brackets rfl rfl (balanced_words e false)
  | .matrix rows, _ => balanced_brackets rfl rfl (balanced_rowWords rows)
  | .cell es, _ =>
      balanced_brackets rfl rfl (balanced_elementWords es false)
  | .sign op e, _ => balanced_plain (by cases op <;> rfl) (balanced_words e false)
  | .transpose op e, b =>
      (balanced_words e b).append (balanced_plain (by cases op <;> rfl) balanced_nil)
  | .chain op first second more, b =>
      (balanced_words first b).append (balanced_plain (by cases op <;> rfl)
        ((balanced_words second true).append (balanced_operandWords op more)))
  | .compare op left right, b =>
      (balanced_words left b).append
        (balanced_plain (by cases op <;> rfl) (balanced_words right true))
  | .range start stop, b =>
      (balanced_words start b).append (balanced_plain rfl (balanced_words stop true))
  | .stepped start step stop, b =>
      (balanced_words start b).append (balanced_plain rfl
        ((balanced_words step true).append (balanced_plain rfl (balanced_words stop true))))

theorem balanced_elementWords : (es : List Expr) → (b : Bool) → Balanced (elementWords b es)
  | [], _ => balanced_nil
  | e :: es, b => (balanced_words e b).append (balanced_laterElementWords es)

theorem balanced_laterElementWords : (es : List Expr) → Balanced (laterElementWords es)
  | [] => balanced_nil
  | e :: es =>
      balanced_plain rfl ((balanced_words e Layout.gap).append (balanced_laterElementWords es))

theorem balanced_rowWords : (rows : List (List Expr)) → Balanced (rowWords rows)
  | [] => balanced_nil
  | row :: rows => (balanced_elementWords row false).append (balanced_laterRowWords rows)

theorem balanced_laterRowWords : (rows : List (List Expr)) → Balanced (laterRowWords rows)
  | [] => balanced_nil
  | row :: rows =>
      balanced_plain rfl
        ((balanced_elementWords row Layout.gap).append (balanced_laterRowWords rows))

theorem balanced_operandWords (op : ChainOp) :
    (es : List Expr) → Balanced (operandWords op es)
  | [] => balanced_nil
  | e :: es =>
      balanced_plain (by cases op <;> rfl)
        ((balanced_words e true).append (balanced_operandWords op es))

end

/-! ## Expressions that are statements -/

/-- No operator stands between the parts of the expression. -/
def isAlone : Expr → Bool
  | .transpose _ _ | .chain _ _ _ _ | .compare _ _ _ | .range _ _ | .stepped _ _ _ => false
  | _ => true

/-- At the front of the expression stands one without operators between its
parts, and behind that one an operator or nothing. -/
def HasFront (e : Expr) (b : Bool) : Prop :=
  ∃ e' ws, isAlone e' ∧ e'.first = e.first ∧ e.words b = e'.words b ++ ws ∧ GoesOn ws

theorem hasFront_self {e : Expr} (h : isAlone e) (b : Bool) : HasFront e b :=
  ⟨e, [], h, rfl, by rw [List.append_nil], by simp [GoesOn]⟩

theorem HasFront.append {e e' : Expr} {b : Bool} (h : HasFront e b) {w : Spanned}
    {rest : List Spanned} (words : e'.words b = e.words b ++ w :: rest)
    (first : e'.first = e.first) (goesOn : (continues w.token).isSome) : HasFront e' b := by
  obtain ⟨front, ws, alone, sameFirst, shape, behind⟩ := h
  refine ⟨front, ws ++ w :: rest, alone, sameFirst.trans first.symm, ?_, behind.append goesOn rest⟩
  rw [words, shape, List.append_assoc]

theorem hasFront : (e : Expr) → (b : Bool) → HasFront e b
  | .name _, b | .call _ _, b | .cellCall _ _, b | .literal _ _, b | .last, b | .all, b
  | .paren _, b | .matrix _, b | .cell _, b | .sign _ _, b => hasFront_self rfl b
  | .transpose op e, b => (hasFront e b).append rfl rfl (by cases op <;> rfl)
  | .chain op e _ _, b => (hasFront e b).append rfl rfl (by cases op <;> rfl)
  | .compare op e _, b => (hasFront e b).append rfl rfl (by cases op <;> rfl)
  | .range e _, b | .stepped e _ _, b => (hasFront e b).append rfl rfl rfl

/-- A printed expression with the end of its line behind it is no command. -/
theorem isCommand_words {e : Expr} {x : String} (first : e.first = .ident x)
    (rest : List Spanned) (gs : List Group) :
    isCommand ⟨e.words false ++ Token.tight .newline :: rest, gs⟩ = false := by
  obtain ⟨e', ws, alone, first', shape, goesOn⟩ := hasFront e false
  rw [first] at first'
  have behind : ∀ v ∈ (ws ++ Token.tight .newline :: rest).head?, ∀ y, v.token ≠ .ident y := by
    cases ws with
    | nil => simp [Token.tight]
    | cons v ws =>
      intro v' hv
      obtain rfl : v = v' := by simpa using hv
      exact ne_ident_of_continues (goesOn v rfl)
  rw [shape, List.append_assoc]
  cases e' with
  | name y => exact isCommand_of_second behind gs
  | call f es => exact isCommand_of_second (by simp [Token.tight]) gs
  | cellCall f es => exact isCommand_of_second (by simp [Token.tight]) gs
  | literal kind text => cases kind <;> cases first'
  | sign op e => cases op <;> cases first'
  | last | all | paren | matrix | cell => cases first'
  | transpose | chain | compare | range | stepped => cases alone

/-- A printed expression with the end of its line behind it has no destinations. -/
theorem isMultiAssignment_words {e : Expr} (first : e.first = .leftBracket)
    (rest : List Spanned) (gs : List Group) :
    isMultiAssignment ⟨e.words false ++ Token.tight .newline :: rest, gs⟩ = false := by
  obtain ⟨e', ws, alone, first', shape, goesOn⟩ := hasFront e false
  rw [first] at first'
  rw [shape, List.append_assoc]
  cases e' with
  | matrix rows =>
    rw [Expr.words, List.cons_append, List.append_assoc, List.singleton_append,
      isMultiAssignment_brackets (balanced_rowWords rows)]
    cases ws with
    | nil => rfl
    | cons w ws =>
      simpa using ne_equals_of_continues (goesOn w rfl)
  | literal kind text => cases kind <;> cases first'
  | sign op e => cases op <;> cases first'
  | name | call | cellCall | last | all | paren | cell => cases first'
  | transpose | chain | compare | range | stepped => cases alone

end Words

/-! ## Single steps -/

section Expect

variable {α : Type} (t : Token) (ws : List Spanned) (gs : List Group) (f : PUnit → Parser α)

theorem expect_tight_bind_run : (expect t >>= f) ⟨Token.tight t :: ws, gs⟩ = f ⟨⟩ ⟨ws, gs⟩ :=
  expect_bind_run (w := Token.tight t) rfl ws gs f

theorem expect_apart_bind_run : (expect t >>= f) ⟨Token.apart t :: ws, gs⟩ = f ⟨⟩ ⟨ws, gs⟩ :=
  expect_bind_run (w := Token.apart t) rfl ws gs f

end Expect

theorem target_canonical : {t : Target} → t.Canonical → t.expr.Canonical
  | .variable _, h => .name h
  | .element _ _, h => .call h.1 h.2

theorem target_level (t : Target) : 10 ≤ t.expr.level := by
  cases t <;> simp [Target.expr, Expr.level]

@[simp] theorem target_expr (t : Target) : t.expr.target? = some t := by cases t <;> rfl

theorem first_target (t : Target) : t.expr.first = .ident t.name := by cases t <;> rfl

theorem controlFlow_of_opens {x : String} (h : (Token.ident x).Opens) :
    controlFlow.contains x = false := by
  have notIn : x ∉ controlFlow := fun mem => h.2 x mem rfl
  simpa using notIn

/-- The end of a line. -/
abbrev endOfLine : Spanned := Token.tight .newline

/-! ## Sequences -/

/-- The words start a line of a sequence that stops at `stops`. -/
def StartsLine (stops : Token → Bool) (ws : List Spanned) : Prop :=
  ∃ w rest, ws = w :: rest ∧ w.token.isSeparator = false ∧ stops w.token = false ∧
    w.token ≠ .last

/-- `item` reads the words as `x`, with the end of the line behind them. -/
def ReadsLine {α : Type} (item : Parser α) (ws : List Spanned) (x : α) : Prop :=
  ∀ rest gs, item ⟨ws ++ endOfLine :: rest, gs⟩ = .ok (x, ⟨endOfLine :: rest, gs⟩)

/-- A sequence that stops at `stops` ends here. -/
def EndsSequence (stops : Token → Bool) (ws : List Spanned) : Prop :=
  ∀ w ∈ ws.head?, w.token.isSeparator = false ∧ stops w.token

theorem skipSeparators_run {seps ws : List Spanned} (lead : seps = [] ∨ seps = [endOfLine])
    (h : ∀ w ∈ ws.head?, w.token.isSeparator = false) (gs : List Group) :
    Cursor.skipSeparators ⟨seps ++ ws, gs⟩ = ⟨ws, gs⟩ := by
  have stays : ws.dropWhile (·.token.isSeparator) = ws := by
    cases ws with
    | nil => rfl
    | cons w ws => simp [h w rfl]
  rcases lead with rfl | rfl
  · rw [List.nil_append, Cursor.skipSeparators, stays]
  · have passed : (endOfLine :: ws).dropWhile (·.token.isSeparator) = ws := stays
    rw [Cursor.skipSeparators, List.singleton_append, passed]

theorem sequenceFrom_run {α : Type} {stops : Token → Bool} {item : Parser α}
    {words : α → List Spanned} {rest : List Spanned} (ends : EndsSequence stops rest)
    (gs : List Group) :
    (xs : List α) → (∀ x ∈ xs, StartsLine stops (words x) ∧ ReadsLine item (words x) x) →
      (seps : List Spanned) → (seps = [] ∨ seps = [endOfLine]) → (fuel : Nat) →
      xs.length < fuel →
      sequenceFrom stops item fuel
          ⟨seps ++ ((xs.flatMap fun x => words x ++ [endOfLine]) ++ rest), gs⟩
        = .ok (xs, ⟨rest, gs⟩)
  | _, _, _, _, 0, enough => absurd enough (Nat.not_lt_zero _)
  | [], _, seps, lead, fuel + 1, _ => by
      rw [sequenceFrom, modify_bind_run, List.flatMap_nil, List.nil_append,
        skipSeparators_run lead (fun w hw => (ends w hw).1), peek?_bind_run]
      cases rest with
      | nil => rfl
      | cons w rest => simp [(ends w rfl).2, -bind_pure_comp]
  | x :: xs, lines, seps, lead, fuel + 1, enough => by
      obtain ⟨⟨w, ws, shape, noSeparator, goesOn, noEnd⟩, run⟩ := lines x List.mem_cons_self
      have later := sequenceFrom_run ends gs xs
        (fun x' mem => lines x' (List.mem_cons_of_mem x mem)) [endOfLine] (.inr rfl) fuel
        (Nat.lt_of_succ_lt_succ enough)
      have line : ((x :: xs).flatMap fun x => words x ++ [endOfLine]) ++ rest
          = words x ++ endOfLine :: ((xs.flatMap fun x => words x ++ [endOfLine]) ++ rest) := by
        simp [List.flatMap_cons]
      rw [line, sequenceFrom, modify_bind_run, skipSeparators_run lead (by simp [shape, noSeparator])]
      have ahead : ∀ vs, Cursor.peek? ⟨words x ++ vs, gs⟩ = some w.token := by
        intro vs
        rw [shape]
        rfl
      rw [peek?_bind_run, ahead]
      simp only [goesOn, noEnd, Bool.false_eq_true, if_false]
      rw [bind_run (run _ gs)]
      show (sequenceFrom stops item fuel >>= fun later => pure (x :: later)) _ = _
      exact bind_run later

theorem sequence_run {α : Type} {stops : Token → Bool} {item : Parser α}
    {words : α → List Spanned} {rest : List Spanned} (ends : EndsSequence stops rest)
    {xs : List α} (lines : ∀ x ∈ xs, StartsLine stops (words x) ∧ ReadsLine item (words x) x)
    {seps : List Spanned} (lead : seps = [] ∨ seps = [endOfLine]) (gs : List Group) :
    sequence stops item ⟨seps ++ ((xs.flatMap fun x => words x ++ [endOfLine]) ++ rest), gs⟩
      = .ok (xs, ⟨rest, gs⟩) := by
  rw [sequence, remaining_bind_run]
  refine sequenceFrom_run ends gs xs lines seps lead _ ?_
  have enough : xs.length ≤ (xs.flatMap fun x => words x ++ [endOfLine]).length := by
    simp only [List.length_flatMap, List.length_append, List.length_singleton]
    induction xs with
    | nil => exact Nat.zero_le _
    | cons x xs ih =>
      have := ih fun x' mem => lines x' (List.mem_cons_of_mem x mem)
      simp only [List.map_cons, List.sum_cons, List.length_cons]
      omega
  simp only [List.length_append]
  omega

variable [Layout]

/-! ## Expressions in statements -/

theorem expr_run {e : Expr} (canonical : e.Canonical) {rest : List Spanned}
    (closes : Closes 0 rest) (b : Bool) (gs : List Group) :
    expr ⟨e.words b ++ rest, gs⟩ = .ok (e, ⟨rest, gs⟩) := by
  have read : Reads 0 e := ((read_of_canonical canonical).1 0 (Nat.zero_le _)).1
  rw [expr, remaining_bind_run]
  refine exprAt_run read closes ?_
  rw [List.length_append]
  omega

theorem operand_run {e : Expr} (canonical : e.Canonical) (tight : 10 ≤ e.level)
    {rest : List Spanned} (closes : Closes 10 rest) (b : Bool) (gs : List Group) :
    operand ⟨e.words b ++ rest, gs⟩ = .ok (e, ⟨rest, gs⟩) := by
  rw [operand, remaining_bind_run]
  refine ((read_of_canonical canonical).1 10 tight).1 _ b rest gs closes ?_
  rw [List.length_append]
  omega

/-! ## Statements -/

theorem simpleStatement_expression {e : Expr} (canonical : e.Canonical) (rest : List Spanned)
    (gs : List Group) :
    simpleStatement ⟨e.words false ++ endOfLine :: rest, gs⟩
      = .ok (.expression e, ⟨endOfLine :: rest, gs⟩) := by
  unfold simpleStatement
  rw [bind_run (expr_run canonical (closes_of_continues rfl) false gs)]
  rfl

theorem simpleStatement_assign {t : Target} {value : Expr} (target : t.Canonical)
    (canonical : value.Canonical) (rest : List Spanned) (gs : List Group) :
    simpleStatement ⟨(Statement.assign t value).words ++ endOfLine :: rest, gs⟩
      = .ok (.assign t value, ⟨endOfLine :: rest, gs⟩) := by
  unfold simpleStatement
  simp only [Statement.words, List.append_assoc, List.cons_append]
  rw [bind_run (expr_run (target_canonical target)
    (closes_of_continues (w := Token.apart .equals) rfl) false gs)]
  simp only [isAt_bind_run, Cursor.peek?_cons, Token.apart, beq_self_eq_true, if_true, ite_run,
    target_expr, advance_bind_run, Cursor.step_cons]
  rw [bind_run (expr_run canonical (closes_of_continues rfl) true gs)]
  rfl

/-- Destinations up to the closing bracket; a comma stands between two of them. -/
theorem targetsFrom_run (rest : List Spanned) (gs : List Group) :
    (ts : List Target) → (∀ t ∈ ts, t.Canonical) → (b : Bool) → (fuel : Nat) →
      (elementWords b (ts.map Target.expr)).length < fuel →
      targetsFrom fuel
          ⟨elementWords b (ts.map Target.expr) ++ Token.tight .rightBracket :: rest, gs⟩
        = .ok (ts, ⟨Token.tight .rightBracket :: rest, gs⟩)
  | _, _, _, 0, enough => absurd enough (Nat.not_lt_zero _)
  | [], _, _, fuel + 1, _ => by
      simp [targetsFrom, elementWords, Token.tight, -bind_pure_comp]
  | t :: ts, canonical, b, fuel + 1, enough => by
      have ahead : ∀ ws, Cursor.peek? ⟨t.expr.words b ++ ws, gs⟩ = some (.ident t.name) := by
        intro ws
        obtain ⟨tail, shape⟩ := t.expr.words_eq_cons b
        rw [shape, first_target]
        rfl
      have run : ∀ {ws}, Closes 10 ws → operand ⟨t.expr.words b ++ ws, gs⟩
          = .ok (t.expr, ⟨ws, gs⟩) :=
        fun closes => operand_run (target_canonical (canonical t List.mem_cons_self))
          (target_level t) closes b gs
      have start : ∀ {ws}, Closes 10 ws →
          targetsFrom (fuel + 1) ⟨t.expr.words b ++ ws, gs⟩
            = (targetsFrom fuel >>= fun later => pure (t :: later)) ⟨ws, gs⟩ := by
        intro ws closes
        rw [targetsFrom]
        simp only [isAt_bind_run, ite_run, ahead, beq_iff_eq, Option.some.injEq, reduceCtorEq,
          if_false]
        rw [bind_run (run closes), target_expr]
      have := words_length_pos t.expr b
      cases ts with
      | nil =>
        simp only [List.map_cons, List.map_nil, elementWords, laterElementWords, List.append_nil]
          at enough ⊢
        rw [start (closes_of_continues rfl)]
        obtain ⟨fuel, rfl⟩ := Nat.exists_eq_add_one_of_ne_zero (n := fuel) (by omega)
        simp [targetsFrom, Token.tight, -bind_pure_comp]
      | cons t' ts =>
        simp only [List.map_cons, elementWords, laterElementWords_cons, List.length_append,
          List.length_cons] at enough
        obtain ⟨fuel, rfl⟩ := Nat.exists_eq_add_one_of_ne_zero (n := fuel) (by omega)
        have later := targetsFrom_run rest gs (t' :: ts)
          (fun t'' mem => canonical t'' (List.mem_cons_of_mem t mem)) Layout.gap fuel
          (by simp only [List.map_cons, elementWords, List.length_append]; omega)
        rw [List.map_cons, elementWords, List.map_cons, laterElementWords_cons, List.append_assoc,
          List.cons_append, start (closes_of_continues rfl)]
        refine bind_run ?_
        rw [targetsFrom]
        simp only [isAt_bind_run, Cursor.peek?_cons, Token.tight, beq_iff_eq, Option.some.injEq,
          reduceCtorEq]
        exact later

theorem multiAssignment_run {ts : List Target} {value : Expr} (targets : ∀ t ∈ ts, t.Canonical)
    (canonical : value.Canonical) (rest : List Spanned) (gs : List Group) :
    multiAssignment ⟨(Statement.assigns ts value).words ++ endOfLine :: rest, gs⟩
      = .ok (.assigns ts value, ⟨endOfLine :: rest, gs⟩) := by
  unfold multiAssignment
  simp only [Statement.words, List.append_assoc, List.cons_append]
  rw [expect_tight_bind_run, enter_bind_run, remaining_bind_run]
  have run := targetsFrom_run (Token.apart .equals :: (value.words true ++ endOfLine :: rest))
    (.concat :: gs) ts targets false
  rw [bind_run (run _ (by rw [List.length_append]; omega)), leave_bind_run]
  rw [expect_tight_bind_run, expect_apart_bind_run,
    bind_run (expr_run canonical (closes_of_continues rfl) true _)]
  rfl

theorem statement_run {s : Statement} (canonical : s.Canonical) (opens : s.Opens)
    (rest : List Spanned) (gs : List Group) :
    statement ⟨s.words ++ endOfLine :: rest, gs⟩ = .ok (s, ⟨endOfLine :: rest, gs⟩) := by
  cases s with
  | expression e =>
    have simple := simpleStatement_expression canonical rest gs
    have starts := Expr.Canonical.starts canonical
    obtain ⟨ws, shape⟩ := e.words_eq_cons false
    have ahead : Cursor.peek? ⟨e.words false ++ endOfLine :: rest, gs⟩ = some e.first := by
      rw [shape]
      rfl
    rw [Statement.words, statement, get_bind_run, ahead]
    cases first : e.first with
    | ident x =>
      have opens : (Token.ident x).Opens := by rw [← first]; exact opens
      simp only [controlFlow_of_opens opens, isCommand_words first, Bool.false_eq_true, if_false]
      exact simple
    | leftBracket =>
      simp only [isMultiAssignment_words first, Bool.false_eq_true, if_false]
      exact simple
    | _ => first | exact simple | (rw [first] at starts; cases starts)
  | assign t value =>
    have simple := simpleStatement_assign canonical.1 canonical.2 rest gs
    have ahead : Cursor.peek? ⟨(Statement.assign t value).words ++ endOfLine :: rest, gs⟩
        = some (.ident t.name) := by cases t <;> rfl
    have noCommand :
        isCommand ⟨(Statement.assign t value).words ++ endOfLine :: rest, gs⟩ = false := by
      cases t <;> exact isCommand_of_second (by simp [Token.tight, Token.apart]) gs
    rw [statement, get_bind_run, ahead]
    simp only [controlFlow_of_opens opens, noCommand, Bool.false_eq_true, if_false]
    exact simple
  | assigns ts value =>
    have multi : isMultiAssignment
        ⟨(Statement.assigns ts value).words ++ endOfLine :: rest, gs⟩ = true := by
      simp only [Statement.words, List.append_assoc, List.cons_append]
      exact isMultiAssignment_brackets (balanced_elementWords _ false) false _ gs
    rw [statement, get_bind_run]
    show (if isMultiAssignment _ then multiAssignment else simpleStatement) _ = _
    rw [multi]
    exact multiAssignment_run canonical.1 canonical.2 rest gs
  | ret => rfl
  | brk => rfl
  | command name words => exact absurd canonical (by simp [Statement.Canonical])

/-! ## Functions and programs -/

/-- Names up to the closing bracket; a comma stands between two of them. -/
theorem namesFrom_run {close : Token} (closing : close = .rightParen ∨ close = .rightBracket)
    (rest : List Spanned) (gs : List Group) :
    (xs : List String) → (b : Bool) → (fuel : Nat) →
      (elementWords b (xs.map .name)).length < fuel →
      namesFrom close fuel ⟨elementWords b (xs.map .name) ++ Token.tight close :: rest, gs⟩
        = .ok (xs, ⟨rest, gs⟩)
  | _, _, 0, enough => absurd enough (Nat.not_lt_zero _)
  | [], _, fuel + 1, _ => by
      simp [namesFrom, elementWords, Token.tight, -bind_pure_comp]
  | [x], b, fuel + 1, enough => by
      have notClose : Token.ident x ≠ close := by rcases closing with rfl | rfl <;> simp
      obtain ⟨fuel, rfl⟩ := Nat.exists_eq_add_one_of_ne_zero (n := fuel) (by
        simp [elementWords, laterElementWords, Expr.words] at enough
        omega)
      rw [namesFrom]
      simp only [List.map_cons, List.map_nil, elementWords, laterElementWords, Expr.words,
        List.append_nil, List.cons_append, List.nil_append, isAt_bind_run, Cursor.peek?_cons,
        Token.word, ite_run, beq_iff_eq, Option.some.injEq, notClose, reduceCtorEq, if_false]
      rw [ident_bind_run rfl]
      simp [namesFrom, Token.tight, -bind_pure_comp]
  | x :: x' :: xs, b, fuel + 1, enough => by
      have notClose : Token.ident x ≠ close := by rcases closing with rfl | rfl <;> simp
      have notComma : Token.comma ≠ close := by rcases closing with rfl | rfl <;> simp
      simp only [List.map_cons, elementWords, laterElementWords_cons, Expr.words,
        List.cons_append, List.nil_append, List.length_cons] at enough
      obtain ⟨fuel, rfl⟩ := Nat.exists_eq_add_one_of_ne_zero (n := fuel) (by omega)
      have later := namesFrom_run closing rest gs (x' :: xs) Layout.gap fuel (by
        simp only [List.map_cons, elementWords, Expr.words, List.cons_append, List.nil_append,
          List.length_cons]
        omega)
      rw [namesFrom]
      simp only [List.map_cons, elementWords, laterElementWords_cons, Expr.words,
        List.cons_append, List.nil_append, isAt_bind_run, Cursor.peek?_cons,
        Token.word, ite_run, beq_iff_eq, Option.some.injEq, notClose, reduceCtorEq, if_false]
        at later ⊢
      rw [ident_bind_run rfl]
      refine bind_run ?_
      rw [namesFrom]
      simp only [isAt_bind_run, Cursor.peek?_cons, Token.tight, beq_iff_eq, Option.some.injEq,
        notComma, ite_run, if_false, if_true, advance_bind_run, Cursor.step_cons]
      exact later

theorem names_run {close : Token} (closing : close = .rightParen ∨ close = .rightBracket)
    (w : Spanned) (xs : List String) (rest : List Spanned) (gs : List Group) :
    names close ⟨w :: (nameWords xs ++ Token.tight close :: rest), gs⟩
      = .ok (xs, ⟨rest, gs⟩) := by
  rw [names, advance_bind_run, Cursor.step_cons, remaining_bind_run]
  refine namesFrom_run closing rest gs xs false _ ?_
  rw [List.length_append, nameWords]
  omega

theorem outputs_run (xs : List String) (rest : List Spanned) (gs : List Group) :
    outputs ⟨Token.apart .leftBracket ::
        (nameWords xs ++ Token.tight .rightBracket :: Token.apart .equals :: rest), gs⟩
      = .ok (xs, ⟨rest, gs⟩) := by
  rw [outputs, isAt_bind_run]
  simp only [Cursor.peek?_cons, Token.apart, beq_self_eq_true, if_true]
  rw [bind_run (names_run (.inr rfl) _ xs _ gs)]
  rfl

theorem params_run (xs : List String) (rest : List Spanned) (gs : List Group) :
    params ⟨Token.tight .leftParen :: (nameWords xs ++ Token.tight .rightParen :: rest), gs⟩
      = .ok (xs, ⟨rest, gs⟩) := by
  rw [params, isAt_bind_run]
  simp only [Cursor.peek?_cons, Token.tight, beq_self_eq_true, if_true]
  exact names_run (.inl rfl) _ xs rest gs

/-- A printed statement starts a line of a function's body as of a program. -/
theorem startsLine_statement {s : Statement} (canonical : s.Canonical) (opens : s.Opens)
    {stops : Token → Bool} (stopsOnly : ∀ t, stops t → stopsBody t) :
    StartsLine stops s.words := by
  have goesOn : ∀ t, stopsBody t = false → stops t = false := by
    intro t no
    cases found : stops t with
    | false => rfl
    | true => exact absurd (stopsOnly t found) (by simp [no])
  cases s with
  | expression e =>
    obtain ⟨ws, shape⟩ := e.words_eq_cons false
    have starts : e.first.starts := Expr.Canonical.starts canonical
    have notEnd : e.first ≠ .last := opens.1
    refine ⟨Token.word false e.first, ws, shape, ?_, goesOn _ ?_, notEnd⟩
    all_goals
      simp only [Token.word]
      cases first : e.first <;> first | rfl | exact absurd first notEnd | (rw [first] at starts; cases starts)
  | assign t value => cases t <;> exact ⟨_, _, rfl, rfl, goesOn _ rfl, by simp [Token.word]⟩
  | assigns ts value => exact ⟨_, _, rfl, rfl, goesOn _ rfl, by simp [Token.tight]⟩
  | ret => exact ⟨_, _, rfl, rfl, goesOn _ rfl, by simp [Token.tight]⟩
  | brk => exact ⟨_, _, rfl, rfl, goesOn _ rfl, by simp [Token.tight]⟩
  | command name words => exact absurd canonical (by simp [Statement.Canonical])

theorem function_run {f : Function} (canonical : f.Spelled Statement.Canonical) (opens : ∀ s ∈ f.body, s.Opens)
    (rest : List Spanned) (gs : List Group) :
    function ⟨f.words ++ endOfLine :: rest, gs⟩ = .ok (f, ⟨endOfLine :: rest, gs⟩) := by
  have lines : ∀ s ∈ f.body, StartsLine stopsBody s.words ∧ ReadsLine statement s.words s := by
    intro s mem
    have canonical : s.Canonical := canonical.body s mem
    exact ⟨startsLine_statement canonical (opens s mem) fun _ h => h,
      statement_run canonical (opens s mem)⟩
  have ends : EndsSequence stopsBody (Token.tight .last :: endOfLine :: rest) := by
    intro w hw
    obtain rfl : Token.tight .last = w := by simpa using hw
    exact ⟨rfl, rfl⟩
  have body := sequence_run ends lines (.inr rfl) gs
  unfold function
  simp only [Function.words, List.cons_append, List.append_assoc, List.nil_append]
  rw [expect_tight_bind_run, bind_run (outputs_run f.outputs _ gs), ident_bind_run rfl,
    bind_run (params_run f.params _ gs)]
  exact bind_run body

/-- The parser reads the words of a canonical program as that program. -/
theorem program_run {p : Program} (canonical : p.Canonical) (opens : p.Opens) :
    program ⟨p.words, []⟩ = .ok (p, ⟨[], []⟩) := by
  have lines : ∀ i ∈ p, StartsLine (fun _ => false) i.words ∧ ReadsLine item i.words i := by
    intro i mem
    have canonical : i.Spelled Statement.Canonical := canonical i mem
    have opens : i.Opens := opens i mem
    cases i with
    | statement s =>
      refine ⟨startsLine_statement canonical opens (by simp), fun rest gs => ?_⟩
      obtain ⟨w, ws, shape, -, noStop, -⟩ :=
        startsLine_statement canonical opens fun t (h : stopsBody t) => h
      have noFunction : w.token ≠ .function := by
        intro found
        rw [found] at noStop
        cases noStop
      have ahead : Cursor.peek? ⟨s.words ++ endOfLine :: rest, gs⟩ = some w.token := by
        rw [shape, List.cons_append, Cursor.peek?_cons]
      rw [Item.words, item, isAt_bind_run, ahead]
      simp only [beq_iff_eq, Option.some.injEq, noFunction, if_false]
      rw [bind_run (statement_run canonical opens rest gs)]
      rfl
    | function f =>
      refine ⟨⟨_, _, rfl, rfl, rfl, by simp [Token.tight]⟩, fun rest gs => ?_⟩
      show (function >>= fun f => pure (Item.function f)) ⟨f.words ++ endOfLine :: rest, gs⟩ = _
      rw [bind_run (function_run canonical opens rest gs)]
      rfl
  have ends : EndsSequence (fun _ => false) [] := by simp [EndsSequence]
  have run := sequence_run ends lines (.inl rfl) []
  rw [List.append_nil] at run
  exact run

end MatrixScript.Parser
