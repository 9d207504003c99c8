/-
# `Proofs.Program.Brackets` — arguments and rows of printed expressions

What the parsers of subscripts and of literals in brackets do with printed
lists, given that their elements are read.  The number that bounds the nesting
of brackets is never too small, since every bracket has words of its own; for
that reason the statements compare it with lengths of words.
-/
import MatrixScript.Proofs.Program.Level

namespace MatrixScript.Parser

/-! ## What ends an argument or a row -/

/-- Ends an argument. -/
def endsArgument : Token → Bool
  | .comma | .rightParen | .rightBrace => true
  | _ => false

theorem closes_of_endsArgument {w : Spanned} (h : endsArgument w.token) (rest : List Spanned) :
    Closes 0 (w :: rest) := by
  refine closes_of_continues ?_
  revert h
  cases w.token <;> intro h <;> first | rfl | cases h

theorem wholeAxisAhead_of_starts {t : Token} (h : t.starts) (b : Bool) (ws : List Spanned)
    (gs : List Group) : wholeAxisAhead ⟨Token.word b t :: ws, gs⟩ = false := by
  cases t <;> first | rfl | cases h

/-- Ends a row. -/
def endsRow : Token → Bool
  | .semicolon | .rightBracket | .rightBrace => true
  | _ => false

theorem closes_of_endsRow {w : Spanned} (h : endsRow w.token) (rest : List Spanned) :
    Closes 0 (w :: rest) := by
  refine closes_of_continues ?_
  revert h
  cases w.token <;> intro h <;> first | rfl | cases h

/-- An element's first token is none that `rowsFrom` looks for. -/
theorem separates_no_start {t close : Token} (starts : t.starts)
    (closing : close = .rightBracket ∨ close = .rightBrace) :
    t ≠ close ∧ ¬ (t = .semicolon ∨ t = .newline) ∧ t ≠ .comma := by
  refine ⟨?_, ?_, ?_⟩
  · rintro rfl
    rcases closing with rfl | rfl <;> cases starts
  · rintro (rfl | rfl) <;> cases starts
  · rintro rfl
    cases starts

theorem withRow_of_ne_nil {row : List Expr} (h : row ≠ []) (rows : List (List Expr)) :
    withRow rows row = rows ++ [row] := by
  simp [withRow, h]

/-- The row in front of the closing bracket is the last one. -/
theorem rowsFrom_close {close : Token} (inner : Parser Expr) {fuel : Nat} (enough : 0 < fuel)
    (rows : List (List Expr)) (row : List Expr) (rest : List Spanned) (gs : List Group) :
    rowsFrom inner close fuel rows row ⟨Token.tight close :: rest, gs⟩
      = .ok (withRow rows row, ⟨Token.tight close :: rest, gs⟩) := by
  obtain ⟨fuel, rfl⟩ := Nat.exists_eq_add_one.mpr enough
  simp [rowsFrom, Token.tight, -bind_pure_comp]

theorem rowsFrom_semicolon {close : Token} (closing : close = .rightBracket ∨ close = .rightBrace)
    (inner : Parser Expr) (fuel : Nat) (rows : List (List Expr)) (row : List Expr)
    (rest : List Spanned) (gs : List Group) :
    rowsFrom inner close (fuel + 1) rows row ⟨Token.tight .semicolon :: rest, gs⟩
      = rowsFrom inner close fuel (withRow rows row) [] ⟨rest, gs⟩ := by
  have notClose : Token.semicolon ≠ close := by rcases closing with rfl | rfl <;> simp
  rw [rowsFrom, peek?_bind_run]
  simp [Token.tight, notClose, -bind_pure_comp]

variable [Layout]

/-! ## Arguments -/

theorem exprAt_run {e : Expr} (read : Reads 0 e) {n : Nat} {b : Bool} {rest : List Spanned}
    {gs : List Group} (closes : Closes 0 rest) (short : (e.words b).length < n) :
    exprAt n ⟨e.words b ++ rest, gs⟩ = .ok (e, ⟨rest, gs⟩) := by
  obtain ⟨m, rfl⟩ := Nat.exists_eq_add_of_lt short
  exact read _ b rest gs closes (Nat.le_add_right _ m)

/-- The expression can stand in brackets. -/
def ReadInside (e : Expr) : Prop := e.first.starts ∧ Reads 0 e

theorem wholeAxisAhead_all {b : Bool} {w : Spanned} (h : endsArgument w.token)
    (rest : List Spanned) (gs : List Group) :
    wholeAxisAhead ⟨Expr.all.words b ++ w :: rest, gs⟩ = true := by
  cases w with
  | mk token start stop spaced =>
    revert h
    cases token <;> intro h <;> first | rfl | cases h

theorem argument_run {e : Expr} (inside : e ≠ .all → ReadInside e) {n : Nat} {b : Bool}
    {w : Spanned} (ends : endsArgument w.token) (rest : List Spanned) (gs : List Group)
    (short : (e.words b).length < n) :
    argument (exprAt n) ⟨e.words b ++ w :: rest, gs⟩ = .ok (e, ⟨w :: rest, gs⟩) := by
  by_cases whole : e = .all
  case pos =>
    subst whole
    simp only [argument, get_bind_run, ite_run, wholeAxisAhead_all ends, if_true]
    rfl
  case neg =>
    obtain ⟨starts, read⟩ := inside whole
    obtain ⟨ws, shape⟩ := e.words_eq_cons b
    have noColon : wholeAxisAhead ⟨e.words b ++ w :: rest, gs⟩ = false := by
      rw [shape]
      exact wholeAxisAhead_of_starts starts b _ gs
    simp only [argument, get_bind_run, ite_run, noColon]
    exact exprAt_run read (closes_of_endsArgument ends rest) short

theorem words_length_pos (e : Expr) (b : Bool) : 0 < (e.words b).length := by
  obtain ⟨ws, shape⟩ := e.words_eq_cons b
  simp [shape]

theorem laterElementWords_cons (e : Expr) (es : List Expr) :
    laterElementWords (e :: es) = Token.tight .comma :: elementWords Layout.gap (e :: es) := by
  simp [laterElementWords, elementWords]

theorem length_le_elementWords :
    (es : List Expr) → (b : Bool) → es.length ≤ (elementWords b es).length
  | [], _ => Nat.zero_le _
  | [e], b => by
      rw [elementWords, laterElementWords, List.append_nil]
      exact words_length_pos e b
  | e :: e' :: es, b => by
      have later := length_le_elementWords (e' :: es) Layout.gap
      have := words_length_pos e b
      simp only [elementWords, List.length_append, laterElementWords_cons, List.length_cons] at *
      omega

/-- An argument's first word is no closing bracket, no comma and not missing. -/
theorem first_of_argument {e : Expr} (inside : e ≠ .all → ReadInside e) :
    e.first ≠ .rightParen ∧ e.first ≠ .rightBrace ∧ e.first ≠ .comma := by
  by_cases whole : e = .all
  case pos =>
    subst whole
    simp [Expr.first]
  case neg =>
    have starts := (inside whole).1
    refine ⟨?_, ?_, ?_⟩ <;> intro h <;> rw [h] at starts <;> cases starts

theorem argumentsFrom_run {close : Token} (closing : close = .rightParen ∨ close = .rightBrace)
    {n : Nat} (rest : List Spanned) (gs : List Group) :
    (es : List Expr) → (∀ e ∈ es, e ≠ .all → ReadInside e) → (b : Bool) →
      (elementWords b es).length < n → (fuel : Nat) → es.length < fuel →
      argumentsFrom (exprAt n) close fuel ⟨elementWords b es ++ Token.tight close :: rest, gs⟩
        = .ok (es, ⟨Token.tight close :: rest, gs⟩)
  | _, _, _, _, 0, enough => absurd enough (Nat.not_lt_zero _)
  | [], _, _, _, fuel + 1, _ => by
      simp [argumentsFrom, elementWords, Token.tight, -bind_pure_comp]
  | e :: es, inside, b, short, fuel + 1, enough => by
      have insideHead : e ≠ .all → ReadInside e := inside e List.mem_cons_self
      have insideTail : ∀ e' ∈ es, e' ≠ .all → ReadInside e' :=
        fun e' mem => inside e' (List.mem_cons_of_mem e mem)
      have shortHead : (e.words b).length < n := by
        rw [elementWords, List.length_append] at short
        omega
      have notClose : e.first ≠ close := by
        obtain ⟨notParen, notBrace, -⟩ := first_of_argument insideHead
        rcases closing with rfl | rfl
        · exact notParen
        · exact notBrace
      have ahead : ∀ ws, Cursor.peek? ⟨e.words b ++ ws, gs⟩ = some e.first := by
        intro ws
        obtain ⟨tail, shape⟩ := e.words_eq_cons b
        rw [shape]
        rfl
      cases es with
      | nil =>
        have ends : endsArgument (Token.tight close).token := by
          rcases closing with rfl | rfl <;> rfl
        have notComma : close ≠ .comma := by rcases closing with rfl | rfl <;> simp
        have run := argument_run insideHead ends rest gs shortHead
        simp only [elementWords, laterElementWords, List.append_nil, argumentsFrom, ite_run,
          isAt_bind_run, peek?_bind_run, ahead, beq_iff_eq, Option.some.injEq, notClose, if_false,
          Option.isNone_some, Bool.false_eq_true]
        rw [bind_run run]
        simp [Token.tight, notComma, -bind_pure_comp]
      | cons e' es =>
        have ends : endsArgument (Token.tight .comma).token := rfl
        have shortTail : (elementWords Layout.gap (e' :: es)).length < n := by
          rw [elementWords, laterElementWords_cons] at short
          simp only [List.length_append, List.length_cons] at short
          omega
        have run := argument_run insideHead ends
          (elementWords Layout.gap (e' :: es) ++ Token.tight close :: rest) gs shortHead
        have later := argumentsFrom_run closing rest gs (e' :: es) insideTail Layout.gap shortTail fuel
          (Nat.lt_of_succ_lt_succ enough)
        rw [elementWords, laterElementWords_cons]
        simp only [List.append_assoc, List.cons_append, argumentsFrom, ite_run,
          isAt_bind_run, peek?_bind_run, ahead, beq_iff_eq, Option.some.injEq, notClose, if_false,
          Option.isNone_some, Bool.false_eq_true]
        rw [bind_run run]
        simp only [isAt_bind_run, Cursor.peek?_cons, Token.tight, beq_self_eq_true, if_true,
          ite_run, advance_bind_run, Cursor.step_cons]
        exact bind_run later

theorem arguments_run {close : Token} (closing : close = .rightParen ∨ close = .rightBrace)
    {n : Nat} {es : List Expr} (inside : ∀ e ∈ es, e ≠ .all → ReadInside e)
    (short : (elementWords false es).length < n) (w : Spanned) (rest : List Spanned)
    (gs : List Group) :
    arguments (exprAt n) close ⟨w :: (elementWords false es ++ Token.tight close :: rest), gs⟩
      = .ok (es, ⟨rest, gs⟩) := by
  unfold arguments
  simp only [advance_bind_run, Cursor.step_cons, enter_bind_run, remaining_bind_run]
  have enough : es.length
      < (elementWords false es ++ Token.tight close :: rest).length + 1 := by
    have := length_le_elementWords es false
    simp only [List.length_append]
    omega
  rw [bind_run (argumentsFrom_run closing rest (.paren :: gs) es inside false short _ enough)]
  rfl

/-! ## Rows -/

/-- One element of a row. -/
theorem rowsFrom_element {close : Token} (closing : close = .rightBracket ∨ close = .rightBrace)
    {e : Expr} (inside : ReadInside e) {n : Nat} {b : Bool} {ws : List Spanned}
    (closes : Closes 0 ws) (short : (e.words b).length < n) (fuel : Nat)
    (rows : List (List Expr)) (row : List Expr) (gs : List Group) :
    rowsFrom (exprAt n) close (fuel + 1) rows row ⟨e.words b ++ ws, gs⟩
      = rowsFrom (exprAt n) close fuel rows (row ++ [e]) ⟨ws, gs⟩ := by
  have ahead : Cursor.peek? ⟨e.words b ++ ws, gs⟩ = some e.first := by
    obtain ⟨tail, shape⟩ := e.words_eq_cons b
    rw [shape]
    rfl
  obtain ⟨notClose, notNext, notComma⟩ := separates_no_start inside.1 closing
  rw [rowsFrom, peek?_bind_run, ahead]
  simp only [notClose, notNext, notComma, if_false, ite_run]
  exact bind_run (exprAt_run inside.2 closes short)

/-- The elements of a row, with at least `k` steps left behind them. -/
theorem rowsFrom_elements {close : Token} (closing : close = .rightBracket ∨ close = .rightBrace)
    {n k : Nat} {w : Spanned} (ends : endsRow w.token) (rest : List Spanned)
    (rows : List (List Expr)) (gs : List Group) :
    (es : List Expr) → (∀ e ∈ es, ReadInside e) → (b : Bool) →
      (elementWords b es).length < n → (row : List Expr) → (fuel : Nat) →
      (elementWords b es).length + k ≤ fuel → ∃ m, k ≤ m ∧
        rowsFrom (exprAt n) close fuel rows row ⟨elementWords b es ++ w :: rest, gs⟩
          = rowsFrom (exprAt n) close m rows (row ++ es) ⟨w :: rest, gs⟩
  | [], _, _, _, row, fuel, enough => by
      refine ⟨fuel, ?_, ?_⟩
      · simpa [elementWords] using enough
      · simp [elementWords]
  | [e], inside, b, short, row, fuel, enough => by
      rw [elementWords, laterElementWords, List.append_nil] at short enough ⊢
      have := words_length_pos e b
      obtain ⟨fuel, rfl⟩ := Nat.exists_eq_add_one_of_ne_zero (n := fuel) (by omega)
      refine ⟨fuel, by omega, ?_⟩
      exact rowsFrom_element closing (inside e List.mem_cons_self)
        (closes_of_endsRow ends rest) short fuel rows row gs
  | e :: e' :: es, inside, b, short, row, fuel, enough => by
      rw [elementWords, laterElementWords_cons, List.length_append, List.length_cons]
        at short enough
      have := words_length_pos e b
      have shortHead : (e.words b).length < n := by omega
      obtain ⟨fuel, rfl⟩ := Nat.exists_eq_add_of_le' (m := 2) (n := fuel) (by omega)
      obtain ⟨m, le, run⟩ := rowsFrom_elements (n := n) (k := k) closing ends rest rows gs (e' :: es)
        (fun e'' mem => inside e'' (List.mem_cons_of_mem e mem)) Layout.gap (by omega) (row ++ [e])
        fuel (by omega)
      refine ⟨m, le, ?_⟩
      rw [elementWords, laterElementWords_cons]
      simp only [List.append_assoc, List.cons_append]
      rw [rowsFrom_element closing (inside e List.mem_cons_self)
        (closes_of_continues rfl) shortHead]
      have notClose : Token.comma ≠ close := by rcases closing with rfl | rfl <;> simp
      rw [rowsFrom, peek?_bind_run]
      simp only [Cursor.peek?_cons, Token.tight, notClose, if_false, ite_run, advance_bind_run,
        Cursor.step_cons, reduceCtorEq, or_self, if_true]
      rw [run, List.append_assoc]
      rfl

/-- All rows of a literal, of which there is at least one. -/
theorem rowsFrom_rows {close : Token} (closing : close = .rightBracket ∨ close = .rightBrace)
    {n : Nat} (rest : List Spanned) (gs : List Group) :
    (later : List (List Expr)) → (row : List Expr) → (∀ r ∈ row :: later, r ≠ []) →
      (∀ r ∈ row :: later, ∀ e ∈ r, ReadInside e) → (b : Bool) →
      (elementWords b row ++ laterRowWords later).length < n → (rows : List (List Expr)) →
      (fuel : Nat) → (elementWords b row ++ laterRowWords later).length < fuel →
      rowsFrom (exprAt n) close fuel rows []
          ⟨elementWords b row ++ (laterRowWords later ++ Token.tight close :: rest), gs⟩
        = .ok (rows ++ row :: later, ⟨Token.tight close :: rest, gs⟩)
  | [], row, filled, inside, b, short, rows, fuel, enough => by
      simp only [laterRowWords, List.append_nil, List.nil_append] at short enough ⊢
      have ends : endsRow (Token.tight close).token := by rcases closing with rfl | rfl <;> rfl
      obtain ⟨m, le, run⟩ := rowsFrom_elements (k := 1) closing ends rest rows gs row
        (inside row List.mem_cons_self) b short [] fuel (by omega)
      rw [run, rowsFrom_close _ le, List.nil_append,
        withRow_of_ne_nil (filled row List.mem_cons_self)]
  | row' :: later, row, filled, inside, b, short, rows, fuel, enough => by
      simp only [laterRowWords, List.length_append, List.length_cons] at short enough
      have later' := rowsFrom_rows (n := n) closing rest gs later row'
        (fun r mem => filled r (List.mem_cons_of_mem row mem))
        (fun r mem => inside r (List.mem_cons_of_mem row mem)) Layout.gap
        (by rw [List.length_append]; omega) (rows ++ [row])
      obtain ⟨m, le, run⟩ := rowsFrom_elements (n := n) (w := Token.tight .semicolon)
        (k := (elementWords Layout.gap row' ++ laterRowWords later).length + 2) closing rfl
        (elementWords Layout.gap row' ++ (laterRowWords later ++ Token.tight close :: rest)) rows gs row
        (inside row List.mem_cons_self) b (by omega) [] fuel
        (by rw [List.length_append]; omega)
      obtain ⟨m, rfl⟩ := Nat.exists_eq_add_one_of_ne_zero (n := m) (by omega)
      simp only [laterRowWords, List.cons_append, List.append_assoc]
      rw [run, rowsFrom_semicolon closing, List.nil_append,
        withRow_of_ne_nil (filled row List.mem_cons_self), later' m (by omega)]
      simp

theorem rows_run {close : Token} (closing : close = .rightBracket ∨ close = .rightBrace)
    {n : Nat} {found : List (List Expr)} (filled : ∀ r ∈ found, r ≠ [])
    (inside : ∀ r ∈ found, ∀ e ∈ r, ReadInside e) (short : (rowWords found).length < n)
    (w : Spanned) (rest : List Spanned) (gs : List Group) :
    rows (exprAt n) close ⟨w :: (rowWords found ++ Token.tight close :: rest), gs⟩
      = .ok (found, ⟨rest, gs⟩) := by
  unfold rows
  simp only [advance_bind_run, Cursor.step_cons, enter_bind_run, remaining_bind_run]
  have run : ∀ fuel, (rowWords found).length < fuel →
      rowsFrom (exprAt n) close fuel [] []
          ⟨rowWords found ++ Token.tight close :: rest, .concat :: gs⟩
        = .ok (found, ⟨Token.tight close :: rest, .concat :: gs⟩) := by
    intro fuel enough
    cases found with
    | nil => exact rowsFrom_close _ (by omega) [] [] rest _
    | cons row later =>
      rw [rowWords] at short enough ⊢
      rw [List.append_assoc]
      exact rowsFrom_rows closing rest _ later row filled inside false short [] fuel enough
  rw [bind_run (run _ (by rw [List.length_append]; omega))]
  rfl

end MatrixScript.Parser
