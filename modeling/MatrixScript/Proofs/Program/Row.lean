/-
# `Proofs.Program.Row` — rows of elements with blanks or commas between them

A text that is one element of a row alone is the same element behind a blank and behind a comma,
whatever it starts with: a sign that stands right in front of its operand, a bracket or a quote
goes on with nothing that a blank separates it from.  So a row may be written with blanks or with
commas (`Program.parse_row`).
-/
import MatrixScript.Proofs.Program.Append
import MatrixScript.Proofs.Program.Element
import MatrixScript.Proofs.Program.Position
import MatrixScript.Proofs.Program.Statements
import MatrixScript.Proofs.Token.Dense

namespace MatrixScript

open Token (tight apart)

namespace Parser

variable {inner : Parser Expr} {c : Cursor} {e : Expr} {d : Cursor}

/-! ## The first token of an element -/

/-- No parser asks whether a blank stands in front of the token that it starts with. -/
theorem atLevel_respaced (w : Spanned) (spaced : Bool) (ws : List Spanned) (gs : List Group)
    {ℓ : Nat} (le : ℓ ≤ 11) :
    atLevel inner ℓ ⟨{ w with spaced } :: ws, gs⟩ = atLevel inner ℓ ⟨w :: ws, gs⟩ := by
  have first : ∀ {α : Type} {p : Parser Expr} (f : Expr → Parser α),
      p ⟨{ w with spaced } :: ws, gs⟩ = p ⟨w :: ws, gs⟩ →
      (p >>= f) ⟨{ w with spaced } :: ws, gs⟩ = (p >>= f) ⟨w :: ws, gs⟩ := by
    intro α p f same
    show (p _).bind _ = (p _).bind _
    rw [same]
  induction le using Nat.decreasingInduction with
  | self =>
    obtain ⟨t, start, stop, flag⟩ := w
    cases t <;> rfl
  | of_succ ℓ lt ih =>
    by_cases loops : Loops ℓ
    case pos =>
      rw [atLevel_eq_loop loops]
      exact first _ ih
    case neg =>
      rcases eq_of_not_loops lt loops with rfl | rfl
      · exact first _ ih
      · obtain ⟨t, start, stop, flag⟩ := w
        cases t <;> rfl

/-- Signs and what is looser start with what a sign can stand in front of. -/
theorem exists_signed {ℓ : Nat} (le : ℓ ≤ 8) (run : atLevel inner ℓ c = .ok (e, d)) :
    ∃ e' d', signed inner c = .ok (e', d') := by
  induction le using Nat.decreasingInduction generalizing e d with
  | self => exact ⟨e, d, run⟩
  | of_succ ℓ lt ih =>
    by_cases loops : Loops ℓ
    case pos =>
      rw [atLevel_eq_loop loops] at run
      obtain ⟨left, d', first, -⟩ := exists_of_bind_run run
      exact ih first
    case neg =>
      rcases eq_of_not_loops (by omega) loops with rfl | rfl
      · obtain ⟨start, d', first, -⟩ := exists_of_bind_run run
        exact ih first
      · exact absurd lt (Nat.lt_irrefl 8)

/-! ## What ends an element -/

theorem operatorAhead?_eq_none {w : Spanned} {us : List Spanned} {gs : List Group} {ℓ : Nat}
    (h : signStartsElement ⟨w :: us, gs⟩ ∨ operatorAt ℓ w.token = none) :
    operatorAhead? (operatorAt ℓ) ⟨w :: us, gs⟩ = none := by
  unfold operatorAhead?
  split
  case isTrue => rfl
  case isFalse other => exact h.resolve_left other

/-- A token that goes on with no expression ends every element. -/
theorem ends_of_continues {w : Spanned} (h : continues w.token = none) (us : List Spanned) :
    Ends (w :: us) := by
  have closes : ∀ {ℓ : Nat}, Closes ℓ (w :: us) := closes_of_continues h
  exact ⟨List.cons_ne_nil w us, fun ℓ => operatorAhead?_of_closes closes _,
    fun e => suffixAhead_of_closes closes _ e, peek?_ne_colon closes _⟩

/-- So does the first token of another one behind a blank, if it is no sign that a blank
separates from its operand. -/
theorem ends_spaced {w : Spanned} {us : List Spanned} (leads : w.token.leads) (spaced : w.spaced)
    (next : w.token = .plus ∨ w.token = .minus → ∀ v ∈ us.head?, v.spaced = false) :
    Ends (w :: us) := by
  obtain ⟨t, start, stop, flag⟩ := w
  obtain rfl : flag = true := spaced
  refine ⟨List.cons_ne_nil _ us, fun ℓ => operatorAhead?_eq_none ?_, fun e => ?_, ?_⟩
  · by_cases sign : t = .plus ∨ t = .minus
    case pos =>
      have apart : Cursor.spacedAt ⟨⟨t, start, stop, true⟩ :: us, [.concat]⟩ 1 = false := by
        unfold Cursor.spacedAt
        cases us with
        | nil => rfl
        | cons v us => exact next sign v rfl
      left
      unfold signStartsElement
      rw [apart]
      rcases sign with rfl | rfl <;> rfl
    case neg =>
      right
      unfold operatorAt
      split <;> cases t <;>
        first | rfl | exact absurd (.inl rfl) sign | exact absurd (.inr rfl) sign | cases leads
  · unfold suffixAhead
    cases t <;> cases e <;> first | rfl | cases leads
  · rintro ⟨⟩
    cases leads

/-! ## Elements -/

/-- Behind a sign an operand follows. -/
theorem leads_behind_sign {n : Nat} (run : exprAt n c = .ok (e, d)) {t : Token}
    (ahead : c.peek? = some t) (sign : t = .plus ∨ t = .minus) :
    ∃ t, c.step.peek? = some t ∧ t.leads := by
  obtain ⟨n, rfl⟩ : ∃ k, n = k + 1 := by
    cases n with
    | zero => cases run
    | succ n => exact ⟨n, rfl⟩
  have loosest : atLevel (exprAt n) 0 c = .ok (e, d) := run
  obtain ⟨e', d', signs⟩ := exists_signed (Nat.zero_le 8) loosest
  have ends : Ends [tight .rightBracket] := ends_of_continues rfl []
  have operand : Framed _ (power (exprAt n)) (power (exprAt n)) :=
    framed_atLevel ends (framed_exprAt ends (Nat.le_refl n)) (by decide : 9 ≤ 11)
  obtain ⟨w, ws, shape, same⟩ := Cursor.exists_of_peek? ahead
  rw [signed, remaining_bind_run, shape, List.length_cons, signedFrom, peek?_bind_run, ahead] at signs
  rcases sign with rfl | rfl
  · exact leads_signedFrom operand _ signs
  · dsimp only at signs
    rw [advance_bind_run] at signs
    obtain ⟨x, d'', first, -⟩ := exists_of_bind_run signs
    exact leads_signedFrom operand _ first

theorem enclosed_bracket (ts : List Token) (depth : Nat) (h : Token.enclosed depth ts) :
    Token.enclosed depth (ts ++ [.rightBracket]) := by
  induction ts generalizing depth with
  | nil => rfl
  | cons t ts ih =>
    rw [List.cons_append]
    unfold Token.enclosed at h ⊢
    split at h
    case isTrue opening =>
      rw [if_pos opening]
      exact ih _ h
    case isFalse opening =>
      rw [if_neg opening]
      split at h
      case isTrue closing =>
        rw [if_pos closing]
        exact ih _ h
      case isFalse closing =>
        rw [Bool.and_eq_true] at h
        rw [if_neg closing, h.1, Bool.true_and]
        exact ih _ h.2

theorem inside_bracket {ts : List Spanned} (tight : ∀ w ∈ ts, w.spaced = false)
    (enclosed : Token.enclosed 0 (ts.map (·.token))) :
    Cursor.Inside ⟨ts ++ [Token.tight .rightBracket], [.concat]⟩ := by
  refine ⟨?_, ?_, rfl, ?_⟩
  · rw [List.getLast?_append]
    rfl
  · intro w mem
    rcases List.mem_append.mp mem with inner | last
    · exact tight w inner
    · rw [List.mem_singleton.mp last]
      rfl
  · rw [List.map_append]
    exact enclosed_bracket _ _ enclosed

/-- In brackets the tokens are one element. -/
structure IsElement (ts : List Spanned) (v : Expr) : Prop where
  tight : ∀ w ∈ ts, w.spaced = false
  enclosed : Token.enclosed 0 (ts.map (·.token))
  run : exprAt (ts.length + 2) ⟨ts ++ [Token.tight .rightBracket], [.concat]⟩
    = .ok (v, ⟨[Token.tight .rightBracket], [.concat]⟩)

namespace IsElement

variable {ts us : List Spanned} {v : Expr}

theorem exists_cons (h : IsElement ts v) : ∃ w ws, ts = w :: ws ∧ w.token.leads
    ∧ (w.token = .plus ∨ w.token = .minus → ws ≠ []) := by
  have ends : Ends [Token.tight .rightBracket] := ends_of_continues rfl []
  obtain ⟨t, ahead, leads⟩ := (framed_exprAt ends (Nat.le_refl _)).leads _ _ _ h.run
  cases ts with
  | nil =>
    cases ahead
    cases leads
  | cons w ws =>
    obtain rfl := Option.some.inj ahead
    refine ⟨w, ws, rfl, leads, fun sign => ?_⟩
    rintro rfl
    obtain ⟨t, ahead, leads⟩ := leads_behind_sign h.run rfl sign
    cases ahead
    cases leads

/-- In front of anything that ends it, and behind a blank or not. -/
theorem run_ends (h : IsElement ts v) (ends : Ends us) {n : Nat} (le : ts.length + 2 ≤ n)
    (spaced : Bool) : exprAt n ⟨respaced spaced ts ++ us, [.concat]⟩ = .ok (v, ⟨us, [.concat]⟩) := by
  obtain ⟨-, -, frame⟩ := (framed_exprAt ends le).frames _ (List.cons_ne_nil _ _) _ _ h.run
  obtain ⟨-, run⟩ := frame (inside_bracket h.tight h.enclosed) (Nat.le_refl 1)
  have plain : exprAt n ⟨ts ++ us, [.concat]⟩ = .ok (v, ⟨us, [.concat]⟩) := by
    simpa [Cursor.before] using run
  obtain ⟨w, ws, rfl, -⟩ := h.exists_cons
  obtain ⟨n, rfl⟩ : ∃ k, n = k + 1 := ⟨n - 1, by omega⟩
  rw [← plain]
  show atLevel (exprAt n) 0 _ = atLevel (exprAt n) 0 _
  exact atLevel_respaced w spaced (ws ++ us) [.concat] (Nat.zero_le 11)

/-- What stands behind the blank in front of an element ends the one before. -/
theorem ends_respaced (h : IsElement ts v) (us : List Spanned) : Ends (respaced true ts ++ us) := by
  obtain ⟨w, ws, rfl, leads, more⟩ := h.exists_cons
  refine ends_spaced leads rfl fun sign v first => ?_
  cases ws with
  | nil => exact absurd rfl (more sign)
  | cons u ws =>
    cases first
    exact h.tight v (by simp)

end IsElement

/-! ## Rows -/

open Token (laterDenseWords denseWords)

/-- One element of a row. -/
theorem IsElement.rowsFrom_run {ts us : List Spanned} {v : Expr} (h : IsElement ts v)
    (ends : Ends us) {n : Nat} (le : ts.length + 2 ≤ n) (spaced : Bool) (fuel : Nat)
    (rows : List (List Expr)) (row : List Expr) :
    rowsFrom (exprAt n) .rightBracket (fuel + 1) rows row ⟨respaced spaced ts ++ us, [.concat]⟩
      = rowsFrom (exprAt n) .rightBracket fuel rows (row ++ [v]) ⟨us, [.concat]⟩ := by
  have run := h.run_ends ends le spaced
  obtain ⟨w, ws, rfl, leads, -⟩ := h.exists_cons
  have ahead : Cursor.peek? ⟨respaced spaced (w :: ws) ++ us, [.concat]⟩ = some w.token := rfl
  have other : w.token ≠ .rightBracket ∧ ¬(w.token = .semicolon ∨ w.token = .newline)
      ∧ w.token ≠ .comma := by
    refine ⟨?_, ?_, ?_⟩
    · intro same
      rw [same] at leads
      cases leads
    · rintro (same | same) <;>
      · rw [same] at leads
        cases leads
    · intro same
      rw [same] at leads
      cases leads
  rw [rowsFrom, peek?_bind_run, ahead]
  simp only [other, if_false, ite_run]
  exact bind_run run

theorem length_respaced (spaced : Bool) (ts : List Spanned) :
    (respaced spaced ts).length = ts.length := by
  cases ts <;> rfl

/-- Whatever follows an element in its row ends it. -/
theorem ends_later (commas : Bool) {tss : List (List Spanned)} {vs : List Expr}
    (all : List.Forall₂ IsElement tss vs) :
    Ends (laterDenseWords commas tss ++ [Token.tight .rightBracket]) := by
  cases all with
  | nil => exact ends_of_continues rfl []
  | cons element _ =>
    cases commas with
    | true => exact ends_of_continues rfl _
    | false =>
      rw [laterDenseWords, if_neg Bool.false_ne_true, List.nil_append, List.append_assoc]
      exact element.ends_respaced _

/-- Further elements, with blanks or commas in front of them. -/
theorem rowsFrom_later (commas : Bool) {n : Nat} {tss : List (List Spanned)} {vs : List Expr}
    (all : List.Forall₂ IsElement tss vs) (short : (laterDenseWords commas tss).length + 2 ≤ n)
    (fuel : Nat) (enough : (laterDenseWords commas tss).length < fuel) (row : List Expr)
    (filled : row ≠ []) :
    rowsFrom (exprAt n) .rightBracket fuel [] row
        ⟨laterDenseWords commas tss ++ [Token.tight .rightBracket], [.concat]⟩
      = .ok ([row ++ vs], ⟨[Token.tight .rightBracket], [.concat]⟩) := by
  induction all generalizing fuel row with
  | nil =>
    rw [laterDenseWords, List.nil_append, rowsFrom_close _ enough, withRow_of_ne_nil filled,
      List.append_nil]
    rfl
  | @cons ts v tss vs element all ih =>
    have some : 0 < ts.length := by
      obtain ⟨w, ws, rfl, -⟩ := element.exists_cons
      exact Nat.succ_pos _
    have behind : ∀ fuel, (respaced true ts ++ laterDenseWords commas tss).length < fuel →
        rowsFrom (exprAt n) .rightBracket fuel [] row
          ⟨respaced true ts ++ (laterDenseWords commas tss ++ [Token.tight .rightBracket]), [.concat]⟩
        = .ok ([row ++ v :: vs], ⟨[Token.tight .rightBracket], [.concat]⟩) := by
      intro fuel enough
      rw [List.length_append, length_respaced] at enough
      rw [laterDenseWords, List.length_append, List.length_append, length_respaced] at short
      obtain ⟨fuel, rfl⟩ : ∃ k, fuel = k + 1 := ⟨fuel - 1, by omega⟩
      rw [element.rowsFrom_run (ends_later commas all) (by omega) true]
      refine (ih (by omega) fuel (by omega) _ (by simp)).trans ?_
      rw [List.append_assoc]
      rfl
    rw [laterDenseWords, List.append_assoc, List.append_assoc]
    rw [laterDenseWords, List.length_append] at enough
    cases commas with
    | false => exact behind fuel (Nat.lt_of_le_of_lt (Nat.le_add_left _ _) enough)
    | true =>
      obtain ⟨fuel, rfl⟩ : ∃ k, fuel = k + 1 := ⟨fuel - 1, by omega⟩
      have passed : (respaced true ts ++ laterDenseWords true tss).length < fuel := by
        simp only [if_true, List.length_singleton] at enough
        omega
      exact behind fuel passed

/-- The elements of a row, up to its bracket. -/
theorem rowsFrom_row (commas : Bool) {ts : List Spanned} {v : Expr} {tss : List (List Spanned)}
    {vs : List Expr} (element : IsElement ts v) (all : List.Forall₂ IsElement tss vs) {n fuel : Nat}
    (short : (denseWords commas (ts :: tss)).length + 2 ≤ n)
    (enough : (denseWords commas (ts :: tss)).length < fuel) :
    rowsFrom (exprAt n) .rightBracket fuel [] []
        ⟨denseWords commas (ts :: tss) ++ [Token.tight .rightBracket], [.concat]⟩
      = .ok ([v :: vs], ⟨[Token.tight .rightBracket], [.concat]⟩) := by
  have some : 0 < ts.length := by
    obtain ⟨w, ws, rfl, -⟩ := element.exists_cons
    exact Nat.succ_pos _
  have plain : respaced false ts = ts := by
    obtain ⟨w, ws, rfl, -⟩ := element.exists_cons
    have flag : w.spaced = false := element.tight w List.mem_cons_self
    simp [respaced, ← flag]
  have first := element.rowsFrom_run (ends_later commas all) (n := n)
  rw [denseWords, List.length_append] at short enough
  obtain ⟨fuel, rfl⟩ : ∃ k, fuel = k + 1 := ⟨fuel - 1, by omega⟩
  have head := first (by omega) false fuel [] []
  rw [plain] at head
  rw [denseWords, List.append_assoc, head]
  exact rowsFrom_later commas all (by omega) fuel (by omega) [v] (List.cons_ne_nil _ _)

/-! ## Literals in brackets -/

theorem binary_ne_matrix (op : BinaryOp) (left right : Expr) (found : List (List Expr)) :
    Expr.binary op left right ≠ .matrix found := by
  unfold Expr.binary
  split
  · nofun
  · split
    · split <;> nofun
    · nofun

section Literal

variable {found : List (List Expr)} {ℓ : Nat}

theorem loopAt_inv {n : Nat} {left : Expr} (run : loopAt inner ℓ n left c = .ok (.matrix found, d)) :
    left = .matrix found ∧ d = c := by
  have stay : ∀ {left e : Expr} {c d : Cursor}, (pure left : Parser Expr) c = .ok (e, d) →
      left = e ∧ d = c := by
    intro left e c d run
    cases run
    exact ⟨rfl, rfl⟩
  induction n generalizing left c with
  | zero =>
    unfold loopAt at run
    split at run <;> exact stay run
  | succ n ih =>
    unfold loopAt at run ih
    split at run
    case isTrue ten =>
      simp only [if_pos ten] at ih
      rw [suffixesFrom, get_bind_run] at run
      cases suffix : suffixAhead c left with
      | nothing =>
        rw [suffix] at run
        exact stay run
      | transpose op =>
        rw [suffix] at run
        cases (ih (c := c.step) run).1
      | call f =>
        rw [suffix] at run
        obtain ⟨es, d', -, later⟩ := exists_of_bind_run run
        cases (ih later).1
      | cellCall f =>
        rw [suffix] at run
        obtain ⟨es, d', -, later⟩ := exists_of_bind_run run
        cases (ih later).1
    case isFalse ten =>
      simp only [if_neg ten] at ih
      rw [chainFrom, get_bind_run] at run
      cases ahead : operatorAhead? (operatorAt ℓ) c with
      | none =>
        rw [ahead] at run
        exact stay run
      | some op =>
        rw [ahead] at run
        dsimp only at run
        rw [advance_bind_run] at run
        obtain ⟨right, d', -, later⟩ := exists_of_bind_run run
        exact absurd (ih later).1 (binary_ne_matrix op left right found)

variable (bracket : c.peek? = some .leftBracket)
include bracket

theorem signed_of_bracket : signed inner c = power inner c := by
  rw [signed, remaining_bind_run]
  cases c.rest.length with
  | zero => rfl
  | succ n => rw [signedFrom, peek?_bind_run, bracket]

/-- A literal at the end of its line is read as the expression that it is. -/
theorem atLevel_of_primary {e : Expr} (run : primary inner c = .ok (e, d)) (closes : Closes 0 d.rest)
    (le : ℓ ≤ 11) : atLevel inner ℓ c = .ok (e, d) := by
  induction le using Nat.decreasingInduction with
  | self => exact run
  | of_succ ℓ lt ih =>
    by_cases loops : Loops ℓ
    case pos =>
      rw [atLevel_eq_loop loops, bind_run ih, remaining_bind_run]
      exact loopAt_of_closes loops (closes.mono (Nat.zero_le ℓ)) inner _ e d.groups
    case neg =>
      rcases eq_of_not_loops lt loops with rfl | rfl
      · show range inner c = _
        have bound : additive inner c = .ok (e, d) := ih
        have colon := peek?_ne_colon (closes.mono (Nat.zero_le 5)) d.groups
        unfold range
        rw [bind_run bound, isAt_bind_run, beq_false_of_ne colon]
        rfl
      · exact (signed_of_bracket bracket).trans ih

/-- What is a literal alone is read so at once. -/
theorem primary_of_atLevel (le : ℓ ≤ 11) (run : atLevel inner ℓ c = .ok (.matrix found, d)) :
    primary inner c = .ok (.matrix found, d) := by
  induction le using Nat.decreasingInduction with
  | self => exact run
  | of_succ ℓ lt ih =>
    refine ih ?_
    by_cases loops : Loops ℓ
    case pos =>
      rw [atLevel_eq_loop loops] at run
      obtain ⟨left, d', first, later⟩ := exists_of_bind_run run
      rw [remaining_bind_run] at later
      obtain ⟨rfl, rfl⟩ := loopAt_inv later
      exact first
    case neg =>
      rcases eq_of_not_loops lt loops with rfl | rfl
      · obtain ⟨start, d', first, later⟩ := exists_of_bind_run run
        rw [isAt_bind_run, ite_run] at later
        split at later
        case isTrue =>
          rw [advance_bind_run] at later
          obtain ⟨second, d'', -, last⟩ := exists_of_bind_run later
          rw [isAt_bind_run, ite_run] at last
          split at last
          case isTrue =>
            rw [advance_bind_run] at last
            obtain ⟨stop, d₃, -, result⟩ := exists_of_bind_run last
            cases result
          case isFalse => cases last
        case isFalse =>
          cases later
          exact first
      · exact (signed_of_bracket bracket).symm.trans run

end Literal

/-! ## Assignments -/

/-- What stands behind the equals sign becomes the value. -/
theorem item_assigned (ts : List Spanned) :
    item ⟨tight (.ident "x") :: apart .equals :: ts, []⟩
      = (expr >>= fun e => pure (Item.statement (.assign (.variable "x") e))) ⟨ts, []⟩ := by
  have name : expr ⟨tight (.ident "x") :: apart .equals :: ts, []⟩
      = .ok (.name "x", ⟨apart .equals :: ts, []⟩) :=
    @expr_run ⟨true⟩ (.name "x") (.name (by decide)) (apart .equals :: ts)
      (closes_of_continues rfl) false []
  have simple : simpleStatement ⟨tight (.ident "x") :: apart .equals :: ts, []⟩
      = (expr >>= fun e => pure (Statement.assign (.variable "x") e)) ⟨ts, []⟩ := by
    unfold simpleStatement
    rw [bind_run name]
    rfl
  have flow : controlFlow.contains "x" = false := by decide
  have dispatch : statement ⟨tight (.ident "x") :: apart .equals :: ts, []⟩
      = simpleStatement ⟨tight (.ident "x") :: apart .equals :: ts, []⟩ := by
    unfold statement
    rw [get_bind_run]
    show (if controlFlow.contains "x" then fail _ else if isCommand _ then command else simpleStatement :
      Parser Statement) _ = _
    rw [flow]
    rfl
  have whole : item ⟨tight (.ident "x") :: apart .equals :: ts, []⟩
      = (statement >>= fun s => pure (Item.statement s))
        ⟨tight (.ident "x") :: apart .equals :: ts, []⟩ := rfl
  rw [whole]
  show (statement _).bind _ = (expr _).bind _
  rw [dispatch, simple]
  show ((expr _).bind _).bind _ = _
  cases expr ⟨ts, []⟩ <;> rfl

/-- A program of one item that ends with no separator has nothing behind the item. -/
theorem item_of_ofTokens (ts : List Spanned) {v w : Spanned} {i : Item}
    (first : v.token.isSeparator = false) (last : w.token.isSeparator = false)
    (parses : Program.ofTokens (v :: (ts ++ [w])) = .ok [i]) :
    ∃ gs, item ⟨v :: (ts ++ [w]), []⟩ = .ok (i, ⟨[], gs⟩) := by
  have start : (Cursor.start (v :: (ts ++ [w]))).skipSeparators = ⟨v :: (ts ++ [w]), []⟩ :=
    skipSeparators_of_not rfl first
  unfold Program.ofTokens at parses
  cases run : program (Cursor.start (v :: (ts ++ [w]))) with
  | error =>
    rw [run] at parses
    cases parses
  | ok r =>
    rw [run] at parses
    obtain ⟨p, d⟩ := r
    cases parses
    have rounds := rounds_of_sequenceFrom (n := (ts ++ [w]).length + 1 + 1) run
    cases rounds with
    | @one _ _ _ _ _ _ _ _ read behind =>
      rw [start] at read
      obtain ⟨rest, gs⟩ := d
      obtain rfl : rest = [] := rest_of_peek?_none behind
      exact ⟨gs, read⟩
    | @more _ _ e _ _ u _ _ _ _ _ read behind _ later =>
      rw [start] at read
      -- what is left ends with the token that is no separator, so there would be a second item
      have carried : Carried [] item item := carried_item
      obtain ⟨part, -⟩ := carried _ (.inl rfl) _ _ read
      have part : e.rest <:+ (v :: ts) ++ [w] := part
      obtain ⟨front, whole, -⟩ :=
        (List.suffix_concat_iff.mp part).resolve_left (ne_nil_of_peek? behind)
      have some : e.skipSeparators.rest ≠ [] := by
        show e.rest.dropWhile _ ≠ []
        rw [whole, ne_eq, List.dropWhile_eq_nil_iff]
        intro all
        have separates := all w (by simp)
        rw [last] at separates
        cases separates
      cases later with
      | last none => exact absurd (rest_of_peek?_none none) some
      | stop _ stops => cases stops

/-- The literal that is the value of an assignment is read up to the bracket at its end. -/
theorem rows_of_ofTokens {ts : List Spanned} {w : Spanned} (bracket : w.token = .rightBracket)
    {found : List (List Expr)} (parses : Program.ofTokens
      (tight (.ident "x") :: apart .equals :: apart .leftBracket :: (ts ++ [w]))
        = .ok [.statement (.assign (.variable "x") (.matrix found))]) :
    rowsFrom (exprAt (ts.length + 2)) .rightBracket (ts.length + 2) [] [] ⟨ts ++ [w], [.concat]⟩
      = .ok (found, ⟨[w], [.concat]⟩) := by
  obtain ⟨gs, read⟩ := item_of_ofTokens (apart .equals :: apart .leftBracket :: ts) rfl
    (by rw [bracket]; rfl) parses
  have read := (item_assigned (apart .leftBracket :: (ts ++ [w]))).symm.trans read
  obtain ⟨value, d, run, result⟩ := exists_of_bind_run read
  cases result
  have length : (apart Token.leftBracket :: (ts ++ [w])).length = ts.length + 2 := by simp
  rw [expr, remaining_bind_run, length] at run
  have literal := primary_of_atLevel rfl (Nat.zero_le 11)
    (show atLevel (exprAt (ts.length + 2)) 0 ⟨apart .leftBracket :: (ts ++ [w]), []⟩ = _ from run)
  obtain ⟨rows, d, list, result⟩ := exists_of_bind_run
    (show (Parser.rows (exprAt (ts.length + 2)) .rightBracket >>= fun r => pure (Expr.matrix r))
      ⟨apart .leftBracket :: (ts ++ [w]), []⟩ = _ from literal)
  cases result
  rw [Parser.rows, advance_bind_run, enter_bind_run, remaining_bind_run] at list
  obtain ⟨rows, e, inner, result⟩ := exists_of_bind_run list
  have result : Except.ok (rows, e.closed) = Except.ok (found, Cursor.mk [] gs) := result
  obtain ⟨rfl, closed⟩ := Prod.mk.inj (Except.ok.inj result)
  have bound : (ts ++ [w]).length + 1 = ts.length + 2 := by simp
  have inner : rowsFrom (exprAt (ts.length + 2)) .rightBracket ((ts ++ [w]).length + 1) [] []
      ⟨ts ++ [w], [.concat]⟩ = .ok (rows, e) := inner
  rw [bound] at inner
  have carried : Carried [] (rowsFrom (exprAt (ts.length + 2)) .rightBracket (ts.length + 2) [] [])
      (rowsFrom (exprAt (ts.length + 2)) .rightBracket (ts.length + 2) [] []) :=
    carried_rowsFrom (carried_exprAt (Nat.le_refl _)) .rightBracket (Nat.le_refl _) [] []
  obtain ⟨part, groups, -⟩ := carried ⟨ts ++ [w], [.concat]⟩ (.inl rfl) _ _ inner
  obtain ⟨v, vs, shape, -⟩ := Cursor.exists_of_peek? (stopsAt_rowsFrom _ _ _ _ _ _ inner)
  -- nothing is left behind the bracket, so it is the last token
  have alone : vs = [] := by
    have tail : e.rest.tail = [] := congrArg Cursor.rest closed
    rwa [shape] at tail
  obtain ⟨front, whole, -⟩ :=
    (List.suffix_concat_iff.mp part).resolve_left (by rw [shape]; exact List.cons_ne_nil _ _)
  have same : e.rest = [w] := by
    rw [shape, alone] at whole
    rw [shape, alone]
    cases front with
    | nil => exact whole
    | cons u front => simp at whole
  obtain ⟨rest, ks⟩ := e
  obtain rfl : rest = [w] := same
  obtain rfl : ks = [.concat] := groups
  exact inner

/-! ## The element of a row of one -/

/-- Rows stay, and the open one is the start of a row. -/
theorem rowsFrom_keeps {close : Token} {n : Nat} {rows : List (List Expr)} {row : List Expr}
    {found : List (List Expr)} (run : rowsFrom inner close n rows row c = .ok (found, d)) :
    rows ⊆ found ∧ (row ≠ [] → ∃ r ∈ found, row <+: r) := by
  induction n generalizing rows row c with
  | zero => cases run
  | succ n ih =>
    rw [rowsFrom, peek?_bind_run] at run
    cases ahead : c.peek? with
    | none =>
      rw [ahead] at run
      cases run
    | some t =>
      rw [ahead] at run
      dsimp only at run
      have added : rows ⊆ withRow rows row ∧ (row ≠ [] → row ∈ withRow rows row) := by
        unfold withRow
        split
        case isTrue empty =>
          exact ⟨List.Subset.refl _, fun filled => absurd (List.isEmpty_iff.mp empty) filled⟩
        case isFalse => exact ⟨List.subset_append_left _ _, fun _ => by simp⟩
      split at run
      case isTrue =>
        cases run
        exact ⟨added.1, fun filled => ⟨row, added.2 filled, List.prefix_rfl⟩⟩
      case isFalse =>
        split at run
        case isTrue =>
          rw [advance_bind_run] at run
          have kept := (ih run).1
          exact ⟨List.Subset.trans added.1 kept,
            fun filled => ⟨row, kept (added.2 filled), List.prefix_rfl⟩⟩
        case isFalse =>
          split at run
          case isTrue =>
            rw [advance_bind_run] at run
            exact ih run
          case isFalse =>
            obtain ⟨e, d', -, later⟩ := exists_of_bind_run run
            obtain ⟨kept, start⟩ := ih later
            refine ⟨kept, fun _ => ?_⟩
            obtain ⟨r, mem, front⟩ := start (by simp)
            exact ⟨r, mem, (List.prefix_append row [e]).trans front⟩

/-- Where no separator can stand, the row ends or an element follows. -/
theorem rowsFrom_round {n : Nat} {rows : List (List Expr)} {row : List Expr}
    {found : List (List Expr)} (inside : c.Inside) (outer : c.groups = [.concat])
    (line : ∀ w ∈ c.rest, w.token ≠ .newline)
    (run : rowsFrom inner .rightBracket n rows row c = .ok (found, d)) :
    found = withRow rows row ∧ d = c ∨ ∃ e c' m, inner c = .ok (e, c')
      ∧ rowsFrom inner .rightBracket m rows (row ++ [e]) c' = .ok (found, d) := by
  cases n with
  | zero => cases run
  | succ n =>
    obtain ⟨w, ws, shape⟩ := List.exists_cons_of_ne_nil inside.ne_nil
    have ahead : c.peek? = some w.token := by
      unfold Cursor.peek?
      rw [shape]
      rfl
    have newline : w.token ≠ .newline := line w (by rw [shape]; exact List.mem_cons_self)
    have enclosed : Token.enclosed 0 (w.token :: ws.map (·.token)) := by
      have enclosed := inside.enclosed
      rwa [outer, shape] at enclosed
    have comma : w.token ≠ .comma := fun same => by rw [same] at enclosed; cases enclosed
    have semicolon : w.token ≠ .semicolon := fun same => by rw [same] at enclosed; cases enclosed
    rw [rowsFrom, peek?_bind_run, ahead] at run
    dsimp only at run
    rw [if_neg (not_or.mpr ⟨semicolon, newline⟩), if_neg comma] at run
    split at run
    case isTrue =>
      cases run
      exact .inl ⟨rfl, rfl⟩
    case isFalse =>
      obtain ⟨e, c', first, later⟩ := exists_of_bind_run run
      exact .inr ⟨e, c', n, first, later⟩

/-- If the tokens are all of a row, and no separator stands outside of inner brackets, they are
read as its only element. -/
theorem isElement_of_rows {ts : List Spanned} {v : Expr} (tight : ∀ w ∈ ts, w.spaced = false)
    (enclosed : Token.enclosed 0 (ts.map (·.token))) (line : ∀ w ∈ ts, w.token ≠ .newline)
    {fuel : Nat} (run : rowsFrom (exprAt (ts.length + 2)) .rightBracket fuel [] []
      ⟨ts ++ [Token.tight .rightBracket], [.concat]⟩
        = .ok ([[v]], ⟨[Token.tight .rightBracket], [.concat]⟩)) : IsElement ts v := by
  refine ⟨tight, enclosed, ?_⟩
  have inside := inside_bracket tight enclosed
  have plain : ∀ w ∈ ts ++ [Token.tight .rightBracket], w.token ≠ .newline := by
    intro w mem
    rcases List.mem_append.mp mem with inner | last
    · exact line w inner
    · rw [List.mem_singleton.mp last]
      nofun
  have ends : Ends [Token.tight .rightBracket] := ends_of_continues rfl []
  rcases rowsFrom_round inside rfl plain run with ⟨none, -⟩ | ⟨e, c, m, first, later⟩
  · cases none
  obtain ⟨part, groups, frame⟩ :=
    (framed_exprAt ends (Nat.le_refl (ts.length + 2))).frames _ (List.cons_ne_nil _ _) _ _ first
  have carried : Carried [] (rowsFrom (exprAt (ts.length + 2)) .rightBracket m [] [e])
      (rowsFrom (exprAt (ts.length + 2)) .rightBracket m [] [e]) :=
    carried_rowsFrom (carried_exprAt (Nat.le_refl _)) .rightBracket (Nat.le_refl m) [] [e]
  obtain ⟨rest, -⟩ := carried c (.inl rfl) _ _ later
  have covered : c.Covered := by
    show c.groups.length ≤ c.rest.length
    rw [groups]
    exact rest.length_le
  have inside' := (frame inside covered).1
  rcases rowsFrom_round inside' groups (fun w mem => plain w (part.subset mem)) later with
    ⟨same, rfl⟩ | ⟨e', c', k, -, more⟩
  · cases same
    exact first
  · -- a second element would be in the row
    obtain ⟨r, mem, front⟩ := (rowsFrom_keeps more).2 (by simp)
    rw [List.mem_singleton.mp mem] at front
    exact absurd front.length_le (by simp)

/-- A literal with elements of one row is the value of its assignment. -/
theorem ofTokens_row (commas : Bool) {ts : List Spanned} {v : Expr} {tss : List (List Spanned)}
    {vs : List Expr} (element : IsElement ts v) (all : List.Forall₂ IsElement tss vs) :
    Program.ofTokens (tight (.ident "x") :: apart .equals :: apart .leftBracket ::
        (denseWords commas (ts :: tss) ++ [Token.tight .rightBracket]))
      = .ok [.statement (.assign (.variable "x") (.matrix [v :: vs]))] := by
  generalize words : denseWords commas (ts :: tss) = ws
  have list : rowsFrom (exprAt (ws.length + 2)) .rightBracket (ws.length + 2) [] []
      ⟨ws ++ [Token.tight .rightBracket], [.concat]⟩
        = .ok ([v :: vs], ⟨[Token.tight .rightBracket], [.concat]⟩) := by
    rw [← words]
    exact rowsFrom_row commas element all (Nat.le_refl _) (by omega)
  have literal : primary (exprAt (ws.length + 2))
      ⟨apart .leftBracket :: (ws ++ [Token.tight .rightBracket]), []⟩
        = .ok (.matrix [v :: vs], ⟨[], []⟩) := by
    show (Parser.rows (exprAt (ws.length + 2)) .rightBracket >>= fun r => pure (Expr.matrix r)) _ = _
    have bound : (ws ++ [Token.tight .rightBracket]).length + 1 = ws.length + 2 := by simp
    have rows : Parser.rows (exprAt (ws.length + 2)) .rightBracket
        ⟨apart .leftBracket :: (ws ++ [Token.tight .rightBracket]), []⟩
          = .ok ([v :: vs], ⟨[], []⟩) := by
      rw [Parser.rows, advance_bind_run, enter_bind_run, remaining_bind_run]
      show ((rowsFrom _ _ ((ws ++ [Token.tight .rightBracket]).length + 1) [] [])
        ⟨ws ++ [Token.tight .rightBracket], [.concat]⟩).bind _ = _
      rw [bound, list]
      rfl
    rw [bind_run rows]
    rfl
  have value : expr ⟨apart .leftBracket :: (ws ++ [Token.tight .rightBracket]), []⟩
      = .ok (.matrix [v :: vs], ⟨[], []⟩) := by
    have length : (apart Token.leftBracket :: (ws ++ [Token.tight .rightBracket])).length
        = ws.length + 2 := by simp
    rw [expr, remaining_bind_run, length]
    exact atLevel_of_primary rfl literal (fun w mem => by cases mem) (Nat.zero_le 11)
  have whole : item ⟨tight (.ident "x") :: apart .equals :: apart .leftBracket ::
      (ws ++ [Token.tight .rightBracket]), []⟩
        = .ok (.statement (.assign (.variable "x") (.matrix [v :: vs])), ⟨[], []⟩) := by
    rw [item_assigned, bind_run value]
    rfl
  have rounds : Rounds (fun _ => false) item ((ws ++ [Token.tight .rightBracket]).length + 4)
      (Cursor.start (tight (.ident "x") :: apart .equals :: apart .leftBracket ::
        (ws ++ [Token.tight .rightBracket])))
      [.statement (.assign (.variable "x") (.matrix [v :: vs]))] ⟨[], []⟩ := by
    refine .one (t := .ident "x") ?_ rfl (by rintro ⟨⟩) ?_ rfl
    · rw [skipSeparators_of_not rfl rfl]
      rfl
    · rw [skipSeparators_of_not rfl rfl]
      exact whole
  have run := rounds.sequenceFrom_eq
  have program : program (Cursor.start (tight (.ident "x") :: apart .equals :: apart .leftBracket ::
      (ws ++ [Token.tight .rightBracket])))
        = .ok ([.statement (.assign (.variable "x") (.matrix [v :: vs]))], ⟨[], []⟩) := run
  unfold Program.ofTokens
  rw [program]

end Parser

namespace Program

/-- A text that is an element of a row: no blank, comment or continuation stands in it, no comma
or semicolon outside of its brackets, and alone it is the only element of a matrix. -/
structure ElementText (source : String) (v : Expr) : Prop where
  dense : ∃ ts, Token.Dense source ts ∧ Token.enclosed 0 (ts.map (·.token))
  parses : Program.parse ("x = [" ++ source ++ "]")
    = .ok [.statement (.assign (.variable "x") (.matrix [[v]]))]

theorem parse_of_looks {source : String} {ts us : List Spanned} (tokens : Token.tokenize source = .ok ts)
    (looks : ts.map Spanned.look = us.map Spanned.look) {p : Program}
    (h : Program.ofTokens us = .ok p) : Program.parse source = .ok p := by
  unfold Program.parse
  rw [tokens]
  exact Program.ofTokens_alike looks h

/-- The tokens of the text are the element wherever an element can stand. -/
theorem ElementText.isElement {source : String} {v : Expr} (h : ElementText source v) :
    ∃ ts, Token.Dense source ts ∧ Parser.IsElement ts v := by
  obtain ⟨ts, dense, enclosed⟩ := h.dense
  refine ⟨ts, dense, ?_⟩
  obtain ⟨us, looks, tokens⟩ := Token.looks_assigned true dense .nil
  have parses := h.parses
  unfold Program.parse at parses
  rw [show Text.joined (Token.separation true) [source] = source from rfl] at tokens
  rw [tokens] at parses
  have parses : Program.ofTokens (tight (.ident "x") :: apart .equals :: apart .leftBracket ::
      (ts ++ [tight .rightBracket])) = .ok [.statement (.assign (.variable "x") (.matrix [[v]]))] := by
    refine Program.ofTokens_alike (Eq.trans ?_ looks.symm) parses
    rw [Token.denseWords, Token.laterDenseWords, List.append_nil]
  exact Parser.isElement_of_rows dense.tight enclosed dense.line
    (Parser.rows_of_ofTokens rfl parses)

/-- Blanks separate the elements of a row like commas: whatever the texts of elements start with,
either way each of them is the element that it is alone. -/
theorem parse_row {es : List String} {vs : List Expr} (filled : es ≠ [])
    (elements : List.Forall₂ ElementText es vs) :
    Program.parse ("x = [" ++ Text.joined " " es ++ "]")
        = .ok [.statement (.assign (.variable "x") (.matrix [vs]))]
      ∧ Program.parse ("x = [" ++ Text.joined ", " es ++ "]")
        = .ok [.statement (.assign (.variable "x") (.matrix [vs]))] := by
  have tokens : ∀ {es : List String} {vs : List Expr}, List.Forall₂ ElementText es vs →
      ∃ tss, List.Forall₂ Token.Dense es tss ∧ List.Forall₂ Parser.IsElement tss vs := by
    intro es vs all
    induction all with
    | nil => exact ⟨[], .nil, .nil⟩
    | cons head _ ih =>
      obtain ⟨ts, dense, element⟩ := head.isElement
      obtain ⟨tss, allDense, allElements⟩ := ih
      exact ⟨ts :: tss, .cons dense allDense, .cons element allElements⟩
  obtain ⟨tss, dense, element⟩ := tokens elements
  cases dense with
  | nil => exact absurd rfl filled
  | cons dense allDense =>
    cases element with
    | cons element allElements =>
      have either : ∀ commas : Bool, Program.parse
          ("x = [" ++ Text.joined (Token.separation commas) _ ++ "]") = .ok _ := fun commas => by
        obtain ⟨us, looks, tokens⟩ := Token.looks_assigned commas dense allDense
        exact parse_of_looks tokens looks (Parser.ofTokens_row commas element allElements)
      exact ⟨either false, either true⟩

/-- Elements that start with a sign, a parenthesis, a quote and a bracket. -/
theorem parse_row_mixed :
    List.Forall₂ ElementText ["-a'", "(b)", "'c d'", "[1,2]"]
        [.sign .neg (.transpose .conjugate (.name "a")), .paren (.name "b"), .literal .str "c d",
          .matrix [[.literal .int "1", .literal .int "2"]]]
      ∧ Program.parse "x = [-a' (b) 'c d' [1,2]]"
        = .ok [.statement (.assign (.variable "x")
            (.matrix [[.sign .neg (.transpose .conjugate (.name "a")), .paren (.name "b"),
              .literal .str "c d", .matrix [[.literal .int "1", .literal .int "2"]]]]))]
      ∧ Program.parse "x = [-a', (b), 'c d', [1,2]]"
        = .ok [.statement (.assign (.variable "x")
            (.matrix [[.sign .neg (.transpose .conjugate (.name "a")), .paren (.name "b"),
              .literal .str "c d", .matrix [[.literal .int "1", .literal .int "2"]]]]))] := by
  have elements : List.Forall₂ ElementText ["-a'", "(b)", "'c d'", "[1,2]"]
      [.sign .neg (.transpose .conjugate (.name "a")), .paren (.name "b"), .literal .str "c d",
        .matrix [[.literal .int "1", .literal .int "2"]]] := by
    refine .cons ?_ (.cons ?_ (.cons ?_ (.cons ?_ .nil)))
    all_goals
      refine ⟨⟨_, ⟨by cbv, ?_, ?_, ?_⟩, ?_⟩, by cbv⟩ <;> decide
  exact ⟨elements, parse_row (List.cons_ne_nil _ _) elements⟩

end Program

end MatrixScript
