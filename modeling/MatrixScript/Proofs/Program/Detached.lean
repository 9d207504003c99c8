/-
# `Proofs.Program.Detached` — the parser without the tokens behind a line

The converse of being carried.  What a parser reads in front of other tokens it reads without
them too, if the tokens ahead end with the end of a line and those behind close no bracket
(`Detaches`).  For no parser passes the end of a line outside of brackets, and inside of them
something has to close them, which cannot stand behind the line.  So nothing is read up to
there.  The bounds of loops get smaller without the tokens behind, and are still large enough:
every round of a loop passes a token.
-/
import MatrixScript.Proofs.Program.Append
import MatrixScript.Proofs.Program.Element

namespace MatrixScript

/-- A cursor that is not further on is the same one. -/
theorem Cursor.eq_of_not_shorter {c d : Cursor} (part : d.rest <:+ c.rest)
    (groups : d.groups = c.groups) (same : ¬d.rest.length < c.rest.length) : d = c := by
  have rest : d.rest = c.rest := part.eq_of_length_le (Nat.le_of_not_lt same)
  cases d
  cases c
  cases rest
  cases groups
  rfl

namespace Cursor.EndsLine

variable {c : Cursor} {us : List Spanned} (ends : c.EndsLine)
include ends

theorem length_pos : 0 < c.rest.length := List.length_pos_iff.mpr ends.ne_nil

/-- A bound that is large enough is not used up. -/
theorem exists_succ {n : Nat} (le : c.rest.length ≤ n) : ∃ k, n = k + 1 :=
  ⟨n - 1, by have := ends.length_pos; omega⟩

theorem peek?_followedBy : (c.followedBy us).peek? = c.peek? := Fits.peek? (.inr ends)

theorem step_followedBy : (c.followedBy us).step = c.step.followedBy us := by
  obtain ⟨rest, gs⟩ := c
  cases rest with
  | nil => exact absurd rfl ends.ne_nil
  | cons => rfl

/-- Behind any token but a newline the end of the line is still ahead. -/
theorem step (other : c.peek? ≠ some .newline) : c.step.EndsLine :=
  ends.of_suffix (List.tail_suffix _)
    (Parser.step_ne_nil (.inr ends) other ends.ne_nil)

theorem length_step : c.step.rest.length + 1 = c.rest.length := by
  have tail : c.step.rest.length = c.rest.length - 1 := List.length_tail
  have := ends.length_pos
  omega

end Cursor.EndsLine

open Cursor (EndsLine)

namespace Parser

variable {α β : Type} {us : List Spanned} {c d : Cursor}

/-- What `p` reads in front of the tokens `us`, `q` reads without them, and both stop before the
end of the line. -/
def Detaches (us : List Spanned) (c : Cursor) (p q : Parser α) : Prop :=
  ∀ a e, p (c.followedBy us) = .ok (a, e) →
    ∃ d, e = d.followedBy us ∧ d.rest <:+ c.rest ∧ d.EndsLine ∧ q c = .ok (a, d)

/-- So it does wherever the line ends at most `k` tokens ahead. -/
def Detached (us : List Spanned) (k : Nat) (p q : Parser α) : Prop :=
  ∀ c : Cursor, c.EndsLine → c.rest.length ≤ k → Detaches us c p q

/-! ## Combinators -/

theorem detaches_pure (ends : c.EndsLine) (a : α) : Detaches us c (pure a) (pure a) := by
  intro b e run
  cases run
  exact ⟨c, rfl, List.suffix_rfl, ends, rfl⟩

theorem detaches_fail (reason : String) (q : Parser α) : Detaches us c (fail reason) q := by
  intro a e run
  cases run

theorem Detaches.bind {p q : Parser α} {f g : α → Parser β} (h : Detaches us c p q)
    (step : ∀ a d, q c = .ok (a, d) → d.rest <:+ c.rest → d.EndsLine →
      Detaches us d (f a) (g a)) : Detaches us c (p >>= f) (q >>= g) := by
  intro b e run
  obtain ⟨a, e', first, later⟩ := exists_of_bind_run run
  obtain ⟨d, rfl, part, ends, same⟩ := h a e' first
  obtain ⟨d', rfl, part', ends', same'⟩ := step a d same part ends b e later
  exact ⟨d', rfl, part'.trans part, ends', (bind_run same).trans same'⟩

theorem detaches_ite {b : Prop} [Decidable b] {p q p' q' : Parser α} (h : b → Detaches us c p q)
    (h' : ¬b → Detaches us c p' q') :
    Detaches us c (if b then p else p') (if b then q else q') := by
  split
  · exact h ‹_›
  · exact h' ‹_›

/-- A look at the cursor. -/
theorem detaches_get {f g : Cursor → Parser β} (h : Detaches us c (f (c.followedBy us)) (g c)) :
    Detaches us c ((get : Parser Cursor) >>= f) ((get : Parser Cursor) >>= g) := h

section

variable (ends : c.EndsLine)
include ends

/-- A look at the token ahead. -/
theorem detaches_peek? {f g : Option Token → Parser β} (h : Detaches us c (f c.peek?) (g c.peek?)) :
    Detaches us c (peek? >>= f) (peek? >>= g) := by
  refine detaches_get (f := fun c => f c.peek?) (g := fun c => g c.peek?) ?_
  rwa [ends.peek?_followedBy]

/-- A test of the token ahead. -/
theorem detaches_isAt {f g : Bool → Parser β} (t : Token)
    (h : Detaches us c (f (c.peek? == some t)) (g (c.peek? == some t))) :
    Detaches us c (isAt t >>= f) (isAt t >>= g) := by
  refine detaches_get (f := fun c => f (c.peek? == some t)) (g := fun c => g (c.peek? == some t)) ?_
  rwa [ends.peek?_followedBy]

omit ends in
/-- The bound of a loop gets smaller. -/
theorem detaches_remaining {f g : Nat → Parser β}
    (h : ∀ n, c.rest.length ≤ n → Detaches us c (f n) (g c.rest.length)) :
    Detaches us c (remaining >>= f) (remaining >>= g) := by
  refine detaches_get (f := fun c => f c.rest.length) (g := fun c => g c.rest.length) (h _ ?_)
  rw [Cursor.length_followedBy]
  exact Nat.le_add_right _ _

/-- A token other than the end of the line is passed. -/
theorem detaches_advance {f g : PUnit → Parser β} (other : c.peek? ≠ some .newline)
    (h : c.step.EndsLine → Detaches us c.step (f ⟨⟩) (g ⟨⟩)) :
    Detaches us c (advance >>= f) (advance >>= g) := by
  intro a e run
  have run : f ⟨⟩ (c.followedBy us).step = .ok (a, e) := run
  rw [ends.step_followedBy] at run
  obtain ⟨d, rfl, part, ends', same⟩ := h (ends.step other) a e run
  exact ⟨d, rfl, part.trans (List.tail_suffix _), ends', same⟩

theorem detaches_pass {f g : PUnit → Parser β} {t : Token} (ahead : c.peek? = some t)
    (other : t ≠ .newline) (h : c.step.EndsLine → Detaches us c.step (f ⟨⟩) (g ⟨⟩)) :
    Detaches us c (advance >>= f) (advance >>= g) := by
  refine detaches_advance ends ?_ h
  rw [ahead]
  exact fun same => other (Option.some.inj same)

theorem detaches_expect {t : Token} (other : t ≠ .newline) :
    Detaches us c (expect t) (expect t) := by
  refine detaches_isAt ends t (detaches_ite (fun ahead => ?_) fun _ => detaches_fail _ _)
  have pass : Detaches us c (advance >>= pure) (advance >>= pure) :=
    detaches_pass ends (beq_iff_eq.mp ahead) other fun ends' => detaches_pure ends' _
  rwa [bind_pure] at pass

theorem detaches_ident : Detaches us c ident ident := by
  refine detaches_peek? ends ?_
  split
  case h_1 x ahead =>
    exact detaches_pass ends ahead (by rintro ⟨⟩) fun ends' => detaches_pure ends' x
  case h_2 => exact detaches_fail _ _

end

theorem detaches_enter {f g : PUnit → Parser β} (k : Group)
    (h : Detaches us { c with groups := k :: c.groups } (f ⟨⟩) (g ⟨⟩)) :
    Detaches us c (enter k >>= f) (enter k >>= g) := h

theorem detaches_leave {f g : PUnit → Parser β}
    (h : Detaches us { c with groups := c.groups.tail } (f ⟨⟩) (g ⟨⟩)) :
    Detaches us c (leave >>= f) (leave >>= g) := h

/-! ## Expressions -/

/-- A row goes on for ever with an element that passes no token. -/
theorem rowsFrom_stuck {inner : Parser Expr} {close t : Token} {e : Expr} (ahead : c.peek? = some t)
    (open_ : t ≠ close) (inside : ¬(t = .semicolon ∨ t = .newline)) (other : t ≠ .comma)
    (stays : inner c = .ok (e, c)) (n : Nat) (rows : List (List Expr)) (row : List Expr)
    (r : List (List Expr) × Cursor) : rowsFrom inner close n rows row c ≠ .ok r := by
  induction n generalizing row with
  | zero => nofun
  | succ n ih =>
    rw [rowsFrom, peek?_bind_run, ahead]
    dsimp only
    rw [if_neg open_, if_neg inside, if_neg other, bind_run stays]
    exact ih (row ++ [e])

section Inner

variable {k : Nat} {inner inner' : Parser Expr} (h : Detached us k inner inner')

include h in
theorem detaches_chainFrom {operator : Token → Option BinaryOp} (other : operator .newline = none)
    (left : Expr) (ends : c.EndsLine) (short : c.rest.length ≤ k) {n m : Nat}
    (large : c.rest.length ≤ n) (enough : c.rest.length ≤ m) :
    Detaches us c (chainFrom inner operator n left) (chainFrom inner' operator m left) := by
  induction m generalizing n left c with
  | zero => exact absurd enough (Nat.not_le.mpr ends.length_pos)
  | succ m ih =>
    obtain ⟨n, rfl⟩ := ends.exists_succ large
    refine detaches_get ?_
    rw [operatorAhead?_followedBy (.inr ends)]
    cases ahead : operatorAhead? operator c with
    | none => exact detaches_pure ends left
    | some op =>
      refine detaches_advance ends (newline_of_operatorAhead other ahead) fun ends' => ?_
      have length := ends.length_step
      refine (h c.step ends' (by omega)).bind fun right d _ part ends'' => ?_
      have := part.length_le
      exact ih (.binary op left right) ends'' (by omega) (by omega) (by omega)

theorem detached_chainOf (h : Detached us k inner inner') {operand operand' : Parser Expr}
    (hoperand : Detached us k operand operand') {operator : Token → Option BinaryOp}
    (other : operator .newline = none) :
    Detached us k (chainOf inner operand operator) (chainOf inner' operand' operator) := by
  intro c ends short
  refine (h c ends short).bind fun left d _ part ends' => detaches_remaining fun n le => ?_
  exact detaches_chainFrom hoperand other left ends' (Nat.le_trans part.length_le short) le
    (Nat.le_refl _)

include h

theorem detached_argument : Detached us k (argument inner) (argument inner') := by
  intro c ends short
  refine detaches_get ?_
  rw [wholeAxisAhead_followedBy (.inr ends)]
  refine detaches_ite (fun colon => ?_) fun _ => h c ends short
  refine detaches_advance ends (fun newline => ?_) fun ends' => detaches_pure ends' _
  unfold wholeAxisAhead at colon
  rw [newline] at colon
  cases colon

theorem detaches_argumentsFrom (close : Token) (ends : c.EndsLine) (short : c.rest.length ≤ k)
    {m : Nat} (enough : c.rest.length ≤ m) (n : Nat) :
    Detaches us c (argumentsFrom inner close n) (argumentsFrom inner' close m) := by
  induction m generalizing n c with
  | zero => exact absurd enough (Nat.not_le.mpr ends.length_pos)
  | succ m ih =>
    cases n with
    | zero => exact detaches_fail _ _
    | succ n =>
      refine detaches_isAt ends close (detaches_ite (fun _ => detaches_pure ends _) fun _ => ?_)
      refine detaches_peek? ends (detaches_ite (fun _ => detaches_fail _ _) fun _ => ?_)
      refine (detached_argument h c ends short).bind fun e d _ part ends' => ?_
      have shorter := part.length_le
      refine detaches_isAt ends' .comma (detaches_ite (fun comma => ?_) fun _ => ?_)
      · refine detaches_pass ends' (beq_iff_eq.mp comma) (by rintro ⟨⟩) fun ends'' => ?_
        have length := ends'.length_step
        exact (ih ends'' (by omega) (by omega) n).bind fun es _ _ _ ends₃ => detaches_pure ends₃ (e :: es)
      · exact detaches_isAt ends' close (detaches_ite (fun _ => detaches_pure ends' _) fun _ =>
          detaches_fail _ _)

variable (unclosed : ∀ w ∈ us, isClosing w.token = false) (carried : Carried [] inner inner)
include unclosed carried

/-- Rows go on behind the end of a line, but behind the last one nothing closes them. -/
theorem detaches_rowsFrom {close : Token} (closing : isClosing close) (ends : c.EndsLine)
    (short : c.rest.length ≤ k) {m : Nat} (enough : c.rest.length ≤ m) (n : Nat)
    (rows : List (List Expr)) (row : List Expr) :
    Detaches us c (rowsFrom inner close n rows row) (rowsFrom inner' close m rows row) := by
  induction m generalizing n c rows row with
  | zero => exact absurd enough (Nat.not_le.mpr ends.length_pos)
  | succ m ih =>
    cases n with
    | zero => exact detaches_fail _ _
    | succ n =>
      have length := ends.length_step
      have passing : ∀ (rows : List (List Expr)) (row : List Expr), Detaches us c
          (do advance; rowsFrom inner close n rows row)
          (do advance; rowsFrom inner' close m rows row) := by
        intro rows row a e run
        have run : rowsFrom inner close n rows row (c.followedBy us).step = .ok (a, e) := run
        rw [ends.step_followedBy] at run
        by_cases last : c.step.rest = []
        case pos =>
          -- the bracket would stand behind the line
          exfalso
          have stops := stopsAt_rowsFrom inner n rows row a e run
          have part : e.rest <:+ (c.step.followedBy us).rest :=
            (carried_rowsFrom carried close (Nat.le_refl n) rows row _ (.inl rfl) a e run).1
          have behind : (c.step.followedBy us).rest = us := by
            show c.step.rest ++ us = us
            rw [last, List.nil_append]
          rw [behind] at part
          obtain ⟨w, ws, shape, token⟩ := Cursor.exists_of_peek? stops
          have there : w ∈ us := part.subset (by rw [shape]; exact List.mem_cons_self)
          have other := unclosed w there
          rw [token, closing] at other
          cases other
        case neg =>
          have ends' := ends.of_suffix (d := c.step) (List.tail_suffix _) last
          obtain ⟨d, rfl, part, ends'', same⟩ := ih ends' (by omega) (by omega) n rows row a e run
          exact ⟨d, rfl, part.trans (List.tail_suffix _), ends'', same⟩
      refine detaches_peek? ends ?_
      cases ahead : c.peek? with
      | none => exact detaches_fail _ _
      | some t =>
        refine detaches_ite (fun _ => detaches_pure ends _) fun opens => ?_
        refine detaches_ite (fun _ => passing _ _) fun inside => ?_
        refine detaches_ite (fun _ => passing _ _) fun other => ?_
        intro a e run
        obtain ⟨v, e', first, later⟩ := exists_of_bind_run run
        obtain ⟨d, rfl, part, ends', same⟩ := h c ends short v e' first
        by_cases shorter : d.rest.length < c.rest.length
        case pos =>
          obtain ⟨d', rfl, part', ends'', same'⟩ :=
            ih ends' (by omega) (by omega) n rows (row ++ [v]) a e later
          exact ⟨d', rfl, part'.trans part, ends'', (bind_run same).trans same'⟩
        case neg =>
          have groups : d.groups = c.groups := (carried _ (.inl rfl) v _ first).2.1
          obtain rfl := Cursor.eq_of_not_shorter part groups shorter
          exact absurd later (rowsFrom_stuck (by rw [ends.peek?_followedBy, ahead]) opens inside other
            first n rows (row ++ [v]) (a, e))

omit h unclosed carried in
/-- What stands in brackets, behind the opening one. -/
theorem detaches_inside (kind : Group) {close : Token} (closing : isClosing close)
    (ends : c.EndsLine) (short : c.rest.length ≤ k) {body body' : Nat → Parser α}
    (stops : ∀ n c, StopsAt close c (body' n))
    (hbody : ∀ c : Cursor, c.EndsLine → c.rest.length ≤ k → ∀ n,
      Detaches us c (body n) (body' (c.rest.length + 1))) :
    Detaches us c
      (do enter kind; let x ← body ((← remaining) + 1); leave; advance; return x)
      (do enter kind; let x ← body' ((← remaining) + 1); leave; advance; return x) := by
  refine detaches_enter kind (detaches_remaining fun n _ => ?_)
  refine (hbody { c with groups := kind :: c.groups } ends short (n + 1)).bind
    fun x d run part ends' => detaches_leave ?_
  have last : d.peek? = some close := stops _ _ _ _ run
  have other : close ≠ .newline := by
    rintro rfl
    cases closing
  exact detaches_pass (c := { d with groups := d.groups.tail }) ends' last other
    fun ends'' => detaches_pure ends'' x

omit unclosed carried in
theorem detaches_arguments {t close : Token} (ends : c.EndsLine) (short : c.rest.length ≤ k + 1)
    (ahead : c.peek? = some t) (opening : t ≠ .newline) (closing : isClosing close) :
    Detaches us c (arguments inner close) (arguments inner' close) := by
  refine detaches_pass ends ahead opening fun ends' => ?_
  have length := ends.length_step
  exact detaches_inside .paren closing ends' (by omega) (fun n _ => stopsAt_argumentsFrom inner' n)
    fun c ends short n => detaches_argumentsFrom h close ends short (Nat.le_succ _) n

theorem detaches_rows {t close : Token} (ends : c.EndsLine) (short : c.rest.length ≤ k + 1)
    (ahead : c.peek? = some t) (opening : t ≠ .newline) (closing : isClosing close) :
    Detaches us c (rows inner close) (rows inner' close) := by
  refine detaches_pass ends ahead opening fun ends' => ?_
  have length := ends.length_step
  exact detaches_inside .concat closing ends' (by omega) (fun n _ => stopsAt_rowsFrom inner' n [] [])
    fun c ends short n => detaches_rowsFrom h unclosed carried closing ends short
      (Nat.le_succ _) n [] []

omit unclosed carried in
theorem detaches_parenthesised (ends : c.EndsLine) (short : c.rest.length ≤ k + 1)
    (ahead : c.peek? = some .leftParen) :
    Detaches us c (parenthesised inner) (parenthesised inner') := by
  refine detaches_pass ends ahead (by rintro ⟨⟩) fun ends' => detaches_enter .paren ?_
  have length := ends.length_step
  refine (h { c.step with groups := .paren :: c.step.groups } ends' (by
    show c.step.rest.length ≤ k
    omega)).bind fun e d _ _ ends'' => detaches_leave ?_
  exact (detaches_expect (c := { d with groups := d.groups.tail }) ends'' (by rintro ⟨⟩)).bind
    fun _ _ _ _ ends₃ => detaches_pure ends₃ (Expr.paren e)

theorem detached_primary : Detached us (k + 1) (primary inner) (primary inner') := by
  intro c ends short
  have passing : ∀ {t : Token} (e : Expr), c.peek? = some t → t ≠ .newline →
      Detaches us c (passing e) (passing e) := fun e ahead other =>
    detaches_pass ends ahead other fun ends' => detaches_pure ends' e
  refine detaches_peek? ends ?_
  split
  case h_1 => exact detaches_fail _ _
  case h_2 ahead => exact passing _ ahead (by rintro ⟨⟩)
  case h_3 ahead => exact passing _ ahead (by rintro ⟨⟩)
  case h_4 ahead => exact passing _ ahead (by rintro ⟨⟩)
  case h_5 ahead => exact passing _ ahead (by rintro ⟨⟩)
  case h_6 ahead => exact passing _ ahead (by rintro ⟨⟩)
  case h_7 ahead => exact passing _ ahead (by rintro ⟨⟩)
  case h_8 ahead => exact detaches_parenthesised h ends short ahead
  case h_9 ahead =>
    exact (detaches_rows h unclosed carried ends short ahead (by rintro ⟨⟩) rfl).bind
      fun rows d _ _ ends' => detaches_pure ends' _
  case h_10 ahead =>
    exact (detaches_rows h unclosed carried ends short ahead (by rintro ⟨⟩) rfl).bind
      fun rows d _ _ ends' => detaches_pure ends' _
  case h_11 => exact detaches_fail _ _

omit unclosed carried in
theorem detaches_suffixesFrom (carried' : Carried [] inner' inner') (e : Expr) (ends : c.EndsLine) (short : c.rest.length ≤ k + 1)
    {n m : Nat} (large : c.rest.length ≤ n) (enough : c.rest.length ≤ m) :
    Detaches us c (suffixesFrom inner n e) (suffixesFrom inner' m e) := by
  induction m generalizing n e c with
  | zero => exact absurd enough (Nat.not_le.mpr ends.length_pos)
  | succ m ih =>
    obtain ⟨n, rfl⟩ := ends.exists_succ large
    have length := ends.length_step
    have later : ∀ (d : Cursor) (e : Expr), d.rest.length < c.rest.length → d.EndsLine →
        Detaches us d (suffixesFrom inner n e) (suffixesFrom inner' m e) :=
      fun d e shorter ends' => ih e ends' (by omega) (by omega) (by omega)
    refine detaches_get ?_
    rw [suffixAhead_followedBy (.inr ends)]
    cases suffix : suffixAhead c e with
    | nothing => exact detaches_pure ends e
    | transpose op =>
      have other := newline_of_suffixAhead (c := c) (e := e) (by rw [suffix]; rintro ⟨⟩)
      exact detaches_advance ends other fun ends' => later c.step _ (by omega) ends'
    | call f =>
      have ahead := leftParen_of_suffixAhead suffix
      refine (detaches_arguments h ends short ahead (by rintro ⟨⟩) rfl).bind
        fun es d run part ends' => later d _ ?_ ends'
      have shorter := (bracketed_arguments carried' (.inl rfl) ahead (by rintro ⟨⟩)
        (show Token.rightParen ≠ .newline by rintro ⟨⟩)).shorter es d run
      have := shorter.length_le
      omega
    | cellCall f =>
      have ahead := leftBrace_of_suffixAhead suffix
      refine (detaches_arguments h ends short ahead (by rintro ⟨⟩) rfl).bind
        fun es d run part ends' => later d _ ?_ ends'
      have shorter := (bracketed_arguments carried' (.inl rfl) ahead (by rintro ⟨⟩)
        (show Token.rightBrace ≠ .newline by rintro ⟨⟩)).shorter es d run
      have := shorter.length_le
      omega

variable (carried' : Carried [] inner' inner')
include carried'

theorem detached_suffixed : Detached us (k + 1) (suffixed inner) (suffixed inner') := by
  intro c ends short
  refine (detached_primary h unclosed carried c ends short).bind fun e d _ part ends' =>
    detaches_remaining fun n le => ?_
  exact detaches_suffixesFrom h carried' e ends' (Nat.le_trans part.length_le short) le (Nat.le_refl _)

theorem detached_exponent : Detached us (k + 1) (exponent inner) (exponent inner') := by
  have suffixed := detached_suffixed h unclosed carried carried'
  intro c ends short
  refine detaches_isAt ends .minus (detaches_ite (fun minus => ?_) fun _ => suffixed c ends short)
  refine detaches_pass ends (beq_iff_eq.mp minus) (by rintro ⟨⟩) fun ends' => ?_
  have length := ends.length_step
  exact (suffixed c.step ends' (by omega)).bind fun e _ _ _ ends'' => detaches_pure ends'' _

theorem detached_power : Detached us (k + 1) (power inner) (power inner') :=
  detached_chainOf (detached_suffixed h unclosed carried carried')
    (detached_exponent h unclosed carried carried') rfl

omit unclosed carried carried' in
theorem detaches_signedFrom (ends : c.EndsLine) (short : c.rest.length ≤ k) {n m : Nat}
    (large : c.rest.length ≤ n) (enough : c.rest.length ≤ m) :
    Detaches us c (signedFrom inner n) (signedFrom inner' m) := by
  induction m generalizing n c with
  | zero => exact absurd enough (Nat.not_le.mpr ends.length_pos)
  | succ m ih =>
    obtain ⟨n, rfl⟩ := ends.exists_succ large
    have length := ends.length_step
    have later : c.step.EndsLine → Detaches us c.step (signedFrom inner n) (signedFrom inner' m) :=
      fun ends' => ih ends' (by omega) (by omega) (by omega)
    have signed : ∀ op : SignOp, c.step.EndsLine → Detaches us c.step
        (do return Expr.sign op (← signedFrom inner n))
        (do return Expr.sign op (← signedFrom inner' m)) :=
      fun op ends' => (later ends').bind fun e _ _ _ ends'' => detaches_pure ends'' _
    refine detaches_peek? ends ?_
    split
    case h_1 ahead => exact detaches_pass ends ahead (by rintro ⟨⟩) (signed .neg)
    case h_2 ahead => exact detaches_pass ends ahead (by rintro ⟨⟩) (signed .not)
    case h_3 ahead => exact detaches_pass ends ahead (by rintro ⟨⟩) later
    case h_4 => exact h c ends short

theorem detached_signed : Detached us (k + 1) (signed inner) (signed inner') := fun _ ends short =>
  detaches_remaining fun _ le => detaches_signedFrom (detached_power h unclosed carried carried') ends
    short le (Nat.le_refl _)

theorem detached_multiplicative :
    Detached us (k + 1) (multiplicative inner) (multiplicative inner') :=
  have operand := detached_signed h unclosed carried carried'
  detached_chainOf operand operand rfl

theorem detached_additive : Detached us (k + 1) (additive inner) (additive inner') :=
  have operand := detached_multiplicative h unclosed carried carried'
  detached_chainOf operand operand rfl

theorem detached_range : Detached us (k + 1) (range inner) (range inner') := by
  have bound := detached_additive h unclosed carried carried'
  have behind : ∀ {c d : Cursor}, c.rest.length ≤ k + 1 → d.rest <:+ c.rest → d.EndsLine →
      d.step.rest.length ≤ k + 1 := fun short part ends =>
    Nat.le_trans (Nat.le_of_succ_le (Nat.le_of_eq ends.length_step)) (Nat.le_trans part.length_le short)
  intro c ends short
  refine (bound c ends short).bind fun start d _ part ends' => ?_
  refine detaches_isAt ends' .colon (detaches_ite (fun colon => ?_) fun _ => detaches_pure ends' _)
  refine detaches_pass ends' (beq_iff_eq.mp colon) (by rintro ⟨⟩) fun ends'' => ?_
  have short' := behind short part ends'
  refine (bound d.step ends'' short').bind fun second d' _ part' ends₃ => ?_
  refine detaches_isAt ends₃ .colon (detaches_ite (fun colon => ?_) fun _ => detaches_pure ends₃ _)
  refine detaches_pass ends₃ (beq_iff_eq.mp colon) (by rintro ⟨⟩) fun ends₄ => ?_
  exact (bound d'.step ends₄ (behind short' part' ends₃)).bind fun stop _ _ _ ends₅ =>
    detaches_pure ends₅ (Expr.stepped start second stop)

theorem detached_comparison : Detached us (k + 1) (comparison inner) (comparison inner') :=
  have operand := detached_range h unclosed carried carried'
  detached_chainOf operand operand rfl

theorem detached_conjunction : Detached us (k + 1) (conjunction inner) (conjunction inner') :=
  have operand := detached_comparison h unclosed carried carried'
  detached_chainOf operand operand rfl

theorem detached_disjunction : Detached us (k + 1) (disjunction inner) (disjunction inner') :=
  have operand := detached_conjunction h unclosed carried carried'
  detached_chainOf operand operand rfl

theorem detached_shortConjunction :
    Detached us (k + 1) (shortConjunction inner) (shortConjunction inner') :=
  have operand := detached_disjunction h unclosed carried carried'
  detached_chainOf operand operand rfl

theorem detached_shortDisjunction :
    Detached us (k + 1) (shortDisjunction inner) (shortDisjunction inner') :=
  have operand := detached_shortConjunction h unclosed carried carried'
  detached_chainOf operand operand rfl

end Inner

section

variable (unclosed : ∀ w ∈ us, isClosing w.token = false)
include unclosed

/-- Brackets nest no deeper than there are tokens, so the bound may be as small. -/
theorem detached_exprAt {k n m : Nat} (large : k < n) (enough : k < m) :
    Detached us k (exprAt n) (exprAt m) := by
  induction k generalizing n m with
  | zero => exact fun c ends short => absurd short (Nat.not_le.mpr ends.length_pos)
  | succ k ih =>
    obtain ⟨n, rfl⟩ : ∃ j, n = j + 1 := ⟨n - 1, by omega⟩
    obtain ⟨m, rfl⟩ : ∃ j, m = j + 1 := ⟨m - 1, by omega⟩
    exact detached_shortDisjunction (ih (Nat.lt_of_succ_lt_succ large) (Nat.lt_of_succ_lt_succ enough))
      unclosed (carried_exprAt (Nat.le_refl n)) (carried_exprAt (Nat.le_refl m))

theorem detaches_expr (ends : c.EndsLine) : Detaches us c expr expr :=
  detaches_remaining fun _ le => detached_exprAt unclosed (Nat.lt_succ_of_le le) (Nat.lt_succ_self _)
    c ends (Nat.le_refl _)

theorem detaches_operand (ends : c.EndsLine) : Detaches us c operand operand := by
  refine detaches_remaining fun n le => ?_
  have inner : Detached us (c.rest.length - 1) (exprAt (n + 1)) (exprAt (c.rest.length + 1)) :=
    detached_exprAt unclosed (by omega) (by omega)
  exact detached_suffixed inner unclosed (carried_exprAt (Nat.le_refl _)) (carried_exprAt (Nat.le_refl _))
    c ends (by omega)

end

/-! ## Statements -/

/-- A list of destinations goes on for ever with one that passes no token. -/
theorem targetsFrom_stuck {e : Expr} (open_ : c.peek? ≠ some .rightBracket)
    (other : c.peek? ≠ some .comma) (stays : operand c = .ok (e, c)) (n : Nat)
    (r : List Target × Cursor) : targetsFrom n c ≠ .ok r := by
  induction n generalizing r with
  | zero => nofun
  | succ n ih =>
    intro run
    rw [targetsFrom, isAt_bind_run, beq_false_of_ne open_, if_neg Bool.false_ne_true, isAt_bind_run,
      beq_false_of_ne other, if_neg Bool.false_ne_true, bind_run stays] at run
    cases target : e.target? with
    | none =>
      rw [target] at run
      cases run
    | some t =>
      rw [target] at run
      obtain ⟨ts, d, rest, -⟩ := exists_of_bind_run (b := r.1) (e := r.2) run
      exact ih _ rest

section

variable (unclosed : ∀ w ∈ us, isClosing w.token = false)
include unclosed

theorem detaches_targetsFrom (ends : c.EndsLine) {m : Nat} (enough : c.rest.length ≤ m) (n : Nat) :
    Detaches us c (targetsFrom n) (targetsFrom m) := by
  induction m generalizing n c with
  | zero => exact absurd enough (Nat.not_le.mpr ends.length_pos)
  | succ m ih =>
    cases n with
    | zero => exact detaches_fail _ _
    | succ n =>
      have length := ends.length_step
      refine detaches_isAt ends .rightBracket (detaches_ite (fun _ => detaches_pure ends _)
        fun opens => ?_)
      refine detaches_isAt ends .comma (detaches_ite (fun comma => ?_) fun other => ?_)
      · exact detaches_pass ends (beq_iff_eq.mp comma) (by rintro ⟨⟩) fun ends' =>
          ih ends' (by omega) n
      · intro a e run
        obtain ⟨v, e', first, later⟩ := exists_of_bind_run run
        obtain ⟨d, rfl, part, ends', same⟩ := detaches_operand unclosed ends v e' first
        cases target : v.target? with
        | none =>
          rw [target] at later
          cases later
        | some t =>
          rw [target] at later
          have rest : Detaches us d (do return t :: (← targetsFrom n))
              (do return t :: (← targetsFrom m)) := by
            by_cases shorter : d.rest.length < c.rest.length
            case pos =>
              exact (ih ends' (by omega) n).bind fun ts _ _ _ ends'' => detaches_pure ends'' (t :: ts)
            case neg =>
              have groups : d.groups = c.groups := (carried_operand _ (.inl rfl) v _ first).2.1
              obtain rfl := Cursor.eq_of_not_shorter part groups shorter
              intro b f run
              obtain ⟨ts, g, stuck, -⟩ := exists_of_bind_run run
              refine absurd stuck (targetsFrom_stuck ?_ ?_ first n (ts, g))
              · rw [ends.peek?_followedBy]
                exact fun same => opens (beq_iff_eq.mpr same)
              · rw [ends.peek?_followedBy]
                exact fun same => other (beq_iff_eq.mpr same)
          obtain ⟨d', rfl, part', ends'', same'⟩ := rest a e later
          refine ⟨d', rfl, part'.trans part, ends'', (bind_run same).trans ?_⟩
          rw [target]
          exact same'

theorem detaches_multiAssignment (ends : c.EndsLine) :
    Detaches us c multiAssignment multiAssignment := by
  refine (detaches_expect ends (by rintro ⟨⟩)).bind fun _ d _ _ ends => detaches_enter .concat ?_
  refine detaches_remaining fun n _ => ?_
  refine (detaches_targetsFrom unclosed (c := { d with groups := .concat :: d.groups }) ends
    (Nat.le_succ _) (n + 1)).bind fun targets d' _ _ ends' => detaches_leave ?_
  refine (detaches_expect (c := { d' with groups := d'.groups.tail }) ends' (by rintro ⟨⟩)).bind
    fun _ _ _ _ ends'' => ?_
  refine (detaches_expect ends'' (by rintro ⟨⟩)).bind fun _ _ _ _ ends₃ => ?_
  exact (detaches_expr unclosed ends₃).bind fun e _ _ _ ends₄ => detaches_pure ends₄ _

omit unclosed in
theorem detaches_wordsFrom (ends : c.EndsLine) {n m : Nat} (large : c.rest.length ≤ n)
    (enough : c.rest.length ≤ m) : Detaches us c (wordsFrom n) (wordsFrom m) := by
  induction m generalizing n c with
  | zero => exact absurd enough (Nat.not_le.mpr ends.length_pos)
  | succ m ih =>
    obtain ⟨n, rfl⟩ := ends.exists_succ large
    have length := ends.length_step
    have later : ∀ w : String, c.step.EndsLine → Detaches us c.step
        (do return w :: (← wordsFrom n)) (do return w :: (← wordsFrom m)) := fun w ends' =>
      (ih ends' (by omega) (by omega)).bind fun ws _ _ _ ends'' => detaches_pure ends'' (w :: ws)
    refine detaches_peek? ends ?_
    split
    case h_1 w ahead => exact detaches_pass ends ahead (by rintro ⟨⟩) (later w)
    case h_2 w ahead => exact detaches_pass ends ahead (by rintro ⟨⟩) (later w)
    case h_3 => exact detaches_pure ends _

omit unclosed in
theorem detaches_command (ends : c.EndsLine) : Detaches us c command command :=
  (detaches_ident ends).bind fun _ _ _ _ ends' => detaches_remaining fun _ le =>
    (detaches_wordsFrom ends' le (Nat.le_refl _)).bind fun _ _ _ _ ends'' => detaches_pure ends'' _

theorem detaches_simpleStatement (ends : c.EndsLine) :
    Detaches us c simpleStatement simpleStatement := by
  refine (detaches_expr unclosed ends).bind fun e d _ _ ends' => ?_
  refine detaches_isAt ends' .equals (detaches_ite (fun equals => ?_) fun _ => detaches_pure ends' _)
  split
  · refine detaches_pass ends' (beq_iff_eq.mp equals) (by rintro ⟨⟩) fun ends'' => ?_
    exact (detaches_expr unclosed ends'').bind fun value _ _ _ ends₃ => detaches_pure ends₃ _
  · exact detaches_fail _ _

theorem detaches_statement (ends : c.EndsLine) : Detaches us c statement statement := by
  refine detaches_get ?_
  rw [ends.peek?_followedBy, isMultiAssignment_followedBy (.inr ends)]
  by_cases newline : c.peek? = some .newline
  case pos =>
    rw [newline]
    exact detaches_simpleStatement unclosed ends
  case neg =>
    rw [isCommand_followedBy (.inr ends) newline]
    split
    case h_1 ahead => exact detaches_pass ends ahead (by rintro ⟨⟩) fun ends' => detaches_pure ends' _
    case h_2 ahead => exact detaches_pass ends ahead (by rintro ⟨⟩) fun ends' => detaches_pure ends' _
    case h_3 =>
      exact detaches_ite (fun _ => detaches_multiAssignment unclosed ends)
        fun _ => detaches_simpleStatement unclosed ends
    case h_4 =>
      exact detaches_ite (fun _ => detaches_fail _ _) fun _ =>
        detaches_ite (fun _ => detaches_command ends) fun _ => detaches_simpleStatement unclosed ends
    case h_5 => exact detaches_simpleStatement unclosed ends

end

/-! ## Names -/

theorem step_of_ident {x : String} (run : ident c = .ok (x, d)) : d = c.step := by
  rw [ident, peek?_bind_run] at run
  cases ahead : c.peek? with
  | none =>
    rw [ahead] at run
    cases run
  | some t =>
    rw [ahead] at run
    cases t <;> cases run
    rfl

theorem detaches_namesFrom {close : Token} (closing : close ≠ .newline) (ends : c.EndsLine) {m : Nat}
    (enough : c.rest.length ≤ m) (n : Nat) :
    Detaches us c (namesFrom close n) (namesFrom close m) := by
  induction m generalizing n c with
  | zero => exact absurd enough (Nat.not_le.mpr ends.length_pos)
  | succ m ih =>
    cases n with
    | zero => exact detaches_fail _ _
    | succ n =>
      have length := ends.length_step
      refine detaches_isAt ends close (detaches_ite (fun closes => ?_) fun _ => ?_)
      · exact detaches_pass ends (beq_iff_eq.mp closes) closing fun ends' => detaches_pure ends' _
      refine detaches_isAt ends .comma (detaches_ite (fun comma => ?_) fun _ => ?_)
      · exact detaches_pass ends (beq_iff_eq.mp comma) (by rintro ⟨⟩) fun ends' =>
          ih ends' (by omega) n
      · refine (detaches_ident ends).bind fun x d run _ ends' => ?_
        obtain rfl := step_of_ident run
        exact (ih ends' (by omega) n).bind fun xs _ _ _ ends'' => detaches_pure ends'' (x :: xs)

theorem detaches_names {t close : Token} (ends : c.EndsLine) (ahead : c.peek? = some t)
    (opening : t ≠ .newline) (closing : close ≠ .newline) :
    Detaches us c (names close) (names close) :=
  detaches_pass ends ahead opening fun ends' => detaches_remaining fun n _ =>
    detaches_namesFrom closing ends' (Nat.le_succ _) (n + 1)

theorem detaches_outputs (ends : c.EndsLine) (other : c.peek? ≠ some .newline) :
    Detaches us c outputs outputs := by
  refine detaches_isAt ends .leftBracket (detaches_ite (fun bracket => ?_) fun _ => ?_)
  · refine (detaches_names ends (beq_iff_eq.mp bracket) (by rintro ⟨⟩) (by rintro ⟨⟩)).bind
      fun xs _ _ _ ends' => ?_
    exact (detaches_expect ends' (by rintro ⟨⟩)).bind fun _ _ _ _ ends'' => detaches_pure ends'' xs
  · refine detaches_get ?_
    rw [Cursor.Fits.peekAt? (.inr (ends.one_lt other))]
    refine detaches_ite (fun equals => ?_) fun _ => detaches_pure ends _
    refine (detaches_ident ends).bind fun x d run _ ends' => ?_
    have ahead : d.peek? = some .equals := by
      rw [← beq_iff_eq.mp equals]
      exact peek?_of_ident run
    exact detaches_pass ends' ahead (by rintro ⟨⟩) fun ends'' => detaches_pure ends'' _

theorem detaches_params (ends : c.EndsLine) : Detaches us c params params := by
  refine detaches_isAt ends .leftParen (detaches_ite (fun paren => ?_) fun _ => detaches_pure ends _)
  exact detaches_names ends (beq_iff_eq.mp paren) (by rintro ⟨⟩) (by rintro ⟨⟩)

theorem detaches_heading (ends : c.EndsLine) : Detaches us c heading heading := by
  refine (detaches_expect ends (by rintro ⟨⟩)).bind fun _ d _ _ ends b e run => ?_
  have other : d.peek? ≠ some .newline := by
    have ahead : (d.followedBy us).peek? = d.peek? := ends.peek?_followedBy
    rw [← ahead]
    exact name_of_outputs run
  exact ((detaches_outputs ends other).bind fun xs _ _ _ ends => (detaches_ident ends).bind
    fun x _ _ _ ends => (detaches_params ends).bind fun ps _ _ _ ends =>
      detaches_pure ends (Heading.mk xs x ps)) b e run

/-! ## Bodies -/

/-- Separators in front of the end of a text are passed in front of another token too. -/
theorem skipSeparators_followedBy_cons {w : Spanned} (other : w.token.isSeparator = false)
    (vs : List Spanned) : (c.followedBy (w :: vs)).skipSeparators
      = c.skipSeparators.followedBy (w :: vs) := by
  by_cases none : c.skipSeparators.rest = []
  case pos =>
    rw [skipSeparators_append none, skipSeparators_of_not rfl other]
    show _ = Cursor.mk (c.skipSeparators.rest ++ w :: vs) c.groups
    rw [none, List.nil_append]
  case neg => exact skipSeparators_followedBy (.inr none)

theorem ne_nil_of_last_followedBy {w : Spanned} {vs : List Spanned} {t : Token}
    (last : w.token = .last) (ahead : (c.followedBy (w :: vs)).skipSeparators.peek? = some t)
    (closing : t ≠ .last) : c.skipSeparators.rest ≠ [] := by
  intro none
  have other : w.token.isSeparator = false := by rw [last]; rfl
  rw [skipSeparators_append none, skipSeparators_of_not rfl other] at ahead
  exact closing ((Option.some.inj ahead).symm.trans last)

/-- A body in front of an `end` that nothing else closes is read up to there, or up to where it
stops, also without the `end`. -/
theorem Rounds.detached {w : Spanned} {vs : List Spanned} {n m : Nat} {as : List Statement}
    {e : Cursor} (last : w.token = .last) (unclosed : ∀ v ∈ w :: vs, isClosing v.token = false)
    (h : Rounds stopsBody statement n (c.followedBy (w :: vs)) as e) (ends : c.EndsLine)
    (lasts : Lasts stopsBody n c) (lasts' : Lasts stopsBody m c) :
    ∃ d, e = d.followedBy (w :: vs) ∧ d.rest <:+ c.rest ∧ Rounds stopsBody statement m c as d := by
  have other : w.token.isSeparator = false := by rw [last]; rfl
  generalize whole : c.followedBy (w :: vs) = c' at h
  induction h generalizing c m with
  | bound => exact absurd lasts.pos (Nat.lt_irrefl 0)
  | last ahead =>
    subst whole
    rw [skipSeparators_followedBy_cons other] at ahead
    exact absurd (rest_of_peek?_none ahead) (List.append_ne_nil_of_right_ne_nil _ (List.cons_ne_nil _ _))
  | @stop n _ t ahead stop =>
    subst whole
    rw [skipSeparators_followedBy_cons other] at ahead ⊢
    obtain ⟨m, rfl⟩ := Nat.exists_eq_add_one.mpr lasts'.pos
    refine ⟨_, rfl, skipSeparators_suffix c, ?_⟩
    cases found : c.skipSeparators.peek? with
    | none => exact .last found
    | some u =>
      have ends' := ends.of_suffix (skipSeparators_suffix c) (ne_nil_of_peek? found)
      rw [ends'.peek?_followedBy, found] at ahead
      cases ahead
      exact .stop found stop
  | one ahead _ closing first behind =>
    subst whole
    have some := ne_nil_of_last_followedBy last ahead closing
    rw [skipSeparators_followedBy_cons other] at first
    have ends' := ends.of_suffix (skipSeparators_suffix c) some
    obtain ⟨d, rfl, -⟩ := detaches_statement unclosed ends' _ _ first
    exact absurd (rest_of_peek?_none behind)
      (List.append_ne_nil_of_right_ne_nil _ (List.cons_ne_nil _ _))
  | @more n _ _ _ t u a as ahead goes closing first behind apart _ ih =>
    subst whole
    have some := ne_nil_of_last_followedBy last ahead closing
    rw [skipSeparators_followedBy_cons other] at ahead first
    have ends' := ends.of_suffix (skipSeparators_suffix c) some
    obtain ⟨d, rfl, part, ends'', same⟩ := detaches_statement unclosed ends' _ _ first
    rw [ends'.peek?_followedBy] at ahead
    rw [ends''.peek?_followedBy] at behind
    have shorter := part.length_le
    have enough := lasts.short ahead goes
    have enough' := lasts'.short ahead goes
    obtain ⟨m, rfl⟩ := Nat.exists_eq_add_one.mpr lasts'.pos
    obtain ⟨d', same', part', rounds⟩ := ih ends'' (lasts_later (by omega) behind apart)
      (lasts_later (n := m) (by omega) behind apart) rfl
    exact ⟨d', same', part'.trans (part.trans (skipSeparators_suffix c)),
      .more ahead goes closing same behind apart rounds⟩

end Parser

end MatrixScript
