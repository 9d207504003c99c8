/-
# `Proofs.Program.Carried` — the parser in front of more tokens

What a parser reads from tokens that end with the end of a line it reads in front of
any others, and it stops before them (`Carries`).  The newline is what holds it back:
it is the last token, no parser passes it outside of brackets, and inside of them it
cannot be the last.  The bounds of loops are taken from the number of tokens ahead, so
those of the second run are larger; that they are large enough in the first one is part
of the argument.  Where nothing stands behind, `Carries` says that larger bounds change
nothing.
-/
import MatrixScript.Proofs.Program.Step

namespace MatrixScript

namespace Cursor

/-- More tokens behind those ahead. -/
def followedBy (c : Cursor) (us : List Spanned) : Cursor := { c with rest := c.rest ++ us }

/-- The tokens ahead end with the end of a line. -/
def EndsLine (c : Cursor) : Prop := c.rest.getLast?.map (·.token) = some .newline

/-- Nothing is to stand behind the tokens ahead, or they end with the end of a line. -/
def Fits (us : List Spanned) (c : Cursor) : Prop := us = [] ∨ c.EndsLine

variable {us : List Spanned} {c d : Cursor}

theorem length_followedBy (c : Cursor) (us : List Spanned) :
    (c.followedBy us).rest.length = c.rest.length + us.length := List.length_append

@[simp] theorem followedBy_nil (c : Cursor) : c.followedBy [] = c := by
  unfold followedBy
  rw [List.append_nil]

theorem EndsLine.ne_nil (h : c.EndsLine) : c.rest ≠ [] := by
  intro none
  unfold EndsLine at h
  rw [none] at h
  cases h

/-- The end of the line is still ahead. -/
theorem EndsLine.of_suffix (h : c.EndsLine) (part : d.rest <:+ c.rest) (some : d.rest ≠ []) :
    d.EndsLine := by
  obtain ⟨front, whole⟩ := part
  unfold EndsLine at h ⊢
  rw [← whole, List.getLast?_append, List.getLast?_eq_some_getLast some] at h
  rw [List.getLast?_eq_some_getLast some]
  exact h

/-- Behind a token that is no newline there is one more. -/
theorem EndsLine.one_lt (h : c.EndsLine) (other : c.peek? ≠ some .newline) :
    1 < c.rest.length := by
  obtain ⟨rest, gs⟩ := c
  cases rest with
  | nil => exact absurd rfl h.ne_nil
  | cons w ws =>
    cases ws with
    | nil => exact absurd h other
    | cons => exact Nat.succ_lt_succ (Nat.succ_pos _)

namespace Fits

theorem of_suffix (h : c.Fits us) (part : d.rest <:+ c.rest) (some : us ≠ [] → d.rest ≠ []) :
    d.Fits us := by
  by_cases none : us = []
  · exact .inl none
  · exact .inr ((h.resolve_left none).of_suffix part (some none))

theorem getElem? (h : us = [] ∨ k < c.rest.length) : (c.followedBy us).rest[k]? = c.rest[k]? := by
  rcases h with rfl | lt
  · rw [followedBy_nil]
  · exact List.getElem?_append_left lt

theorem peek? (h : c.Fits us) : (c.followedBy us).peek? = c.peek? := by
  have first : (c.followedBy us).rest[0]? = c.rest[0]? :=
    getElem? (h.imp id fun ends => List.length_pos_iff.mpr ends.ne_nil)
  unfold Cursor.peek?
  rw [List.head?_eq_getElem?, first, List.head?_eq_getElem?]

theorem one_lt (h : c.Fits us) (other : c.peek? ≠ some .newline) : us = [] ∨ 1 < c.rest.length :=
  h.imp id fun ends => ends.one_lt other

theorem peekAt? (h : us = [] ∨ k < c.rest.length) : (c.followedBy us).peekAt? k = c.peekAt? k := by
  unfold Cursor.peekAt?
  rw [getElem? h]

theorem spacedAt (h : us = [] ∨ k < c.rest.length) :
    (c.followedBy us).spacedAt k = c.spacedAt k := by
  unfold Cursor.spacedAt
  rw [getElem? h]

end Fits

end Cursor

namespace Parser

open Cursor (Fits EndsLine)

variable {α β : Type} {us : List Spanned} {c : Cursor} {gs ks : List Group}

/-- What `p` reads at the cursor, with the brackets `gs` around what is left, `q` reads
in front of the tokens `us`, and neither goes on to them. -/
def Carries (us : List Spanned) (gs : List Group) (c : Cursor) (p q : Parser α) : Prop :=
  ∀ a d, p c = .ok (a, d) → d.rest <:+ c.rest ∧ d.groups = gs ∧ (us ≠ [] → d.rest ≠ [])
    ∧ q (c.followedBy us) = .ok (a, d.followedBy us)

/-- So it does wherever the tokens ahead fit. -/
def Carried (us : List Spanned) (p q : Parser α) : Prop :=
  ∀ c : Cursor, c.Fits us → Carries us c.groups c p q

/-! ## Combinators -/

theorem carries_pure (fits : c.Fits us) (a : α) : Carries us c.groups c (pure a) (pure a) := by
  intro b d run
  cases run
  exact ⟨List.suffix_rfl, rfl, fun some => (fits.resolve_left some).ne_nil, rfl⟩

theorem carries_fail (reason : String) (q : Parser α) : Carries us gs c (fail reason) q := by
  intro a d run
  cases run

theorem Carries.bind {p q : Parser α} {f g : α → Parser β} (fits : c.Fits us)
    (h : Carries us ks c p q)
    (step : ∀ a d, p c = .ok (a, d) → d.rest <:+ c.rest → d.groups = ks → d.Fits us →
      Carries us gs d (f a) (g a)) :
    Carries us gs c (p >>= f) (q >>= g) := by
  intro b e run
  obtain ⟨a, d, first, later⟩ := exists_of_bind_run run
  obtain ⟨part, groups, some, same⟩ := h a d first
  obtain ⟨part', groups', some', same'⟩ :=
    step a d first part groups (fits.of_suffix part some) b e later
  exact ⟨part'.trans part, groups', some', (bind_run same).trans same'⟩

theorem Carried.bind {p q : Parser α} {f g : α → Parser β} (h : Carried us p q)
    (step : ∀ a, Carried us (f a) (g a)) : Carried us (p >>= f) (q >>= g) := by
  intro c fits
  refine (h c fits).bind fits fun a d _ _ groups fits' => ?_
  rw [← groups]
  exact step a d fits'

theorem carried_pure (a : α) : Carried us (pure a) (pure a) := fun _ fits => carries_pure fits a

theorem Carried.map {p q : Parser α} (h : Carried us p q) (f : α → β) :
    Carried us (f <$> p) (f <$> q) := by
  rw [map_eq_pure_bind, map_eq_pure_bind]
  exact h.bind fun a => carried_pure (f a)

theorem carries_ite {b : Prop} [Decidable b] {p q p' q' : Parser α}
    (h : b → Carries us gs c p q) (h' : ¬b → Carries us gs c p' q') :
    Carries us gs c (if b then p else p') (if b then q else q') := by
  split
  · exact h ‹_›
  · exact h' ‹_›

/-! ## Primitives -/

section

variable {f g : α → Parser β}

/-- A look at the cursor. -/
theorem carries_get {f g : Cursor → Parser β}
    (h : Carries us gs c (f c) (g (c.followedBy us))) :
    Carries us gs c ((get : Parser Cursor) >>= f) ((get : Parser Cursor) >>= g) := h

/-- A look at the token ahead. -/
theorem carries_peek? {f g : Option Token → Parser β} (fits : c.Fits us)
    (h : Carries us gs c (f c.peek?) (g c.peek?)) : Carries us gs c (peek? >>= f) (peek? >>= g) := by
  refine carries_get (f := fun c => f c.peek?) (g := fun c => g c.peek?) ?_
  rwa [fits.peek?]

/-- A test of the token ahead. -/
theorem carries_isAt {f g : Bool → Parser β} (fits : c.Fits us) (t : Token)
    (h : Carries us gs c (f (c.peek? == some t)) (g (c.peek? == some t))) :
    Carries us gs c (isAt t >>= f) (isAt t >>= g) := by
  refine carries_get (f := fun c => f (c.peek? == some t)) (g := fun c => g (c.peek? == some t)) ?_
  rwa [fits.peek?]

/-- The bound of a loop gets larger. -/
theorem carries_remaining {f g : Nat → Parser β}
    (h : ∀ n, c.rest.length ≤ n → Carries us gs c (f c.rest.length) (g n)) :
    Carries us gs c (remaining >>= f) (remaining >>= g) := by
  refine carries_get (f := fun c => f c.rest.length) (g := fun c => g c.rest.length) ?_
  refine h _ ?_
  show c.rest.length ≤ (c.rest ++ us).length
  rw [List.length_append]
  exact Nat.le_add_right _ _

/-- The token ahead is passed, which is not the end of the last line. -/
theorem carries_advance {f g : PUnit → Parser β} (fits : c.Fits us)
    (some : us ≠ [] → c.step.rest ≠ [])
    (h : c.step.Fits us → Carries us gs c.step (f ⟨⟩) (g ⟨⟩)) :
    Carries us gs c (advance >>= f) (advance >>= g) := by
  intro a d run
  have part : c.step.rest <:+ c.rest := List.tail_suffix _
  obtain ⟨part', groups, some', same⟩ := h (fits.of_suffix part some) a d run
  refine ⟨part'.trans part, groups, some', ?_⟩
  have steps : (c.followedBy us).step = c.step.followedBy us := by
    obtain ⟨rest, gs⟩ := c
    cases rest with
    | cons => rfl
    | nil =>
      have none : us = [] := Classical.byContradiction fun other => some other rfl
      rw [none, Cursor.followedBy_nil, Cursor.followedBy_nil]
  show g ⟨⟩ (c.followedBy us).step = _
  rw [steps]
  exact same

/-- Behind a token that is no newline the end of the line is still ahead. -/
theorem step_ne_nil (fits : c.Fits us) (other : c.peek? ≠ some .newline) :
    us ≠ [] → c.step.rest ≠ [] := by
  intro filled none
  have two := (fits.one_lt other).resolve_left filled
  have length : c.step.rest.length = c.rest.length - 1 := List.length_tail
  rw [none, List.length_nil] at length
  omega

theorem carries_pass {f g : PUnit → Parser β} (fits : c.Fits us) {t : Token}
    (ahead : c.peek? = some t) (other : t ≠ .newline)
    (h : c.step.Fits us → Carries us gs c.step (f ⟨⟩) (g ⟨⟩)) :
    Carries us gs c (advance >>= f) (advance >>= g) := by
  refine carries_advance fits (step_ne_nil fits ?_) h
  rw [ahead]
  exact fun same => other (Option.some.inj same)

theorem carries_enter {f g : PUnit → Parser β} (k : Group)
    (h : Carries us gs { c with groups := k :: c.groups } (f ⟨⟩) (g ⟨⟩)) :
    Carries us gs c (enter k >>= f) (enter k >>= g) := h

theorem carries_leave {f g : PUnit → Parser β} {k : Group} (inside : c.groups = k :: ks)
    (h : Carries us gs { c with groups := ks } (f ⟨⟩) (g ⟨⟩)) :
    Carries us gs c (leave >>= f) (leave >>= g) := by
  have outside : ks = c.groups.tail := by rw [inside, List.tail_cons]
  rw [outside] at h
  exact h

end

theorem carried_expect {t : Token} (other : t ≠ .newline) : Carried us (expect t) (expect t) := by
  intro c fits
  refine carries_isAt fits t (carries_ite (fun ahead => ?_) fun _ => carries_fail _ _)
  have pass : Carries us c.groups c (advance >>= pure) (advance >>= pure) :=
    carries_pass fits (beq_iff_eq.mp ahead) other fun fits' => carries_pure fits' _
  rwa [bind_pure] at pass

theorem carried_ident : Carried us ident ident := by
  intro c fits
  refine carries_peek? fits ?_
  split
  case h_1 x ahead =>
    exact carries_pass fits ahead (by rintro ⟨⟩) fun fits' => carries_pure fits' x
  case h_2 => exact carries_fail _ _

/-! ## Looks at a cursor -/

section

variable (fits : c.Fits us)
include fits

theorem signStartsElement_followedBy :
    signStartsElement (c.followedBy us) = signStartsElement c := by
  unfold signStartsElement
  rw [fits.peek?]
  cases sign : c.peek? == some .plus || c.peek? == some .minus with
  | false => rfl
  | true =>
    have two : us = [] ∨ 1 < c.rest.length := by
      refine fits.one_lt fun newline => ?_
      rw [newline] at sign
      cases sign
    have one : us = [] ∨ 0 < c.rest.length := two.imp id Nat.zero_lt_of_lt
    rw [Fits.spacedAt two, Fits.spacedAt one]
    rfl

theorem operatorAhead?_followedBy (operator : Token → Option BinaryOp) :
    operatorAhead? operator (c.followedBy us) = operatorAhead? operator c := by
  unfold operatorAhead?
  rw [signStartsElement_followedBy fits, fits.peek?]

theorem wholeAxisAhead_followedBy : wholeAxisAhead (c.followedBy us) = wholeAxisAhead c := by
  unfold wholeAxisAhead
  rw [fits.peek?]
  cases colon : c.peek? == some .colon with
  | false => rfl
  | true =>
    have two : us = [] ∨ 1 < c.rest.length := by
      refine fits.one_lt fun newline => ?_
      rw [newline] at colon
      cases colon
    rw [Fits.peekAt? two]

theorem suffixAhead_followedBy (e : Expr) : suffixAhead (c.followedBy us) e = suffixAhead c e := by
  have one : us = [] ∨ 0 < c.rest.length :=
    fits.imp id fun ends => List.length_pos_iff.mpr ends.ne_nil
  unfold suffixAhead
  rw [fits.peek?, Fits.spacedAt one]
  rfl

end

/-! ## Expressions -/

theorem newline_of_operatorAhead {operator : Token → Option BinaryOp}
    (other : operator .newline = none) {op : BinaryOp} (h : operatorAhead? operator c = some op) :
    c.peek? ≠ some .newline := by
  intro newline
  unfold operatorAhead? at h
  split at h
  · cases h
  · rw [newline, Option.bind_some, other] at h
    cases h

theorem newline_of_suffixAhead {e : Expr} (h : suffixAhead c e ≠ .nothing) :
    c.peek? ≠ some .newline := by
  intro newline
  refine h ?_
  unfold suffixAhead
  rw [newline]

theorem leftParen_of_suffixAhead {e : Expr} {f : String} (h : suffixAhead c e = .call f) :
    c.peek? = some .leftParen := by
  unfold suffixAhead at h
  split at h
  case h_1 ahead => exact ahead
  case h_2 => split at h <;> cases h
  all_goals cases h

theorem leftBrace_of_suffixAhead {e : Expr} {f : String} (h : suffixAhead c e = .cellCall f) :
    c.peek? = some .leftBrace := by
  unfold suffixAhead at h
  split at h
  case h_2 ahead => exact ahead
  case h_1 => split at h <;> cases h
  all_goals cases h

/-! ### In front of a closing bracket -/

/-- Whatever `p` reads at the cursor, it stops in front of the token `t`. -/
def StopsAt (t : Token) (c : Cursor) (p : Parser α) : Prop :=
  ∀ a d, p c = .ok (a, d) → d.peek? = some t

section

variable {t : Token}

theorem stopsAt_pure (ahead : c.peek? = some t) (a : α) : StopsAt t c (pure a) := by
  intro b d run
  cases run
  exact ahead

theorem stopsAt_fail (reason : String) : StopsAt t c (fail reason : Parser α) := by
  intro a d run
  cases run

theorem stopsAt_bind {p : Parser α} {f : α → Parser β}
    (h : ∀ a d, p c = .ok (a, d) → StopsAt t d (f a)) : StopsAt t c (p >>= f) := by
  intro b e run
  obtain ⟨a, d, first, later⟩ := exists_of_bind_run run
  exact h a d first b e later

theorem stopsAt_ite {b : Prop} [Decidable b] {p q : Parser α} (h : b → StopsAt t c p)
    (h' : ¬b → StopsAt t c q) : StopsAt t c (if b then p else q) := by
  split
  · exact h ‹_›
  · exact h' ‹_›

theorem stopsAt_isAt {u : Token} {f : Bool → Parser β} (h : StopsAt t c (f (c.peek? == some u))) :
    StopsAt t c (isAt u >>= f) := h

theorem stopsAt_peek? {f : Option Token → Parser β} (h : StopsAt t c (f c.peek?)) :
    StopsAt t c (peek? >>= f) := h

theorem stopsAt_argumentsFrom (inner : Parser Expr) (n : Nat) :
    StopsAt t c (argumentsFrom inner t n) := by
  induction n generalizing c with
  | zero => exact stopsAt_fail _
  | succ n ih =>
    refine stopsAt_isAt (stopsAt_ite (fun closes => stopsAt_pure (beq_iff_eq.mp closes) _) fun _ => ?_)
    refine stopsAt_peek? (stopsAt_ite (fun _ => stopsAt_fail _) fun _ => ?_)
    refine stopsAt_bind fun e d _ => stopsAt_isAt (stopsAt_ite (fun _ => ?_) fun _ => ?_)
    · exact stopsAt_bind fun _ _ _ => stopsAt_bind fun es d run => stopsAt_pure (ih _ _ run) _
    · refine stopsAt_isAt (stopsAt_ite (fun closes => ?_) fun _ => stopsAt_fail _)
      exact stopsAt_pure (beq_iff_eq.mp closes) _

theorem stopsAt_rowsFrom (inner : Parser Expr) (n : Nat) (rows : List (List Expr))
    (row : List Expr) : StopsAt t c (rowsFrom inner t n rows row) := by
  induction n generalizing c rows row with
  | zero => exact stopsAt_fail _
  | succ n ih =>
    refine stopsAt_peek? ?_
    cases ahead : c.peek? with
    | none => exact stopsAt_fail _
    | some u =>
      refine stopsAt_ite (fun closes => stopsAt_pure (by rw [ahead, closes]) _) fun _ => ?_
      refine stopsAt_ite (fun _ => stopsAt_bind fun _ _ _ => ih _ _) fun _ => ?_
      refine stopsAt_ite (fun _ => stopsAt_bind fun _ _ _ => ih _ _) fun _ => ?_
      exact stopsAt_bind fun _ _ _ => ih _ _

end

/-! ### Levels -/

theorem chainFrom_nil (operand : Parser Expr) (operator : Token → Option BinaryOp) (n : Nat)
    (left : Expr) (gs : List Group) :
    chainFrom operand operator n left ⟨[], gs⟩ = .ok (left, ⟨[], gs⟩) := by
  cases n <;> rfl

theorem suffixesFrom_nil (inner : Parser Expr) (n : Nat) (e : Expr) (gs : List Group) :
    suffixesFrom inner n e ⟨[], gs⟩ = .ok (e, ⟨[], gs⟩) := by
  cases n <;> rfl

theorem signedFrom_nil (operand : Parser Expr) (n : Nat) (gs : List Group) :
    signedFrom operand n ⟨[], gs⟩ = operand ⟨[], gs⟩ := by
  cases n <;> rfl

theorem rowsFrom_nil (inner : Parser Expr) (close : Token) (n : Nat) (rows : List (List Expr))
    (row : List Expr) (gs : List Group) (r : List (List Expr) × Cursor) :
    rowsFrom inner close n rows row ⟨[], gs⟩ ≠ .ok r := by
  intro run
  cases n <;> cases run

/-- Where the bound of a loop has run out nothing is left, and nothing stands behind it. -/
theorem Fits.nil_of_bound (fits : c.Fits us) (enough : c.rest.length ≤ 0) :
    c = ⟨[], c.groups⟩ ∧ us = [] := by
  have empty : c.rest = [] := List.eq_nil_of_length_eq_zero (Nat.le_zero.mp enough)
  refine ⟨?_, fits.resolve_right fun ends => ends.ne_nil empty⟩
  rw [← empty]

/-- The same value where nothing is left. -/
theorem carries_of_bound {p q : Parser α} (fits : c.Fits us) (enough : c.rest.length ≤ 0) {a : α}
    (run : p ⟨[], c.groups⟩ = .ok (a, ⟨[], c.groups⟩))
    (run' : q ⟨[], c.groups⟩ = .ok (a, ⟨[], c.groups⟩)) : Carries us c.groups c p q := by
  obtain ⟨empty, rfl⟩ := Fits.nil_of_bound fits enough
  intro b d found
  rw [empty, run] at found
  cases found
  refine ⟨List.nil_suffix, rfl, absurd rfl, ?_⟩
  rw [Cursor.followedBy_nil, Cursor.followedBy_nil, empty]
  exact run'

section Inner

variable {inner inner' : Parser Expr} (h : Carried us inner inner')
include h

theorem carries_chainFrom {operator : Token → Option BinaryOp} (other : operator .newline = none)
    {n m : Nat} (le : n ≤ m) (left : Expr) (fits : c.Fits us) (enough : c.rest.length ≤ n) :
    Carries us c.groups c (chainFrom inner operator n left) (chainFrom inner' operator m left) := by
  induction n generalizing m left c with
  | zero => exact carries_of_bound fits enough (chainFrom_nil ..) (chainFrom_nil ..)
  | succ n ih =>
    obtain ⟨m, rfl⟩ : ∃ k, m = k + 1 := ⟨m - 1, by omega⟩
    refine carries_get ?_
    rw [operatorAhead?_followedBy fits]
    cases ahead : operatorAhead? operator c with
    | none => exact carries_pure fits left
    | some op =>
      refine carries_advance fits (step_ne_nil fits (newline_of_operatorAhead other ahead))
        fun fits' => ?_
      refine (h _ fits').bind fits' fun right d _ part groups fits'' => ?_
      have shorter : d.rest.length ≤ n := by
        have tail : c.step.rest.length = c.rest.length - 1 := List.length_tail
        have := part.length_le
        omega
      have rest := ih (Nat.le_of_succ_le_succ le) (.binary op left right) fits'' shorter
      rwa [groups] at rest

theorem carried_chainOf {operand operand' : Parser Expr} (hoperand : Carried us operand operand')
    {operator : Token → Option BinaryOp} (other : operator .newline = none) :
    Carried us (chainOf inner operand operator) (chainOf inner' operand' operator) :=
  h.bind fun left _ fits => carries_remaining fun _ le =>
    carries_chainFrom hoperand other le left fits (Nat.le_refl _)

theorem carried_argument : Carried us (argument inner) (argument inner') := by
  intro c fits
  refine carries_get ?_
  rw [wholeAxisAhead_followedBy fits]
  refine carries_ite (fun colon => ?_) fun _ => h c fits
  refine carries_advance fits (step_ne_nil fits fun newline => ?_) fun fits' => carries_pure fits' _
  unfold wholeAxisAhead at colon
  rw [newline] at colon
  cases colon

theorem carried_argumentsFrom (close : Token) {n m : Nat} (le : n ≤ m) :
    Carried us (argumentsFrom inner close n) (argumentsFrom inner' close m) := by
  induction n generalizing m with
  | zero => exact fun _ _ => carries_fail _ _
  | succ n ih =>
    obtain ⟨m, rfl⟩ : ∃ k, m = k + 1 := ⟨m - 1, by omega⟩
    intro c fits
    refine carries_isAt fits close (carries_ite (fun _ => carries_pure fits _) fun _ => ?_)
    refine carries_peek? fits (carries_ite (fun _ => carries_fail _ _) fun _ => ?_)
    refine (carried_argument h c fits).bind fits fun e d _ _ groups fits' => ?_
    rw [← groups]
    refine carries_isAt fits' .comma (carries_ite (fun comma => ?_) fun _ => ?_)
    · refine carries_pass fits' (beq_iff_eq.mp comma) (by rintro ⟨⟩) fun behind => ?_
      exact ((ih (Nat.le_of_succ_le_succ le)).bind fun es => carried_pure (e :: es)) _ behind
    · exact carries_isAt fits' close (carries_ite (fun _ => carries_pure fits' _) fun _ =>
        carries_fail _ _)

omit h in
/-- What stands in brackets, behind the opening one. -/
theorem carries_inside {close : Token} (k : Group) (fits : c.Fits us) (closing : close ≠ .newline)
    {body body' : Nat → Parser α} (stops : ∀ n c, StopsAt close c (body n))
    (hbody : ∀ n m, n ≤ m → Carried us (body n) (body' m)) :
    Carries us c.groups c
      (do enter k; let x ← body ((← remaining) + 1); leave; advance; return x)
      (do enter k; let x ← body' ((← remaining) + 1); leave; advance; return x) := by
  refine carries_enter k (carries_remaining fun m le => ?_)
  refine (hbody _ _ (Nat.succ_le_succ le) { c with groups := k :: c.groups } fits).bind fits
    fun x d run _ groups behind => carries_leave groups ?_
  have last : d.peek? = some close := stops _ _ _ _ run
  exact carries_pass (c := { d with groups := c.groups }) behind last closing
    fun fits => carries_pure fits x

/-- What stands in brackets. -/
structure Bracketed (us : List Spanned) (c : Cursor) (p q : Parser α) : Prop where
  carries : Carries us c.groups c p q
  shorter : ∀ a d, p c = .ok (a, d) → d.rest <:+ c.step.rest

omit h in
theorem bracketed {t close : Token} (k : Group) (fits : c.Fits us) (ahead : c.peek? = some t)
    (opening : t ≠ .newline) (closing : close ≠ .newline) {body body' : Nat → Parser α}
    (stops : ∀ n c, StopsAt close c (body n))
    (hbody : ∀ n m, n ≤ m → Carried us (body n) (body' m)) :
    Bracketed us c
      (do advance; enter k; let x ← body ((← remaining) + 1); leave; advance; return x)
      (do advance; enter k; let x ← body' ((← remaining) + 1); leave; advance; return x) := by
  have behind : c.step.Fits us := by
    refine fits.of_suffix (List.tail_suffix _) (step_ne_nil fits ?_)
    rw [ahead]
    exact fun same => opening (Option.some.inj same)
  have inside := carries_inside k behind closing stops hbody
  exact ⟨carries_pass fits ahead opening fun _ => inside, fun a d run => (inside a d run).1⟩

theorem bracketed_arguments {t close : Token} (fits : c.Fits us) (ahead : c.peek? = some t)
    (opening : t ≠ .newline) (closing : close ≠ .newline) :
    Bracketed us c (arguments inner close) (arguments inner' close) :=
  bracketed .paren fits ahead opening closing (fun n _ => stopsAt_argumentsFrom inner n)
    fun _ _ => carried_argumentsFrom h close

/-- A row may end with the line, but then more has to follow. -/
theorem carried_rowsFrom (close : Token) {n m : Nat} (le : n ≤ m) (rows : List (List Expr))
    (row : List Expr) :
    Carried us (rowsFrom inner close n rows row) (rowsFrom inner' close m rows row) := by
  induction n generalizing m rows row with
  | zero => exact fun _ _ => carries_fail _ _
  | succ n ih =>
    obtain ⟨m, rfl⟩ : ∃ k, m = k + 1 := ⟨m - 1, by omega⟩
    have later : ∀ (rows : List (List Expr)) (row : List Expr),
        Carried us (rowsFrom inner close n rows row) (rowsFrom inner' close m rows row) :=
      fun rows row => ih (Nat.le_of_succ_le_succ le) rows row
    intro c fits
    have passing : ∀ (rows : List (List Expr)) (row : List Expr), Carries us c.groups c
        (do advance; rowsFrom inner close n rows row)
        (do advance; rowsFrom inner' close m rows row) := by
      intro rows row a d run
      refine carries_advance fits (fun _ nothing => ?_) (later rows row c.step) a d run
      have stuck : rowsFrom inner close n rows row c.step = .ok (a, d) := run
      rw [show c.step = ⟨[], c.groups⟩ by rw [← nothing]; rfl] at stuck
      exact rowsFrom_nil inner close n rows row c.groups _ stuck
    refine carries_peek? fits ?_
    cases ahead : c.peek? with
    | none => exact carries_fail _ _
    | some t =>
      refine carries_ite (fun _ => carries_pure fits _) fun _ => ?_
      refine carries_ite (fun _ => passing _ _) fun _ => ?_
      refine carries_ite (fun _ => passing _ _) fun _ => ?_
      refine (h c fits).bind fits fun e d _ _ groups behind => ?_
      rw [← groups]
      exact later rows (row ++ [e]) d behind

theorem bracketed_rows {t close : Token} (fits : c.Fits us) (ahead : c.peek? = some t)
    (opening : t ≠ .newline) (closing : close ≠ .newline) :
    Bracketed us c (rows inner close) (rows inner' close) :=
  bracketed .concat fits ahead opening closing (fun n _ => stopsAt_rowsFrom inner n [] [])
    fun _ _ le => carried_rowsFrom h close le [] []

theorem carries_parenthesised (fits : c.Fits us) (ahead : c.peek? = some .leftParen) :
    Carries us c.groups c (parenthesised inner) (parenthesised inner') := by
  refine carries_pass fits ahead (by rintro ⟨⟩) fun fits' => carries_enter .paren ?_
  refine (h { c.step with groups := .paren :: c.step.groups } fits').bind fits'
    fun e d _ _ groups behind => carries_leave groups ?_
  have closing : Token.rightParen ≠ .newline := by rintro ⟨⟩
  exact ((carried_expect closing).bind fun _ => carried_pure (Expr.paren e))
    { d with groups := c.groups } behind

theorem carried_primary : Carried us (primary inner) (primary inner') := by
  intro c fits
  have passing : ∀ {t : Token} (e : Expr), c.peek? = some t → t ≠ .newline →
      Carries us c.groups c (passing e) (passing e) := fun e ahead other =>
    carries_pass fits ahead other fun fits' => carries_pure fits' e
  refine carries_peek? fits ?_
  split
  case h_1 => exact carries_fail _ _
  case h_2 ahead => exact passing _ ahead (by rintro ⟨⟩)
  case h_3 ahead => exact passing _ ahead (by rintro ⟨⟩)
  case h_4 ahead => exact passing _ ahead (by rintro ⟨⟩)
  case h_5 ahead => exact passing _ ahead (by rintro ⟨⟩)
  case h_6 ahead => exact passing _ ahead (by rintro ⟨⟩)
  case h_7 ahead => exact passing _ ahead (by rintro ⟨⟩)
  case h_8 ahead => exact carries_parenthesised h fits ahead
  case h_9 ahead =>
    refine (bracketed_rows h fits ahead (by rintro ⟨⟩) (by rintro ⟨⟩)).carries.bind fits
      fun rows d _ _ groups fits' => ?_
    rw [← groups]
    exact carries_pure fits' _
  case h_10 ahead =>
    refine (bracketed_rows h fits ahead (by rintro ⟨⟩) (by rintro ⟨⟩)).carries.bind fits
      fun rows d _ _ groups fits' => ?_
    rw [← groups]
    exact carries_pure fits' _
  case h_11 => exact carries_fail _ _

theorem carries_suffixesFrom {n m : Nat} (le : n ≤ m) (e : Expr) (fits : c.Fits us)
    (enough : c.rest.length ≤ n) :
    Carries us c.groups c (suffixesFrom inner n e) (suffixesFrom inner' m e) := by
  induction n generalizing m e c with
  | zero => exact carries_of_bound fits enough (suffixesFrom_nil ..) (suffixesFrom_nil ..)
  | succ n ih =>
    obtain ⟨m, rfl⟩ : ∃ k, m = k + 1 := ⟨m - 1, by omega⟩
    have later : ∀ (d : Cursor) (e : Expr), d.rest <:+ c.step.rest → d.groups = c.groups →
        d.Fits us → Carries us c.groups d (suffixesFrom inner n e) (suffixesFrom inner' m e) := by
      intro d e part groups fits'
      have tail : c.step.rest.length = c.rest.length - 1 := List.length_tail
      have shorter := part.length_le
      rw [← groups]
      exact ih (Nat.le_of_succ_le_succ le) e fits' (by omega)
    refine carries_get ?_
    rw [suffixAhead_followedBy fits]
    cases suffix : suffixAhead c e with
    | nothing => exact carries_pure fits e
    | transpose op =>
      have other := newline_of_suffixAhead (c := c) (e := e) (by rw [suffix]; rintro ⟨⟩)
      exact carries_advance fits (step_ne_nil fits other) fun fits' =>
        later c.step _ List.suffix_rfl rfl fits'
    | call f =>
      have arguments := bracketed_arguments h fits (leftParen_of_suffixAhead suffix)
        (by rintro ⟨⟩) (show Token.rightParen ≠ .newline by rintro ⟨⟩)
      exact arguments.carries.bind fits fun es d run _ groups fits' =>
        later d _ (arguments.shorter es d run) groups fits'
    | cellCall f =>
      have arguments := bracketed_arguments h fits (leftBrace_of_suffixAhead suffix)
        (by rintro ⟨⟩) (show Token.rightBrace ≠ .newline by rintro ⟨⟩)
      exact arguments.carries.bind fits fun es d run _ groups fits' =>
        later d _ (arguments.shorter es d run) groups fits'

theorem carried_suffixed : Carried us (suffixed inner) (suffixed inner') :=
  (carried_primary h).bind fun e _ fits => carries_remaining fun _ le =>
    carries_suffixesFrom h le e fits (Nat.le_refl _)

theorem carried_exponent : Carried us (exponent inner) (exponent inner') := by
  intro c fits
  refine carries_isAt fits .minus (carries_ite (fun minus => ?_) fun _ => carried_suffixed h c fits)
  refine carries_pass fits (beq_iff_eq.mp minus) (by rintro ⟨⟩) fun behind => ?_
  exact ((carried_suffixed h).bind fun e => carried_pure (Expr.sign .neg e)) _ behind

theorem carried_power : Carried us (power inner) (power inner') :=
  carried_chainOf (carried_suffixed h) (carried_exponent h) rfl

theorem carries_signedFrom {n m : Nat} (le : n ≤ m) (fits : c.Fits us)
    (enough : c.rest.length ≤ n) :
    Carries us c.groups c (signedFrom inner n) (signedFrom inner' m) := by
  induction n generalizing m c with
  | zero =>
    obtain ⟨empty, rfl⟩ := Fits.nil_of_bound fits enough
    have plain := h c fits
    intro a d run
    obtain ⟨part, groups, -, same⟩ := plain a d run
    refine ⟨part, groups, absurd rfl, ?_⟩
    rw [Cursor.followedBy_nil, empty, signedFrom_nil, ← empty, ← c.followedBy_nil]
    exact same
  | succ n ih =>
    obtain ⟨m, rfl⟩ : ∃ k, m = k + 1 := ⟨m - 1, by omega⟩
    have later : c.step.Fits us →
        Carries us c.groups c.step (signedFrom inner n) (signedFrom inner' m) := by
      intro fits'
      have tail : c.step.rest.length = c.rest.length - 1 := List.length_tail
      exact ih (Nat.le_of_succ_le_succ le) fits' (by omega)
    have signed : ∀ op : SignOp, c.step.Fits us → Carries us c.groups c.step
        (do return Expr.sign op (← signedFrom inner n))
        (do return Expr.sign op (← signedFrom inner' m)) :=
      fun op fits' => (later fits').bind fits' fun e d _ _ groups behind => by
        rw [← groups]
        exact carries_pure behind _
    refine carries_peek? fits ?_
    split
    case h_1 ahead => exact carries_pass fits ahead (by rintro ⟨⟩) (signed .neg)
    case h_2 ahead => exact carries_pass fits ahead (by rintro ⟨⟩) (signed .not)
    case h_3 ahead => exact carries_pass fits ahead (by rintro ⟨⟩) later
    case h_4 => exact h c fits

theorem carried_signed : Carried us (signed inner) (signed inner') := fun _ fits =>
  carries_remaining fun _ le => carries_signedFrom (carried_power h) le fits (Nat.le_refl _)

theorem carried_multiplicative : Carried us (multiplicative inner) (multiplicative inner') :=
  carried_chainOf (carried_signed h) (carried_signed h) rfl

theorem carried_additive : Carried us (additive inner) (additive inner') :=
  carried_chainOf (carried_multiplicative h) (carried_multiplicative h) rfl

/-- What may stand behind the first bound of a range. -/
def boundsFrom (inner : Parser Expr) (start : Expr) : Parser Expr := do
  if ← isAt .colon then
    advance
    let second ← additive inner
    if ← isAt .colon then
      advance
      return .stepped start second (← additive inner)
    else return .range start second
  else return start

theorem carried_boundsFrom (start : Expr) :
    Carried us (boundsFrom inner start) (boundsFrom inner' start) := by
  have bound := carried_additive h
  intro c fits
  refine carries_isAt fits .colon (carries_ite (fun colon => ?_) fun _ => carries_pure fits _)
  refine carries_pass fits (beq_iff_eq.mp colon) (by rintro ⟨⟩) fun behind => ?_
  refine (bound.bind fun second d fits => ?_) _ behind
  refine carries_isAt fits .colon (carries_ite (fun colon => ?_) fun _ => carries_pure fits _)
  refine carries_pass fits (beq_iff_eq.mp colon) (by rintro ⟨⟩) fun behind => ?_
  exact (bound.bind fun stop => carried_pure (Expr.stepped start second stop)) _ behind

theorem carried_range : Carried us (range inner) (range inner') :=
  (carried_additive h).bind (carried_boundsFrom h)

theorem carried_comparison : Carried us (comparison inner) (comparison inner') :=
  carried_chainOf (carried_range h) (carried_range h) rfl

theorem carried_conjunction : Carried us (conjunction inner) (conjunction inner') :=
  carried_chainOf (carried_comparison h) (carried_comparison h) rfl

theorem carried_disjunction : Carried us (disjunction inner) (disjunction inner') :=
  carried_chainOf (carried_conjunction h) (carried_conjunction h) rfl

theorem carried_shortConjunction : Carried us (shortConjunction inner) (shortConjunction inner') :=
  carried_chainOf (carried_disjunction h) (carried_disjunction h) rfl

theorem carried_shortDisjunction : Carried us (shortDisjunction inner) (shortDisjunction inner') :=
  carried_chainOf (carried_shortConjunction h) (carried_shortConjunction h) rfl

end Inner

theorem carried_exprAt {n m : Nat} (le : n ≤ m) : Carried us (exprAt n) (exprAt m) := by
  induction n generalizing m with
  | zero => exact fun _ _ => carries_fail _ _
  | succ n ih =>
    obtain ⟨m, rfl⟩ : ∃ k, m = k + 1 := ⟨m - 1, by omega⟩
    exact carried_shortDisjunction (ih (Nat.le_of_succ_le_succ le))

theorem carried_expr : Carried us expr expr := fun c fits =>
  carries_remaining fun _ le => carried_exprAt (Nat.succ_le_succ le) c fits

theorem carried_operand : Carried us operand operand := fun c fits =>
  carries_remaining fun _ le => carried_suffixed (carried_exprAt (Nat.succ_le_succ le)) c fits

end Parser

end MatrixScript
