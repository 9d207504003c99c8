/-
# `Proofs.Program.Element` — an element of a row in front of other tokens

What is read in front of the bracket that closes a row is read in front of any tokens that go
on with no expression there (`Ends`), if the tokens of the element have no blanks between them
(`Framed`).  A parser looks past the element only where it stops, and there only the bracket of
the row is open: every other one has to be closed by a token of the element, so as many tokens
are ahead as brackets are open (`Cursor.Covered`).  On the way the parser keeps count of the
brackets, and so finds no separator of rows or elements outside of them (`Cursor.Inside`).
-/
import MatrixScript.Proofs.Program.Carried
import MatrixScript.Proofs.Program.Statements

namespace MatrixScript

open MatrixScript.Parser (isOpening isClosing)

namespace Token

/-- An expression can start with the token, or with signs that are passed. -/
def leads (t : Token) : Bool := t.starts || t == .plus

/-- Commas and semicolons stand inside of brackets only; `depth` brackets are open. -/
def enclosed : Nat → List Token → Bool
  | _, [] => true
  | depth, t :: rest =>
      if isOpening t then enclosed (depth + 1) rest
      else if isClosing t then enclosed (depth - 1) rest
      else (depth != 0 || t != .comma && t != .semicolon) && enclosed depth rest

variable {t : Token} {ts : List Token} {depth : Nat}

theorem enclosed_opening (h : isOpening t) : enclosed depth (t :: ts) = enclosed (depth + 1) ts := by
  rw [enclosed, if_pos h]

theorem enclosed_closing (h : isClosing t) : enclosed depth (t :: ts) = enclosed (depth - 1) ts := by
  have other : isOpening t = false := by cases t <;> first | rfl | cases h
  rw [enclosed, other, if_neg Bool.false_ne_true, if_pos h]

theorem enclosed_plain (opening : isOpening t = false) (closing : isClosing t = false)
    (h : enclosed depth (t :: ts)) : enclosed depth ts := by
  rw [enclosed, opening, closing, if_neg Bool.false_ne_true, if_neg Bool.false_ne_true,
    Bool.and_eq_true] at h
  exact h.2

end Token

namespace Cursor

/-- Other tokens in place of the last one ahead. -/
def before (c : Cursor) (us : List Spanned) : Cursor := { c with rest := c.rest.dropLast ++ us }

/-- Behind an opening bracket. -/
def opened (c : Cursor) (k : Group) : Cursor := ⟨c.rest.tail, k :: c.groups⟩

/-- Behind a closing bracket. -/
def closed (c : Cursor) : Cursor := ⟨c.rest.tail, c.groups.tail⟩

/-- In a row, up to the bracket that closes it: there are no blanks, and what separates elements
or rows stands in further brackets. -/
structure Inside (c : Cursor) : Prop where
  closes : c.rest.getLast?.map (·.token) = some .rightBracket
  tight : ∀ w ∈ c.rest, w.spaced = false
  outer : c.groups.getLast? = some .concat
  enclosed : Token.enclosed (c.groups.length - 1) (c.rest.map (·.token))

/-- Every open bracket has a token that can close it. -/
def Covered (c : Cursor) : Prop := c.groups.length ≤ c.rest.length

variable {c d : Cursor} {us : List Spanned} {t : Token} {k : Group}

theorem Covered.of_suffix (h : d.Covered) (part : d.rest <:+ c.rest) (same : d.groups = c.groups) :
    c.Covered := by
  unfold Covered at h ⊢
  rw [← same]
  exact Nat.le_trans h part.length_le

/-! ## Up to the bracket -/

theorem getElem?_before {i : Nat} (h : i + 1 < c.rest.length) :
    (c.before us).rest[i]? = c.rest[i]? := by
  have short : i < c.rest.dropLast.length := by
    rw [List.length_dropLast]
    omega
  show (c.rest.dropLast ++ us)[i]? = _
  rw [List.getElem?_append_left short, List.getElem?_dropLast, if_pos (by omega)]

theorem peek?_before (two : 1 < c.rest.length) : (c.before us).peek? = c.peek? := by
  have first : (c.before us).rest[0]? = c.rest[0]? := getElem?_before two
  unfold Cursor.peek?
  rw [List.head?_eq_getElem?, first, List.head?_eq_getElem?]

theorem tail_before (two : 1 < c.rest.length) :
    (c.before us).rest.tail = c.rest.tail.dropLast ++ us := by
  obtain ⟨rest, gs⟩ := c
  match rest with
  | [] => cases two
  | [w] => exact absurd two (Nat.lt_irrefl 1)
  | v :: w :: ws => rfl

theorem step_before (two : 1 < c.rest.length) : (c.before us).step = c.step.before us :=
  congrArg (Cursor.mk · c.groups) (tail_before two)

theorem opened_before (two : 1 < c.rest.length) :
    (c.before us).opened k = (c.opened k).before us :=
  congrArg (Cursor.mk · (k :: c.groups)) (tail_before two)

theorem closed_before (two : 1 < c.rest.length) : (c.before us).closed = c.closed.before us :=
  congrArg (Cursor.mk · c.groups.tail) (tail_before two)

theorem exists_of_peek? (h : c.peek? = some t) :
    ∃ w ws, c.rest = w :: ws ∧ w.token = t := by
  obtain ⟨rest, gs⟩ := c
  cases rest with
  | nil => cases h
  | cons w ws => exact ⟨w, ws, rfl, Option.some.inj h⟩

namespace Inside

variable (h : c.Inside)
include h

theorem ne_nil : c.rest ≠ [] := by
  intro none
  have closes := h.closes
  rw [none] at closes
  cases closes

theorem groups_ne_nil : c.groups ≠ [] := by
  intro none
  have outer := h.outer
  rw [none] at outer
  cases outer

theorem two (other : c.peek? ≠ some .rightBracket) : 1 < c.rest.length := by
  obtain ⟨rest, gs⟩ := c
  match rest with
  | [] => exact absurd rfl h.ne_nil
  | [w] => exact absurd h.closes other
  | v :: w :: ws => exact Nat.succ_lt_succ (Nat.succ_pos _)

/-- The bracket of the row is all that is left, or more is. -/
theorem alone (covered : c.Covered) : 1 < c.rest.length
    ∨ ∃ w, c = ⟨[w], [.concat]⟩ ∧ w.token = .rightBracket := by
  obtain ⟨rest, gs⟩ := c
  match rest with
  | [] => exact absurd rfl h.ne_nil
  | v :: w :: ws => exact .inl (Nat.succ_lt_succ (Nat.succ_pos _))
  | [w] =>
    match gs with
    | [] => exact absurd rfl h.groups_ne_nil
    | k :: k' :: ks => exact absurd (Nat.le_of_succ_le_succ covered) (Nat.not_succ_le_zero _)
    | [k] =>
      have outer : some k = some .concat := h.outer
      have closes : some w.token = some .rightBracket := h.closes
      rw [Option.some.inj outer]
      exact .inr ⟨w, rfl, Option.some.inj closes⟩

theorem spacedAt (i : Nat) : c.spacedAt i = false := by
  unfold Cursor.spacedAt
  cases found : c.rest[i]? with
  | none => rfl
  | some w => exact h.tight w (List.mem_of_getElem? found)

theorem behind (ks : List Group) (some : c.rest.tail ≠ []) (outer : ks.getLast? = Option.some .concat)
    (enclosed : Token.enclosed (ks.length - 1) (c.rest.tail.map (·.token))) :
    Inside ⟨c.rest.tail, ks⟩ := by
  obtain ⟨rest, gs⟩ := c
  match rest with
  | [] => exact absurd rfl some
  | [w] => exact absurd rfl some
  | v :: w :: ws =>
    exact ⟨h.closes, fun u mem => h.tight u (List.mem_cons_of_mem v mem), outer, enclosed⟩

theorem tail_ne_nil (other : c.peek? ≠ some .rightBracket) : c.rest.tail ≠ [] := by
  have two := h.two other
  refine List.ne_nil_of_length_pos ?_
  rw [List.length_tail]
  omega

/-- A token that is no bracket is passed. -/
theorem step (ahead : c.peek? = some t) (opening : isOpening t = false)
    (closing : isClosing t = false) : c.step.Inside := by
  refine h.behind c.groups (h.tail_ne_nil ?_) h.outer ?_
  · rw [ahead]
    rintro ⟨⟩
    cases closing
  · obtain ⟨w, ws, shape, rfl⟩ := exists_of_peek? ahead
    have enclosed := h.enclosed
    rw [shape] at enclosed ⊢
    exact Token.enclosed_plain opening closing enclosed

theorem opened (ahead : c.peek? = some t) (opening : isOpening t) (k : Group) :
    (c.opened k).Inside := by
  refine h.behind (k :: c.groups) (h.tail_ne_nil ?_) ?_ ?_
  · rw [ahead]
    rintro ⟨⟩
    cases opening
  · rw [List.getLast?_cons_of_ne_nil h.groups_ne_nil, h.outer]
  · obtain ⟨w, ws, shape, rfl⟩ := exists_of_peek? ahead
    have enclosed := h.enclosed
    have some := List.length_pos_iff.mpr h.groups_ne_nil
    rw [shape, List.map_cons, Token.enclosed_opening opening, Nat.sub_add_cancel some] at enclosed
    rw [shape]
    exact enclosed

theorem closed (ahead : c.peek? = some t) (closing : isClosing t) (two : 1 < c.rest.length)
    (deep : c.groups.tail ≠ []) : c.closed.Inside := by
  refine h.behind c.groups.tail ?_ ?_ ?_
  · refine List.ne_nil_of_length_pos ?_
    rw [List.length_tail]
    omega
  · rw [← h.outer]
    cases eq : c.groups with
    | nil => exact absurd eq h.groups_ne_nil
    | cons k ks =>
      rw [eq, List.tail_cons] at deep
      rw [List.tail_cons, List.getLast?_cons_of_ne_nil deep]
  · obtain ⟨w, ws, shape, rfl⟩ := exists_of_peek? ahead
    have enclosed := h.enclosed
    rw [shape, List.map_cons, Token.enclosed_closing closing] at enclosed
    rw [shape, List.length_tail]
    exact enclosed

end Inside

end Cursor

namespace Parser

open Cursor (Covered Inside)

variable {α β : Type} {us : List Spanned} {c : Cursor} {gs : List Group}

/-- The tokens go on with no expression in a row. -/
structure Ends (us : List Spanned) : Prop where
  filled : us ≠ []
  operator : ∀ ℓ, operatorAhead? (operatorAt ℓ) ⟨us, [.concat]⟩ = none
  suffix : ∀ e, suffixAhead ⟨us, [.concat]⟩ e = .nothing
  colon : Cursor.peek? ⟨us, [.concat]⟩ ≠ some .colon

/-- What `p` reads at the cursor, with the brackets `gs` around what is left, `q` reads with the
tokens `us` in place of the bracket that closes the row. -/
def Frames (us : List Spanned) (gs : List Group) (c : Cursor) (p q : Parser α) : Prop :=
  ∀ a d, p c = .ok (a, d) → d.rest <:+ c.rest ∧ d.groups = gs
    ∧ (c.Inside → d.Covered → d.Inside ∧ q (c.before us) = .ok (a, d.before us))

/-- So it does inside of brackets wherever it can start, which is in front of certain tokens. -/
structure Framed (us : List Spanned) (p q : Parser Expr) : Prop where
  leads : ∀ c e d, p c = .ok (e, d) → ∃ t, c.peek? = some t ∧ t.leads
  frames : ∀ c : Cursor, c.groups ≠ [] → Frames us c.groups c p q

/-! ## Combinators -/

theorem frames_pure (a : α) : Frames us c.groups c (pure a) (pure a) := by
  intro b d run
  cases run
  exact ⟨List.suffix_rfl, rfl, fun inside _ => ⟨inside, rfl⟩⟩

theorem frames_fail (reason : String) (q : Parser α) : Frames us gs c (fail reason) q := by
  intro a d run
  cases run

theorem Frames.bind {p q : Parser α} {f g : α → Parser β} (h : Frames us gs c p q)
    (step : ∀ a d, p c = .ok (a, d) → d.rest <:+ c.rest → d.groups = gs →
      Frames us gs d (f a) (g a)) : Frames us gs c (p >>= f) (q >>= g) := by
  intro b e run
  obtain ⟨a, d, first, later⟩ := exists_of_bind_run run
  obtain ⟨part, groups, frame⟩ := h a d first
  obtain ⟨part', groups', frame'⟩ := step a d first part groups b e later
  refine ⟨part'.trans part, groups', fun inside covered => ?_⟩
  obtain ⟨inside', same⟩ := frame inside (covered.of_suffix part' (groups'.trans groups.symm))
  obtain ⟨inside'', same'⟩ := frame' inside' covered
  exact ⟨inside'', (bind_run same).trans same'⟩

theorem frames_ite {b : Prop} [Decidable b] {p q p' q' : Parser α} (h : b → Frames us gs c p q)
    (h' : ¬b → Frames us gs c p' q') :
    Frames us gs c (if b then p else p') (if b then q else q') := by
  split
  · exact h ‹_›
  · exact h' ‹_›

/-- A look at the cursor that sees the same in both runs. -/
theorem frames_get {f g : Cursor → Parser α}
    (same : c.Inside → c.Covered → g (c.before us) = g c) (h : Frames us c.groups c (f c) (g c)) :
    Frames us c.groups c ((get : Parser Cursor) >>= f) ((get : Parser Cursor) >>= g) := by
  intro a d run
  obtain ⟨part, groups, frame⟩ := h a d run
  refine ⟨part, groups, fun inside covered => ?_⟩
  obtain ⟨inside', run'⟩ := frame inside covered
  refine ⟨inside', ?_⟩
  show g (c.before us) (c.before us) = _
  rw [same inside (covered.of_suffix part groups), run']

/-- A look at the token ahead. -/
theorem frames_peek? {f g : Option Token → Parser α}
    (same : c.Inside → c.Covered → (c.before us).peek? = c.peek?)
    (h : Frames us c.groups c (f c.peek?) (g c.peek?)) :
    Frames us c.groups c (peek? >>= f) (peek? >>= g) :=
  frames_get (f := fun c => f c.peek?) (g := fun c => g c.peek?)
    (fun inside covered => by rw [same inside covered]) h

/-- A test of the token ahead. -/
theorem frames_isAt {t : Token} {f g : Bool → Parser α}
    (same : c.Inside → c.Covered → ((c.before us).peek? == some t) = (c.peek? == some t))
    (h : Frames us c.groups c (f (c.peek? == some t)) (g (c.peek? == some t))) :
    Frames us c.groups c (isAt t >>= f) (isAt t >>= g) :=
  frames_get (f := fun c => f (c.peek? == some t)) (g := fun c => g (c.peek? == some t))
    (fun inside covered => by rw [same inside covered]) h

/-- The bound of a loop gets no smaller. -/
theorem frames_remaining (some : us ≠ []) {f g : Nat → Parser α}
    (h : ∀ n, c.rest.length ≤ n → Frames us gs c (f c.rest.length) (g n)) :
    Frames us gs c (remaining >>= f) (remaining >>= g) := by
  have le : c.rest.length ≤ (c.before us).rest.length := by
    have filled := List.length_pos_iff.mpr some
    show c.rest.length ≤ (c.rest.dropLast ++ us).length
    rw [List.length_append, List.length_dropLast]
    omega
  exact h _ le

/-- A token that is no bracket is passed. -/
theorem frames_pass {f g : PUnit → Parser α} {t : Token} (ahead : c.peek? = some t)
    (opening : isOpening t = false) (closing : isClosing t = false)
    (h : Frames us gs c.step (f ⟨⟩) (g ⟨⟩)) :
    Frames us gs c (advance >>= f) (advance >>= g) := by
  intro a d run
  obtain ⟨part, groups, frame⟩ := h a d run
  refine ⟨part.trans (List.tail_suffix _), groups, fun inside covered => ?_⟩
  obtain ⟨inside', same⟩ := frame (inside.step ahead opening closing) covered
  have two : 1 < c.rest.length := inside.two fun bracket => by
    obtain rfl := Option.some.inj (ahead.symm.trans bracket)
    cases closing
  refine ⟨inside', ?_⟩
  show g ⟨⟩ (c.before us).step = _
  rw [Cursor.step_before two]
  exact same

/-- What stands in brackets, between the opening one and the closing one. -/
theorem Frames.closed {body body' : Parser α} {k : Group}
    (h : Frames us (k :: c.groups) (c.opened k) body body') {t close : Token}
    (ahead : c.peek? = some t) (opening : isOpening t) (closing : isClosing close) {a : α}
    {d : Cursor} (run : body (c.opened k) = .ok (a, d)) (stops : d.peek? = some close) :
    d.closed.rest <:+ c.step.rest ∧ d.closed.groups = c.groups
      ∧ (c.Inside → d.closed.Covered → d.closed.Inside ∧ 1 < d.rest.length
        ∧ body' ((c.before us).opened k) = .ok (a, d.before us)) := by
  obtain ⟨part, groups, frame⟩ := h a d run
  have same : d.closed.groups = c.groups := congrArg List.tail groups
  have inner : d.rest <:+ c.step.rest := part
  refine ⟨(List.tail_suffix _).trans inner, same, fun inside covered => ?_⟩
  have two : 1 < d.rest.length := by
    have some := List.length_pos_iff.mpr inside.groups_ne_nil
    have enough : d.closed.groups.length ≤ d.rest.tail.length := covered
    rw [same, List.length_tail] at enough
    omega
  have covered' : d.Covered := by
    have enough : d.closed.groups.length ≤ d.rest.tail.length := covered
    rw [same, List.length_tail] at enough
    show d.groups.length ≤ _
    rw [groups, List.length_cons]
    omega
  have first : 1 < c.rest.length := inside.two fun bracket => by
    obtain rfl := Option.some.inj (ahead.symm.trans bracket)
    cases opening
  obtain ⟨inside', run'⟩ := frame (inside.opened ahead opening k) covered'
  refine ⟨inside'.closed stops closing two ?_, two, ?_⟩
  · rw [groups]
    exact inside.groups_ne_nil
  · rw [Cursor.opened_before first]
    exact run'

/-- What `expect` passes is ahead. -/
theorem expect_inv {t : Token} {u : PUnit} {d : Cursor} (run : expect t c = .ok (u, d)) :
    c.peek? = some t ∧ d = c.step := by
  have run : (if c.peek? == some t then advance else fail _) c = .ok (u, d) := run
  split at run
  case isTrue ahead =>
    cases run
    exact ⟨beq_iff_eq.mp ahead, rfl⟩
  case isFalse => cases run

theorem expect_run {t : Token} (ahead : c.peek? = some t) : expect t c = .ok (⟨⟩, c.step) := by
  show (if c.peek? == some t then advance else fail _) c = _
  rw [ahead, if_pos (beq_self_eq_true _)]
  rfl

/-! ## Looks -/

section

variable (inside : c.Inside)
include inside

theorem signStartsElement_inside : signStartsElement c = false := by
  unfold signStartsElement
  rw [inside.spacedAt 0, Bool.and_false, Bool.false_and]

theorem spacedAt_before (two : 1 < c.rest.length) : (c.before us).spacedAt 0 = false := by
  unfold Cursor.spacedAt
  rw [Cursor.getElem?_before two]
  exact inside.spacedAt 0

theorem operatorAhead?_before (covered : c.Covered) (ends : Ends us) (ℓ : Nat) :
    operatorAhead? (operatorAt ℓ) (c.before us) = operatorAhead? (operatorAt ℓ) c := by
  rcases inside.alone covered with two | ⟨w, rfl, bracket⟩
  · have apart : signStartsElement (c.before us) = false := by
      unfold signStartsElement
      rw [spacedAt_before inside two, Bool.and_false, Bool.false_and]
    unfold operatorAhead?
    rw [apart, signStartsElement_inside inside, Cursor.peek?_before two]
  · have none : operatorAt ℓ .rightBracket = none := by
      unfold operatorAt
      split <;> rfl
    refine (ends.operator ℓ).trans ?_
    unfold operatorAhead?
    rw [signStartsElement_inside inside, Cursor.peek?_cons, bracket]
    exact none.symm

theorem suffixAhead_before (covered : c.Covered) (ends : Ends us) (e : Expr) :
    suffixAhead (c.before us) e = suffixAhead c e := by
  rcases inside.alone covered with two | ⟨w, rfl, bracket⟩
  · unfold suffixAhead
    rw [Cursor.peek?_before two, spacedAt_before inside two, inside.spacedAt 0, Bool.and_false,
      Bool.and_false]
  · refine (ends.suffix e).trans ?_
    unfold suffixAhead
    rw [Cursor.peek?_cons, bracket]

theorem isColon_before (covered : c.Covered) (ends : Ends us) :
    ((c.before us).peek? == some .colon) = (c.peek? == some .colon) := by
  rcases inside.alone covered with two | ⟨w, rfl, bracket⟩
  · rw [Cursor.peek?_before two]
  · have other : (Cursor.peek? ⟨us, [.concat]⟩ == some .colon) = false := beq_false_of_ne ends.colon
    refine other.trans ?_
    rw [Cursor.peek?_cons, bracket]
    rfl

/-- Inside of further brackets the token ahead is the same. -/
theorem peek?_deep (covered : c.Covered) (deep : 1 < c.groups.length) :
    (c.before us).peek? = c.peek? := by
  rcases inside.alone covered with two | ⟨w, rfl, -⟩
  · exact Cursor.peek?_before two
  · exact absurd deep (Nat.lt_irrefl 1)

end

/-! ## Brackets -/

theorem ne_nil_of_deep (deep : 1 < c.groups.length) : c.groups ≠ [] :=
  List.ne_nil_of_length_pos (Nat.lt_of_succ_lt deep)

section Inner

variable {inner inner' : Parser Expr} (h : Framed us inner inner')
include h

theorem frames_argument (deep : 1 < c.groups.length) :
    Frames us c.groups c (argument inner) (argument inner') := by
  by_cases whole : wholeAxisAhead c
  case pos =>
    have parts : c.peek? = some .colon ∧ c.peekAt? 1 ≠ some .rightBracket := by
      unfold wholeAxisAhead at whole
      rw [Bool.and_eq_true, beq_iff_eq] at whole
      refine ⟨whole.1, fun bracket => ?_⟩
      rw [bracket] at whole
      exact absurd whole.2 Bool.false_ne_true
    refine frames_get ?_ (frames_ite (fun _ => ?_) fun other => absurd whole other)
    · intro inside covered
      -- the token behind the colon is not the bracket of the row, so it is the same
      have three : 2 < c.rest.length := by
        obtain ⟨rest, gs⟩ := c
        match rest with
        | [] => exact absurd rfl inside.ne_nil
        | [w] =>
          have closes : some w.token = some .rightBracket := inside.closes
          cases closes.symm.trans parts.1
        | [v, w] => exact absurd inside.closes parts.2
        | u :: v :: w :: ws => exact Nat.succ_lt_succ (Nat.succ_lt_succ (Nat.succ_pos _))
      have same : wholeAxisAhead (c.before us) = wholeAxisAhead c := by
        unfold wholeAxisAhead Cursor.peekAt?
        rw [Cursor.peek?_before (Nat.lt_of_succ_lt three), Cursor.getElem?_before three]
      rw [same]
    · exact frames_pass parts.1 rfl rfl (frames_pure _)
  case neg =>
    intro e d run
    have run : (if wholeAxisAhead c then (do advance; return Expr.all) else inner) c = .ok (e, d) := run
    rw [if_neg whole] at run
    obtain ⟨t, ahead, leads⟩ := h.leads c e d run
    obtain ⟨part, groups, frame⟩ := h.frames c (ne_nil_of_deep deep) e d run
    refine ⟨part, groups, fun inside covered => ?_⟩
    obtain ⟨inside', same⟩ := frame inside covered
    refine ⟨inside', ?_⟩
    have other : wholeAxisAhead (c.before us) = false := by
      unfold wholeAxisAhead
      rw [peek?_deep inside (covered.of_suffix part groups) deep, ahead]
      cases t <;> first | rfl | cases leads
    show (if wholeAxisAhead (c.before us) then (do advance; return Expr.all) else inner') _ = _
    rw [other]
    exact same

theorem frames_argumentsFrom (close : Token) {n m : Nat} (le : n ≤ m) (deep : 1 < c.groups.length) :
    Frames us c.groups c (argumentsFrom inner close n) (argumentsFrom inner' close m) := by
  induction n generalizing m c with
  | zero => exact frames_fail _ _
  | succ n ih =>
    obtain ⟨m, rfl⟩ : ∃ k, m = k + 1 := ⟨m - 1, by omega⟩
    have isAt : ∀ (c : Cursor) (t : Token), 1 < c.groups.length → c.Inside → c.Covered →
        ((c.before us).peek? == some t) = (c.peek? == some t) := fun c t deep inside covered => by
      rw [peek?_deep inside covered deep]
    refine frames_isAt (isAt c close deep) ?_
    refine frames_ite (fun _ => frames_pure _) fun _ => ?_
    refine frames_peek? (fun inside covered => peek?_deep inside covered deep) ?_
    refine frames_ite (fun _ => frames_fail _ _) fun _ => ?_
    refine (frames_argument h deep).bind fun e d _ _ groups => ?_
    rw [← groups] at deep ⊢
    refine frames_isAt (isAt d .comma deep) ?_
    refine frames_ite (fun comma => ?_) fun _ => ?_
    · refine frames_pass (beq_iff_eq.mp comma) rfl rfl ?_
      refine (ih (c := d.step) (Nat.le_of_succ_le_succ le) deep).bind fun es d' _ _ groups' => ?_
      rw [← groups']
      exact frames_pure _
    · refine frames_isAt (isAt d close deep) ?_
      exact frames_ite (fun _ => frames_pure _) fun _ => frames_fail _ _

theorem frames_rowsFrom (close : Token) {n m : Nat} (le : n ≤ m) (rows : List (List Expr))
    (row : List Expr) (deep : 1 < c.groups.length) :
    Frames us c.groups c (rowsFrom inner close n rows row) (rowsFrom inner' close m rows row) := by
  induction n generalizing m rows row c with
  | zero => exact frames_fail _ _
  | succ n ih =>
    obtain ⟨m, rfl⟩ : ∃ k, m = k + 1 := ⟨m - 1, by omega⟩
    refine frames_peek? (fun inside covered => peek?_deep inside covered deep) ?_
    cases ahead : c.peek? with
    | none => exact frames_fail _ _
    | some t =>
      have pass : ∀ rows row, t = .semicolon ∨ t = .newline ∨ t = .comma → Frames us c.groups c
          (do advance; rowsFrom inner close n rows row)
          (do advance; rowsFrom inner' close m rows row) := by
        intro rows row separator
        refine frames_pass ahead ?_ ?_ (ih (c := c.step) (Nat.le_of_succ_le_succ le) rows row deep)
        all_goals rcases separator with rfl | rfl | rfl <;> rfl
      refine frames_ite (fun _ => frames_pure _) fun _ => ?_
      refine frames_ite (fun next => pass _ _ (next.imp_right .inl)) fun _ => ?_
      refine frames_ite (fun comma => pass _ _ (.inr (.inr comma))) fun _ => ?_
      refine (h.frames c (ne_nil_of_deep deep)).bind fun e d _ _ groups => ?_
      rw [← groups] at deep ⊢
      exact ih (Nat.le_of_succ_le_succ le) rows (row ++ [e]) deep

omit h in
/-- A list in brackets, which ends behind its first token. -/
structure FramedList (us : List Spanned) (c : Cursor) (p q : Parser α) : Prop where
  frames : Frames us c.groups c p q
  shorter : ∀ a d, p c = .ok (a, d) → d.rest <:+ c.step.rest

omit h in
theorem framedList_brackets {t close : Token} (k : Group) (filled : us ≠ []) (nested : c.groups ≠ [])
    (ahead : c.peek? = some t) (opening : isOpening t) (closing : isClosing close)
    {body body' : Nat → Parser α} (stops : ∀ n c, StopsAt close c (body n))
    (hbody : ∀ n m (c : Cursor), n ≤ m → 1 < c.groups.length →
      Frames us c.groups c (body n) (body' m)) :
    FramedList us c
      (do advance; enter k; let x ← body ((← remaining) + 1); leave; advance; return x)
      (do advance; enter k; let x ← body' ((← remaining) + 1); leave; advance; return x) := by
  have deep : 1 < (c.opened k).groups.length :=
    Nat.succ_lt_succ (List.length_pos_iff.mpr nested)
  have bounds : (c.opened k).rest.length + 1 ≤ ((c.before us).opened k).rest.length + 1 := by
    have some := List.length_pos_iff.mpr filled
    have length : (c.before us).rest.length = c.rest.length - 1 + us.length := by
      rw [← List.length_dropLast]
      exact List.length_append
    show c.rest.tail.length + 1 ≤ (c.before us).rest.tail.length + 1
    rw [List.length_tail, List.length_tail]
    omega
  have inner : ∀ a d,
      (do advance; enter k; let x ← body ((← remaining) + 1); leave; advance; return x : Parser α) c
        = .ok (a, d) → ∃ e, body ((c.opened k).rest.length + 1) (c.opened k) = .ok (a, e)
          ∧ e.peek? = some close ∧ d = e.closed := by
    intro a d run
    rw [advance_bind_run, enter_bind_run, remaining_bind_run] at run
    obtain ⟨x, e, first, later⟩ := exists_of_bind_run run
    cases later
    exact ⟨e, first, stops _ _ _ _ first, rfl⟩
  have whole := hbody _ _ (c.opened k) bounds deep
  refine ⟨fun a d run => ?_, fun a d run => ?_⟩
  · obtain ⟨e, first, stop, rfl⟩ := inner a d run
    obtain ⟨part, groups, frame⟩ := whole.closed ahead opening closing first stop
    refine ⟨part.trans (List.tail_suffix _), groups, fun inside covered => ?_⟩
    obtain ⟨inside', two, run'⟩ := frame inside covered
    refine ⟨inside', ?_⟩
    rw [advance_bind_run, enter_bind_run, remaining_bind_run]
    refine (bind_run run').trans ?_
    show Except.ok (a, (e.before us).closed) = _
    rw [Cursor.closed_before two]
  · obtain ⟨e, first, stop, rfl⟩ := inner a d run
    exact (whole.closed ahead opening closing first stop).1

theorem framedList_arguments {t : Token} (close : Token) (filled : us ≠ []) (nested : c.groups ≠ [])
    (ahead : c.peek? = some t) (opening : isOpening t) (closing : isClosing close) :
    FramedList us c (arguments inner close) (arguments inner' close) :=
  framedList_brackets .paren filled nested ahead opening closing
    (fun n _ => stopsAt_argumentsFrom inner n)
    fun _ _ _ le deep => frames_argumentsFrom h close le deep

theorem framedList_rows {t close : Token} (filled : us ≠ []) (nested : c.groups ≠ [])
    (ahead : c.peek? = some t) (opening : isOpening t) (closing : isClosing close) :
    FramedList us c (rows inner close) (rows inner' close) :=
  framedList_brackets .concat filled nested ahead opening closing
    (fun n _ => stopsAt_rowsFrom inner n [] [])
    fun _ _ _ le deep => frames_rowsFrom h close le [] [] deep

theorem frames_parenthesised (ahead : c.peek? = some .leftParen) :
    Frames us c.groups c (parenthesised inner) (parenthesised inner') := by
  intro a d run
  rw [parenthesised, advance_bind_run, enter_bind_run] at run
  obtain ⟨e, d', first, later⟩ := exists_of_bind_run run
  rw [leave_bind_run] at later
  obtain ⟨_, d'', closing, result⟩ := exists_of_bind_run later
  obtain ⟨close, rfl⟩ := expect_inv closing
  cases result
  obtain ⟨part, groups, frame⟩ :=
    (h.frames (c.opened .paren) (List.cons_ne_nil _ _)).closed ahead rfl rfl first close
  refine ⟨part.trans (List.tail_suffix _), groups, fun inside covered => ?_⟩
  obtain ⟨inside', two, run'⟩ := frame inside covered
  refine ⟨inside', ?_⟩
  rw [parenthesised, advance_bind_run, enter_bind_run]
  refine (bind_run run').trans ?_
  rw [leave_bind_run]
  have close' : (d'.before us).peek? = some .rightParen := (Cursor.peek?_before two).trans close
  refine (bind_run (expect_run (c := { d'.before us with groups := d'.groups.tail }) close')).trans ?_
  show Except.ok (Expr.paren e, (d'.before us).closed) = _
  rw [Cursor.closed_before two]
  rfl

omit h in
theorem leads_primary {e : Expr} {d : Cursor} (run : primary inner c = .ok (e, d)) :
    ∃ t, c.peek? = some t ∧ t.leads := by
  rw [primary, peek?_bind_run] at run
  cases ahead : c.peek? with
  | none =>
    rw [ahead] at run
    cases run
  | some t =>
    rw [ahead] at run
    cases t <;> first | exact ⟨_, rfl, rfl⟩ | cases run

theorem framed_primary (filled : us ≠ []) : Framed us (primary inner) (primary inner') := by
  refine ⟨fun c e d run => leads_primary run, fun c nested a d run => ?_⟩
  obtain ⟨t, ahead, leads⟩ := leads_primary run
  have other : c.peek? ≠ some .rightBracket := by
    rw [ahead]
    rintro ⟨⟩
    cases leads
  refine frames_peek? (fun inside _ => Cursor.peek?_before (inside.two other)) ?_ a d run
  clear run a d
  rw [ahead]
  have pass : ∀ e : Expr, isOpening t = false → isClosing t = false →
      Frames us c.groups c (passing e) (passing e) := fun e opening closing =>
    frames_pass ahead opening closing (frames_pure (c := c.step) e)
  cases t with
  | int | float | imag | str | ident | last => exact pass _ rfl rfl
  | leftParen => exact frames_parenthesised h ahead
  | leftBracket =>
    refine (framedList_rows h filled nested ahead rfl rfl).frames.bind fun found d _ _ groups => ?_
    rw [← groups]
    exact frames_pure _
  | leftBrace =>
    refine (framedList_rows h filled nested ahead rfl rfl).frames.bind fun found d _ _ groups => ?_
    rw [← groups]
    exact frames_pure _
  | _ => exact frames_fail _ _

/-! ## Levels -/

omit h in
theorem exists_of_transpose {e : Expr} {op : TransposeOp} (suffix : suffixAhead c e = .transpose op) :
    ∃ t, c.peek? = some t ∧ isOpening t = false ∧ isClosing t = false := by
  unfold suffixAhead at suffix
  split at suffix
  case h_1 => split at suffix <;> cases suffix
  case h_2 => split at suffix <;> cases suffix
  case h_3 ahead => exact ⟨_, ahead, rfl, rfl⟩
  case h_4 ahead => exact ⟨_, ahead, rfl, rfl⟩
  case h_5 => cases suffix

theorem frames_suffixesFrom (ends : Ends us) {n m : Nat} (le : n ≤ m) (e : Expr)
    (nested : c.groups ≠ []) (enough : c.rest.length ≤ n) :
    Frames us c.groups c (suffixesFrom inner n e) (suffixesFrom inner' m e) := by
  induction n generalizing m e c with
  | zero =>
    intro a d run
    cases run
    exact ⟨List.suffix_rfl, rfl, fun inside _ =>
      absurd (List.length_eq_zero_iff.mp (Nat.le_zero.mp enough)) inside.ne_nil⟩
  | succ n ih =>
    obtain ⟨m, rfl⟩ : ∃ k, m = k + 1 := ⟨m - 1, by omega⟩
    have later : ∀ (d : Cursor) (e : Expr), d.rest <:+ c.step.rest → d.groups = c.groups →
        Frames us c.groups d (suffixesFrom inner n e) (suffixesFrom inner' m e) := by
      intro d e part groups
      have tail : c.step.rest.length = c.rest.length - 1 := List.length_tail
      have shorter := part.length_le
      rw [← groups] at nested ⊢
      exact ih (Nat.le_of_succ_le_succ le) e nested (by omega)
    refine frames_get (fun inside covered => ?_) ?_
    · rw [suffixAhead_before inside covered ends]
    · cases suffix : suffixAhead c e with
      | nothing => exact frames_pure e
      | transpose op =>
        obtain ⟨t, ahead, opening, closing⟩ := exists_of_transpose suffix
        exact frames_pass ahead opening closing (later c.step _ List.suffix_rfl rfl)
      | call f =>
        have list := framedList_arguments h .rightParen ends.filled nested
          (leftParen_of_suffixAhead suffix) rfl rfl
        exact list.frames.bind fun es d run _ groups => later d _ (list.shorter es d run) groups
      | cellCall f =>
        have list := framedList_arguments h .rightBrace ends.filled nested
          (leftBrace_of_suffixAhead suffix) rfl rfl
        exact list.frames.bind fun es d run _ groups => later d _ (list.shorter es d run) groups

end Inner

/-- In front of a token that an expression starts with, the token stays. -/
theorem frames_of_leads {p q : Parser Expr}
    (leads : ∀ e d, p c = .ok (e, d) → ∃ t, c.peek? = some t ∧ t.leads)
    (h : ∀ t, c.peek? = some t → (c.Inside → c.Covered → (c.before us).peek? = c.peek?) →
      Frames us gs c p q) : Frames us gs c p q := by
  intro e d run
  obtain ⟨t, ahead, start⟩ := leads e d run
  have other : c.peek? ≠ some .rightBracket := by
    rw [ahead]
    rintro ⟨⟩
    cases start
  exact h t ahead (fun inside _ => Cursor.peek?_before (inside.two other)) e d run

section Operand

variable {operand operand' : Parser Expr} (h : Framed us operand operand')
include h

theorem leads_signedFrom (n : Nat) {e : Expr} {d : Cursor}
    (run : signedFrom operand n c = .ok (e, d)) : ∃ t, c.peek? = some t ∧ t.leads := by
  cases n with
  | zero => exact h.leads c e d run
  | succ n =>
    rw [signedFrom, peek?_bind_run] at run
    cases ahead : c.peek? with
    | none =>
      rw [ahead] at run
      exact ahead ▸ h.leads c e d run
    | some t =>
      rw [ahead] at run
      cases t with
      | minus | tilde | plus => exact ⟨_, rfl, rfl⟩
      | _ => exact ahead ▸ h.leads c e d run

theorem frames_signedFrom {n m : Nat} (le : n ≤ m) (nested : c.groups ≠ [])
    (enough : c.rest.length ≤ n) :
    Frames us c.groups c (signedFrom operand n) (signedFrom operand' m) := by
  induction n generalizing m c with
  | zero =>
    intro e d run
    obtain ⟨part, groups, -⟩ := h.frames c nested e d run
    exact ⟨part, groups, fun inside _ =>
      absurd (List.length_eq_zero_iff.mp (Nat.le_zero.mp enough)) inside.ne_nil⟩
  | succ n ih =>
    obtain ⟨m, rfl⟩ : ∃ k, m = k + 1 := ⟨m - 1, by omega⟩
    have later : Frames us c.groups c.step (signedFrom operand n) (signedFrom operand' m) := by
      have tail : c.step.rest.length = c.rest.length - 1 := List.length_tail
      exact ih (c := c.step) (Nat.le_of_succ_le_succ le) nested (by omega)
    have signed : ∀ op : SignOp, Frames us c.groups c.step
        (do return Expr.sign op (← signedFrom operand n))
        (do return Expr.sign op (← signedFrom operand' m)) :=
      fun op => later.bind fun e d _ _ groups => by
        rw [← groups]
        exact frames_pure _
    refine frames_of_leads (fun _ _ run => leads_signedFrom h (n + 1) run) fun t _ same => ?_
    refine frames_peek? same ?_
    split
    case h_1 ahead => exact frames_pass ahead rfl rfl (signed .neg)
    case h_2 ahead => exact frames_pass ahead rfl rfl (signed .not)
    case h_3 ahead => exact frames_pass ahead rfl rfl later
    case h_4 => exact h.frames c nested

theorem framed_signed (filled : us ≠ []) : Framed us
    (do signedFrom operand (← remaining)) (do signedFrom operand' (← remaining)) :=
  ⟨fun _ _ _ run => leads_signedFrom h _ run, fun _ nested =>
    frames_remaining filled fun _ le => frames_signedFrom h le nested (Nat.le_refl _)⟩

omit h in
theorem exists_of_operatorAhead {ℓ : Nat} {op : BinaryOp}
    (found : operatorAhead? (operatorAt ℓ) c = some op) :
    ∃ t, c.peek? = some t ∧ isOpening t = false ∧ isClosing t = false := by
  unfold operatorAhead? at found
  split at found
  case isTrue => cases found
  case isFalse =>
    obtain ⟨t, ahead, operator⟩ := Option.bind_eq_some_iff.mp found
    refine ⟨t, ahead, ?_⟩
    unfold operatorAt at operator
    split at operator <;> cases t <;> first | exact ⟨rfl, rfl⟩ | cases operator

theorem frames_chainFrom (ends : Ends us) (ℓ : Nat) {n m : Nat} (le : n ≤ m) (left : Expr)
    (nested : c.groups ≠ []) (enough : c.rest.length ≤ n) :
    Frames us c.groups c (chainFrom operand (operatorAt ℓ) n left)
      (chainFrom operand' (operatorAt ℓ) m left) := by
  induction n generalizing m c left with
  | zero =>
    intro a d run
    cases run
    exact ⟨List.suffix_rfl, rfl, fun inside _ =>
      absurd (List.length_eq_zero_iff.mp (Nat.le_zero.mp enough)) inside.ne_nil⟩
  | succ n ih =>
    obtain ⟨m, rfl⟩ : ∃ k, m = k + 1 := ⟨m - 1, by omega⟩
    refine frames_get (fun inside covered => ?_) ?_
    · rw [operatorAhead?_before inside covered ends]
    · cases found : operatorAhead? (operatorAt ℓ) c with
      | none => exact frames_pure left
      | some op =>
        obtain ⟨t, ahead, opening, closing⟩ := exists_of_operatorAhead found
        refine frames_pass ahead opening closing ?_
        refine (h.frames c.step nested).bind fun right d _ part groups => ?_
        have tail : c.step.rest.length = c.rest.length - 1 := List.length_tail
        have shorter := part.length_le
        have nested' : d.groups ≠ [] := groups ▸ nested
        rw [← groups]
        exact ih (Nat.le_of_succ_le_succ le) (.binary op left right) nested' (by omega)

theorem framed_range (ends : Ends us) : Framed us
    (do
      let start ← operand
      if ← isAt .colon then
        advance
        let second ← operand
        if ← isAt .colon then
          advance
          return Expr.stepped start second (← operand)
        else return Expr.range start second
      else return start)
    (do
      let start ← operand'
      if ← isAt .colon then
        advance
        let second ← operand'
        if ← isAt .colon then
          advance
          return Expr.stepped start second (← operand')
        else return Expr.range start second
      else return start) := by
  refine ⟨fun c e d run => ?_, fun c nested => ?_⟩
  · obtain ⟨start, d', first, -⟩ := exists_of_bind_run run
    exact h.leads c start d' first
  · refine (h.frames c nested).bind fun start d _ _ groups => ?_
    rw [← groups] at nested ⊢
    refine frames_isAt (fun inside covered => isColon_before inside covered ends) ?_
    refine frames_ite (fun colon => ?_) fun _ => frames_pure _
    refine frames_pass (beq_iff_eq.mp colon) rfl rfl ?_
    refine (h.frames d.step nested).bind fun second d' _ _ groups' => ?_
    have nested' : d'.groups ≠ [] := groups' ▸ nested
    rw [← groups']
    refine frames_isAt (fun inside covered => isColon_before inside covered ends) ?_
    refine frames_ite (fun colon => ?_) fun _ => frames_pure _
    refine frames_pass (beq_iff_eq.mp colon) rfl rfl ?_
    refine (h.frames d'.step nested').bind fun stop d'' _ _ groups'' => ?_
    rw [← groups'']
    exact frames_pure _

end Operand

variable {inner inner' : Parser Expr}

theorem framed_exponent (h : Framed us (suffixed inner) (suffixed inner')) :
    Framed us (exponent inner) (exponent inner') := by
  have leads : ∀ c e d, exponent inner c = .ok (e, d) → ∃ t, c.peek? = some t ∧ t.leads := by
    intro c e d run
    rw [exponent, isAt_bind_run, ite_run] at run
    split at run
    case isTrue minus => exact ⟨_, beq_iff_eq.mp minus, rfl⟩
    case isFalse => exact h.leads c e d run
  refine ⟨leads, fun c nested => frames_of_leads (leads c) fun t _ same => ?_⟩
  refine frames_isAt (fun inside covered => by rw [same inside covered]) ?_
  refine frames_ite (fun minus => ?_) fun _ => h.frames c nested
  refine frames_pass (beq_iff_eq.mp minus) rfl rfl ?_
  refine (h.frames c.step nested).bind fun e d _ _ groups => ?_
  rw [← groups]
  exact frames_pure _

/-- An operand and the loop behind it. -/
theorem framed_loop (ends : Ends us) {ℓ : Nat} (loops : Loops ℓ) (h : Framed us inner inner')
    (first : Framed us (atLevel inner (ℓ + 1)) (atLevel inner' (ℓ + 1))) :
    Framed us (atLevel inner ℓ) (atLevel inner' ℓ) := by
  rw [atLevel_eq_loop loops, atLevel_eq_loop loops]
  refine ⟨fun c e d run => ?_, fun c nested => ?_⟩
  · obtain ⟨left, d', run', -⟩ := exists_of_bind_run run
    exact first.leads c left d' run'
  · refine (first.frames c nested).bind fun left d _ _ groups => ?_
    rw [← groups] at nested ⊢
    refine frames_remaining ends.filled fun n le => ?_
    rcases loops with chains | rfl
    · rw [loopAt_eq_chainFrom chains, loopAt_eq_chainFrom chains]
      have operands : Framed us (operandAt inner ℓ) (operandAt inner' ℓ) := by
        by_cases nine : ℓ = 9
        case pos =>
          subst nine
          exact framed_exponent first
        case neg =>
          unfold operandAt
          split
          case h_1 => exact absurd rfl nine
          case h_2 => exact first
      exact frames_chainFrom operands ends ℓ le left nested (Nat.le_refl _)
    · exact frames_suffixesFrom h ends le left nested (Nat.le_refl _)

theorem framed_atLevel (ends : Ends us) (h : Framed us inner inner') {ℓ : Nat} (le : ℓ ≤ 11) :
    Framed us (atLevel inner ℓ) (atLevel inner' ℓ) := by
  induction le using Nat.decreasingInduction with
  | self => exact framed_primary h ends.filled
  | of_succ ℓ lt ih =>
    by_cases loops : Loops ℓ
    case pos => exact framed_loop ends loops h ih
    case neg =>
      rcases eq_of_not_loops lt loops with rfl | rfl
      · exact framed_range ih ends
      · exact framed_signed ih ends.filled

/-- An expression that is read up to the bracket of its row is read up to whatever goes on with
no expression. -/
theorem framed_exprAt (ends : Ends us) {n m : Nat} (le : n ≤ m) :
    Framed us (exprAt n) (exprAt m) := by
  induction n generalizing m with
  | zero => exact ⟨nofun, fun _ _ => frames_fail _ _⟩
  | succ n ih =>
    obtain ⟨m, rfl⟩ : ∃ k, m = k + 1 := ⟨m - 1, by omega⟩
    exact framed_atLevel ends (ih (Nat.le_of_succ_le_succ le)) (Nat.zero_le 11)

end Parser

end MatrixScript
