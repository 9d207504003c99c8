/-
# `Proofs.Program.Append` — one program behind another

Two texts of which the first ends with its line are read as the statements of the one
and then those of the other (`Program.ofTokens_append`), provided that every function
of the first is closed: one that is not takes the statements behind it into its body.
`closedProgram` is the parser that insists on the closing `end`.
-/
import MatrixScript.Proofs.Program.Carried
import MatrixScript.Proofs.Token.Append

namespace MatrixScript

namespace Parser

open Cursor (Fits EndsLine)

variable {α β : Type} {us : List Spanned} {c : Cursor} {gs : List Group}

/-! ## Statements -/

theorem closesBeforeEquals_append {ts : List Token} (newline : .newline ∈ ts) (vs : List Token)
    (depth : Nat) : closesBeforeEquals depth (ts ++ vs) = closesBeforeEquals depth ts := by
  induction ts generalizing depth with
  | nil => cases newline
  | cons t ts ih =>
    by_cases line : t = .newline
    case pos =>
      subst line
      rfl
    case neg =>
      have later : Token.newline ∈ ts := (List.mem_cons.mp newline).resolve_left (Ne.symm line)
      have head : (ts ++ vs).head? = ts.head? := by
        cases ts with
        | nil => cases later
        | cons => rfl
      rw [List.cons_append]
      unfold closesBeforeEquals
      simp only [ih later, head]

section

variable (fits : c.Fits us)
include fits

theorem isMultiAssignment_followedBy :
    isMultiAssignment (c.followedBy us) = isMultiAssignment c := by
  unfold isMultiAssignment
  rcases fits with rfl | ends
  · rw [Cursor.followedBy_nil]
  · have tokens : (c.followedBy us).rest.map (·.token)
        = c.rest.map (·.token) ++ us.map (·.token) := List.map_append
    rw [tokens, closesBeforeEquals_append]
    rw [Cursor.EndsLine, ← List.getLast?_map] at ends
    exact List.mem_of_getLast? ends

theorem isCommand_followedBy (other : c.peek? ≠ some .newline) :
    isCommand (c.followedBy us) = isCommand c := by
  have two := fits.one_lt other
  unfold isCommand
  rw [Fits.peekAt? two, Fits.spacedAt two]
  split
  case h_2 => rfl
  case h_1 x second =>
    -- the name is not the end of the line, so one more token is ahead
    have three : us = [] ∨ 2 < c.rest.length := by
      refine fits.imp id fun ends => ?_
      obtain ⟨rest, gs⟩ := c
      match rest with
      | [] => exact absurd rfl ends.ne_nil
      | [_] => cases second
      | [_, w] =>
        have line : w.token = .newline := Option.some.inj ends
        have word : w.token = .ident x := Option.some.inj second
        rw [line] at word
        cases word
      | _ :: _ :: _ :: _ => exact Nat.succ_lt_succ (Nat.succ_lt_succ (Nat.succ_pos _))
    rw [Fits.peekAt? three]

end

theorem carried_targetsFrom {n m : Nat} (le : n ≤ m) : Carried us (targetsFrom n) (targetsFrom m) := by
  induction n generalizing m with
  | zero => exact fun _ _ => carries_fail _ _
  | succ n ih =>
    obtain ⟨m, rfl⟩ : ∃ k, m = k + 1 := ⟨m - 1, by omega⟩
    have later := ih (Nat.le_of_succ_le_succ le)
    intro c fits
    refine carries_isAt fits .rightBracket (carries_ite (fun _ => carries_pure fits _) fun _ => ?_)
    refine carries_isAt fits .comma (carries_ite (fun comma => ?_) fun _ => ?_)
    · exact carries_pass fits (beq_iff_eq.mp comma) (by rintro ⟨⟩) (later c.step)
    · refine (carried_operand c fits).bind fits fun e d _ _ groups behind => ?_
      rw [← groups]
      split
      · exact (later.bind fun ts => carried_pure _) d behind
      · exact carries_fail _ _

/-- Destinations behind their opening bracket, and what is assigned to them. -/
def destinations : Parser Statement := do
  enter .concat
  let targets ← targetsFrom ((← remaining) + 1)
  leave
  expect .rightBracket
  expect .equals
  return .assigns targets (← expr)

theorem carried_destinations : Carried us destinations destinations := by
  have tail : ∀ targets : List Target, Carried us
      (do expect .rightBracket; expect .equals; return Statement.assigns targets (← expr))
      (do expect .rightBracket; expect .equals; return Statement.assigns targets (← expr)) :=
    fun targets => (carried_expect (by rintro ⟨⟩)).bind fun _ => (carried_expect (by rintro ⟨⟩)).bind
      fun _ => carried_expr.bind fun e => carried_pure _
  refine fun c fits => carries_enter .concat (carries_remaining fun m le => ?_)
  refine (carried_targetsFrom (Nat.succ_le_succ le) { c with groups := .concat :: c.groups } fits).bind
    fits fun targets d _ _ groups behind => carries_leave groups ?_
  exact tail targets { d with groups := c.groups } behind

theorem carried_multiAssignment : Carried us multiAssignment multiAssignment :=
  (carried_expect (by rintro ⟨⟩)).bind fun _ => carried_destinations

theorem wordsFrom_nil (n : Nat) (gs : List Group) : wordsFrom n ⟨[], gs⟩ = .ok ([], ⟨[], gs⟩) := by
  cases n <;> rfl

theorem carries_wordsFrom {n m : Nat} (le : n ≤ m) (fits : c.Fits us)
    (enough : c.rest.length ≤ n) : Carries us c.groups c (wordsFrom n) (wordsFrom m) := by
  induction n generalizing m c with
  | zero => exact carries_of_bound fits enough (wordsFrom_nil ..) (wordsFrom_nil ..)
  | succ n ih =>
    obtain ⟨m, rfl⟩ : ∃ k, m = k + 1 := ⟨m - 1, by omega⟩
    have later : ∀ w : String, c.step.Fits us → Carries us c.groups c.step
        (do return w :: (← wordsFrom n)) (do return w :: (← wordsFrom m)) := by
      intro w fits'
      have tail : c.step.rest.length = c.rest.length - 1 := List.length_tail
      refine (ih (Nat.le_of_succ_le_succ le) fits' (by omega)).bind fits' fun ws d _ _ groups behind => ?_
      rw [← show d.groups = c.groups from groups]
      exact carries_pure behind _
    refine carries_peek? fits ?_
    split
    case h_1 w ahead => exact carries_pass fits ahead (by rintro ⟨⟩) (later w)
    case h_2 w ahead => exact carries_pass fits ahead (by rintro ⟨⟩) (later w)
    case h_3 => exact carries_pure fits _

/-- Words behind the name of a command. -/
def commandWords (name : String) : Parser Statement := do
  return .command name (← wordsFrom (← remaining))

theorem carried_commandWords (name : String) : Carried us (commandWords name) (commandWords name) := fun c fits =>
  carries_remaining fun _ le =>
    (carries_wordsFrom le fits (Nat.le_refl _)).bind fits fun ws d _ _ groups behind => by
      rw [← groups]
      exact carries_pure behind _

theorem carried_command : Carried us command command := carried_ident.bind carried_commandWords

/-- What an expression at the start of a statement becomes. -/
def assignedFrom (e : Expr) : Parser Statement := do
  if ← isAt .equals then
    match e.target? with
    | some t =>
        advance
        return .assign t (← expr)
    | none => fail "Invalid assignment target"
  else return .expression e

theorem carried_assignedFrom (e : Expr) : Carried us (assignedFrom e) (assignedFrom e) := by
  intro c fits
  refine carries_isAt fits .equals (carries_ite (fun equals => ?_) fun _ => carries_pure fits _)
  split
  · refine carries_pass fits (beq_iff_eq.mp equals) (by rintro ⟨⟩) fun behind => ?_
    exact (carried_expr.bind fun value => carried_pure _) _ behind
  · exact carries_fail _ _

theorem carried_simpleStatement : Carried us simpleStatement simpleStatement :=
  carried_expr.bind carried_assignedFrom

theorem carried_statement : Carried us statement statement := by
  intro c fits
  refine carries_get ?_
  rw [fits.peek?, isMultiAssignment_followedBy fits]
  by_cases newline : c.peek? = some .newline
  case pos =>
    rw [newline]
    exact carried_simpleStatement c fits
  case neg =>
    rw [isCommand_followedBy fits newline]
    split
    case h_1 ahead => exact carries_pass fits ahead (by rintro ⟨⟩) fun fits' => carries_pure fits' _
    case h_2 ahead => exact carries_pass fits ahead (by rintro ⟨⟩) fun fits' => carries_pure fits' _
    case h_3 =>
      exact carries_ite (fun _ => carried_multiAssignment c fits)
        fun _ => carried_simpleStatement c fits
    case h_4 =>
      exact carries_ite (fun _ => carries_fail _ _) fun _ =>
        carries_ite (fun _ => carried_command c fits) fun _ => carried_simpleStatement c fits
    case h_5 => exact carried_simpleStatement c fits

/-! ## Sequences -/

/-- The rounds of a sequence: what is read within the bound `n`, and where it stops. -/
inductive Rounds (stops : Token → Bool) (item : Parser α) :
    Nat → Cursor → List α → Cursor → Prop
  | bound {c : Cursor} : Rounds stops item 0 c [] c
  | last {n : Nat} {c : Cursor} : c.skipSeparators.peek? = none →
      Rounds stops item (n + 1) c [] c.skipSeparators
  | stop {n : Nat} {c : Cursor} {t : Token} : c.skipSeparators.peek? = some t → stops t →
      Rounds stops item (n + 1) c [] c.skipSeparators
  | one {n : Nat} {c d : Cursor} {t : Token} {a : α} : c.skipSeparators.peek? = some t →
      stops t = false → t ≠ .last → item c.skipSeparators = .ok (a, d) → d.peek? = none →
      Rounds stops item (n + 1) c [a] d
  | more {n : Nat} {c d e : Cursor} {t u : Token} {a : α} {as : List α} :
      c.skipSeparators.peek? = some t → stops t = false → t ≠ .last →
      item c.skipSeparators = .ok (a, d) → d.peek? = some u → u.isSeparator ∨ stops u →
      Rounds stops item n d as e → Rounds stops item (n + 1) c (a :: as) e

section Rounds

variable {stops : Token → Bool} {item item' : Parser α} {n m : Nat} {d : Cursor} {as : List α}

theorem rounds_of_sequenceFrom (run : sequenceFrom stops item n c = .ok (as, d)) :
    Rounds stops item n c as d := by
  induction n generalizing c as d with
  | zero =>
    cases run
    exact .bound
  | succ n ih =>
    rw [sequenceFrom, modify_bind_run, peek?_bind_run] at run
    cases ahead : c.skipSeparators.peek? with
    | none =>
      rw [ahead] at run
      cases run
      exact .last ahead
    | some t =>
      rw [ahead] at run
      dsimp only at run
      by_cases stop : stops t
      case pos =>
        rw [if_pos stop] at run
        cases run
        exact .stop ahead stop
      case neg =>
        rw [if_neg stop] at run
        have goes : stops t = false := Bool.eq_false_iff.mpr stop
        by_cases closing : t = .last
        case pos =>
          rw [if_pos closing] at run
          cases run
        case neg =>
          rw [if_neg closing] at run
          obtain ⟨a, e, first, later⟩ := exists_of_bind_run run
          rw [peek?_bind_run] at later
          cases behind : e.peek? with
          | none =>
            rw [behind] at later
            cases later
            exact .one ahead goes closing first behind
          | some u =>
            rw [behind] at later
            dsimp only at later
            by_cases apart : u.isSeparator || stops u
            case pos =>
              rw [if_pos apart] at later
              obtain ⟨as', e', rest, result⟩ := exists_of_bind_run later
              cases result
              exact .more ahead goes closing first behind (Bool.or_eq_true_iff.mp apart) (ih rest)
            case neg =>
              rw [if_neg apart] at later
              cases later

/-- A round that reads an item leaves the rest to the next one. -/
theorem sequenceFrom_more {t u : Token} {a : α} (ahead : c.skipSeparators.peek? = some t)
    (goes : stops t = false) (closing : t ≠ .last) (first : item c.skipSeparators = .ok (a, d))
    (behind : d.peek? = some u) (apart : u.isSeparator ∨ stops u) :
    sequenceFrom stops item (n + 1) c
      = (sequenceFrom stops item n d).map fun r => (a :: r.1, r.2) := by
  rw [sequenceFrom, modify_bind_run, peek?_bind_run, ahead]
  dsimp only
  rw [goes, if_neg Bool.false_ne_true, if_neg closing, bind_run first, peek?_bind_run, behind]
  dsimp only
  rw [if_pos (Bool.or_eq_true_iff.mpr apart)]
  show (sequenceFrom stops item n d).bind _ = _
  cases sequenceFrom stops item n d <;> rfl

theorem Rounds.sequenceFrom_eq (h : Rounds stops item n c as d) :
    sequenceFrom stops item n c = .ok (as, d) := by
  induction h with
  | bound => rfl
  | last ahead =>
    rw [sequenceFrom, modify_bind_run, peek?_bind_run, ahead]
    rfl
  | stop ahead stop =>
    rw [sequenceFrom, modify_bind_run, peek?_bind_run, ahead]
    dsimp only
    rw [if_pos stop]
    rfl
  | one ahead goes closing first behind =>
    rw [sequenceFrom, modify_bind_run, peek?_bind_run, ahead]
    dsimp only
    rw [goes, if_neg Bool.false_ne_true, if_neg closing, bind_run first, peek?_bind_run, behind]
    rfl
  | more ahead goes closing first behind apart _ ih =>
    rw [sequenceFrom_more ahead goes closing first behind apart, ih]
    rfl

end Rounds

/-! ### Separators -/

theorem skipSeparators_suffix (c : Cursor) : c.skipSeparators.rest <:+ c.rest :=
  List.dropWhile_suffix _

theorem rest_of_peek?_none (h : c.peek? = none) : c.rest = [] := by
  cases eq : c.rest with
  | nil => rfl
  | cons =>
    unfold Cursor.peek? at h
    rw [eq] at h
    cases h

theorem ne_nil_of_peek? {t : Token} (h : c.peek? = some t) : c.rest ≠ [] := by
  intro none
  unfold Cursor.peek? at h
  rw [none] at h
  cases h

/-- Separators that something stands behind are passed in front of more tokens too. -/
theorem skipSeparators_followedBy (some : us = [] ∨ c.skipSeparators.rest ≠ []) :
    (c.followedBy us).skipSeparators = c.skipSeparators.followedBy us := by
  rcases some with rfl | some
  · rw [Cursor.followedBy_nil, Cursor.followedBy_nil]
  · obtain ⟨rest, gs⟩ := c
    show Cursor.mk ((rest ++ us).dropWhile _) gs = ⟨rest.dropWhile _ ++ us, gs⟩
    rw [List.dropWhile_append, if_neg (by rwa [List.isEmpty_iff])]

/-- Where only separators are ahead the sequence goes on with what stands behind them. -/
theorem skipSeparators_append (none : c.skipSeparators.rest = []) :
    (c.followedBy us).skipSeparators = Cursor.skipSeparators ⟨us, c.groups⟩ := by
  obtain ⟨rest, gs⟩ := c
  have none : (rest.dropWhile (·.token.isSeparator)).isEmpty := List.isEmpty_iff.mpr none
  show Cursor.mk ((rest ++ us).dropWhile _) gs = ⟨us.dropWhile _, gs⟩
  rw [List.dropWhile_append, if_pos none]

/-- A separator ahead is passed. -/
theorem skipSeparators_shorter {t : Token} (ahead : c.peek? = some t) (separator : t.isSeparator) :
    c.skipSeparators.rest.length < c.rest.length := by
  obtain ⟨rest, gs⟩ := c
  cases rest with
  | nil => cases ahead
  | cons w ws =>
    obtain rfl : w.token = t := Option.some.inj ahead
    have passed : (w :: ws).dropWhile (·.token.isSeparator) = ws.dropWhile (·.token.isSeparator) :=
      List.dropWhile_cons_of_pos separator
    show ((w :: ws).dropWhile (·.token.isSeparator)).length < (w :: ws).length
    rw [passed]
    exact Nat.lt_succ_of_le (List.dropWhile_suffix _).length_le

theorem skipSeparators_of_not {t : Token} (ahead : c.peek? = some t)
    (other : t.isSeparator = false) : c.skipSeparators = c := by
  obtain ⟨rest, gs⟩ := c
  cases rest with
  | nil => rfl
  | cons w ws =>
    obtain rfl : w.token = t := Option.some.inj ahead
    have stays : (w :: ws).dropWhile (·.token.isSeparator) = w :: ws :=
      List.dropWhile_cons_of_neg (by rw [other]; exact Bool.false_ne_true)
    show Cursor.mk ((w :: ws).dropWhile _) gs = _
    rw [stays]

/-- The bound is large enough: every round but the first passes a separator, and the sequence ends
in front of a token that stops it. -/
def Lasts (stops : Token → Bool) (n : Nat) (c : Cursor) : Prop :=
  c.skipSeparators.rest.length < n
    ∨ 0 < n ∧ ∃ t, c.skipSeparators.peek? = some t ∧ stops t

theorem lasts_length (stops : Token → Bool) (c : Cursor) : Lasts stops (c.rest.length + 1) c :=
  .inl (Nat.lt_succ_of_le (skipSeparators_suffix c).length_le)

theorem Lasts.pos {stops : Token → Bool} {n : Nat} (h : Lasts stops n c) : 0 < n :=
  h.elim Nat.zero_lt_of_lt And.left

theorem Lasts.short {stops : Token → Bool} {n : Nat} {t : Token} (h : Lasts stops n c)
    (ahead : c.skipSeparators.peek? = some t) (goes : stops t = false) :
    c.skipSeparators.rest.length < n := by
  refine h.resolve_right fun stopping => ?_
  obtain ⟨-, t', ahead', stop⟩ := stopping
  obtain rfl := Option.some.inj (ahead.symm.trans ahead')
  exact Bool.eq_false_iff.mp goes stop

theorem lasts_later {stops : Token → Bool} {n : Nat} {d : Cursor} {u : Token}
    (shorter : d.rest.length ≤ n) (ahead : d.peek? = some u) (apart : u.isSeparator ∨ stops u) :
    Lasts stops n d := by
  have some : 0 < d.rest.length := List.length_pos_iff.mpr (ne_nil_of_peek? ahead)
  cases separator : u.isSeparator with
  | true => exact .inl (Nat.lt_of_lt_of_le (skipSeparators_shorter ahead separator) shorter)
  | false =>
    rw [separator] at apart
    refine .inr ⟨Nat.lt_of_lt_of_le some shorter, u, ?_, apart.resolve_left Bool.false_ne_true⟩
    rwa [skipSeparators_of_not ahead separator]

section Rounds

variable {stops : Token → Bool} {item item' : Parser α} {n m : Nat} {d : Cursor} {as : List α}

/-- In front of more tokens a sequence has the same rounds, if it ends before the text does. -/
theorem Rounds.carried (h : Rounds stops item n c as d) (carried : Carried us item item')
    (le : n ≤ m) (fits : c.Fits us) (lasts : Lasts stops n c) :
    d.rest <:+ c.rest ∧ d.groups = c.groups
      ∧ (us = [] ∨ d.rest ≠ [] → Rounds stops item' m (c.followedBy us) as (d.followedBy us)) := by
  induction h generalizing m with
  | bound => exact absurd lasts.pos (Nat.lt_irrefl 0)
  | @last n c ahead =>
    refine ⟨skipSeparators_suffix c, rfl, fun some => ?_⟩
    obtain rfl : us = [] := some.resolve_right fun some => some (rest_of_peek?_none ahead)
    obtain ⟨m, rfl⟩ : ∃ k, m = k + 1 := ⟨m - 1, by omega⟩
    rw [Cursor.followedBy_nil, Cursor.followedBy_nil]
    exact .last ahead
  | @stop n c t ahead stop =>
    refine ⟨skipSeparators_suffix c, rfl, fun some => ?_⟩
    obtain ⟨m, rfl⟩ : ∃ k, m = k + 1 := ⟨m - 1, by omega⟩
    have skips := skipSeparators_followedBy some
    have behind := fits.of_suffix (skipSeparators_suffix c) fun _ => ne_nil_of_peek? ahead
    rw [← skips]
    refine .stop (t := t) ?_ stop
    rw [skips, behind.peek?, ahead]
  | @one n c d t a ahead goes closing first behind =>
    have some := ne_nil_of_peek? ahead
    have fits' := fits.of_suffix (skipSeparators_suffix c) fun _ => some
    obtain ⟨part, groups, left, same⟩ := carried _ fits' a d first
    refine ⟨part.trans (skipSeparators_suffix c), groups, fun some' => ?_⟩
    obtain rfl : us = [] := some'.resolve_right fun some => some (rest_of_peek?_none behind)
    obtain ⟨m, rfl⟩ : ∃ k, m = k + 1 := ⟨m - 1, by omega⟩
    rw [Cursor.followedBy_nil, Cursor.followedBy_nil] at same ⊢
    exact .one ahead goes closing same behind
  | @more n c d e t u a as ahead goes closing first behind apart later ih =>
    have some := ne_nil_of_peek? ahead
    have fits' := fits.of_suffix (skipSeparators_suffix c) fun _ => some
    obtain ⟨part, groups, left, same⟩ := carried _ fits' a d first
    obtain ⟨m, rfl⟩ : ∃ k, m = k + 1 := ⟨m - 1, by omega⟩
    have fits'' := fits'.of_suffix part left
    have enough : d.rest.length ≤ n :=
      Nat.le_of_lt_succ (Nat.lt_of_le_of_lt part.length_le (lasts.short ahead goes))
    obtain ⟨part', groups', rounds⟩ :=
      ih (Nat.le_of_succ_le_succ le) fits'' (lasts_later enough behind apart)
    refine ⟨part'.trans (part.trans (skipSeparators_suffix c)), groups'.trans groups,
      fun some' => ?_⟩
    have skips : (c.followedBy us).skipSeparators = c.skipSeparators.followedBy us :=
      skipSeparators_followedBy (.inr some)
    refine .more (t := t) (u := u) (d := d.followedBy us) ?_ goes closing ?_ ?_ apart (rounds some')
    · rw [skips, fits'.peek?, ahead]
    · rw [skips, same]
    · rw [fits''.peek?, behind]

/-- Only what is ahead of the separators matters. -/
theorem sequenceFrom_of_skipSeparators {c' : Cursor} (same : c'.skipSeparators = c.skipSeparators) :
    sequenceFrom stops item (n + 1) c' = sequenceFrom stops item (n + 1) c := by
  rw [sequenceFrom, modify_bind_run, modify_bind_run, same]

/-- In front of a token that stops it a sequence reads nothing. -/
theorem Rounds.eq_of_stops {u : Token} (h : Rounds stops item n c as d) (pos : 0 < n)
    (ahead : c.skipSeparators.peek? = some u) (stop : stops u) : d = c.skipSeparators := by
  cases h with
  | bound => exact absurd pos (Nat.lt_irrefl 0)
  | last | stop => rfl
  | one ahead' goes | more ahead' goes =>
    obtain rfl := Option.some.inj (ahead.symm.trans ahead')
    rw [goes] at stop
    cases stop

/-- A sequence that gets to the end of the text goes on with what stands behind the text. -/
theorem Rounds.append (h : Rounds stops item n c as d) (carried : Carried us item item')
    (through : d.rest = [] ∨ ∀ t, stops t = false) (filled : us ≠ [])
    (ends : c.rest ≠ [] → c.EndsLine) (lasts : Lasts stops n c)
    (long : c.skipSeparators.rest.length + us.length < m) {r : Except Error (List α × Cursor)}
    (rest : ∀ k, us.length < k → sequenceFrom stops item' k ⟨us, c.groups⟩ = r) :
    sequenceFrom stops item' m (c.followedBy us) = r.map fun b => (as ++ b.1, b.2) := by
  induction h generalizing m with
  | bound => exact absurd lasts.pos (Nat.lt_irrefl 0)
  | @last n c ahead =>
    obtain ⟨m, rfl⟩ : ∃ k, m = k + 1 := ⟨m - 1, by omega⟩
    rw [sequenceFrom_of_skipSeparators (skipSeparators_append (rest_of_peek?_none ahead)),
      rest (m + 1) (by omega)]
    cases r <;> rfl
  | @stop n c t ahead stop =>
    exact (through.elim (ne_nil_of_peek? ahead) fun never =>
      Bool.eq_false_iff.mp (never t) stop).elim
  | @one n c d t a ahead goes closing first behind =>
    have some := ne_nil_of_peek? ahead
    have line := (ends fun none => some (List.eq_nil_of_suffix_nil (none ▸ skipSeparators_suffix c))).of_suffix
      (skipSeparators_suffix c) some
    obtain ⟨-, -, left, -⟩ := carried _ (.inr line) a d first
    exact absurd (rest_of_peek?_none behind) (left filled)
  | @more n c d e t u a as ahead goes closing first behind apart later ih =>
    have some := ne_nil_of_peek? ahead
    have line := (ends fun none => some (List.eq_nil_of_suffix_nil (none ▸ skipSeparators_suffix c))).of_suffix
      (skipSeparators_suffix c) some
    have fits : c.skipSeparators.Fits us := .inr line
    obtain ⟨part, groups, left, same⟩ := carried _ fits a d first
    have line' := line.of_suffix part (left filled)
    have length := part.length_le
    have enough : d.rest.length ≤ n := Nat.le_of_lt_succ (Nat.lt_of_le_of_lt length (lasts.short ahead goes))
    have separator : u.isSeparator := by
      cases other : u.isSeparator with
      | true => rfl
      | false =>
        -- `u` would stop the next round in the midst of the text
        have stop : stops u := apart.resolve_left (Bool.eq_false_iff.mp other)
        have stays := skipSeparators_of_not behind other
        have ended := later.eq_of_stops
          (Nat.lt_of_lt_of_le (List.length_pos_iff.mpr (ne_nil_of_peek? behind)) enough)
          (by rw [stays]; exact behind) stop
        rw [stays] at ended
        subst ended
        exact (through.elim (ne_nil_of_peek? behind) fun never =>
          Bool.eq_false_iff.mp (never u) stop).elim
    have shorter := skipSeparators_shorter behind separator
    obtain ⟨m, rfl⟩ : ∃ k, m = k + 1 := ⟨m - 1, by omega⟩
    have rounds := ih through (m := m) (fun _ => line') (lasts_later enough behind apart) (by omega)
      fun k lt => by
        rw [show d.groups = c.groups from groups]
        exact rest k lt
    have skips : (c.followedBy us).skipSeparators = c.skipSeparators.followedBy us :=
      skipSeparators_followedBy (.inr some)
    rw [sequenceFrom_more (t := t) (u := u) (a := a) (d := d.followedBy us) ?_ goes closing ?_ ?_ apart,
      rounds]
    · cases r <;> rfl
    · rw [skips, fits.peek?, ahead]
    · rw [skips, same]
    · rw [Cursor.Fits.peek? (.inr line'), behind]

end Rounds

/-! ## Functions -/

theorem carried_namesFrom {close : Token} (closing : close ≠ .newline) {n m : Nat} (le : n ≤ m) :
    Carried us (namesFrom close n) (namesFrom close m) := by
  induction n generalizing m with
  | zero => exact fun _ _ => carries_fail _ _
  | succ n ih =>
    obtain ⟨m, rfl⟩ : ∃ k, m = k + 1 := ⟨m - 1, by omega⟩
    have later := ih (Nat.le_of_succ_le_succ le)
    intro c fits
    refine carries_isAt fits close (carries_ite (fun closes => ?_) fun _ => ?_)
    · exact carries_pass fits (beq_iff_eq.mp closes) closing fun behind => carries_pure behind _
    · refine carries_isAt fits .comma (carries_ite (fun comma => ?_) fun _ => ?_)
      · exact carries_pass fits (beq_iff_eq.mp comma) (by rintro ⟨⟩) (later c.step)
      · exact (carried_ident.bind fun x => later.bind fun xs => carried_pure (x :: xs)) c fits

theorem carries_names {t close : Token} (fits : c.Fits us) (ahead : c.peek? = some t)
    (opening : t ≠ .newline) (closing : close ≠ .newline) :
    Carries us c.groups c (names close) (names close) :=
  carries_pass fits ahead opening fun behind => carries_remaining fun _ le =>
    carried_namesFrom closing (Nat.succ_le_succ le) c.step behind

theorem peek?_of_ident {x : String} {d : Cursor} (run : ident c = .ok (x, d)) :
    d.peek? = c.peekAt? 1 := by
  have step : d = c.step := by
    rw [ident, peek?_bind_run] at run
    cases ahead : c.peek? with
    | none =>
      rw [ahead] at run
      cases run
    | some t =>
      rw [ahead] at run
      cases t <;> cases run
      rfl
  subst step
  obtain ⟨rest, gs⟩ := c
  cases rest with
  | nil => rfl
  | cons w ws =>
    show ws.head?.map _ = (w :: ws)[1]?.map _
    rw [List.head?_eq_getElem?, List.getElem?_cons_succ]

/-- No function has the end of a line in front of its name. -/
theorem name_of_outputs {f : List String → String → Parser β} {b : β} {d : Cursor}
    (run : (do let xs ← outputs; let x ← ident; f xs x) c = .ok (b, d)) :
    c.peek? ≠ some .newline := by
  intro newline
  have stuck : ∀ {γ : Type} (g : String → Parser γ) (r : γ × Cursor), (ident >>= g) c ≠ .ok r := by
    intro γ g r run
    obtain ⟨x, e, first, -⟩ := exists_of_bind_run (b := r.1) (e := r.2) run
    rw [ident, peek?_bind_run, newline] at first
    cases first
  obtain ⟨xs, e, first, later⟩ := exists_of_bind_run run
  rw [outputs, isAt_bind_run, newline] at first
  have first : (if c.peekAt? 1 == some .equals then (do let x ← ident; advance; return [x])
      else (pure [] : Parser (List String))) c = .ok (xs, e) := first
  split at first
  · exact stuck _ _ first
  · cases first
    exact stuck _ _ later

/-- The outputs of a function are told by the second token ahead, which the line still holds. -/
theorem carries_outputs (fits : c.Fits us) (other : c.peek? ≠ some .newline) :
    Carries us c.groups c outputs outputs := by
  refine carries_isAt fits .leftBracket (carries_ite (fun bracket => ?_) fun _ => ?_)
  · refine (carries_names fits (beq_iff_eq.mp bracket) (by rintro ⟨⟩) (by rintro ⟨⟩)).bind fits
      fun xs d _ _ groups behind => ?_
    rw [← groups]
    exact ((carried_expect (by rintro ⟨⟩)).bind fun _ => carried_pure xs) d behind
  · refine carries_get ?_
    rw [Fits.peekAt? (fits.one_lt other)]
    refine carries_ite (fun equals => ?_) fun _ => carries_pure fits _
    refine (carried_ident c fits).bind fits fun x d run _ groups behind => ?_
    rw [← groups]
    have ahead : d.peek? = some .equals := by
      rw [← beq_iff_eq.mp equals]
      exact peek?_of_ident run
    exact carries_pass behind ahead (by rintro ⟨⟩) fun fits' => carries_pure fits' _

theorem carried_params : Carried us params params := by
  intro c fits
  refine carries_isAt fits .leftParen (carries_ite (fun paren => ?_) fun _ => carries_pure fits _)
  exact carries_names fits (beq_iff_eq.mp paren) (by rintro ⟨⟩) (by rintro ⟨⟩)

/-- What stands in front of a function's body. -/
structure Heading where
  outputs : List String
  name : String
  params : List String

/-- The function of a heading and a body. -/
def Heading.function (h : Heading) (body : List Statement) : Function :=
  ⟨h.name, h.outputs, h.params, body⟩

/-- The front of a function, up to its body. -/
def heading : Parser Heading := do
  expect .function
  let outputs ← outputs
  let name ← ident
  let params ← params
  return ⟨outputs, name, params⟩

/-- The front of a function behind its keyword. -/
def signature : Parser Heading := do
  let outputs ← outputs
  let name ← ident
  let params ← params
  return ⟨outputs, name, params⟩

theorem carried_signature : Carried us signature signature := by
  intro c fits b e run
  refine ((carries_outputs fits (name_of_outputs run)).bind fits fun xs d _ _ groups fits' => ?_)
    b e run
  rw [← groups]
  exact (carried_ident.bind fun x => carried_params.bind fun ps =>
    carried_pure (Heading.mk xs x ps)) d fits'

theorem carried_heading : Carried us heading heading :=
  (carried_expect (by rintro ⟨⟩)).bind fun _ => carried_signature

theorem function_eq : function = do
    let h ← heading
    let body ← sequence stopsBody statement
    if ← isAt .last then advance
    return h.function body := by
  simp only [function, heading, Heading.function, bind_assoc, pure_bind]

/-- A function definition that is closed by `end`. -/
def closedFunction : Parser Function := do
  expect .function
  let outputs ← outputs
  let name ← ident
  let params ← params
  let body ← sequence stopsBody statement
  expect .last
  return ⟨name, outputs, params, body⟩

/-- What stands at the top level, with functions closed. -/
def closedItem : Parser Item := do
  if ← isAt .function then return .function (← closedFunction)
  else return .statement (← statement)

/-- A whole program in which every function is closed. -/
def closedProgram : Parser Program := sequence (fun _ => false) closedItem

theorem closedFunction_eq : closedFunction = do
    let h ← heading
    let body ← sequence stopsBody statement
    expect .last
    return h.function body := by
  simp only [closedFunction, heading, Heading.function, bind_assoc, pure_bind]

/-- The front of a function and its body, whatever is made of them in front of its end. -/
theorem carried_body {k k' : Heading → List Statement → Parser β}
    (ending : ∀ h body d b e, k h body d = .ok (b, e) →
      (us = [] ∨ d.rest ≠ []) ∧ (d.Fits us → Carries us d.groups d (k h body) (k' h body))) :
    Carried us (do let h ← heading; let body ← sequence stopsBody statement; k h body)
      (do let h ← heading; let body ← sequence stopsBody statement; k' h body) := by
  refine carried_heading.bind fun h c fits b e run => ?_
  obtain ⟨body, d, first, later⟩ := exists_of_bind_run run
  obtain ⟨some, carries⟩ := ending h body d b e later
  have rounds := rounds_of_sequenceFrom (n := c.rest.length + 1) first
  have enough := lasts_length stopsBody c
  have le : c.rest.length ≤ (c.followedBy us).rest.length := by
    rw [Cursor.length_followedBy]
    exact Nat.le_add_right _ _
  obtain ⟨part, groups, same⟩ := rounds.carried carried_statement (Nat.succ_le_succ le) fits enough
  have fits' := fits.of_suffix part fun filled => some.resolve_left filled
  obtain ⟨part', groups', left, same'⟩ := carries fits' b e later
  refine ⟨part'.trans part, groups'.trans groups, left, ?_⟩
  have first' : sequence stopsBody statement (c.followedBy us) = .ok (body, d.followedBy us) :=
    (same some).sequenceFrom_eq
  show (sequence stopsBody statement >>= k' h) (c.followedBy us) = _
  rw [bind_run first']
  exact same'

/-- What a function that is closed is read as, it is read as in front of more tokens. -/
theorem carried_closedFunction : Carried us closedFunction function := by
  rw [closedFunction_eq, function_eq]
  refine carried_body fun h body d f e run => ?_
  obtain ⟨_, d', first, -⟩ := exists_of_bind_run run
  have ahead : d.peek? = some .last := by
    rw [expect, isAt_bind_run] at first
    split at first
    case isTrue last => exact beq_iff_eq.mp last
    case isFalse => cases first
  refine ⟨.inr (ne_nil_of_peek? ahead), fun fits => ?_⟩
  rw [expect, bind_assoc]
  refine carries_isAt fits .last ?_
  rw [ahead, beq_self_eq_true, if_pos rfl, if_pos rfl]
  exact carries_pass fits ahead (by rintro ⟨⟩) fun behind => carries_pure behind _

/-- Larger bounds change nothing about a function. -/
theorem carried_function : Carried [] function function := by
  rw [function_eq]
  refine carried_body fun h body d f e run => ⟨.inl rfl, fun fits => ?_⟩
  refine carries_isAt fits .last (carries_ite (fun last => ?_) fun _ => carries_pure fits _)
  exact carries_pass fits (beq_iff_eq.mp last) (by rintro ⟨⟩) fun behind => carries_pure behind _

theorem carried_closedItem : Carried us closedItem item := by
  intro c fits
  refine carries_isAt fits .function (carries_ite (fun _ => ?_) fun _ => ?_)
  · exact (carried_closedFunction.bind fun f => carried_pure (Item.function f)) c fits
  · exact (carried_statement.bind fun s => carried_pure (Item.statement s)) c fits

theorem carried_item : Carried [] item item := by
  intro c fits
  refine carries_isAt fits .function (carries_ite (fun _ => ?_) fun _ => ?_)
  · exact (carried_function.bind fun f => carried_pure (Item.function f)) c fits
  · exact (carried_statement.bind fun s => carried_pure (Item.statement s)) c fits

/-! ## Programs -/

/-- A closed program is read alike without looking for the ends of its functions. -/
theorem program_of_closedProgram {ts : List Spanned} {p : Program} {d : Cursor}
    (run : closedProgram (Cursor.start ts) = .ok (p, d)) : program (Cursor.start ts) = .ok (p, d) := by
  have rounds := rounds_of_sequenceFrom (n := ts.length + 1) run
  have carried : Carried [] closedItem item := carried_closedItem
  have same := (rounds.carried carried (Nat.le_refl _) (.inl rfl) (lasts_length _ (Cursor.start ts))).2.2 (.inl rfl)
  rw [Cursor.followedBy_nil, Cursor.followedBy_nil] at same
  exact same.sequenceFrom_eq

/-- What the tokens are read as, or what is wrong with them, with any bound that is large enough. -/
def Answers (us : List Spanned) (r : Except Error (Program × Cursor)) : Prop :=
  ∀ k, us.length < k → sequenceFrom (fun _ => false) item k (Cursor.start us) = r

theorem Answers.program {r : Except Error (Program × Cursor)} (h : Answers us r) :
    program (Cursor.start us) = r := h _ (Nat.lt_succ_self _)

theorem answers_of_program {q : Program} {e : Cursor} (run : program (Cursor.start us) = .ok (q, e)) :
    Answers us (.ok (q, e)) := by
  intro k lt
  have rounds := rounds_of_sequenceFrom (n := us.length + 1) run
  have same := (rounds.carried carried_item lt (.inl rfl) (lasts_length _ (Cursor.start us))).2.2 (.inl rfl)
  rw [Cursor.followedBy_nil, Cursor.followedBy_nil] at same
  exact same.sequenceFrom_eq

/-- Behind a closed program other tokens are read as they are alone, or are wrong as they are. -/
theorem Answers.behind {ts : List Spanned} {p : Program} {d : Cursor}
    {r : Except Error (Program × Cursor)} (h : Answers us r) (filled : us ≠ [])
    (ends : (Cursor.start ts).EndsLine) (run : closedProgram (Cursor.start ts) = .ok (p, d)) :
    Answers (ts ++ us) (r.map fun b => (p ++ b.1, b.2)) := by
  intro k lt
  rw [List.length_append] at lt
  have rounds := rounds_of_sequenceFrom (n := ts.length + 1) run
  have short : (Cursor.start ts).skipSeparators.rest.length ≤ ts.length :=
    (skipSeparators_suffix (Cursor.start ts)).length_le
  exact rounds.append carried_closedItem (.inr fun _ => rfl) filled (fun _ => ends) (lasts_length _ (Cursor.start ts))
    (by omega) h

/-- Behind a closed program another one is read as it is alone. -/
theorem exists_program_append {ts : List Spanned} {p q : Program} {d e : Cursor}
    (ends : (Cursor.start ts).EndsLine) (run : closedProgram (Cursor.start ts) = .ok (p, d))
    (run' : program (Cursor.start us) = .ok (q, e)) :
    ∃ e', program (Cursor.start (ts ++ us)) = .ok (p ++ q, e') := by
  by_cases filled : us = []
  case pos =>
    subst filled
    cases run'
    exact ⟨d, by rw [List.append_nil, List.append_nil, program_of_closedProgram run]⟩
  case neg => exact ⟨e, ((answers_of_program run').behind filled ends run).program⟩

end Parser

theorem Token.EndsLine.start {source : String} {ts : List Spanned} (h : Token.EndsLine source ts) :
    (Cursor.start ts).EndsLine := by
  obtain ⟨w, last, newline, -⟩ := h
  show ts.getLast?.map (·.token) = some .newline
  rw [last, Option.map_some, newline]

/-- The tokens are a program in which every function is closed by `end`. -/
def Program.Closed (ts : List Spanned) : Prop :=
  ∃ p d, Parser.closedProgram (Cursor.start ts) = .ok (p, d)

/-- The tokens of two programs, the first of which is closed and ends with its line, are the
one program and then the other. -/
theorem Program.ofTokens_append {ts us : List Spanned} {p q : Program}
    (ends : (Cursor.start ts).EndsLine) (closed : Program.Closed ts)
    (h : Program.ofTokens ts = .ok p) (h' : Program.ofTokens us = .ok q) :
    Program.ofTokens (ts ++ us) = .ok (p ++ q) := by
  obtain ⟨p', d, run⟩ := closed
  unfold Program.ofTokens at h h' ⊢
  rw [Parser.program_of_closedProgram run] at h
  cases h
  cases run' : Parser.program (Cursor.start us) with
  | error =>
    rw [run'] at h'
    cases h'
  | ok r =>
    rw [run'] at h'
    cases h'
    obtain ⟨e', whole⟩ := Parser.exists_program_append ends run run'
    rw [whole]

end MatrixScript
