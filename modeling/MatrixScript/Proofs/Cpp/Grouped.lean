/-
# `Proofs.Cpp.Grouped` — groupings of texts that are put together

What an operand or an operator is does not depend on what stands in front of it, so a text
that is put together is read piece by piece (`Scan.run_append`, `Scan.run_after`).
Operators are then grouped as they stand.  The operator between two expressions has all of
both as its operands exactly if it is not tighter than the left one, looser than the right
one and no part of a longer token (`group?_binary_iff`).  A minus in front of an expression
has all of it exactly if no operator stands in it (`group?_minus_iff`).

The proof keeps the grouping apart from the scanning: every grouping that is scanned has
operands as tight as its operators need (`Grouped`), so an operator that has both texts
whole must be as loose as that, and one that is finds its operands (`Scan.joined_append`).
-/
import MatrixScript.Proofs.Cpp.Grouping

namespace MatrixScript.Cpp

/-! ## Levels -/

namespace Grouping

/-- Every operator stands above operands that it can take. -/
inductive Grouped : Grouping → Prop
  | operand {parts : List String} : Grouped (.operand parts)
  | sign {c : Char} {e : Grouping} : Grouped e → 8 ≤ e.level → Grouped (.sign c e)
  | binary {op : Operator} {left right : Grouping} : Grouped left → op.level ≤ left.level →
      Grouped right → op.level < right.level → Grouped (.binary op left right)

variable {e x : Grouping} {op : Operator}

theorem operand_of_level (h : e.level = 9) : ∃ parts, e = .operand parts := by
  cases e with
  | operand parts => exact ⟨parts, rfl⟩
  | sign => cases h
  | binary op => exact absurd h (Nat.ne_of_lt (Nat.lt_succ_of_lt op.level_lt))

theorem level_le (e : Grouping) : e.level ≤ 9 := by
  cases e with
  | operand => exact Nat.le_refl 9
  | sign => exact Nat.le_succ 8
  | binary op => exact Nat.le_of_lt (Nat.lt_succ_of_lt op.level_lt)

theorem attach_of_le (le : op.level ≤ e.level) : e.attach op x = .binary op e x := by
  cases e with
  | binary o left right => exact if_neg (Nat.not_lt.mpr le)
  | _ => rfl

theorem level_attach : (e.attach op x).level = min e.level op.level := by
  have lt := op.level_lt
  cases e with
  | binary o left right =>
    rw [attach]
    split
    case isTrue looser => exact (Nat.min_eq_left (Nat.le_of_lt looser)).symm
    case isFalse tighter => exact (Nat.min_eq_right (Nat.not_lt.mp tighter)).symm
  | sign => exact (Nat.min_eq_right (Nat.le_of_lt lt)).symm
  | operand => exact (Nat.min_eq_right (Nat.le_succ_of_le (Nat.le_of_lt lt))).symm

theorem Grouped.attach (he : e.Grouped) (hx : x.Grouped) (tight : 8 ≤ x.level) :
    (e.attach op x).Grouped := by
  have lt : op.level < x.level := Nat.lt_of_lt_of_le op.level_lt tight
  induction he with
  | operand => exact .binary .operand (Nat.le_succ_of_le (Nat.le_of_lt op.level_lt)) hx lt
  | sign he low _ => exact .binary (.sign he low) (Nat.le_of_lt op.level_lt) hx lt
  | @binary o left right hl le hr lt' _ ih =>
    rw [Grouping.attach]
    split
    case isTrue looser =>
      refine .binary hl le ih ?_
      rw [level_attach]
      exact Nat.lt_min.mpr ⟨lt', looser⟩
    case isFalse tighter => exact .binary (.binary hl le hr lt') (Nat.not_lt.mp tighter) hx lt

end Grouping

namespace Scan

open Grouping

variable {before : List (Factor × Operator)} {x : Grouping} {op : Operator} {e : Grouping}

theorem grouped_factor (f : Factor) : f.grouping.Grouped ∧ 8 ≤ f.grouping.level := by
  unfold Factor.grouping
  induction f.signs with
  | nil => exact ⟨.operand, Nat.le_succ 8⟩
  | cons c signs ih => exact ⟨.sign ih.1 ih.2, Nat.le_refl 8⟩

theorem grouped_joined {acc : Option (Grouping × Operator)} (h : ∀ p ∈ acc, p.1.Grouped)
    (hx : x.Grouped) (tight : 8 ≤ x.level) : (joined x acc).Grouped := by
  cases acc with
  | none => exact hx
  | some p => exact (h p rfl).attach hx tight

theorem grouped_closed : ∀ p ∈ closed before, p.1.Grouped := by
  induction before with
  | nil => exact nofun
  | cons fo before ih =>
    rintro _ ⟨⟩
    exact grouped_joined ih (grouped_factor _).1 (grouped_factor _).2

theorem grouped_grouping (s : Scan) : s.grouping.Grouped :=
  grouped_joined grouped_closed (grouped_factor _).1 (grouped_factor _).2

/-- A row of operands is as loose as its loosest operator. -/
theorem lt_level_joined {ℓ : Nat} (lt : ℓ < 8) (tight : 8 ≤ x.level) :
    ℓ < (joined x (closed before)).level ↔ ∀ fo ∈ before, ℓ < fo.2.level := by
  induction before generalizing x with
  | nil => exact iff_of_true (Nat.lt_of_lt_of_le lt tight) nofun
  | cons fo before ih =>
    rw [closed, joined, level_attach, Nat.lt_min, ih (grouped_factor _).2, List.forall_mem_cons]
    exact and_comm

/-- Tighter operators than `op` stay behind it. -/
theorem joined_append (f : Factor) {d : List (Factor × Operator)} (hx : 8 ≤ x.level)
    (left : op.level ≤ (joined f.grouping (closed before)).level)
    (right : ∀ fo ∈ d, op.level < fo.2.level) :
    joined x (closed (d ++ (f, op) :: before))
      = .binary op (joined f.grouping (closed before)) (joined x (closed d)) := by
  induction d generalizing x with
  | nil => exact attach_of_le left
  | cons fo d ih =>
    obtain ⟨here, there⟩ := List.forall_mem_cons.mp right
    rw [List.cons_append, closed, joined, ih (grouped_factor _).2 there, attach, if_pos here]
    rfl

/-- The scan behind other operands. -/
def after (s : Scan) (before : List (Factor × Operator)) : Scan :=
  { s with done := s.done ++ before }

/-- The operator between two rows of operands has all of both as its operands exactly if it
is not tighter than the left one and looser than the right one. -/
theorem grouping_after (s t : Scan) (op : Operator) :
    (t.after ((s.factor, op) :: s.done)).grouping = .binary op s.grouping t.grouping
      ↔ op.level ≤ s.grouping.level ∧ op.level < t.grouping.level := by
  constructor
  · intro same
    have grouped := grouped_grouping (t.after ((s.factor, op) :: s.done))
    rw [same] at grouped
    cases grouped with
    | binary _ le _ lt => exact ⟨le, lt⟩
  · rintro ⟨le, lt⟩
    have tight := (grouped_factor t.factor).2
    exact joined_append s.factor tight le ((lt_level_joined op.level_lt tight).mp lt)

/-! ## Reading piece by piece -/

theorem run_append (s : Scan) (a b : List Char) : s.run (a ++ b) = (s.run a).bind (·.run b) := by
  induction a generalizing s with
  | nil => rfl
  | cons c a ih =>
    rw [List.cons_append, run, run]
    cases s.step c with
    | none => rfl
    | some next => exact ih next

section After

variable (s : Scan) (before : List (Factor × Operator)) (c : Char)

theorem ahead_after : (s.after before).ahead c = (s.ahead c).map (·.after before) := by
  unfold ahead
  split_ifs
  · rfl
  · rfl
  · rfl
  · rfl
  · rw [Option.map_map]
    rfl
  · rfl

theorem behind_after : (s.after before).behind c = (s.behind c).map (·.after before) := by
  have complete : (s.after before).complete = s.complete := rfl
  unfold behind
  rw [complete]
  split_ifs
  · rw [Option.map_map]
    rfl
  · rfl
  · rfl
  · rfl
  · rfl
  · rfl

theorem marked_after (d : Char) :
    (s.after before).marked d c = (s.marked d c).map (·.after before) := by
  have close : ∀ op, (s.after before).close op = (s.close op).after before := fun _ => rfl
  unfold marked
  split
  · rfl
  · split
    · split
      · rfl
      · rw [close, ahead_after]
    · rfl

theorem more_after (here : Bool) :
    (s.after before).more here c = (s.more here c).map (·.after before) := by
  unfold more
  split
  · rfl
  · exact behind_after s before c

theorem step_after : (s.after before).step c = (s.step c).map (·.after before) := by
  unfold step
  rw [show (s.after before).stage = s.stage from rfl,
    show (s.after before).factor = s.factor from rfl]
  split
  case h_1 => exact ahead_after s before c
  case h_2 =>
    split
    · rfl
    · exact ahead_after s before c
  case h_3 =>
    split
    · rfl
    · exact more_after s before c _
  case h_4 => exact more_after s before c _
  case h_5 =>
    split
    · rfl
    · split
      · rfl
      · rfl
  case h_6 => exact more_after s before c _
  case h_7 =>
    rw [Option.map_map]
    rfl
  case h_8 => exact behind_after s before c
  case h_9 => exact marked_after s before c _

/-- What stands in front does not matter to what is read behind. -/
theorem run_after (cs : List Char) : (s.after before).run cs = (s.run cs).map (·.after before) := by
  induction cs generalizing s with
  | nil => rfl
  | cons c cs ih =>
    rw [run, run, step_after]
    cases s.step c with
    | none => rfl
    | some next => exact ih next

end After

/-- Behind a complete operand no name, number or member goes on with such a character. -/
theorem step_of_complete {s : Scan} (complete : s.complete) {c : Char}
    (word : Token.isWordRest c = false) (colon : c ≠ ':') (dot : c ≠ '.') :
    s.step c = s.behind c := by
  obtain ⟨done, factor, stage⟩ := s
  unfold step
  cases stage with
  | name =>
    have plain : factor.isScoped = false := by simpa [Scan.complete] using complete
    simp [more, plain, word, colon]
  | number =>
    have plain : factor.takesSign = false := by simpa [Scan.complete] using complete
    simp [more, plain, word, dot]
  | member => simp [more, word]
  | behind => rfl
  | _ => cases complete

theorem isMark_cases {c : Char} (h : isMark c) :
    c ∈ ['|', '&', '<', '>', '+', '-', '*', '/', '%', '=', '!'] := by
  unfold isMark Operator.single? at h
  split at h <;> simp_all

theorem step_mark {s : Scan} (complete : s.complete) {c : Char} (mark : isMark c) :
    s.step c = some { s with stage := .mark c } := by
  have apart : Token.isWordRest c = false ∧ c ≠ ':' ∧ c ≠ '.' ∧ c ≠ '(' ∧ c ≠ '[' ∧ c ≠ ' ' := by
    have known := isMark_cases mark
    simp only [List.mem_cons, List.not_mem_nil, or_false] at known
    rcases known with rfl | rfl | rfl | rfl | rfl | rfl | rfl | rfl | rfl | rfl | rfl <;> decide
  obtain ⟨word, colon, dot, round, square, blank⟩ := apart
  rw [step_of_complete complete word colon dot, behind, if_neg (not_or.mpr ⟨round, square⟩),
    if_neg dot, if_pos complete, if_neg blank, if_pos mark]

theorem step_blank {s : Scan} (complete : s.complete) :
    s.step ' ' = some { s with stage := .behind } := by
  rw [step_of_complete complete rfl (by decide) (by decide), behind, if_neg (by decide),
    if_neg (by decide), if_pos complete, if_pos rfl]

/-- An operand does not start with what makes an operator longer. -/
theorem double?_of_ahead {s t : Scan} {c d : Char} (h : s.ahead c = some t) :
    Operator.double? d c = none := by
  unfold Operator.double?
  split <;> first | rfl | cases h

end Scan

namespace Operator

/-- The text starts with what would make a longer token of the operator. -/
def fusesWith (op : Operator) (text : String) : Bool :=
  text.toList.head?.any fun c => op.symbol.toList.any (fuses · c)

/-- Only a plus and a minus can become longer. -/
theorem fusesWith_eq_false {op : Operator} (plus : op ≠ .add) (minus : op ≠ .sub) (text : String) :
    op.fusesWith text = false := by
  unfold fusesWith
  cases text.toList.head? with
  | none => rfl
  | some c =>
    show op.symbol.toList.any (fuses · c) = false
    cases op with
    | add => exact absurd rfl plus
    | sub => exact absurd rfl minus
    | _ => simp [symbol, fuses]

theorem fusesWith_append {op : Operator} {text : String} (some : text ≠ "") (rest : String) :
    op.fusesWith (text ++ rest) = op.fusesWith text := by
  have filled : text.toList ≠ [] := fun none => some (String.toList_injective none)
  rw [fusesWith, fusesWith, String.toList_append, List.head?_append_of_ne_nil _ filled]

theorem symbol_cases (op : Operator) :
    (∃ d, op.symbol.toList = [d] ∧ isMark d ∧ single? d = some op)
      ∨ ∃ d d', op.symbol.toList = [d, d'] ∧ isMark d ∧ double? d d' = some op := by
  cases op with
  | orOr | andAnd | eq | ne | le | ge => exact .inr ⟨_, _, rfl, rfl, rfl⟩
  | _ => exact .inl ⟨_, rfl, rfl, rfl⟩

end Operator

/-! ## Whole texts -/

/-- The text is read to its end, and an operand is complete there. -/
structure Scans (text : String) (s : Scan) : Prop where
  run : Scan.run {} text.toList = some s
  complete : s.complete

variable {l r text : String} {s t : Scan} {op : Operator} {g : Grouping}

theorem group?_eq_some_iff : group? text = some g ↔ ∃ s, Scans text s ∧ s.grouping = g := by
  unfold group?
  constructor
  · intro h
    split at h
    case h_1 s run =>
      split at h
      case isTrue complete => exact ⟨s, ⟨run, complete⟩, Option.some.inj h⟩
      case isFalse => cases h
    case h_2 => cases h
  · rintro ⟨s, ⟨run, complete⟩, rfl⟩
    rw [run]
    exact if_pos complete

theorem Scans.group? (h : Scans text s) : group? text = some s.grouping :=
  group?_eq_some_iff.mpr ⟨s, h, rfl⟩

theorem Scans.ne_nil (h : Scans text s) : ∃ c cs, text.toList = c :: cs := by
  refine List.exists_cons_of_ne_nil fun none => ?_
  obtain ⟨run, complete⟩ := h
  rw [none] at run
  cases run
  cases complete

/-! ### Two operands -/

/-- Blanks stand behind an operand or in front of one. -/
theorem Scans.blank_right (h : Scans text s) : Scans (text ++ " ") { s with stage := .behind } := by
  refine ⟨?_, rfl⟩
  rw [String.toList_append, Scan.run_append, h.run, Option.bind_some]
  show (s.step ' ').bind _ = _
  rw [Scan.step_blank h.complete]
  rfl

theorem Scans.blank_left (h : Scans text s) : Scans (" " ++ text) s := by
  refine ⟨?_, h.complete⟩
  rw [String.toList_append]
  exact h.run

/-- Two expressions with an operator between them, which is no part of a longer token. -/
theorem Scans.binary (left : Scans l s) (right : Scans r t) (apart : op.fusesWith r = false) :
    Scans (l ++ op.symbol ++ r) (t.after ((s.factor, op) :: s.done)) := by
  refine ⟨?_, right.complete⟩
  obtain ⟨c, cs, letters⟩ := right.ne_nil
  have start := right.run
  rw [letters] at start
  obtain ⟨first, ahead, rest⟩ := Option.bind_eq_some_iff.mp start
  have ahead : Scan.ahead {} c = some first := ahead
  have closed : (s.close op).ahead c = some (first.after ((s.factor, op) :: s.done)) := by
    have moved := Scan.ahead_after {} ((s.factor, op) :: s.done) c
    rw [ahead] at moved
    exact moved
  have rest' := Scan.run_after first ((s.factor, op) :: s.done) cs
  rw [rest] at rest'
  rw [String.toList_append, String.toList_append, List.append_assoc, Scan.run_append, left.run,
    Option.bind_some, letters]
  rcases op.symbol_cases with ⟨d, symbol, mark, single⟩ | ⟨d, d', symbol, mark, double⟩
  · have alone : fuses d c = false := by
      simpa [Operator.fusesWith, letters, symbol] using apart
    have marked : Scan.marked { s with stage := .mark d } d c = (s.close op).ahead c := by
      unfold Scan.marked
      rw [Scan.double?_of_ahead ahead, single, alone]
      rfl
    rw [symbol, List.singleton_append, Scan.run, Scan.step_mark left.complete mark,
      Option.bind_some, Scan.run]
    show (Scan.marked _ d c).bind _ = _
    rw [marked, closed]
    exact rest'
  · have marked : Scan.marked { s with stage := .mark d } d d' = some (s.close op) := by
      unfold Scan.marked
      rw [double]
      rfl
    rw [symbol, List.cons_append, List.singleton_append, Scan.run, Scan.step_mark left.complete mark,
      Option.bind_some, Scan.run]
    show (Scan.marked _ d d').bind _ = _
    rw [marked, Option.bind_some, Scan.run]
    show ((s.close op).ahead c).bind _ = _
    rw [closed]
    exact rest'

/-- A longer token is no operator. -/
theorem Scans.group?_fused (left : Scans l s) (fused : op.fusesWith r) :
    Cpp.group? (l ++ op.symbol ++ r) = none := by
  obtain ⟨c, head, here⟩ := (Option.any_eq_true _ _).mp fused
  obtain ⟨cs, letters⟩ : ∃ cs, r.toList = c :: cs := List.head?_eq_some_iff.mp head
  obtain ⟨d, symbol, mark, alone⟩ : ∃ d, op.symbol.toList = [d] ∧ isMark d ∧ fuses d c := by
    rcases op.symbol_cases with ⟨d, symbol, mark, -⟩ | ⟨d, d', symbol, -, double⟩
    · exact ⟨d, symbol, mark, by simpa [symbol] using here⟩
    · rw [symbol] at here
      unfold Operator.double? at double
      split at double <;> first | cases double; done | simp [fuses] at here
  have marked : Scan.marked { s with stage := .mark d } d c = none := by
    unfold Scan.marked
    split
    case h_1 op' double =>
      unfold Operator.double? at double
      split at double <;> first | cases double; done | cases alone
    case h_2 =>
      split
      · rw [alone]
        rfl
      · rfl
  have run : Scan.run {} (l ++ op.symbol ++ r).toList = none := by
    rw [String.toList_append, String.toList_append, List.append_assoc, Scan.run_append, left.run,
      Option.bind_some, letters, symbol, List.singleton_append, Scan.run,
      Scan.step_mark left.complete mark, Option.bind_some, Scan.run]
    show (Scan.marked _ d c).bind _ = _
    rw [marked]
    rfl
  rw [Cpp.group?, run]

theorem group?_blank_right (h : group? text = some g) : group? (text ++ " ") = some g := by
  obtain ⟨s, scans, rfl⟩ := group?_eq_some_iff.mp h
  exact scans.blank_right.group?

theorem group?_blank_left (h : group? text = some g) : group? (" " ++ text) = some g := by
  obtain ⟨s, scans, rfl⟩ := group?_eq_some_iff.mp h
  exact scans.blank_left.group?

/-- Where an operator has all of both texts as its operands. -/
theorem group?_binary_iff {gl gr : Grouping} (left : group? l = some gl)
    (right : group? r = some gr) :
    group? (l ++ op.symbol ++ r) = some (.binary op gl gr)
      ↔ op.level ≤ gl.level ∧ op.level < gr.level ∧ op.fusesWith r = false := by
  obtain ⟨s, hs, rfl⟩ := group?_eq_some_iff.mp left
  obtain ⟨t, ht, rfl⟩ := group?_eq_some_iff.mp right
  cases fused : op.fusesWith r with
  | true =>
    rw [hs.group?_fused fused]
    exact iff_of_false nofun nofun
  | false =>
    rw [(hs.binary ht fused).group?, Option.some_inj, Scan.grouping_after]
    exact ⟨fun ⟨le, lt⟩ => ⟨le, lt, rfl⟩, fun ⟨le, lt, _⟩ => ⟨le, lt⟩⟩

/-- The same with blanks around the operator, which keep it from becoming longer. -/
theorem group?_spaced_iff {gl gr : Grouping} (left : group? l = some gl)
    (right : group? r = some gr) :
    group? (l ++ " " ++ op.symbol ++ " " ++ r) = some (.binary op gl gr)
      ↔ op.level ≤ gl.level ∧ op.level < gr.level := by
  have blank : op.fusesWith (" " ++ r) = false := by
    rw [Operator.fusesWith, String.toList_append]
    show op.symbol.toList.any (fuses · ' ') = false
    cases op <;> rfl
  rw [String.append_assoc,
    group?_binary_iff (group?_blank_right left) (group?_blank_left right), blank]
  exact ⟨fun ⟨le, lt, _⟩ => ⟨le, lt⟩, fun ⟨le, lt⟩ => ⟨le, lt, rfl⟩⟩

/-! ### Signs -/

namespace Scan

/-- An operand with a sign in front, and no operator. -/
def signed (s : Scan) (c : Char) : Scan :=
  { s with factor := { s.factor with signs := c :: s.factor.signs } }

/-- Operands that are done stay done. -/
theorem length_done_step {c : Char} (h : s.step c = some t) : s.done.length ≤ t.done.length := by
  have moved := step_after { s with done := [] } s.done c
  have same : ({ s with done := [] } : Scan).after s.done = s := rfl
  rw [same, h] at moved
  obtain ⟨u, -, rfl⟩ := Option.map_eq_some_iff.mp moved.symm
  exact List.length_append ▸ Nat.le_add_left ..

theorem length_done_run {cs : List Char} (h : s.run cs = some t) :
    s.done.length ≤ t.done.length := by
  induction cs generalizing s with
  | nil =>
    cases h
    exact Nat.le_refl _
  | cons c cs ih =>
    obtain ⟨u, first, rest⟩ := Option.bind_eq_some_iff.mp h
    exact Nat.le_trans (length_done_step first) (ih rest)

section Signed

variable {c d : Char}

theorem ahead_signed : (s.signed d).ahead c = (s.ahead c).map (·.signed d) := by
  unfold ahead
  split_ifs
  · rfl
  · rfl
  · rfl
  · rfl
  · rw [Option.map_map]
    rfl
  · rfl

theorem behind_signed : (s.signed d).behind c = (s.behind c).map (·.signed d) := by
  have complete : (s.signed d).complete = s.complete := rfl
  unfold behind
  rw [complete]
  split_ifs
  · rw [Option.map_map]
    rfl
  · rfl
  · rfl
  · rfl
  · rfl
  · rfl

theorem put_signed : (s.signed d).put c = (s.put c).signed d := by
  obtain ⟨done, ⟨signs, parts⟩, stage⟩ := s
  cases parts with
  | nil => rfl
  | cons p ps => rfl

theorem more_signed (here : Bool) :
    (s.signed d).more here c = (s.more here c).map (·.signed d) := by
  unfold more
  split
  · rw [put_signed]
    rfl
  · exact behind_signed

/-- Where an operand is done, there is one more than before. -/
theorem lt_length_done_marked {b : Char} (h : s.marked b c = some t) :
    s.done.length < t.done.length := by
  unfold marked at h
  split at h
  case h_1 =>
    cases h
    exact Nat.lt_succ_self _
  case h_2 =>
    split at h
    case h_1 op _ =>
      split at h
      · cases h
      · have step : (s.close op).step c = some t := h
        exact Nat.lt_of_lt_of_le (Nat.lt_succ_self _) (length_done_step step)
    case h_2 => cases h

/-- A sign in front does not matter to the rest of the operand. -/
theorem step_signed (operand : ∀ b, s.stage ≠ .mark b) :
    (s.signed d).step c = (s.step c).map (·.signed d) := by
  unfold step
  rw [show (s.signed d).stage = s.stage from rfl,
    show (s.signed d).factor.isScoped = s.factor.isScoped from rfl,
    show (s.signed d).factor.takesSign = s.factor.takesSign from rfl, put_signed]
  split
  case h_1 => exact ahead_signed
  case h_2 =>
    split
    · rfl
    · exact ahead_signed
  case h_3 =>
    split
    · rfl
    · exact more_signed _
  case h_4 => exact more_signed _
  case h_5 =>
    split
    · rfl
    · split
      · rfl
      · rfl
  case h_6 => exact more_signed _
  case h_7 =>
    rw [Option.map_map]
    rfl
  case h_8 => exact behind_signed
  case h_9 mark => exact absurd mark (operand _)

theorem run_signed {cs : List Char} (h : s.run cs = some t) (same : t.done.length ≤ s.done.length) :
    (s.signed d).run cs = some (t.signed d) := by
  induction cs generalizing s with
  | nil =>
    cases h
    rfl
  | cons c cs ih =>
    obtain ⟨u, first, rest⟩ := Option.bind_eq_some_iff.mp h
    have before := length_done_step first
    have behind := Nat.le_trans (length_done_run rest) same
    have operand : ∀ b, s.stage ≠ .mark b := by
      intro b mark
      have marked : s.marked b c = some u := by rwa [step, mark] at first
      exact absurd (lt_length_done_marked marked) (Nat.not_lt.mpr behind)
    rw [run, step_signed operand, first]
    exact ih rest (Nat.le_trans same before)

end Signed

/-- An expression without operators between operands is an operand with its signs. -/
theorem grouping_of_tight (tight : 8 ≤ s.grouping.level) :
    s.done = [] ∧ s.grouping = s.factor.grouping := by
  have none : s.done = [] := by
    refine List.eq_nil_iff_forall_not_mem.mpr fun fo mem => ?_
    have lt := (lt_level_joined (by decide : 7 < 8) (grouped_factor s.factor).2).mp tight fo mem
    exact absurd fo.2.level_lt (Nat.not_lt.mpr lt)
  refine ⟨none, ?_⟩
  rw [grouping, none]
  rfl

end Scan

/-- A minus in front has all of a text as its operand where there is no operator in it, and
no minus at its start. -/
theorem group?_minus_iff (h : group? text = some g) :
    group? ("-" ++ text) = some (.sign '-' g)
      ↔ 8 ≤ g.level ∧ Operator.sub.fusesWith text = false := by
  obtain ⟨s, scans, rfl⟩ := group?_eq_some_iff.mp h
  obtain ⟨c, cs, letters⟩ := scans.ne_nil
  have start := scans.run
  rw [letters] at start
  obtain ⟨first, ahead, rest⟩ := Option.bind_eq_some_iff.mp start
  have opened : Scan.run {} ("-" ++ text).toList
      = (Scan.step { factor := { signs := ['-'] }, stage := .sign '-' } c).bind (·.run cs) := by
    rw [String.toList_append, letters]
    rfl
  have fused : Operator.sub.fusesWith text = fuses '-' c := by
    simp [Operator.fusesWith, letters, Operator.symbol]
  rw [fused]
  constructor
  · intro signed
    have alone : fuses '-' c = false := by
      refine Bool.eq_false_iff.mpr fun together => ?_
      have stop : Scan.step { factor := { signs := ['-'] }, stage := .sign '-' } c = none :=
        if_pos together
      rw [group?, opened, stop] at signed
      cases signed
    refine ⟨?_, alone⟩
    obtain ⟨t, -, same⟩ := group?_eq_some_iff.mp signed
    have tight : 8 ≤ t.grouping.level := by rw [same]; exact Nat.le_refl 8
    have grouped := Scan.grouped_grouping t
    rw [same] at grouped
    cases grouped with
    | sign _ tight => exact tight
  · rintro ⟨tight, alone⟩
    obtain ⟨none, same⟩ := Scan.grouping_of_tight tight
    have shift : Scan.run {} ("-" ++ text).toList = some (s.signed '-') := by
      have step : Scan.step { factor := { signs := ['-'] }, stage := .sign '-' } c
          = Scan.step (Scan.signed {} '-') c := if_neg (Bool.eq_false_iff.mp alone)
      have run := Scan.run_signed (d := '-') start (by rw [none])
      rw [opened, step]
      exact run
    refine group?_eq_some_iff.mpr ⟨s.signed '-', ⟨shift, scans.complete⟩, ?_⟩
    rw [same]
    show Scan.joined _ (Scan.closed s.done) = _
    rw [none]
    rfl

end MatrixScript.Cpp
