/-
# `Proofs.Rule.Answer` — rules read no more than there is

A rule may fail because the program asks for what has no translation.  It
never fails because it reads past the children of its node, and its effects
are about nodes of the tree (`Answers`).  This holds at every sound site:
the node and its operands are nodes of the tree, and the operands are those
that the node's category admits (`Site.Sound`).  The typing, the texts and the
state may be anything.

The rules follow in the order of their modules.  Most of them answer at every
sound site; those that read operands without counting them first say which
operands they need.
-/
import MatrixScript.Proofs.Tree.WellFormed
import MatrixScript.Rule.Assignment
import MatrixScript.Rule.Definition
import MatrixScript.Rule.Division
import MatrixScript.Rule.Index
import MatrixScript.Rule.Literal

namespace MatrixScript

/-- The effect is about nodes of the tree. -/
def Effect.Within (t : Tree) : Effect → Prop
  | .report node _ _ | .destination node _ | .hoist node _ _ => node < t.size
  | .use _ | .record _ _ | .redirect _ | .tic | .toc => True

/-- An answer that is about nodes of the tree, or a failure of another kind than
reading past the children. -/
def Answers (t : Tree) : Except Error Outcome → Prop
  | .ok o => ∀ e ∈ o.effects, e.Within t
  | .error e => e ≠ .malformedTree

/-- The node and its operands are nodes of the tree, and the operands are those of
its category. -/
structure Site.Sound (s : Site) : Prop where
  self : s.id < s.tree.size
  operand : ∀ o ∈ s.operands, o.id < s.tree.size
  node : ∀ o ∈ s.operands, o.node = s.tree.node o.id
  child : ∀ id, ∀ c ∈ s.tree.children id, c < s.tree.size
  admits : s.node.category.admits (s.operands.map (·.node.category))

namespace Answers

variable {s : Site}

/-- Only the number of nodes matters. -/
theorem of_size {t t' : Tree} (size : t'.size = t.size) {answer : Except Error Outcome}
    (h : Answers t' answer) : Answers t answer := by
  cases answer with
  | error e => exact h
  | ok o =>
    intro e mem
    have within := h e mem
    cases e with
    | report | destination | hoist => exact Nat.lt_of_lt_of_eq within size
    | _ => trivial

theorem keep {t : Tree} {template : Template} {effects : List Effect}
    (h : ∀ e ∈ effects, e.Within t) : Answers t (s.keep template effects) := h

theorem typed {t : Tree} {d : Datatype} {template : Template} {effects : List Effect}
    (h : ∀ e ∈ effects, e.Within t) : Answers t (s.typed d template effects) := h

theorem withTyping {t : Tree} {typing : Typing} {template : Template} {effects : List Effect}
    (h : ∀ e ∈ effects, e.Within t) : Answers t (s.withTyping typing template effects) := h

theorem nothing {t : Tree} : ∀ e ∈ ([] : List Effect), e.Within t := nofun

theorem refuse (h : s.Sound) : Answers s.tree s.refuse := by
  intro e mem
  obtain rfl := List.mem_singleton.mp mem
  exact h.self

/-- One problem at the node itself, if any. -/
theorem report (h : s.Sound) {problem : Problem} {message : String} :
    ∀ e ∈ [Effect.report s.id problem message], e.Within s.tree := by
  intro e mem
  obtain rfl := List.mem_singleton.mp mem
  exact h.self

theorem use {t : Tree} {i : Include} : ∀ e ∈ [Effect.use i], e.Within t := by
  intro e mem
  obtain rfl := List.mem_singleton.mp mem
  trivial

theorem append {t : Tree} {first second : List Effect} (h : ∀ e ∈ first, e.Within t)
    (h' : ∀ e ∈ second, e.Within t) : ∀ e ∈ first ++ second, e.Within t :=
  List.forall_mem_append.mpr ⟨h, h'⟩

end Answers

namespace Rule

open Answers

variable {s : Site}

/-! ## Operators -/

theorem checkNumeric_within (h : s.Sound) (operation : String) :
    ∀ e ∈ checkNumeric operation s, e.Within s.tree := by
  unfold checkNumeric
  split
  · exact report h
  · exact nothing

theorem add_answers (h : s.Sound) : Answers s.tree (add s) := keep (checkNumeric_within h _)

theorem sub_answers (h : s.Sound) : Answers s.tree (sub s) := keep (checkNumeric_within h _)

theorem productShape_within {t : Tree} {operands : List Operand}
    (h : ∀ o ∈ operands, o.id < t.size) (shape : Shape) :
    ∀ e ∈ (productShape shape operands).2, e.Within t := by
  induction operands generalizing shape with
  | nil => exact nothing
  | cons o rest ih =>
    obtain ⟨first, rest⟩ := List.forall_mem_cons.mp h
    unfold productShape
    split
    · exact ih rest _
    · exact List.forall_mem_cons.mpr ⟨first, ih rest _⟩

theorem mul_answers (h : s.Sound) (some : s.operands ≠ []) : Answers s.tree (mul s) := by
  unfold mul
  split
  · exact keep nothing
  · split
    · exact keep (report h)
    · split
      case h_1 none => exact absurd none some
      case h_2 first rest eq =>
        refine typed (productShape_within (fun o mem => h.operand o ?_) _)
        rw [eq]
        exact List.mem_cons_of_mem _ mem

theorem elMul_answers (h : s.Sound) : Answers s.tree (elMul s) := keep (checkNumeric_within h _)

theorem power_answers (some : s.operands ≠ []) : Answers s.tree (power s) := by
  unfold power
  split
  case h_1 none => exact absurd (List.map_eq_nil_iff.mp none) some
  case h_2 => exact keep nothing

theorem comparison_answers (h : s.Sound) (operator : String) :
    Answers s.tree (comparison operator s) := by
  refine keep ?_
  split
  · exact report h
  · exact nothing

theorem logical_answers (operator : String) : Answers s.tree (logical operator s) := keep nothing

theorem neg_answers : Answers s.tree (neg s) := keep nothing

theorem negation_answers (typing : Typing) : Answers s.tree (negation typing s) :=
  withTyping (s := s) nothing

theorem not_answers : Answers s.tree (not s) := negation_answers s.seed

theorem transposed_answers (typing : Typing) (some : s.operands ≠ []) :
    Answers s.tree (transposed typing s) := by
  unfold transposed turned
  split
  · exact withTyping nothing
  · cases operands : s.operands with
    | nil => exact absurd operands some
    | cons o rest => exact typed (s := s) nothing

theorem conjugated_answers (typing : Typing) (some : s.operands ≠ []) :
    Answers s.tree (conjugated typing s) := by
  unfold conjugated turned
  split
  · exact withTyping nothing
  · cases operands : s.operands with
    | nil => exact absurd operands some
    | cons o rest => exact typed (s := s) nothing

theorem paren_answers : Answers s.tree (paren s) := keep nothing

/-! ## Divisions -/

theorem elRightDiv_answers (h : s.Sound) (some : s.operands ≠ []) :
    Answers s.tree (elRightDiv s) := by
  unfold elRightDiv
  split
  case h_1 none => exact absurd none some
  case h_2 => exact withTyping (checkNumeric_within h _)

theorem elLeftDiv_answers (h : s.Sound) (some : s.operands ≠ []) :
    Answers s.tree (elLeftDiv s) := by
  unfold elLeftDiv
  split
  case h_1 none => exact absurd none some
  case h_2 => exact withTyping (checkNumeric_within h _)

theorem quotient_within (h : s.Sound) (operator : String)
    (step : Quotient → Operand → Quotient) (q : Quotient) (operands : List Operand) :
    ∀ e ∈ (quotient s operator step q operands).2, e.Within s.tree := by
  induction operands generalizing q with
  | nil => exact nothing
  | cons o rest ih =>
    unfold quotient
    refine append ?_ (ih _)
    unfold quotientShape
    split
    · exact nothing
    · exact report h

theorem structural_answers (h : s.Sound) (some : s.operands ≠ []) (operator : String)
    (step : Quotient → Operand → Quotient) {scalars : Rule} (hs : Answers s.tree (scalars s)) :
    Answers s.tree (structural operator step scalars s) := by
  unfold structural
  split
  · exact keep nothing
  · split
    · exact hs
    · split
      case h_1 none => exact absurd none some
      case h_2 =>
        exact typed (append (checkNumeric_within h _) (quotient_within h operator step _ _))

/-! ## Ranges, axes, subscripts -/

theorem rangeOfPositions_answers : Answers s.tree (rangeOfPositions s) := by
  unfold rangeOfPositions
  split
  · exact typed nothing
  · exact typed use
  · exact typed nothing

theorem rangeOfValues_answers : Answers s.tree (rangeOfValues s) := by
  unfold rangeOfValues
  split
  · exact typed use
  · split
    · exact typed use
    · exact typed use
  · exact typed nothing

theorem range_answers : Answers s.tree (range s) := by
  unfold range
  split
  · exact rangeOfPositions_answers
  · exact rangeOfValues_answers

theorem all_answers : Answers s.tree (all s) := by
  unfold all
  split
  · exact typed use
  · exact typed nothing

theorem last_answers (h : s.Sound) : Answers s.tree (last s) := by
  unfold last
  split
  · exact keep (report h)
  · split
    · exact typed nothing
    · exact typed (report h)

theorem subscript_answers : Answers s.tree (subscript s) := by
  unfold subscript
  split
  · exact keep nothing
  · split
    · exact typed nothing
    · exact keep nothing

/-! ## Assignments -/

theorem binding_within {t : Tree} (destination : Operand) (d : Datatype) :
    ∀ e ∈ binding destination d, e.Within t := by
  unfold binding
  split
  · intro e mem
    obtain rfl := List.mem_singleton.mp mem
    trivial
  · exact nothing

/-- A reserved destination is a failure of its own kind. -/
theorem checked_answers {t : Tree} {destinations : List Operand}
    {answer : PUnit → Except Error Outcome} (h : Answers t (answer ⟨⟩)) :
    Answers t (checkDestinations destinations >>= answer) := by
  unfold checkDestinations
  split
  · exact nofun
  · exact h

theorem statement_answers : Answers s.tree (statement s) := keep nothing

theorem assign_answers {destination value : Operand} (two : s.operands = [destination, value]) :
    Answers s.tree (assign s) := by
  unfold assign
  rw [two]
  exact checked_answers (keep (binding_within _ _))

theorem splitLast?_append (destinations : List Operand) (value : Operand) :
    splitLast? (destinations ++ [value]) = some (destinations, value) := by
  induction destinations with
  | nil => rfl
  | cons o rest ih =>
    obtain ⟨next, more, eq⟩ : ∃ next more, rest ++ [value] = next :: more :=
      List.exists_cons_of_ne_nil (by simp)
    rw [List.cons_append, eq, splitLast?, ← eq, ih]
    · rfl
    · exact nofun

theorem operands_of_splitLast? : ∀ {operands destinations : List Operand} {value : Operand},
    splitLast? operands = some (destinations, value) → operands = destinations ++ [value]
  | [], _, _, eq => by cases eq
  | [o], _, _, eq => by
    cases eq
    rfl
  | o :: o' :: rest, destinations, value, eq => by
    obtain ⟨⟨ds, v⟩, split, pair⟩ := Option.map_eq_some_iff.mp (show
      (splitLast? (o' :: rest)).map (fun p => (o :: p.1, p.2)) = some (destinations, value) from eq)
    cases pair
    exact congrArg (o :: ·) (operands_of_splitLast? split)

theorem assigns_answers (h : s.Sound) {destinations : List Operand} {value : Operand}
    (eq : s.operands = destinations ++ [value]) : Answers s.tree (assigns s) := by
  unfold assigns
  rw [eq, splitLast?_append]
  refine checked_answers ?_
  dsimp only
  split
  · exact keep nothing
  · exact keep (report h)

/-! ## Definitions -/

theorem function_answers {params returns block : Operand}
    (three : s.operands = [params, returns, block]) : Answers s.tree (function s) := by
  unfold function
  rw [three]
  dsimp only
  split
  · exact keep nothing
  · exact keep nothing

theorem names_answers : Answers s.tree (names s) := keep nothing

theorem ret_answers : Answers s.tree (ret s) := by
  unfold ret
  split
  · exact keep nothing
  · exact keep nothing

theorem brk_answers : Answers s.tree (brk s) := keep nothing

/-! ## Literals -/

theorem int_answers : Answers s.tree (int s) := typed nothing

theorem float_answers : Answers s.tree (float s) := typed nothing

theorem imag_answers : Answers s.tree (imag s) := typed nothing

theorem string_answers : Answers s.tree (string s) := typed nothing

theorem var_answers : Answers s.tree (var s) := by
  unfold var
  split
  · exact typed nothing
  · exact keep nothing

theorem row_answers : Answers s.tree (row s) := by
  unfold row
  split
  · exact keep nothing
  · exact withTyping nothing
  · dsimp only
    split
    · exact typed nothing
    · split
      · exact typed nothing
      · exact keep nothing

theorem plainMatrix_answers (h : s.Sound) (some : s.operands ≠ []) (d : Datatype) :
    Answers s.tree (plainMatrix d s) := by
  unfold plainMatrix
  split
  case h_1 none => exact absurd none some
  case h_2 =>
    split
    · exact typed nothing
    · exact typed nothing
  case h_3 =>
    split
    · exact typed nothing
    · refine typed ?_
      split
      · exact report h
      · exact nothing

theorem stackedMatrix_answers (some : s.operands ≠ []) (d : Datatype) :
    Answers s.tree (stackedMatrix d s) := by
  unfold stackedMatrix
  split
  case h_1 none => exact absurd none some
  case h_2 => exact withTyping nothing

theorem matrix_answers (h : s.Sound) : Answers s.tree (matrix s) := by
  unfold matrix
  dsimp only
  split
  case isTrue => exact keep nothing
  case isFalse filled =>
    have some : s.operands ≠ [] := by simpa using filled
    split
    · exact typed nothing
    · split
      · split
        · exact plainMatrix_answers h some _
        · exact keep nothing
      · exact stackedMatrix_answers some _

end Rule

end MatrixScript
