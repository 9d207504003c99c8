/-
# `Proofs.Tree.Twins` — the same piece of program in two trees

A relation `R` between the nodes of two trees pairs the nodes of a piece of program
that both of them hold (`Tree.Twins`): paired nodes say the same and have paired
children, no node is paired twice, and what is around a paired node is paired too,
or is a statement list or a function definition.  Where the piece stands in its tree,
what else is there and how the nodes are numbered is left open.

Everything that a rule sees around a node is then the same for both: its place among
its siblings, the kind of its parent, and the group that it belongs to.
-/
import Mathlib.Data.List.Forall2
import MatrixScript.Proofs.Translation.Bare
import MatrixScript.Proofs.Tree.WellFormed
import MatrixScript.Proofs.Tree.Forest

namespace MatrixScript

/-- Nodes that say the same and are typed alike, over children that `R` pairs. -/
structure Node.Twin (R : NodeId → NodeId → Prop) (n n' : Node) : Prop where
  category : n'.category = n.category
  name : n'.name = n.name
  value : n'.value = n.value
  children : List.Forall₂ R n.children n'.children
  typing : n'.typing = n.typing
  suggest : n'.suggest = n.suggest
  redirect : n'.redirect = n.redirect

namespace Node.Twin

variable {R : NodeId → NodeId → Prop} {n n' : Node} (h : n.Twin R n')
include h

theorem datatype : n'.datatype = n.datatype := congrArg Typing.datatype h.typing

theorem shape : n'.shape = n.shape := congrArg (·.datatype.shape) h.typing

theorem cls : n'.cls = n.cls := congrArg (·.datatype.cls) h.typing

theorem numeric : n'.numeric = n.numeric := congrArg Typing.numeric h.typing

theorem intValue? : n'.intValue? = n.intValue? := by
  unfold Node.intValue?
  rw [h.category, h.value]

theorem isInt (v : Int) : n'.isInt v = n.isInt v := by rw [Node.isInt, h.intValue?, Node.isInt]

theorem isEmpty_children : n'.children.isEmpty = n.children.isEmpty := by
  have children := h.children
  cases eq : n.children <;> cases eq' : n'.children <;> rw [eq, eq'] at children <;>
    first | rfl | cases children

theorem length_children : n'.children.length = n.children.length := h.children.length_eq.symm

end Node.Twin

namespace Tree

variable {R : NodeId → NodeId → Prop} {t t' : Tree} {i i' : NodeId}

/-- A statement list, or a function definition in one. -/
inductive Crown (t : Tree) (p : NodeId) : Category → Prop
  | block : t.category p = .block → Crown t p .block
  | function {q : NodeId} : t.category p = .function → t.parent? p = some q →
      t.category q = .block → Crown t p .function

/-- Both nodes are paired, or both stand above the piece, as a statement list or a function. -/
inductive Beside (R : NodeId → NodeId → Prop) (t t' : Tree) (p p' : NodeId) : Prop
  | inside : R p p' → Beside R t t' p p'
  | outside {c : Category} : t.Crown p c → t'.Crown p' c → Beside R t t' p p'

/-- The pairs of `R` are the nodes of the same piece of program. -/
structure Twins (R : NodeId → NodeId → Prop) (t t' : Tree) : Prop where
  node : ∀ {i i'}, R i i' → (t.node i).Twin R (t'.node i')
  unique : ∀ {i i' j j'}, R i i' → R j j' → (i' = j' ↔ i = j)
  around : ∀ {i i'}, R i i' → ∃ p p', t.parent? i = some p ∧ t'.parent? i' = some p'
    ∧ Beside R t t' p p'

theorem Crown.category {p : NodeId} {c : Category} (h : t.Crown p c) : t.category p = c := by
  cases h with
  | block kind => exact kind
  | function kind _ _ => exact kind

theorem Crown.of_bare {p : NodeId} {c : Category} (same : t'.bare = t.bare) (h : t.Crown p c) :
    t'.Crown p c := by
  cases h with
  | block kind => exact .block (by rwa [category_of_bare same])
  | function kind up kind' =>
    exact .function (by rwa [category_of_bare same]) (by rwa [parent?_of_bare same])
      (by rwa [category_of_bare same])

theorem Beside.category (twins : t.Twins R t') {p p' : NodeId} (h : Beside R t t' p p') :
    t'.category p' = t.category p := by
  cases h with
  | inside pair => exact (twins.node pair).category
  | outside crown crown' => exact crown'.category.trans crown.category.symm

/-- What is beside a pair but no part of the piece is no part of an expression. -/
theorem Beside.of_category {p p' : NodeId} (h : Beside R t t' p p')
    (block : t.category p ≠ .block) (function : t.category p ≠ .function) : R p p' := by
  cases h with
  | inside pair => exact pair
  | outside crown _ =>
    cases crown with
    | block kind => exact absurd kind block
    | function kind _ _ => exact absurd kind function

namespace Twins

section

variable (h : t.Twins R t')
include h

theorem children (pair : R i i') : List.Forall₂ R (t.children i) (t'.children i') :=
  (h.node pair).children

/-- A pair has the same place among paired siblings. -/
theorem findIdx?_eq (pair : R i i') {ids ids' : List NodeId} (paired : List.Forall₂ R ids ids') :
    ids'.findIdx? (· == i') = ids.findIdx? (· == i) := by
  induction paired with
  | nil => rfl
  | @cons j j' ids ids' first _ ih =>
    have here : (j' == i') = (j == i) := by
      rw [Bool.eq_iff_iff, beq_iff_eq, beq_iff_eq]
      exact h.unique first pair
    rw [List.findIdx?_cons, List.findIdx?_cons, here, ih]

/-- A pair below paired parents has the same place there. -/
theorem position? (pair : R i i') {p p' : NodeId} (up : t.parent? i = some p)
    (up' : t'.parent? i' = some p') (above : R p p') : t'.position? i' = t.position? i := by
  rw [Tree.position?, up', Tree.position?, up]
  exact h.findIdx?_eq pair (h.children above)

theorem parentCategory? (pair : R i i') :
    (t'.parent? i').map t'.category = (t.parent? i).map t.category := by
  obtain ⟨p, p', up, up', beside⟩ := h.around pair
  rw [up, up', Option.map_some, Option.map_some, beside.category h]

/-- The groups of a pair are beside each other. -/
theorem exists_groups (wf : t.WellFormed) (wf' : t'.WellFormed) (pair : R i i') :
    ∃ g g', t.group? i = some g ∧ t'.group? i' = some g' ∧ Beside R t t' g g' := by
  -- on the way up, the list of ancestors gets shorter
  induction length : (t.ancestors i).length using Nat.strong_induction_on generalizing i i' with
  | _ n ih =>
    obtain ⟨p, p', up, up', beside⟩ := h.around pair
    have shorter : (t.ancestors p).length < n := by
      rw [← length, wf.ancestors_of_parent? up]
      exact Nat.lt_succ_self _
    rw [wf.group?_of_parent? up, wf'.group?_of_parent? up', beside.category h]
    cases inner : isInner (t.category p) with
    | false => exact ⟨p, p', rfl, rfl, beside⟩
    | true =>
      have above : R p p' := by
        refine beside.of_category ?_ ?_
        · rintro kind
          rw [kind] at inner
          cases inner
        · rintro kind
          rw [kind] at inner
          cases inner
      exact ih _ shorter above rfl

end

/-! ## Filling in -/

/-- What is around the nodes is no matter of what is filled in. -/
theorem of_bare (h : t.Twins R t') {u u' : Tree}
    (node : ∀ {i i'}, R i i' → (u.node i).Twin R (u'.node i')) (same : u.bare = t.bare)
    (same' : u'.bare = t'.bare) : u.Twins R u' := by
  refine ⟨node, h.unique, fun pair => ?_⟩
  obtain ⟨p, p', up, up', beside⟩ := h.around pair
  refine ⟨p, p', by rwa [parent?_of_bare same], by rwa [parent?_of_bare same'], ?_⟩
  cases beside with
  | inside above => exact .inside above
  | outside crown crown' => exact .outside (crown.of_bare same) (crown'.of_bare same')

/-- Both nodes of a pair are changed in the same way. -/
theorem modify (h : t.Twins R t') (pair : R i i') {f f' : Node → Node}
    (bare : ∀ n, (f n).bare = n.bare) (bare' : ∀ n, (f' n).bare = n.bare)
    (step : (f (t.node i)).Twin R (f' (t'.node i'))) :
    (t.modify i f).Twins R (t'.modify i' f') := by
  refine h.of_bare (fun {j j'} pair' => ?_) (bare_modify bare t i) (bare_modify bare' t' i')
  rw [node_modify, node_modify]
  by_cases here : j = i
  case neg =>
    have here' : ¬j' = i' := fun eq => here ((h.unique pair' pair).mp eq)
    rw [if_neg fun both => here both.1, if_neg fun both => here' both.1]
    exact h.node pair'
  case pos =>
    obtain rfl := here
    obtain rfl := (h.unique pair' pair).mpr rfl
    have lt : j < t.size := by
      obtain ⟨p, _, up, _⟩ := h.around pair'
      exact lt_size_of_parent? up
    have lt' : j' < t'.size := by
      obtain ⟨_, p', _, up', _⟩ := h.around pair'
      exact lt_size_of_parent? up'
    rw [if_pos ⟨rfl, lt⟩, if_pos ⟨rfl, lt'⟩]
    exact step

end Twins

end Tree

end MatrixScript
