/-
# `Proofs.Tree.Embeds` — a piece of program that stands where it stood

A piece of program that another tree holds too, under the same numbers and with the same
texts (`Tree.Embeds`).  The items of a program are such a piece of every program that
starts with them (`embeds_append`): the items behind it are numbered behind it, and only
the block around all of them is another node.
-/
import MatrixScript.Proofs.Tree.Layout
import MatrixScript.Proofs.Tree.Twins

namespace MatrixScript.Tree

variable {R : NodeId → NodeId → Prop} {t t' : Tree} {i : NodeId}

/-- Around what stands in the root there is no function. -/
theorem WellFormed.enclosingFunction?_of_top (wf : t.WellFormed) (up : t.parent? i = t.root) :
    t.enclosingFunction? i = none := by
  obtain ⟨root, top, -, block, free⟩ := wf.root
  have none : t.ancestors root = [] := by
    rw [ancestors]
    cases t.size with
    | zero => rfl
    | succ n => rw [ancestorsWithin, free.up]
  have other : ((t.node root).category == .function) = false := by
    rw [show (t.node root).category = .block from block]
    rfl
  rw [Tree.enclosingFunction?, wf.ancestors_of_parent? (up.trans top), none, List.find?_cons, other]
  rfl

/-- The pairs of `R` are nodes of the same number, in the root or in each other. -/
structure Embeds (R : NodeId → NodeId → Prop) (t t' : Tree) : Prop extends t.Twins R t' where
  own : ∀ {i i'}, R i i' → i' = i
  rendered : ∀ {i}, R i i → (t'.node i).rendered = (t.node i).rendered
  above : ∀ {i}, R i i → (∃ p, t.parent? i = some p ∧ t'.parent? i = some p ∧ R p p)
    ∨ t.parent? i = t.root ∧ t'.parent? i = t'.root

namespace Embeds

variable (h : t.Embeds R t')
include h

/-- Lists of pairs are one list. -/
theorem eq_of_forall₂ {ids ids' : List NodeId} (paired : List.Forall₂ R ids ids') :
    ids' = ids ∧ ∀ i ∈ ids, R i i := by
  induction paired with
  | nil => exact ⟨rfl, List.forall_mem_nil _⟩
  | cons first _ ih =>
    obtain rfl := h.own first
    obtain ⟨rfl, rest⟩ := ih
    exact ⟨rfl, List.forall_mem_cons.mpr ⟨first, rest⟩⟩

theorem children_eq (here : R i i) : (t'.node i).children = (t.node i).children :=
  (h.eq_of_forall₂ (h.node here).children).1

theorem child (here : R i i) {c : NodeId} (mem : c ∈ (t.node i).children) : R c c :=
  (h.eq_of_forall₂ (h.node here).children).2 c mem

/-- Only the parent of a node of the piece can be another one. -/
theorem moved (here : R i i) : (t.node i).Moved (t'.node i) := by
  have node := h.node here
  have children := h.children_eq here
  have rendered := h.rendered here
  have category := node.category
  have name := node.name
  have value := node.value
  have typing := node.typing
  have suggest := node.suggest
  have redirect := node.redirect
  unfold Node.Moved
  generalize t'.node i = n' at *
  generalize t.node i = n at *
  cases n
  cases n'
  simp_all only

theorem text_eq (here : R i i) : (t'.node i).text = (t.node i).text := by
  rw [h.moved here]
  rfl

theorem label_eq (here : R i i) : (t'.node i).label = (t.node i).label := by
  rw [h.moved here]
  rfl

/-- Children have the same parent. -/
theorem node_child (wf : t.WellFormed) (wf' : t'.WellFormed) (here : R i i) {c : NodeId}
    (mem : c ∈ (t.node i).children) : t'.node c = t.node c := by
  have up : (t.node c).parent = some i := wf.parent?_of_mem mem
  have up' : (t'.node c).parent = some i :=
    wf'.parent?_of_mem (show c ∈ (t'.node i).children by rwa [h.children_eq here])
  rw [h.moved (h.child here mem), up', ← up]

/-- The function around a node of the piece is in the piece. -/
theorem enclosingFunction? (wf : t.WellFormed) (wf' : t'.WellFormed) (here : R i i) :
    t'.enclosingFunction? i = t.enclosingFunction? i
      ∧ ∀ f, t.enclosingFunction? i = some f → R f f := by
  -- on the way up, the list of ancestors gets shorter
  induction length : (t.ancestors i).length using Nat.strong_induction_on generalizing i with
  | _ n ih =>
    rcases h.above here with ⟨p, up, up', above⟩ | ⟨up, up'⟩
    case inr =>
      rw [wf.enclosingFunction?_of_top up, wf'.enclosingFunction?_of_top up']
      exact ⟨rfl, by rintro _ ⟨⟩⟩
    case inl =>
      have shorter : (t.ancestors p).length < n := by
        rw [← length, wf.ancestors_of_parent? up]
        exact Nat.lt_succ_self _
      have rest := ih _ shorter above rfl
      rw [Tree.enclosingFunction?, Tree.enclosingFunction?, wf.ancestors_of_parent? up,
        wf'.ancestors_of_parent? up', List.find?_cons, List.find?_cons, (h.node above).category]
      split
      · exact ⟨rfl, fun f eq => Option.some.inj eq ▸ above⟩
      · exact rest

end Embeds

/-! ## A program and what follows it -/

/-- The nodes of the items of a program, each with itself. -/
def Front (p : Program) (i i' : NodeId) : Prop := i' = i ∧ i < (forest p).size

variable {p q : Program}

theorem node_front {i : NodeId} (lt : i < (forest p).size) :
    (ofProgram (p ++ q)).node i = if i ∈ tops p
      then { (forest p).node i with parent := some (forest (p ++ q)).size } else (forest p).node i := by
  have whole : i < (forest (p ++ q)).size := by
    rw [forest_append, size_append]
    exact Nat.lt_of_lt_of_le lt (Nat.le_add_right ..)
  have mem : i ∈ tops (p ++ q) ↔ i ∈ tops p := by
    rw [tops_append, List.mem_append, or_iff_left]
    intro behind
    obtain ⟨j, -, rfl⟩ := List.mem_map.mp behind
    exact Nat.not_lt.mpr (Nat.le_add_left ..) lt
  rw [node_ofProgram whole, if_congr mem rfl rfl]
  rw [forest_append, node_append_left _ lt]

/-- The items of a program stand where they stood when others follow them. -/
theorem embeds_append (h : Program.Accepted (p ++ q)) :
    (ofProgram p).Embeds (Front p) (ofProgram (p ++ q)) := by
  have first : p.Accepted := fun i mem => h i (List.mem_append_left q mem)
  have forest := forest_forest first
  have wf := wellFormed_ofProgram first
  have wf' := wellFormed_ofProgram h
  have moved : ∀ i < (Tree.forest p).size,
      ((ofProgram p).node i).Moved ((ofProgram (p ++ q)).node i) := by
    intro i lt
    rw [node_front lt, node_ofProgram lt]
    split
    · rfl
    · rfl
  have children : ∀ i < (Tree.forest p).size, ∀ c ∈ ((ofProgram p).node i).children,
      c < (Tree.forest p).size := by
    intro i lt c mem
    refine forest.bound i c ?_
    rw [node_ofProgram lt] at mem
    split at mem
    · exact mem
    · exact mem
  have above : ∀ i < (Tree.forest p).size,
      (∃ u, (ofProgram p).parent? i = some u ∧ (ofProgram (p ++ q)).parent? i = some u
        ∧ Front p u u)
      ∨ (ofProgram p).parent? i = (ofProgram p).root
        ∧ (ofProgram (p ++ q)).parent? i = (ofProgram (p ++ q)).root := by
    intro i lt
    rw [Tree.parent?, Tree.parent?, node_front lt, node_ofProgram lt]
    by_cases top : i ∈ tops p
    · rw [if_pos top, if_pos top]
      exact .inr ⟨rfl, rfl⟩
    · rw [if_neg top, if_neg top]
      obtain ⟨u, held⟩ := forest.held i lt top
      exact .inl ⟨u, held.up, held.up, rfl, held.bound⟩
  refine ⟨⟨?_, ?_, ?_⟩, fun pair => pair.1, ?_, fun pair => above _ pair.2⟩
  case refine_1 =>
    rintro _ i ⟨rfl, lt⟩
    rw [moved i lt]
    exact ⟨rfl, rfl, rfl, List.forall₂_same.mpr fun c mem => ⟨rfl, children i lt c mem⟩, rfl, rfl, rfl⟩
  case refine_2 =>
    rintro _ i _ j ⟨rfl, -⟩ ⟨rfl, -⟩
    exact Iff.rfl
  case refine_3 =>
    rintro _ i ⟨rfl, lt⟩
    rcases above i lt with ⟨u, up, up', pair⟩ | ⟨up, up'⟩
    · exact ⟨u, u, up, up', .inside pair⟩
    · obtain ⟨root, top, -, block, -⟩ := wf.root
      obtain ⟨root', top', -, block', -⟩ := wf'.root
      exact ⟨root, root', up.trans top, up'.trans top', .outside (.block block) (.block block')⟩
  case refine_4 =>
    rintro i ⟨-, lt⟩
    rw [moved i lt]

end MatrixScript.Tree
