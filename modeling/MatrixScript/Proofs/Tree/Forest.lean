/-
# `Proofs.Tree.Forest` — trees while they grow

While a program is numbered its nodes form a forest: the nodes that nothing
holds yet, the roots, stand side by side, and every other node is held once
and below one of them (`Tree.Forest`).  Both ways of linking nodes take
parentless nodes and put them below a root (`Tree.Attaches`): a new node takes
its children at once, and a root adopts one child at a time.  So both keep the
forest by one argument, and adoption cannot close a cycle, since a root takes
nothing but other roots.

`Tree.Growing` adds that every node has the shape of its category, and lists
the categories of the roots.
-/
import MatrixScript.Proofs.Tree.WellFormed

namespace MatrixScript

namespace Tree

variable {t t' : Tree}

/-! ## Nodes after a change -/

theorem node_modify_self {id : NodeId} (lt : id < t.size) (f : Node → Node) :
    (t.modify id f).node id = f (t.node id) := by
  have there : t.nodes[id]? = some t.nodes[id] := Array.getElem?_eq_getElem lt
  simp [node_eq_getD, modify, Array.getElem?_modify, there]

theorem node_modify_of_ne {id other : NodeId} (ne : other ≠ id) (f : Node → Node) :
    (t.modify id f).node other = t.node other := by
  simp [node_eq_getD, modify, Array.getElem?_modify, ne.symm]

theorem node_modify (t : Tree) (id : NodeId) (f : Node → Node) (i : NodeId) :
    (t.modify id f).node i = if i = id ∧ i < t.size then f (t.node i) else t.node i := by
  by_cases eq : i = id
  case neg => rw [node_modify_of_ne eq, if_neg fun both => eq both.1]
  case pos =>
    subst eq
    by_cases lt : i < t.size
    case pos => rw [node_modify_self lt, if_pos ⟨rfl, lt⟩]
    case neg =>
      have outside : (t.modify i f).size ≤ i := by
        rw [size_modify]
        exact Nat.le_of_not_lt lt
      rw [node_of_size_le outside, node_of_size_le (Nat.le_of_not_lt lt), if_neg fun both => lt both.2]

/-- What a change of one node leaves, it leaves everywhere. -/
theorem field_modify {β : Type} (field : Node → β) {f : Node → Node}
    (kept : ∀ n, field (f n) = field n) (t : Tree) (id i : NodeId) :
    field ((t.modify id f).node i) = field (t.node i) := by
  rw [node_modify]
  split
  · exact kept _
  · rfl

@[simp] theorem size_setParents (t : Tree) (parent : NodeId) (ids : List NodeId) :
    (t.setParents parent ids).size = t.size := by
  induction ids generalizing t with
  | nil => rfl
  | cons id ids ih => exact (ih _).trans (size_modify ..)

theorem node_setParents (t : Tree) (parent : NodeId) {ids : List NodeId} {id : NodeId}
    (lt : id < t.size) :
    (t.setParents parent ids).node id
      = if id ∈ ids then { t.node id with parent := some parent } else t.node id := by
  induction ids generalizing t with
  | nil => rfl
  | cons a as ih =>
    have step := ih (t.modify a fun n => { n with parent := some parent }) (by simpa using lt)
    show (setParents _ parent as).node id = _
    rw [step]
    by_cases eq : id = a
    · subst eq
      simp [node_modify_self lt]
    · simp [node_modify_of_ne eq, eq]

/-! ## Appending -/

/-- The tree with a node at its end, linked to nothing. -/
def pushNode (t : Tree) (n : Node) : Tree := { t with nodes := t.nodes.push n }

@[simp] theorem size_pushNode (t : Tree) (n : Node) : (t.pushNode n).size = t.size + 1 :=
  Array.size_push ..

theorem node_pushNode_new (t : Tree) (n : Node) : (t.pushNode n).node t.size = n := by
  simp [node_eq_getD, pushNode, size]

theorem node_pushNode_of_ne {id : NodeId} (ne : id ≠ t.size) (n : Node) :
    (t.pushNode n).node id = t.node id := by
  have ne' : id ≠ t.nodes.size := ne
  simp [node_eq_getD, pushNode, Array.getElem?_push, ne']

/-- What a new node shares with the blank one is as it was, everywhere. -/
theorem apply_node_pushNode {β : Type} (g : Node → β) {n : Node} (blank : g n = g default)
    (id : NodeId) : g ((t.pushNode n).node id) = g (t.node id) := by
  by_cases eq : id = t.size
  · rw [eq, node_pushNode_new, blank, node_of_size_le (Nat.le_refl _)]
  · rw [node_pushNode_of_ne eq]

@[simp] theorem size_insert (t : Tree) (n : Node) : (t.insert n).size = t.size + 1 :=
  (size_setParents ..).trans (size_pushNode t n)

theorem insert_eq (t : Tree) (n : Node) :
    t.insert n = (t.pushNode n).setParents t.size n.children := rfl

section Insert

variable {n : Node} (bound : ∀ child ∈ n.children, child < t.size)
include bound

theorem node_insert_new : (t.insert n).node t.size = n := by
  have lt : t.size < (t.pushNode n).size := by simp
  have other : t.size ∉ n.children := fun mem => Nat.lt_irrefl _ (bound _ mem)
  rw [insert_eq, node_setParents _ _ lt, if_neg other, node_pushNode_new]

theorem node_insert_child {id : NodeId} (mem : id ∈ n.children) :
    (t.insert n).node id = { t.node id with parent := some t.size } := by
  have lt : id < (t.pushNode n).size := by
    rw [size_pushNode]
    exact Nat.lt_succ_of_lt (bound id mem)
  rw [insert_eq, node_setParents _ _ lt, if_pos mem,
    node_pushNode_of_ne (Nat.ne_of_lt (bound id mem))]

omit bound in
theorem node_insert_of_ne {id : NodeId} (ne : id ≠ t.size) (other : id ∉ n.children) :
    (t.insert n).node id = t.node id := by
  rcases Nat.lt_or_ge id (t.pushNode n).size with lt | ge
  · rw [insert_eq, node_setParents _ _ lt, if_neg other, node_pushNode_of_ne ne]
  · have out : (t.insert n).size ≤ id := by
      rw [size_insert, ← size_pushNode t n]
      exact ge
    rw [size_pushNode] at ge
    rw [node_of_size_le out, node_of_size_le (Nat.le_of_succ_le ge)]

end Insert

/-! ## Adoption -/

theorem size_adopt (t : Tree) (parent child : NodeId) : (t.adopt parent child).size = t.size := by
  simp [adopt]

theorem node_adopt_self {parent child : NodeId} (lt : parent < t.size) (ne : parent ≠ child) :
    (t.adopt parent child).node parent
      = { t.node parent with children := t.children parent ++ [child] } := by
  rw [adopt, node_modify_self (by simpa using lt), node_modify_of_ne ne]
  rfl

theorem node_adopt_child {parent child : NodeId} (lt : child < t.size) (ne : parent ≠ child) :
    (t.adopt parent child).node child = { t.node child with parent := some parent } := by
  rw [adopt, node_modify_of_ne ne.symm, node_modify_self lt]

theorem node_adopt_of_ne {parent child id : NodeId} (ne : id ≠ parent) (ne' : id ≠ child) :
    (t.adopt parent child).node id = t.node id := by
  rw [adopt, node_modify_of_ne ne, node_modify_of_ne ne']

/-! ## Forests -/

/-- The roots are loose, and every other node is held and below a root. -/
structure Forest (t : Tree) (roots : List NodeId) : Prop where
  nodup : roots.Nodup
  root : ∀ id ∈ roots, id < t.size
  free : ∀ id ∈ roots, t.Free id
  bound : ∀ id, ∀ child ∈ t.children id, child < t.size
  held : ∀ id < t.size, id ∉ roots → ∃ parent, t.HeldBy id parent
  grounded : ∀ id < t.size, ∃ top ∈ roots, ∃ n, t.Climbs n id top

theorem Forest.perm {roots roots' : List NodeId} (h : t.Forest roots) (p : roots.Perm roots') :
    t.Forest roots' where
  nodup := p.nodup_iff.mp h.nodup
  root id mem := h.root id (p.mem_iff.mpr mem)
  free id mem := h.free id (p.mem_iff.mpr mem)
  bound := h.bound
  held id lt other := h.held id lt fun mem => other (p.mem_iff.mp mem)
  grounded id lt := by
    obtain ⟨top, mem, climbs⟩ := h.grounded id lt
    exact ⟨top, p.mem_iff.mp mem, climbs⟩

/-- In `t'` the nodes `children` stand below `parent`, behind what it had in `t`; nothing
else changes its place. -/
structure Attaches (t t' : Tree) (parent : NodeId) (children : List NodeId) : Prop where
  size : t'.size = t.size
  self : t'.children parent = t.children parent ++ children
  other : ∀ id, id ≠ parent → t'.children id = t.children id
  moved : ∀ id ∈ children, t'.parent? id = some parent
  kept : ∀ id, id ∉ children → t'.parent? id = t.parent? id

theorem Attaches.mem_children {parent : NodeId} {children : List NodeId}
    (a : Attaches t t' parent children) {id child : NodeId} (mem : child ∈ t'.children id) :
    child ∈ t.children id ∨ id = parent ∧ child ∈ children := by
  by_cases eq : id = parent
  · subst eq
    rw [a.self] at mem
    rcases List.mem_append.mp mem with mem | mem
    · exact .inl mem
    · exact .inr ⟨rfl, mem⟩
  · rw [a.other id eq] at mem
    exact .inl mem

/-- What moves had no parent, so no parent is lost. -/
theorem Attaches.gain {parent : NodeId} {children : List NodeId}
    (a : Attaches t t' parent children) (free : ∀ id ∈ children, t.Free id) (id up : NodeId)
    (h : t.parent? id = some up) : t'.parent? id = some up := by
  have other : id ∉ children := by
    intro mem
    rw [(free id mem).up] at h
    cases h
  exact (a.kept id other).trans h

/-- Roots that move below another root leave a forest. -/
theorem Forest.attach {children roots : List NodeId} (h : t.Forest (children ++ roots))
    {parent : NodeId} (mem : parent ∈ roots) (a : Attaches t t' parent children) :
    t'.Forest roots := by
  obtain ⟨nodupChildren, nodupRoots, apart⟩ := List.nodup_append.mp h.nodup
  have free : ∀ id ∈ children, t.Free id := fun id hid => h.free id (List.mem_append_left _ hid)
  have root : ∀ id ∈ roots, id < t.size := fun id hid => h.root id (List.mem_append_right _ hid)
  have notChild : ∀ id ∈ roots, id ∉ children := fun id hid hc => apart id hc id hid rfl
  refine ⟨nodupRoots, ?_, ?_, ?_, ?_, ?_⟩
  case refine_1 =>
    intro id hid
    rw [a.size]
    exact root id hid
  case refine_2 =>
    intro id hid
    have loose := h.free id (List.mem_append_right _ hid)
    refine ⟨(a.kept id (notChild id hid)).trans loose.up, fun other held => ?_⟩
    rcases a.mem_children held with held | ⟨-, held⟩
    · exact loose.loose other held
    · exact notChild id hid held
  case refine_3 =>
    intro id child held
    rw [a.size]
    rcases a.mem_children held with held | ⟨-, held⟩
    · exact h.bound id child held
    · exact h.root child (List.mem_append_left _ held)
  case refine_4 =>
    intro id lt notRoot
    rw [a.size] at lt
    by_cases hc : id ∈ children
    · refine ⟨parent, ?_, a.moved id hc, ?_, fun other ne => ?_⟩
      · rw [a.size]
        exact root parent mem
      · rw [a.self, List.count_append, List.count_eq_zero.mpr ((free id hc).loose parent),
          List.count_eq_one_of_mem nodupChildren hc]
      · rw [a.other other ne]
        exact (free id hc).loose other
    · have notMem : id ∉ children ++ roots := by simp [hc, notRoot]
      obtain ⟨p, held⟩ := h.held id lt notMem
      refine ⟨p, ?_, (a.kept id hc).trans held.up, ?_, fun other ne hold => ?_⟩
      · rw [a.size]
        exact held.bound
      · by_cases eq : p = parent
        · rw [eq, a.self, List.count_append, List.count_eq_zero.mpr hc, ← eq, held.once]
        · rw [a.other p eq]
          exact held.once
      · rcases a.mem_children hold with hold | ⟨-, hold⟩
        · exact held.only other ne hold
        · exact hc hold
  case refine_5 =>
    intro id lt
    rw [a.size] at lt
    obtain ⟨top, htop, n, climbs⟩ := h.grounded id lt
    have climbs' := climbs.mono (a.gain free)
    rcases List.mem_append.mp htop with hc | hr
    · exact ⟨parent, mem, _, climbs'.trans (.step (a.moved top hc) .here)⟩
    · exact ⟨top, hr, n, climbs'⟩

/-- A root adopts another one. -/
theorem attaches_adopt {parent child : NodeId} (lt : parent < t.size) (lt' : child < t.size)
    (ne : parent ≠ child) : Attaches t (t.adopt parent child) parent [child] where
  size := size_adopt ..
  self := congrArg Node.children (node_adopt_self lt ne)
  other id hid := by
    by_cases eq : id = child
    · subst eq
      rw [Tree.children, node_adopt_child lt' ne]
      rfl
    · exact congrArg Node.children (node_adopt_of_ne hid eq)
  moved id mem := by
    obtain rfl := List.mem_singleton.mp mem
    exact congrArg Node.parent (node_adopt_child lt' ne)
  kept id mem := by
    have hid : id ≠ child := fun eq => mem (List.mem_singleton.mpr eq)
    by_cases eq : id = parent
    · subst eq
      rw [parent?, node_adopt_self lt ne]
      rfl
    · exact congrArg Node.parent (node_adopt_of_ne eq hid)

/-- A node without links is one more root. -/
theorem Forest.pushNode {roots : List NodeId} (h : t.Forest roots) {n : Node}
    (children : n.children = []) (parent : n.parent = none) :
    (t.pushNode n).Forest (t.size :: roots) := by
  have links : ∀ id, (t.pushNode n).children id = t.children id :=
    apply_node_pushNode Node.children children
  have up : ∀ id, (t.pushNode n).parent? id = t.parent? id :=
    apply_node_pushNode Node.parent parent
  have below : ∀ id < (t.pushNode n).size, id ≠ t.size → id < t.size := by
    intro id lt ne
    rw [size_pushNode] at lt
    exact Nat.lt_of_le_of_ne (Nat.le_of_lt_succ lt) ne
  refine ⟨List.nodup_cons.mpr ⟨?_, h.nodup⟩, ?_, ?_, ?_, ?_, ?_⟩
  case refine_1 => exact fun mem => Nat.lt_irrefl _ (h.root _ mem)
  case refine_2 =>
    intro id mem
    rw [size_pushNode]
    rcases List.mem_cons.mp mem with rfl | mem
    · exact Nat.lt_succ_self _
    · exact Nat.lt_succ_of_lt (h.root id mem)
  case refine_3 =>
    intro id mem
    rcases List.mem_cons.mp mem with rfl | mem
    · refine ⟨?_, fun other held => ?_⟩
      · rw [up, parent?, node_of_size_le (Nat.le_refl _)]
        rfl
      · rw [links] at held
        exact Nat.lt_irrefl _ (h.bound other _ held)
    · refine ⟨(up id).trans (h.free id mem).up, fun other => ?_⟩
      rw [links]
      exact (h.free id mem).loose other
  case refine_4 =>
    intro id child mem
    rw [links] at mem
    rw [size_pushNode]
    exact Nat.lt_succ_of_lt (h.bound id child mem)
  case refine_5 =>
    intro id lt other
    obtain ⟨ne, notRoot⟩ := not_or.mp (fun mem => other (List.mem_cons.mpr mem))
    obtain ⟨p, held⟩ := h.held id (below id lt ne) notRoot
    refine ⟨p, ?_, (up id).trans held.up, ?_, fun other' ne' => ?_⟩
    · rw [size_pushNode]
      exact Nat.lt_succ_of_lt held.bound
    · rw [links]
      exact held.once
    · rw [links]
      exact held.only other' ne'
  case refine_6 =>
    intro id lt
    by_cases eq : id = t.size
    · exact ⟨id, eq ▸ List.mem_cons_self, 0, .here⟩
    · obtain ⟨top, mem, n, climbs⟩ := h.grounded id (below id lt eq)
      exact ⟨top, List.mem_cons_of_mem _ mem, n, climbs.mono fun id p h => (up id).trans h⟩

/-- A new node takes its children. -/
theorem attaches_insert {n : Node} (bound : ∀ child ∈ n.children, child < t.size) :
    Attaches (t.pushNode { n with children := [] }) (t.insert n) t.size n.children where
  size := (size_insert ..).trans (size_pushNode ..).symm
  self := by
    rw [Tree.children, node_insert_new bound, Tree.children, node_pushNode_new]
    rfl
  other id ne := by
    rw [Tree.children, Tree.children, node_pushNode_of_ne ne]
    by_cases mem : id ∈ n.children
    · rw [node_insert_child bound mem]
    · rw [node_insert_of_ne ne mem]
  moved id mem := by rw [parent?, node_insert_child bound mem]
  kept id other := by
    rw [parent?, parent?]
    by_cases eq : id = t.size
    · rw [eq, node_insert_new bound, node_pushNode_new]
    · rw [node_insert_of_ne eq other, node_pushNode_of_ne eq]

theorem Forest.insert {n : Node} {roots : List NodeId} (h : t.Forest (n.children ++ roots))
    (loose : n.parent = none) : (t.insert n).Forest (t.size :: roots) := by
  have bound : ∀ child ∈ n.children, child < t.size :=
    fun child mem => h.root child (List.mem_append_left _ mem)
  have more : (t.pushNode { n with children := [] }).Forest (t.size :: (n.children ++ roots)) :=
    h.pushNode rfl loose
  exact (more.perm List.perm_middle.symm).attach List.mem_cons_self (attaches_insert bound)

theorem Forest.adopt {parent child : NodeId} {roots : List NodeId}
    (h : t.Forest (parent :: child :: roots)) : (t.adopt parent child).Forest (parent :: roots) := by
  have ne : parent ≠ child := by
    intro eq
    subst eq
    exact absurd List.mem_cons_self (List.nodup_cons.mp h.nodup).1
  have lt : parent < t.size := h.root parent List.mem_cons_self
  have lt' : child < t.size := h.root child (List.mem_cons_of_mem _ List.mem_cons_self)
  have swapped : t.Forest ([child] ++ parent :: roots) := h.perm (.swap ..)
  exact swapped.attach List.mem_cons_self (attaches_adopt lt lt' ne)

theorem forest_empty : empty.Forest [] where
  nodup := .nil
  root _ mem := absurd mem List.not_mem_nil
  free _ mem := absurd mem List.not_mem_nil
  bound _ _ mem := absurd mem List.not_mem_nil
  held _ lt := absurd lt (Nat.not_lt_zero _)
  grounded _ lt := absurd lt (Nat.not_lt_zero _)

end Tree

end MatrixScript
