/-
# `Proofs.Tree.WellFormed` — what a program tree looks like

A tree is well formed (`Tree.WellFormed`) when its links are those of one tree
below one block, and when every node has the children, the value and the name
that its category calls for.  What children a category calls for is a function
of their categories (`Category.admits`), so it can be evaluated.

The links say that every node but the root is held exactly once, by its
parent, and that climbing from parent to parent ends at the root.  Climbing
passes every node at most once, hence the root is found among the ancestors.
-/
import Mathlib.Data.Fintype.Card
import MatrixScript.Token.Number
import MatrixScript.Tree

namespace MatrixScript

namespace Category

/-! ## Kinds of categories -/

/-- Has a value wherever it stands. -/
def isExpression : Category → Bool
  | .block | .statement | .assign | .assigns | .function | .params | .returns | .ret | .brk
  | .set | .row | .all => false
  | _ => true

/-- Can stand between the parentheses or braces of a subscript. -/
def isArgument (c : Category) : Bool := c.isExpression || c == .all

/-- Can be assigned to. -/
def isDestination : Category → Bool
  | .var | .set => true
  | _ => false

/-- Can stand in a block. -/
def isStatement : Category → Bool
  | .statement | .assign | .assigns | .function | .ret | .brk => true
  | _ => false

/-- Takes a list of arguments. -/
def isCall : Category → Bool
  | .get | .set | .cget => true
  | _ => false

/-- Carries the text of a literal. -/
def isLiteral : Category → Bool
  | .int | .float | .imag | .str => true
  | _ => false

/-- The text can stand on a literal of the category: numbers are single tokens, and
strings hold anything. -/
def spells : Category → String → Bool
  | .int, s => Token.numberAt? s.toList == some (.int, s.toList.length)
  | .float, s => Token.numberAt? s.toList == some (.float, s.toList.length)
  | .imag, s => Token.numberAt? s.toList == some (.imag, s.toList.length)
  | .str, _ => true
  | _, _ => false

/-- Carries an identifier. -/
def isNamed : Category → Bool
  | .var | .get | .set | .cget | .function => true
  | _ => false

theorem isOperator_of_isUnary {c : Category} (h : c.isUnary) : c.isOperator := by
  rw [isOperator, h, Bool.or_true]

theorem isOperator_of_isComparison {c : Category} (h : c.isComparison) : c.isOperator := by
  rw [isOperator, h, Bool.or_true, Bool.true_or]

theorem isOperator_of_isChained {c : Category} (h : c.isChained) : c.isOperator := by
  rw [isOperator, h, Bool.true_or, Bool.true_or]

/-- Operators have neither a text nor a name. -/
theorem plain_of_isOperator {c : Category} (h : c.isOperator) :
    c.isLiteral = false ∧ c.isNamed = false := by
  cases c <;> first | exact ⟨rfl, rfl⟩ | cases h

/-! ## Children -/

/-- A node of the category can have children of these categories, in this order. -/
def admits (c : Category) (children : List Category) : Bool :=
  match c with
  | .block => children.all isStatement
  | .statement | .neg | .not | .transpose | .ctranspose | .paren =>
      children.length == 1 && children.all isExpression
  | .assign =>
      match children with
      | [destination, value] => destination.isDestination && value.isExpression
      | _ => false
  | .assigns =>
      match children.getLast? with
      | some value => children.dropLast.all isDestination && value.isExpression
      | none => false
  | .function => children == [.params, .returns, .block]
  | .params | .returns => children.all (· == .var)
  | .get | .set | .cget => children.all isArgument
  | .matrix => children.all (· == .row)
  | .row => !children.isEmpty && children.all isExpression
  | .cell => children.all isExpression
  | .gt | .ge | .lt | .le | .ne | .eq => children.length == 2 && children.all isExpression
  | .add | .sub | .mul | .elMul | .rightDiv | .leftDiv | .elRightDiv | .elLeftDiv
  | .pow | .elPow | .andAnd | .and | .orOr | .or =>
      decide (2 ≤ children.length) && children.head? != some c && children.all isExpression
  | .range => (children.length == 2 || children.length == 3) && children.all isExpression
  | .int | .float | .imag | .str | .var | .last | .all | .ret | .brk => children.isEmpty

theorem admits_unary {c d : Category} (hc : c.isUnary) (hd : d.isExpression) : c.admits [d] := by
  cases c with
  | neg | not | transpose | ctranspose | paren => simpa [admits] using hd
  | _ => cases hc

theorem admits_comparison {c d e : Category} (hc : c.isComparison) (hd : d.isExpression)
    (he : e.isExpression) : c.admits [d, e] := by
  cases c with
  | gt | ge | lt | le | ne | eq => simp [admits, hd, he]
  | _ => cases hc

theorem admits_of_isChained {c : Category} (hc : c.isChained) (cs : List Category) :
    c.admits cs
      = (decide (2 ≤ cs.length) && cs.head? != some c && cs.all isExpression) := by
  cases c with
  | add | sub | mul | elMul | rightDiv | leftDiv | elRightDiv | elLeftDiv | pow | elPow
  | andAnd | and | orOr | or => rfl
  | _ => cases hc

theorem admits_chained {c d e : Category} (hc : c.isChained) (ne : d ≠ c) (hd : d.isExpression)
    (he : e.isExpression) : c.admits [d, e] := by
  rw [admits_of_isChained hc]
  simp [hd, he, ne]

theorem admits_call {c : Category} (hc : c.isCall) {cs : List Category} :
    c.admits cs = cs.all isArgument := by
  cases c with
  | get | set | cget => rfl
  | _ => cases hc

/-- Another argument can always be added. -/
theorem admits_call_concat {c d : Category} (hc : c.isCall) (hd : d.isArgument)
    {cs : List Category} (h : c.admits cs) : c.admits (cs ++ [d]) := by
  rw [admits_call hc] at h ⊢
  simp [h, hd]

/-- Another operand can always be added to a chain. -/
theorem admits_chained_concat {c d : Category} (hc : c.isChained) (hd : d.isExpression)
    {cs : List Category} (h : c.admits cs) : c.admits (cs ++ [d]) := by
  rw [admits_of_isChained hc] at h ⊢
  cases cs with
  | nil => cases h
  | cons first more =>
    simp at h ⊢
    exact ⟨h.1.2, h.2.1, h.2.2, hd⟩

@[simp] theorem admits_assigns (destinations : List Category) (value : Category) :
    assigns.admits (destinations ++ [value])
      = (destinations.all isDestination && value.isExpression) := by
  simp [admits]

/-- Several destinations are followed by one value. -/
theorem exists_of_admits_assigns {cs : List Category} (h : assigns.admits cs) :
    ∃ destinations value, cs = destinations ++ [value]
      ∧ (∀ d ∈ destinations, d.isDestination) ∧ value.isExpression := by
  rcases List.eq_nil_or_concat cs with rfl | ⟨destinations, value, rfl⟩
  · cases h
  · rw [List.concat_eq_append, admits_assigns, Bool.and_eq_true] at h
    exact ⟨destinations, value, List.concat_eq_append, List.all_eq_true.mp h.1, h.2⟩

/-- A colon for a whole axis stands only in a subscript. -/
theorem isCall_of_admits_all {c : Category} {cs : List Category} (h : c.admits cs)
    (mem : Category.all ∈ cs) : c.isCall := by
  have none : ∀ p : Category → Bool, cs.all p → p .all := fun p hp =>
    List.all_eq_true.mp hp _ mem
  cases c with
  | get | set | cget => rfl
  | block | params | returns | matrix | cell => cases none _ h
  | statement | neg | not | transpose | ctranspose | paren | gt | ge | lt | le | ne | eq
  | add | sub | mul | elMul | rightDiv | leftDiv | elRightDiv | elLeftDiv | pow | elPow
  | andAnd | and | orOr | or | range | row =>
    have each : cs.all isExpression := ((Bool.and_eq_true _ _).mp h).2
    cases none _ each
  | assign =>
    match cs with
    | [destination, value] =>
      obtain ⟨hd, hv⟩ := (Bool.and_eq_true _ _).mp h
      rcases List.mem_pair.mp mem with rfl | rfl
      · cases hd
      · cases hv
    | [] | [_] | _ :: _ :: _ :: _ => cases h
  | assigns =>
    obtain ⟨destinations, value, rfl, hd, hv⟩ := exists_of_admits_assigns h
    rcases List.mem_append.mp mem with mem | mem
    · cases hd _ mem
    · obtain rfl := List.mem_singleton.mp mem
      cases hv
  | function =>
    have eq : cs = [.params, .returns, .block] := by simpa [admits] using h
    rw [eq] at mem
    simp at mem
  | int | float | imag | str | var | last | all | ret | brk =>
    rw [List.isEmpty_iff.mp h] at mem
    cases mem

end Category

namespace Tree

variable {t : Tree}

/-- Category of a node. -/
def category (t : Tree) (id : NodeId) : Category := (t.node id).category

/-- The node has the children, the value and the name that its category calls for. -/
structure Shaped (t : Tree) (id : NodeId) : Prop where
  children : (t.category id).admits ((t.children id).map t.category)
  value : (t.node id).value.isSome = (t.category id).isLiteral
  spelled : ∀ s, (t.node id).value = some s → (t.category id).spells s
  name : ((t.node id).name ≠ "") ↔ (t.category id).isNamed

/-- `parent` holds the node, exactly once, and no other node does. -/
structure HeldBy (t : Tree) (id parent : NodeId) : Prop where
  bound : parent < t.size
  up : t.parent? id = some parent
  once : (t.children parent).count id = 1
  only : ∀ other, other ≠ parent → id ∉ t.children other

/-- No node is above this one. -/
structure Free (t : Tree) (id : NodeId) : Prop where
  up : t.parent? id = none
  loose : ∀ other, id ∉ t.children other

/-- One tree below one block, which came last, and every node in shape. -/
structure WellFormed (t : Tree) : Prop where
  root : ∃ root, t.root = some root ∧ root + 1 = t.size ∧ t.category root = .block ∧ t.Free root
  bound : ∀ id, ∀ child ∈ t.children id, child < t.size
  held : ∀ id < t.size, t.root ≠ some id → ∃ parent, t.HeldBy id parent
  grounded : ∀ root, t.root = some root → ∀ id < t.size, id ≠ root → root ∈ t.ancestors id
  shaped : ∀ id < t.size, t.Shaped id

/-! ## Climbing to the root -/

/-- `n` steps from parent to parent lead from one node to the other. -/
inductive Climbs (t : Tree) : Nat → NodeId → NodeId → Prop
  | here {id : NodeId} : Climbs t 0 id id
  | step {id parent top : NodeId} {n : Nat} : t.parent? id = some parent →
      Climbs t n parent top → Climbs t (n + 1) id top

theorem Climbs.trans {m n : Nat} {id mid top : NodeId} (h : t.Climbs m id mid)
    (k : t.Climbs n mid top) : t.Climbs (n + m) id top := by
  induction h with
  | here => exact k
  | step up _ ih => exact .step up (ih k)

/-- Ways up stay when nodes only gain parents. -/
theorem Climbs.mono {t' : Tree} {n : Nat} {id top : NodeId} (h : t.Climbs n id top)
    (gain : ∀ id parent, t.parent? id = some parent → t'.parent? id = some parent) :
    t'.Climbs n id top := by
  induction h with
  | here => exact .here
  | step up _ ih => exact .step (gain _ _ up) ih

/-- How far it is to a node without a parent is determined. -/
theorem Climbs.unique {m n : Nat} {id top : NodeId} (free : t.parent? top = none)
    (h : t.Climbs m id top) (k : t.Climbs n id top) : m = n := by
  induction h generalizing n with
  | here =>
    cases k with
    | here => rfl
    | step up _ => rw [free] at up; cases up
  | step up _ ih =>
    cases k with
    | here => rw [free] at up; cases up
    | step up' rest =>
      obtain rfl := Option.some.inj (up.symm.trans up')
      rw [ih free rest]

/-- Every distance below that of a node is the distance of some node. -/
theorem Climbs.exists_of_le {n : Nat} {id top : NodeId} (h : t.Climbs n id top) {k : Nat}
    (le : k ≤ n) : ∃ id', t.Climbs k id' top := by
  induction h with
  | here =>
    obtain rfl := Nat.le_zero.mp le
    exact ⟨_, .here⟩
  | @step id parent top n up rest ih =>
    rcases Nat.le_succ_iff.mp le with le | rfl
    · exact ih le
    · exact ⟨id, .step up rest⟩

theorem node_eq_getD (t : Tree) (id : NodeId) : t.node id = t.nodes[id]?.getD default :=
  Array.getD_eq_getD_getElem? ..

theorem node_of_size_le {id : NodeId} (ge : t.size ≤ id) : t.node id = default := by
  rw [node_eq_getD, Array.getElem?_eq_none ge]
  rfl

/-- A node with a parent is one of the tree. -/
theorem lt_size_of_parent? {id parent : NodeId} (h : t.parent? id = some parent) :
    id < t.size := by
  rcases Nat.lt_or_ge id t.size with lt | ge
  · exact lt
  · rw [parent?, node_of_size_le ge] at h
    cases h

/-- Only blocks can lie outside of the tree. -/
theorem lt_size_of_category {id : NodeId} {c : Category} (h : t.category id = c) (ne : c ≠ .block) :
    id < t.size := by
  rcases Nat.lt_or_ge id t.size with lt | ge
  · exact lt
  · rw [category, node_of_size_le ge] at h
    exact absurd h.symm ne

theorem Climbs.lt_size {n : Nat} {id top : NodeId} (h : t.Climbs n id top) (lt : top < t.size) :
    id < t.size := by
  cases h with
  | here => exact lt
  | step up _ => exact lt_size_of_parent? up

/-- The way up is shorter than the tree is large: its nodes are all different. -/
theorem Climbs.length_lt {n : Nat} {id top : NodeId} (h : t.Climbs n id top)
    (free : t.parent? top = none) (lt : top < t.size) : n < t.size := by
  have at_distance : ∀ k : Fin (n + 1), ∃ id' : Fin t.size, t.Climbs k id' top := by
    intro k
    obtain ⟨id', climbs⟩ := h.exists_of_le (Nat.le_of_lt_succ k.isLt)
    exact ⟨⟨id', climbs.lt_size lt⟩, climbs⟩
  obtain ⟨f, hf⟩ := Classical.axiomOfChoice at_distance
  have injective : Function.Injective f := by
    intro k l eq
    have hk := hf k
    rw [eq] at hk
    exact Fin.ext (hk.unique free (hf l))
  have card : n + 1 ≤ t.size := by simpa using Fintype.card_le_of_injective f injective
  exact card

theorem mem_ancestorsWithin {n : Nat} {id top : NodeId} (h : t.Climbs n id top) (ne : id ≠ top)
    {m : Nat} (le : n ≤ m) : top ∈ t.ancestorsWithin m id := by
  induction h generalizing m with
  | here => exact absurd rfl ne
  | @step id parent top n up rest ih =>
    obtain ⟨m, rfl⟩ : ∃ k, m = k + 1 := ⟨m - 1, by omega⟩
    rw [ancestorsWithin, up]
    by_cases eq : parent = top
    · exact eq ▸ List.mem_cons_self
    · exact List.mem_cons_of_mem _ (ih eq (Nat.le_of_succ_le_succ le))

theorem mem_ancestors {n : Nat} {id top : NodeId} (h : t.Climbs n id top)
    (free : t.parent? top = none) (lt : top < t.size) (ne : id ≠ top) : top ∈ t.ancestors id :=
  mem_ancestorsWithin h ne (Nat.le_of_lt (h.length_lt free lt))

/-! ## Links of well-formed trees -/

/-- A child knows its parent. -/
theorem WellFormed.parent?_of_mem (h : t.WellFormed) {id child : NodeId}
    (mem : child ∈ t.children id) : t.parent? child = some id := by
  obtain ⟨root, hroot, -, -, free⟩ := h.root
  have other : t.root ≠ some child := by
    intro eq
    obtain rfl := Option.some.inj (hroot.symm.trans eq)
    exact free.loose id mem
  obtain ⟨parent, held⟩ := h.held child (h.bound id child mem) other
  by_cases eq : id = parent
  · rw [held.up, eq]
  · exact absurd mem (held.only id eq)

theorem WellFormed.heldBy_of_parent? (h : t.WellFormed) {id parent : NodeId}
    (up : t.parent? id = some parent) : t.HeldBy id parent := by
  obtain ⟨root, hroot, -, -, free⟩ := h.root
  have other : t.root ≠ some id := by
    intro eq
    obtain rfl := Option.some.inj (hroot.symm.trans eq)
    rw [free.up] at up
    cases up
  obtain ⟨p, held⟩ := h.held id (lt_size_of_parent? up) other
  rw [held.up] at up
  cases up
  exact held

theorem WellFormed.parent_lt (h : t.WellFormed) {id parent : NodeId}
    (up : t.parent? id = some parent) : parent < t.size :=
  (h.heldBy_of_parent? up).bound

theorem HeldBy.mem_children {id parent : NodeId} (held : t.HeldBy id parent) :
    id ∈ t.children parent := by
  rw [← List.count_pos_iff, held.once]
  exact Nat.one_pos

/-- A node of a category that admits no children is a leaf. -/
theorem WellFormed.children_eq_nil (h : t.WellFormed) {id : NodeId} (lt : id < t.size)
    (leaf : ∀ cs, (t.category id).admits cs = cs.isEmpty) : t.children id = [] := by
  have admits := (h.shaped id lt).children
  rw [leaf] at admits
  exact List.map_eq_nil_iff.mp (List.isEmpty_iff.mp admits)

/-- In a well-formed tree a colon for a whole axis is an argument of a subscript. -/
theorem WellFormed.isCall_of_all (h : t.WellFormed) {id : NodeId} (lt : id < t.size)
    (all : t.category id = .all) :
    ∃ parent, t.parent? id = some parent ∧ (t.category parent).isCall := by
  obtain ⟨root, hroot, -, block, -⟩ := h.root
  have other : t.root ≠ some id := by
    intro eq
    obtain rfl := Option.some.inj (hroot.symm.trans eq)
    rw [all] at block
    cases block
  obtain ⟨parent, held⟩ := h.held id lt other
  have categories : Category.all ∈ (t.children parent).map t.category :=
    all ▸ List.mem_map_of_mem held.mem_children
  have shaped := h.shaped parent held.bound
  exact ⟨parent, held.up, Category.isCall_of_admits_all shaped.children categories⟩

end Tree

end MatrixScript

/-! ## What stands below a node

A node is below another if climbing from parent to parent leads there.  In a
well-formed tree the ways up do not branch, so what is below one child of a node is
below no other (`WellFormed.apart`), and a node is not below its own children. -/

namespace MatrixScript.Tree

variable {t : Tree} {id top : NodeId}

/-- Climbing from `id` leads to `top`. -/
def Below (t : Tree) (top id : NodeId) : Prop := ∃ n, t.Climbs n id top

theorem below_self (t : Tree) (id : NodeId) : t.Below id id := ⟨0, .here⟩

/-- What has a parent below a node is below it too. -/
theorem Below.step {parent : NodeId} (h : t.Below top parent) (up : t.parent? id = some parent) :
    t.Below top id := by
  obtain ⟨n, climbs⟩ := h
  exact ⟨n + 1, .step up climbs⟩

theorem Below.trans {mid : NodeId} (h : t.Below top mid) (k : t.Below mid id) : t.Below top id := by
  obtain ⟨_, upper⟩ := h
  obtain ⟨_, lower⟩ := k
  exact ⟨_, lower.trans upper⟩

theorem below_of_parent? {parent : NodeId} (up : t.parent? id = some parent) :
    t.Below parent id := (t.below_self parent).step up

/-- Ways up do not branch. -/
theorem Climbs.eq_of {n : Nat} {top' : NodeId} (h : t.Climbs n id top) (k : t.Climbs n id top') :
    top = top' := by
  induction h with
  | here =>
    cases k
    rfl
  | step up _ ih =>
    cases k with
    | step up' rest =>
      obtain rfl := Option.some.inj (up.symm.trans up')
      exact ih rest

theorem exists_climbs_of_mem {n : Nat} (mem : top ∈ t.ancestorsWithin n id) :
    ∃ m, t.Climbs m id top := by
  induction n generalizing id with
  | zero => cases mem
  | succ n ih =>
    unfold ancestorsWithin at mem
    split at mem
    case h_2 => cases mem
    case h_1 up =>
      rcases List.mem_cons.mp mem with rfl | above
      · exact ⟨1, .step up .here⟩
      · obtain ⟨m, climbs⟩ := ih above
        exact ⟨m + 1, .step up climbs⟩

section WellFormed

variable (h : t.WellFormed)
include h

/-- Every node climbs to the root. -/
theorem WellFormed.exists_climbs (lt : id < t.size) :
    ∃ root, t.parent? root = none ∧ root < t.size ∧ ∃ n, t.Climbs n id root := by
  obtain ⟨root, hroot, last, -, free⟩ := h.root
  refine ⟨root, free.up, Nat.lt_of_succ_le (Nat.le_of_eq last), ?_⟩
  by_cases eq : id = root
  · exact ⟨0, eq ▸ .here⟩
  · exact exists_climbs_of_mem (h.grounded root hroot id lt eq)

/-- Climbing never comes back. -/
theorem WellFormed.acyclic {n : Nat} (lt : id < t.size) (round : t.Climbs n id id) : n = 0 := by
  obtain ⟨root, free, -, m, climbs⟩ := h.exists_climbs lt
  have eq := climbs.unique free (round.trans climbs)
  omega

theorem WellFormed.not_below_child {child : NodeId} (mem : child ∈ t.children id) :
    ¬t.Below child id := by
  rintro ⟨n, climbs⟩
  have lt := h.bound id child mem
  have round := h.acyclic lt (.step (h.parent?_of_mem mem) climbs)
  omega

/-- What is below one child is below no other. -/
theorem WellFormed.apart {parent a b : NodeId} (ha : t.parent? a = some parent)
    (hb : t.parent? b = some parent) (below : t.Below a id) (below' : t.Below b id) : a = b := by
  obtain ⟨root, free, -, k, up⟩ := h.exists_climbs (h.parent_lt ha)
  obtain ⟨m, climbs⟩ := below
  obtain ⟨n, climbs'⟩ := below'
  have lengths := (climbs.trans (.step ha up)).unique free (climbs'.trans (.step hb up))
  have eq : m = n := by omega
  subst eq
  exact climbs.eq_of climbs'

/-- A node has each of its children once. -/
theorem WellFormed.nodup_children (id : NodeId) : (t.children id).Nodup := by
  rw [List.nodup_iff_count_le_one]
  intro child
  by_cases mem : child ∈ t.children id
  case neg => rw [List.count_eq_zero_of_not_mem mem]; exact Nat.zero_le 1
  case pos => exact Nat.le_of_eq (h.heldBy_of_parent? (h.parent?_of_mem mem)).once

/-! ## Above a child -/

theorem WellFormed.ancestors_of_parent? {parent : NodeId} (up : t.parent? id = some parent) :
    t.ancestors id = parent :: t.ancestors parent := by
  -- counting further than the root gives nothing more
  have enough : ∀ {n m m' : Nat} {id root : NodeId}, t.parent? root = none → t.Climbs n id root →
      n ≤ m → n ≤ m' → t.ancestorsWithin m id = t.ancestorsWithin m' id := by
    intro n m m' id root free climbs
    induction climbs generalizing m m' with
    | here =>
      intro _ _
      cases m <;> cases m' <;> simp [ancestorsWithin, free]
    | step up _ ih =>
      intro le le'
      obtain ⟨m, rfl⟩ : ∃ k, m = k + 1 := ⟨m - 1, by omega⟩
      obtain ⟨m', rfl⟩ : ∃ k, m' = k + 1 := ⟨m' - 1, by omega⟩
      rw [ancestorsWithin, ancestorsWithin, up]
      exact congrArg _ (ih free (by omega) (by omega))
  obtain ⟨root, free, lt, n, climbs⟩ := h.exists_climbs (h.parent_lt up)
  have short := (Climbs.step up climbs).length_lt free lt
  have more : t.ancestorsWithin t.size id = t.ancestorsWithin (t.size + 1) id :=
    enough free (.step up climbs) (Nat.le_of_lt short) (by omega)
  rw [ancestors, more, ancestorsWithin, up]
  rfl

/-- What is around a child is its parent, or what is around that. -/
theorem WellFormed.group?_of_parent? {parent : NodeId} (up : t.parent? id = some parent) :
    t.group? id = if isInner (t.category parent) then t.group? parent else some parent := by
  rw [group?, h.ancestors_of_parent? up, List.find?_cons]
  show (match !isInner (t.category parent) with | true => _ | false => _) = _
  cases isInner (t.category parent) <;> rfl

/-- What a rule can reach is below its node. -/
theorem WellFormed.below_of_mem {child : NodeId} (mem : child ∈ t.children id) :
    t.Below id child := below_of_parent? (h.parent?_of_mem mem)

/-- What is around a node below `top` is below that too, unless it is around `top`. -/
theorem WellFormed.below_group {g : NodeId} (below : t.Below top id)
    (group : t.group? id = some g) : t.Below top g ∨ t.group? top = some g := by
  obtain ⟨n, climbs⟩ := below
  induction climbs with
  | here => exact .inr group
  | @step _ id parent _ up climbs ih =>
    rw [h.group?_of_parent? up] at group
    split at group
    case isTrue => exact ih group
    case isFalse =>
      obtain rfl := Option.some.inj group
      exact .inl ⟨_, climbs⟩

end WellFormed

/-- Nothing is around what has no parent. -/
theorem group?_of_loose (up : t.parent? id = none) : t.group? id = none := by
  rw [group?, ancestors]
  cases t.size with
  | zero => rfl
  | succ n =>
    rw [ancestorsWithin, up]
    rfl

end MatrixScript.Tree
