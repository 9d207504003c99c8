/-
# `Proofs.Tree.Bears` — which node bears an expression

`Tree.Bears t id e` says that the tree has the expression `e` at the node `id`: a name, a
literal, or an operator with its operands at the children.  Unlike `Tree.Stands` it does not
say which nodes the expression takes up: where trees are well formed, the operands of a node
are apart from each other anyway.

Numbering puts every formula onto a node that bears it (`Tree.numbered_of_formula`), and the
right side of an assignment onto the last child of that (`Tree.exists_assign_ofProgram`).
-/
import MatrixScript.Proofs.Tree.OfProgram
import MatrixScript.Proofs.Tree.Stands

namespace MatrixScript

namespace Expr

/-- Operands of the outermost operator; parentheses have what is in them. -/
def operands : Expr → List Expr
  | .paren e | .sign _ e | .transpose _ e => [e]
  | .chain _ first second more => first :: second :: more
  | .compare _ left right => [left, right]
  | _ => []

/-- Names and literals with operators, parentheses among these. -/
inductive Formula : Expr → Prop
  | name (x : String) : Formula (.name x)
  | literal (kind : LiteralKind) (s : String) : Formula (.literal kind s)
  | operator {e : Expr} : e.category.isOperator → (∀ x ∈ e.operands, Formula x) → Formula e

end Expr

namespace Tree

/-- The tree has the expression at the node. -/
inductive Bears (t : Tree) : NodeId → Expr → Prop
  | name {id : NodeId} {x : String} :
      (t.node id).written = { category := .var, name := x } → Bears t id (.name x)
  | literal {id : NodeId} {kind : LiteralKind} {s : String} :
      (t.node id).written = { category := kind.category, value := some s } →
      Bears t id (.literal kind s)
  | operator {id : NodeId} {e : Expr} {children : List NodeId} : e.category.isOperator →
      (t.node id).written = { category := e.category, children } →
      children.length = e.operands.length →
      (∀ {c : NodeId} {x : Expr}, (c, x) ∈ children.zip e.operands → Bears t c x) → Bears t id e

variable {t t' : Tree} {id : NodeId} {e : Expr}

theorem Bears.of_forall₂ (children : List NodeId) (operator : e.category.isOperator)
    (written : (t.node id).written = { category := e.category, children })
    (operands : List.Forall₂ t.Bears children e.operands) : t.Bears id e :=
  .operator operator written operands.length_eq fun mem => List.forall₂_zip operands mem

/-- An operator has its operands at the children. -/
theorem Bears.operands (h : t.Bears id e) (operator : e.category.isOperator) :
    (t.node id).written = { category := e.category, children := t.children id }
      ∧ List.Forall₂ t.Bears (t.children id) e.operands := by
  cases h with
  | name => cases operator
  | @literal _ kind => cases kind <;> cases operator
  | @operator _ _ children _ written lengths bears =>
    have children' : t.children id = children := Node.children_of_written written
    rw [children']
    exact ⟨written, List.forall₂_iff_zip.mpr ⟨lengths, bears⟩⟩

theorem Bears.category (h : t.Bears id e) : t.category id = e.category := by
  cases h with
  | name written => exact Node.category_of_written written
  | literal written => exact Node.category_of_written written
  | operator _ written => exact Node.category_of_written written

/-! ## Numbering -/

/-- New nodes without a parent leave all nodes as they are. -/
theorem Adds.unchanged {ids : List NodeId} (h : Adds t t' none ids) {i : NodeId} (lt : i < t.size) :
    (t'.node i).written = (t.node i).written := h.kept i lt (Option.some_ne_none i)

/-- Numbering puts the expression onto new nodes, and it stays there as long as those do. -/
def Numbered (e : Expr) : Prop :=
  ∀ t : Tree, ∃ ids id t', Build.expr e t = (id, t') ∧ Adds t t' none ids ∧ id ∈ ids
    ∧ ∀ later : Tree, (∀ i ∈ ids, (later.node i).written = (t'.node i).written) → later.Bears id e

theorem numbered_name (x : String) : Numbered (.name x) := by
  intro t
  have leaf := bound_of_leaf (t := t) (n := { category := .var, name := x }) rfl
  refine ⟨[t.size], t.size, _, rfl, adds_insert leaf, List.mem_cons_self, fun later same => ?_⟩
  exact .name ((same _ List.mem_cons_self).trans (written_insert_new leaf))

theorem numbered_literal (kind : LiteralKind) (s : String) : Numbered (.literal kind s) := by
  intro t
  have leaf := bound_of_leaf (t := t) (n := { category := kind.category, value := some s }) rfl
  refine ⟨[t.size], t.size, _, rfl, adds_insert leaf, List.mem_cons_self, fun later same => ?_⟩
  exact .literal ((same _ List.mem_cons_self).trans (written_insert_new leaf))

/-- An operator with one operand goes behind that. -/
theorem numbered_unary {x : Expr} (operator : e.category.isOperator) (operands : e.operands = [x])
    (build : ∀ t, Build.expr e t
      = ((Build.expr x t).2.size,
        (Build.expr x t).2.insert { category := e.category, children := [(Build.expr x t).1] }))
    (h : Numbered x) : Numbered e := by
  intro t
  obtain ⟨ids, child, t₁, run, adds, mem, bears⟩ := h t
  have bound : ∀ i ∈ [child], i < t₁.size :=
    List.forall_mem_singleton.mpr (adds.below child mem)
  have inserts := adds_insert (n := { category := e.category, children := [child] }) bound
  have new := written_insert_new (n := { category := e.category, children := [child] }) bound
  refine ⟨ids ++ [t₁.size], t₁.size, t₁.insert { category := e.category, children := [child] }, ?_,
    adds.trans inserts, by simp, fun later same => ?_⟩
  · rw [build, run]
  · have here := (same _ (by simp)).trans new
    refine .of_forall₂ _ operator here ?_
    rw [operands]
    refine .cons (bears later fun i there => ?_) .nil
    exact (same i (List.mem_append_left _ there)).trans (inserts.unchanged (adds.below i there))

/-- Further operands go onto new nodes, below the node of their chain. -/
theorem numbered_operands {parent : NodeId} : ∀ {es : List Expr}, (∀ e ∈ es, Numbered e) →
    ∀ {t : Tree}, parent < t.size →
      ∃ ids roots, Adds t (Build.operands parent es t).2 (some parent) ids
        ∧ (∀ later : Tree, (∀ i ∈ ids,
            (later.node i).written = ((Build.operands parent es t).2.node i).written) →
          List.Forall₂ later.Bears roots es)
        ∧ ((Build.operands parent es t).2.node parent).written
          = { (t.node parent).written with children := t.children parent ++ roots }
  | [], _, t, _ => by
    refine ⟨[], [], ⟨rfl, fun _ mem => absurd mem List.not_mem_nil, fun _ _ _ => rfl⟩, fun _ _ => .nil, ?_⟩
    rw [List.append_nil]
    rfl
  | e :: es, h, t, lt => by
    obtain ⟨numbered, others⟩ := List.forall_mem_cons.mp h
    obtain ⟨ids, id, t₁, run, adds, mem, bears⟩ := numbered t
    have there := adds.range id mem
    have ne : parent ≠ id := Nat.ne_of_lt (Nat.lt_of_lt_of_le lt there.1)
    have adopts := adds_adopt there.2 ne
    have lt₂ : parent < (t₁.adopt parent id).size := by
      rw [size_adopt]
      exact Nat.lt_of_lt_of_le lt adds.le
    obtain ⟨ids', roots, adds', all, grown⟩ := numbered_operands others lt₂
    have grows := adopts.trans adds'
    have other : ∀ i ∈ ids, some i ≠ some parent := fun i here eq =>
      Nat.lt_irrefl parent (Nat.lt_of_lt_of_le lt (Option.some.inj eq ▸ (adds.range i here).1))
    rw [operands_cons run]
    refine ⟨ids ++ ids', id :: roots, (adds.weaken _).trans grows, fun later agrees => ?_, ?_⟩
    · refine .cons (bears later fun i here => ?_) (all later fun i here => ?_)
      · exact (agrees i (List.mem_append_left _ here)).trans
          (grows.kept i (adds.below i here) (other i here))
      · exact agrees i (List.mem_append_right _ here)
    · exact grown.trans (adds.written_adopt lt ne roots)

/-- An operator with two operands goes behind those, and in front of further ones. -/
theorem numbered_binary {first second : Expr} {more : List Expr} (operator : e.category.isOperator)
    (operands : e.operands = first :: second :: more)
    (build : ∀ t, Build.expr e t = (let a := Build.expr first t; let b := Build.expr second a.2;
      (b.2.size,
        (Build.operands b.2.size more
          (b.2.insert { category := e.category, children := [a.1, b.1] })).2)))
    (h : ∀ x ∈ e.operands, Numbered x) : Numbered e := by
  intro t
  rw [operands] at h
  obtain ⟨hfirst, h⟩ := List.forall_mem_cons.mp h
  obtain ⟨hsecond, others⟩ := List.forall_mem_cons.mp h
  obtain ⟨ids, a, t₁, run, adds, mem, bears⟩ := hfirst t
  obtain ⟨ids', b, t₂, run', adds', mem', bears'⟩ := hsecond t₁
  have bound : ∀ i ∈ [a, b], i < t₂.size := by
    refine List.forall_mem_cons.mpr ⟨?_, List.forall_mem_singleton.mpr (adds'.below b mem')⟩
    exact Nat.lt_of_lt_of_le (adds.below a mem) adds'.le
  have inserts := adds_insert (n := { category := e.category, children := [a, b] }) bound
  have new := node_insert_new (n := { category := e.category, children := [a, b] }) bound
  generalize grown : t₂.insert { category := e.category, children := [a, b] } = t₃ at inserts new
  have lt : t₂.size < t₃.size := inserts.below _ List.mem_cons_self
  obtain ⟨ids'', roots, adds'', all, self⟩ := numbered_operands others lt
  have step : Build.expr e t = (t₂.size, (Build.operands t₂.size more t₃).2) := by
    rw [build, run]
    dsimp only
    rw [run', ← grown]
  generalize (Build.operands t₂.size more t₃).2 = last at step adds'' all self
  have rest : Adds t₂ last (some t₂.size) ([t₂.size] ++ ids'') := (inserts.weaken _).trans adds''
  have before : ∀ i < t₂.size, (last.node i).written = (t₂.node i).written := fun i lt =>
    rest.kept i lt fun eq => Nat.lt_irrefl _ (Option.some.inj eq ▸ lt)
  have written : (last.node t₂.size).written
      = { category := e.category, children := a :: b :: roots } := by
    rw [self, Tree.children, new]
    rfl
  refine ⟨ids ++ ids' ++ ([t₂.size] ++ ids''), t₂.size, last, step,
    (((adds.trans adds').weaken _).trans rest).forget (Nat.le_trans adds.le adds'.le), by simp,
    fun later same => ?_⟩
  have here := (same t₂.size (by simp)).trans written
  refine .of_forall₂ _ operator here ?_
  rw [operands]
  refine .cons (bears later fun i there => ?_)
    (.cons (bears' later fun i there => ?_) (all later fun i there => same i (by simp [there])))
  · have lt := adds.below i there
    exact ((same i (by simp [there])).trans (before i (Nat.lt_of_lt_of_le lt adds'.le))).trans
      (adds'.unchanged lt)
  · exact (same i (by simp [there])).trans (before i (adds'.below i there))

/-- Formulas are borne by new nodes. -/
theorem numbered_of_formula (h : e.Formula) : Numbered e := by
  induction h with
  | name x => exact numbered_name x
  | literal kind s => exact numbered_literal kind s
  | @operator e operator _ ih =>
    cases e with
    | paren x | sign op x | transpose op x =>
      exact numbered_unary operator rfl (fun t => rfl) (ih x List.mem_cons_self)
    | chain op first second more | compare op left right =>
      exact numbered_binary operator rfl (fun t => rfl) ih
    | literal kind s => exact numbered_literal kind s
    | name x => exact numbered_name x
    | _ => cases operator

/-! ## One assignment -/

/-- The tree is that of one assignment of `e` to the variable `y`. -/
structure Assigns (t : Tree) (y : String) (e : Expr) (root statement target value : NodeId) :
    Prop where
  top : t.root = some root
  block : (t.node root).written = { category := .block, children := [statement] }
  assign : (t.node statement).written = { category := .assign, children := [target, value] }
  destination : (t.node target).written = { category := .var, name := y }
  value : t.Bears value e

theorem exists_assign_ofProgram (y : String) (h : Numbered e) :
    ∃ root statement target value,
      (ofProgram [.statement (.assign (.variable y) e)]).Assigns y e root statement target value := by
  obtain ⟨ids, value, t, run, adds, mem, bears⟩ := h (empty.insert { category := .var, name := y })
  obtain ⟨t', tree, rest, block, assign, target⟩ := ofProgram_assign run adds mem
  rw [tree]
  exact ⟨t.size + 1, t.size, 0, value, rfl, block, assign, target,
    bears (t'.withRoot (t.size + 1)) fun i there => rest.unchanged (adds.below i there)⟩

end Tree

end MatrixScript
