/-
# `Proofs.Tree.Stands` — where an expression stands in a tree

`Tree.Stands t ids id e` says that the tree holds the expression `e` at the node
`id`, and that `ids` are the nodes that it takes up, each of them once.  So what
is done at other nodes does not touch the expression, and its operands do not
touch each other.  The nodes are compared as they are written: without parents
and without what translation fills in.

Numbering puts an expression of plain arithmetic onto nodes that were not there
before (`Tree.numbers_of_scalar`).
-/
import MatrixScript.Proofs.Program.Scalar
import MatrixScript.Proofs.Tree.Forest
import MatrixScript.Tree.OfProgram

namespace MatrixScript

/-- The node without its parent, its typing and its texts. -/
def Node.written (n : Node) : Node :=
  { category := n.category, name := n.name, value := n.value, children := n.children,
    redirect := n.redirect }

namespace Node

section Written

variable {n m : Node} (h : n.written = m)
include h

theorem category_of_written : n.category = m.category := by
  have eq := congrArg Node.category h
  exact eq

theorem name_of_written : n.name = m.name := by
  have eq := congrArg Node.name h
  exact eq

theorem value_of_written : n.value = m.value := by
  have eq := congrArg Node.value h
  exact eq

theorem children_of_written : n.children = m.children := by
  have eq := congrArg Node.children h
  exact eq

theorem redirect_of_written : n.redirect = m.redirect := by
  have eq := congrArg Node.redirect h
  exact eq

end Written

end Node

namespace Tree

mutual

/-- The expression stands at the node `id` and takes up the nodes `ids`. -/
inductive Stands (t : Tree) : List NodeId → NodeId → Expr → Prop
  | name {id : NodeId} {x : String} :
      (t.node id).written = { category := .var, name := x } → Stands t [id] id (.name x)
  | literal {id : NodeId} {kind : LiteralKind} {s : String} :
      (t.node id).written = { category := kind.category, value := some s } →
      Stands t [id] id (.literal kind s)
  | paren {id child : NodeId} {ids : List NodeId} {e : Expr} :
      (t.node id).written = { category := .paren, children := [child] } → id ∉ ids →
      Stands t ids child e → Stands t (id :: ids) id (.paren e)
  | chain {id : NodeId} {ids children : List NodeId} {op : ChainOp} {first second : Expr}
      {more : List Expr} :
      (t.node id).written = { category := op.category, children } → id ∉ ids →
      StandAll t ids children (first :: second :: more) →
      Stands t (id :: ids) id (.chain op first second more)

/-- The expressions stand at the nodes `roots`, apart from each other. -/
inductive StandAll (t : Tree) : List NodeId → List NodeId → List Expr → Prop
  | nil : StandAll t [] [] []
  | cons {ids ids' roots : List NodeId} {id : NodeId} {e : Expr} {es : List Expr} :
      Stands t ids id e → StandAll t ids' roots es → (∀ i ∈ ids, i ∉ ids') →
      StandAll t (ids ++ ids') (id :: roots) (e :: es)

end

variable {t t' : Tree} {ids : List NodeId} {id : NodeId} {e : Expr}

theorem Stands.mem (h : t.Stands ids id e) : id ∈ ids := by
  cases h with
  | name | literal | paren | chain => exact List.mem_cons_self

theorem StandAll.mem : ∀ {ids roots : List NodeId} {es : List Expr}, t.StandAll ids roots es →
    ∀ i ∈ roots, i ∈ ids
  | _, _, _, .cons first rest _, i, mem => by
    rcases List.mem_cons.mp mem with rfl | mem
    · exact List.mem_append_left _ first.mem
    · exact List.mem_append_right _ (rest.mem i mem)

mutual

/-- What takes place elsewhere does not matter. -/
theorem Stands.congr : ∀ {ids : List NodeId} {id : NodeId} {e : Expr}, t.Stands ids id e →
    (∀ i ∈ ids, (t'.node i).written = (t.node i).written) → t'.Stands ids id e
  | _, _, _, .name h, same => .name ((same _ List.mem_cons_self).trans h)
  | _, _, _, .literal h, same => .literal ((same _ List.mem_cons_self).trans h)
  | _, _, _, .paren h apart inner, same =>
      .paren ((same _ List.mem_cons_self).trans h) apart
        (inner.congr fun i mem => same i (List.mem_cons_of_mem _ mem))
  | _, _, _, .chain h apart operands, same =>
      .chain ((same _ List.mem_cons_self).trans h) apart
        (operands.congr fun i mem => same i (List.mem_cons_of_mem _ mem))

theorem StandAll.congr : ∀ {ids roots : List NodeId} {es : List Expr}, t.StandAll ids roots es →
    (∀ i ∈ ids, (t'.node i).written = (t.node i).written) → t'.StandAll ids roots es
  | _, _, _, .nil, _ => .nil
  | _, _, _, .cons first rest apart, same =>
      .cons (first.congr fun i mem => same i (List.mem_append_left _ mem))
        (rest.congr fun i mem => same i (List.mem_append_right _ mem)) apart

end

/-! ## Growing trees -/

/-- From `t` to `t'` the nodes `ids` are new, and no node but `parent` is written anew. -/
structure Adds (t t' : Tree) (parent : Option NodeId) (ids : List NodeId) : Prop where
  size : t'.size = t.size + ids.length
  range : ∀ i ∈ ids, t.size ≤ i ∧ i < t'.size
  kept : ∀ i < t.size, some i ≠ parent → (t'.node i).written = (t.node i).written

theorem Adds.le {parent : Option NodeId} (h : Adds t t' parent ids) : t.size ≤ t'.size := by
  rw [h.size]
  exact Nat.le_add_right ..

theorem Adds.trans {parent : Option NodeId} {t'' : Tree} {ids' : List NodeId}
    (h : Adds t t' parent ids) (h' : Adds t' t'' parent ids') :
    Adds t t'' parent (ids ++ ids') where
  size := by rw [h'.size, h.size, List.length_append, Nat.add_assoc]
  range i mem := by
    rcases List.mem_append.mp mem with mem | mem
    · exact ⟨(h.range i mem).1, Nat.lt_of_lt_of_le (h.range i mem).2 h'.le⟩
    · exact ⟨Nat.le_trans h.le (h'.range i mem).1, (h'.range i mem).2⟩
  kept i lt ne := (h'.kept i (Nat.lt_of_lt_of_le lt h.le) ne).trans (h.kept i lt ne)

theorem Adds.perm {parent : Option NodeId} {ids' : List NodeId} (h : Adds t t' parent ids)
    (p : ids.Perm ids') : Adds t t' parent ids' where
  size := by rw [← p.length_eq, h.size]
  range i mem := h.range i (p.mem_iff.mpr mem)
  kept := h.kept

theorem Adds.weaken (h : Adds t t' none ids) (parent : Option NodeId) : Adds t t' parent ids where
  size := h.size
  range := h.range
  kept i lt _ := h.kept i lt nofun

/-- A new node may be written anew. -/
theorem Adds.forget {parent : NodeId} (h : Adds t t' (some parent) ids) (new : t.size ≤ parent) :
    Adds t t' none ids where
  size := h.size
  range := h.range
  kept i lt _ := h.kept i lt fun eq =>
    Nat.lt_irrefl i (Nat.lt_of_lt_of_le lt (Option.some.inj eq ▸ new))

/-- Nodes that were there before stand apart from the new ones. -/
theorem Adds.apart {parent : Option NodeId} {ids' : List NodeId} (h : Adds t t' parent ids')
    (before : ∀ i ∈ ids, i < t.size) : ∀ i ∈ ids, i ∉ ids' := by
  intro i mem mem'
  exact Nat.lt_irrefl i (Nat.lt_of_lt_of_le (before i mem) (h.range i mem').1)

theorem Adds.below {parent : Option NodeId} (h : Adds t t' parent ids) :
    ∀ i ∈ ids, i < t'.size := fun i mem => (h.range i mem).2

theorem Stands.adds (h : t.Stands ids id e) {ids' : List NodeId} (more : Adds t t' none ids')
    (before : ∀ i ∈ ids, i < t.size) : t'.Stands ids id e :=
  h.congr fun i mem => more.kept i (before i mem) nofun

theorem written_insert {n : Node} (bound : ∀ child ∈ n.children, child < t.size) {i : NodeId}
    (lt : i < t.size) : ((t.insert n).node i).written = (t.node i).written := by
  by_cases mem : i ∈ n.children
  · rw [node_insert_child bound mem]
    rfl
  · rw [node_insert_of_ne (Nat.ne_of_lt lt) mem]

theorem written_insert_new {n : Node} (bound : ∀ child ∈ n.children, child < t.size) :
    ((t.insert n).node t.size).written = n.written := by
  rw [node_insert_new bound]

theorem bound_of_leaf {n : Node} (leaf : n.children = []) :
    ∀ child ∈ n.children, child < t.size := by
  intro child mem
  rw [leaf] at mem
  cases mem

theorem adds_insert {n : Node} (bound : ∀ child ∈ n.children, child < t.size) :
    Adds t (t.insert n) none [t.size] where
  size := size_insert t n
  range i mem := by
    obtain rfl := List.mem_singleton.mp mem
    rw [size_insert]
    exact ⟨Nat.le_refl _, Nat.lt_succ_self _⟩
  kept i lt _ := written_insert bound lt

theorem adds_adopt {parent child : NodeId} (lt : child < t.size) (ne : parent ≠ child) :
    Adds t (t.adopt parent child) (some parent) [] where
  size := size_adopt ..
  range := nofun
  kept i _ other := by
    have apart : i ≠ parent := fun eq => other (congrArg some eq)
    by_cases eq : i = child
    · rw [eq, node_adopt_child lt ne]
      rfl
    · rw [node_adopt_of_ne apart eq]

/-! ## Numbering -/

/-- Numbering puts the expression onto new nodes. -/
def Numbers (e : Expr) : Prop :=
  ∀ t : Tree, ∃ ids, Adds t (Build.expr e t).2 none ids
    ∧ (Build.expr e t).2.Stands ids (Build.expr e t).1 e

theorem Numbers.run (h : Numbers e) (t : Tree) :
    ∃ ids id t', Build.expr e t = (id, t') ∧ Adds t t' none ids ∧ t'.Stands ids id e := by
  obtain ⟨ids, adds, stands⟩ := h t
  exact ⟨ids, _, _, rfl, adds, stands⟩

theorem operands_cons {parent id : NodeId} {t t' : Tree} (run : Build.expr e t = (id, t'))
    (es : List Expr) :
    Build.operands parent (e :: es) t = Build.operands parent es (t'.adopt parent id) := by
  rw [Build.operands]
  show Build.operands parent es ((Build.expr e t).2.adopt parent (Build.expr e t).1) = _
  rw [run]

/-- A node adopts one that is new, and the nodes `roots` behind it. -/
theorem Adds.written_adopt {t t' : Tree} {ids : List NodeId} (h : Adds t t' none ids)
    {parent id : NodeId} (lt : parent < t.size) (ne : parent ≠ id) (roots : List NodeId) :
    { ((t'.adopt parent id).node parent).written with
        children := (t'.adopt parent id).children parent ++ roots }
      = { (t.node parent).written with children := t.children parent ++ id :: roots } := by
  have same := h.kept parent lt nofun
  have children : t'.children parent = t.children parent :=
    (Node.children_of_written same).trans rfl
  rw [Tree.children, node_adopt_self (Nat.lt_of_lt_of_le lt h.le) ne, children]
  show { (t'.node parent).written with children := t.children parent ++ [id] ++ roots } = _
  rw [same, List.append_assoc]
  rfl

/-- Further operands go onto new nodes, below the node of their chain. -/
theorem operands_stand {parent : NodeId} : ∀ {es : List Expr}, (∀ e ∈ es, Numbers e) →
    ∀ {t : Tree}, parent < t.size →
      ∃ ids roots, Adds t (Build.operands parent es t).2 (some parent) ids
        ∧ (Build.operands parent es t).2.StandAll ids roots es
        ∧ ((Build.operands parent es t).2.node parent).written
          = { (t.node parent).written with children := t.children parent ++ roots }
  | [], _, t, _ => by
    refine ⟨[], [], ⟨rfl, nofun, fun _ _ _ => rfl⟩, .nil, ?_⟩
    rw [List.append_nil]
    rfl
  | e :: es, h, t, lt => by
    obtain ⟨numbers, others⟩ := List.forall_mem_cons.mp h
    obtain ⟨ids, id, t₁, run, adds, stands⟩ := numbers.run t
    have there := adds.range id stands.mem
    have ne : parent ≠ id := Nat.ne_of_lt (Nat.lt_of_lt_of_le lt there.1)
    have adopts := adds_adopt there.2 ne
    have lt₂ : parent < (t₁.adopt parent id).size := by
      rw [size_adopt]
      exact Nat.lt_of_lt_of_le lt adds.le
    obtain ⟨ids', roots, adds', standAll, grown⟩ := operands_stand others lt₂
    have grows := adopts.trans adds'
    rw [operands_cons run]
    refine ⟨ids ++ ids', id :: roots, (adds.weaken _).trans grows, ?_, ?_⟩
    case refine_1 =>
      have first : (Build.operands parent es (t₁.adopt parent id)).2.Stands ids id e := by
        refine stands.congr fun i mem => grows.kept i (adds.below i mem) ?_
        have ge := (adds.range i mem).1
        exact fun eq => Nat.lt_irrefl parent (Nat.lt_of_lt_of_le lt (Option.some.inj eq ▸ ge))
      refine .cons first standAll (adds'.apart fun i mem => ?_)
      rw [size_adopt]
      exact adds.below i mem
    case refine_2 => exact grown.trans (adds.written_adopt lt ne roots)

theorem numbers_name (x : String) : Numbers (.name x) := by
  intro t
  have none := bound_of_leaf (t := t) (n := { category := .var, name := x }) rfl
  exact ⟨[t.size], adds_insert none, .name (written_insert_new none)⟩

theorem numbers_literal (kind : LiteralKind) (s : String) : Numbers (.literal kind s) := by
  intro t
  have none := bound_of_leaf (t := t) (n := { category := kind.category, value := some s }) rfl
  exact ⟨[t.size], adds_insert none, .literal (written_insert_new none)⟩

theorem numbers_paren (h : Numbers e) : Numbers (.paren e) := by
  intro t
  obtain ⟨ids, child, t₁, run, adds, stands⟩ := h.run t
  have step : Build.expr (.paren e) t
      = (t₁.size, t₁.insert { category := .paren, children := [child] }) := by
    rw [Build.expr]
    show ((Build.expr e t).2.size, (Build.expr e t).2.push .paren "" [(Build.expr e t).1]) = _
    rw [run]
    rfl
  have bound : ∀ i ∈ [child], i < t₁.size := by
    intro i mem
    obtain rfl := List.mem_singleton.mp mem
    exact adds.below i stands.mem
  have inserts := adds_insert (n := { category := .paren, children := [child] }) bound
  have new := written_insert_new (n := { category := .paren, children := [child] }) bound
  have apart : t₁.size ∉ ids := fun mem => Nat.lt_irrefl _ (adds.below _ mem)
  rw [step]
  refine ⟨t₁.size :: ids, ?_, .paren new apart (stands.adds inserts adds.below)⟩
  exact (adds.trans inserts).perm (List.perm_append_singleton _ ids)

theorem numbers_chain {op : ChainOp} {first second : Expr} {more : List Expr}
    (h : ∀ e ∈ first :: second :: more, Numbers e) : Numbers (.chain op first second more) := by
  intro t
  obtain ⟨hfirst, h⟩ := List.forall_mem_cons.mp h
  obtain ⟨hsecond, others⟩ := List.forall_mem_cons.mp h
  obtain ⟨ids, a, t₁, run, adds, stands⟩ := hfirst.run t
  obtain ⟨ids', b, t₂, run', adds', stands'⟩ := hsecond.run t₁
  have bound : ∀ i ∈ [a, b], i < t₂.size := by
    intro i mem
    rcases List.mem_cons.mp mem with rfl | mem
    · exact Nat.lt_of_lt_of_le (adds.below i stands.mem) adds'.le
    · obtain rfl := List.mem_singleton.mp mem
      exact adds'.below i stands'.mem
  have inserts := adds_insert (n := { category := op.category, children := [a, b] }) bound
  have new := node_insert_new (n := { category := op.category, children := [a, b] }) bound
  generalize grown : t₂.insert { category := op.category, children := [a, b] } = t₃ at inserts new
  have lt : t₂.size < t₃.size := inserts.below _ List.mem_cons_self
  obtain ⟨ids'', roots, adds'', standAll, self⟩ := operands_stand others lt
  have step : Build.expr (.chain op first second more) t
      = (t₂.size, (Build.operands t₂.size more t₃).2) := by
    rw [Build.expr]
    show (let r := Build.expr first t; let r' := Build.expr second r.2;
      (r'.2.size, (Build.operands r'.2.size more (r'.2.push op.category "" [r.1, r'.1])).2)) = _
    rw [run]
    dsimp only
    rw [run', ← grown]
    rfl
  rw [step]
  generalize (Build.operands t₂.size more t₃).2 = last at adds'' standAll self
  have rest : Adds t₂ last (some t₂.size) ([t₂.size] ++ ids'') := (inserts.weaken _).trans adds''
  have below : ∀ i < t₂.size, (last.node i).written = (t₂.node i).written := fun i lt =>
    rest.kept i lt fun eq => Nat.lt_irrefl _ (Option.some.inj eq ▸ lt)
  have stands₁ : last.Stands ids a first :=
    (stands.adds adds' adds.below).congr fun i mem =>
      below i (Nat.lt_of_lt_of_le (adds.below i mem) adds'.le)
  have stands₂ : last.Stands ids' b second :=
    stands'.congr fun i mem => below i (adds'.below i mem)
  have above : ∀ i ∈ ids'', t₂.size < i := fun i mem => Nat.lt_of_lt_of_le lt (adds''.range i mem).1
  have written : (last.node t₂.size).written
      = { category := op.category, children := a :: b :: roots } := by
    rw [self, Tree.children, new]
    rfl
  refine ⟨t₂.size :: (ids ++ (ids' ++ ids'')), ?_, .chain written ?_ (.cons stands₁ (.cons stands₂
    standAll ?_) ?_)⟩
  case refine_1 =>
    have whole := ((adds.trans adds').weaken (some t₂.size)).trans rest
    have placed := whole.perm List.perm_middle
    rw [List.append_assoc] at placed
    exact placed.forget (Nat.le_trans adds.le adds'.le)
  case refine_2 =>
    intro mem
    rcases List.mem_append.mp mem with mem | mem
    · exact Nat.lt_irrefl _ (Nat.lt_of_lt_of_le (adds.below _ mem) adds'.le)
    · rcases List.mem_append.mp mem with mem | mem
      · exact Nat.lt_irrefl _ (adds'.below _ mem)
      · exact Nat.lt_irrefl _ (above _ mem)
  case refine_3 =>
    intro i mem mem'
    exact Nat.lt_asymm (adds'.below i mem) (above i mem')
  case refine_4 =>
    intro i mem mem'
    rcases List.mem_append.mp mem' with mem' | mem'
    · exact adds'.apart adds.below i mem mem'
    · exact Nat.lt_asymm (Nat.lt_of_lt_of_le (adds.below i mem) adds'.le) (above i mem')

/-- Arithmetic goes onto new nodes. -/
theorem numbers_of_scalar {declarations : NameTable Datatype} {e : Expr}
    (h : e.Scalar declarations) : Numbers e := by
  induction h with
  | name => exact numbers_name _
  | int => exact numbers_literal .int _
  | float => exact numbers_literal .float _
  | paren _ ih => exact numbers_paren ih
  | chain _ _ ih => exact numbers_chain ih

/-! ## One assignment -/

/-- The tree is that of one assignment of `e` to the variable `y`. -/
structure AssignsTo (t : Tree) (y : String) (e : Expr) (root statement target value : NodeId)
    (ids : List NodeId) : Prop where
  top : t.root = some root
  block : (t.node root).written = { category := .block, children := [statement] }
  assign : (t.node statement).written = { category := .assign, children := [target, value] }
  destination : (t.node target).written = { category := .var, name := y }
  stands : t.Stands ids value e
  bound : statement < t.size ∧ target < t.size ∧ ∀ i ∈ ids, i < t.size
  apart : statement ∉ ids ∧ target ∉ ids ∧ statement ≠ target
  length : ids.length ≤ t.size

/-- The assignment and its block go onto two nodes behind those of the value. -/
theorem ofProgram_assign {y : String} {value : NodeId} {t : Tree} {ids : List NodeId}
    (run : Build.expr e (empty.insert { category := .var, name := y }) = (value, t))
    (adds : Adds (empty.insert { category := .var, name := y }) t none ids) (mem : value ∈ ids) :
    ∃ t', ofProgram [.statement (.assign (.variable y) e)] = t'.withRoot (t.size + 1)
      ∧ Adds t t' none [t.size, t.size + 1]
      ∧ (t'.node (t.size + 1)).written = { category := .block, children := [t.size] }
      ∧ (t'.node t.size).written = { category := .assign, children := [0, value] }
      ∧ (t'.node 0).written = { category := .var, name := y } := by
  have zero : 0 < (empty.insert { category := .var, name := y }).size := by
    rw [size_insert]
    exact Nat.succ_pos _
  have below : ∀ i ∈ [0, value], i < t.size :=
    List.forall_mem_cons.mpr
      ⟨Nat.lt_of_lt_of_le zero adds.le, List.forall_mem_singleton.mpr (adds.below value mem)⟩
  have inserts := adds_insert (n := { category := .assign, children := [0, value] }) below
  have new := written_insert_new (n := { category := .assign, children := [0, value] }) below
  have size := size_insert t { category := .assign, children := [0, value] }
  generalize grown : t.insert { category := .assign, children := [0, value] } = t₁ at inserts new size
  have below' : ∀ i ∈ [t.size], i < t₁.size := inserts.below
  have inserts' := adds_insert (n := { category := .block, children := [t.size] }) below'
  have new' := written_insert_new (n := { category := .block, children := [t.size] }) below'
  have rest := inserts.trans inserts'
  rw [size] at new' rest
  refine ⟨_, ?_, rest, new', ?_, ?_⟩
  case refine_1 =>
    show (let r := Build.expr e (empty.insert { category := .var, name := y });
      let t := r.2.insert { category := .assign, children := [0, r.1] };
      (t.insert { category := .block, children := [r.2.size] }).withRoot t.size) = _
    rw [run]
    dsimp only
    rw [grown, size]
  case refine_2 => exact (inserts'.kept _ (inserts.below _ List.mem_cons_self) nofun).trans new
  case refine_3 =>
    rw [(adds.trans rest).kept 0 zero nofun]
    exact written_insert_new (bound_of_leaf (t := empty) (n := { category := .var, name := y }) rfl)

theorem assignsTo_ofProgram (y : String) (h : Numbers e) :
    ∃ root statement target value ids,
      (ofProgram [.statement (.assign (.variable y) e)]).AssignsTo y e root statement target value
        ids := by
  obtain ⟨ids, value, t, run, adds, stands⟩ := h.run (empty.insert { category := .var, name := y })
  obtain ⟨t', tree, rest, block, assign, target⟩ := ofProgram_assign run adds stands.mem
  have size : (empty.insert { category := .var, name := y }).size = 1 := size_insert ..
  have zero : 0 < t.size := Nat.lt_of_lt_of_le (size ▸ Nat.one_pos) adds.le
  rw [tree]
  refine ⟨t.size + 1, t.size, 0, value, ids, rfl, block, assign, target, ?_, ⟨?_, ?_, ?_⟩,
    ⟨?_, ?_, ?_⟩, ?_⟩
  case refine_1 => exact (stands.adds rest adds.below).congr fun _ _ => rfl
  case refine_2 => exact rest.below _ List.mem_cons_self
  case refine_3 => exact Nat.lt_of_lt_of_le zero rest.le
  case refine_4 => exact fun i mem => Nat.lt_of_lt_of_le (adds.below i mem) rest.le
  case refine_5 => exact fun mem => Nat.lt_irrefl _ (adds.below _ mem)
  case refine_6 =>
    intro mem
    have ge := (adds.range 0 mem).1
    omega
  case refine_7 => exact Nat.ne_of_gt zero
  case refine_8 =>
    have length := adds.size
    have le := rest.le
    show ids.length ≤ t'.size
    omega

end Tree

end MatrixScript
