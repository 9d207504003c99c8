/-
# `Proofs.Tree.Relocation` — numbering does not look back

A piece of a program is numbered in the same way whatever was numbered before it: it
appends the nodes that it appends to an empty tree, with their links moved up by the
number of nodes in front of them, and leaves those alone (`Build.item_eq`).

The proof goes over the functions that append nodes, each of which commutes with
putting nodes in front (`Build.Relocates`).  No program is too odd for that, so there
is nothing to assume about it.
-/
import MatrixScript.Proofs.Tree.Forest
import MatrixScript.Tree.OfProgram

namespace MatrixScript

/-- The node with its links moved up. -/
def Node.shift (k : Nat) (n : Node) : Node :=
  { n with children := n.children.map (· + k), parent := n.parent.map (· + k) }

@[simp] theorem Node.shift_default (k : Nat) : (default : Node).shift k = default := rfl

namespace Tree

/-! ## Trees behind each other -/

/-- The nodes of `s` behind those of `t`. -/
def append (t s : Tree) : Tree := { t with nodes := t.nodes ++ s.nodes.map (Node.shift t.size) }

instance : Append Tree := ⟨append⟩

variable {t s : Tree}

theorem nodes_append (t s : Tree) : (t ++ s).nodes = t.nodes ++ s.nodes.map (Node.shift t.size) :=
  rfl

@[simp] theorem size_append (t s : Tree) : (t ++ s).size = t.size + s.size := by
  simp [size, nodes_append]

@[simp] theorem append_empty (t : Tree) : t ++ empty = t := by
  show Tree.mk (t.nodes ++ #[].map _) t.root = t
  simp

theorem node_append_left (s : Tree) {i : NodeId} (lt : i < t.size) : (t ++ s).node i = t.node i := by
  have lt' : i < t.nodes.size := lt
  rw [node_eq_getD, node_eq_getD, nodes_append, Array.getElem?_append_left lt']

theorem node_append_right (t s : Tree) (i : NodeId) :
    (t ++ s).node (i + t.size) = (s.node i).shift t.size := by
  have ge : t.nodes.size ≤ i + t.nodes.size := Nat.le_add_left ..
  rw [node_eq_getD, node_eq_getD, nodes_append, size, Array.getElem?_append_right ge,
    Nat.add_sub_cancel, Array.getElem?_map]
  cases s.nodes[i]? <;> rfl

theorem modify_append (t s : Tree) (i : NodeId) {f g : Node → Node}
    (moves : ∀ n, g (n.shift t.size) = (f n).shift t.size) :
    (t ++ s).modify (i + t.size) g = t ++ s.modify i f := by
  have nodes : ((t ++ s).modify (i + t.size) g).nodes = (t ++ s.modify i f).nodes := by
    apply Array.ext_getElem?
    intro j
    show ((t ++ s).nodes.modify (i + t.size) g)[j]? = (t.nodes ++ (s.nodes.modify i f).map _)[j]?
    rw [Array.getElem?_modify, nodes_append]
    rcases Nat.lt_or_ge j t.nodes.size with lt | ge
    · have ne : i + t.size ≠ j := Nat.ne_of_gt (Nat.lt_of_lt_of_le lt (Nat.le_add_left ..))
      rw [if_neg ne, Array.getElem?_append_left lt, Array.getElem?_append_left lt]
    · obtain ⟨k, rfl⟩ : ∃ k, j = k + t.nodes.size := ⟨j - t.nodes.size, by omega⟩
      have same : i + t.size = k + t.nodes.size ↔ i = k := Nat.add_right_cancel_iff
      rw [Array.getElem?_append_right ge, Array.getElem?_append_right ge, Nat.add_sub_cancel,
        Array.getElem?_map, Array.getElem?_map, Array.getElem?_modify]
      by_cases here : i = k
      · rw [if_pos (same.mpr here), if_pos here, Option.map_map, Option.map_map]
        exact congrArg (Option.map · _) (funext moves)
      · rw [if_neg (mt same.mp here), if_neg here]
  show Tree.mk ((t ++ s).modify (i + t.size) g).nodes t.root = Tree.mk _ t.root
  rw [nodes]
  rfl

theorem setParents_append (t : Tree) (parent : NodeId) :
    ∀ (ids : List NodeId) (s : Tree), (t ++ s).setParents (parent + t.size) (ids.map (· + t.size))
      = t ++ s.setParents parent ids
  | [], _ => rfl
  | id :: ids, s => by
    show setParents ((t ++ s).modify (id + t.size) _) _ (ids.map _) = t ++ setParents _ _ ids
    rw [modify_append (f := fun n => { n with parent := some parent }) t s id fun _ => rfl]
    exact setParents_append t parent ids _

theorem insert_append (t s : Tree) (n : Node) :
    (t ++ s).insert (n.shift t.size) = t ++ s.insert n := by
  have pushed : (t ++ s).pushNode (n.shift t.size) = t ++ s.pushNode n := by
    show Tree.mk ((t ++ s).nodes.push _) t.root = Tree.mk (t.nodes ++ (s.nodes.push n).map _) t.root
    rw [nodes_append, Array.map_push, Array.append_push]
  rw [insert_eq, insert_eq, pushed, size_append, Nat.add_comm]
  exact setParents_append t s.size n.children _

theorem adopt_append (t s : Tree) (parent child : NodeId) :
    (t ++ s).adopt (parent + t.size) (child + t.size) = t ++ s.adopt parent child := by
  unfold adopt
  rw [modify_append (f := fun n => { n with parent := some parent }) t s child fun _ => rfl]
  refine modify_append t _ parent fun n => ?_
  simp only [Node.shift, List.map_append, List.map_cons, List.map_nil]

/-! ## Building -/

namespace Build

variable {α β : Type}

/-- Behind `t`, the computation `b'` appends what `b` appends, and answers it moved. -/
def Relocates (t : Tree) (move : α → α) (b b' : Build α) : Prop :=
  ∀ s, b' (t ++ s) = (move (b s).1, t ++ (b s).2)

theorem relocates_pure {move : α → α} (a : α) : Relocates t move (pure a) (pure (move a)) :=
  fun _ => rfl

theorem Relocates.bind {move : α → α} {move' : β → β} {b b' : Build α} {f f' : α → Build β}
    (h : Relocates t move b b') (h' : ∀ a, Relocates t move' (f a) (f' (move a))) :
    Relocates t move' (b >>= f) (b' >>= f') := by
  intro s
  show f' (b' (t ++ s)).1 (b' (t ++ s)).2 = _
  rw [h s]
  exact h' _ _

variable (t)

/-- The number of a node behind `t`. -/
def behind (id : NodeId) : NodeId := id + t.size

theorem relocates_node (c : Category) (x : String) (ids : List NodeId) :
    Relocates t (behind t) (node c x ids) (node c x (ids.map (behind t))) := by
  intro s
  have inserted := insert_append t s { category := c, name := x, children := ids }
  show ((t ++ s).size, (t ++ s).insert _) = (s.size + t.size, t ++ s.insert _)
  rw [← inserted, size_append, Nat.add_comm]
  rfl

theorem relocates_literal (c : Category) (value : String) :
    Relocates t (behind t) (literal c value) (literal c value) := by
  intro s
  have inserted := insert_append t s { category := c, value := some value }
  show ((t ++ s).size, (t ++ s).insert _) = (s.size + t.size, t ++ s.insert _)
  rw [← inserted, size_append, Nat.add_comm]
  rfl

theorem relocates_adoptAll (parent : NodeId) (ids : List NodeId) :
    Relocates t id (adoptAll parent ids) (adoptAll (behind t parent) (ids.map (behind t))) := by
  intro s
  show (PUnit.unit, (ids.map (behind t)).foldl (fun u id => u.adopt (behind t parent) id) (t ++ s))
    = (PUnit.unit, t ++ ids.foldl (fun u id => u.adopt parent id) s)
  induction ids generalizing s with
  | nil => rfl
  | cons i ids ih =>
    rw [List.map_cons, List.foldl_cons, List.foldl_cons]
    rw [show (t ++ s).adopt (behind t parent) (behind t i) = t ++ s.adopt parent i from
      adopt_append t s parent i]
    exact ih _

variable {t}

theorem relocates_each {one : α → Build NodeId}
    (h : ∀ a, Relocates t (behind t) (one a) (one a)) :
    ∀ as, Relocates t (List.map (behind t)) (each one as) (each one as)
  | [] => relocates_pure []
  | a :: as => (h a).bind fun id => (relocates_each h as).bind fun ids =>
      relocates_pure (id :: ids)

/-- A call: the node first, then its arguments. -/
theorem relocates_call (c : Category) (f : String) {b : Build (List NodeId)}
    (h : Relocates t (List.map (behind t)) b b) :
    Relocates t (behind t) (do let id ← node c f []; adoptAll id (← b); return id)
      (do let id ← node c f []; adoptAll id (← b); return id) :=
  (relocates_node t c f []).bind fun id => h.bind fun ids =>
    (relocates_adoptAll t id ids).bind fun _ => relocates_pure id

/-! ### Expressions -/

variable (t)

theorem relocates_rows : ∀ elements : List (List NodeId),
    Relocates t (List.map (behind t)) (each (node .row "") elements)
      (each (node .row "") (elements.map (List.map (behind t))))
  | [] => relocates_pure []
  | ids :: elements => (relocates_node t .row "" ids).bind fun id =>
      (relocates_rows elements).bind fun rest => relocates_pure (id :: rest)

mutual

theorem relocates_expr : ∀ e : Expr, Relocates t (behind t) (expr e) (expr e)
  | .name x => relocates_node t .var x []
  | .call f arguments => relocates_call .get f (relocates_exprs arguments)
  | .cellCall f arguments => relocates_call .cget f (relocates_exprs arguments)
  | .literal kind text => relocates_literal t kind.category text
  | .last => relocates_node t .last "" []
  | .all => relocates_node t .all "" []
  | .paren inner => (relocates_expr inner).bind fun a => relocates_node t .paren "" [a]
  | .matrix rows =>
      (relocates_rowsOf rows).bind fun elements =>
        (relocates_rows t elements).bind fun ids => relocates_node t .matrix "" ids
  | .cell elements => (relocates_exprs elements).bind fun ids => relocates_node t .cell "" ids
  | .sign op operand =>
      (relocates_expr operand).bind fun a => relocates_node t op.category "" [a]
  | .transpose op operand =>
      (relocates_expr operand).bind fun a => relocates_node t op.category "" [a]
  | .chain op first second more =>
      (relocates_expr first).bind fun a => (relocates_expr second).bind fun b =>
        (relocates_node t op.category "" [a, b]).bind fun id =>
          (relocates_operands id more).bind fun _ => relocates_pure id
  | .compare op left right =>
      (relocates_expr left).bind fun a => (relocates_expr right).bind fun b =>
        relocates_node t op.category "" [a, b]
  | .range start stop =>
      (relocates_expr start).bind fun a => (relocates_expr stop).bind fun b =>
        relocates_node t .range "" [a, b]
  | .stepped start step stop =>
      (relocates_expr start).bind fun a => (relocates_expr step).bind fun b =>
        (relocates_expr stop).bind fun c => relocates_node t .range "" [a, b, c]

theorem relocates_exprs : ∀ es : List Expr,
    Relocates t (List.map (behind t)) (exprs es) (exprs es)
  | [] => relocates_pure []
  | e :: es => (relocates_expr e).bind fun id => (relocates_exprs es).bind fun ids =>
      relocates_pure (id :: ids)

theorem relocates_rowsOf : ∀ rows : List (List Expr),
    Relocates t (List.map (List.map (behind t))) (rowsOf rows) (rowsOf rows)
  | [] => relocates_pure []
  | row :: rows => (relocates_exprs row).bind fun ids => (relocates_rowsOf rows).bind fun rest =>
      relocates_pure (ids :: rest)

theorem relocates_operands : ∀ (parent : NodeId) (es : List Expr),
    Relocates t id (operands parent es) (operands (behind t parent) es)
  | _, [] => relocates_pure _
  | parent, e :: es => (relocates_expr e).bind fun a =>
      (relocates_adoptAll t parent [a]).bind fun _ => relocates_operands parent es

end

/-! ### Statements, functions, programs -/

theorem relocates_target : ∀ d : Target, Relocates t (behind t) (target d) (target d)
  | .variable x => relocates_node t .var x []
  | .element x arguments => relocates_call .set x (relocates_exprs t arguments)

theorem relocates_statement : ∀ s : Statement,
    Relocates t (behind t) (statement s) (statement s)
  | .expression e => (relocates_expr t e).bind fun a => relocates_node t .statement "" [a]
  | .assign d value =>
      (relocates_target t d).bind fun a => (relocates_expr t value).bind fun b =>
        relocates_node t .assign "" [a, b]
  | .assigns targets value =>
      (relocates_each (relocates_target t) targets).bind fun destinations =>
        (relocates_expr t value).bind fun b => by
          have moved := relocates_node t .assigns "" (destinations ++ [b])
          rwa [List.map_append] at moved
  | .ret => relocates_node t .ret "" []
  | .brk => relocates_node t .brk "" []
  | .command name words =>
      (relocates_each (relocates_literal t .str) words).bind fun ids =>
        (relocates_node t .get name ids).bind fun call => relocates_node t .statement "" [call]

theorem relocates_function (f : Function) :
    Relocates t (behind t) (function f) (function f) :=
  have names := relocates_each fun x => relocates_node t .var x []
  (names f.outputs).bind fun outputs => (names f.params).bind fun params =>
    (relocates_each (relocates_statement t) f.body).bind fun body =>
      (relocates_node t .params "" params).bind fun params =>
        (relocates_node t .returns "" outputs).bind fun returns =>
          (relocates_node t .block "" body).bind fun block =>
            relocates_node t .function f.name [params, returns, block]

theorem each_named_eq (xs : List String) :
    each named xs t = ((each named xs empty).1.map (· + t.size), t ++ (each named xs empty).2) := by
  have moved := relocates_each (fun x => relocates_node t .var x []) xs empty
  rwa [append_empty] at moved

theorem relocates_item : ∀ i : Item, Relocates t (behind t) (item i) (item i)
  | .statement s => relocates_statement t s
  | .function f => relocates_function t f

theorem each_statement_eq (body : List Statement) :
    each statement body t
      = ((each statement body empty).1.map (· + t.size), t ++ (each statement body empty).2) := by
  have moved := relocates_each (relocates_statement t) body empty
  rwa [append_empty] at moved

theorem items_eq (p : Program) :
    each item p t = ((each item p empty).1.map (· + t.size), t ++ (each item p empty).2) := by
  have moved := relocates_each (relocates_item t) p empty
  rwa [append_empty] at moved

end Build

end Tree

end MatrixScript
