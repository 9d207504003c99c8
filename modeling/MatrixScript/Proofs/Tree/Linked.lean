/-
# `Proofs.Tree.Linked` — links lead to nodes

Whatever is numbered, every link leads to a node that there is (`Tree.Linked`), and the
numbers that are answered are those of nodes (`Build.Makes`, with the numbers that have
to stay valid meanwhile).  Together with `Build.Relocates` this says what a piece of a
program does to the nodes before it: nothing.  It appends nodes of its own and links
these among themselves (`Build.Extends`).
-/
import MatrixScript.Proofs.Tree.Relocation

namespace MatrixScript

namespace Tree

/-- Every child is a node of the tree. -/
def Linked (t : Tree) : Prop := ∀ i, ∀ child ∈ t.children i, child < t.size

variable {t : Tree}

theorem linked_empty : empty.Linked := fun _ _ mem => absurd mem List.not_mem_nil

theorem Linked.insert {n : Node} (h : t.Linked) (bound : ∀ child ∈ n.children, child < t.size) :
    (t.insert n).Linked := by
  intro i child mem
  rw [size_insert]
  have attached := attaches_insert bound
  by_cases new : i = t.size
  · rw [new, children, node_insert_new bound] at mem
    exact Nat.lt_succ_of_lt (bound child mem)
  · rw [attached.other i new, children, node_pushNode_of_ne new] at mem
    exact Nat.lt_succ_of_lt (h i child mem)

theorem Linked.adopt {parent child : NodeId} (h : t.Linked) (lt : child < t.size) :
    (t.adopt parent child).Linked := by
  intro i other mem
  rw [size_adopt]
  have kept : ((t.modify child fun n => { n with parent := some parent }).node i).children
      = t.children i :=
    field_modify Node.children (f := fun n => { n with parent := some parent }) (fun _ => rfl) t child i
  rw [children, Tree.adopt, node_modify] at mem
  split at mem
  · rcases List.mem_append.mp mem with mem | mem
    · exact h i other (kept ▸ mem)
    · rwa [List.mem_singleton.mp mem]
  · exact h i other (kept ▸ mem)

namespace Build

variable {α β : Type} {ids : List NodeId}

/-! ## Numbering -/

theorem mem_behind (as bs : List NodeId) {i : NodeId} (mem : i ∈ as ++ bs) :
    i ∈ ids ++ as ++ bs := by
  rw [List.append_assoc]
  exact List.mem_append_right _ mem

/-- From a tree whose links lead to nodes, `b` makes another one.  The numbers `ids` stay
those of nodes, and what it answers has the numbers of nodes too. -/
def Links (ids : List NodeId) (numbers : α → List NodeId) (b : Build α) : Prop :=
  ∀ t : Tree, t.Linked → (∀ i ∈ ids, i < t.size) →
    (b t).2.Linked ∧ ∀ i ∈ ids ++ numbers (b t).1, i < (b t).2.size

theorem links_pure {numbers : α → List NodeId} (a : α) (known : ∀ i ∈ numbers a, i ∈ ids) :
    Links ids numbers (pure a) := fun _ linked lt =>
  ⟨linked, fun i mem => lt i ((List.mem_append.mp mem).elim id (known i))⟩

theorem Links.bind {numbers : α → List NodeId} {numbers' : β → List NodeId} {b : Build α}
    {f : α → Build β} (h : Links ids numbers b) (h' : ∀ a, Links (ids ++ numbers a) numbers' (f a)) :
    Links ids numbers' (b >>= f) := by
  intro t linked lt
  obtain ⟨linked', lt'⟩ := h t linked lt
  obtain ⟨linked'', lt''⟩ := h' (b t).1 (b t).2 linked' lt'
  refine ⟨linked'', fun i mem => lt'' i ?_⟩
  rcases List.mem_append.mp mem with mem | mem
  · exact List.mem_append_left _ (List.mem_append_left _ mem)
  · exact List.mem_append_right _ mem

theorem links_node (c : Category) (x : String) {children : List NodeId}
    (known : ∀ i ∈ children, i ∈ ids) : Links ids ([·]) (node c x children) := by
  intro t linked lt
  have bound : ∀ i ∈ children, i < t.size := fun i mem => lt i (known i mem)
  refine ⟨linked.insert (n := { category := c, name := x, children }) bound, fun i mem => ?_⟩
  show i < (t.insert _).size
  rw [size_insert]
  rcases List.mem_append.mp mem with mem | mem
  · exact Nat.lt_succ_of_lt (lt i mem)
  · rw [List.mem_singleton.mp mem]
    exact Nat.lt_succ_self _

theorem links_literal (c : Category) (value : String) : Links ids ([·]) (literal c value) := by
  intro t linked lt
  have none : ∀ i ∈ ([] : List NodeId), i < t.size := fun _ mem => absurd mem List.not_mem_nil
  refine ⟨linked.insert (n := { category := c, value := some value }) none, fun i mem => ?_⟩
  show i < (t.insert _).size
  rw [size_insert]
  rcases List.mem_append.mp mem with mem | mem
  · exact Nat.lt_succ_of_lt (lt i mem)
  · rw [List.mem_singleton.mp mem]
    exact Nat.lt_succ_self _

theorem links_adoptAll (parent : NodeId) {children : List NodeId}
    (known : ∀ i ∈ children, i ∈ ids) : Links ids (fun _ => []) (adoptAll parent children) := by
  intro t linked lt
  show (children.foldl (fun t i => t.adopt parent i) t).Linked
    ∧ ∀ i ∈ ids ++ [], i < (children.foldl (fun t i => t.adopt parent i) t).size
  rw [List.append_nil]
  induction children generalizing t with
  | nil => exact ⟨linked, lt⟩
  | cons child children ih =>
    have here := lt child (known child List.mem_cons_self)
    refine ih (fun i mem => known i (List.mem_cons_of_mem _ mem)) (t.adopt parent child)
      (linked.adopt here) fun i mem => ?_
    rw [size_adopt]
    exact lt i mem

theorem links_each {one : α → Build NodeId} (h : ∀ a ids, Links ids ([·]) (one a)) :
    ∀ (as : List α) (ids : List NodeId), Links ids id (each one as)
  | [], _ => links_pure [] fun _ mem => absurd mem List.not_mem_nil
  | a :: as, ids => (h a ids).bind fun i => (links_each h as _).bind fun more =>
      links_pure (i :: more) fun _ => mem_behind [i] more

/-- A call: the node first, then its arguments. -/
theorem links_call (c : Category) (f : String) {b : Build (List NodeId)}
    (h : ∀ ids, Links ids id b) (ids : List NodeId) :
    Links ids ([·]) (do let id ← node c f []; adoptAll id (← b); return id) :=
  (links_node c f fun _ mem => absurd mem List.not_mem_nil).bind fun i =>
    (h _).bind fun children =>
      (links_adoptAll i fun _ mem => List.mem_append_right _ mem).bind fun _ =>
        links_pure i fun j mem => by
          rw [List.mem_singleton.mp mem]
          simp

/-! ### Expressions -/

/-- One node below those that are there. -/
theorem links_over {b : Build NodeId} (c : Category) (h : Links ids ([·]) b) :
    Links ids ([·]) (do node c "" [← b]) :=
  h.bind fun _ => links_node c "" fun _ mem => List.mem_append_right _ mem

theorem links_rows : ∀ (elements : List (List NodeId)) (ids : List NodeId),
    (∀ row ∈ elements, ∀ i ∈ row, i ∈ ids) → Links ids id (each (node .row "") elements)
  | [], _, _ => links_pure [] fun _ mem => absurd mem List.not_mem_nil
  | row :: elements, ids, known =>
      (links_node .row "" (known row List.mem_cons_self)).bind fun i =>
        (links_rows elements (ids ++ [i]) fun other mem j here =>
          List.mem_append_left _ (known other (List.mem_cons_of_mem _ mem) j here)).bind
        fun more => links_pure (i :: more) fun _ => mem_behind [i] more

mutual

theorem links_expr : ∀ (e : Expr) (ids : List NodeId), Links ids ([·]) (expr e)
  | .name x, _ => links_node .var x fun _ mem => absurd mem List.not_mem_nil
  | .call f arguments, ids => links_call .get f (links_exprs arguments) ids
  | .cellCall f arguments, ids => links_call .cget f (links_exprs arguments) ids
  | .literal kind text, _ => links_literal kind.category text
  | .last, _ => links_node .last "" fun _ mem => absurd mem List.not_mem_nil
  | .all, _ => links_node .all "" fun _ mem => absurd mem List.not_mem_nil
  | .paren inner, ids => links_over .paren (links_expr inner ids)
  | .matrix rows, ids =>
      (links_rowsOf rows ids).bind fun elements =>
        (links_rows elements _ fun _ mem _ here =>
          List.mem_append_right _ (List.mem_flatten_of_mem mem here)).bind fun _ =>
            links_node .matrix "" fun _ mem => List.mem_append_right _ mem
  | .cell elements, ids =>
      (links_exprs elements ids).bind fun _ =>
        links_node .cell "" fun _ mem => List.mem_append_right _ mem
  | .sign op operand, ids => links_over op.category (links_expr operand ids)
  | .transpose op operand, ids => links_over op.category (links_expr operand ids)
  | .chain op first second more, ids =>
      (links_expr first ids).bind fun a => (links_expr second _).bind fun b =>
        (links_node op.category "" fun _ => mem_behind [a] _).bind fun _ =>
          (links_operands _ more _).bind fun _ => links_pure _ fun i mem => by
            rw [List.mem_singleton.mp mem]
            simp
  | .compare op left right, ids =>
      (links_expr left ids).bind fun a => (links_expr right _).bind fun b =>
        links_node op.category "" fun _ => mem_behind [a] _
  | .range start stop, ids =>
      (links_expr start ids).bind fun a => (links_expr stop _).bind fun b =>
        links_node .range "" fun _ => mem_behind [a] _
  | .stepped start step stop, ids =>
      (links_expr start ids).bind fun a => (links_expr step _).bind fun b =>
        (links_expr stop _).bind fun c =>
          links_node .range "" fun _ mem => by
            rw [List.append_assoc]
            exact mem_behind [a] _ mem

theorem links_exprs : ∀ (es : List Expr) (ids : List NodeId), Links ids id (exprs es)
  | [], _ => links_pure [] fun _ mem => absurd mem List.not_mem_nil
  | e :: es, ids => (links_expr e ids).bind fun i => (links_exprs es _).bind fun more =>
      links_pure (i :: more) fun _ => mem_behind [i] more

theorem links_rowsOf : ∀ (rows : List (List Expr)) (ids : List NodeId),
    Links ids List.flatten (rowsOf rows)
  | [], _ => links_pure [] fun _ mem => absurd mem List.not_mem_nil
  | row :: rows, ids => (links_exprs row ids).bind fun first => (links_rowsOf rows _).bind fun more =>
      links_pure (first :: more) fun _ => mem_behind _ _

theorem links_operands : ∀ (parent : NodeId) (es : List Expr) (ids : List NodeId),
    Links ids (fun _ => []) (operands parent es)
  | _, [], _ => links_pure _ fun _ mem => absurd mem List.not_mem_nil
  | parent, e :: es, ids => (links_expr e ids).bind fun _ =>
      (links_adoptAll parent fun _ mem => List.mem_append_right _ mem).bind fun _ =>
        links_operands parent es _

end

/-! ### Statements and functions -/

theorem links_target : ∀ (d : Target) (ids : List NodeId), Links ids ([·]) (target d)
  | .variable x, _ => links_node .var x fun _ mem => absurd mem List.not_mem_nil
  | .element x arguments, ids => links_call .set x (links_exprs arguments) ids

theorem links_statement : ∀ (s : Statement) (ids : List NodeId), Links ids ([·]) (statement s)
  | .expression e, ids => links_over .statement (links_expr e ids)
  | .assign d value, ids =>
      (links_target d ids).bind fun a => (links_expr value _).bind fun _ =>
        links_node .assign "" fun _ => mem_behind [a] _
  | .assigns targets value, ids =>
      (links_each links_target targets ids).bind fun _ =>
        (links_expr value _).bind fun _ => links_node .assigns "" fun _ => mem_behind _ _
  | .ret, _ => links_node .ret "" fun _ mem => absurd mem List.not_mem_nil
  | .brk, _ => links_node .brk "" fun _ mem => absurd mem List.not_mem_nil
  | .command name words, ids =>
      (links_each (fun w _ => links_literal .str w) words ids).bind fun _ =>
        (links_node .get name fun _ mem => List.mem_append_right _ mem).bind fun _ =>
          links_node .statement "" fun _ mem => List.mem_append_right _ mem

theorem links_function (f : Function) (ids : List NodeId) : Links ids ([·]) (function f) := by
  have names : ∀ xs ids, Links ids id (each named xs) :=
    links_each fun x _ => links_node .var x fun _ mem => absurd mem List.not_mem_nil
  refine (names f.outputs ids).bind fun outputs => (names f.params _).bind fun params =>
    (links_each links_statement f.body _).bind fun body => ?_
  refine (links_node .params "" fun i mem => ?_).bind fun params =>
    (links_node .returns "" fun i mem => ?_).bind fun returns =>
      (links_node .block "" fun i mem => ?_).bind fun block =>
        links_node .function f.name fun i mem => ?_
  all_goals simp at mem ⊢; tauto

theorem links_item : ∀ (i : Item) (ids : List NodeId), Links ids ([·]) (item i)
  | .statement s, ids => links_statement s ids
  | .function f, ids => links_function f ids

/-! ## What is appended to a tree -/

/-- Whatever the tree is, `b` leaves its nodes alone, appends nodes of its own, links these
among themselves only and answers the number of one of them. -/
structure Extends (t : Tree) (b : Build NodeId) : Prop where
  root : (b t).2.root = t.root
  kept : ∀ i < t.size, (b t).2.node i = t.node i
  linked : ∀ i, t.size ≤ i → ∀ child ∈ (b t).2.children i, t.size ≤ child ∧ child < (b t).2.size
  made : t.size ≤ (b t).1 ∧ (b t).1 < (b t).2.size

theorem extends_of_relocates {b : Build NodeId} (moves : Relocates t (behind t) b b)
    (links : Links [] ([·]) b) : Extends t b := by
  obtain ⟨linked, lt⟩ := links empty linked_empty fun _ mem => absurd mem List.not_mem_nil
  have eq : b t = ((b empty).1 + t.size, t ++ (b empty).2) := by
    have moved := moves empty
    rwa [append_empty] at moved
  refine ⟨?_, ?_, ?_, ?_⟩
  all_goals rw [eq]
  case refine_1 => rfl
  case refine_2 => exact fun i below => node_append_left _ below
  case refine_3 =>
    intro i above child mem
    obtain ⟨j, rfl⟩ : ∃ j, i = j + t.size := ⟨i - t.size, by omega⟩
    rw [children, node_append_right] at mem
    obtain ⟨own, held, rfl⟩ := List.mem_map.mp mem
    have bound := linked j own held
    rw [size_append, Nat.add_comm own]
    exact ⟨Nat.le_add_right _ _, Nat.add_lt_add_left bound _⟩
  case refine_4 =>
    have bound := lt _ (List.mem_singleton_self (b empty).1)
    rw [size_append, Nat.add_comm (b empty).1]
    exact ⟨Nat.le_add_right _ _, Nat.add_lt_add_left bound _⟩

theorem extends_expr (t : Tree) (e : Expr) : Extends t (expr e) :=
  extends_of_relocates (relocates_expr t e) (links_expr e [])

theorem extends_statement (t : Tree) (s : Statement) : Extends t (statement s) :=
  extends_of_relocates (relocates_statement t s) (links_statement s [])

theorem extends_function (t : Tree) (f : Function) : Extends t (function f) :=
  extends_of_relocates (relocates_function t f) (links_function f [])

theorem extends_item (t : Tree) (i : Item) : Extends t (item i) :=
  extends_of_relocates (relocates_item t i) (links_item i [])

end Build

end Tree

end MatrixScript
