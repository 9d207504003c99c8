/-
# `Proofs.Tree.Layout` — where the items of a program stand in its tree

The nodes of a program are those of its items, one item behind the other, and the
block around them at the end.  Each item takes up a stretch of numbers, in which it is
numbered as if it was alone (`holds_ofProgram`).  Functions do not nest: the function
nodes are the nodes of the function items (`mem_tops_of_function`).
-/
import MatrixScript.Proofs.Tree.OfProgram
import MatrixScript.Proofs.Tree.Relocation
import MatrixScript.Proofs.Translation.InStep

namespace MatrixScript

/-- The nodes differ in their parents only. -/
def Node.Moved (n m : Node) : Prop := m = { n with parent := m.parent }

theorem Node.Moved.trans {n m k : Node} (h : n.Moved m) (h' : m.Moved k) : n.Moved k := by
  unfold Moved at h h' ⊢
  rw [h', h]

namespace Tree

variable {t : Tree} {p q : Program}

theorem Build.each_append {α : Type} (one : α → Build NodeId) (as bs : List α) (t : Tree) :
    each one (as ++ bs) t = ((each one as t).1 ++ (each one bs (each one as t).2).1,
      (each one bs (each one as t).2).2) := by
  induction as generalizing t with
  | nil => rfl
  | cons a as ih =>
    have rest := ih (one a t).2
    show ((one a t).1 :: (each one (as ++ bs) (one a t).2).1, (each one (as ++ bs) (one a t).2).2)
      = _
    rw [rest]
    rfl

/-! ## The forest of the items -/

/-- The nodes of a program but its root. -/
def forest (p : Program) : Tree := (Build.each Build.item p empty).2

/-- The nodes that stand for the items of a program. -/
def tops (p : Program) : List NodeId := (Build.each Build.item p empty).1

theorem forest_append (p q : Program) : forest (p ++ q) = forest p ++ forest q := by
  have behind := Build.items_eq (forest p) q
  rw [forest, Build.each_append]
  exact congrArg Prod.snd behind

theorem tops_append (p q : Program) :
    tops (p ++ q) = tops p ++ (tops q).map (· + (forest p).size) := by
  have behind := Build.items_eq (forest p) q
  rw [tops, Build.each_append]
  exact congrArg (tops p ++ ·.1) behind

theorem forest_cons (i : Item) (p : Program) :
    forest (i :: p) = (Build.item i empty).2 ++ forest p := forest_append [i] p

theorem tops_cons (i : Item) (p : Program) :
    tops (i :: p) = (Build.item i empty).1
      :: (tops p).map (· + (Build.item i empty).2.size) := tops_append [i] p

theorem length_tops (p : Program) : (tops p).length = p.length := by
  induction p with
  | nil => rfl
  | cons i p ih => rw [tops_cons, List.length_cons, List.length_map, ih, List.length_cons]

theorem growing_forest (h : p.Accepted) :
    ∃ made, made.map Prod.fst = tops p ∧ made.map Prod.snd = p.map Item.category
      ∧ (forest p).Growing made := by
  obtain ⟨made, ids, categories, growing⟩ :=
    Build.makesAll_each (fun i mem => Build.makes_item (h i mem)) empty [] growing_empty
  rw [List.append_nil] at growing
  exact ⟨made, ids, categories, growing⟩

theorem forest_forest (h : p.Accepted) : (forest p).Forest (tops p) := by
  obtain ⟨made, ids, -, growing⟩ := growing_forest h
  exact ids ▸ growing.forest

/-! ## The block around the items -/

theorem root_ofProgram (p : Program) : (ofProgram p).root = some (forest p).size := rfl

theorem children_root (h : p.Accepted) : (ofProgram p).children (forest p).size = tops p :=
  congrArg Node.children (node_insert_new (forest_forest h).root)

/-- Only the nodes of the items change: they get a parent. -/
theorem node_ofProgram {i : NodeId} (lt : i < (forest p).size) :
    (ofProgram p).node i = if i ∈ tops p
      then { (forest p).node i with parent := some (forest p).size } else (forest p).node i := by
  have lt' : i < ((forest p).pushNode { category := .block, children := tops p }).size := by
    rw [size_pushNode]
    exact Nat.lt_succ_of_lt lt
  have node := @node_setParents _ (forest p).size (tops p) i lt'
  rw [node_pushNode_of_ne (Nat.ne_of_lt lt)] at node
  exact node

/-! ## Single items -/

/-- In `t` the nodes from `a` on are those of `s`, whose roots stand at the top level. -/
structure Holds (t s : Tree) (a : Nat) : Prop where
  node : ∀ j < s.size, ((s.node j).shift a).Moved (t.node (j + a))
  up : ∀ j q, s.parent? j = some q → t.parent? (j + a) = some (q + a)
  top : ∀ j < s.size, s.parent? j = none → t.parent? (j + a) = t.root

/-- An item between others is numbered as if it was alone. -/
theorem holds_between {before after : Program} {i : Item}
    (h : Program.Accepted (before ++ i :: after)) :
    (ofProgram (before ++ i :: after)).Holds (Build.item i empty).2 (forest before).size := by
  have whole := forest_forest h
  have stretch : ∀ j < (Build.item i empty).2.size, j + (forest before).size
      < (forest (before ++ i :: after)).size ∧ (forest (before ++ i :: after)).node
        (j + (forest before).size) = ((Build.item i empty).2.node j).shift (forest before).size := by
    intro j lt
    rw [forest_append, forest_cons, node_append_right, node_append_left _ lt, size_append,
      size_append]
    exact ⟨by omega, rfl⟩
  have up : ∀ j q, (Build.item i empty).2.parent? j = some q →
      (ofProgram (before ++ i :: after)).parent? (j + (forest before).size)
        = some (q + (forest before).size) := by
    intro j q hq
    obtain ⟨lt, node⟩ := stretch j (lt_size_of_parent? hq)
    have held : (forest (before ++ i :: after)).parent? (j + (forest before).size)
        = some (q + (forest before).size) := by
      rw [Tree.parent?] at hq
      rw [Tree.parent?, node, Node.shift, hq]
      rfl
    rw [Tree.parent?, node_ofProgram lt, if_neg]
    · exact held
    · intro mem
      rw [(whole.free _ mem).up] at held
      cases held
  refine ⟨fun j lt => ?_, up, fun j lt free => ?_⟩
  · obtain ⟨lt, node⟩ := stretch j lt
    rw [node_ofProgram lt, node]
    split
    · rfl
    · rfl
  · obtain ⟨lt, node⟩ := stretch j lt
    have loose : (forest (before ++ i :: after)).parent? (j + (forest before).size) = none := by
      rw [Tree.parent?] at free
      rw [Tree.parent?, node, Node.shift, free]
      rfl
    have top : j + (forest before).size ∈ tops (before ++ i :: after) := by
      by_contra other
      obtain ⟨q, held⟩ := whole.held _ lt other
      rw [held.up] at loose
      cases loose
    rw [Tree.parent?, node_ofProgram lt, if_pos top, root_ofProgram]

/-- Every item of a program is numbered as if it was alone. -/
theorem holds_ofProgram (h : p.Accepted) {k : Nat} {i : Item} (here : p[k]? = some i) :
    ∃ a, (tops p)[k]? = some ((Build.item i empty).1 + a)
      ∧ (ofProgram p).Holds (Build.item i empty).2 a := by
  obtain ⟨before, after, rfl, rfl⟩ : ∃ before after, p = before ++ i :: after ∧ k = before.length := by
    obtain ⟨lt, rfl⟩ := List.getElem?_eq_some_iff.mp here
    exact ⟨p.take k, p.drop (k + 1), by simp, by simp [Nat.le_of_lt lt]⟩
  refine ⟨(forest before).size, ?_, holds_between h⟩
  rw [tops_append, tops_cons, ← length_tops before, List.getElem?_append_right (Nat.le_refl _),
    Nat.sub_self]
  rfl

/-! ## Functions do not nest -/

/-- Below roots that are neither blocks nor functions there is nothing else. -/
theorem Growing.inline {roots : List (NodeId × Category)} (h : t.Growing roots)
    (outer : ∀ r ∈ roots, r.2 ≠ .block ∧ r.2 ≠ .function) {id : NodeId} (lt : id < t.size) :
    t.category id ≠ .block ∧ t.category id ≠ .function := by
  obtain ⟨top, mem, n, climbs⟩ := h.forest.grounded id lt
  -- from the root down
  induction climbs with
  | @here top =>
    obtain ⟨r, hr, rfl⟩ := List.mem_map.mp mem
    rw [h.category r hr]
    exact outer r hr
  | @step id parent top n up _ ih =>
    have other : id ∉ roots.map Prod.fst := fun root => by
      rw [(h.forest.free id root).up] at up
      cases up
    obtain ⟨parent', held⟩ := h.forest.held id lt other
    obtain rfl := Option.some.inj (up.symm.trans held.up)
    have child : id ∈ t.children parent := by
      rw [← List.count_pos_iff, held.once]
      exact Nat.one_pos
    obtain ⟨block, function⟩ := ih held.bound mem
    exact Category.ne_of_isInline (Category.isInline_of_admits (h.shaped parent held.bound).children
      block function (List.mem_map_of_mem child))

theorem moved_push (t : Tree) (c : Category) (x : String) (ids : List NodeId) :
    ∀ i < t.size, (t.node i).Moved ((t.push c x ids).node i) := by
  intro i lt
  have lt' : i < (t.pushNode { category := c, name := x, children := ids }).size := by
    rw [size_pushNode]
    exact Nat.lt_succ_of_lt lt
  have node := @node_setParents _ t.size ids i lt'
  rw [node_pushNode_of_ne (Nat.ne_of_lt lt)] at node
  show Node.Moved _ ((t.insert _).node i)
  rw [insert_eq, node]
  split
  · rfl
  · rfl

theorem moved_push_new (t : Tree) (c : Category) (x : String) (ids : List NodeId) :
    Node.Moved { category := c, name := x, children := ids } ((t.push c x ids).node t.size) := by
  have lt : t.size < (t.pushNode { category := c, name := x, children := ids }).size := by
    rw [size_pushNode]
    exact Nat.lt_succ_self _
  have node := @node_setParents _ t.size ids t.size lt
  rw [node_pushNode_new] at node
  show Node.Moved _ ((t.insert _).node t.size)
  rw [insert_eq, node]
  split
  · rfl
  · rfl

@[simp] theorem size_push (t : Tree) (c : Category) (x : String) (ids : List NodeId) :
    (t.push c x ids).size = t.size + 1 := size_insert ..

/-- What nodes are called, in a tree. -/
def namesOf (t : Tree) (ids : List NodeId) : List String := ids.map fun i => (t.node i).name

/-- Variables that are appended have their names. -/
theorem names_each_named (xs : List String) (t : Tree) :
    (∀ i ∈ (Build.each Build.named xs t).1, i < (Build.each Build.named xs t).2.size)
      ∧ namesOf (Build.each Build.named xs t).2 (Build.each Build.named xs t).1 = xs := by
  induction xs generalizing t with
  | nil => exact ⟨nofun, rfl⟩
  | cons x xs ih =>
    obtain ⟨bound, names⟩ := ih (t.push .var x [])
    have behind := Build.each_named_eq (t.push .var x []) xs
    have eq : Build.each Build.named (x :: xs) t
        = (t.size :: (Build.each Build.named xs (t.push .var x [])).1,
          (Build.each Build.named xs (t.push .var x [])).2) := rfl
    rw [eq]
    generalize Build.each Build.named xs (t.push .var x []) = rest at bound names behind
    obtain ⟨ids, u⟩ := rest
    obtain ⟨-, rfl⟩ := Prod.mk.inj behind
    have new : t.size < (t.push .var x []).size := by
      rw [size_push]
      exact Nat.lt_succ_self _
    have name : (((t.push .var x []) ++ (Build.each Build.named xs empty).2).node t.size).name = x := by
      rw [node_append_left _ new, moved_push_new]
    refine ⟨List.forall_mem_cons.mpr ⟨?_, bound⟩, ?_⟩
    · rw [size_append]
      exact Nat.lt_of_lt_of_le new (Nat.le_add_right ..)
    · exact congrArg₂ List.cons name names

/-- The node of a function definition over what it gathers. -/
def gather (u : Tree) (name : String) (outputs params body : List NodeId) : Tree :=
  let t₁ := u.push .params "" params
  let t₂ := t₁.push .returns "" outputs
  let t₃ := t₂.push .block "" body
  t₃.push .function name [u.size, t₁.size, t₂.size]

section Gather

variable (u : Tree) (name : String) (outputs params body : List NodeId)

/-- What was there stays but for its parent, and these are the four nodes that gather it. -/
theorem node_gather : (∀ i < u.size, (u.node i).Moved ((u.gather name outputs params body).node i))
    ∧ Node.Moved { category := .params, children := params }
      ((u.gather name outputs params body).node u.size)
    ∧ Node.Moved { category := .returns, children := outputs }
      ((u.gather name outputs params body).node (u.size + 1))
    ∧ Node.Moved { category := .block, children := body }
      ((u.gather name outputs params body).node (u.size + 2))
    ∧ Node.Moved { category := .function, name, children := [u.size, u.size + 1, u.size + 2] }
      ((u.gather name outputs params body).node (u.size + 3))
    ∧ (u.gather name outputs params body).size = u.size + 4 := by
  have size₁ := size_push u .params "" params
  have new₁ := moved_push_new u .params "" params
  have old₁ := moved_push u .params "" params
  unfold gather
  generalize u.push .params "" params = t₁ at size₁ new₁ old₁
  have size₂ := size_push t₁ .returns "" outputs
  have new₂ := moved_push_new t₁ .returns "" outputs
  have old₂ := moved_push t₁ .returns "" outputs
  dsimp only
  generalize t₁.push .returns "" outputs = t₂ at size₂ new₂ old₂
  have size₃ := size_push t₂ .block "" body
  have new₃ := moved_push_new t₂ .block "" body
  have old₃ := moved_push t₂ .block "" body
  generalize t₂.push .block "" body = t₃ at size₃ new₃ old₃
  have size₄ := size_push t₃ .function name [u.size, t₁.size, t₂.size]
  have new₄ := moved_push_new t₃ .function name [u.size, t₁.size, t₂.size]
  have old₄ := moved_push t₃ .function name [u.size, t₁.size, t₂.size]
  generalize t₃.push .function name [u.size, t₁.size, t₂.size] = t₄ at size₄ new₄ old₄
  rw [size₁] at size₂ new₂ new₄
  rw [size₂] at size₃ new₃ new₄
  rw [size₃] at size₄ new₄
  have late : ∀ i < u.size + 2, (t₂.node i).Moved (t₄.node i) := fun i lt =>
    (old₃ i (size₂ ▸ lt)).trans (old₄ i (size₃ ▸ Nat.lt_succ_of_lt lt))
  refine ⟨fun i lt => ?_, ?_, ?_, ?_, new₄, size₄⟩
  · have lt₁ : i < t₁.size := size₁ ▸ Nat.lt_succ_of_lt lt
    exact ((old₁ i lt).trans (old₂ i lt₁)).trans (late i (by omega))
  · exact (new₁.trans (old₂ u.size (by omega))).trans (late u.size (by omega))
  · exact new₂.trans (late (u.size + 1) (by omega))
  · exact new₃.trans (old₄ (u.size + 2) (by omega))

end Gather

/-- The outputs, the parameters and the body of a function definition, ahead of the nodes
that gather them. -/
structure Parts where
  tree : Tree
  outputs : List NodeId
  params : List NodeId
  body : List NodeId

def parts (f : Function) : Parts :=
  let (outputs, t) := Build.each Build.named f.outputs empty
  let (params, t) := Build.each Build.named f.params t
  let (body, t) := Build.each Build.statement f.body t
  { tree := t, outputs, params, body }

theorem function_eq (f : Function) : Build.function f empty = ((parts f).tree.size + 3,
    (parts f).tree.gather f.name (parts f).outputs (parts f).params (parts f).body) := by
  have run : (Build.function f empty).2
      = (parts f).tree.gather f.name (parts f).outputs (parts f).params (parts f).body := rfl
  have size : (Build.function f empty).1 + 1
      = ((parts f).tree.gather f.name (parts f).outputs (parts f).params (parts f).body).size :=
    (size_push ..).symm
  rw [(node_gather ..).2.2.2.2.2] at size
  exact Prod.ext (Nat.succ.inj size) run

theorem namesOf_congr {t' : Tree} {ids : List NodeId}
    (same : ∀ i ∈ ids, (t'.node i).name = (t.node i).name) : t'.namesOf ids = t.namesOf ids :=
  List.map_congr_left same

theorem parts_layout {f : Function} (h : f.Spelled Statement.Accepted) :
    (∀ i ∈ (parts f).outputs, i < (parts f).tree.size)
      ∧ (∀ i ∈ (parts f).params, i < (parts f).tree.size)
      ∧ (parts f).tree.namesOf (parts f).outputs = f.outputs
      ∧ (parts f).tree.namesOf (parts f).params = f.params
      ∧ ∀ i < (parts f).tree.size, (parts f).tree.category i ≠ .function := by
  obtain ⟨outputs, hids, hcs, growing⟩ := Build.makesAll_named h.outputs _ _ growing_empty
  obtain ⟨params, hids', hcs', growing⟩ := Build.makesAll_named h.params _ _ growing
  obtain ⟨body, hids'', hcs'', growing⟩ :=
    Build.makesAll_each (fun s mem => Build.makes_statement (h.body s mem)) _ _ growing
  obtain ⟨bound, named⟩ := names_each_named f.outputs empty
  obtain ⟨bound', named'⟩ := names_each_named f.params (Build.each Build.named f.outputs empty).2
  have vars : ∀ {made : List (NodeId × Category)} {xs : List String},
      made.map Prod.snd = xs.map (fun _ => .var) → ∀ r ∈ made, r.2 ≠ .block ∧ r.2 ≠ .function := by
    intro made xs categories r mem
    have var : r.2 ∈ xs.map fun _ => Category.var := categories ▸ List.mem_map_of_mem mem
    obtain ⟨_, -, eq⟩ := List.mem_map.mp var
    rw [← eq]
    exact ⟨nofun, nofun⟩
  have outer : ∀ r ∈ body ++ (params ++ (outputs ++ [])), r.2 ≠ .block ∧ r.2 ≠ .function := by
    rw [List.append_nil]
    intro r mem
    rcases List.mem_append.mp mem with mem | mem
    · have category : r.2 ∈ f.body.map Statement.category := hcs'' ▸ List.mem_map_of_mem mem
      obtain ⟨s, -, eq⟩ := List.mem_map.mp category
      rw [← eq]
      cases s <;> exact ⟨nofun, nofun⟩
    · rcases List.mem_append.mp mem with mem | mem
      · exact vars hcs' r mem
      · exact vars hcs r mem
  have inline : ∀ i < (parts f).tree.size, (parts f).tree.category i ≠ .function :=
    fun i lt => (growing.inline outer lt).2
  -- what comes later is behind the names
  have behind := congrArg Prod.snd (Build.each_named_eq (Build.each Build.named f.outputs empty).2 f.params)
  have behind' : (parts f).tree = _ ++ _ := congrArg Prod.snd (Build.each_statement_eq
    (Build.each Build.named f.params (Build.each Build.named f.outputs empty).2).2 f.body)
  have bounds : ∀ i ∈ (parts f).params, i < (parts f).tree.size := fun i mem => by
    rw [behind', size_append]
    exact Nat.lt_of_lt_of_le (bound' i mem) (Nat.le_add_right ..)
  have lt : ∀ i ∈ (parts f).outputs,
      i < (Build.each Build.named f.params (Build.each Build.named f.outputs empty).2).2.size := by
    intro i mem
    rw [behind, size_append]
    exact Nat.lt_of_lt_of_le (bound i mem) (Nat.le_add_right ..)
  refine ⟨fun i mem => ?_, bounds, Eq.trans ?_ named, Eq.trans ?_ named', inline⟩
  · rw [behind', size_append]
    exact Nat.lt_of_lt_of_le (lt i mem) (Nat.le_add_right ..)
  · refine namesOf_congr fun i mem => ?_
    rw [behind', node_append_left _ (lt i mem), behind, node_append_left _ (bound i mem)]
  · refine namesOf_congr fun i mem => ?_
    rw [behind', node_append_left _ (bound' i mem)]

/-- A function node is above its parameters, its outputs and its body, and no other function. -/
theorem function_layout {f : Function} (h : f.Spelled Statement.Accepted) :
    ∃ a b c, (Build.function f empty).2.children (Build.function f empty).1 = [a, b, c]
      ∧ namesOf (Build.function f empty).2 ((Build.function f empty).2.children a) = f.params
      ∧ namesOf (Build.function f empty).2 ((Build.function f empty).2.children b) = f.outputs
      ∧ ∀ i < (Build.function f empty).2.size, i ≠ (Build.function f empty).1 →
        (Build.function f empty).2.category i ≠ .function := by
  obtain ⟨bound, bound', named, named', inline⟩ := parts_layout h
  rw [function_eq]
  generalize (parts f).tree = u, (parts f).outputs = outputs, (parts f).params = params,
    (parts f).body = body at bound bound' named named' inline
  obtain ⟨old, new, new', new'', top, size⟩ := node_gather u f.name outputs params body
  generalize u.gather f.name outputs params body = t at old new new' new'' top size
  have kept : ∀ ids, (∀ i ∈ ids, i < u.size) → t.namesOf ids = u.namesOf ids :=
    fun ids bound => namesOf_congr fun i mem => by rw [old i (bound i mem)]
  refine ⟨u.size, u.size + 1, u.size + 2, ?_, ?_, ?_, fun i lt other => ?_⟩
  · rw [Tree.children, top]
  · rw [Tree.children, new, kept _ bound', named']
  · rw [Tree.children, new', kept _ bound, named]
  · rw [size] at lt
    rw [Tree.category]
    obtain lt | rfl | rfl | rfl : i < u.size ∨ i = u.size ∨ i = u.size + 1 ∨ i = u.size + 2 := by
      have ne : i ≠ u.size + 3 := other
      omega
    · rw [old i lt]
      exact inline i lt
    · rw [new]
      rintro ⟨⟩
    · rw [new']
      rintro ⟨⟩
    · rw [new'']
      rintro ⟨⟩

/-- The only function node of an item is the node that stands for it. -/
theorem item_layout {i : Item} (h : i.Spelled Statement.Accepted) :
    ∀ j < (Build.item i empty).2.size, (Build.item i empty).2.category j = .function →
      j = (Build.item i empty).1 := by
  cases i with
  | statement s =>
    have growing := Build.makes_statement h empty [] growing_empty
    intro j lt function
    refine absurd function (growing.inline (fun r mem => ?_) lt).2
    obtain rfl := List.mem_singleton.mp mem
    show s.category ≠ .block ∧ s.category ≠ .function
    cases s <;> exact ⟨nofun, nofun⟩
  | function f =>
    obtain ⟨_, _, _, -, -, -, other⟩ := function_layout h
    intro j lt function
    by_contra ne
    exact other j lt ne function

theorem mem_tops_of_function {p : Program} (h : p.Accepted) :
    ∀ j < (forest p).size, (forest p).category j = .function → j ∈ tops p := by
  induction p with
  | nil => exact fun j lt => absurd lt (Nat.not_lt_zero j)
  | cons i p ih =>
    obtain ⟨first, rest⟩ := List.forall_mem_cons.mp h
    intro j lt function
    rw [forest_cons, size_append] at lt
    rw [Tree.category, forest_cons] at function
    rw [tops_cons]
    rcases Nat.lt_or_ge j (Build.item i empty).2.size with lt' | ge
    · rw [node_append_left _ lt'] at function
      rw [item_layout first j lt' function]
      exact List.mem_cons_self
    · obtain ⟨k, rfl⟩ : ∃ k, j = k + (Build.item i empty).2.size := ⟨_, (Nat.sub_add_cancel ge).symm⟩
      rw [node_append_right] at function
      exact List.mem_cons_of_mem _ (List.mem_map_of_mem (ih rest k (by omega) function))

/-- Function definitions stand at the top level. -/
theorem parent?_of_function {p : Program} (h : p.Accepted) {i : NodeId}
    (function : (ofProgram p).category i = .function) :
    (ofProgram p).parent? i = (ofProgram p).root := by
  have wf := wellFormed_ofProgram h
  obtain ⟨root, top, last, block, -⟩ := wf.root
  obtain rfl : (forest p).size = root := Option.some.inj ((root_ofProgram p).symm.trans top)
  have lt : i < (forest p).size := by
    rcases Nat.lt_trichotomy i (forest p).size with lt | rfl | gt
    · exact lt
    · rw [block] at function
      cases function
    · rw [Tree.category, node_of_size_le (last ▸ Nat.succ_le_of_lt gt)] at function
      cases function
  have mem : i ∈ tops p := by
    refine mem_tops_of_function h i lt ?_
    rw [Tree.category, node_ofProgram lt] at function
    split at function
    · assumption
    · exact function
  rw [Tree.parent?, node_ofProgram lt, if_pos mem, root_ofProgram]

end Tree

end MatrixScript
