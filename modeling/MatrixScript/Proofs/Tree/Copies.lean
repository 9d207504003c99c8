/-
# `Proofs.Tree.Copies` — pieces that two programs share

The pieces for which `Tree.Twins` is asked: an item that stands in two programs
(`Holds.twins`), the names in two function headers (`twins_names`), whatever stands
below a node, twice in the same tree (`twins_below`), and any number of those that do
not overlap (`Twins.union`).
-/
import MatrixScript.Proofs.Tree.Layout
import MatrixScript.Proofs.Tree.Twins

namespace MatrixScript

/-- Nothing is filled in about nodes as the parser makes them. -/
theorem Node.Raw.twin {R : NodeId → NodeId → Prop} {n n' : Node} (h : n.Raw)
    (h' : n'.Raw) (category : n'.category = n.category) (name : n'.name = n.name)
    (value : n'.value = n.value) (children : List.Forall₂ R n.children n'.children) :
    n.Twin R n' where
  category := category
  name := name
  value := value
  children := children
  typing := by rw [← h'.bare, ← h.bare]; rfl
  suggest := by rw [← h'.bare, ← h.bare]; rfl
  redirect := by rw [← h'.bare, ← h.bare]; rfl

namespace Tree

variable {t t' s : Tree} {a a' : Nat}

/-! ## The same item in two programs -/

/-- The nodes that copies of `s` take up from `a` and from `a'` on. -/
def Copy (s : Tree) (a a' : Nat) (i i' : NodeId) : Prop :=
  ∃ j < s.size, i = j + a ∧ i' = j + a'

theorem Holds.twins (h : t.Holds s a) (h' : t'.Holds s a') (wf : t.WellFormed)
    (wf' : t'.WellFormed) (bound : ∀ j, ∀ c ∈ s.children j, c < s.size)
    (up : ∀ j q, s.parent? j = some q → q < s.size) : t.Twins (Copy s a a') t' := by
  refine ⟨?_, ?_, ?_⟩
  case refine_1 =>
    rintro _ _ ⟨j, lt, rfl, rfl⟩
    have node := h.node j lt
    have node' := h'.node j lt
    generalize t.node (j + a) = n at node
    generalize t'.node (j + a') = n' at node'
    have children : List.Forall₂ (Copy s a a') ((s.children j).map (· + a))
        ((s.children j).map (· + a')) := by
      rw [List.forall₂_map_left_iff, List.forall₂_map_right_iff, List.forall₂_same]
      exact fun c mem => ⟨c, bound j c mem, rfl, rfl⟩
    rw [node, node']
    exact ⟨rfl, rfl, rfl, children, rfl, rfl, rfl⟩
  case refine_2 =>
    rintro _ _ _ _ ⟨j, _, rfl, rfl⟩ ⟨k, _, rfl, rfl⟩
    rw [Nat.add_right_cancel_iff, Nat.add_right_cancel_iff]
  case refine_3 =>
    rintro _ _ ⟨j, lt, rfl, rfl⟩
    cases above : s.parent? j with
    | some q =>
      exact ⟨_, _, h.up j q above, h'.up j q above, .inside ⟨q, up j q above, rfl, rfl⟩⟩
    | none =>
      obtain ⟨root, top, -, block, -⟩ := wf.root
      obtain ⟨root', top', -, block', -⟩ := wf'.root
      exact ⟨root, root', (h.top j lt above).trans top, (h'.top j lt above).trans top',
        .outside (.block block) (.block block')⟩

theorem Holds.below (h : t.Holds s a) {n : Nat} {j top : NodeId} (climbs : s.Climbs n j top) :
    t.Below (top + a) (j + a) := by
  induction climbs with
  | here => exact t.below_self _
  | step up _ ih => exact ih.step (h.up _ _ up)

/-- An item that stands in two programs is the same piece in both. -/
theorem exists_copy {p p' : Program} (h : p.Accepted) (h' : p'.Accepted) {k k' : Nat} {i : Item}
    (here : p[k]? = some i) (here' : p'[k']? = some i) :
    ∃ (R : NodeId → NodeId → Prop) (c c' : NodeId), (tops p)[k]? = some c
      ∧ (tops p')[k']? = some c' ∧ (ofProgram p).Twins R (ofProgram p') ∧ R c c'
      ∧ ∀ j j', R j j' → (ofProgram p).Below c j ∧ (ofProgram p').Below c' j' := by
  have forest := (Build.makes_item (h i (List.mem_of_getElem? here)) empty [] growing_empty).forest
  obtain ⟨a, top, holds⟩ := holds_ofProgram h here
  obtain ⟨a', top', holds'⟩ := holds_ofProgram h' here'
  generalize (Build.item i empty).2 = s at forest holds holds'
  generalize (Build.item i empty).1 = r at forest top top'
  have up : ∀ j q, s.parent? j = some q → q < s.size := by
    intro j q hq
    have other : j ∉ List.map Prod.fst [(r, i.category)] := fun root => by
      rw [(forest.free j root).up] at hq
      cases hq
    obtain ⟨q', held⟩ := forest.held j (lt_size_of_parent? hq) other
    obtain rfl := Option.some.inj (hq.symm.trans held.up)
    exact held.bound
  refine ⟨Copy s a a', r + a, r + a', top, top', holds.twins holds' (wellFormed_ofProgram h)
    (wellFormed_ofProgram h') forest.bound up, ⟨r, forest.root r List.mem_cons_self, rfl, rfl⟩, ?_⟩
  rintro _ _ ⟨j, lt, rfl, rfl⟩
  obtain ⟨top, mem, n, climbs⟩ := forest.grounded j lt
  obtain rfl := List.mem_singleton.mp mem
  exact ⟨holds.below climbs, holds'.below climbs⟩

/-! ## The names in function headers -/

/-- Two nodes with their children. -/
inductive Header (t t' : Tree) (a a' : NodeId) : NodeId → NodeId → Prop
  | top : Header t t' a a' a a'
  | name {k : Nat} {i i' : NodeId} : (t.children a)[k]? = some i → (t'.children a')[k]? = some i' →
      Header t t' a a' i i'

/-- Nodes that are not literals have no text of their own. -/
theorem WellFormed.value_of_unlettered (wf : t.WellFormed) {i : NodeId} (lt : i < t.size)
    (kind : (t.category i).isLiteral = false) : (t.node i).value = none := by
  have value := (wf.shaped i lt).value
  rw [kind] at value
  exact Option.not_isSome_iff_eq_none.mp (by rw [value]; exact nofun)

theorem WellFormed.name_of_unnamed (wf : t.WellFormed) {i : NodeId} (lt : i < t.size)
    (kind : (t.category i).isNamed = false) : (t.node i).name = "" := by
  by_contra named
  have needed := (wf.shaped i lt).name.mp named
  rw [kind] at needed
  cases needed

/-- A node has a child at one place only. -/
theorem WellFormed.child_inj (wf : t.WellFormed) {a i j : NodeId} {k l : Nat}
    (here : (t.children a)[k]? = some i) (there : (t.children a)[l]? = some j) :
    i = j ↔ k = l := by
  have lt := (List.getElem?_eq_some_iff.mp here).1
  rw [← List.getElem?_inj lt (wf.nodup_children a), here, there, Option.some.injEq]

section Header

variable (wf : t.WellFormed) (wf' : t'.WellFormed) (raw : t.Raw) (raw' : t'.Raw)
include wf

/-- Below the parameters and below the outputs of a function stand variables. -/
theorem leaf_of_names {a c : NodeId} (kind : t.category a = .params ∨ t.category a = .returns)
    (mem : c ∈ t.children a) : t.category c = .var ∧ t.children c = [] := by
  have lt : a < t.size := wf.parent_lt (wf.parent?_of_mem mem)
  have admits : ((t.children a).map t.category).all (· == .var) := by
    have admits := (wf.shaped a lt).children
    rcases kind with kind | kind
    · rwa [kind] at admits
    · rwa [kind] at admits
  have var : t.category c = .var :=
    eq_of_beq (List.all_eq_true.mp admits _ (List.mem_map_of_mem mem))
  exact ⟨var, wf.children_eq_nil (wf.bound a c mem) (by rw [var]; exact fun _ => rfl)⟩

include wf' raw raw'

theorem twins_names {a a' f f' : NodeId} (up : t.parent? a = some f) (up' : t'.parent? a' = some f')
    (crown : t.Crown f .function) (crown' : t'.Crown f' .function)
    (kind : t.category a = .params ∨ t.category a = .returns) (same : t'.category a' = t.category a)
    (names : t'.namesOf (t'.children a') = t.namesOf (t.children a)) :
    t.Twins (Header t t' a a') t' := by
  have kind' : t'.category a' = .params ∨ t'.category a' = .returns := by rwa [same]
  have lengths : (t'.children a').length = (t.children a).length := by
    simpa [namesOf] using congrArg List.length names
  refine ⟨?_, ?_, ?_⟩
  case refine_1 =>
    intro i i' pair
    cases pair with
    | top =>
      have lt : a < t.size := lt_size_of_parent? up
      have lt' : a' < t'.size := lt_size_of_parent? up'
      refine (raw a).twin (raw' a') same ?_ ?_ ?_
      · rw [wf.name_of_unnamed lt (by rcases kind with kind | kind <;> rw [kind] <;> rfl),
          wf'.name_of_unnamed lt' (by rcases kind' with kind | kind <;> rw [kind] <;> rfl)]
      · rw [wf.value_of_unlettered lt (by rcases kind with kind | kind <;> rw [kind] <;> rfl),
          wf'.value_of_unlettered lt' (by rcases kind' with kind | kind <;> rw [kind] <;> rfl)]
      · refine List.forall₂_iff_get.mpr ⟨lengths.symm, fun k h h' => ?_⟩
        exact .name (List.getElem?_eq_getElem h) (List.getElem?_eq_getElem h')
    | @name k _ _ here here' =>
      have mem := List.mem_of_getElem? here
      have mem' := List.mem_of_getElem? here'
      obtain ⟨var, leaf⟩ := leaf_of_names wf kind mem
      obtain ⟨var', leaf'⟩ := leaf_of_names wf' kind' mem'
      have called := congrArg (·[k]?) names
      simp only [namesOf, List.getElem?_map, here, here', Option.map_some, Option.some.injEq]
        at called
      refine (raw i).twin (raw' i') (var'.trans var.symm) called ?_ ?_
      · rw [wf.value_of_unlettered (wf.bound a i mem) (by rw [var]; rfl),
          wf'.value_of_unlettered (wf'.bound a' i' mem') (by rw [var']; rfl)]
      · rw [show (t.node i).children = [] from leaf, show (t'.node i').children = [] from leaf']
        exact .nil
  case refine_2 =>
    have apart : ∀ {u : Tree} {b c : NodeId} {k : Nat}, u.WellFormed →
        u.category b = .params ∨ u.category b = .returns → (u.children b)[k]? = some c → b ≠ c := by
      intro u b c k wf kind here eq
      have var := (leaf_of_names wf kind (List.mem_of_getElem? here)).1
      rw [← eq] at var
      rcases kind with kind | kind <;> rw [kind] at var <;> cases var
    intro i i' j j' pair pair'
    cases pair with
    | top =>
      cases pair' with
      | top => exact iff_of_true rfl rfl
      | name here here' => exact iff_of_false (apart wf' kind' here') (apart wf kind here)
    | name here here' =>
      cases pair' with
      | top => exact iff_of_false (apart wf' kind' here').symm (apart wf kind here).symm
      | name there there' =>
        exact (wf'.child_inj here' there').trans (wf.child_inj here there).symm
  case refine_3 =>
    intro i i' pair
    cases pair with
    | top => exact ⟨f, f', up, up', .outside crown crown'⟩
    | name here here' =>
      exact ⟨a, a', wf.parent?_of_mem (List.mem_of_getElem? here),
        wf'.parent?_of_mem (List.mem_of_getElem? here'), .inside .top⟩

end Header

/-! ## Function definitions -/

/-- A definition at the top level with its parameters, its outputs and its body. -/
structure Defines (t : Tree) (f a b c : NodeId) : Prop where
  function : t.category f = .function
  children : t.children f = [a, b, c]
  params : t.category a = .params
  returns : t.category b = .returns
  body : t.category c = .block
  crown : t.Crown f .function

namespace Defines

variable {f a b c : NodeId} (h : t.Defines f a b c)
include h

theorem mem_body : c ∈ t.children f := by simp [h.children]

theorem sub_names : [a, b] ⊆ t.children f := by simp [h.children]

theorem ne_body {x : NodeId} (mem : x ∈ [a, b]) : x ≠ c := by
  rintro rfl
  have body := h.body
  rcases List.mem_pair.mp mem with rfl | rfl
  · rw [h.params] at body
    cases body
  · rw [h.returns] at body
    cases body

end Defines

/-- A function of a program with the names in its header. -/
theorem exists_definition {p : Program} (h : p.Accepted) {k : Nat} {f : Function}
    (here : p[k]? = some (.function f)) :
    ∃ c x y z, (tops p)[k]? = some c ∧ (ofProgram p).Defines c x y z
      ∧ (ofProgram p).namesOf ((ofProgram p).children x) = f.params
      ∧ (ofProgram p).namesOf ((ofProgram p).children y) = f.outputs := by
  have wf := wellFormed_ofProgram h
  have spelled : f.Spelled Statement.Accepted := h _ (List.mem_of_getElem? here)
  have growing := Build.makes_function spelled empty [] growing_empty
  obtain ⟨a₀, top, holds⟩ := holds_ofProgram h here
  obtain ⟨x, y, z, ids, params, outputs, -⟩ := function_layout spelled
  have free := growing.forest.free _ List.mem_cons_self
  have lt := growing.forest.root _ List.mem_cons_self
  have kind := growing.category _ List.mem_cons_self
  have bound := growing.forest.bound
  change (tops p)[k]? = some ((Build.function f empty).1 + a₀) at top
  change (ofProgram p).Holds (Build.function f empty).2 a₀ at holds
  generalize (Build.function f empty).2 = s at growing holds ids params outputs free lt kind bound
  generalize (Build.function f empty).1 = r at growing top ids free lt kind
  have children : ∀ j < s.size, (ofProgram p).children (j + a₀) = (s.children j).map (· + a₀) := by
    intro j lt
    rw [Tree.children, holds.node j lt]
    rfl
  have names : ∀ j < s.size, (ofProgram p).namesOf ((ofProgram p).children (j + a₀))
      = s.namesOf (s.children j) := by
    intro j lt
    rw [children j lt, namesOf, List.map_map]
    refine List.map_congr_left fun i mem => ?_
    show ((ofProgram p).node (i + a₀)).name = _
    rw [holds.node i (bound j i mem)]
    rfl
  have function : (ofProgram p).category (r + a₀) = .function := by
    rw [Tree.category, holds.node r lt]
    exact kind
  obtain ⟨root, top', -, block, -⟩ := wf.root
  have up := (holds.top r lt free.up).trans top'
  obtain ⟨a, b, c, held, kinds⟩ := wf.children_function (lt_size_of_parent? up) function
  have held' := held
  rw [children r lt, ids] at held'
  obtain ⟨rfl, rfl, rfl⟩ : a = x + a₀ ∧ b = y + a₀ ∧ c = z + a₀ := by
    simpa [eq_comm] using held'
  have mem : ∀ i ∈ [x, y, z], i < s.size := fun i mem => bound r i (by rw [ids]; exact mem)
  refine ⟨r + a₀, x + a₀, y + a₀, z + a₀, top, ⟨function, held, kinds.1, kinds.2.1, kinds.2.2,
    .function function up block⟩, ?_, ?_⟩
  · rw [names x (mem x (by simp)), params]
  · rw [names y (mem y (by simp)), outputs]

/-! ## Below a node -/

/-- What stands below a node, with itself. -/
def Under (t : Tree) (top i i' : NodeId) : Prop := i' = i ∧ t.Below top i

theorem twins_below (wf : t.WellFormed) {top p : NodeId} {c : Category}
    (up : t.parent? top = some p) (crown : t.Crown p c) : t.Twins (t.Under top) t := by
  refine ⟨?_, ?_, ?_⟩
  case refine_1 =>
    rintro i _ ⟨rfl, below⟩
    refine ⟨rfl, rfl, rfl, List.forall₂_same.mpr fun c mem => ⟨rfl, ?_⟩, rfl, rfl, rfl⟩
    exact below.trans (wf.below_of_mem mem)
  case refine_2 =>
    rintro i _ j _ ⟨rfl, -⟩ ⟨rfl, -⟩
    rfl
  case refine_3 =>
    rintro i _ ⟨rfl, n, climbs⟩
    cases climbs with
    | here => exact ⟨p, p, up, up, .outside crown crown⟩
    | step above rest => exact ⟨_, _, above, above, .inside ⟨rfl, _, rest⟩⟩

/-! ## Several pieces -/

/-- Pieces that do not overlap are one piece. -/
theorem Twins.union {ι : Type} {Rs : ι → NodeId → NodeId → Prop}
    (each : ∀ k, t.Twins (Rs k) t') (left : ∀ {k l i i' j'}, Rs k i i' → Rs l i j' → k = l)
    (right : ∀ {k l i j i'}, Rs k i i' → Rs l j i' → k = l) :
    t.Twins (fun i i' => ∃ k, Rs k i i') t' := by
  refine ⟨?_, ?_, ?_⟩
  case refine_1 =>
    rintro i i' ⟨k, pair⟩
    have node := (each k).node pair
    exact { node with children := node.children.imp fun _ _ pair => ⟨k, pair⟩ }
  case refine_2 =>
    rintro i i' j j' ⟨k, pair⟩ ⟨l, pair'⟩
    refine ⟨fun eq => ?_, fun eq => ?_⟩
    · subst eq
      obtain rfl := right pair pair'
      exact ((each k).unique pair pair').mp rfl
    · subst eq
      obtain rfl := left pair pair'
      exact ((each k).unique pair pair').mpr rfl
  case refine_3 =>
    rintro i i' ⟨k, pair⟩
    obtain ⟨p, p', up, up', beside⟩ := (each k).around pair
    refine ⟨p, p', up, up', ?_⟩
    cases beside with
    | inside above => exact .inside ⟨k, above⟩
    | outside crown crown' => exact .outside crown crown'

/-- What a header takes up is below its node. -/
theorem Header.below (wf : t.WellFormed) (wf' : t'.WellFormed) {a a' i i' : NodeId}
    (h : Header t t' a a' i i') : t.Below a i ∧ t'.Below a' i' := by
  cases h with
  | top => exact ⟨t.below_self a, t'.below_self a'⟩
  | name here here' =>
    exact ⟨wf.below_of_mem (List.mem_of_getElem? here), wf'.below_of_mem (List.mem_of_getElem? here')⟩

/-- The parameters and the outputs of two definitions. -/
def Headers (t t' : Tree) (a a' b b' i i' : NodeId) : Prop :=
  ∃ first : Bool, Header t t' (bif first then a else b) (bif first then a' else b') i i'

theorem twins_headers (wf : t.WellFormed) (wf' : t'.WellFormed) (raw : t.Raw) (raw' : t'.Raw)
    {f a b f' a' b' : NodeId} (crown : t.Crown f .function) (crown' : t'.Crown f' .function)
    (mem : a ∈ t.children f) (mem' : a' ∈ t'.children f') (memb : b ∈ t.children f)
    (memb' : b' ∈ t'.children f') (params : t.category a = .params)
    (params' : t'.category a' = .params) (returns : t.category b = .returns)
    (returns' : t'.category b' = .returns)
    (named : t'.namesOf (t'.children a') = t.namesOf (t.children a))
    (named' : t'.namesOf (t'.children b') = t.namesOf (t.children b)) :
    t.Twins (Headers t t' a a' b b') t' := by
  have other : ∀ {u : Tree} {x y g : NodeId}, u.WellFormed → x ∈ u.children g → y ∈ u.children g →
      u.category x = .params → u.category y = .returns → ∀ i, u.Below x i → ¬u.Below y i := by
    intro u x y g wf hx hy params returns i below below'
    obtain rfl := wf.apart (wf.parent?_of_mem hx) (wf.parent?_of_mem hy) below below'
    rw [params] at returns
    cases returns
  refine Twins.union (ι := Bool) (fun first => ?_) (fun {k l i i' j'} h h' => ?_)
    (fun {k l i j i'} h h' => ?_)
  case refine_1 =>
    cases first with
    | true =>
      exact twins_names wf wf' raw raw' (wf.parent?_of_mem mem) (wf'.parent?_of_mem mem') crown crown'
        (.inl params) (params'.trans params.symm) named
    | false =>
      exact twins_names wf wf' raw raw' (wf.parent?_of_mem memb) (wf'.parent?_of_mem memb') crown
        crown' (.inr returns) (returns'.trans returns.symm) named'
  case refine_2 =>
    have below := (h.below wf wf').1
    have below' := (h'.below wf wf').1
    cases k with
    | true =>
      cases l with
      | true => rfl
      | false => exact absurd below' (other wf mem memb params returns i below)
    | false =>
      cases l with
      | true => exact absurd below (other wf mem memb params returns i below')
      | false => rfl
  case refine_3 =>
    have below := (h.below wf wf').2
    have below' := (h'.below wf wf').2
    cases k with
    | true =>
      cases l with
      | true => rfl
      | false => exact absurd below' (other wf' mem' memb' params' returns' i' below)
    | false =>
      cases l with
      | true => exact absurd below (other wf' mem' memb' params' returns' i' below')
      | false => rfl

end Tree

end MatrixScript
