/-
# `Proofs.Translation.InStep` — sites of two translations

Two translations of one program are in step at a node when they have given it the
same typing and texts that are alike.  Where they are in step at the children of a
node, and at the children of those, its rule sees sites that are alike
(`alike_site`).  Slots that were filled in before may differ everywhere else; all
that is asked of them is `Tree.Lawful`, which every translation keeps.
-/
import MatrixScript.Proofs.Rule.SelectAgrees
import MatrixScript.Proofs.Translation.Safe
import MatrixScript.Proofs.Tree.WellFormed
import MatrixScript.Proofs.Tree.Raw

namespace MatrixScript

namespace Tree

/-- Only an assignment to a variable is redirected, and only a destination has a hint. -/
structure Lawful (t : Tree) : Prop where
  redirected : ∀ i b, (t.node i).redirect = some b → b = .size ∧ t.category i = .assign
    ∧ (t.children i).head?.any fun c => t.category c == .var
  hints : ∀ i, (t.category i).isDestination = false → (t.node i).suggest = none

theorem Lawful.redirect_eq_none {t : Tree} (h : t.Lawful) {i : NodeId} (other : t.category i ≠ .assign) :
    (t.node i).redirect = none :=
  Option.eq_none_iff_forall_ne_some.mpr fun b redirect => other (h.redirected i b redirect).2.1

/-- Where nothing is filled in, all is lawful. -/
theorem Raw.lawful {t : Tree} (h : t.Raw) : t.Lawful := by
  refine ⟨fun i b redirect => ?_, fun i _ => ?_⟩
  · rw [← (h i).bare] at redirect
    cases redirect
  · rw [← (h i).bare]
    rfl

/-! ## Kinds of children -/

section WellFormed

variable {t : Tree} (wf : t.WellFormed) {id : NodeId}
include wf

/-- Children of nodes that are neither blocks nor functions are inline. -/
theorem WellFormed.isInline_child (block : t.category id ≠ .block) (function : t.category id ≠ .function)
    {c : NodeId} (mem : c ∈ t.children id) : (t.category c).isInline := by
  have lt : id < t.size := wf.parent_lt (wf.parent?_of_mem mem)
  exact Category.isInline_of_admits (wf.shaped id lt).children block function
    (List.mem_map_of_mem mem)

theorem WellFormed.isInline_below {c g : NodeId} (inline : (t.category c).isInline) (mem : g ∈ t.children c) :
    (t.category g).isInline := by
  obtain ⟨block, function⟩ := Category.ne_of_isInline inline
  exact wf.isInline_child block function mem

/-- A function has its parameters, its outputs and its body. -/
theorem WellFormed.children_function (lt : id < t.size) (function : t.category id = .function) :
    ∃ a b c, t.children id = [a, b, c] ∧ t.category a = .params ∧ t.category b = .returns
      ∧ t.category c = .block := by
  have admits := (wf.shaped id lt).children
  rw [function] at admits
  have categories := eq_of_beq admits
  generalize t.children id = ids at categories
  rcases ids with _ | ⟨a, _ | ⟨b, _ | ⟨c, _ | _⟩⟩⟩ <;>
    simp only [List.map_cons, List.map_nil, List.cons.injEq, and_true, and_false, reduceCtorEq]
      at categories
  exact ⟨a, b, c, rfl, categories⟩

/-- What stands in a block is a statement. -/
theorem WellFormed.isStatement_child {c : NodeId} (block : t.category id = .block)
    (mem : c ∈ t.children id) : (t.category c).isStatement := by
  have lt : id < t.size := wf.parent_lt (wf.parent?_of_mem mem)
  have admits := (wf.shaped id lt).children
  rw [block] at admits
  exact List.all_eq_true.mp admits _ (List.mem_map_of_mem mem)

end WellFormed

/-- Both trees have the same typing at a node, and texts that are alike. -/
structure InStep (L : Likeness) (t t' : Tree) (i : NodeId) : Prop where
  typing : (t'.node i).typing = (t.node i).typing
  text : L.Shows (t.node i).text (t'.node i).text

/-- The texts of variables are their names, unless those are reserved. -/
def Spells (t : Tree) (ids : List NodeId) (texts : List String) : Prop :=
  List.Forall₂ (fun i text => t.category i = .var → Builtin.isReserved (t.node i).name = false →
    text = (t.node i).name) ids texts

theorem Spells.of_bare {t t' : Tree} (same : t'.bare = t.bare) {ids : List NodeId}
    {texts : List String} (h : t.Spells ids texts) : t'.Spells ids texts := by
  refine List.Forall₂.imp (fun i text spelled => ?_) h
  rwa [category_of_bare same, name_of_bare same]

/-- What a value of the program `p` is assigned to is in step. -/
def Near (L : Likeness) (p t t' : Tree) (id : NodeId) : Prop :=
  (p.category id).isDestination = false → ∀ g, p.group? id = some g → p.category g = .assign →
    ∀ d ∈ (p.children g).head?, t.InStep L t' d

theorem Near.of_bare {L : Likeness} {p p' t t' : Tree} (same : p'.bare = p.bare) {id : NodeId}
    (h : p.Near L t t' id) : p'.Near L t t' id := by
  intro value g group assign d head
  rw [category_of_bare same] at value assign
  rw [group?_of_bare same] at group
  rw [children_of_bare same] at head
  exact h value g group assign d head

theorem near_of_loose {L : Likeness} {p t t' : Tree} {id : NodeId} (up : p.parent? id = none) :
    p.Near L t t' id := by
  intro _ g group
  rw [group?_of_loose up] at group
  cases group

end Tree

namespace Workspace

variable {L : Likeness} {quieter : Prop} {w v : Workspace} {id : NodeId} {texts texts' : List String}

theorem ids_site (w : Workspace) (lengths : texts.length = (w.tree.children id).length) :
    (w.site id texts).operands.map (·.id) = (w.site id texts).tree.children id := by
  show (((w.tree.children id).zip texts).map _).map _ = w.tree.children id
  rw [List.map_map]
  exact List.map_fst_zip (Nat.le_of_eq lengths.symm)

theorem texts_site_eq (w : Workspace) (lengths : texts.length = (w.tree.children id).length) :
    (w.site id texts).texts = texts := by
  show (((w.tree.children id).zip texts).map _).map _ = texts
  rw [List.map_map]
  exact List.map_snd_zip (Nat.le_of_eq lengths)

theorem textOf_eq (w : Workspace) {texts : List String}
    (lengths : texts.length = (w.tree.children id).length) (o : Outcome) :
    w.textOf id texts o = (w.site id texts).written o := by
  rw [textOf, Site.written, w.texts_site_eq lengths]
  rfl

theorem mem_children_of_operand {o : Operand} (mem : o ∈ (w.site id texts).operands) :
    o.id ∈ w.tree.children id ∧ o.node = w.tree.node o.id := by
  obtain ⟨⟨child, text⟩, there, rfl⟩ := List.mem_map.mp mem
  exact ⟨(List.of_mem_zip there).1, rfl⟩

theorem akin_site (same : v.tree.bare = w.tree.bare) (wf : w.tree.WellFormed)
    (spelt : w.tree.Spelt L) (lt : id < w.tree.size)
    (lengths : texts.length = (w.tree.children id).length)
    (seed : (v.tree.node id).typing = (w.tree.node id).typing)
    (lookup : ∀ x, v.state.lookup x = w.state.lookup x) :
    (w.site id texts).Akin L (v.site id texts') where
  id := rfl
  bare := same
  sound := sound_site wf lt lengths
  wellFormed := wf
  spelt := spelt
  ids := w.ids_site lengths
  seed := seed
  lookup := lookup

/-- The operands of one node in two translations. -/
theorem operands_site (same : v.tree.bare = w.tree.bare)
    (children : ∀ c ∈ w.tree.children id, w.tree.InStep L v.tree c)
    (shows : List.Forall₂ L.Shows texts texts')
    (spells : w.tree.Spells (w.tree.children id) texts)
    (spells' : v.tree.Spells (w.tree.children id) texts') :
    List.Forall₂ (Operand.Alike L) (w.site id texts).operands (v.site id texts').operands := by
  have bare := Tree.node_of_bare same
  show List.Forall₂ _ (((w.tree.children id).zip texts).map _)
    (((v.tree.children id).zip texts').map _)
  rw [Tree.children_of_bare same]
  generalize w.tree.children id = ids at children spells spells'
  unfold Tree.Spells at spells spells'
  induction ids generalizing texts texts' with
  | nil => exact .nil
  | cons i ids ih =>
    cases spells with
    | @cons _ text _ rest spelled more =>
    cases spells' with
    | @cons _ text' _ rest' spelled' more' =>
    cases shows with
    | cons shown shows =>
    obtain ⟨here, there⟩ := List.forall_mem_cons.mp children
    refine .cons ⟨rfl, bare i, here.typing, shown, here.text, fun var free => ?_⟩
      (ih shows there more more')
    have var' : v.tree.category i = .var := by rwa [Tree.category_of_bare same]
    have name : (v.tree.node i).name = (w.tree.node i).name := Tree.name_of_bare same i
    have free' : Builtin.isReserved (v.tree.node i).name = false := by rwa [name]
    exact ⟨spelled var free, (spelled' var' free').trans name⟩

theorem assignedToNumeric_site (same : v.tree.bare = w.tree.bare)
    (range : w.tree.category id = .range) (near : w.tree.Near L w.tree v.tree id) :
    Rule.assignedToNumeric (v.site id texts') = Rule.assignedToNumeric (w.site id texts) := by
  have value : (w.tree.category id).isDestination = false := by
    rw [range]
    rfl
  have near := near value
  have group : v.tree.group? id = w.tree.group? id := Tree.group?_of_bare same id
  have around : (v.site id texts').group? = (w.tree.group? id).map v.tree.node :=
    congrArg (Option.map v.tree.node) group
  have around' : (w.site id texts).group? = (w.tree.group? id).map w.tree.node := rfl
  unfold Rule.assignedToNumeric
  rw [around, around']
  cases found : w.tree.group? id with
  | none => rfl
  | some g =>
    have category : (v.tree.node g).category = (w.tree.node g).category :=
      congrFun (Tree.category_of_bare same) g
    have children : (v.tree.node g).children = (w.tree.node g).children :=
      congrFun (Tree.children_of_bare same) g
    have near := near g found
    dsimp only [Option.map_some]
    rw [category, children]
    cases assign : (w.tree.node g).category == .assign with
    | false => rfl
    | true =>
      have near := near (eq_of_beq assign)
      rw [show w.tree.children g = (w.tree.node g).children from rfl] at near
      cases first : (w.tree.node g).children.head? with
      | none => rfl
      | some d => exact congrArg (true && ·) (congrArg Typing.numeric (near d first).typing)

/-- Where two translations are in step so far, a rule sees sites that are alike. -/
theorem alike_site (akin : (w.site id texts).Akin L (v.site id texts'))
    (redirect : (v.tree.node id).redirect = (w.tree.node id).redirect) (lawful : w.tree.Lawful)
    (lawful' : v.tree.Lawful)
    (children : ∀ c ∈ w.tree.children id, w.tree.InStep L v.tree c
      ∧ ∀ g ∈ w.tree.children c, w.tree.InStep L v.tree g)
    (shows : List.Forall₂ L.Shows texts texts')
    (spells : w.tree.Spells (w.tree.children id) texts)
    (spells' : v.tree.Spells (w.tree.children id) texts') (near : w.tree.Near L w.tree v.tree id)
    (clock : v.state.clock.started = w.state.clock.started
      ∨ (quieter ∧ w.state.clock.started = false)) :
    (w.site id texts).Alike L quieter (v.site id texts') where
  toAkin := akin
  redirect := redirect
  redirected b eq := by
    obtain ⟨size, assign, head⟩ := lawful.redirected id b eq
    refine ⟨size, assign, ?_⟩
    have ids : (w.site id texts).operands.map (·.id) = w.tree.children id := akin.ids
    rw [← ids, List.head?_map] at head
    cases first : (w.site id texts).operands.head? with
    | none =>
      rw [first] at head
      cases head
    | some o =>
      rw [first] at head
      have there := (mem_children_of_operand (List.mem_of_mem_head? first)).2
      show o.node.category == .var
      rw [there]
      exact head
  suggest value := by
    have same : v.tree.bare = w.tree.bare := akin.bare
    refine ⟨lawful.hints id value, lawful'.hints id ?_⟩
    rwa [Tree.category_of_bare same]
  operands := operands_site akin.bare (fun c mem => (children c mem).1) shows spells spells'
  reach o mem c child := by
    obtain ⟨there, node⟩ := mem_children_of_operand mem
    rw [node] at child
    have near := (children o.id there).2 c child
    exact ⟨near.typing, near.text⟩
  target range := assignedToNumeric_site akin.bare range near
  clock := clock

/-- A rule sees a site that is like itself, where texts are. -/
theorem alike_self (wf : w.tree.WellFormed) (spelt : w.tree.Spelt L) (lawful : w.tree.Lawful)
    (lt : id < w.tree.size) (lengths : texts.length = (w.tree.children id).length)
    (children : ∀ c ∈ w.tree.children id, L.Shows (w.tree.node c).text (w.tree.node c).text
      ∧ ∀ g ∈ w.tree.children c, L.Shows (w.tree.node g).text (w.tree.node g).text)
    (shows : List.Forall₂ L.Shows texts texts)
    (spells : w.tree.Spells (w.tree.children id) texts)
    (near : w.tree.Near L w.tree w.tree id) :
    (w.site id texts).Alike L False (w.site id texts) :=
  alike_site (akin_site rfl wf spelt lt lengths rfl fun _ => rfl) rfl lawful lawful
    (fun c mem => ⟨⟨rfl, (children c mem).1⟩, fun g child => ⟨rfl, (children c mem).2 g child⟩⟩)
    shows spells spells near (.inl rfl)

end Workspace

end MatrixScript
