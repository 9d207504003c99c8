/-
# `Proofs.Translation.Leads` — how far a translation reaches

What resolving a node can change (`Leads`).  Diagnostics, helpers and temporaries
are only added, and an assignment that is redirected stays so; both happens only
around the nodes whose rules are applied, which are those below the node that is
resolved (`Steady`).  It rests on what effects a rule can ask for
(`Effect.Lawful`), which is read off the lemma that every rule agrees with itself.
-/
import MatrixScript.Proofs.Translation.InStep

namespace MatrixScript

/-! ## What only grows -/

namespace State

/-- What is only added to while a translation goes on. -/
structure Grows (s s' : State) : Prop where
  config : s'.config = s.config
  diagnostics : s.diagnostics ⊆ s'.diagnostics
  includes : s.includes ⊆ s'.includes
  started : s.clock.started → s'.clock.started
  used : s.clock.used → s'.clock.used
  temporaries : s.temporaries <+: s'.temporaries

theorem Grows.refl (s : State) : s.Grows s :=
  ⟨rfl, List.Subset.refl _, List.Subset.refl _, id, id, List.prefix_rfl⟩

theorem Grows.trans {s s' s'' : State} (h : s.Grows s') (k : s'.Grows s'') : s.Grows s'' where
  config := k.config.trans h.config
  diagnostics := List.Subset.trans h.diagnostics k.diagnostics
  includes := List.Subset.trans h.includes k.includes
  started := k.started ∘ h.started
  used := k.used ∘ h.used
  temporaries := h.temporaries.trans k.temporaries

variable (s : State)

theorem grows_withPending (pending : List String) : s.Grows (s.withPending pending) :=
  ⟨rfl, List.Subset.refl _, List.Subset.refl _, id, id, List.prefix_rfl⟩

theorem grows_popScope : s.Grows s.popScope := by
  unfold popScope
  split
  · exact .refl s
  · exact ⟨rfl, List.Subset.refl _, List.Subset.refl _, id, id, List.prefix_rfl⟩

theorem grows_record (x : String) (d : Datatype) : s.Grows (s.record x d) := by
  unfold record
  split
  · exact .refl s
  · exact ⟨rfl, List.Subset.refl _, List.Subset.refl _, id, id, List.prefix_rfl⟩

theorem temporaries_record (x : String) (d : Datatype) :
    (s.record x d).temporaries = s.temporaries := by
  unfold record
  split
  · rfl
  · rfl

theorem diagnostics_record (x : String) (d : Datatype) :
    (s.record x d).diagnostics = s.diagnostics := by
  unfold record
  split
  · rfl
  · rfl

theorem diagnostics_hoist (node : NodeId) (text : String) (d : Datatype) :
    (s.hoist node text d).diagnostics = s.diagnostics := by
  unfold hoist
  split
  · split
    · rfl
    · rfl
  · rfl

theorem grows_hoist (node : NodeId) (text : String) (d : Datatype) :
    s.Grows (s.hoist node text d) := by
  unfold hoist
  split
  · split
    · exact .refl s
    · exact ⟨rfl, List.Subset.refl _, List.Subset.refl _, id, id, List.prefix_rfl⟩
  · exact ⟨rfl, List.Subset.refl _, List.Subset.refl _, id, id, List.prefix_append _ _⟩

theorem scopes_hoist (node : NodeId) (text : String) (d : Datatype) :
    (s.hoist node text d).outer = s.outer ∧ (s.hoist node text d).scope = s.scope := by
  unfold hoist
  split
  · split
    · exact ⟨rfl, rfl⟩
    · exact ⟨rfl, rfl⟩
  · exact ⟨rfl, rfl⟩

theorem grows_report (tree : Tree) (node : NodeId) (problem : Problem) (message : String) :
    s.Grows (s.report tree node problem message) :=
  ⟨rfl, fun _ mem => Diagnostic.mem_report.mpr (.inl mem), List.Subset.refl _, id, id,
    List.prefix_rfl⟩

theorem grows_addInclude (i : Include) : s.Grows (s.addInclude i) := by
  refine ⟨rfl, List.Subset.refl _, ?_, id, id, List.prefix_rfl⟩
  show s.includes ⊆ if i ∈ s.includes then s.includes else s.includes ++ [i]
  split
  · exact List.Subset.refl _
  · exact List.subset_append_left _ _

theorem mem_includes_addInclude (i : Include) : i ∈ (s.addInclude i).includes := by
  show i ∈ if i ∈ s.includes then s.includes else s.includes ++ [i]
  split
  · assumption
  · simp

/-- Only the hoisted node gets a temporary. -/
theorem mem_temporaries_hoist {node : NodeId} {text : String} {d : Datatype} {e : Temporary}
    (mem : e ∈ (s.hoist node text d).temporaries) : e ∈ s.temporaries ∨ e.node = node := by
  unfold hoist at mem
  split at mem
  · split at mem
    · exact .inl mem
    · exact .inl mem
  · rcases List.mem_append.mp mem with old | new
    · exact .inl old
    · rw [List.mem_singleton.mp new]
      exact .inr rfl

end State

/-! ## Lawful effects -/

/-- What the rule of a node reaches is below that node. -/
theorem Tree.Below.reaches {t : Tree} (wf : t.WellFormed) {top id i : NodeId} (h : t.Below top id)
    (reached : t.Reaches id i) : t.Below top i := by
  rcases reached with rfl | child | ⟨c, child, grandchild⟩
  · exact h
  · exact h.trans (wf.below_of_mem child)
  · exact h.trans ((wf.below_of_mem child).trans (wf.below_of_mem grandchild))

/-- The node is a destination of the assignment `id`. -/
def Tree.Takes (t : Tree) (id child : NodeId) : Prop :=
  (t.category id = .assign ∨ t.category id = .assigns) ∧ child ∈ (t.children id).dropLast

theorem Tree.Takes.mem {t : Tree} {id child : NodeId} (h : t.Takes id child) :
    child ∈ t.children id := (List.dropLast_sublist _).subset h.2

theorem Tree.takes_of_bare {t t' : Tree} (same : t'.bare = t.bare) (id child : NodeId) :
    t'.Takes id child = t.Takes id child := by
  unfold Takes
  rw [category_of_bare same, children_of_bare same]

/-- Destinations are variables or elements of variables. -/
theorem Tree.WellFormed.isDestination_of_takes {t : Tree} (wf : t.WellFormed) {id child : NodeId}
    (h : t.Takes id child) : (t.category child).isDestination := by
  have lt : id < t.size := wf.parent_lt (wf.parent?_of_mem h.mem)
  have admits := (wf.shaped id lt).children
  have mem : t.category child ∈ ((t.children id).map t.category).dropLast := by
    rw [← List.map_dropLast]
    exact List.mem_map_of_mem h.2
  generalize (t.children id).map t.category = cs at admits mem
  rcases h.1 with assign | assigns
  · rw [assign] at admits
    match cs, admits, mem with
    | [d, v], admits, mem =>
      rw [List.mem_singleton.mp mem]
      exact (Bool.and_eq_true _ _ |>.mp admits).1
  · rw [assigns] at admits
    obtain ⟨ds, v, rfl, destinations, -⟩ := Category.exists_of_admits_assigns admits
    rw [List.dropLast_concat] at mem
    exact destinations _ mem

/-- What the rule of the node `id` can ask for. -/
def Effect.Lawful (t : Tree) (id : NodeId) : Effect → Prop
  | .record x _ => ∃ c, t.Takes id c ∧ t.category c = .var ∧ (t.node c).name = x
  | .destination c _ => t.Takes id c
  | .redirect b => b = .size ∧ ∃ p, t.parent? id = some p ∧ t.category p = .assign
      ∧ (t.children p).head?.any fun c => t.category c == .var
  | .hoist node _ _ | .report node _ _ => t.Reaches id node
  | .use .. | .tic | .toc => True

theorem Site.Takes.tree {s : Site} (ids : s.operands.map (·.id) = s.tree.children s.id)
    {o : Operand} (h : s.Takes o) : s.tree.Takes s.id o.id := by
  refine ⟨h.1, ?_⟩
  rw [← ids, ← List.map_dropLast]
  exact List.mem_map_of_mem h.2

theorem Effect.Alike.lawful {L : Likeness} {s : Site} (sound : s.Sound)
    (ids : s.operands.map (·.id) = s.tree.children s.id) {e e' : Effect} (h : e.Alike L s e') :
    e.Lawful s.tree s.id := by
  have node : ∀ {o : Operand}, s.Takes o → o.node = s.tree.node o.id := fun taken =>
    sound.node _ (List.mem_of_mem_dropLast taken.2)
  cases h with
  | @record o d taken var =>
    refine ⟨o.id, taken.tree ids, ?_, ?_⟩
    · rw [node taken] at var
      exact var
    · rw [node taken]
  | destination taken => exact taken.tree ids
  | redirect assigned =>
    refine ⟨rfl, ?_⟩
    unfold BuiltinRule.isAssignedToVariable Site.parent? at assigned
    cases up : s.tree.parent? s.id with
    | none =>
      rw [up] at assigned
      cases assigned
    | some p =>
      rw [up] at assigned
      obtain ⟨assign, var⟩ := Bool.and_eq_true _ _ |>.mp assigned
      exact ⟨p, rfl, eq_of_beq assign, var⟩
  | hoist reaches => exact reaches
  | report reaches => exact reaches
  | use | tic | toc => trivial

theorem Effect.AllAlike.lawful {L : Likeness} {quieter : Prop} {s : Site} (sound : s.Sound)
    (ids : s.operands.map (·.id) = s.tree.children s.id) {es es' : List Effect}
    (h : AllAlike L quieter s es es') : ∀ e ∈ es, e.Lawful s.tree s.id := by
  induction h with
  | nil => exact nofun
  | cons first _ ih => exact List.forall_mem_cons.mpr ⟨first.lawful sound ids, ih⟩
  | drop _ _ ih => exact List.forall_mem_cons.mpr ⟨.inl rfl, ih⟩

/-- Effects are as lawful in any other translation of the program. -/
theorem Effect.Lawful.of_bare {t t' : Tree} (same : t'.bare = t.bare) {id : NodeId} {e : Effect}
    (h : e.Lawful t id) : e.Lawful t' id := by
  have takes := Tree.takes_of_bare same id
  cases e with
  | record x d =>
    obtain ⟨c, taken, var, name⟩ := h
    exact ⟨c, takes c ▸ taken, by rwa [Tree.category_of_bare same], by rwa [Tree.name_of_bare same]⟩
  | destination c d =>
    show t'.Takes id c
    rw [takes]
    exact h
  | redirect b =>
    obtain ⟨size, p, up, assign, var⟩ := h
    refine ⟨size, p, ?_, ?_, ?_⟩
    · rwa [Tree.parent?_of_bare same]
    · rwa [Tree.category_of_bare same]
    · rwa [Tree.category_of_bare same, Tree.children_of_bare same]
  | hoist node _ _ | report node _ _ =>
    show t'.Reaches id node
    unfold Tree.Reaches
    rw [Tree.children_of_bare same]
    exact h
  | use | tic | toc => trivial

/-- A function definition has no effects. -/
theorem Rule.effects_of_function {s : Site} {o : Outcome} (ok : Rule.function s = .ok o) :
    o.effects = [] := by
  unfold Rule.function at ok
  split at ok
  case h_2 => cases ok
  case h_1 =>
    dsimp only at ok
    split at ok
    · cases ok
      rfl
    · cases ok
      rfl

/-! ## One node -/

namespace Workspace

/-- What can be done by applying the rules of nodes with `P`. -/
structure Leads (P : NodeId → Prop) (w w' : Workspace) : Prop where
  bare : w'.tree.bare = w.tree.bare
  lawful : w.tree.Lawful → w'.tree.Lawful
  grows : w.state.Grows w'.state
  redirects : ∀ i, (w.tree.node i).redirect.isSome → (w'.tree.node i).redirect.isSome
  frame : ∀ i, (w'.tree.node i).redirect = (w.tree.node i).redirect
    ∨ ∃ j, P j ∧ w.tree.parent? j = some i
  temporaries : ∀ e ∈ w'.state.temporaries, e ∈ w.state.temporaries
    ∨ ∃ j, P j ∧ w.tree.Reaches j e.node
  fills : ∀ i, (w'.tree.node i).rendered = (w.tree.node i).rendered
    ∨ ∃ j, P j ∧ w.tree.Reaches j i
  reports : ∃ new, w'.state.diagnostics = w.state.diagnostics ++ new
    ∧ ∀ d ∈ new, ∃ j, P j ∧ w.tree.Reaches j d.node
  outer : w'.state.outer = w.state.outer
  /-- only a variable that is not declared leaves a trace in the scope -/
  scope : (∀ j c, P j → w.tree.Takes j c → w.tree.category c = .var →
    w.state.isDeclared (w.tree.node c).name) → w'.state.scope = w.state.scope

namespace Leads

variable {P Q : NodeId → Prop} {w w' w'' : Workspace}

theorem refl (P : NodeId → Prop) (w : Workspace) : w.Leads P w :=
  ⟨rfl, id, .refl _, fun _ => id, fun _ => .inl rfl, fun _ => .inl, fun _ => .inl rfl,
    ⟨[], (List.append_nil _).symm, nofun⟩, rfl, fun _ => rfl⟩

theorem trans (h : w.Leads P w') (k : w'.Leads P w'') : w.Leads P w'' where
  bare := k.bare.trans h.bare
  lawful := k.lawful ∘ h.lawful
  grows := h.grows.trans k.grows
  redirects i := k.redirects i ∘ h.redirects i
  frame i := by
    rcases h.frame i with eq | reached
    · rcases k.frame i with eq' | ⟨j, hj, up⟩
      · exact .inl (eq'.trans eq)
      · rw [Tree.parent?_of_bare h.bare] at up
        exact .inr ⟨j, hj, up⟩
    · exact .inr reached
  temporaries e mem := by
    rcases k.temporaries e mem with old | ⟨j, hj, reached⟩
    · exact h.temporaries e old
    · unfold Tree.Reaches at reached
      rw [Tree.children_of_bare h.bare] at reached
      exact .inr ⟨j, hj, reached⟩
  fills i := by
    rcases k.fills i with eq | ⟨j, hj, reached⟩
    · rcases h.fills i with eq' | reached
      · exact .inl (eq.trans eq')
      · exact .inr reached
    · unfold Tree.Reaches at reached
      rw [Tree.children_of_bare h.bare] at reached
      exact .inr ⟨j, hj, reached⟩
  reports := by
    obtain ⟨new, eq, first⟩ := h.reports
    obtain ⟨more, eq', rest⟩ := k.reports
    refine ⟨new ++ more, by rw [eq', eq, List.append_assoc], ?_⟩
    refine List.forall_mem_append.mpr ⟨first, fun d mem => ?_⟩
    obtain ⟨j, hj, reached⟩ := rest d mem
    unfold Tree.Reaches at reached
    rw [Tree.children_of_bare h.bare] at reached
    exact ⟨j, hj, reached⟩
  outer := k.outer.trans h.outer
  scope declared := by
    refine (k.scope fun j c hj taken var => ?_).trans (h.scope declared)
    rw [Tree.takes_of_bare h.bare] at taken
    rw [Tree.category_of_bare h.bare] at var
    rw [Tree.name_of_bare h.bare, State.isDeclared, h.grows.config]
    exact declared j c hj taken var

theorem mono (h : w.Leads P w') (le : ∀ i, P i → Q i) : w.Leads Q w' where
  bare := h.bare
  lawful := h.lawful
  grows := h.grows
  redirects := h.redirects
  frame i := (h.frame i).imp_right fun ⟨j, hj, up⟩ => ⟨j, le j hj, up⟩
  temporaries e mem := (h.temporaries e mem).imp_right fun ⟨j, hj, reached⟩ => ⟨j, le j hj, reached⟩
  fills i := (h.fills i).imp_right fun ⟨j, hj, reached⟩ => ⟨j, le j hj, reached⟩
  reports := by
    obtain ⟨new, eq, reached⟩ := h.reports
    exact ⟨new, eq, fun d mem => (reached d mem).imp fun j found => ⟨le j found.1, found.2⟩⟩
  outer := h.outer
  scope declared := h.scope fun j c hj => declared j c (le j hj)

/-- Only the state changes, and in no way that matters. -/
theorem of_state {s : State} (grows : w.state.Grows s)
    (same : s.temporaries = w.state.temporaries) (outer : s.outer = w.state.outer)
    (scope : s.scope = w.state.scope) (reports : s.diagnostics = w.state.diagnostics) :
    w.Leads P { w with state := s } where
  bare := rfl
  lawful := id
  grows := grows
  redirects _ := id
  frame _ := .inl rfl
  temporaries _ mem := .inl (same ▸ mem)
  fills _ := .inl rfl
  reports := ⟨[], reports.trans (List.append_nil _).symm, nofun⟩
  outer := outer
  scope _ := scope

/-- A problem is reported. -/
theorem report (t : Tree) {j i : NodeId} (hj : P j) (reached : w.tree.Reaches j i) (problem : Problem)
    (message : String) : w.Leads P { w with state := w.state.report t i problem message } :=
  { Leads.refl P w with
    grows := w.state.grows_report t i problem message
    reports := by
      show ∃ new, Diagnostic.report w.state.diagnostics _ = _ ∧ _
      unfold Diagnostic.report
      split
      · exact ⟨[], (List.append_nil _).symm, nofun⟩
      · exact ⟨_, rfl, List.forall_mem_singleton.mpr ⟨j, hj, reached⟩⟩ }

/-- What is done in a scope of its own. -/
theorem inScope {after : Workspace} (h : Leads P { w with state := w.state.pushScope } after) :
    w.Leads P { after with state := after.state.popScope } := by
  have outer : after.state.outer = w.state.scope :: w.state.outer := h.outer
  have popped : after.state.popScope
      = { after.state with scope := w.state.scope, outer := w.state.outer } := by
    rw [State.popScope, outer]
  rw [popped]
  exact ⟨h.bare, h.lawful, ⟨h.grows.config, h.grows.diagnostics, h.grows.includes, h.grows.started,
    h.grows.used, h.grows.temporaries⟩, h.redirects, h.frame, h.temporaries, h.fills,
    h.reports, rfl, fun _ => rfl⟩

/-- A node is changed, but neither its redirection nor, unless it is a destination, its hint;
its text is, if a rule reaches it. -/
theorem modifyNode {i : NodeId} {f : Node → Node} (bare : ∀ n, (f n).bare = n.bare)
    (redirect : ∀ n, (f n).redirect = n.redirect)
    (rendered : (∀ n, (f n).rendered = n.rendered) ∨ ∃ j, P j ∧ w.tree.Reaches j i)
    (hint : (w.tree.category i).isDestination = false → ∀ n, (f n).suggest = n.suggest) :
    w.Leads P (w.modifyNode i f) where
  bare := w.bare_modifyNode i bare
  lawful h := by
    have same : (w.modifyNode i f).tree.bare = w.tree.bare := w.bare_modifyNode i bare
    refine ⟨fun j b eq => ?_, fun j value => ?_⟩
    · rw [Tree.category_of_bare same, Tree.children_of_bare same]
      refine h.redirected j b ?_
      rw [← eq, Workspace.modifyNode, Tree.node_modify]
      split
      · exact (redirect _).symm
      · rfl
    · rw [Tree.category_of_bare same] at value
      rw [Workspace.modifyNode, Tree.node_modify]
      split
      case isTrue eq => rw [hint (eq.1 ▸ value), h.hints j value]
      case isFalse => exact h.hints j value
  grows := .refl _
  redirects j h := by
    rw [Workspace.modifyNode, Tree.node_modify]
    split
    · rwa [redirect]
    · exact h
  frame j := by
    refine .inl ?_
    rw [Workspace.modifyNode, Tree.node_modify]
    split
    · exact redirect _
    · rfl
  temporaries _ := .inl
  fills j := by
    rw [Workspace.modifyNode, Tree.node_modify]
    split
    case isTrue here =>
      obtain ⟨rfl, -⟩ := here
      exact rendered.imp (fun kept => kept _) id
    case isFalse => exact .inl rfl
  reports := ⟨[], (List.append_nil _).symm, nofun⟩
  outer := rfl
  scope _ := rfl

/-- A destination is assigned a value. -/
theorem record {j c : NodeId} (hj : P j) (taken : w.tree.Takes j c)
    (var : w.tree.category c = .var) (d : Datatype) :
    w.Leads P { w with state := w.state.record (w.tree.node c).name d } where
  bare := rfl
  lawful := id
  grows := w.state.grows_record _ d
  redirects _ := id
  frame _ := .inl rfl
  temporaries _ mem := .inl (w.state.temporaries_record _ d ▸ mem)
  fills _ := .inl rfl
  reports := ⟨[], (w.state.diagnostics_record _ d).trans (List.append_nil _).symm, nofun⟩
  outer := by
    show (w.state.record _ d).outer = _
    unfold State.record
    split
    · rfl
    · rfl
  scope declared := by
    show (w.state.record _ d).scope = _
    rw [State.record, declared j c hj taken var, Bool.or_true, if_pos rfl]

end Leads

section Steps

variable {t : Tree} (wf : t.WellFormed) {w : Workspace} (same : w.tree.bare = t.bare) {id : NodeId}
include same

theorem leads_redirectParent {p : NodeId} (up : t.parent? id = some p)
    (assign : t.category p = .assign)
    (var : (t.children p).head?.any fun c => t.category c == .var) :
    w.Leads (· = id) (w.redirectParent id .size) := by
  have eq : w.redirectParent id .size
      = w.modifyNode p fun n => { n with redirect := some .size } := by
    rw [redirectParent, Tree.parent?_of_bare same, up]
  have kept : (w.redirectParent id .size).tree.bare = w.tree.bare := w.bare_redirectParent id _
  refine ⟨kept, fun h => ⟨fun i b found => ?_, fun i value => ?_⟩, ?_, fun i h => ?_,
    fun i => ?_, ?_, fun i => ?_, ?_, ?_, fun _ => ?_⟩
  · rw [Tree.category_of_bare (kept.trans same), Tree.children_of_bare (kept.trans same)]
    rw [eq, modifyNode, Tree.node_modify] at found
    split at found
    case isTrue here =>
      cases found
      exact ⟨rfl, here.1 ▸ assign, here.1 ▸ var⟩
    case isFalse =>
      have old := h.redirected i b found
      rwa [Tree.category_of_bare same, Tree.children_of_bare same] at old
  · rw [Tree.category_of_bare kept] at value
    rw [eq, modifyNode, Tree.node_modify]
    split
    · exact h.hints i value
    · exact h.hints i value
  · rw [eq]
    exact .refl _
  · rw [eq, modifyNode, Tree.node_modify]
    split
    · rfl
    · exact h
  · by_cases here : i = p
    · exact .inr ⟨id, rfl, by rw [Tree.parent?_of_bare same, up, here]⟩
    · refine .inl ?_
      rw [eq, modifyNode, Tree.node_modify, if_neg fun both => here both.1]
  · rw [eq]
    exact fun _ => .inl
  · refine .inl ?_
    rw [eq, modifyNode, Tree.node_modify]
    split
    · rfl
    · rfl
  · rw [eq]
    exact ⟨[], (List.append_nil _).symm, nofun⟩
  · rw [eq]
    rfl
  · rw [eq]
    rfl

include wf

/-- An effect that a rule can ask for. -/
theorem leads_perform {e : Effect} (lawful : e.Lawful t id) :
    w.Leads (· = id) (w.perform id e) := by
  cases e with
  | report node problem message =>
    refine .report (P := (· = id)) w.tree rfl ?_ problem message
    unfold Tree.Reaches
    rw [Tree.children_of_bare same]
    exact lawful
  | use i => exact .of_state (w.state.grows_addInclude i) rfl rfl rfl rfl
  | tic => exact .of_state ⟨rfl, List.Subset.refl _, List.Subset.refl _, fun _ => rfl,
      fun _ => rfl, List.prefix_rfl⟩ rfl rfl rfl rfl
  | toc => exact .of_state ⟨rfl, List.Subset.refl _, List.Subset.refl _, fun h => h,
      fun _ => rfl, List.prefix_rfl⟩ rfl rfl rfl rfl
  | record x d =>
    obtain ⟨c, taken, var, rfl⟩ := lawful
    have name : (t.node c).name = (w.tree.node c).name := (Tree.name_of_bare same c).symm
    rw [name]
    refine .record (P := (· = id)) rfl (c := c) ?_ ?_ d
    · rwa [Tree.takes_of_bare same]
    · rwa [Tree.category_of_bare same]
  | redirect b =>
    obtain ⟨rfl, p, up, assign, var⟩ := lawful
    exact leads_redirectParent same up assign var
  | hoist node text d =>
    have reached : w.tree.Reaches id node := by
      unfold Tree.Reaches
      rw [Tree.children_of_bare same]
      exact lawful
    have state : w.Leads (· = id) { w with state := w.state.hoist node text d } :=
      { Leads.refl _ w with
        grows := w.state.grows_hoist node text d
        temporaries := fun e mem => by
          rcases w.state.mem_temporaries_hoist mem with old | new
          · exact .inl old
          · exact .inr ⟨id, rfl, new ▸ reached⟩
        reports := ⟨[], (w.state.diagnostics_hoist node text d).trans (List.append_nil _).symm, nofun⟩
        outer := (w.state.scopes_hoist node text d).1
        scope := fun _ => (w.state.scopes_hoist node text d).2 }
    exact state.trans (.modifyNode (fun _ => rfl) (fun _ => rfl) (.inr ⟨id, rfl, reached⟩)
      fun _ _ => rfl)
  | destination c d =>
    have destination := wf.isDestination_of_takes lawful
    have typed : w.Leads (· = id)
        (w.modifyNode c fun n => { n with suggest := some d, typing := .of d }) := by
      refine .modifyNode (fun _ => rfl) (fun _ => rfl) (.inl fun _ => rfl) fun value => ?_
      rw [Tree.category_of_bare same, destination] at value
      cases value
    show w.Leads _ (w.typeDestination c d)
    unfold typeDestination
    dsimp only
    split
    case isTrue var =>
      refine typed.trans (.record (P := (· = id)) rfl ?_ (eq_of_beq var) d)
      rwa [Tree.takes_of_bare (typed.bare.trans same)]
    · exact typed

theorem leads_performAll {es : List Effect} (lawful : ∀ e ∈ es, e.Lawful t id) :
    w.Leads (· = id) (es.foldl (perform id) w) := by
  induction es generalizing w with
  | nil => exact .refl _ w
  | cons e es ih =>
    obtain ⟨first, rest⟩ := List.forall_mem_cons.mp lawful
    have step := leads_perform wf same first
    exact step.trans (ih (step.bare.trans same) rest)

theorem leads_commit {texts : List String} {o : Outcome}
    (lawful : ∀ e ∈ o.effects, e.Lawful t id) : w.Leads (· = id) (w.commit id texts o) :=
  (leads_performAll wf same lawful).trans
    (.modifyNode (fun _ => rfl) (fun _ => rfl) (.inr ⟨id, rfl, .inl rfl⟩) fun _ _ => rfl)

omit wf same in
theorem leads_seed {P : NodeId → Prop} (w : Workspace) (id : NodeId) : w.Leads P (w.seed id) :=
  .modifyNode (fun _ => rfl) (fun _ => rfl) (.inl fun _ => rfl) fun _ _ => rfl

end Steps

/-! ## The effects of a rule -/

/-- Every effect that the rule of a node asks for is lawful. -/
theorem lawful_answer {t : Tree} (wf : t.WellFormed) {w : Workspace} (same : w.tree.bare = t.bare)
    (lawful : w.tree.Lawful) {id : NodeId} (lt : id < t.size) (block : t.category id ≠ .block)
    {texts : List String} (lengths : texts.length = (t.children id).length)
    (spells : t.category id ≠ .function → t.Spells (t.children id) texts) {o : Outcome}
    (ok : w.answer id texts = .ok o) : ∀ e ∈ o.effects, e.Lawful t id := by
  have lt' : id < w.tree.size := by rwa [Tree.size_of_bare same]
  have lengths' : texts.length = (w.tree.children id).length := by
    rwa [Tree.children_of_bare same]
  have category : (w.site id texts).node.category = t.category id :=
    congrFun (Tree.category_of_bare same) id
  by_cases function : t.category id = .function
  case pos =>
    have run : Rule.function (w.site id texts) = .ok o := by
      rw [← Rule.select_function (t := w.tree) (n := w.tree.node id) (category.trans function)]
      exact ok
    rw [Rule.effects_of_function run]
    exact nofun
  case neg =>
    have spelled : w.tree.Spells (w.tree.children id) texts := by
      rw [Tree.children_of_bare same]
      exact (spells function).of_bare same
    have alike : (w.site id texts).Alike .same False (w.site id texts) :=
      alike_self (wf.of_bare same) ⟨fun _ _ => trivial, fun _ _ _ _ => trivial⟩ lawful lt' lengths'
        (fun _ _ => ⟨rfl, fun _ _ => rfl⟩) (List.forall₂_same.mpr fun _ _ => rfl) spelled
        fun _ _ _ _ _ _ => ⟨rfl, rfl⟩
    have agrees := Rule.select_agrees alike (category ▸ function) (category ▸ block)
    rw [show Rule.select (w.site id texts).tree (w.site id texts).node (w.site id texts) = .ok o
      from ok] at agrees
    cases agrees with
    | answers _ effects _ =>
      intro e mem
      exact (effects.lawful alike.sound alike.ids e mem).of_bare same.symm

end Workspace

/-! ## The whole walk -/

namespace Resolving

variable {t : Tree}

/-- A step that resolves the node `id`: it reaches no further than what is below that,
and it gives a variable its name. -/
structure Steady (t : Tree) (id : NodeId) (step : Resolving String) : Prop where
  leads : ∀ w : Workspace, w.tree.bare = t.bare → w.tree.Lawful →
    w.Leads (t.Below id) (step w).2
  spells : ∀ (w : Workspace) (text : String), w.tree.bare = t.bare → w.tree.Lawful →
    (step w).1 = .ok text → t.category id = .var →
    Builtin.isReserved (t.node id).name = false → text = (t.node id).name

section Nodes

variable {resolve : NodeId → Resolving String}

theorem texts_of_error {c : NodeId} {ids : List NodeId} {w w₁ : Workspace} {e : Error}
    (eq : resolve c w = (.error e, w₁)) : texts resolve (c :: ids) w = (.error e, w₁) := by
  rw [texts, eq]

theorem texts_of_ok {c : NodeId} {ids : List NodeId} {w w₁ : Workspace} {text : String}
    (eq : resolve c w = (.ok text, w₁)) : texts resolve (c :: ids) w
      = ((texts resolve ids w₁).1.map (text :: ·), (texts resolve ids w₁).2) := by
  rw [texts, eq]
  dsimp only
  cases texts resolve ids w₁ with
  | mk answers w₂ => cases answers <;> rfl

/-- Nodes that are resolved after others. -/
theorem texts_append (ids ids' : List NodeId) (w : Workspace) :
    texts resolve (ids ++ ids') w = match texts resolve ids w with
      | (.error e, v) => (.error e, v)
      | (.ok found, v) => ((texts resolve ids' v).1.map (found ++ ·), (texts resolve ids' v).2) := by
  induction ids generalizing w with
  | nil =>
    show texts resolve ids' w = ((texts resolve ids' w).1.map ([] ++ ·), (texts resolve ids' w).2)
    cases texts resolve ids' w with
    | mk answers v => cases answers <;> rfl
  | cons c ids ih =>
    rw [List.cons_append]
    cases result : resolve c w with
    | mk answer w₁ =>
    cases answer with
    | error e => rw [texts_of_error result, texts_of_error result]
    | ok text =>
      rw [texts_of_ok result, texts_of_ok result, ih]
      cases texts resolve ids w₁ with
      | mk answers v =>
      cases answers with
      | error e => rfl
      | ok found =>
        show (((texts resolve ids' v).1.map _).map _, _) = ((texts resolve ids' v).1.map _, _)
        cases (texts resolve ids' v).1 <;> rfl

theorem steady_texts : ∀ {ids : List NodeId} {w : Workspace},
    (∀ c ∈ ids, Steady t c (resolve c)) → w.tree.bare = t.bare → w.tree.Lawful →
    w.Leads (fun i => ∃ c ∈ ids, t.Below c i) (texts resolve ids w).2
      ∧ ∀ found, (texts resolve ids w).1 = .ok found → t.Spells ids found
  | [], w, _, _, _ => by
    refine ⟨.refl _ w, fun found ok => ?_⟩
    cases ok
    exact .nil
  | c :: ids, w, steady, same, lawful => by
    obtain ⟨here, there⟩ := List.forall_mem_cons.mp steady
    have first := (here.leads w same lawful).mono (Q := fun i => ∃ c' ∈ c :: ids, t.Below c' i)
      fun i below => ⟨c, List.mem_cons_self, below⟩
    have spelled := fun text => here.spells w text same lawful
    unfold texts
    generalize resolve c w = result at first spelled
    obtain ⟨answer, w₁⟩ := result
    cases answer with
    | error e => exact ⟨first, fun _ failed => by cases failed⟩
    | ok text =>
      have rest := steady_texts (w := w₁) there (first.bare.trans same) (first.lawful lawful)
      dsimp only
      generalize texts resolve ids w₁ = results at rest
      obtain ⟨answers, w₂⟩ := results
      have whole := first.trans (rest.1.mono fun i inside =>
        inside.imp fun _ both => ⟨List.mem_cons_of_mem c both.1, both.2⟩)
      cases answers with
      | error e => exact ⟨whole, fun _ failed => by cases failed⟩
      | ok found =>
        refine ⟨whole, fun all ok => ?_⟩
        cases ok
        exact .cons (spelled text rfl) (rest.2 found rfl)

section Rule

variable (wf : t.WellFormed) {id : NodeId} (lt : id < t.size) (block : t.category id ≠ .block)
  {w : Workspace} (same : w.tree.bare = t.bare) (lawful : w.tree.Lawful)

include wf lt block same lawful in
theorem leads_applyRule {found : List String} (lengths : found.length = (t.children id).length)
    (spells : t.category id ≠ .function → t.Spells (t.children id) found) :
    w.Leads (· = id) (applyRule id found w).2 := by
  have seeded : w.Leads (· = id) (w.seed id) := Workspace.leads_seed w id
  have same' := seeded.bare.trans same
  unfold applyRule
  dsimp only
  cases answer : Rule.select (w.seed id).tree ((w.seed id).tree.node id)
      ((w.seed id).site id found) with
  | error e => exact seeded
  | ok o =>
    have effects := Workspace.lawful_answer wf same' (seeded.lawful lawful) lt block lengths spells
      answer
    exact seeded.trans (Workspace.leads_commit wf same' effects)

include same lawful in
theorem name_of_applyRule (var : t.category id = .var)
    (free : Builtin.isReserved (t.node id).name = false) {found : List String} {text : String}
    (ok : (applyRule id found w).1 = .ok text) : text = (t.node id).name := by
  have seeded : w.Leads (· = id) (w.seed id) := Workspace.leads_seed w id
  have same' := seeded.bare.trans same
  have category : ((w.seed id).tree.node id).category = .var :=
    (congrFun (Tree.category_of_bare same') id).trans var
  have name : ((w.seed id).tree.node id).name = (t.node id).name := Tree.name_of_bare same' id
  have redirect : ((w.seed id).tree.node id).redirect = none :=
    (seeded.lawful lawful).redirect_eq_none fun assign => nomatch category.symm.trans assign
  have select : Rule.select (w.seed id).tree ((w.seed id).tree.node id) = Rule.var := by
    have none : Builtin.ofName? (t.node id).name = none := Option.not_isSome_iff_eq_none.mp
      (Bool.eq_false_iff.mp free)
    rw [Rule.select, Rule.builtinOf?, redirect, category, name, none]
    rfl
  have answer : ∃ o, Rule.var ((w.seed id).site id found) = .ok o
      ∧ o.template = .format "%(name)s" := by
    unfold Rule.var
    split
    · exact ⟨_, rfl, rfl⟩
    · exact ⟨_, rfl, rfl⟩
  obtain ⟨o, answers, template⟩ := answer
  unfold applyRule at ok
  dsimp only at ok
  rw [select, answers] at ok
  cases ok
  rw [Workspace.textOf, template, Template.render_name]
  exact name

end Rule

theorem steady_node (wf : t.WellFormed) {id : NodeId} (lt : id < t.size)
    (block : t.category id ≠ .block) (steady : ∀ c ∈ t.children id, Steady t c (resolve c)) :
    Steady t id (node resolve id) := by
  have below : ∀ i, (∃ c ∈ t.children id, t.Below c i) → t.Below id i := fun i ⟨c, mem, below⟩ =>
    (Tree.below_of_parent? (wf.parent?_of_mem mem)).trans below
  refine ⟨fun w same lawful => ?_, fun w text same lawful ok var free => ?_⟩
  · have children := steady_texts (w := w) steady same lawful
    unfold node
    rw [Tree.children_of_bare same]
    cases results : texts resolve (t.children id) w with
    | mk answers w₁ =>
      rw [results] at children
      have before := children.1.mono below
      cases answers with
      | error e => exact before
      | ok found =>
        have applied := leads_applyRule wf lt block (before.bare.trans same)
          (before.lawful lawful) (length_of_texts results) fun _ => children.2 found rfl
        exact before.trans (applied.mono fun i eq => eq ▸ t.below_self id)
  · have children := steady_texts (w := w) steady same lawful
    unfold node at ok
    rw [Tree.children_of_bare same] at ok
    cases results : texts resolve (t.children id) w with
    | mk answers w₁ =>
      rw [results] at children ok
      cases answers with
      | error e => cases ok
      | ok found =>
        exact name_of_applyRule (children.1.bare.trans same) (children.1.lawful lawful) var free ok

theorem leads_statementLines {id : NodeId} (steady : Steady t id (resolve id)) {w : Workspace}
    (same : w.tree.bare = t.bare) (lawful : w.tree.Lawful) :
    w.Leads (t.Below id) (statementLines resolve id w).2 := by
  have opened : w.Leads (t.Below id) { w with state := w.state.withPending [] } :=
    .of_state (w.state.grows_withPending []) rfl rfl rfl rfl
  have resolved := opened.trans (steady.leads _ same lawful)
  unfold statementLines
  dsimp only
  generalize resolve id { w with state := w.state.withPending [] } = result at resolved
  obtain ⟨answer, after⟩ := result
  have closed := resolved.trans
    (.of_state (after.state.grows_withPending w.state.pending) rfl rfl rfl rfl)
  cases answer with
  | ok text => exact closed
  | error e => exact closed.trans (.report _ (t.below_self id) (.inl rfl) _ _)

theorem leads_blockLines : ∀ {ids : List NodeId} {w : Workspace},
    (∀ c ∈ ids, Steady t c (resolve c)) → w.tree.bare = t.bare → w.tree.Lawful →
    w.Leads (fun i => ∃ c ∈ ids, t.Below c i) (blockLines resolve ids w).2
  | [], w, _, _, _ => .refl _ w
  | c :: ids, w, steady, same, lawful => by
    obtain ⟨here, there⟩ := List.forall_mem_cons.mp steady
    have first := leads_statementLines here same lawful
    have rest := leads_blockLines there (first.bare.trans same) (first.lawful lawful)
    refine (first.mono fun i below => ?_).trans (rest.mono fun i ⟨c', mem, below⟩ => ?_)
    · exact ⟨c, List.mem_cons_self, below⟩
    · exact ⟨c', List.mem_cons_of_mem c mem, below⟩

end Nodes

/-- Resolving a node reaches no further than what is below it. -/
theorem steady_resolveWithin (wf : t.WellFormed) (depth : Nat) {id : NodeId} (lt : id < t.size) :
    Steady t id (resolveWithin depth id) := by
  induction depth generalizing id with
  | zero => exact ⟨fun w _ _ => .refl _ w, fun _ _ _ _ failed => by cases failed⟩
  | succ depth ih =>
    have children : ∀ c ∈ t.children id, Steady t c (resolveWithin depth c) := fun c mem =>
      ih (wf.bound id c mem)
    have category : ∀ w : Workspace, w.tree.bare = t.bare →
        (w.tree.node id).category = t.category id := fun w same =>
      congrFun (Tree.category_of_bare same) id
    have below : ∀ i, (∃ c ∈ t.children id, t.Below c i) → t.Below id i := by
      rintro i ⟨c, mem, below⟩
      exact (Tree.below_of_parent? (wf.parent?_of_mem mem)).trans below
    cases kind : t.category id with
    | block =>
      refine ⟨fun w same lawful => ?_, fun w text same lawful ok var => ?_⟩
      · unfold resolveWithin
        rw [category w same, kind]
        have lines := leads_blockLines (w := w) children same lawful
        unfold block
        rw [Tree.children_of_bare same]
        exact lines.mono below
      · rw [kind] at var
        cases var
    | function =>
      have steady := steady_node wf lt (by rw [kind]; rintro ⟨⟩) children
      refine ⟨fun w same lawful => ?_, fun w text same lawful ok var => ?_⟩
      · unfold resolveWithin
        rw [category w same, kind]
        exact .inScope (steady.leads _ same lawful)
      · rw [kind] at var
        cases var
    | _ =>
      have steady := steady_node wf lt (by rw [kind]; rintro ⟨⟩) children
      refine ⟨fun w same lawful => ?_, fun w text same lawful ok => ?_⟩
      · unfold resolveWithin
        rw [category w same, kind]
        exact steady.leads w same lawful
      · unfold resolveWithin at ok
        rw [category w same, kind] at ok
        exact steady.spells w text same lawful ok

/-! ### Lines of statements -/

theorem pending_statementLines (resolve : NodeId → Resolving String) (id : NodeId)
    (w : Workspace) : (statementLines resolve id w).2.state.pending = w.state.pending := by
  unfold statementLines
  dsimp only
  split
  · rfl
  · rfl

theorem pending_blockLines (resolve : NodeId → Resolving String) :
    ∀ (ids : List NodeId) (w : Workspace),
      (blockLines resolve ids w).2.state.pending = w.state.pending
  | [], _ => rfl
  | id :: ids, w =>
    (pending_blockLines resolve ids _).trans (pending_statementLines resolve id w)

theorem line_of_failure {L : Likeness} {e : Error} (shows : L.Shows e.message e.message) :
    L.line (failureLine e) (failureLine e) := by
  refine L.line_of_like ((L.opening "// error: " rfl).append shows) ?_
  simp [failureLine]

/-- The lines of a program are those of the statements in its root. -/
theorem rootLines_eq (wf : t.WellFormed) {root : NodeId} (top : t.root = some root) {w : Workspace}
    (same : w.tree.bare = t.bare) :
    rootLines w = blockLines (resolveWithin (t.size + 1)) (t.children root) w := by
  obtain ⟨root', top', -, block, -⟩ := wf.root
  obtain rfl := Option.some.inj (top'.symm.trans top)
  have category : (w.tree.node root').category = .block :=
    (congrFun (Tree.category_of_bare same) root').trans block
  rw [rootLines, Tree.root_of_bare same, top]
  dsimp only
  rw [category, Tree.size_of_bare same, Tree.children_of_bare same]

end Resolving

end MatrixScript
