/-
# `Proofs.Translation.Twin` — the same piece of program is typed in the same way

Whatever a translation does, at whatever node of whatever tree, diagnostics are added at
the end, helpers and suggested names are added, a clock that is read stays read, and
neither the configuration nor the scopes around the innermost one change
(`Resolving.extends_resolveWithin`).  A scope of its own is closed again
(`Resolving.scope_inScope`).

Two translations come to the same piece of program, each in a tree of its own, with
the same types of variables (`Workspace.Twin`).  Each step keeps that up: whatever
rule a node gets types twins alike, and of its effects only those matter that decide
about types.  So resolving paired nodes succeeds for both or fails for both, and
leaves the piece typed alike (`twin_resolveWithin`).  Nodes outside of the piece keep
what is inferred about them (`Spares`).

Function definitions do not nest, so none is inside of a piece that is resolved; a
definition is entered in a scope of its own, and leaves the scope around it as it was.
-/
import MatrixScript.Proofs.Rule.BuiltinTwin
import MatrixScript.Proofs.Translation.Leads
import MatrixScript.Translator

namespace MatrixScript

/-! ## What no step takes back -/

theorem NameTable.contains_insert {α : Type} (t : NameTable α) (name : String) (d : α) {x : String}
    (h : t.contains x) : (t.insert name d).contains x := by
  unfold contains at h ⊢
  rw [get?_insert]
  split
  · rfl
  · exact h

namespace State

/-- What `s` has, `s'` still has. -/
structure Extends (s s' : State) : Prop where
  config : s'.config = s.config
  outer : s'.outer = s.outer
  diagnostics : s.diagnostics <+: s'.diagnostics
  includes : s.includes ⊆ s'.includes
  suggested : ∀ x, s.suggestions.contains x → s'.suggestions.contains x
  used : s.clock.used → s'.clock.used

theorem Extends.refl (s : State) : s.Extends s :=
  ⟨rfl, rfl, List.prefix_rfl, List.Subset.refl _, fun _ => id, id⟩

theorem Extends.trans {s s' s'' : State} (h : s.Extends s') (k : s'.Extends s'') :
    s.Extends s'' where
  config := k.config.trans h.config
  outer := k.outer.trans h.outer
  diagnostics := h.diagnostics.trans k.diagnostics
  includes := List.Subset.trans h.includes k.includes
  suggested x := k.suggested x ∘ h.suggested x
  used := k.used ∘ h.used

variable (s : State)

theorem extends_withPending (pending : List String) : s.Extends (s.withPending pending) :=
  ⟨rfl, rfl, List.prefix_rfl, List.Subset.refl _, fun _ => id, id⟩

theorem extends_record (x : String) (d : Datatype) : s.Extends (s.record x d) := by
  unfold record
  split
  · exact .refl s
  · exact ⟨rfl, rfl, List.prefix_rfl, List.Subset.refl _, fun _ => NameTable.contains_insert _ _ _, id⟩

theorem extends_hoist (node : NodeId) (text : String) (d : Datatype) :
    s.Extends (s.hoist node text d) := by
  unfold hoist
  split
  · split
    · exact .refl s
    · exact s.extends_withPending _
  · exact ⟨rfl, rfl, List.prefix_rfl, List.Subset.refl _, fun _ => NameTable.contains_insert _ _ _, id⟩

theorem extends_report (tree : Tree) (node : NodeId) (problem : Problem) (message : String) :
    s.Extends (s.report tree node problem message) := by
  refine ⟨rfl, rfl, ?_, List.Subset.refl _, fun _ => id, id⟩
  show s.diagnostics <+: Diagnostic.report s.diagnostics _
  unfold Diagnostic.report
  split
  · exact List.prefix_rfl
  · exact List.prefix_append ..

theorem extends_addInclude (i : Include) : s.Extends (s.addInclude i) := by
  refine ⟨rfl, rfl, List.prefix_rfl, ?_, fun _ => id, id⟩
  show s.includes ⊆ if i ∈ s.includes then s.includes else s.includes ++ [i]
  split
  · exact List.Subset.refl _
  · exact List.subset_append_left ..

/-- What is done between opening and closing a scope. -/
theorem extends_popScope {s after : State} (h : s.pushScope.Extends after) :
    s.Extends after.popScope ∧ after.popScope.scope = s.scope := by
  have outer : after.outer = s.scope :: s.outer := h.outer
  rw [popScope, outer]
  exact ⟨⟨h.config, rfl, h.diagnostics, h.includes, h.suggested, h.used⟩, rfl⟩

end State

section Steps

open State

namespace Workspace

theorem extends_typeDestination (w : Workspace) (child : NodeId) (d : Datatype) :
    w.state.Extends (w.typeDestination child d).state := by
  unfold typeDestination
  dsimp only
  split
  · exact extends_record ..
  · exact .refl _

theorem extends_redirectParent (w : Workspace) (id : NodeId) (b : Builtin) :
    w.state.Extends (w.redirectParent id b).state := by
  unfold redirectParent
  split
  · exact .refl _
  · exact .refl _

theorem extends_perform (id : NodeId) (w : Workspace) (e : Effect) :
    w.state.Extends (w.perform id e).state := by
  cases e with
  | report node problem message => exact w.state.extends_report w.tree node problem message
  | use i => exact w.state.extends_addInclude i
  | record x d => exact w.state.extends_record x d
  | destination child d => exact w.extends_typeDestination child d
  | redirect b => exact w.extends_redirectParent id b
  | hoist node text d => exact w.state.extends_hoist node text d
  | tic | toc => exact ⟨rfl, rfl, List.prefix_rfl, List.Subset.refl _, fun _ h => h, fun _ => rfl⟩

theorem extends_commit (w : Workspace) (id : NodeId) (texts : List String) (o : Outcome) :
    w.state.Extends (w.commit id texts o).state := by
  have performed : ∀ (es : List Effect) (w : Workspace),
      w.state.Extends (es.foldl (perform id) w).state := by
    intro es
    induction es with
    | nil => exact fun w => .refl w.state
    | cons e es ih => exact fun w => (w.extends_perform id e).trans (ih _)
  exact performed o.effects w

end Workspace

namespace Resolving

/-- The step takes nothing back. -/
def Adds {α : Type} (step : Resolving α) : Prop :=
  ∀ w : Workspace, w.state.Extends (step w).2.state

variable {resolve : NodeId → Resolving String} (h : ∀ id, Adds (resolve id))

theorem adds_applyRule (id : NodeId) (texts : List String) : Adds (applyRule id texts) := by
  intro w
  unfold applyRule
  dsimp only
  split
  · exact .refl w.state
  · exact (w.seed id).extends_commit id texts _

include h

theorem adds_texts : ∀ ids, Adds (texts resolve ids)
  | [], w => .refl w.state
  | id :: ids, w => by
    have first := h id w
    unfold texts
    split
    case h_1 eq =>
      rw [eq] at first
      exact first
    case h_2 w' eq =>
      rw [eq] at first
      have rest := adds_texts ids w'
      split
      case h_1 eq' =>
        rw [eq'] at rest
        exact first.trans rest
      case h_2 eq' =>
        rw [eq'] at rest
        exact first.trans rest

theorem adds_node (id : NodeId) : Adds (node resolve id) := by
  intro w
  have children := adds_texts h (w.tree.children id) w
  unfold node
  split
  case h_1 eq =>
    rw [eq] at children
    exact children
  case h_2 w' eq =>
    rw [eq] at children
    exact children.trans (adds_applyRule id _ w')

theorem adds_statementLines (id : NodeId) (w : Workspace) :
    w.state.Extends (statementLines resolve id w).2.state := by
  have resolved := (w.state.extends_withPending []).trans (h id { w with state := w.state.withPending [] })
  unfold statementLines
  dsimp only
  generalize resolve id { w with state := w.state.withPending [] } = result at resolved
  obtain ⟨answer, after⟩ := result
  have closed := resolved.trans (after.state.extends_withPending w.state.pending)
  cases answer with
  | ok text => exact closed
  | error e => exact closed.trans (extends_report ..)

theorem adds_blockLines : ∀ ids (w : Workspace), w.state.Extends (blockLines resolve ids w).2.state
  | [], w => .refl w.state
  | id :: ids, w => (adds_statementLines h id w).trans (adds_blockLines ids _)

omit h

theorem extends_inScope {step : Resolving String} (h : Adds step) (w : Workspace) :
    w.state.Extends (inScope step w).2.state ∧ (inScope step w).2.state.scope = w.state.scope :=
  extends_popScope (h { w with state := w.state.pushScope })

/-- Resolving a node takes nothing back. -/
theorem adds_resolveWithin (depth : Nat) : ∀ id, Adds (resolveWithin depth id) := by
  induction depth with
  | zero => exact fun _ w => .refl w.state
  | succ depth ih =>
    intro id w
    unfold resolveWithin
    split
    · exact adds_blockLines ih (w.tree.children id) w
    · exact (extends_inScope (adds_node ih id) w).1
    · exact adds_node ih id w

/-! ## Lines one behind the other -/

section Lines

variable (resolve : NodeId → Resolving String)

theorem blockLines_cons (id : NodeId) (ids : List NodeId) (w : Workspace) :
    blockLines resolve (id :: ids) w
      = ((statementLines resolve id w).1 ++ (blockLines resolve ids (statementLines resolve id w).2).1,
        (blockLines resolve ids (statementLines resolve id w).2).2) := rfl

theorem blockLines_append (ids ids' : List NodeId) (w : Workspace) :
    blockLines resolve (ids ++ ids') w
      = ((blockLines resolve ids w).1 ++ (blockLines resolve ids' (blockLines resolve ids w).2).1,
        (blockLines resolve ids' (blockLines resolve ids w).2).2) := by
  induction ids generalizing w with
  | nil => rfl
  | cons id ids ih =>
    rw [List.cons_append, blockLines_cons, blockLines_cons, ih, List.append_assoc]

/-- The lines of a statement are taken after its tree is filled in. -/
theorem tree_statementLines (id : NodeId) (w : Workspace) : (statementLines resolve id w).2.tree
    = (resolve id { w with state := w.state.withPending [] }).2.tree := by
  unfold statementLines
  dsimp only
  split
  · rfl
  · rfl

end Lines

end Resolving

end Steps

variable {R : NodeId → NodeId → Prop} {Q : NodeId → Prop} {t t' : Tree}

/-! ## What is inferred about a node -/

/-- What is inferred about the node stays. -/
structure Node.Kept (n m : Node) : Prop where
  typing : m.typing = n.typing
  suggest : m.suggest = n.suggest
  redirect : m.redirect = n.redirect

theorem Node.Kept.refl (n : Node) : n.Kept n := ⟨rfl, rfl, rfl⟩

theorem Node.Kept.trans {n m k : Node} (h : n.Kept m) (h' : m.Kept k) : n.Kept k :=
  ⟨h'.typing.trans h.typing, h'.suggest.trans h.suggest, h'.redirect.trans h.redirect⟩

namespace Workspace

variable {w w' v v' : Workspace}

/-- Two translations of programs that hold the same piece, where it is typed alike and
variables have the same types. -/
structure Twin (R : NodeId → NodeId → Prop) (t t' : Tree) (w w' : Workspace) : Prop where
  bare : w.tree.bare = t.bare
  bare' : w'.tree.bare = t'.bare
  trees : w.tree.Twins R w'.tree
  declarations : w'.state.config.declarations = w.state.config.declarations
  scope : w'.state.scope = w.state.scope

/-- Nodes without `Q` keep what is inferred about them. -/
def Spares (Q : NodeId → Prop) (w v : Workspace) : Prop :=
  ∀ i, ¬Q i → (w.tree.node i).Kept (v.tree.node i)

theorem Spares.refl (Q : NodeId → Prop) (w : Workspace) : w.Spares Q w := fun _ _ => .refl _

theorem Spares.trans {u : Workspace} (h : w.Spares Q v) (k : v.Spares Q u) : w.Spares Q u :=
  fun i apart => (h i apart).trans (k i apart)

theorem Twin.lookup (h : w.Twin R t t' w') (x : String) :
    w'.state.lookup x = w.state.lookup x := by
  unfold State.lookup
  rw [h.declarations, h.scope]

/-- A change of the state that types of variables do not depend on. -/
theorem Twin.of_state (h : w.Twin R t t' w') {s s' : State}
    (declarations : s.config.declarations = w.state.config.declarations)
    (declarations' : s'.config.declarations = w'.state.config.declarations)
    (scope : s'.scope = s.scope) :
    Twin R t t' { w with state := s } { w' with state := s' } :=
  ⟨h.bare, h.bare', h.trees, declarations'.trans (h.declarations.trans declarations.symm), scope⟩

/-! ## Changing a node -/

theorem kept_modifyNode {i : NodeId} {f : Node → Node} (kept : ∀ n : Node, n.Kept (f n))
    (w : Workspace) (j : NodeId) : (w.tree.node j).Kept ((w.modifyNode i f).tree.node j) := by
  rw [modifyNode, Tree.node_modify]
  split
  · exact kept _
  · exact .refl _

theorem spares_modifyNode {i : NodeId} (here : Q i) (f : Node → Node) (w : Workspace) :
    w.Spares Q (w.modifyNode i f) := by
  intro j apart
  rw [modifyNode, Tree.node_modify, if_neg]
  · exact .refl _
  · rintro ⟨rfl, -⟩
    exact apart here

theorem Twin.modifyNode (h : w.Twin R t t' w') {i i' : NodeId} (pair : R i i')
    {f f' : Node → Node} (bare : ∀ n, (f n).bare = n.bare) (bare' : ∀ n, (f' n).bare = n.bare)
    (step : (w.tree.node i).Twin R (w'.tree.node i') →
      (f (w.tree.node i)).Twin R (f' (w'.tree.node i'))) :
    (w.modifyNode i f).Twin R t t' (w'.modifyNode i' f') :=
  ⟨(w.bare_modifyNode i bare).trans h.bare, (w'.bare_modifyNode i' bare').trans h.bare',
    h.trees.modify pair bare bare' (step (h.trees.node pair)), h.declarations, h.scope⟩

/-! ## Effects -/

/-- Nothing that types depend on changes. -/
structure Quiet (w v : Workspace) : Prop where
  bare : v.tree.bare = w.tree.bare
  kept : ∀ i, (w.tree.node i).Kept (v.tree.node i)
  declarations : v.state.config.declarations = w.state.config.declarations
  scope : v.state.scope = w.state.scope

theorem quiet_perform (id : NodeId) (w : Workspace) {e : Effect} (quiet : e.types = false) :
    w.Quiet (w.perform id e) := by
  cases e with
  | hoist node text d =>
    have kept : ∀ n : Node, n.Kept { n with rendered := some (w.state.temporaryName node d) } :=
      fun n => ⟨rfl, rfl, rfl⟩
    refine ⟨w.bare_perform id _, kept_modifyNode kept { w with state := w.state.hoist node text d },
      ?_, (w.state.scopes_hoist node text d).2⟩
    exact congrArg Config.declarations (w.state.grows_hoist node text d).config
  | report | use | tic | toc => exact ⟨rfl, fun _ => .refl _, rfl, rfl⟩
  | record | destination | redirect => cases quiet

theorem Quiet.node (h : w.Quiet v) {i : NodeId} {n' : Node} (twin : (w.tree.node i).Twin R n') :
    (v.tree.node i).Twin R n' where
  category := by
    rw [twin.category]
    exact (congrFun (Tree.category_of_bare h.bare) i).symm
  name := by rw [twin.name, Tree.name_of_bare h.bare]
  value := by rw [twin.value, Tree.value_of_bare h.bare]
  children := by
    have children : (v.tree.node i).children = (w.tree.node i).children :=
      congrFun (Tree.children_of_bare h.bare) i
    rw [children]
    exact twin.children
  typing := by rw [twin.typing, (h.kept i).typing]
  suggest := by rw [twin.suggest, (h.kept i).suggest]
  redirect := by rw [twin.redirect, (h.kept i).redirect]

theorem Quiet.node' (h : w.Quiet v) {i : NodeId} {n : Node} (twin : n.Twin R (w.tree.node i)) :
    n.Twin R (v.tree.node i) where
  category := by
    rw [← twin.category]
    exact congrFun (Tree.category_of_bare h.bare) i
  name := by rw [← twin.name, Tree.name_of_bare h.bare]
  value := by rw [← twin.value, Tree.value_of_bare h.bare]
  children := by
    have children : (v.tree.node i).children = (w.tree.node i).children :=
      congrFun (Tree.children_of_bare h.bare) i
    rw [children]
    exact twin.children
  typing := by rw [← twin.typing, (h.kept i).typing]
  suggest := by rw [← twin.suggest, (h.kept i).suggest]
  redirect := by rw [← twin.redirect, (h.kept i).redirect]

theorem Twin.quiet_left (h : w.Twin R t t' w') (quiet : w.Quiet v) : v.Twin R t t' w' :=
  ⟨quiet.bare.trans h.bare, h.bare',
    h.trees.of_bare (fun pair => quiet.node (h.trees.node pair)) quiet.bare rfl,
    h.declarations.trans quiet.declarations.symm, h.scope.trans quiet.scope.symm⟩

theorem Twin.quiet_right (h : w.Twin R t t' w') (quiet : w'.Quiet v') : w.Twin R t t' v' :=
  ⟨h.bare, quiet.bare.trans h.bare',
    h.trees.of_bare (fun pair => quiet.node' (h.trees.node pair)) rfl quiet.bare,
    quiet.declarations.trans h.declarations, quiet.scope.trans h.scope⟩

theorem twin_record (h : w.Twin R t t' w') (x : String) (d : Datatype) :
    Twin R t t' { w with state := w.state.record x d } { w' with state := w'.state.record x d } := by
  have scope : ∀ s s' : State, s'.config.declarations = s.config.declarations →
      s'.scope = s.scope → (s'.record x d).scope = (s.record x d).scope := by
    intro s s' declarations scope
    unfold State.record State.isDeclared State.merged
    rw [declarations, scope]
    split
    · exact scope
    · rfl
  refine h.of_state ?_ ?_ (scope _ _ h.declarations h.scope)
  · exact congrArg Config.declarations (w.state.grows_record x d).config
  · exact congrArg Config.declarations (w'.state.grows_record x d).config

section Sites

variable (within : ∀ i i', R i i' → Q i) {s s' : Site}
  (up : ∀ p, s.tree.parent? s.id = some p → t.parent? s.id = some p)
  (up' : ∀ p, s'.tree.parent? s'.id = some p → t'.parent? s'.id = some p)
include within up up'

/-- The same decision about types on both sides. -/
theorem twin_perform (h : w.Twin R t t' w') {e e' : Effect} (twin : e.Twin R s s' e') :
    (w.perform s.id e).Twin R t t' (w'.perform s'.id e') ∧ w.Spares Q (w.perform s.id e) := by
  cases twin with
  | record x d => exact ⟨twin_record h x d, .refl Q w⟩
  | @redirect p p' b hp hp' pair =>
    have parent : w.redirectParent s.id b
        = w.modifyNode p fun n => { n with redirect := some b } := by
      rw [redirectParent, Tree.parent?_of_bare h.bare, up _ hp]
    have parent' : w'.redirectParent s'.id b
        = w'.modifyNode p' fun n => { n with redirect := some b } := by
      rw [redirectParent, Tree.parent?_of_bare h.bare', up' _ hp']
    show (w.redirectParent s.id b).Twin R t t' (w'.redirectParent s'.id b)
      ∧ w.Spares Q (w.redirectParent s.id b)
    rw [parent, parent']
    refine ⟨h.modifyNode pair (fun _ => rfl) (fun _ => rfl) fun node => ?_,
      spares_modifyNode (within _ _ pair) _ w⟩
    exact { node with redirect := rfl }
  | @destination c c' d pair =>
    let typedAs : Node → Node := fun n => { n with suggest := some d, typing := .of d }
    have typed : (w.modifyNode c typedAs).Twin R t t' (w'.modifyNode c' typedAs) :=
      h.modifyNode pair (fun _ => rfl) (fun _ => rfl) fun node =>
        { node with suggest := rfl, typing := rfl }
    have spares : w.Spares Q (w.modifyNode c typedAs) :=
      spares_modifyNode (within _ _ pair) typedAs w
    have node := typed.trees.node pair
    show (w.typeDestination c d).Twin R t t' (w'.typeDestination c' d)
      ∧ w.Spares Q (w.typeDestination c d)
    unfold typeDestination
    dsimp only
    rw [node.category, node.name]
    split
    · exact ⟨twin_record typed _ d, spares⟩
    · exact ⟨typed, spares⟩

/-- The same decisions about types on both sides, with any other effects among them. -/
theorem twin_performAll : ∀ (es es' : List Effect) {w w' : Workspace}, w.Twin R t t' w' →
    Effect.Twins R s s' es es' →
    (es.foldl (perform s.id) w).Twin R t t' (es'.foldl (perform s'.id) w')
      ∧ w.Spares Q (es.foldl (perform s.id) w)
  | [], [], w, _, h, _ => ⟨h, .refl Q w⟩
  | [], e' :: es', w, w', h, twins => by
    have quiet : e'.types = false ∧ Effect.Twins R s s' [] es' := by
      unfold Effect.Twins at twins ⊢
      cases types : e'.types with
      | true =>
        rw [List.filter_cons_of_pos types] at twins
        cases twins
      | false =>
        rw [List.filter_cons_of_neg (by rw [types]; exact nofun)] at twins
        exact ⟨rfl, twins⟩
    exact twin_performAll [] es' (h.quiet_right (w'.quiet_perform s'.id quiet.1)) quiet.2
  | e :: es, es', w, w', h, twins => by
    cases types : e.types with
    | false =>
      have quiet := w.quiet_perform s.id types
      have rest : Effect.Twins R s s' es es' := by
        unfold Effect.Twins at twins ⊢
        rwa [List.filter_cons_of_neg (by rw [types]; exact nofun)] at twins
      have next := twin_performAll es es' (h.quiet_left quiet) rest
      exact ⟨next.1, Spares.trans (fun i _ => quiet.kept i) next.2⟩
    | true =>
      match es' with
      | [] =>
        unfold Effect.Twins at twins
        rw [List.filter_cons_of_pos types] at twins
        cases twins
      | e' :: es' =>
        cases types' : e'.types with
        | false =>
          have rest : Effect.Twins R s s' (e :: es) es' := by
            unfold Effect.Twins at twins ⊢
            rwa [List.filter_cons_of_neg (a := e') (by rw [types']; exact nofun)] at twins
          exact twin_performAll (e :: es) es' (h.quiet_right (w'.quiet_perform s'.id types')) rest
        | true =>
          unfold Effect.Twins at twins
          rw [List.filter_cons_of_pos types, List.filter_cons_of_pos types'] at twins
          obtain ⟨first, rest⟩ := List.forall₂_cons.mp twins
          have step := twin_perform within up up' h first
          have next := twin_performAll es es' step.1 rest
          exact ⟨next.1, step.2.trans next.2⟩
termination_by es es' => es.length + es'.length

end Sites

/-! ## One node -/

theorem twin_seed (h : w.Twin R t t' w') {id id' : NodeId} (pair : R id id') :
    (w.seed id).Twin R t t' (w'.seed id') := by
  refine h.modifyNode pair (fun _ => rfl) (fun _ => rfl) fun node => ?_
  refine { node with typing := ?_ }
  have types : (w'.tree.node id').children.map (fun c => (w'.tree.node c).typing)
      = (w.tree.node id).children.map fun c => (w.tree.node c).typing := by
    have children := node.children
    generalize (w.tree.node id).children = cs, (w'.tree.node id').children = cs' at children
    induction children with
    | nil => rfl
    | cons first _ ih => rw [List.map_cons, List.map_cons, (h.trees.node first).typing, ih]
  have same : ∀ (w : Workspace) (n : Node), seedTyping w.tree n
      = if n.category.isOperator then
          let typings := n.children.map fun c => (w.tree.node c).typing
          let d := Datatype.joinAll (typings.map (·.datatype))
          ⟨d, d.isNumeric && typings.all (·.numeric)⟩
        else .unknown := by
    intro w n
    unfold seedTyping
    dsimp only
    rw [List.map_map, List.map_map, List.all_map, List.all_map]
    rfl
  show seedTyping w'.tree (w'.tree.node id') = seedTyping w.tree (w.tree.node id)
  rw [same, same, node.category, types]

/-- The sites of paired nodes are twins. -/
theorem twin_site (h : w.Twin R t t' w') (wf : t.WellFormed) (wf' : t'.WellFormed)
    {id id' : NodeId} (pair : R id id') {texts texts' : List String}
    (lengths : texts.length = texts'.length) :
    (w.site id texts).Twin R (w'.site id' texts') := by
  refine ⟨pair, h.trees, wf.of_bare h.bare, wf'.of_bare h.bare', ?_, h.lookup⟩
  have children := h.trees.children pair
  show List.Forall₂ _ (((w.tree.children id).zip texts).map _)
    (((w'.tree.children id').zip texts').map _)
  generalize w.tree.children id = cs, w'.tree.children id' = cs' at children
  induction children generalizing texts texts' with
  | nil => exact .nil
  | cons first _ ih =>
    match texts, texts' with
    | [], [] => exact .nil
    | _ :: _, [] | [], _ :: _ => cases lengths
    | text :: texts, text' :: texts' =>
      exact .cons ⟨first, h.trees.node first⟩ (ih (Nat.succ.inj lengths))

theorem twin_commit (within : ∀ i i', R i i' → Q i) (h : w.Twin R t t' w') {id id' : NodeId} (pair : R id id')
    {texts texts' : List String} {o o' : Outcome} {s s' : Site} (here : s.id = id)
    (here' : s'.id = id') (bare : s.tree.bare = t.bare) (bare' : s'.tree.bare = t'.bare)
    (typing : o'.typing = o.typing) (effects : Effect.Twins R s s' o.effects o'.effects) :
    (w.commit id texts o).Twin R t t' (w'.commit id' texts' o')
      ∧ w.Spares Q (w.commit id texts o) := by
  subst here
  subst here'
  have performed := twin_performAll within
    (fun p hp => by rwa [Tree.parent?_of_bare bare] at hp)
    (fun p hp => by rwa [Tree.parent?_of_bare bare'] at hp) o.effects o'.effects h effects
  refine ⟨?_, performed.2.trans (spares_modifyNode (within _ _ pair) _ _)⟩
  exact performed.1.modifyNode pair (fun _ => rfl) (fun _ => rfl) fun node =>
    { node with typing := typing }

end Workspace

/-! ## The walk -/

namespace Resolving

open Workspace

/-- Both steps succeed, or both fail; the piece is typed alike by both, and the first
one spares the nodes without `Q`. -/
def Twin {α : Type} (R : NodeId → NodeId → Prop) (Q : NodeId → Prop) (t t' : Tree) (step step' : Resolving α) : Prop :=
  ∀ {w w' : Workspace}, w.Twin R t t' w' → (step' w').1.isOk = (step w).1.isOk
    ∧ (step w).2.Twin R t t' (step' w').2 ∧ w.Spares Q (step w).2

variable (within : ∀ i i', R i i' → Q i) {resolve resolve' : NodeId → Resolving String}

include within in
theorem twin_applyRule (wf : t.WellFormed) (wf' : t'.WellFormed) {id id' : NodeId}
    (pair : R id id') {found found' : List String} (lengths : found.length = found'.length) :
    Twin R Q t t' (applyRule id found) (applyRule id' found') := by
  intro w w' h
  have seeded := twin_seed h pair
  have spares : w.Spares Q (w.seed id) := spares_modifyNode (within _ _ pair) _ w
  have types := Rule.select_twin (twin_site seeded wf wf' pair lengths)
  unfold applyRule
  dsimp only
  generalize answer : Rule.select (w.seed id).tree ((w.seed id).tree.node id)
    ((w.seed id).site id found) = r
  generalize answer' : Rule.select (w'.seed id').tree ((w'.seed id').tree.node id')
    ((w'.seed id').site id' found') = r'
  rw [show Rule.select ((w.seed id).site id found).tree ((w.seed id).site id found).node
      ((w.seed id).site id found) = r from answer,
    show Rule.select ((w'.seed id').site id' found').tree ((w'.seed id').site id' found').node
      ((w'.seed id').site id' found') = r' from answer'] at types
  cases types with
  | fails _ => exact ⟨rfl, seeded, spares⟩
  | answers typing effects =>
    obtain ⟨after, spares'⟩ :=
      twin_commit within seeded pair rfl rfl seeded.bare seeded.bare' typing effects
    exact ⟨rfl, after, spares.trans spares'⟩

theorem twin_texts {ids ids' : List NodeId}
    (each : List.Forall₂ (fun i i' => Twin R Q t t' (resolve i) (resolve' i')) ids ids') :
    Twin R Q t t' (texts resolve ids) (texts resolve' ids') := by
  induction each with
  | nil => exact fun h => ⟨rfl, h, .refl Q _⟩
  | @cons i i' ids ids' first _ ih =>
    intro w w' h
    obtain ⟨ok, after, spares⟩ := first h
    unfold texts
    generalize resolve i w = result at ok after spares
    generalize resolve' i' w' = result' at ok after
    obtain ⟨answer, w₁⟩ := result
    obtain ⟨answer', w₁'⟩ := result'
    cases answer with
    | error e =>
      cases answer' with
      | error e' => exact ⟨rfl, after, spares⟩
      | ok text' => cases ok
    | ok text =>
      cases answer' with
      | error e' => cases ok
      | ok text' =>
        obtain ⟨ok, after, spares'⟩ := ih after
        dsimp only
        generalize texts resolve ids w₁ = results at ok after spares'
        generalize texts resolve' ids' w₁' = results' at ok after
        obtain ⟨answers, w₂⟩ := results
        obtain ⟨answers', w₂'⟩ := results'
        cases answers with
        | error e =>
          cases answers' with
          | error e' => exact ⟨rfl, after, spares.trans spares'⟩
          | ok found' => cases ok
        | ok found =>
          cases answers' with
          | error e' => cases ok
          | ok found' => exact ⟨rfl, after, spares.trans spares'⟩

include within in
theorem twin_node (wf : t.WellFormed) (wf' : t'.WellFormed) {id id' : NodeId} (pair : R id id')
    (each : List.Forall₂ (fun c c' => Twin R Q t t' (resolve c) (resolve' c')) (t.children id)
      (t'.children id')) :
    Twin R Q t t' (node resolve id) (node resolve' id') := by
  intro w w' h
  unfold node
  rw [Tree.children_of_bare h.bare, Tree.children_of_bare h.bare']
  obtain ⟨ok, after, spares⟩ := twin_texts each h
  cases results : texts resolve (t.children id) w with
  | mk answers w₁ =>
  cases results' : texts resolve' (t'.children id') w' with
  | mk answers' w₁' =>
  rw [results] at ok after spares
  rw [results'] at ok after
  cases answers with
  | error e =>
    cases answers' with
    | error e' => exact ⟨rfl, after, spares⟩
    | ok found' => cases ok
  | ok found =>
    cases answers' with
    | error e' => cases ok
    | ok found' =>
      have lengths : found.length = found'.length := by
        rw [length_of_texts results, length_of_texts results', each.length_eq]
      obtain ⟨ok, after, spares'⟩ := twin_applyRule within wf wf' pair lengths after
      exact ⟨ok, after, spares.trans spares'⟩

/-- A statement is resolved by both, and spares everything else. -/
theorem twin_statementLines {id id' : NodeId} (step : Twin R Q t t' (resolve id) (resolve' id'))
    {w w' : Workspace} (h : w.Twin R t t' w') :
    (statementLines resolve id w).2.Twin R t t' (statementLines resolve' id' w').2
      ∧ w.Spares Q (statementLines resolve id w).2 := by
  have opened : Workspace.Twin R t t' { w with state := w.state.withPending [] }
      { w' with state := w'.state.withPending [] } := h.of_state rfl rfl h.scope
  obtain ⟨ok, after, spares⟩ := step opened
  unfold statementLines
  dsimp only
  generalize resolve id { w with state := w.state.withPending [] } = result at ok after spares
  generalize resolve' id' { w' with state := w'.state.withPending [] } = result' at ok after
  obtain ⟨answer, w₁⟩ := result
  obtain ⟨answer', w₁'⟩ := result'
  cases answer with
  | error e =>
    cases answer' with
    | error e' => exact ⟨after.of_state rfl rfl after.scope, spares⟩
    | ok text' => cases ok
  | ok text =>
    cases answer' with
    | error e' => cases ok
    | ok text' => exact ⟨after.of_state rfl rfl after.scope, spares⟩

theorem twin_blockLines {ids ids' : List NodeId}
    (each : List.Forall₂ (fun i i' => Twin R Q t t' (resolve i) (resolve' i')) ids ids')
    {w w' : Workspace} (h : w.Twin R t t' w') :
    (blockLines resolve ids w).2.Twin R t t' (blockLines resolve' ids' w').2
      ∧ w.Spares Q (blockLines resolve ids w).2 := by
  induction each generalizing w w' with
  | nil => exact ⟨h, .refl Q w⟩
  | cons first _ ih =>
    have statement := twin_statementLines first h
    have rest := ih statement.1
    exact ⟨rest.1, statement.2.trans rest.2⟩

/-- From the node to the root of the tree it is so far that `depth` levels are enough below it. -/
def Enough (t : Tree) (depth : Nat) (id : NodeId) : Prop :=
  ∃ k root, t.parent? root = none ∧ root < t.size ∧ t.Climbs k id root ∧ t.size + 1 ≤ k + depth

theorem Enough.exists_succ {depth : Nat} {id : NodeId} (h : Enough t depth id) :
    ∃ d, depth = d + 1 := by
  obtain ⟨k, root, free, lt, climbs, le⟩ := h
  have short := climbs.length_lt free lt
  exact ⟨depth - 1, by omega⟩

theorem Enough.child (wf : t.WellFormed) {depth : Nat} {id c : NodeId}
    (h : Enough t (depth + 1) id) (mem : c ∈ t.children id) : Enough t depth c := by
  obtain ⟨k, root, free, lt, climbs, le⟩ := h
  exact ⟨k + 1, root, free, lt, .step (wf.parent?_of_mem mem) climbs, by omega⟩

/-- As many levels as there are nodes, and one more, are enough for each of them. -/
theorem enough_of_lt (wf : t.WellFormed) {id : NodeId} (lt : id < t.size) : Enough t (t.size + 1) id := by
  obtain ⟨root, free, inside, n, climbs⟩ := wf.exists_climbs lt
  exact ⟨n, root, free, inside, climbs, Nat.le_add_left _ n⟩

/-- What is in the root of a program is never too deep. -/
theorem enough_of_root (wf : t.WellFormed) {root c : NodeId} (top : t.root = some root)
    (mem : c ∈ t.children root) : Enough t (t.size + 1) c := by
  obtain ⟨root', top', last, -, free⟩ := wf.root
  obtain rfl := Option.some.inj (top'.symm.trans top)
  exact ⟨1, root', free.up, Nat.lt_of_succ_le (Nat.le_of_eq last),
    .step (wf.parent?_of_mem mem) .here, by omega⟩

/-- In a scope of its own a step depends on nothing that was inferred before. -/
theorem twin_inScope {step step' : Resolving String} (h : Twin R Q t t' step step') {w w' : Workspace}
    (opened : Workspace.Twin R t t' { w with state := w.state.pushScope }
      { w' with state := w'.state.pushScope }) :
    (inScope step' w').1.isOk = (inScope step w).1.isOk
      ∧ (inScope step w).2.tree.Twins R (inScope step' w').2.tree
      ∧ w.Spares Q (inScope step w).2 := by
  obtain ⟨ok, after, spares⟩ := h opened
  exact ⟨ok, after.trees, spares⟩

/-- Nothing of it is seen outside. -/
theorem twin_closed {step step' : Resolving String} (h : Twin R Q t t' step step') (adds : Adds step)
    (adds' : Adds step') : Twin R Q t t' (inScope step) (inScope step') := by
  intro w w' twin
  have opened : Workspace.Twin R t t' { w with state := w.state.pushScope }
      { w' with state := w'.state.pushScope } := twin.of_state rfl rfl rfl
  obtain ⟨ok, after, spares⟩ := h opened
  obtain ⟨grown, scope⟩ := extends_inScope adds w
  obtain ⟨grown', scope'⟩ := extends_inScope adds' w'
  refine ⟨ok, ⟨after.bare, after.bare', after.trees, ?_, ?_⟩, spares⟩
  · rw [grown.config, grown'.config]
    exact twin.declarations
  · rw [scope, scope']
    exact twin.scope

/-- What is asked of paired children is asked of children. -/
theorem forall₂_children {S : NodeId → NodeId → Prop} {ids ids' : List NodeId}
    (paired : List.Forall₂ R ids ids') (step : ∀ c c', c ∈ ids → c' ∈ ids' → R c c' → S c c') :
    List.Forall₂ S ids ids' := by
  have left := (List.forall₂_and_left _ _).mpr ⟨fun _ mem => mem, paired⟩
  have right := (List.forall₂_and_left _ _).mpr ⟨fun _ mem => mem, left.flip⟩
  exact right.flip.imp fun c c' h => step c c' h.2.1 h.1 h.2.2

include within in
/-- The same piece is typed alike by two translations. -/
theorem twin_resolveWithin (wf : t.WellFormed) (wf' : t'.WellFormed)
    (paired : ∀ {i i'}, R i i' → List.Forall₂ R (t.children i) (t'.children i')) (depth : Nat) :
    ∀ (depth' : Nat) {id id' : NodeId}, R id id' → Enough t depth id → Enough t' depth' id' →
      Twin R Q t t' (resolveWithin depth id) (resolveWithin depth' id') := by
  induction depth with
  | zero =>
    intro depth' id id' _ enough
    obtain ⟨d, eq⟩ := enough.exists_succ
    cases eq
  | succ depth ih =>
    intro depth' id id' pair enough enough'
    obtain ⟨depth', rfl⟩ := enough'.exists_succ
    have each : List.Forall₂ (fun c c' => Twin R Q t t' (resolveWithin depth c)
        (resolveWithin depth' c')) (t.children id) (t'.children id') :=
      forall₂_children (paired pair) fun c c' mem mem' pair =>
        ih depth' pair (enough.child wf mem) (enough'.child wf' mem')
    intro w w' h
    have kind : (w.tree.node id).category = t.category id :=
      congrFun (Tree.category_of_bare h.bare) id
    have kind' : (w'.tree.node id').category = t.category id :=
      (h.trees.node pair).category.trans kind
    unfold resolveWithin
    rw [kind, kind']
    cases category : t.category id with
    | function =>
      exact twin_closed (twin_node within wf wf' pair each) (adds_node (adds_resolveWithin depth) id)
        (adds_node (adds_resolveWithin depth') id') h
    | block =>
      unfold block
      rw [Tree.children_of_bare h.bare, Tree.children_of_bare h.bare']
      have lines := twin_blockLines each h
      exact ⟨rfl, lines.1, lines.2⟩
    | _ => exact twin_node within wf wf' pair each h

end Resolving

end MatrixScript
