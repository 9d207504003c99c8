/-
# `Proofs.Translation.Same` — the same piece of program is translated in the same way

Two translations come to a piece of program that stands where it stands in both trees
(`Tree.Embeds`), with the same texts in it and with the same state (`Workspace.Same`).
Each step keeps that up: a rule sees no further than the piece (`Rule.select_same`), and
its effects are about nodes of the piece.  So resolving a node of the piece gives the
same result and the same state in both (`same_resolveWithin`), and so do the lines of its
statements.

Compared with `Workspace.Twin` the texts and everything that is remembered are the same
too, and not only the types.
-/
import MatrixScript.Proofs.Rule.Same
import MatrixScript.Proofs.Translation.Twin

namespace MatrixScript

variable {R : NodeId → NodeId → Prop} {t t' : Tree} {id : NodeId}

/-- Of the node a template reads what does not depend on where it stands. -/
theorem Node.Moved.render_eq {n m : Node} (h : n.Moved m) (typing : Typing) (texts : List String)
    (template : Template) :
    template.render { m with typing } texts = template.render { n with typing } texts := by
  unfold Node.Moved at h
  rw [h]
  cases template with
  | fixed | join | format => rfl

namespace Workspace

variable {w w' v v' : Workspace}

/-- The same state, and the same texts in the piece. -/
structure Echo (R : NodeId → NodeId → Prop) (w w' : Workspace) : Prop where
  rendered : ∀ {i}, R i i → (w'.tree.node i).rendered = (w.tree.node i).rendered
  state : w'.state = w.state

/-- Two translations of programs that hold the same piece, in which the same is inferred,
with the same things remembered. -/
structure Same (R : NodeId → NodeId → Prop) (t t' : Tree) (w w' : Workspace) : Prop
    extends w.Twin R t t' w', Echo R w w'

theorem Same.of_state (h : w.Same R t t' w') {f : State → State}
    (config : (f w.state).config = w.state.config) :
    Same R t t' { w with state := f w.state } { w' with state := f w'.state } := by
  have state : f w'.state = f w.state := congrArg f h.state
  refine ⟨h.toTwin.of_state ?_ ?_ ?_, h.rendered, state⟩
  · exact congrArg Config.declarations config
  · rw [h.state]
    exact congrArg Config.declarations config
  · exact congrArg State.scope state

/-! ## Changing a node -/

theorem rendered_modifyNode {i : NodeId} {f : Node → Node}
    (kept : ∀ n : Node, (f n).rendered = n.rendered) (w : Workspace) (j : NodeId) :
    ((w.modifyNode i f).tree.node j).rendered = (w.tree.node j).rendered :=
  Tree.field_modify Node.rendered kept w.tree i j

/-- A node is changed, but for its text. -/
theorem Echo.modifyNode (h : w.Echo R w') {i i' : NodeId} {f f' : Node → Node}
    (kept : ∀ n : Node, (f n).rendered = n.rendered)
    (kept' : ∀ n : Node, (f' n).rendered = n.rendered) :
    (w.modifyNode i f).Echo R (w'.modifyNode i' f') := by
  refine ⟨fun {j} here => ?_, h.state⟩
  rw [rendered_modifyNode kept, rendered_modifyNode kept', h.rendered here]

/-- A node is given a text. -/
theorem Echo.render (h : w.Echo R w') (sizes : ∀ {i}, R i i → i < w.tree.size ∧ i < w'.tree.size)
    {i : NodeId} {f : Node → Node} (written : ∀ n m : Node, (f n).rendered = (f m).rendered) :
    (w.modifyNode i f).Echo R (w'.modifyNode i f) := by
  refine ⟨fun {j} here => ?_, h.state⟩
  obtain ⟨lt, lt'⟩ := sizes here
  show ((w'.tree.modify i f).node j).rendered = ((w.tree.modify i f).node j).rendered
  rw [Tree.node_modify, Tree.node_modify]
  by_cases eq : j = i
  · rw [if_pos ⟨eq, lt'⟩, if_pos ⟨eq, lt⟩]
    exact written ..
  · rw [if_neg fun both => eq both.1, if_neg fun both => eq both.1]
    exact h.rendered here

/-! ## The piece -/

theorem sizes_of_piece (piece : t.Embeds R t') (same : w.tree.bare = t.bare)
    (same' : w'.tree.bare = t'.bare) {i : NodeId} (here : R i i) :
    i < w.tree.size ∧ i < w'.tree.size := by
  obtain ⟨p, p', up, up', -⟩ := piece.around here
  rw [Tree.size_of_bare same, Tree.size_of_bare same']
  exact ⟨Tree.lt_size_of_parent? up, Tree.lt_size_of_parent? up'⟩

theorem category_of_piece (piece : t.Embeds R t') (same : w.tree.bare = t.bare)
    (same' : w'.tree.bare = t'.bare) {i : NodeId} (here : R i i) :
    (w'.tree.node i).category = (w.tree.node i).category :=
  (congrFun (Tree.category_of_bare same') i).trans
    ((piece.node here).category.trans (congrFun (Tree.category_of_bare same) i).symm)

theorem name_of_piece (piece : t.Embeds R t') (same : w.tree.bare = t.bare)
    (same' : w'.tree.bare = t'.bare) {i : NodeId} (here : R i i) :
    (w'.tree.node i).name = (w.tree.node i).name := by
  rw [Tree.name_of_bare same', Tree.name_of_bare same, (piece.node here).name]

/-- What the rule of a node of the piece reaches is in the piece. -/
theorem of_reaches (piece : t.Embeds R t') (here : R id id) {i : NodeId}
    (reached : t.Reaches id i) : R i i := by
  rcases reached with rfl | child | ⟨c, child, grandchild⟩
  · exact here
  · exact piece.child here child
  · exact piece.child (piece.child here child) grandchild

/-- What is filled in does not change where the piece stands. -/
theorem Same.embeds (h : w.Same R t t' w') (piece : t.Embeds R t') :
    w.tree.Embeds R w'.tree := by
  refine ⟨h.trees, piece.own, h.rendered, fun {i} here => ?_⟩
  rw [Tree.parent?_of_bare h.bare, Tree.parent?_of_bare h.bare', Tree.root_of_bare h.bare,
    Tree.root_of_bare h.bare']
  exact piece.above here

/-! ## Effects -/

/-- A lawful effect at a node of the piece is the same in both translations. -/
theorem Echo.perform (h : w.Echo R w') (piece : t.Embeds R t') (same : w.tree.bare = t.bare)
    (same' : w'.tree.bare = t'.bare) (here : R id id) {e : Effect} (lawful : e.Lawful t id) :
    (w.perform id e).Echo R (w'.perform id e) := by
  cases e with
  | report node problem message =>
    have reached := of_reaches piece here lawful
    have diagnostic : Diagnostic.ofNode w'.tree node problem message
        = Diagnostic.ofNode w.tree node problem message := by
      simp only [Diagnostic.ofNode, Node.label, category_of_piece piece same same' reached,
        name_of_piece piece same same' reached]
    refine ⟨h.rendered, ?_⟩
    show w'.state.report w'.tree node problem message = w.state.report w.tree node problem message
    rw [State.report, State.report, h.state, diagnostic]
  | use i => exact ⟨h.rendered, congrArg (State.addInclude · i) h.state⟩
  | record x d => exact ⟨h.rendered, congrArg (State.record · x d) h.state⟩
  | tic => exact ⟨h.rendered, congrArg (fun s : State => { s with clock := s.clock.tic }) h.state⟩
  | toc => exact ⟨h.rendered, congrArg (fun s : State => { s with clock := s.clock.toc }) h.state⟩
  | destination child d =>
    let typedAs : Node → Node := fun n => { n with suggest := some d, typing := .of d }
    have typed : (w.modifyNode child typedAs).Echo R (w'.modifyNode child typedAs) :=
      h.modifyNode (fun _ => rfl) fun _ => rfl
    have taken := piece.child here (Tree.Takes.mem lawful)
    have kept : ∀ n : Node, (typedAs n).bare = n.bare := fun _ => rfl
    have bare := (w.bare_modifyNode child kept).trans same
    have bare' := (w'.bare_modifyNode child kept).trans same'
    show (w.typeDestination child d).Echo R (w'.typeDestination child d)
    unfold typeDestination
    dsimp only
    rw [category_of_piece piece bare bare' taken, name_of_piece piece bare bare' taken]
    split
    · exact ⟨typed.rendered, congrArg (State.record · _ d) typed.state⟩
    · exact typed
  | redirect b =>
    have kept : ∀ (v : Workspace) (j : NodeId),
        ((v.redirectParent id b).tree.node j).rendered = (v.tree.node j).rendered := by
      intro v j
      unfold redirectParent
      split
      · refine rendered_modifyNode ?_ v j
        exact fun _ => rfl
      · rfl
    have state : ∀ v : Workspace, (v.redirectParent id b).state = v.state := by
      intro v
      unfold redirectParent
      split
      · rfl
      · rfl
    refine ⟨fun {j} here => ?_, ?_⟩
    · exact (kept w' j).trans ((h.rendered here).trans (kept w j).symm)
    · exact (state w').trans (h.state.trans (state w).symm)
  | hoist node text d =>
    show (w.hoist node text d).Echo R (w'.hoist node text d)
    unfold hoist
    rw [h.state]
    have hoisted : Echo R { w with state := w.state.hoist node text d }
        { w' with state := w.state.hoist node text d } := ⟨h.rendered, rfl⟩
    refine hoisted.render (fun here => sizes_of_piece piece same same' here) ?_
    exact fun _ _ => rfl

theorem Echo.performAll (piece : t.Embeds R t') (here : R id id) :
    ∀ {es : List Effect} {w w' : Workspace}, w.Echo R w' → w.tree.bare = t.bare →
      w'.tree.bare = t'.bare → (∀ e ∈ es, e.Lawful t id) →
      (es.foldl (Workspace.perform id) w).Echo R (es.foldl (Workspace.perform id) w')
  | [], _, _, h, _, _, _ => h
  | e :: es, w, w', h, same, same', lawful => by
    obtain ⟨first, rest⟩ := List.forall_mem_cons.mp lawful
    have later := performAll piece here (perform h piece same same' here first)
      ((w.bare_perform id e).trans same) ((w'.bare_perform id e).trans same') rest
    exact later

/-! ## One node -/

theorem Same.seed (h : w.Same R t t' w') (here : R id id) : (w.seed id).Same R t t' (w'.seed id) :=
  ⟨twin_seed h.toTwin here, h.toEcho.modifyNode (fun _ => rfl) fun _ => rfl⟩

/-- The sites of a node of the piece are the same. -/
theorem Same.site (h : w.Same R t t' w') (piece : t.Embeds R t') (wf : t.WellFormed)
    (wf' : t'.WellFormed) (here : R id id) (texts : List String) :
    (w.site id texts).Same R (w'.site id texts) := by
  have embeds := h.embeds piece
  have listed : (w'.site id texts).operands = (w.site id texts).operands := by
    have children : w'.tree.children id = w.tree.children id := embeds.children_eq here
    show ((w'.tree.children id).zip texts).map _ = ((w.tree.children id).zip texts).map _
    rw [children]
    refine List.map_congr_left fun both mem => ?_
    obtain ⟨c, text⟩ := both
    have node : w'.tree.node c = w.tree.node c :=
      embeds.node_child (wf.of_bare h.bare) (wf'.of_bare h.bare') here (List.of_mem_zip mem).1
    dsimp only
    rw [node]
  exact ⟨twin_site h.toTwin wf wf' here rfl, embeds, h.state, listed⟩

/-- An outcome is committed by both. -/
theorem Same.commit (h : w.Same R t t' w') (piece : t.Embeds R t') (here : R id id)
    {texts : List String} {o : Outcome} {s s' : Site} (site : s.id = id) (site' : s'.id = id)
    (bare : s.tree.bare = t.bare) (bare' : s'.tree.bare = t'.bare)
    (effects : Effect.Twins R s s' o.effects o.effects) (lawful : ∀ e ∈ o.effects, e.Lawful t id) :
    w'.textOf id texts o = w.textOf id texts o
      ∧ (w.commit id texts o).Same R t t' (w'.commit id texts o) := by
  have twin : (w.commit id texts o).Twin R t t' (w'.commit id texts o) :=
    (twin_commit (Q := fun _ => True) (fun _ _ _ => trivial) h.toTwin here site site' bare bare' rfl
      effects).1
  have text : w'.textOf id texts o = w.textOf id texts o :=
    ((h.embeds piece).moved here).render_eq o.typing texts o.template
  have performed := Echo.performAll piece here h.toEcho h.bare h.bare' lawful
  refine ⟨text, twin, ?_⟩
  unfold Workspace.commit
  rw [text]
  refine performed.render (fun here => ?_) ?_
  · exact sizes_of_piece piece ((w.bare_performAll id _).trans h.bare)
      ((w'.bare_performAll id _).trans h.bare') here
  · exact fun _ _ => rfl

end Workspace

/-! ## The walk -/

namespace Resolving

open Workspace

/-- Both steps give the same result, and leave the same state and the same texts. -/
def Same {α : Type} (R : NodeId → NodeId → Prop) (t t' : Tree) (step step' : Resolving α) : Prop :=
  ∀ {w w' : Workspace}, w.Same R t t' w' → w.tree.Lawful →
    (step' w').1 = (step w).1 ∧ (step w).2.Same R t t' (step' w').2

variable {resolve resolve' : NodeId → Resolving String}

section

variable (piece : t.Embeds R t') (wf : t.WellFormed) (wf' : t'.WellFormed)
include piece wf wf'

theorem same_applyRule (here : R id id) (block : t.category id ≠ .block) {found : List String}
    (lengths : found.length = (t.children id).length)
    (spells : t.category id ≠ .function → t.Spells (t.children id) found) :
    Same R t t' (applyRule id found) (applyRule id found) := by
  intro w w' h lawful
  have seeded := h.seed here
  have lt : id < t.size := by
    obtain ⟨p, -, up, -⟩ := piece.around here
    exact Tree.lt_size_of_parent? up
  have lawful' : (w.seed id).tree.Lawful := (leads_seed (P := fun _ => True) w id).lawful lawful
  have site := seeded.site piece wf wf' here found
  have answer : (w'.seed id).answer id found = (w.seed id).answer id found := Rule.select_same site
  have types : SameTypes R _ _ _ ((w.seed id).answer id found) ((w'.seed id).answer id found) :=
    Rule.select_twin site.toTwin
  rw [applyRule_eq, applyRule_eq, answer]
  rw [answer] at types
  cases result : (w.seed id).answer id found with
  | error e => exact ⟨rfl, seeded⟩
  | ok o =>
    rw [result] at types
    cases types with
    | answers _ effects =>
      have asks := lawful_answer wf seeded.bare lawful' lt block lengths spells result
      have committed : (w'.seed id).textOf id found o = (w.seed id).textOf id found o
          ∧ ((w.seed id).commit id found o).Same R t t' ((w'.seed id).commit id found o) :=
        seeded.commit piece here rfl rfl seeded.bare seeded.bare' effects asks
      exact ⟨congrArg Except.ok committed.1, committed.2⟩

omit piece wf wf' in
theorem same_texts {ids : List NodeId} (each : ∀ c ∈ ids, Same R t t' (resolve c) (resolve' c))
    (steady : ∀ c ∈ ids, Steady t c (resolve c)) :
    Same R t t' (texts resolve ids) (texts resolve' ids) := by
  induction ids with
  | nil => exact fun h _ => ⟨rfl, h⟩
  | cons c ids ih =>
    obtain ⟨here, there⟩ := List.forall_mem_cons.mp each
    obtain ⟨quiet, quiets⟩ := List.forall_mem_cons.mp steady
    intro w w' h lawful
    have first := here h lawful
    have lawful' := (quiet.leads w h.bare lawful).lawful lawful
    unfold texts
    generalize resolve c w = result at first lawful'
    generalize resolve' c w' = result' at first
    obtain ⟨answer, w₁⟩ := result
    obtain ⟨answer', w₁'⟩ := result'
    dsimp only at first lawful'
    obtain ⟨rfl, after⟩ := first
    cases answer' with
    | error e => exact ⟨rfl, after⟩
    | ok text =>
      have rest := ih there quiets after lawful'
      dsimp only
      generalize texts resolve ids w₁ = results at rest
      generalize texts resolve' ids w₁' = results' at rest
      obtain ⟨answers, w₂⟩ := results
      obtain ⟨answers', w₂'⟩ := results'
      dsimp only at rest
      obtain ⟨rfl, after⟩ := rest
      cases answers' with
      | error e => exact ⟨rfl, after⟩
      | ok found => exact ⟨rfl, after⟩

theorem same_node (here : R id id) (block : t.category id ≠ .block)
    (each : ∀ c ∈ t.children id, Same R t t' (resolve c) (resolve' c))
    (steady : ∀ c ∈ t.children id, Steady t c (resolve c)) :
    Same R t t' (node resolve id) (node resolve' id) := by
  intro w w' h lawful
  have children : t'.children id = t.children id := piece.children_eq here
  have first := same_texts each steady h lawful
  have quiet := steady_texts steady h.bare lawful
  unfold node
  rw [Tree.children_of_bare h.bare, Tree.children_of_bare h.bare', children]
  cases results : texts resolve (t.children id) w with
  | mk answers w₁ =>
  cases results' : texts resolve' (t.children id) w' with
  | mk answers' w₁' =>
  rw [results, results'] at first
  rw [results] at quiet
  dsimp only at first quiet
  obtain ⟨rfl, after⟩ := first
  cases answers' with
  | error e => exact ⟨rfl, after⟩
  | ok found =>
    exact same_applyRule piece wf wf' here block (length_of_texts results)
      (fun _ => quiet.2 found rfl) after (quiet.1.lawful lawful)

/-! ### Statements -/

omit wf wf' in
/-- A statement contributes the same lines. -/
theorem same_statementLines (here : R id id) (step : Same R t t' (resolve id) (resolve' id))
    {w w' : Workspace} (h : w.Same R t t' w') (lawful : w.tree.Lawful) :
    (statementLines resolve' id w').1 = (statementLines resolve id w).1
      ∧ (statementLines resolve id w).2.Same R t t' (statementLines resolve' id w').2 := by
  have opened : Workspace.Same R t t' { w with state := w.state.withPending [] }
      { w' with state := w'.state.withPending [] } := h.of_state (f := (·.withPending [])) rfl
  have resolved := step opened lawful
  unfold statementLines
  dsimp only
  rw [h.state]
  rw [h.state] at resolved
  generalize resolve id { w with state := w.state.withPending [] } = result at resolved
  generalize resolve' id { w' with state := w.state.withPending [] } = result' at resolved
  obtain ⟨answer, after⟩ := result
  obtain ⟨answer', after'⟩ := result'
  dsimp only at resolved
  obtain ⟨rfl, same⟩ := resolved
  have closed : Workspace.Same R t t' { after with state := after.state.withPending w.state.pending }
      { after' with state := after'.state.withPending w.state.pending } :=
    same.of_state (f := (·.withPending w.state.pending)) rfl
  cases answer' with
  | ok text =>
    refine ⟨?_, closed⟩
    dsimp only
    rw [same.state]
  | error e =>
    have reported := closed.toEcho.perform piece closed.bare closed.bare' here
      (e := .report id e.problem e.message) (.inl rfl)
    exact ⟨rfl, ⟨closed.toTwin.of_state rfl rfl (congrArg State.scope reported.state), reported⟩⟩

omit wf wf' in
theorem same_blockLines {ids : List NodeId} (inside : ∀ c ∈ ids, R c c)
    (each : ∀ c ∈ ids, Same R t t' (resolve c) (resolve' c))
    (steady : ∀ c ∈ ids, Steady t c (resolve c)) {w w' : Workspace} (h : w.Same R t t' w')
    (lawful : w.tree.Lawful) :
    (blockLines resolve' ids w').1 = (blockLines resolve ids w).1
      ∧ (blockLines resolve ids w).2.Same R t t' (blockLines resolve' ids w').2 := by
  induction ids generalizing w w' with
  | nil => exact ⟨rfl, h⟩
  | cons c ids ih =>
    obtain ⟨here, there⟩ := List.forall_mem_cons.mp each
    obtain ⟨quiet, quiets⟩ := List.forall_mem_cons.mp steady
    obtain ⟨first, rest⟩ := List.forall_mem_cons.mp inside
    obtain ⟨lines, after⟩ := same_statementLines piece first here h lawful
    obtain ⟨more, last⟩ :=
      ih rest there quiets after ((leads_statementLines quiet h.bare lawful).lawful lawful)
    rw [blockLines_cons, blockLines_cons, lines, more]
    exact ⟨rfl, last⟩

/-! ### Nodes -/

omit piece wf wf' in
/-- A scope of its own is opened and closed by both. -/
theorem same_inScope {step step' : Resolving String} (h : Same R t t' step step') :
    Same R t t' (inScope step) (inScope step') := by
  intro w w' twin lawful
  obtain ⟨result, after⟩ := h (twin.of_state (f := State.pushScope) rfl) lawful
  refine ⟨result, after.of_state (f := State.popScope) ?_⟩
  unfold State.popScope
  split
  · rfl
  · rfl

/-- A node of the piece is resolved in the same way in both trees. -/
theorem same_resolveWithin (depth : Nat) : ∀ (depth' : Nat) {id : NodeId}, R id id →
    Enough t depth id → Enough t' depth' id →
      Same R t t' (resolveWithin depth id) (resolveWithin depth' id) := by
  induction depth with
  | zero =>
    intro depth' id _ enough
    obtain ⟨d, eq⟩ := enough.exists_succ
    cases eq
  | succ depth ih =>
    intro depth' id here enough enough'
    obtain ⟨depth', rfl⟩ := enough'.exists_succ
    have children : t'.children id = t.children id := piece.children_eq here
    have inside : ∀ c ∈ t.children id, R c c := fun c mem => piece.child here mem
    have each : ∀ c ∈ t.children id,
        Same R t t' (resolveWithin depth c) (resolveWithin depth' c) := fun c mem =>
      ih depth' (inside c mem) (enough.child wf mem) (enough'.child wf' (children ▸ mem))
    have steady : ∀ c ∈ t.children id, Steady t c (resolveWithin depth c) := fun c mem =>
      steady_resolveWithin wf depth (wf.bound id c mem)
    intro w w' h lawful
    have kind : (w.tree.node id).category = t.category id :=
      congrFun (Tree.category_of_bare h.bare) id
    have kind' : (w'.tree.node id).category = t.category id :=
      (h.trees.node here).category.trans kind
    unfold resolveWithin
    rw [kind, kind']
    cases category : t.category id with
    | function =>
      have step : Same R t t' (node (resolveWithin depth) id) (node (resolveWithin depth') id) :=
        same_node piece wf wf' here (by rw [category]; rintro ⟨⟩) each steady
      exact same_inScope step h lawful
    | block =>
      unfold block
      rw [Tree.children_of_bare h.bare, Tree.children_of_bare h.bare', children]
      obtain ⟨lines, after⟩ := same_blockLines piece inside each steady h lawful
      exact ⟨congrArg (fun lines => Except.ok (Text.joined "\n" lines)) lines, after⟩
    | _ =>
      exact same_node piece wf wf' here (by rw [category]; rintro ⟨⟩) each steady h lawful

end

end Resolving

end MatrixScript
