/-
# `Proofs.Translation.Lockstep` — two translations of one program

The main lemma about pairs of translations.  Two workspaces hold the same program,
and what they remember is related by some `Simulation`; slots that were filled in
before may differ.  Then resolving the same node in both gives texts that are alike,
the same errors, and workspaces that are related again (`locked_resolveWithin`), and
wherever the two are in step they stay so.

A slot that is left over is read in one place only: an assignment looks whether it
is redirected.  So the second translation may start with redirections, but only with
those that the first one will have made in the end (`Locks.upper`), and what the
first one has made by the time that the assignment is reached is all that it makes
there (`Settled`), since nothing outside reaches below a node.
-/
import MatrixScript.Proofs.Translation.Leads

namespace MatrixScript

/-- How what is remembered in two translations goes together, up to the point where the
first one remembers `last`. -/
structure Simulation (L : Likeness) (quieter : Prop) (last : State) where
  rel : State → State → Prop
  /-- names of variables that values are assigned to -/
  assigns : String → Prop
  lookup {s s' : State} : rel s s' → ∀ x, s'.lookup x = s.lookup x
  clock {s s' : State} : rel s s' → s'.clock.started = s.clock.started
    ∨ (quieter ∧ s.clock.started = false)
  pending {s s' : State} : rel s s' → List.Forall₂ L.line s.pending s'.pending
  report {s s' : State} {t t' : Tree} {i : NodeId} {p : Problem} {m : String} : rel s s' →
    t'.bare = t.bare → (s.report t i p m).Grows last → rel (s.report t i p m) (s'.report t' i p m)
  silent {s s' : State} {t : Tree} {i : NodeId} {p : Problem} {m : String} : quieter → rel s s' →
    (s.report t i p m).Grows last → rel (s.report t i p m) s'
  addInclude {s s' : State} {i : Include} : rel s s' → (s.addInclude i).Grows last →
    rel (s.addInclude i) (s'.addInclude i)
  record {s s' : State} {x : String} {d : Datatype} : assigns x → rel s s' →
    rel (s.record x d) (s'.record x d)
  hoist {s s' : State} {i : NodeId} {a a' : String} {d : Datatype} : rel s s' →
    (s.hoist i a d).Grows last → L.Shows a a' →
    L.Shows (s.temporaryName i d) (s'.temporaryName i d) ∧ rel (s.hoist i a d) (s'.hoist i a' d)
  tic {s s' : State} : rel s s' → State.Grows { s with clock := s.clock.tic } last →
    rel { s with clock := s.clock.tic } { s' with clock := s'.clock.tic }
  toc {s s' : State} : rel s s' → State.Grows { s with clock := s.clock.toc } last →
    rel { s with clock := s.clock.toc } { s' with clock := s'.clock.toc }
  opened {s s' : State} : rel s s' → rel (s.withPending []) (s'.withPending [])
  closed {s s' r r' : State} : rel s s' → s.Grows r → s'.Grows r' → rel r r' →
    rel (r.withPending s.pending) (r'.withPending s'.pending)
  pushScope {s s' : State} : rel s s' → rel s.pushScope s'.pushScope
  popScope {s s' : State} : rel s s' → rel s.popScope s'.popScope

/-- Both fail alike, or both give results that `R` relates. -/
inductive Together {α : Type} (L : Likeness) (R : α → α → Prop) :
    Except Error α → Except Error α → Prop
  | fail {e : Error} : L.Shows e.message e.message → Together L R (.error e) (.error e)
  | give {a a' : α} : R a a' → Together L R (.ok a) (.ok a')

theorem Together.map {α β : Type} {L : Likeness} {R : α → α → Prop} {S : β → β → Prop}
    {r r' : Except Error α} (h : Together L R r r') {f f' : α → β}
    (step : ∀ a a', R a a' → S (f a) (f' a')) : Together L S (r.map f) (r'.map f') := by
  cases h with
  | fail shows => exact .fail shows
  | give both => exact .give (step _ _ both)

/-- A node in two translations: every slot of the second one holds what is put there in
both, or what it held before. -/
structure Node.Refills (L : Likeness) (old n n' : Node) : Prop where
  typing : n'.typing = n.typing ∨ n'.typing = old.typing
  suggest : n'.suggest = n.suggest ∨ n'.suggest = old.suggest
  redirect : n'.redirect = n.redirect ∨ n'.redirect = old.redirect
  rendered : (∃ a a', n.rendered = some a ∧ n'.rendered = some a' ∧ (L.Shows a a' ∨ L.prints a a'))
    ∨ n'.rendered = old.rendered

namespace Workspace

/-- The first translation can still end in `last`. -/
structure Within (last w : Workspace) : Prop where
  state : w.state.Grows last.state
  redirects : ∀ i, (w.tree.node i).redirect.isSome → (last.tree.node i).redirect.isSome

theorem Within.of_leads {P : NodeId → Prop} {last w w' : Workspace} (h : last.Within w')
    (leads : w.Leads P w') : last.Within w :=
  ⟨leads.grows.trans h.state, fun i some => h.redirects i (leads.redirects i some)⟩

/-- Below a node, all that is redirected in the end is redirected now. -/
def Settled (t : Tree) (last w : Workspace) (id : NodeId) : Prop :=
  ∀ i, t.Below id i → (last.tree.node i).redirect.isSome → (w.tree.node i).redirect.isSome

/-- Two workspaces under translation, of which the first ends as `last`, and the second
had the slots of `start` at its start. -/
structure Locks {L : Likeness} {quieter : Prop} (start : Tree) (last : Workspace)
    (sim : Simulation L quieter last.state) (t : Tree) (w v : Workspace) : Prop where
  bare : w.tree.bare = t.bare
  bare' : v.tree.bare = t.bare
  lawful : w.tree.Lawful
  lawful' : v.tree.Lawful
  /-- what is redirected in the first is redirected in the second -/
  lower : ∀ i, (w.tree.node i).redirect.isSome → (v.tree.node i).redirect.isSome
  /-- what is redirected in the second is redirected in the end -/
  upper : ∀ i, (v.tree.node i).redirect.isSome → (last.tree.node i).redirect.isSome
  slots : ∀ i, Node.Refills L (start.node i) (w.tree.node i) (v.tree.node i)
  state : sim.rel w.state v.state

/-- Two workspaces after a step: still locked, and in step wherever they were. -/
structure Preserves {L : Likeness} {quieter : Prop} (start : Tree) (last : Workspace)
    (sim : Simulation L quieter last.state) (t : Tree) (w v w' v' : Workspace) : Prop where
  locks : Locks start last sim t w' v'
  inStep : ∀ i, (t.category i).isInline → w.tree.InStep L v.tree i → w'.tree.InStep L v'.tree i

section

variable {L : Likeness} {quieter : Prop} {start : Tree} {last : Workspace}
  {sim : Simulation L quieter last.state} {t : Tree} {w v w' v' w'' v'' : Workspace}

theorem Locks.same (h : Locks start last sim t w v) : v.tree.bare = w.tree.bare :=
  h.bare'.trans h.bare.symm

theorem Preserves.refl (h : Locks start last sim t w v) : Preserves start last sim t w v w v := ⟨h, fun _ _ => id⟩

theorem Preserves.trans (h : Preserves start last sim t w v w' v') (k : Preserves start last sim t w' v' w'' v'') :
    Preserves start last sim t w v w'' v'' :=
  ⟨k.locks, fun i inline => k.inStep i inline ∘ h.inStep i inline⟩

/-- Only what is remembered changes. -/
theorem Preserves.of_state (h : Locks start last sim t w v) {s s' : State} (rel : sim.rel s s') :
    Preserves start last sim t w v { w with state := s } { v with state := s' } :=
  ⟨{ h with state := rel }, fun _ _ => id⟩

/-- One node is changed in both. -/
theorem Preserves.modifyNode (h : Locks start last sim t w v) {i : NodeId} {f f' : Node → Node}
    (leads : w.Leads (fun _ => True) (w.modifyNode i f))
    (leads' : v.Leads (fun _ => True) (v.modifyNode i f'))
    (redirect : ∀ n, (f n).redirect = n.redirect) (redirect' : ∀ n, (f' n).redirect = n.redirect)
    (slots : ∀ {old}, Node.Refills L old (w.tree.node i) (v.tree.node i) →
      Node.Refills L old (f (w.tree.node i)) (f' (v.tree.node i)))
    (inStep : (t.category i).isInline → w.tree.InStep L v.tree i →
      (f' (v.tree.node i)).typing = (f (w.tree.node i)).typing
        ∧ L.Shows (f (w.tree.node i)).text (f' (v.tree.node i)).text) :
    Preserves start last sim t w v (w.modifyNode i f) (v.modifyNode i f') := by
  have size : v.tree.size = w.tree.size := Tree.size_of_bare h.same
  have kept : ∀ (u : Workspace) (g : Node → Node), (∀ n, (g n).redirect = n.redirect) → ∀ j,
      ((u.modifyNode i g).tree.node j).redirect = (u.tree.node j).redirect := by
    intro u g same j
    rw [Workspace.modifyNode, Tree.node_modify]
    split
    · exact same _
    · rfl
  have node : ∀ (u : Workspace) (g : Node → Node), u.tree.size = w.tree.size → ∀ j,
      (u.modifyNode i g).tree.node j
        = if j = i ∧ j < w.tree.size then g (u.tree.node j) else u.tree.node j := by
    intro u g eq j
    rw [Workspace.modifyNode, Tree.node_modify, eq]
  refine ⟨⟨leads.bare.trans h.bare, leads'.bare.trans h.bare', leads.lawful h.lawful,
    leads'.lawful h.lawful', fun j some => ?_, fun j some => ?_, fun j => ?_, h.state⟩,
    fun j inline here => ?_⟩
  · rw [kept w f redirect] at some
    rw [kept v f' redirect']
    exact h.lower j some
  · rw [kept v f' redirect'] at some
    exact h.upper j some
  · rw [node w f rfl, node v f' size]
    split
    case isTrue there =>
      obtain ⟨rfl, -⟩ := there
      exact slots (h.slots j)
    case isFalse => exact h.slots j
  · by_cases there : j = i ∧ j < w.tree.size
    · obtain ⟨rfl, lt⟩ := there
      obtain ⟨typing, text⟩ := inStep inline here
      refine ⟨?_, ?_⟩
      · rw [node w f rfl, node v f' size, if_pos ⟨rfl, lt⟩, if_pos ⟨rfl, lt⟩, typing]
      · rw [node w f rfl, node v f' size, if_pos ⟨rfl, lt⟩, if_pos ⟨rfl, lt⟩]
        exact text
    · refine ⟨?_, ?_⟩
      · rw [node w f rfl, node v f' size, if_neg there, if_neg there]
        exact here.typing
      · rw [node w f rfl, node v f' size, if_neg there, if_neg there]
        exact here.text

/-! ## Effects -/

variable (wf : t.WellFormed) {id : NodeId}
include wf

/-- An assignment is redirected in both. -/
theorem Preserves.redirectParent (h : Locks start last sim t w v) {p : NodeId} (up : t.parent? id = some p)
    (assign : t.category p = .assign)
    (var : (t.children p).head?.any fun c => t.category c == .var)
    (within : last.Within (w.redirectParent id .size)) :
    Preserves start last sim t w v (w.redirectParent id .size) (v.redirectParent id .size) := by
  have leads := leads_redirectParent h.bare up assign var
  have leads' := leads_redirectParent h.bare' up assign var
  have eq : ∀ u : Workspace, u.tree.bare = t.bare → u.redirectParent id .size
      = u.modifyNode p fun n => { n with redirect := some .size } := by
    intro u same
    rw [Workspace.redirectParent, Tree.parent?_of_bare same, up]
  have node : ∀ u : Workspace, u.tree.bare = t.bare → ∀ j,
      (u.redirectParent id .size).tree.node j
        = if j = p then { u.tree.node j with redirect := some .size } else u.tree.node j := by
    intro u same j
    have lt : p < u.tree.size := by
      rw [Tree.size_of_bare same]
      exact wf.parent_lt up
    rw [eq u same, Workspace.modifyNode, Tree.node_modify]
    refine if_congr ⟨And.left, fun here => ⟨here, here ▸ lt⟩⟩ rfl rfl
  refine ⟨⟨leads.bare.trans h.bare, leads'.bare.trans h.bare', leads.lawful h.lawful,
    leads'.lawful h.lawful', fun j some => ?_, fun j some => ?_, fun j => ?_, ?_⟩,
    fun j _ here => ?_⟩
  · rw [node w h.bare] at some
    rw [node v h.bare']
    split
    · rfl
    · rename_i other
      rw [if_neg other] at some
      exact h.lower j some
  · rw [node v h.bare'] at some
    by_cases here : j = p
    · refine within.redirects j ?_
      rw [node w h.bare, if_pos here]
      rfl
    · rw [if_neg here] at some
      exact h.upper j some
  · have slots := h.slots j
    rw [node w h.bare, node v h.bare']
    split
    · exact ⟨slots.typing, slots.suggest, .inl rfl, slots.rendered⟩
    · exact slots
  · rw [eq w h.bare, eq v h.bare']
    exact h.state
  · refine ⟨?_, ?_⟩
    · rw [node w h.bare, node v h.bare']
      split
      · exact here.typing
      · exact here.typing
    · rw [node w h.bare, node v h.bare']
      split
      · exact here.text
      · exact here.text

/-- A destination gets the same type in both. -/
theorem Preserves.typeDestination (h : Locks start last sim t w v)
    (assigned : ∀ c, t.Takes id c → t.category c = .var → sim.assigns (t.node c).name)
    {c : NodeId} (taken : t.Takes id c) (d : Datatype) :
    Preserves start last sim t w v (w.typeDestination c d) (v.typeDestination c d) := by
  have destination := wf.isDestination_of_takes taken
  have typed : ∀ u : Workspace, u.tree.bare = t.bare → u.Leads (fun _ => True)
      (u.modifyNode c fun n => { n with suggest := some d, typing := .of d }) := by
    intro u same
    refine .modifyNode (fun _ => rfl) (fun _ => rfl) (.inl fun _ => rfl) fun value => ?_
    rw [Tree.category_of_bare same, destination] at value
    cases value
  have keeps := Preserves.modifyNode h (typed w h.bare) (typed v h.bare') (fun _ => rfl)
    (fun _ => rfl) (fun slots => ⟨.inl rfl, .inl rfl, slots.redirect, slots.rendered⟩)
    fun _ here => ⟨rfl, here.text⟩
  have locks := keeps.locks
  have category : ∀ u : Workspace, u.tree.bare = t.bare → (u.tree.node c).category = t.category c :=
    fun u same => congrFun (Tree.category_of_bare same) c
  unfold Workspace.typeDestination
  dsimp only
  rw [category _ locks.bare, category _ locks.bare']
  cases var : t.category c == .var with
  | false => exact keeps
  | true =>
    rw [Tree.name_of_bare locks.bare, Tree.name_of_bare locks.bare']
    have named := assigned c taken (eq_of_beq var)
    exact keeps.trans (.of_state locks (sim.record named locks.state))

omit wf in
/-- A node goes into temporaries of names that are alike. -/
theorem Preserves.hoist (h : Locks start last sim t w v) {node : NodeId} {a a' : String} {d : Datatype}
    (shows : L.Shows a a') (within : last.Within (w.hoist node a d)) :
    L.Shows (w.state.temporaryName node d) (v.state.temporaryName node d)
      ∧ Preserves start last sim t w v (w.hoist node a d) (v.hoist node a' d) := by
  obtain ⟨names, rel⟩ := sim.hoist h.state within.state shows
  have hoisted := Preserves.of_state h rel
  refine ⟨names, hoisted.trans ?_⟩
  have named : ∀ (u : Workspace) (name : String), u.Leads (fun _ => True)
      (u.modifyNode node fun n => { n with rendered := some name }) := fun u name =>
    .modifyNode (fun _ => rfl) (fun _ => rfl) (.inr ⟨node, trivial, .inl rfl⟩) fun _ _ => rfl
  exact .modifyNode hoisted.locks (named _ _) (named _ _) (fun _ => rfl) (fun _ => rfl)
    (fun slots => ⟨slots.typing, slots.suggest, slots.redirect,
      .inl ⟨_, _, rfl, rfl, .inl names⟩⟩) fun _ here => ⟨here.typing, names⟩

omit wf in
theorem temporaryName_record (s : State) (x : String) (d' : Datatype) (node : NodeId) (d : Datatype) :
    (s.record x d').temporaryName node d = s.temporaryName node d := by
  unfold State.record
  split
  · rfl
  · rfl

omit wf in
/-- Effects but hoisting leave the names of temporaries. -/
theorem temporaryName_perform {e : Effect} (other : e.hoisted? = none) (w : Workspace)
    (node : NodeId) (d : Datatype) :
    (w.perform id e).state.temporaryName node d = w.state.temporaryName node d := by
  cases e with
  | hoist => cases other
  | record x d' => exact temporaryName_record _ x d' node d
  | destination c d' =>
    show (w.typeDestination c d').state.temporaryName node d = _
    unfold Workspace.typeDestination
    dsimp only
    split
    · exact temporaryName_record _ _ d' node d
    · rfl
  | redirect b =>
    show (w.redirectParent id b).state.temporaryName node d = _
    unfold Workspace.redirectParent
    split
    · rfl
    · rfl
  | report | use | tic | toc => rfl

/-- Two effects that are alike, at the node of the rule. -/
theorem keeps_perform (h : Locks start last sim t w v)
    (assigned : ∀ id c, t.Takes id c → t.category c = .var → sim.assigns (t.node c).name)
    {s : Site} {e e' : Effect} (alike : e.Alike L s e') (lawful : e.Lawful t id)
    (within : last.Within (w.perform id e)) :
    Preserves start last sim t w v (w.perform id e) (v.perform id e')
      ∧ ∀ node d, e.hoisted? = some (node, d) →
        L.Shows (w.state.temporaryName node d) (v.state.temporaryName node d) := by
  cases alike with
  | report => exact ⟨.of_state h (sim.report h.state h.same within.state), nofun⟩
  | use => exact ⟨.of_state h (sim.addInclude h.state within.state), nofun⟩
  | tic => exact ⟨.of_state h (sim.tic h.state within.state), nofun⟩
  | toc => exact ⟨.of_state h (sim.toc h.state within.state), nofun⟩
  | record taken var =>
    obtain ⟨c, taken, var, name⟩ := lawful
    refine ⟨.of_state h (sim.record ?_ h.state), nofun⟩
    rw [← name]
    exact assigned id c taken var
  | destination => exact ⟨.typeDestination wf h (assigned id) lawful _, nofun⟩
  | redirect =>
    obtain ⟨-, p, up, assign, var⟩ := lawful
    exact ⟨.redirectParent wf h up assign var within, nofun⟩
  | hoist _ shows =>
    obtain ⟨names, keeps⟩ := Preserves.hoist h shows within
    refine ⟨keeps, fun node d eq => ?_⟩
    cases eq
    exact names

theorem keeps_performAll (h : Locks start last sim t w v)
    (assigned : ∀ id c, t.Takes id c → t.category c = .var → sim.assigns (t.node c).name)
    {s : Site} {es es' : List Effect} (alike : Effect.AllAlike L quieter s es es')
    (lawful : ∀ e ∈ es, e.Lawful t id) (within : last.Within (es.foldl (perform id) w)) :
    Preserves start last sim t w v (es.foldl (perform id) w) (es'.foldl (perform id) v)
      ∧ ∀ node d, es.findSome? Effect.hoisted? = some (node, d) →
        L.Shows (w.state.temporaryName node d) (v.state.temporaryName node d) := by
  induction alike generalizing w v with
  | nil => exact ⟨.refl h, nofun⟩
  | @cons e e' es es' first rest ih =>
    obtain ⟨here, there⟩ := List.forall_mem_cons.mp lawful
    have step := leads_perform wf h.bare here
    have before := within.of_leads (leads_performAll wf (step.bare.trans h.bare) there)
    obtain ⟨keeps, names⟩ := keeps_perform wf h assigned first here before
    obtain ⟨keeps', names'⟩ := ih keeps.locks there within
    refine ⟨keeps.trans keeps', fun node d found => ?_⟩
    rw [List.findSome?_cons] at found
    cases hoisted : e.hoisted? with
    | some pair =>
      rw [hoisted] at found
      exact names node d (hoisted.trans found)
    | none =>
      rw [hoisted] at found
      have other : e'.hoisted? = none := by
        cases first <;> first | rfl | cases hoisted
      rw [← temporaryName_perform hoisted w, ← temporaryName_perform other v]
      exact names' node d found
  | @drop problem message es es' quiet rest ih =>
    obtain ⟨here, there⟩ := List.forall_mem_cons.mp lawful
    have step := leads_perform wf h.bare here
    have before := within.of_leads (leads_performAll wf (step.bare.trans h.bare) there)
    have keeps : Preserves start last sim t w v (w.perform id (.report s.id problem message)) v :=
      .of_state h (sim.silent quiet h.state before.state)
    obtain ⟨keeps', names'⟩ := ih keeps.locks there within
    exact ⟨keeps.trans keeps', names'⟩

/-! ## One node -/

omit wf in
theorem seedTyping_eq (same : v.tree.bare = w.tree.bare) {id : NodeId}
    (children : (w.tree.category id).isOperator →
      ∀ c ∈ w.tree.children id, (v.tree.node c).typing = (w.tree.node c).typing) :
    seedTyping v.tree (v.tree.node id) = seedTyping w.tree (w.tree.node id) := by
  have category : (v.tree.node id).category = (w.tree.node id).category :=
    congrFun (Tree.category_of_bare same) id
  have ids : (v.tree.node id).children = (w.tree.node id).children :=
    congrFun (Tree.children_of_bare same) id
  unfold seedTyping
  rw [category, ids]
  split
  case isFalse => rfl
  case isTrue operator =>
    have typings := children operator
    have types : ((w.tree.node id).children.map v.tree.node).map (·.datatype)
        = ((w.tree.node id).children.map w.tree.node).map (·.datatype) := by
      rw [List.map_map, List.map_map]
      exact List.map_congr_left fun c mem => congrArg Typing.datatype (typings c mem)
    have numbers : ((w.tree.node id).children.map v.tree.node).all (·.numeric)
        = ((w.tree.node id).children.map w.tree.node).all (·.numeric) := by
      rw [List.all_map, List.all_map, ← Bool.coe_iff_coe, List.all_eq_true, List.all_eq_true]
      exact forall₂_congr fun c mem => by
        rw [Function.comp_apply, Function.comp_apply, Node.numeric, typings c mem, Node.numeric]
    dsimp only
    rw [types, numbers]

omit wf in
/-- Both nodes start from the same typing. -/
theorem keeps_seed (h : Locks start last sim t w v) (lt : id < t.size)
    (children : (t.category id).isOperator → ∀ c ∈ t.children id, w.tree.InStep L v.tree c) :
    Preserves start last sim t w v (w.seed id) (v.seed id)
      ∧ ((v.seed id).tree.node id).typing = ((w.seed id).tree.node id).typing := by
  have typing : seedTyping v.tree (v.tree.node id) = seedTyping w.tree (w.tree.node id) := by
    refine seedTyping_eq h.same fun operator c mem => ?_
    rw [Tree.category_of_bare h.bare] at operator
    rw [Tree.children_of_bare h.bare] at mem
    exact (children operator c mem).typing
  refine ⟨.modifyNode h (leads_seed w id) (leads_seed v id) (fun _ => rfl) (fun _ => rfl)
    (fun slots => ⟨.inl typing, slots.suggest, slots.redirect, slots.rendered⟩)
    fun _ here => ⟨typing, here.text⟩, ?_⟩
  have lw : id < w.tree.size := by rwa [Tree.size_of_bare h.bare]
  have lv : id < v.tree.size := by rwa [Tree.size_of_bare h.bare']
  have node : ∀ u : Workspace, id < u.tree.size →
      ((u.seed id).tree.node id).typing = seedTyping u.tree (u.tree.node id) := by
    intro u lt
    rw [seed, Workspace.modifyNode, Tree.node_modify_self lt]
  rw [node v lv, node w lw, typing]

/-- Texts of nodes, each alike as its category asks. -/
inductive WritesAll (L : Likeness) (t : Tree) : List NodeId → List String → List String → Prop
  | nil : WritesAll L t [] [] []
  | cons {i : NodeId} {ids : List NodeId} {a b : String} {as bs : List String} :
      L.Writes (t.category i) a b → WritesAll L t ids as bs →
      WritesAll L t (i :: ids) (a :: as) (b :: bs)

omit wf in
theorem WritesAll.shows {ids : List NodeId} {found found' : List String}
    (h : WritesAll L t ids found found') (inline : ∀ c ∈ ids, (t.category c).isInline) :
    List.Forall₂ L.Shows found found' := by
  induction h with
  | nil => exact .nil
  | cons first _ ih =>
    obtain ⟨here, there⟩ := List.forall_mem_cons.mp inline
    rw [Likeness.Writes, if_pos here] at first
    exact .cons first (ih there)

omit wf in
theorem WritesAll.lengths {ids : List NodeId} {found found' : List String}
    (h : WritesAll L t ids found found') : found.length = ids.length ∧ found'.length = ids.length := by
  induction h with
  | nil => exact ⟨rfl, rfl⟩
  | cons _ _ ih => exact ⟨congrArg (· + 1) ih.1, congrArg (· + 1) ih.2⟩

/-- The rule of a node has answered alike in both. -/
theorem keeps_commit (h : Locks start last sim t w v)
    (assigned : ∀ id c, t.Takes id c → t.category c = .var → sim.assigns (t.node c).name)
    (lt : id < t.size) {texts texts' : List String}
    (lengths : texts.length = (t.children id).length)
    (lengths' : texts'.length = (t.children id).length) {o o' : Outcome}
    (lawful : ∀ e ∈ o.effects, e.Lawful t id) (typing : o'.typing = o.typing)
    (effects : Effect.AllAlike L quieter (w.site id texts) o.effects o'.effects)
    (written : Site.NamesAlike L (w.site id texts) (v.site id texts') o.effects →
      L.Writes (t.category id) ((w.site id texts).written o) ((v.site id texts').written o'))
    (within : last.Within (w.commit id texts o)) :
    Preserves start last sim t w v (w.commit id texts o) (v.commit id texts' o')
      ∧ L.Writes (t.category id) (w.textOf id texts o) (v.textOf id texts' o')
      ∧ ((t.category id).isInline →
        (w.commit id texts o).tree.InStep L (v.commit id texts' o').tree id) := by
  have filled : ∀ (u : Workspace) (text : String), u.Leads (· = id)
      (u.modifyNode id fun n => { n with typing := o.typing, rendered := some text }) := fun u text =>
    .modifyNode (fun _ => rfl) (fun _ => rfl) (.inr ⟨id, rfl, .inl rfl⟩) fun _ _ => rfl
  have before : last.Within (o.effects.foldl (perform id) w) := within.of_leads (filled _ _)
  obtain ⟨keeps, names⟩ := keeps_performAll wf h assigned effects lawful before
  have text : L.Writes (t.category id) (w.textOf id texts o) (v.textOf id texts' o') := by
    rw [textOf_eq w (by rwa [Tree.children_of_bare h.bare]),
      textOf_eq v (by rwa [Tree.children_of_bare h.bare'])]
    exact written names
  unfold commit
  dsimp only
  rw [typing]
  refine ⟨keeps.trans (.modifyNode keeps.locks ((filled _ _).mono fun _ _ => trivial)
    ((filled _ _).mono fun _ _ => trivial) (fun _ => rfl) (fun _ => rfl) (fun slots => ?_)
    fun inline _ => ?_), text, fun inline => ?_⟩
  · refine ⟨.inl rfl, slots.suggest, slots.redirect, .inl ⟨_, _, rfl, rfl, ?_⟩⟩
    rw [Likeness.Writes] at text
    split at text
    · exact .inl text
    · exact .inr text
  · rw [Likeness.Writes, if_pos inline] at text
    exact ⟨rfl, text⟩
  · rw [Likeness.Writes, if_pos inline] at text
    have lw : id < (o.effects.foldl (perform id) w).tree.size := by
      rwa [Tree.size_of_bare keeps.locks.bare]
    have lv : id < (o'.effects.foldl (perform id) v).tree.size := by
      rwa [Tree.size_of_bare keeps.locks.bare']
    have node : ∀ (u : Workspace) (f : Node → Node), id < u.tree.size →
        (u.modifyNode id f).tree.node id = f (u.tree.node id) := fun _ f lt =>
      Tree.node_modify_self lt f
    refine ⟨?_, ?_⟩
    · rw [node _ _ lw, node _ _ lv]
    · rw [node _ _ lw, node _ _ lv]
      exact text

/-- The children of a node are resolved, and in step. -/
structure Ready (L : Likeness) (t : Tree) (w v : Workspace) (ids : List NodeId)
    (found found' : List String) : Prop where
  writes : WritesAll L t ids found found'
  spells : t.Spells ids found
  spells' : t.Spells ids found'
  inStep : ∀ c ∈ ids, (t.category c).isInline →
    w.tree.InStep L v.tree c ∧ ∀ g ∈ t.children c, w.tree.InStep L v.tree g

theorem Near.keeps {a b a' b' : Tree}
    (inStep : ∀ i, (t.category i).isInline → a.InStep L b i → a'.InStep L b' i)
    (h : t.Near L a b id) : t.Near L a' b' id := by
  intro value g group assign d head
  refine inStep d ?_ (h value g group assign d head)
  exact wf.isInline_child (by rw [assign]; nofun) (by rw [assign]; nofun) (List.mem_of_mem_head? head)

omit wf in
theorem WritesAll.three {a b c : NodeId} {found found' : List String}
    (h : WritesAll L t [a, b, c] found found') : ∃ x y z x' y' z', found = [x, y, z]
      ∧ found' = [x', y', z'] ∧ L.Writes (t.category c) z z' := by
  rcases h with _ | ⟨_, _ | ⟨_, _ | ⟨last, _ | _⟩⟩⟩
  exact ⟨_, _, _, _, _, _, rfl, rfl, last⟩

/-- The rule of a node answers alike in both. -/
theorem agrees_answer (h : Locks start last sim t w v) (spelt : t.Spelt L) (lt : id < t.size)
    (block : t.category id ≠ .block) {found found' : List String}
    (ready : Ready L t w v (t.children id) found found') (near : t.Near L w.tree v.tree id)
    (seed : (v.tree.node id).typing = (w.tree.node id).typing)
    (redirect : (v.tree.node id).redirect = (w.tree.node id).redirect) :
    Agrees L quieter (w.site id found) (v.site id found') (L.Writes (t.category id))
      (w.answer id found) (v.answer id found') := by
  obtain ⟨lengths, lengths'⟩ := ready.writes.lengths
  have children : ∀ u : Workspace, u.tree.bare = t.bare → u.tree.children id = t.children id :=
    fun u same => by rw [Tree.children_of_bare same]
  have category : (w.site id found).node.category = t.category id :=
    congrFun (Tree.category_of_bare h.bare) id
  have spelt' : w.tree.Spelt L := spelt.of_bare h.bare
  have akin : (w.site id found).Akin L (v.site id found') :=
    akin_site h.same (wf.of_bare h.bare) spelt' (by rwa [Tree.size_of_bare h.bare])
      (by rwa [children w h.bare]) seed (sim.lookup h.state)
  by_cases function : t.category id = .function
  case pos =>
    obtain ⟨a, b, c, ids, params, returns, body⟩ := wf.children_function lt function
    have writes := ready.writes
    rw [ids] at writes
    obtain ⟨x, y, z, x', y', z', rfl, rfl, text⟩ := writes.three
    have site : ∀ u : Workspace, u.tree.bare = t.bare → ∀ x y z : String,
        (u.site id [x, y, z]).operands
          = [⟨a, u.tree.node a, x⟩, ⟨b, u.tree.node b, y⟩, ⟨c, u.tree.node c, z⟩] := by
      intro u same x y z
      show ((u.tree.children id).zip _).map _ = _
      rw [children u same, ids]
      rfl
    have named : (w.site id [x, y, z]).node.category.isNamed := by
      rw [category, function]
      rfl
    have agrees : Agrees L quieter (w.site id [x, y, z]) (v.site id [x', y', z']) L.prints
        (Rule.function (w.site id [x, y, z])) (Rule.function (v.site id [x', y', z'])) :=
      Rule.function_agrees akin named (site w h.bare x y z)
        ((congrFun (Tree.category_of_bare h.bare) a).trans params)
        ((congrFun (Tree.category_of_bare h.bare) b).trans returns) (site v h.bare' x' y' z')
        (Tree.node_of_bare h.same a) (Tree.node_of_bare h.same b) (by rwa [body] at text)
    have select : ∀ u : Workspace, u.tree.bare = t.bare →
        Rule.select u.tree (u.tree.node id) = Rule.function := fun u same =>
      Rule.select_function ((congrFun (Tree.category_of_bare same) id).trans function)
    unfold answer
    rw [select w h.bare, select v h.bare', function]
    exact agrees
  case neg =>
    have inline : ∀ c ∈ t.children id, (t.category c).isInline := fun c =>
      wf.isInline_child block function
    have alike : (w.site id found).Alike L quieter (v.site id found') := by
      refine alike_site akin redirect h.lawful h.lawful' (fun c mem => ?_)
        (ready.writes.shows inline) ?_ ?_ (near.of_bare h.bare) (sim.clock h.state)
      · rw [children w h.bare] at mem
        rw [Tree.children_of_bare h.bare]
        exact ready.inStep c mem (inline c mem)
      · rw [children w h.bare]
        exact ready.spells.of_bare h.bare
      · rw [children w h.bare]
        exact ready.spells'.of_bare h.bare'
    have agrees := Rule.select_agrees alike (category ▸ function) (category ▸ block)
    rw [category] at agrees
    exact agrees

omit wf in
/-- Whether a node is redirected is the same in both, once that is settled. -/
theorem redirect_eq (h : Locks start last sim t w v)
    (settled : (last.tree.node id).redirect.isSome → (w.tree.node id).redirect.isSome) :
    (v.tree.node id).redirect = (w.tree.node id).redirect := by
  have there : (v.tree.node id).redirect.isSome ↔ (w.tree.node id).redirect.isSome :=
    ⟨fun some => settled (h.upper id some), h.lower id⟩
  cases first : (w.tree.node id).redirect with
  | none =>
    rw [first] at there
    exact Option.not_isSome_iff_eq_none.mp fun some => by cases there.mp some
  | some b =>
    obtain ⟨b', second⟩ := Option.isSome_iff_exists.mp (there.mpr (by rw [first]; rfl))
    rw [second, (h.lawful.redirected id b first).1, (h.lawful'.redirected id b' second).1]

/-- The same rule is applied in both. -/
theorem locked_applyRule (h : Locks start last sim t w v) (spelt : t.Spelt L)
    (assigned : ∀ id c, t.Takes id c → t.category c = .var → sim.assigns (t.node c).name)
    (lt : id < t.size) (block : t.category id ≠ .block) {found found' : List String}
    (ready : Ready L t w v (t.children id) found found') (near : t.Near L w.tree v.tree id)
    (within : last.Within (Resolving.applyRule id found w).2)
    (settled : (last.tree.node id).redirect.isSome →
      ((Resolving.applyRule id found w).2.tree.node id).redirect.isSome) :
    Preserves start last sim t w v (Resolving.applyRule id found w).2 (Resolving.applyRule id found' v).2
      ∧ Together L (L.Writes (t.category id)) (Resolving.applyRule id found w).1
        (Resolving.applyRule id found' v).1
      ∧ ∀ text, (Resolving.applyRule id found w).1 = .ok text → (t.category id).isInline →
        (Resolving.applyRule id found w).2.tree.InStep L
          (Resolving.applyRule id found' v).2.tree id := by
  obtain ⟨lengths, lengths'⟩ := ready.writes.lengths
  have operands : (t.category id).isOperator → ∀ c ∈ t.children id, w.tree.InStep L v.tree c := by
    intro operator c mem
    refine (ready.inStep c mem (wf.isInline_child block ?_ mem)).1
    intro function
    rw [function] at operator
    cases operator
  obtain ⟨seeded, seed⟩ := keeps_seed h lt operands
  have ready' : Ready L t (w.seed id) (v.seed id) (t.children id) found found' :=
    { ready with
      inStep := fun c mem plain => by
        obtain ⟨here, below⟩ := ready.inStep c mem plain
        exact ⟨seeded.inStep c plain here, fun g child =>
          seeded.inStep g (wf.isInline_below plain child) (below g child)⟩ }
  have leads := Resolving.leads_applyRule wf lt block h.bare h.lawful lengths fun _ => ready.spells
  have redirect : ((v.seed id).tree.node id).redirect = ((w.seed id).tree.node id).redirect := by
    refine redirect_eq seeded.locks fun final => ?_
    have after := settled final
    rcases leads.frame id with same | ⟨j, rfl, up⟩
    · rw [same] at after
      exact (leads_seed (P := fun _ => True) w id).redirects id after
    · rw [Tree.parent?_of_bare h.bare] at up
      cases wf.acyclic lt (.step up .here)
  have agrees := agrees_answer wf seeded.locks spelt lt block ready'
    (Near.keeps wf seeded.inStep near) seed redirect
  have rule : ∀ o, (w.seed id).answer id found = .ok o → ∀ e ∈ o.effects, e.Lawful t id := fun o ok =>
    lawful_answer wf seeded.locks.bare seeded.locks.lawful lt block lengths
      (fun _ => ready.spells) ok
  rw [applyRule_eq] at within settled ⊢
  rw [applyRule_eq]
  generalize (w.seed id).answer id found = answer at agrees rule within ⊢
  generalize (v.seed id).answer id found' = answer' at agrees ⊢
  cases agrees with
  | fails speaks =>
    exact ⟨seeded, .fail (speaks L (spelt.of_bare seeded.locks.bare)), fun _ failed => by cases failed⟩
  | answers typing effects written =>
    obtain ⟨keeps, text, inStep⟩ := keeps_commit wf seeded.locks assigned lt lengths lengths'
      (rule _ rfl) typing effects written within
    exact ⟨seeded.trans keeps, .give text, fun _ _ => inStep⟩

end

end Workspace

/-! ## The whole walk -/

namespace Resolving

open Workspace

variable {L : Likeness} {quieter : Prop} {start : Tree} {last : Workspace}
  {sim : Simulation L quieter last.state} {t : Tree} {resolve : NodeId → Resolving String}

/-- Resolving the node `id` keeps two workspaces locked and gives texts that are alike. -/
def Locked (start : Tree) (last : Workspace) (sim : Simulation L quieter last.state) (t : Tree)
    (id : NodeId) (step : Resolving String) : Prop :=
  ∀ w v : Workspace, Locks start last sim t w v → t.Near L w.tree v.tree id → last.Within (step w).2 →
    Settled t last (step w).2 id →
    Preserves start last sim t w v (step w).2 (step v).2
      ∧ Together L (L.Writes (t.category id)) (step w).1 (step v).1
      ∧ ∀ text, (step w).1 = .ok text → (t.category id).isInline →
        (step w).2.tree.InStep L (step v).2.tree id
          ∧ ∀ g ∈ t.children id, (step w).2.tree.InStep L (step v).2.tree g

section

variable (wf : t.WellFormed)
include wf

/-- Below one child all is settled before the others are resolved. -/
theorem settled_before {parent c : NodeId} {ids : List NodeId} {w w' : Workspace}
    (parents : ∀ c' ∈ c :: ids, t.parent? c' = some parent) (nodup : (c :: ids).Nodup)
    (same : w.tree.bare = t.bare) (leads : w.Leads (fun i => ∃ c' ∈ ids, t.Below c' i) w')
    (settled : Settled t last w' c) : Settled t last w c := by
  intro i below final
  have after := settled i below final
  rcases leads.frame i with eq | ⟨j, ⟨c', mem, below'⟩, up⟩
  · rwa [eq] at after
  · rw [Tree.parent?_of_bare same] at up
    obtain rfl := wf.apart (parents c List.mem_cons_self) (parents c' (List.mem_cons_of_mem c mem))
      (below.step up) below'
    exact absurd mem (List.nodup_cons.mp nodup).1

theorem locked_texts {parent : NodeId} : ∀ {ids : List NodeId} {w v : Workspace},
    (∀ c ∈ ids, Steady t c (resolve c)) → (∀ c ∈ ids, Locked start last sim t c (resolve c)) →
    (∀ c ∈ ids, t.parent? c = some parent) → ids.Nodup → Locks start last sim t w v →
    (∀ before c after, ids = before ++ c :: after → ∀ a b : Tree,
      (∀ i, (t.category i).isInline → w.tree.InStep L v.tree i → a.InStep L b i) →
      (∀ d ∈ before, (t.category d).isInline → a.InStep L b d) → t.Near L a b c) →
    last.Within (texts resolve ids w).2 →
    (∀ c ∈ ids, Settled t last (texts resolve ids w).2 c) →
    Preserves start last sim t w v (texts resolve ids w).2 (texts resolve ids v).2
      ∧ Together L (WritesAll L t ids) (texts resolve ids w).1 (texts resolve ids v).1
      ∧ ∀ found, (texts resolve ids w).1 = .ok found → ∀ c ∈ ids, (t.category c).isInline →
        (texts resolve ids w).2.tree.InStep L (texts resolve ids v).2.tree c
          ∧ ∀ g ∈ t.children c,
            (texts resolve ids w).2.tree.InStep L (texts resolve ids v).2.tree g
  | [], w, v, _, _, _, _, h, _, _, _ => ⟨.refl h, .give .nil, fun _ _ _ mem => nomatch mem⟩
  | c :: ids, w, v, steady, locked, parents, nodup, h, near, within, settled => by
    obtain ⟨steadyHere, steadyThere⟩ := List.forall_mem_cons.mp steady
    obtain ⟨lockedHere, lockedThere⟩ := List.forall_mem_cons.mp locked
    have first := lockedHere w v h (near [] c ids rfl _ _ (fun _ _ => id) nofun)
    have leads := steadyHere.leads w h.bare h.lawful
    cases result : resolve c w with
    | mk answer w₁ =>
    cases result' : resolve c v with
    | mk answer' v₁ =>
    rw [result] at first leads
    rw [result'] at first
    cases answer with
    | error e =>
      rw [texts_of_error result] at within settled ⊢
      obtain ⟨keeps, together, -⟩ := first within (settled c List.mem_cons_self)
      cases together with
      | fail shows =>
        rw [texts_of_error result']
        exact ⟨keeps, .fail shows, nofun⟩
    | ok text =>
      rw [texts_of_ok result] at within settled ⊢
      have same := leads.bare.trans h.bare
      have rest := (steady_texts (w := w₁) steadyThere same (leads.lawful h.lawful)).1
      obtain ⟨keeps, together, inStep⟩ := first (within.of_leads rest)
        (settled_before wf parents nodup same rest (settled c List.mem_cons_self))
      obtain ⟨keeps', together', inStep'⟩ := locked_texts (w := w₁) (v := v₁) steadyThere
        lockedThere (fun c' mem => parents c' (List.mem_cons_of_mem c mem))
        (List.nodup_cons.mp nodup).2 keeps.locks
        (fun before d after eq a b kept earlier => near (c :: before) d after
          (by rw [eq]; rfl) a b (fun i inline here => kept i inline (keeps.inStep i inline here))
          (List.forall_mem_cons.mpr ⟨fun inline => kept c inline (inStep text rfl inline).1, earlier⟩))
        within fun c' mem => settled c' (List.mem_cons_of_mem c mem)
      cases together with
      | give writes =>
        rw [texts_of_ok result']
        refine ⟨keeps.trans keeps', together'.map fun _ _ => .cons writes,
          fun found ok d mem inline => ?_⟩
        rcases List.mem_cons.mp mem with rfl | mem
        · obtain ⟨here, below⟩ := inStep text rfl inline
          exact ⟨keeps'.inStep _ inline here, fun g child =>
            keeps'.inStep g (wf.isInline_below inline child) (below g child)⟩
        · dsimp only at ok
          cases others : (texts resolve ids w₁).1 with
          | error e =>
            rw [others] at ok
            cases ok
          | ok found => exact inStep' found others d mem inline

/-- When a child comes after those before it, what it may look at is in step. -/
theorem near_child {id : NodeId} {w v : Workspace} (near : t.Near L w.tree v.tree id)
    (before : List NodeId) (c : NodeId) (after : List NodeId)
    (ids : t.children id = before ++ c :: after) (a b : Tree)
    (kept : ∀ i, (t.category i).isInline → w.tree.InStep L v.tree i → a.InStep L b i)
    (earlier : ∀ d ∈ before, (t.category d).isInline → a.InStep L b d) : t.Near L a b c := by
  intro value g group assign d head
  have mem : c ∈ t.children id := by simp [ids]
  have lt : id < t.size := wf.parent_lt (wf.parent?_of_mem mem)
  have inline : (t.category d).isInline := wf.isInline_child (by rw [assign]; nofun)
    (by rw [assign]; nofun) (List.mem_of_mem_head? head)
  rw [wf.group?_of_parent? (wf.parent?_of_mem mem)] at group
  split at group
  case isTrue inner =>
    have other : (t.category id).isDestination = false := by
      cases category : t.category id <;> rw [category] at inner <;> first | rfl | cases inner
    exact kept d inline (near other g group assign d head)
  case isFalse =>
    obtain rfl := Option.some.inj group
    cases before with
    | nil =>
      rw [ids] at head
      obtain rfl := Option.some.inj head
      have admits := (wf.shaped id lt).children
      rw [assign, ids] at admits
      have takes : t.Takes id c := by
        refine ⟨.inl assign, ?_⟩
        rw [ids]
        cases after with
        | nil => cases admits
        | cons e after => exact List.mem_cons_self
      rw [wf.isDestination_of_takes takes] at value
      cases value
    | cons d' before =>
      rw [ids] at head
      obtain rfl := Option.some.inj head
      exact earlier d' List.mem_cons_self inline

variable (spelt : t.Spelt L)
  (assigned : ∀ id c, t.Takes id c → t.category c = .var → sim.assigns (t.node c).name)
include spelt assigned

theorem locked_node {id : NodeId} (lt : id < t.size) (block : t.category id ≠ .block)
    (steady : ∀ c ∈ t.children id, Steady t c (resolve c))
    (locked : ∀ c ∈ t.children id, Locked start last sim t c (resolve c)) :
    Locked start last sim t id (node resolve id) := by
  intro w v h near within settled
  have children : ∀ u : Workspace, u.tree.bare = t.bare → u.tree.children id = t.children id :=
    fun u same => by rw [Tree.children_of_bare same]
  have walk := steady_texts (w := w) steady h.bare h.lawful
  have walk' := steady_texts (w := v) steady h.bare' h.lawful'
  have resolved := locked_texts wf (w := w) (v := v) steady locked
    (fun c mem => wf.parent?_of_mem mem) (wf.nodup_children id) h (near_child wf near)
  unfold node at within settled ⊢
  rw [children w h.bare] at within settled ⊢
  rw [children v h.bare']
  cases results : texts resolve (t.children id) w with
  | mk answers w₁ =>
  cases results' : texts resolve (t.children id) v with
  | mk answers' v₁ =>
  rw [results] at walk resolved within settled
  rw [results'] at walk' resolved
  cases answers with
  | error e =>
    obtain ⟨keeps, together, -⟩ := resolved within fun c mem i below =>
      settled i ((Tree.below_of_parent? (wf.parent?_of_mem mem)).trans below)
    cases together with
    | fail shows => exact ⟨keeps, .fail shows, nofun⟩
  | ok found =>
    dsimp only at within settled
    have same := walk.1.bare.trans h.bare
    have applied := leads_applyRule wf lt block same (walk.1.lawful h.lawful)
      (length_of_texts results) fun _ => walk.2 found rfl
    -- the rule of a node redirects only the node above, which is not below a child
    have before : ∀ c ∈ t.children id, Settled t last w₁ c := by
      intro c mem i below final
      have after := settled i ((Tree.below_of_parent? (wf.parent?_of_mem mem)).trans below) final
      rcases applied.frame i with eq | ⟨j, rfl, up⟩
      · rwa [eq] at after
      · rw [Tree.parent?_of_bare same] at up
        exact absurd (below.step up) (wf.not_below_child mem)
    obtain ⟨keeps, together, inStep⟩ := resolved (within.of_leads applied) before
    cases together with
    | @give _ found' writes =>
      have ready : Workspace.Ready L t w₁ v₁ (t.children id) found found' :=
        ⟨writes, walk.2 found rfl, walk'.2 found' rfl, fun c mem inline =>
          inStep found rfl c mem inline⟩
      obtain ⟨keeps', together', inStep'⟩ := locked_applyRule wf keeps.locks spelt assigned lt block
        ready (Near.keeps wf keeps.inStep near) within (settled id (t.below_self id))
      refine ⟨keeps.trans keeps', together', fun text ok inline =>
        ⟨inStep' text ok inline, fun g child => ?_⟩⟩
      have plain := wf.isInline_below inline child
      exact keeps'.inStep g plain (inStep found rfl g child plain).1

/-! ### Statements -/

omit wf spelt assigned in
theorem locked_statementLines {id : NodeId} (statement : (t.category id).isStatement)
    (steady : Steady t id (resolve id)) (locked : Locked start last sim t id (resolve id))
    {w v : Workspace} (h : Locks start last sim t w v) (near : t.Near L w.tree v.tree id)
    (within : last.Within (statementLines resolve id w).2)
    (settled : Settled t last (statementLines resolve id w).2 id) :
    Preserves start last sim t w v (statementLines resolve id w).2 (statementLines resolve id v).2
      ∧ List.Forall₂ L.line (statementLines resolve id w).1 (statementLines resolve id v).1 := by
  have opened := Preserves.of_state h (sim.opened h.state)
  have leads := steady.leads { w with state := w.state.withPending [] } h.bare h.lawful
  have leads' := steady.leads { v with state := v.state.withPending [] } h.bare' h.lawful'
  have resolved := locked _ _ opened.locks near
  unfold statementLines at within settled ⊢
  dsimp only at within settled ⊢
  generalize resolve id { w with state := w.state.withPending [] } = result
    at leads resolved within settled ⊢
  generalize resolve id { v with state := v.state.withPending [] } = result' at leads' resolved ⊢
  obtain ⟨answer, after⟩ := result
  obtain ⟨answer', after'⟩ := result'
  have grows : w.state.Grows after.state := (w.state.grows_withPending []).trans leads.grows
  have grows' : v.state.Grows after'.state := (v.state.grows_withPending []).trans leads'.grows
  have lines : L.Writes (t.category id) = L.prints := by
    rw [Likeness.Writes, Category.isInline, statement]
    rfl
  rw [lines] at resolved
  cases answer with
  | ok text =>
    have fits : last.Within after :=
      ⟨(after.state.grows_withPending w.state.pending).trans within.state, within.redirects⟩
    obtain ⟨keeps, together, -⟩ := resolved fits settled
    cases together with
    | give prints =>
      have closed := sim.closed h.state grows grows' keeps.locks.state
      exact ⟨opened.trans (keeps.trans (.of_state keeps.locks closed)),
        List.rel_append (sim.pending keeps.locks.state) (L.lines prints)⟩
  | error e =>
    have fits : last.Within after := by
      refine ⟨?_, within.redirects⟩
      have reported := State.grows_report (after.state.withPending w.state.pending) after.tree id
        e.problem e.message
      exact ((after.state.grows_withPending w.state.pending).trans reported).trans within.state
    obtain ⟨keeps, together, -⟩ := resolved fits settled
    cases together with
    | fail shows =>
      have closed := sim.closed h.state grows grows' keeps.locks.state
      have reported := sim.report closed keeps.locks.same within.state
      exact ⟨opened.trans (keeps.trans (.of_state keeps.locks reported)),
        .cons (line_of_failure shows) .nil⟩

omit spelt assigned in
theorem locked_blockLines {parent : NodeId} (block : t.category parent = .block) :
    ∀ {ids : List NodeId} {w v : Workspace}, (∀ c ∈ ids, (t.category c).isStatement) →
    (∀ c ∈ ids, Steady t c (resolve c)) → (∀ c ∈ ids, Locked start last sim t c (resolve c)) →
    (∀ c ∈ ids, t.parent? c = some parent) → ids.Nodup → Locks start last sim t w v →
    last.Within (blockLines resolve ids w).2 →
    (∀ c ∈ ids, Settled t last (blockLines resolve ids w).2 c) →
    Preserves start last sim t w v (blockLines resolve ids w).2 (blockLines resolve ids v).2
      ∧ List.Forall₂ L.line (blockLines resolve ids w).1 (blockLines resolve ids v).1
  | [], w, v, _, _, _, _, _, h, _, _ => ⟨.refl h, .nil⟩
  | c :: ids, w, v, statements, steady, locked, parents, nodup, h, within, settled => by
    obtain ⟨steadyHere, steadyThere⟩ := List.forall_mem_cons.mp steady
    obtain ⟨lockedHere, lockedThere⟩ := List.forall_mem_cons.mp locked
    have first := leads_statementLines steadyHere h.bare h.lawful
    have same := first.bare.trans h.bare
    have rest := leads_blockLines steadyThere same (first.lawful h.lawful)
    have near : t.Near L w.tree v.tree c := by
      intro _ g group assign
      rw [wf.group?_of_parent? (parents c List.mem_cons_self), block] at group
      obtain rfl := Option.some.inj group
      rw [block] at assign
      cases assign
    obtain ⟨keeps, lines⟩ := locked_statementLines (statements c List.mem_cons_self) steadyHere
      lockedHere h near (within.of_leads rest)
      (settled_before wf parents nodup same rest (settled c List.mem_cons_self))
    obtain ⟨keeps', lines'⟩ := locked_blockLines block
      (fun c' mem => statements c' (List.mem_cons_of_mem c mem)) steadyThere lockedThere
      (fun c' mem => parents c' (List.mem_cons_of_mem c mem)) (List.nodup_cons.mp nodup).2 keeps.locks
      within fun c' mem => settled c' (List.mem_cons_of_mem c mem)
    exact ⟨keeps.trans keeps', List.rel_append lines lines'⟩

/-- Two translations of one program go together, node by node. -/
theorem locked_resolveWithin (depth : Nat) {id : NodeId} (lt : id < t.size) :
    Locked start last sim t id (resolveWithin depth id) := by
  induction depth generalizing id with
  | zero =>
    intro w v h _ _ _
    exact ⟨.refl h, .fail (.word L _ rfl), fun _ failed => by cases failed⟩
  | succ depth ih =>
    have steady : ∀ c ∈ t.children id, Steady t c (resolveWithin depth c) := fun c mem =>
      steady_resolveWithin wf depth (wf.bound id c mem)
    have locked : ∀ c ∈ t.children id, Locked start last sim t c (resolveWithin depth c) := fun c mem =>
      ih (wf.bound id c mem)
    intro w v h near within settled
    have category : ∀ u : Workspace, u.tree.bare = t.bare →
        (u.tree.node id).category = t.category id := fun u same =>
      congrFun (Tree.category_of_bare same) id
    have ids : ∀ u : Workspace, u.tree.bare = t.bare → u.tree.children id = t.children id :=
      fun u same => by rw [Tree.children_of_bare same]
    unfold resolveWithin at within settled ⊢
    rw [category w h.bare] at within settled ⊢
    rw [category v h.bare']
    cases kind : t.category id with
    | block =>
      rw [kind] at within settled
      unfold block at within settled ⊢
      rw [ids w h.bare] at within settled ⊢
      rw [ids v h.bare']
      obtain ⟨keeps, lines⟩ := locked_blockLines wf kind (fun c => wf.isStatement_child kind)
        steady locked (fun c mem => wf.parent?_of_mem mem) (wf.nodup_children id) h within
        fun c mem i below =>
          settled i ((Tree.below_of_parent? (wf.parent?_of_mem mem)).trans below)
      exact ⟨keeps, .give (L.joined lines), fun _ _ inline => by cases inline⟩
    | function =>
      rw [kind] at within settled
      have whole := locked_node wf spelt assigned lt (by rw [kind]; rintro ⟨⟩) steady locked
      have opened := Preserves.of_state h (sim.pushScope h.state)
      unfold inScope at within settled ⊢
      dsimp only at within settled ⊢
      have fits : last.Within (node (resolveWithin depth) id
          { w with state := w.state.pushScope }).2 :=
        ⟨(State.grows_popScope _).trans within.state, within.redirects⟩
      obtain ⟨keeps, together, -⟩ := whole _ _ opened.locks near fits settled
      rw [kind] at together
      refine ⟨opened.trans (keeps.trans ?_), together, fun _ _ inline => by cases inline⟩
      exact .of_state keeps.locks (sim.popScope keeps.locks.state)
    | _ =>
      rw [kind] at within settled
      have whole := locked_node wf spelt assigned lt (by rw [kind]; rintro ⟨⟩) steady locked
        w v h near within settled
      rw [kind] at whole
      exact whole

end

end Resolving

/-! ## Translating a tree that was translated before

A translation leaves its typings, its hints, its redirections and its texts in the
tree.  Of all this the next one reads only where assignments are redirected: it gives
what the untouched tree would give, if those that are left would be redirected anyway
(`Translator.unit_left`).  One that is left over from other declarations is never
taken back, and then the units differ (`Translator.unit_left_size_ne`). -/

/-- Both translations remember the same. -/
def State.agrees (last : State) : Simulation .same False last where
  rel s s' := s' = s
  assigns _ := True
  lookup same _ := by rw [same]
  clock same := .inl (by rw [same])
  pending same := by
    rw [same]
    exact List.forall₂_same.mpr fun _ _ => rfl
  report {s s' t t' i p m} same bare _ := by
    have node : Diagnostic.ofNode t' i p m = Diagnostic.ofNode t i p m := by
      rw [Diagnostic.ofNode, Tree.field_of_bare bare Node.category fun _ => rfl,
        Tree.field_of_bare bare Node.label fun _ => rfl, Diagnostic.ofNode]
    rw [same, State.report, node, State.report]
  silent quiet := quiet.elim
  addInclude same _ := by rw [same]
  record _ same := by rw [same]
  hoist same _ text := by
    obtain rfl := same
    obtain rfl := text
    exact ⟨rfl, rfl⟩
  tic same _ := by rw [same]
  toc same _ := by rw [same]
  opened same := by rw [same]
  closed same _ _ same' := by rw [same, same']
  pushScope same := by rw [same]
  popScope same := by rw [same]

namespace Resolving

open Workspace

/-- What is left in a tree does not matter, but where assignments are redirected. -/
theorem rootLines_left {t left : Tree} (wf : t.WellFormed) (raw : t.Raw) (same : left.bare = t.bare)
    (lawful : left.Lawful) {s : State}
    (redirects : ∀ i, (left.node i).redirect.isSome →
      ((rootLines ⟨t, s⟩).2.tree.node i).redirect.isSome) :
    (rootLines ⟨left, s⟩).1 = (rootLines ⟨t, s⟩).1
      ∧ (rootLines ⟨left, s⟩).2.state = (rootLines ⟨t, s⟩).2.state := by
  obtain ⟨root, top, -, block, -⟩ := wf.root
  rw [rootLines_eq wf top (w := ⟨t, s⟩) rfl] at redirects ⊢
  rw [rootLines_eq wf top (w := ⟨left, s⟩) same]
  generalize run : blockLines (resolveWithin (t.size + 1)) (t.children root) ⟨t, s⟩ = fresh
    at redirects ⊢
  have steady : ∀ c ∈ t.children root, Steady t c (resolveWithin (t.size + 1) c) :=
    fun c mem => steady_resolveWithin wf _ (wf.bound root c mem)
  have locked : ∀ c ∈ t.children root,
      Locked left fresh.2 (State.agrees fresh.2.state) t c (resolveWithin (t.size + 1) c) :=
    fun c mem => locked_resolveWithin wf ⟨fun _ _ => trivial, fun _ _ _ _ => trivial⟩
      (fun _ _ _ _ => trivial) _ (wf.bound root c mem)
  have start : Locks left fresh.2 (State.agrees fresh.2.state) t ⟨t, s⟩ ⟨left, s⟩ := by
    refine ⟨rfl, same, raw.lawful, lawful, fun i some => ?_, redirects,
      fun _ => ⟨.inr rfl, .inr rfl, .inr rfl, .inr rfl⟩, rfl⟩
    have none : (t.node i).redirect.isSome = false := by
      rw [← (raw i).bare]
      rfl
    rw [show (Workspace.mk t s).tree = t from rfl, none] at some
    cases some
  have both := locked_blockLines wf block (fun c => wf.isStatement_child block) steady locked
    (fun c mem => wf.parent?_of_mem mem) (wf.nodup_children root) start
  rw [run] at both
  obtain ⟨keeps, lines⟩ := both ⟨.refl _, fun _ => id⟩ fun _ _ _ _ => id
  refine ⟨?_, keeps.locks.state⟩
  exact (List.forall₂_eq_eq_eq ▸ lines).symm

end Resolving

namespace Translator

open Resolving

/-- The tree of a program after its translation under a configuration. -/
def left (config : Config) (t : Tree) : Tree := ((⟨.ofConfig config⟩ : Translator).translate t).2.1

/-- What a tree is translated to under a configuration. -/
def unit (config : Config) (t : Tree) : Translation :=
  ((⟨.ofConfig config⟩ : Translator).translate t).1

/-- Translating a tree under `config` and then under `config'` gives what the untouched
tree gives under `config'`, if that redirects all assignments that are left redirected. -/
theorem unit_left {source : String} {t : Tree} (parsed : Tree.parse source = .ok t)
    (config config' : Config)
    (redirects : ∀ i < t.size, ((left config t).node i).redirect.isSome →
      ((left config' t).node i).redirect.isSome) :
    unit config' (left config t) = unit config' t := by
  have wf := Tree.wellFormed_of_parsed parsed
  have raw := Tree.raw_of_parse parsed
  obtain ⟨root, top, -⟩ := wf.root
  have steady : ∀ c ∈ t.children root, Steady t c (resolveWithin (t.size + 1) c) := fun c mem =>
    steady_resolveWithin wf _ (wf.bound root c mem)
  have leads := leads_blockLines (w := ⟨t, .ofConfig config⟩) steady rfl raw.lawful
  rw [← rootLines_eq wf top rfl] at leads
  have everywhere : ∀ i, ((left config t).node i).redirect.isSome →
      ((left config' t).node i).redirect.isSome := by
    intro i some
    by_cases lt : i < t.size
    case pos => exact redirects i lt some
    case neg =>
      have size : (left config t).size = t.size := Tree.size_of_bare leads.bare
      rw [Tree.node_of_size_le (size ▸ Nat.le_of_not_lt lt)] at some
      cases some
  obtain ⟨lines, state⟩ := rootLines_left wf raw leads.bare (leads.lawful raw.lawful) everywhere
  exact congrArg₂ Translation.ofState lines state

/-- A matrix or a cube, the extents are taken apart. -/
theorem unit_left_size : ∃ t, Tree.parse "n = size(A)\n" = .ok t
    ∧ unit { declarations := ⟨[("A", ⟨.cube, .float⟩)]⟩ }
        (left { declarations := ⟨[("A", ⟨.matrix, .float⟩)]⟩ } t)
      = unit { declarations := ⟨[("A", ⟨.cube, .float⟩)]⟩ } t := by
  have parses : ∃ t, Tree.parse "n = size(A)\n" = .ok t
      ∧ ∀ i < t.size, ((left { declarations := ⟨[("A", ⟨.matrix, .float⟩)]⟩ } t).node i).redirect.isSome →
        ((left { declarations := ⟨[("A", ⟨.cube, .float⟩)]⟩ } t).node i).redirect.isSome :=
    ⟨_, by cbv, by decide⟩
  obtain ⟨t, run, redirects⟩ := parses
  exact ⟨t, run, unit_left run _ _ redirects⟩

/-- A redirection that a matrix left is followed for a vector, too. -/
theorem unit_left_size_ne : ∃ t, Tree.parse "n = size(A)\n" = .ok t
    ∧ unit { declarations := ⟨[("A", ⟨.colvec, .float⟩)]⟩ }
        (left { declarations := ⟨[("A", ⟨.matrix, .float⟩)]⟩ } t)
      ≠ unit { declarations := ⟨[("A", ⟨.colvec, .float⟩)]⟩ } t :=
  ⟨_, by cbv, by decide +kernel⟩

end Translator

end MatrixScript
