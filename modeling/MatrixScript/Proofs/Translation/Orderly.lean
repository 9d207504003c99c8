/-
# `Proofs.Translation.Orderly` — the temporaries of one statement

While a statement is resolved, the definitions that it hoists stand in the order in
which their temporaries are made, and everything written so far mentions no other
temporaries (`Orderly`).  A rule keeps this up: it hoists texts that are written
already, and writes no name of a temporary but that of what it hoists
(`ordered_applyRule`).  So a definition mentions only the temporaries defined in front
of it (`Chained`).

Nodes that were hoisted before are not below the statement; hence a temporary is
either new or defined in front of the statement already.
-/
import MatrixScript.Proofs.Translation.Leads
import MatrixScript.Proofs.Translation.Mentions

namespace MatrixScript

open Text

namespace Workspace

/-- Nothing is written, and no temporary is made or defined. -/
structure Idle (w w' : Workspace) : Prop where
  temporaries : w'.state.temporaries = w.state.temporaries
  pending : w'.state.pending = w.state.pending
  counters : w'.state.counters = w.state.counters
  rendered : ∀ i, (w'.tree.node i).rendered = (w.tree.node i).rendered

namespace Idle

variable {w w' w'' : Workspace}

theorem trans (h : w.Idle w') (k : w'.Idle w'') : w.Idle w'' :=
  ⟨k.temporaries.trans h.temporaries, k.pending.trans h.pending, k.counters.trans h.counters,
    fun i => (k.rendered i).trans (h.rendered i)⟩

theorem modifyNode (w : Workspace) (i : NodeId) {f : Node → Node}
    (rendered : ∀ n, (f n).rendered = n.rendered) : w.Idle (w.modifyNode i f) := by
  refine ⟨rfl, rfl, rfl, fun j => ?_⟩
  rw [Workspace.modifyNode, Tree.node_modify]
  split
  · exact rendered _
  · rfl

theorem record (w : Workspace) (x : String) (d : Datatype) :
    w.Idle { w with state := w.state.record x d } := by
  have same : ∀ {β : Type} (field : State → β), (∀ s scope suggestions,
      field { s with scope, suggestions } = field s) → field (w.state.record x d) = field w.state := by
    intro β field kept
    unfold State.record
    split
    · rfl
    · exact kept _ _ _
  exact ⟨same State.temporaries fun _ _ _ => rfl, same State.pending fun _ _ _ => rfl,
    same State.counters fun _ _ _ => rfl, fun _ => rfl⟩

/-- So are all effects but hoisting. -/
theorem perform (id : NodeId) (w : Workspace) {e : Effect} (other : e.hoisted? = none) :
    w.Idle (w.perform id e) := by
  cases e with
  | hoist => cases other
  | report | use | tic | toc => exact ⟨rfl, rfl, rfl, fun _ => rfl⟩
  | record x d => exact .record w x d
  | destination c d =>
    have typed := modifyNode w c (f := fun n => { n with suggest := some d, typing := .of d })
      fun _ => rfl
    show w.Idle (w.typeDestination c d)
    unfold typeDestination
    dsimp only
    split
    · exact typed.trans (.record _ _ d)
    · exact typed
  | redirect b =>
    show w.Idle (w.redirectParent id b)
    unfold redirectParent
    split
    · exact modifyNode w _ fun _ => rfl
    · exact ⟨rfl, rfl, rfl, fun _ => rfl⟩

theorem pushScope (w : Workspace) : w.Idle { w with state := w.state.pushScope } :=
  ⟨rfl, rfl, rfl, fun _ => rfl⟩

theorem popScope (w : Workspace) : w.Idle { w with state := w.state.popScope } := by
  unfold State.popScope
  split
  · exact ⟨rfl, rfl, rfl, fun _ => rfl⟩
  · exact ⟨rfl, rfl, rfl, fun _ => rfl⟩

theorem temporaryName (h : w.Idle w') (config : w'.state.config = w.state.config) (node : NodeId)
    (d : Datatype) : w'.state.temporaryName node d = w.state.temporaryName node d := by
  have next : w'.state.nextName d = w.state.nextName d := by
    rw [State.nextName_eq, State.nextName_eq, State.nextNumber, h.counters, config, State.nextNumber]
  rw [State.temporaryName, State.temporary?, h.temporaries, next, State.temporaryName,
    State.temporary?]

end Idle

end Workspace

/-- Texts that mention no temporaries but these. -/
abbrev State.mentions (s : State) (made : List Temporary) : Likeness :=
  MatrixScript.mentions s.config.tempStem (made.map (·.name))

theorem State.mentions_mono {s : State} {made : List Temporary} (more : List Temporary)
    {a a' : String} (h : (s.mentions made).Shows a a') : (s.mentions (made ++ more)).Shows a a' :=
  Mentions.shows_mono (fun x mem => by
    rw [List.map_append]
    exact List.mem_append_left _ mem) h

namespace Workspace

/-- The statement `top` is being resolved, with `s` remembered before it, and has made
these temporaries so far. -/
structure Orderly (t : Tree) (top : NodeId) (s : State) (made : List Temporary) (w : Workspace) :
    Prop where
  bare : w.tree.bare = t.bare
  lawful : w.tree.Lawful
  config : w.state.config = s.config
  numbered : w.state.Numbered
  temporaries : w.state.temporaries = s.temporaries ++ made
  pending : w.state.pending = made.map (·.definition)
  chained : Chained s.config.tempStem made
  texts : ∀ i, t.Below top i → (t.category i).isInline →
    (s.mentions made).Shows (w.tree.node i).text (w.tree.node i).text

namespace Orderly

variable {t : Tree} {top : NodeId} {s : State} {made : List Temporary} {w w' : Workspace}

theorem idle (h : Orderly t top s made w) (bare : w'.tree.bare = w.tree.bare)
    (lawful : w.tree.Lawful → w'.tree.Lawful) (config : w'.state.config = w.state.config)
    (idle : w.Idle w') : Orderly t top s made w' where
  bare := bare.trans h.bare
  lawful := lawful h.lawful
  config := config.trans h.config
  numbered := h.numbered.congr config idle.temporaries idle.counters
  temporaries := idle.temporaries.trans h.temporaries
  pending := idle.pending.trans h.pending
  chained := h.chained
  texts i below inline := by
    have text : (w'.tree.node i).text = (w.tree.node i).text := by
      rw [Node.text, idle.rendered, Node.text,
        show (w'.tree.node i).label = (w.tree.node i).label from
          Tree.field_of_bare bare Node.label (fun _ => rfl) i]
    rw [text]
    exact h.texts i below inline

/-- Resolving goes on in a scope of its own. -/
theorem pushScope (h : Orderly t top s made w) :
    Orderly t top s made { w with state := w.state.pushScope } :=
  h.idle rfl id rfl (.pushScope w)

theorem popScope (h : Orderly t top s made w) :
    Orderly t top s made { w with state := w.state.popScope } :=
  h.idle rfl id (State.grows_popScope _).config (.popScope w)

/-- No two temporaries have the same name. -/
theorem nodup_names (h : Orderly t top s made w) : (made.map (·.name)).Nodup := by
  have all := h.numbered.names
  rw [h.temporaries, List.map_append, List.nodup_append] at all
  exact all.2.1

/-- Something is written at one node. -/
theorem write (h : Orderly t top s made w) {id : NodeId} {f : Node → Node} {text : String}
    (bare : ∀ n, (f n).bare = n.bare) (redirect : ∀ n, (f n).redirect = n.redirect)
    (suggest : ∀ n, (f n).suggest = n.suggest) (written : ∀ n, (f n).text = text)
    (shows : (t.category id).isInline → (s.mentions made).Shows text text) :
    Orderly t top s made (w.modifyNode id f) := by
  have leads : w.Leads (fun _ => True) (w.modifyNode id f) :=
    .modifyNode bare redirect (.inr ⟨id, trivial, .inl rfl⟩) fun _ => suggest
  refine ⟨leads.bare.trans h.bare, leads.lawful h.lawful, h.config, h.numbered, h.temporaries,
    h.pending, h.chained, fun i below inline => ?_⟩
  rw [Workspace.modifyNode, Tree.node_modify]
  split
  case isTrue here =>
    obtain ⟨rfl, -⟩ := here
    rw [written]
    exact shows inline
  case isFalse => exact h.texts i below inline

/-- A new temporary is made. -/
theorem create (h : Orderly t top s made w) {node : NodeId} (new : w.state.temporary? node = none)
    {text : String} (shows : (s.mentions made).Shows text text) (d : Datatype) :
    Orderly t top s (made ++ [⟨node, w.state.nextName d,
      State.definition (w.state.nextName d) text d⟩]) { w with state := w.state.hoist node text d } := by
  have numbered := h.numbered.hoist node text d
  have name : w.state.nextName d = State.numbered s.config.tempStem d (w.state.nextNumber d) := by
    rw [State.nextName_eq, h.config]
  rw [State.hoist_of_new new] at numbered ⊢
  refine ⟨h.bare, h.lawful, h.config, numbered, ?_, ?_, .snoc h.chained name rfl shows,
    fun i below inline => State.mentions_mono _ (h.texts i below inline)⟩
  · show w.state.temporaries ++ _ = _
    rw [h.temporaries, List.append_assoc]
  · show w.state.pending ++ _ = _
    rw [h.pending, List.map_append]
    rfl

variable (stem : isIdentifier s.config.tempStem) (apart : ∀ e ∈ s.temporaries, ¬t.Below top e.node)
include stem

/-- A temporary is mentioned by its name. -/
theorem shows_name (h : Orderly t top s made w) {e : Temporary} (mem : e ∈ made) :
    (s.mentions made).Shows e.name e.name := by
  obtain ⟨d, n, name⟩ := h.chained.exists_numbered mem
  have there : e.name ∈ made.map (·.name) := List.mem_map_of_mem mem
  rw [name] at there ⊢
  exact Mentions.shows_numbered stem there

include apart

/-- A node of the statement goes into a temporary. -/
theorem hoist (h : Orderly t top s made w) {node : NodeId} (below : t.Below top node)
    {text : String} (shows : (s.mentions made).Shows text text) (d : Datatype) : ∃ more,
    Orderly t top s (made ++ more) (w.hoist node text d)
      ∧ (s.mentions (made ++ more)).Shows (w.state.temporaryName node d)
        (w.state.temporaryName node d) := by
  cases found : w.state.temporary? node with
  | none =>
    have created := h.create found shows d
    have named := created.shows_name stem (List.mem_append_right made List.mem_cons_self)
    have name : w.state.temporaryName node d = w.state.nextName d := by
      rw [State.temporaryName, found]
    refine ⟨[⟨node, w.state.nextName d, State.definition (w.state.nextName d) text d⟩], ?_, ?_⟩
    · rw [Workspace.hoist, name]
      exact created.write (fun _ => rfl) (fun _ => rfl) (fun _ => rfl) (fun _ => rfl) fun _ => named
    · rw [name]
      exact named
  | some e =>
    have name : w.state.temporaryName node d = e.name := by
      rw [State.temporaryName, found]
    obtain ⟨all, here⟩ := State.mem_of_temporary? found
    have mem : e ∈ made := by
      rw [h.temporaries] at all
      exact (List.mem_append.mp all).resolve_left fun old => apart e old (here ▸ below)
    have kept : w.state.hoist node text d = w.state := by
      have defined : e.definition ∈ w.state.pending := by
        rw [h.pending]
        exact List.mem_map_of_mem mem
      rw [State.hoist, found]
      exact if_pos defined
    have named := h.shows_name stem mem
    refine ⟨[], ?_⟩
    rw [List.append_nil, name, Workspace.hoist, kept, name]
    exact ⟨h.write (fun _ => rfl) (fun _ => rfl) (fun _ => rfl) (fun _ => rfl) fun _ => named, named⟩

/-! ### Rules -/

/-- All effects of a rule, which hoist only what is written already; what is hoisted first
has a name that is known in the end. -/
theorem performAll (h : Orderly t top s made w) (wf : t.WellFormed) {id : NodeId}
    (below : t.Below top id) {es : List Effect} (lawful : ∀ e ∈ es, e.Lawful t id)
    (written : ∀ node text d, Effect.hoist node text d ∈ es → (s.mentions made).Shows text text) :
    ∃ more, Orderly t top s (made ++ more) (es.foldl (perform id) w)
      ∧ ∀ node d, es.findSome? Effect.hoisted? = some (node, d) →
        (s.mentions (made ++ more)).Shows (w.state.temporaryName node d)
          (w.state.temporaryName node d) := by
  induction es generalizing made w with
  | nil =>
    refine ⟨[], ?_, nofun⟩
    rw [List.append_nil]
    exact h
  | cons e es ih =>
    obtain ⟨here, there⟩ := List.forall_mem_cons.mp lawful
    have leads := leads_perform wf h.bare here
    cases hoisted : e.hoisted? with
    | none =>
      have idle := Idle.perform id w hoisted
      obtain ⟨more, orderly, names⟩ := ih
        (h.idle leads.bare leads.lawful leads.grows.config idle) there
        fun node text d mem => written node text d (List.mem_cons_of_mem _ mem)
      refine ⟨more, orderly, fun node d found => ?_⟩
      rw [List.findSome?_cons, hoisted] at found
      rw [← idle.temporaryName leads.grows.config]
      exact names node d found
    | some pair =>
      cases e with
      | hoist node text d =>
        have shows := written node text d List.mem_cons_self
        obtain ⟨more, orderly, name⟩ := h.hoist stem apart (below.reaches wf here) shows d
        obtain ⟨more', orderly', -⟩ := ih orderly there
          fun node text d mem => State.mentions_mono _ (written node text d (List.mem_cons_of_mem _ mem))
        refine ⟨more ++ more', ?_, fun node d found => ?_⟩
        · rw [← List.append_assoc]
          exact orderly'
        · rw [List.findSome?_cons] at found
          cases found
          rw [← List.append_assoc]
          exact State.mentions_mono _ name
      | _ => cases hoisted

end Orderly

/-- A result says nothing of temporaries but these, and an error says nothing of any. -/
def Tells (t : Tree) (L : Likeness) (c : Category) : Except Error String → Prop
  | .ok text => L.Writes c text text
  | .error e => e.Speaks t

section

variable {t : Tree} (wf : t.WellFormed) {s : State} (stem : isIdentifier s.config.tempStem)
  (spelt : ∀ made, t.Spelt (s.mentions made)) {top : NodeId}
  (apart : ∀ e ∈ s.temporaries, ¬t.Below top e.node)
  (outer : ∀ g, t.group? top = some g → t.category g ≠ .assign)
include wf stem spelt apart outer

/-- The rule of a node of the statement. -/
theorem Orderly.applyRule {made : List Temporary} {w : Workspace} (h : Orderly t top s made w)
    {id : NodeId} (below : t.Below top id) (lt : id < t.size) (block : t.category id ≠ .block)
    (function : t.category id ≠ .function) {found : List String}
    (lengths : found.length = (t.children id).length)
    (shows : List.Forall₂ (s.mentions made).Shows found found)
    (spells : t.Spells (t.children id) found) : ∃ more,
    Orderly t top s (made ++ more) (Resolving.applyRule id found w).2
      ∧ Tells t (s.mentions (made ++ more)) (t.category id) (Resolving.applyRule id found w).1 := by
  have leads : w.Leads (fun _ => True) (w.seed id) := leads_seed w id
  have seeded := h.idle leads.bare leads.lawful leads.grows.config (.modifyNode w id fun _ => rfl)
  have same := seeded.bare
  have category : ((w.seed id).site id found).node.category = t.category id :=
    congrFun (Tree.category_of_bare same) id
  have ids : ∀ i, (w.seed id).tree.children i = t.children i :=
    congrFun (Tree.children_of_bare same)
  -- the site is like itself whatever else is made
  have alike : ∀ more, ((w.seed id).site id found).Alike (s.mentions (made ++ more)) False
      ((w.seed id).site id found) := by
    intro more
    have written : ∀ i, t.Below top i → (t.category i).isInline → (s.mentions (made ++ more)).Shows
        ((w.seed id).tree.node i).text ((w.seed id).tree.node i).text :=
      fun i below inline => State.mentions_mono more (seeded.texts i below inline)
    refine alike_self (wf.of_bare same) ((spelt _).of_bare same) seeded.lawful
      (by rwa [Tree.size_of_bare same]) (by rwa [ids]) (fun c mem => ?_)
      (shows.imp fun _ _ => State.mentions_mono more) (by rw [ids]; exact spells.of_bare same) ?_
    · rw [ids] at mem ⊢
      have inline := wf.isInline_child block function mem
      have here := below.trans (wf.below_of_mem mem)
      exact ⟨written c here inline, fun g child =>
        written g (here.trans (wf.below_of_mem child)) (wf.isInline_below inline child)⟩
    · refine Tree.Near.of_bare same fun _ g group assign d head => ⟨rfl, ?_⟩
      have mem := List.mem_of_mem_head? head
      rcases wf.below_group below group with under | around
      · exact written d (under.trans (wf.below_of_mem mem))
          (wf.isInline_child (by rw [assign]; decide) (by rw [assign]; decide) mem)
      · exact absurd assign (outer g around)
  have agrees : ∀ more, Agrees (s.mentions (made ++ more)) False ((w.seed id).site id found)
      ((w.seed id).site id found) ((s.mentions (made ++ more)).Writes (t.category id))
      ((w.seed id).answer id found) ((w.seed id).answer id found) := by
    intro more
    have agrees := Rule.select_agrees (alike more) (category ▸ function) (category ▸ block)
    rw [category] at agrees
    exact agrees
  have lawful : ∀ o, (w.seed id).answer id found = .ok o → ∀ e ∈ o.effects, e.Lawful t id :=
    fun o ok => lawful_answer wf same seeded.lawful lt block lengths (fun _ => spells) ok
  rw [applyRule_eq]
  generalize (w.seed id).answer id found = answer at agrees lawful
  cases answer with
  | error e =>
    refine ⟨[], by rw [List.append_nil]; exact seeded, ?_⟩
    cases agrees [] with
    | fails speaks => exact speaks.of_bare same.symm
  | ok o =>
    have effects : ∀ e ∈ o.effects, e.Alike (s.mentions made) ((w.seed id).site id found) e := by
      have first := agrees []
      rw [List.append_nil] at first
      cases first with
      | answers _ effects _ => exact effects.alike_self
    obtain ⟨more, orderly, names⟩ := seeded.performAll stem apart wf below (lawful o rfl)
      fun node text d mem => by
        cases effects _ mem with
        | hoist _ shows => exact shows
    have writes : (s.mentions (made ++ more)).Writes (t.category id)
        ((w.seed id).textOf id found o) ((w.seed id).textOf id found o) := by
      rw [textOf_eq _ (by rwa [ids])]
      cases agrees more with
      | answers _ _ written => exact written names
    refine ⟨more, orderly.write (fun _ => rfl) (fun _ => rfl) (fun _ => rfl) (fun _ => rfl)
      fun inline => ?_, writes⟩
    rwa [Likeness.Writes, if_pos inline] at writes

end

end Workspace

/-! ## The nodes of a statement -/

namespace Resolving

open Workspace

variable {t : Tree} {s : State} {top : NodeId} {resolve : NodeId → Resolving String}

/-- Resolving the node `id` keeps the temporaries of the statement in order. -/
def Ordered (t : Tree) (top : NodeId) (s : State) (id : NodeId) (step : Resolving String) : Prop :=
  ∀ {made : List Temporary} {w : Workspace}, Orderly t top s made w → ∃ more,
    Orderly t top s (made ++ more) (step w).2
      ∧ Tells t (s.mentions (made ++ more)) (t.category id) (step w).1

/-- Texts tell of no temporaries but these, and an error of none. -/
def TellsAll (t : Tree) (L : Likeness) : Except Error (List String) → Prop
  | .ok found => List.Forall₂ L.Shows found found
  | .error e => e.Speaks t

theorem orderly_texts : ∀ {ids : List NodeId} {made : List Temporary} {w : Workspace},
    (∀ c ∈ ids, Ordered t top s c (resolve c)) → (∀ c ∈ ids, (t.category c).isInline) →
    Orderly t top s made w → ∃ more, Orderly t top s (made ++ more) (texts resolve ids w).2
      ∧ TellsAll t (s.mentions (made ++ more)) (texts resolve ids w).1
  | [], made, w, _, _, h => ⟨[], by rw [List.append_nil]; exact h, .nil⟩
  | c :: ids, made, w, ordered, inline, h => by
    obtain ⟨orderedHere, orderedThere⟩ := List.forall_mem_cons.mp ordered
    obtain ⟨inlineHere, inlineThere⟩ := List.forall_mem_cons.mp inline
    obtain ⟨more, first, tells⟩ := orderedHere h
    unfold texts
    generalize resolve c w = result at first tells
    obtain ⟨answer, w₁⟩ := result
    cases answer with
    | error e => exact ⟨more, first, tells⟩
    | ok text =>
      obtain ⟨more', rest, others⟩ := orderly_texts orderedThere inlineThere first
      have shows : (s.mentions (made ++ more)).Shows text text := by
        rwa [Tells, Likeness.Writes, if_pos inlineHere] at tells
      refine ⟨more ++ more', ?_⟩
      rw [← List.append_assoc]
      dsimp only
      generalize texts resolve ids w₁ = results at rest others
      obtain ⟨answers, w₂⟩ := results
      cases answers with
      | error e => exact ⟨rest, others⟩
      | ok found => exact ⟨rest, .cons (State.mentions_mono more' shows) others⟩

section

variable (wf : t.WellFormed) (stem : isIdentifier s.config.tempStem)
  (spelt : ∀ made, t.Spelt (s.mentions made)) (apart : ∀ e ∈ s.temporaries, ¬t.Below top e.node)
  (outer : ∀ g, t.group? top = some g → t.category g ≠ .assign)
include wf stem spelt apart outer

theorem ordered_node {id : NodeId} (below : t.Below top id) (lt : id < t.size)
    (block : t.category id ≠ .block) (function : t.category id ≠ .function)
    (steady : ∀ c ∈ t.children id, Steady t c (resolve c))
    (ordered : ∀ c ∈ t.children id, Ordered t top s c (resolve c)) :
    Ordered t top s id (node resolve id) := by
  intro made w h
  have walk := steady_texts (w := w) steady h.bare h.lawful
  obtain ⟨more, orderly, tells⟩ := orderly_texts ordered
    (fun c => wf.isInline_child block function) h
  unfold node
  rw [Tree.children_of_bare h.bare]
  cases results : texts resolve (t.children id) w with
  | mk answers w₁ =>
  rw [results] at walk orderly tells
  cases answers with
  | error e => exact ⟨more, orderly, tells⟩
  | ok found =>
    obtain ⟨more', orderly', tells'⟩ := orderly.applyRule wf stem spelt apart outer below lt block
      function (length_of_texts results) tells (walk.2 found rfl)
    exact ⟨more ++ more', by rw [← List.append_assoc]; exact ⟨orderly', tells'⟩⟩

/-- Whatever is below a statement keeps its temporaries in order, unless there are statements
below that in turn. -/
theorem ordered_resolveWithin (depth : Nat) {id : NodeId} (below : t.Below top id)
    (lt : id < t.size) (block : t.category id ≠ .block) (function : t.category id ≠ .function) :
    Ordered t top s id (resolveWithin depth id) := by
  induction depth generalizing id with
  | zero => exact fun h => ⟨[], by rw [List.append_nil]; exact h, fun L _ => .word L _ rfl⟩
  | succ depth ih =>
    intro made w h
    have node := ordered_node wf stem spelt apart outer below lt block function
      (fun c mem => steady_resolveWithin wf depth (wf.bound id c mem))
      (fun c mem => by
        obtain ⟨block', function'⟩ := Category.ne_of_isInline (wf.isInline_child block function mem)
        exact ih (below.trans (wf.below_of_mem mem)) (wf.bound id c mem) block' function') h
    have category : (w.tree.node id).category = t.category id :=
      congrFun (Tree.category_of_bare h.bare) id
    unfold resolveWithin
    rw [category]
    split
    · exact absurd ‹_› block
    · exact absurd ‹_› function
    · exact node

end

end Resolving

end MatrixScript
