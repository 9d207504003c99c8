/-
# `Proofs.Translation.Frame` — what resolving a node leaves alone

Translating is defined by what it ends in.  Its moments are the workspaces on the way
there, one after every single change: a node is given the typing to start from, an
effect of its rule takes place, its typing and its text are written, a scope is opened
or closed, the definitions of a statement are set aside, a failure is reported.  They
follow the definition of the translation, and the last one is what it ends in
(`last_momentsWithin`, `last_momentsOfRoot`).

What every step of a translation keeps holds at every moment of it and after all of it
(`Resolving.stable_momentsWithin`).  There are five kinds of steps (`Resolving.Stable`):
the bookkeeping around statements, a scope that is opened or closed, a node that is given
the typing to start from, an effect of its rule, and the typing and the text that the rule
gives it.  Of the last two all that counts is what every rule keeps to (`Settled`).

The first thing that is kept is everything that stands elsewhere.  Resolving a node
fills in slots below it (`Tree.Spares`), and may redirect the assignment above it;
whatever the slots of the tree hold before, and whatever is remembered.
-/
import MatrixScript.Proofs.Rule.BuiltinSettled
import MatrixScript.Proofs.Translation.Leads
import MatrixScript.Translator

namespace MatrixScript

namespace Resolving

/-! ## Moments -/

section Nodes

variable (resolve : NodeId → Resolving String) (moments : NodeId → Workspace → List Workspace)

/-- Moments of resolving nodes from left to right, up to the first error. -/
def momentsOfTexts : List NodeId → Workspace → List Workspace
  | [], _ => []
  | id :: ids, w =>
      moments id w ++ match resolve id w with
        | (.error _, _) => []
        | (.ok _, after) => momentsOfTexts ids after

/-- Moments of applying the rule of a node whose children have the given texts. -/
def momentsOfRule (id : NodeId) (texts : List String) (w : Workspace) : List Workspace :=
  let w := w.seed id
  match Rule.select w.tree (w.tree.node id) (w.site id texts) with
  | .error _ => [w]
  | .ok outcome =>
      outcome.effects.scanl (Workspace.perform id) w ++ [w.commit id texts outcome]

/-- Moments of resolving a node after its children. -/
def momentsOfNode (id : NodeId) (w : Workspace) : List Workspace :=
  momentsOfTexts resolve moments (w.tree.children id) w ++
    match texts resolve (w.tree.children id) w with
    | (.error _, _) => []
    | (.ok found, after) => momentsOfRule id found after

/-- Moments of a statement. -/
def momentsOfStatement (id : NodeId) (w : Workspace) : List Workspace :=
  let start := { w with state := w.state.withPending [] }
  let after := (resolve id start).2
  [start] ++ moments id start ++
    [{ after with state := after.state.withPending w.state.pending },
      (statementLines resolve id w).2]

/-- Moments of several statements. -/
def momentsOfBlock : List NodeId → Workspace → List Workspace
  | [], _ => []
  | id :: ids, w =>
      momentsOfStatement resolve moments id w ++ momentsOfBlock ids (statementLines resolve id w).2

/-- Moments of something in a scope of its own. -/
def momentsInScope (step : Resolving String) (within : Workspace → List Workspace)
    (w : Workspace) : List Workspace :=
  let start := { w with state := w.state.pushScope }
  [start] ++ within start ++ [(inScope step w).2]

end Nodes

/-- Moments of resolving a node less than `depth` levels above its deepest descendant. -/
def momentsWithin : Nat → NodeId → Workspace → List Workspace
  | 0, _, _ => []
  | depth + 1, id, w =>
      match (w.tree.node id).category with
      | .block => momentsOfBlock (resolveWithin depth) (momentsWithin depth) (w.tree.children id) w
      | .function =>
          momentsInScope (node (resolveWithin depth) id)
            (momentsOfNode (resolveWithin depth) (momentsWithin depth) id) w
      | _ => momentsOfNode (resolveWithin depth) (momentsWithin depth) id w

/-- Moments of the root of a tree. -/
def momentsOfRoot (w : Workspace) : List Workspace :=
  match w.tree.root with
  | none => []
  | some root =>
      let below := resolveWithin (w.tree.size + 1)
      let moments := momentsWithin (w.tree.size + 1)
      match (w.tree.node root).category with
      | .block => momentsOfBlock below moments (w.tree.children root) w
      | _ => momentsOfStatement below moments root w

/-! ## The last moment -/

theorem getLastD_append {α : Type} (l l' : List α) (a : α) :
    (l ++ l').getLastD a = l'.getLastD (l.getLastD a) := by
  cases l' with
  | nil => rw [List.append_nil]; rfl
  | cons b l' => simp [List.getLastD_eq_getLast?, List.getLast?_append]

/-- The last moment is what the step ends in. -/
def EndsIn {α : Type} (step : Resolving α) (moments : Workspace → List Workspace) : Prop :=
  ∀ w, (moments w).getLastD w = (step w).2

section Nodes

variable {resolve : NodeId → Resolving String} {moments : NodeId → Workspace → List Workspace}

theorem endsIn_rule (id : NodeId) (found : List String) :
    EndsIn (applyRule id found) (momentsOfRule id found) := by
  intro w
  unfold momentsOfRule applyRule
  dsimp only
  cases Rule.select (w.seed id).tree ((w.seed id).tree.node id) ((w.seed id).site id found) with
  | error e => rfl
  | ok outcome =>
    dsimp only
    rw [getLastD_append]
    rfl

variable (ends : ∀ id, EndsIn (resolve id) (moments id))
include ends

theorem endsIn_texts :
    (ids : List NodeId) → EndsIn (texts resolve ids) (momentsOfTexts resolve moments ids)
  | [], _ => rfl
  | id :: ids, w => by
      rw [momentsOfTexts, getLastD_append, ends id w, texts]
      cases run : resolve id w with
      | mk answer after =>
        cases answer with
        | error e => rfl
        | ok text =>
          dsimp only
          rw [endsIn_texts ids after]
          split <;> simp_all

theorem endsIn_node (id : NodeId) : EndsIn (node resolve id) (momentsOfNode resolve moments id) := by
  intro w
  rw [momentsOfNode, getLastD_append, endsIn_texts ends, node]
  cases texts resolve (w.tree.children id) w with
  | mk answer after =>
    cases answer with
    | error e => rfl
    | ok found => exact endsIn_rule id found after

omit ends in
theorem last_momentsOfStatement (id : NodeId) (w : Workspace) :
    (momentsOfStatement resolve moments id w).getLastD w = (statementLines resolve id w).2 := by
  unfold momentsOfStatement
  dsimp only
  rw [getLastD_append]
  rfl

omit ends in
theorem last_momentsOfBlock :
    (ids : List NodeId) → (w : Workspace) →
      (momentsOfBlock resolve moments ids w).getLastD w = (blockLines resolve ids w).2
  | [], _ => rfl
  | id :: ids, w => by
      rw [momentsOfBlock, getLastD_append, last_momentsOfStatement, last_momentsOfBlock ids]
      rfl

end Nodes

/-- The last moment is the workspace that resolving the node leaves. -/
theorem last_momentsWithin :
    (depth : Nat) → (id : NodeId) → EndsIn (resolveWithin depth id) (momentsWithin depth id)
  | 0, _, _ => rfl
  | depth + 1, id, w => by
      unfold momentsWithin resolveWithin
      generalize (w.tree.node id).category = category
      cases category
      case block => exact last_momentsOfBlock _ w
      case function =>
        unfold momentsInScope
        dsimp only
        rw [getLastD_append]
        rfl
      all_goals exact endsIn_node (last_momentsWithin depth) id w

/-- The last moment is the workspace that translating the tree leaves. -/
theorem last_momentsOfRoot (w : Workspace) :
    (momentsOfRoot w).getLastD w = (rootLines w).2 := by
  unfold momentsOfRoot rootLines
  cases w.tree.root with
  | none => rfl
  | some root =>
    dsimp only
    generalize (w.tree.node root).category = category
    cases category
    case block => exact last_momentsOfBlock _ w
    all_goals exact last_momentsOfStatement root w

end Resolving

/-! ## Steps -/

namespace Workspace

variable {t : Tree} (wf : t.WellFormed) {w : Workspace} (same : w.tree.bare = t.bare)
include wf same

/-- A node that has been given its typing to start from, before its rule is asked. -/
theorem seeded_site {id : NodeId} {texts : List String}
    (lengths : texts.length = (t.children id).length) : ((w.seed id).site id texts).Seeded where
  ids := by
    have bare : (w.seed id).tree.bare = t.bare := (w.bare_seed id).trans same
    exact (w.seed id).ids_site (by rw [Tree.children_of_bare bare, lengths])
  node o mem := (mem_children_of_operand mem).2
  seed := by
    have apart : ∀ c ∈ t.children id, c ≠ id := fun c mem eq =>
      wf.not_below_child mem (eq ▸ t.below_self c)
    have children : (w.tree.node id).children = t.children id := congrFun (Tree.children_of_bare same) id
    have kept : seedTyping (w.seed id).tree (w.tree.node id) = seedTyping w.tree (w.tree.node id) := by
      have nodes : (w.tree.node id).children.map (w.seed id).tree.node
          = (w.tree.node id).children.map w.tree.node := by
        refine List.map_congr_left fun c mem => ?_
        rw [children] at mem
        exact Tree.node_modify_of_ne (apart c mem) _
      unfold seedTyping
      dsimp only
      rw [nodes]
    show ((w.seed id).tree.node id).typing = seedTyping (w.seed id).tree ((w.seed id).tree.node id)
    rw [seed, modifyNode, Tree.node_modify]
    split
    case isTrue => exact kept.symm
    case isFalse out =>
      -- there is no such node, so nothing is changed
      have blank : w.tree.node id = default :=
        Tree.node_of_size_le (Nat.le_of_not_lt fun lt => out ⟨rfl, lt⟩)
      rw [blank]
      rfl

end Workspace

namespace Resolving

variable {t : Tree} {P : NodeId → Prop} {I : Workspace → Prop}

/-- `I` is kept by every step of resolving nodes with `P`. -/
structure Stable (t : Tree) (P : NodeId → Prop) (I : Workspace → Prop) : Prop where
  children : ∀ id, P id → ∀ c ∈ t.children id, P c
  bare : ∀ w, I w → w.tree.bare = t.bare
  state : ∀ w s, I w → s.config = w.state.config → s.scope = w.state.scope →
    s.outer = w.state.outer → s.suggestions = w.state.suggestions → I { w with state := s }
  opened : ∀ w, I w → I { w with state := w.state.pushScope }
  closed : ∀ w, I w → I { w with state := w.state.popScope }
  seed : ∀ id w, P id → I w → I (w.seed id)
  effect : ∀ (s : Site) (v : Workspace) (e : Effect), P s.id → I ⟨s.tree, s.state⟩ → s.Seeded →
    e.Modest s → I v → I (v.perform s.id e)
  write : ∀ (s : Site) (v : Workspace) (o : Outcome) (text : String), P s.id →
    I ⟨s.tree, s.state⟩ → s.Seeded → o.Settled s → I v →
    I (v.modifyNode s.id fun n => { n with typing := o.typing, rendered := some text })

/-- What holds to begin with and at every moment holds in the end. -/
theorem EndsIn.holds {α : Type} {step : Resolving α} {moments : Workspace → List Workspace}
    (ends : EndsIn step moments) {w : Workspace} (start : I w) (all : ∀ m ∈ moments w, I m) :
    I (step w).2 := by
  rw [← ends w]
  exact List.forall_mem_cons.mpr ⟨start, all⟩ _ List.getLastD_mem_cons

namespace Stable

variable (h : Stable t P I) (wf : t.WellFormed)
include h

/-- What effects keep holds after each of them. -/
theorem performs {s : Site} (here : P s.id) (site : I ⟨s.tree, s.state⟩) (seeded : s.Seeded)
    {es : List Effect} (modest : ∀ e ∈ es, e.Modest s) {v : Workspace} (holds : I v) :
    (∀ m ∈ es.scanl (Workspace.perform s.id) v, I m)
      ∧ I (es.foldl (Workspace.perform s.id) v) := by
  induction es generalizing v with
  | nil => exact ⟨List.forall_mem_singleton.mpr holds, holds⟩
  | cons e es ih =>
    obtain ⟨first, rest⟩ := List.forall_mem_cons.mp modest
    obtain ⟨later, last⟩ := ih rest (h.effect s v e here site seeded first holds)
    rw [List.scanl_cons]
    exact ⟨List.forall_mem_cons.mpr ⟨holds, later⟩, last⟩

include wf

theorem rule {id : NodeId} (here : P id) {texts : List String} {w : Workspace} (holds : I w)
    (lengths : texts.length = (t.children id).length) : ∀ m ∈ momentsOfRule id texts w, I m := by
  have seeded := h.seed id w here holds
  have site := Workspace.seeded_site wf (h.bare w holds) lengths
  have answer := Rule.select_settles site
  unfold momentsOfRule
  dsimp only
  change Settles ((w.seed id).site id texts) (Rule.select (w.seed id).tree ((w.seed id).tree.node id)
    ((w.seed id).site id texts)) at answer
  split
  case h_1 => exact List.forall_mem_singleton.mpr seeded
  case h_2 o ok =>
    rw [ok] at answer
    obtain ⟨each, all⟩ := h.performs (s := (w.seed id).site id texts) here seeded site
      answer.effects seeded
    refine List.forall_mem_append.mpr ⟨each, List.forall_mem_singleton.mpr ?_⟩
    exact h.write ((w.seed id).site id texts) _ o _ here seeded site answer all

variable {resolve : NodeId → Resolving String} {moments : NodeId → Workspace → List Workspace}
  (ends : ∀ id, EndsIn (resolve id) (moments id))
  (step : ∀ id, P id → ∀ w, I w → ∀ m ∈ moments id w, I m)
include ends step

omit h wf in
theorem texts {ids : List NodeId} (all : ∀ c ∈ ids, P c) {w : Workspace} (holds : I w) :
    ∀ m ∈ momentsOfTexts resolve moments ids w, I m := by
  induction ids generalizing w with
  | nil => exact nofun
  | cons c ids ih =>
    obtain ⟨here, there⟩ := List.forall_mem_cons.mp all
    have each := step c here w holds
    have first := (ends c).holds holds each
    unfold momentsOfTexts
    refine List.forall_mem_append.mpr ⟨each, ?_⟩
    split
    · exact nofun
    case h_2 after result =>
      rw [result] at first
      exact ih there first

theorem node {id : NodeId} (here : P id) {w : Workspace} (holds : I w) :
    ∀ m ∈ momentsOfNode resolve moments id w, I m := by
  have same := h.bare w holds
  have each := texts ends step (h.children id here) holds
  have children := (endsIn_texts ends (t.children id)).holds holds each
  unfold momentsOfNode
  rw [Tree.children_of_bare same]
  refine List.forall_mem_append.mpr ⟨each, ?_⟩
  split
  · exact nofun
  case h_2 found after result =>
    rw [result] at children
    exact h.rule wf here children (length_of_texts result)

omit wf in
theorem statement {id : NodeId} (here : P id) {w : Workspace} (holds : I w) :
    ∀ m ∈ momentsOfStatement resolve moments id w, I m := by
  have start := h.state w (w.state.withPending []) holds rfl rfl rfl rfl
  have each := step id here _ start
  have after := (ends id).holds start each
  have restored := h.state _ ((resolve id { w with state := w.state.withPending [] }).2.state.withPending
    w.state.pending) after rfl rfl rfl rfl
  unfold momentsOfStatement
  refine List.forall_mem_append.mpr ⟨List.forall_mem_cons.mpr ⟨start, each⟩,
    List.forall_mem_cons.mpr ⟨restored, List.forall_mem_singleton.mpr ?_⟩⟩
  unfold statementLines
  dsimp only
  split
  · exact restored
  · exact h.state _ _ after rfl rfl rfl rfl

omit wf in
theorem block {ids : List NodeId} (all : ∀ c ∈ ids, P c) {w : Workspace} (holds : I w) :
    ∀ m ∈ momentsOfBlock resolve moments ids w, I m := by
  induction ids generalizing w with
  | nil => exact nofun
  | cons c ids ih =>
    obtain ⟨here, there⟩ := List.forall_mem_cons.mp all
    have each := h.statement ends step here holds
    have first : I (statementLines resolve c w).2 := by
      have last : (momentsOfStatement resolve moments c w).getLastD w
          = (statementLines resolve c w).2 := last_momentsOfStatement c w
      rw [← last]
      exact List.forall_mem_cons.mpr ⟨holds, each⟩ _ List.getLastD_mem_cons
    exact List.forall_mem_append.mpr ⟨each, ih there first⟩

end Stable

variable (h : Stable t P I) (wf : t.WellFormed)
include h wf

/-- What every step keeps holds at every moment. -/
theorem stable_momentsWithin (depth : Nat) :
    ∀ id, P id → ∀ w, I w → ∀ m ∈ momentsWithin depth id w, I m := by
  induction depth with
  | zero => exact fun _ _ _ _ => nofun
  | succ depth ih =>
    intro id here w holds
    have same := h.bare w holds
    have ends := last_momentsWithin depth
    unfold momentsWithin
    split
    · rw [Tree.children_of_bare same]
      exact h.block ends ih (h.children id here) holds
    · have start := h.opened w holds
      have each := h.node wf ends ih here start
      have after := (endsIn_node ends id).holds start each
      exact List.forall_mem_append.mpr ⟨List.forall_mem_cons.mpr ⟨start, each⟩,
        List.forall_mem_singleton.mpr (h.closed _ after)⟩
    · exact h.node wf ends ih here holds

theorem stable_momentsOfRoot (top : ∀ root ∈ t.root, P root) {w : Workspace} (holds : I w) :
    ∀ m ∈ momentsOfRoot w, I m := by
  have same := h.bare w holds
  obtain ⟨root, hroot, -, category, -⟩ := wf.root
  have block : (w.tree.node root).category = .block :=
    (congrFun (Tree.category_of_bare same) root).trans category
  unfold momentsOfRoot
  rw [Tree.root_of_bare same, hroot]
  dsimp only
  rw [block, Tree.children_of_bare same]
  exact h.block (last_momentsWithin _) (stable_momentsWithin h wf _)
    (h.children root (top root hroot)) holds

/-- What every step keeps holds after all of them. -/
theorem stable_resolveWithin (depth : Nat) (id : NodeId) (here : P id) (w : Workspace)
    (holds : I w) : I (resolveWithin depth id w).2 :=
  (last_momentsWithin depth id).holds holds (stable_momentsWithin h wf depth id here w holds)

theorem stable_rootLines (top : ∀ root ∈ t.root, P root) {w : Workspace} (holds : I w) :
    I (rootLines w).2 := by
  rw [← last_momentsOfRoot]
  exact List.forall_mem_cons.mpr ⟨holds, stable_momentsOfRoot h wf top holds⟩ _
    List.getLastD_mem_cons

end Resolving

/-! ## Elsewhere -/

namespace Tree

theorem Below.of_bare {t t' : Tree} (same : t'.bare = t.bare) {top i : NodeId}
    (h : t.Below top i) : t'.Below top i := by
  obtain ⟨n, climbs⟩ := h
  exact ⟨n, climbs.mono fun _ _ up => by rwa [parent?_of_bare same]⟩

/-- What is filled in elsewhere than below `top` is the same in `v`, but for the
redirection of the node above. -/
structure Spares (t : Tree) (top : NodeId) (v : Tree) : Prop where
  bare : v.bare = t.bare
  typing : ∀ i, ¬t.Below top i → (v.node i).typing = (t.node i).typing
  suggest : ∀ i, ¬t.Below top i → (v.node i).suggest = (t.node i).suggest
  rendered : ∀ i, ¬t.Below top i → (v.node i).rendered = (t.node i).rendered
  redirect : ∀ i, ¬t.Below top i → t.parent? top ≠ some i →
    (v.node i).redirect = (t.node i).redirect

namespace Spares

variable {t v : Tree} {top i : NodeId} {f : Node → Node}

theorem refl (t : Tree) (top : NodeId) : t.Spares top t :=
  ⟨rfl, fun _ _ => rfl, fun _ _ => rfl, fun _ _ => rfl, fun _ _ _ => rfl⟩

/-- A node below is changed. -/
theorem modify (h : t.Spares top v) (below : t.Below top i) (bare : ∀ n, (f n).bare = n.bare) :
    t.Spares top (v.modify i f) := by
  have elsewhere : ∀ j, ¬t.Below top j → (v.modify i f).node j = v.node j := by
    intro j apart
    refine node_modify_of_ne ?_ f
    rintro rfl
    exact apart below
  refine ⟨(bare_modify bare v i).trans h.bare, fun j apart => ?_, fun j apart => ?_,
    fun j apart => ?_, fun j apart above => ?_⟩
  · rw [elsewhere j apart, h.typing j apart]
  · rw [elsewhere j apart, h.suggest j apart]
  · rw [elsewhere j apart, h.rendered j apart]
  · rw [elsewhere j apart, h.redirect j apart above]

/-- The node above is redirected. -/
theorem redirected (h : t.Spares top v) {p : NodeId} (up : t.parent? top = some p)
    (b : Builtin) : t.Spares top (v.modify p fun n => { n with redirect := some b }) := by
  have kept : ∀ {β : Type} (field : Node → β), (∀ n, field { n with redirect := some b } = field n) →
      ∀ j, field ((v.modify p fun n => { n with redirect := some b }).node j) = field (v.node j) :=
    fun field same => field_modify field same v p
  refine ⟨(bare_modify (fun _ => by rfl) v p).trans h.bare, fun j apart => ?_, fun j apart => ?_,
    fun j apart => ?_, fun j apart above => ?_⟩
  · rw [kept Node.typing fun _ => rfl, h.typing j apart]
  · rw [kept Node.suggest fun _ => rfl, h.suggest j apart]
  · rw [kept Node.rendered fun _ => rfl, h.rendered j apart]
  · rw [node_modify_of_ne, h.redirect j apart above]
    rintro rfl
    exact above up

/-- What is above a node below `top` is below that too, or above it. -/
theorem redirectParent (h : t.Spares top v) (below : t.Below top i) (b : Builtin) (s : State) :
    t.Spares top (Workspace.redirectParent ⟨v, s⟩ i b).tree := by
  unfold Workspace.redirectParent
  split
  case h_2 => exact h
  case h_1 p up =>
    replace up : t.parent? i = some p := by rwa [← parent?_of_bare h.bare]
    obtain ⟨n, climbs⟩ := below
    cases climbs with
    | here => exact h.redirected up b
    | step up' rest =>
      obtain rfl := Option.some.inj (up.symm.trans up')
      exact h.modify ⟨_, rest⟩ fun _ => by rfl

end Spares

end Tree

namespace Resolving

variable {t : Tree} (wf : t.WellFormed) (top : NodeId)
include wf

/-- Every step of resolving what is below `top` spares everything else. -/
theorem stable_spares : Stable t (t.Below top) fun w => t.Spares top w.tree where
  children id below c mem := below.trans (wf.below_of_mem mem)
  bare _ spares := spares.bare
  state _ _ spares _ _ _ _ := spares
  opened _ spares := spares
  closed _ spares := spares
  seed _ _ below spares := spares.modify below fun _ => rfl
  effect s v e below here seeded modest spares := by
    have same : s.tree.bare = t.bare := here.bare
    cases modest with
    | report | use | record | tic | toc => exact spares
    | redirect => exact spares.redirectParent below _ v.state
    | hoist reached =>
      unfold Tree.Reaches at reached
      rw [Tree.children_of_bare same] at reached
      exact spares.modify (below.reaches wf reached) fun _ => rfl
    | @destination o d taken =>
      have mem := seeded.mem_children (List.mem_of_mem_dropLast taken.2)
      rw [Tree.children_of_bare same] at mem
      have typed := spares.modify (f := fun n => { n with suggest := some d, typing := .of d })
        (below.trans (wf.below_of_mem mem)) fun _ => rfl
      show t.Spares top (v.typeDestination o.id d).tree
      unfold Workspace.typeDestination
      dsimp only
      split
      · exact typed
      · exact typed
  write s v o text below _ _ _ spares := spares.modify below fun _ => rfl

end Resolving

namespace Translator

/-- Resolving a node of a parsed tree, whether it succeeds or fails, changes nothing of
the program; of what is filled in it changes typings, hints and texts below that node
only, and redirections there and of the node above.  The slots may hold anything before. -/
theorem resolve_spares {source : String} {parsed tree : Tree}
    (ok : Tree.parse source = .ok parsed) (program : tree.bare = parsed.bare) (t : Translator)
    (id : NodeId) :
    let after := (t.resolve tree id).2.1
    after.size = tree.size
    ∧ (∀ i, (after.node i).category = (tree.node i).category
      ∧ (after.node i).name = (tree.node i).name ∧ (after.node i).value = (tree.node i).value
      ∧ (after.node i).children = (tree.node i).children
      ∧ (after.node i).parent = (tree.node i).parent)
    ∧ (∀ i, ¬tree.Below id i → (after.node i).datatype = (tree.node i).datatype
      ∧ (after.node i).numeric = (tree.node i).numeric
      ∧ (after.node i).suggest = (tree.node i).suggest
      ∧ (after.node i).rendered = (tree.node i).rendered)
    ∧ ∀ i, ¬tree.Below id i → tree.parent? id ≠ some i →
      (after.node i).redirect = (tree.node i).redirect := by
  obtain ⟨p, accepted, rfl⟩ := Tree.exists_program_of_parse ok
  have wf : tree.WellFormed := (Tree.wellFormed_ofProgram accepted).of_bare program
  have spares : tree.Spares id (t.resolve tree id).2.1 :=
    Resolving.stable_resolveWithin (Resolving.stable_spares wf id) wf (tree.size + 1) id
      (tree.below_self id) ⟨tree, t.state⟩ (.refl tree id)
  refine ⟨Tree.size_of_bare spares.bare, fun i => ⟨?_, ?_, ?_, ?_, ?_⟩,
    fun i apart => ⟨?_, ?_, spares.suggest i apart, spares.rendered i apart⟩, spares.redirect⟩
  · exact congrFun (Tree.category_of_bare spares.bare) i
  · exact Tree.name_of_bare spares.bare i
  · exact Tree.value_of_bare spares.bare i
  · exact congrFun (Tree.children_of_bare spares.bare) i
  · exact congrFun (Tree.parent?_of_bare spares.bare) i
  · exact congrArg Typing.datatype (spares.typing i apart)
  · exact congrArg Typing.numeric (spares.typing i apart)

/-- The size of what was translated as a vector and now is a matrix: the assignment
above is redirected. -/
theorem resolve_spares_size : ∃ t, Tree.parse "n = size(A)\n" = .ok t ∧
    let vector : Translator := ⟨.ofConfig { declarations := ⟨[("A", ⟨.colvec, .float⟩)]⟩ }⟩
    let matrix : Translator := ⟨.ofConfig { declarations := ⟨[("A", ⟨.matrix, .float⟩)]⟩ }⟩
    let tree := (vector.translate t).2.1
    let after := (matrix.resolve tree 1).2.1
    tree ≠ t ∧ (tree.node 3).redirect = none ∧ (after.node 3).redirect = some .size
    ∧ after.size = tree.size
    ∧ (∀ i, (after.node i).category = (tree.node i).category
      ∧ (after.node i).name = (tree.node i).name ∧ (after.node i).value = (tree.node i).value
      ∧ (after.node i).children = (tree.node i).children
      ∧ (after.node i).parent = (tree.node i).parent)
    ∧ (∀ i, ¬tree.Below 1 i → (after.node i).datatype = (tree.node i).datatype
      ∧ (after.node i).numeric = (tree.node i).numeric
      ∧ (after.node i).suggest = (tree.node i).suggest
      ∧ (after.node i).rendered = (tree.node i).rendered)
    ∧ ∀ i, ¬tree.Below 1 i → tree.parent? 1 ≠ some i →
      (after.node i).redirect = (tree.node i).redirect := by
  have parses : ∃ t, Tree.parse "n = size(A)\n" = .ok t ∧
      let vector : Translator := ⟨.ofConfig { declarations := ⟨[("A", ⟨.colvec, .float⟩)]⟩ }⟩
      let matrix : Translator := ⟨.ofConfig { declarations := ⟨[("A", ⟨.matrix, .float⟩)]⟩ }⟩
      let tree := (vector.translate t).2.1
      tree ≠ t ∧ (tree.node 3).redirect = none
        ∧ ((matrix.resolve tree 1).2.1.node 3).redirect = some .size :=
    ⟨_, by cbv, by decide +kernel, by decide +kernel, by decide +kernel⟩
  obtain ⟨t, run, filled, before, redirected⟩ := parses
  exact ⟨t, run, filled, before, redirected, resolve_spares run (bare_translate _ t) _ 1⟩

end Translator

end MatrixScript
