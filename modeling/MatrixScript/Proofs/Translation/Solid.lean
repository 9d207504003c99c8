/-
# `Proofs.Translation.Solid` — expressions are written, and none of them as blanks

What an expression is translated to is not blank (`Resolving.solid_resolveWithin`), by
induction on how deep it is resolved.  A temporary may stand for any part of it, so the
names of temporaries come first: every step of a translation keeps them solid
(`State.Named`), whatever tree is translated.

A node that is resolved holds its text from then on.  What is resolved after it reaches
only nodes below, so the texts of the children of a node can be read off the tree when all
of them are done (`Resolving.texts_read`).
-/
import MatrixScript.Proofs.Rule.Solid
import MatrixScript.Proofs.Translation.Laid

namespace MatrixScript

open Cpp

/-! ## What every step keeps -/

/-- A property of states that every step of a translation keeps.  It may speak of what is pending,
also for the statements around the one that is translated, which is set aside meanwhile. -/
structure State.Lasting (I : List (List String) → State → Prop) : Prop where
  perform : ∀ {aside : List (List String)} {w : Workspace} (id : NodeId) (e : Effect),
    I aside w.state → I aside (w.perform id e).state
  pushScope : ∀ {aside : List (List String)} {s : State}, I aside s → I aside s.pushScope
  popScope : ∀ {aside : List (List String)} {s : State}, I aside s → I aside s.popScope
  opened : ∀ {aside : List (List String)} {s : State}, I aside s → I (s.pending :: aside) (s.withPending [])
  closed : ∀ {aside : List (List String)} {s : State} {pending : List String},
    I (pending :: aside) s → I aside (s.withPending pending)

namespace Resolving

open Workspace

variable {I : List (List String) → State → Prop}

/-- The step keeps the property, whatever is set aside. -/
def Maintains (I : List (List String) → State → Prop) {α : Type} (step : Resolving α) : Prop :=
  ∀ aside w, I aside w.state → I aside (step w).2.state

theorem maintains_texts {resolve : NodeId → Resolving String} (each : ∀ id, Maintains I (resolve id)) :
    ∀ ids, Maintains I (texts resolve ids)
  | [], _, _, holds => holds
  | c :: ids, aside, w, holds => by
    have first := each c aside w holds
    cases result : resolve c w with
    | mk answer w₁ =>
    rw [result] at first
    cases answer with
    | error => rwa [texts_of_error result]
    | ok =>
      rw [texts_of_ok result]
      exact maintains_texts each ids aside w₁ first

section

variable (lasting : State.Lasting I)
include lasting

theorem maintains_applyRule (id : NodeId) (found : List String) : Maintains I (applyRule id found) := by
  intro aside w holds
  rw [applyRule_eq]
  cases (w.seed id).answer id found with
  | error => exact holds
  | ok o =>
    show I aside (o.effects.foldl (perform id) (w.seed id)).state
    have seeded : I aside (w.seed id).state := holds
    generalize w.seed id = v at seeded
    induction o.effects generalizing v with
    | nil => exact seeded
    | cons e es ih => exact ih _ (lasting.perform id e seeded)

variable {resolve : NodeId → Resolving String} (each : ∀ id, Maintains I (resolve id))
include each

theorem maintains_node (id : NodeId) : Maintains I (node resolve id) := by
  intro aside w holds
  have children := maintains_texts each (w.tree.children id) aside w holds
  unfold node
  generalize texts resolve (w.tree.children id) w = result at children
  obtain ⟨answers, w₁⟩ := result
  cases answers with
  | error => exact children
  | ok found => exact maintains_applyRule lasting id found aside w₁ children

theorem maintains_statementLines (aside : List (List String)) (id : NodeId) {w : Workspace}
    (holds : I aside w.state) : I aside (statementLines resolve id w).2.state := by
  have closed := lasting.closed (each id _ { w with state := w.state.withPending [] } (lasting.opened holds))
  unfold statementLines
  dsimp only
  generalize resolve id { w with state := w.state.withPending [] } = result at closed
  obtain ⟨answer, after⟩ := result
  cases answer with
  | ok => exact closed
  | error e =>
    exact lasting.perform (w := ⟨after.tree, after.state.withPending w.state.pending⟩) id
      (.report id e.problem e.message) closed

theorem maintains_blockLines (aside : List (List String)) : ∀ {ids : List NodeId} {w : Workspace},
    I aside w.state → I aside (blockLines resolve ids w).2.state
  | [], _, holds => holds
  | id :: ids, w, holds => by
    have first : I aside (statementLines resolve id w).2.state :=
      maintains_statementLines lasting each aside id holds
    exact @maintains_blockLines aside ids _ first

omit each in
theorem maintains_resolveWithin (depth : Nat) : ∀ id, Maintains I (resolveWithin depth id) := by
  induction depth with
  | zero => exact fun _ _ _ holds => holds
  | succ depth ih =>
    intro id aside w holds
    unfold resolveWithin
    split
    · exact maintains_blockLines lasting ih aside holds
    · exact lasting.popScope (maintains_node lasting ih id aside { w with state := w.state.pushScope }
        (lasting.pushScope holds))
    · exact maintains_node lasting ih id aside w holds

end

end Resolving

/-! ## Names of temporaries -/

/-- No temporary has a blank name. -/
def State.Named (s : State) : Prop := ∀ e ∈ s.temporaries, Solid e.name

namespace State

theorem solid_nextName (s : State) (d : Datatype) : Solid (s.nextName d) :=
  (((Solid.append_right _ (solid_fixed rfl)).append_left _).append_left _).append_left _

section

variable {s : State} (h : s.Named)
include h

theorem Named.temporaryName (node : NodeId) (d : Datatype) : Solid (s.temporaryName node d) := by
  unfold State.temporaryName
  split
  case h_1 found => exact h _ (mem_of_temporary? found).1
  case h_2 => exact s.solid_nextName d

theorem Named.hoist (node : NodeId) (text : String) (d : Datatype) : (s.hoist node text d).Named := by
  unfold Named State.hoist
  split
  · split
    · exact h
    · exact h
  · exact List.forall_mem_append.mpr ⟨h, List.forall_mem_singleton.mpr (s.solid_nextName d)⟩

end

theorem lasting_named : Lasting fun _ s => s.Named where
  perform {_ w} id e named := by
    cases hoisted : e.hoisted? with
    | none =>
      unfold Named
      rw [(Workspace.Idle.perform id w hoisted).temporaries]
      exact named
    | some =>
      cases e with
      | hoist node text d => exact named.hoist node text d
      | _ => cases hoisted
  pushScope named := named
  popScope {_ s} named := by
    unfold Named
    rw [(Workspace.Idle.popScope ⟨default, s⟩).temporaries]
    exact named
  opened named := named
  closed named := named

end State

/-! ## Texts of expressions -/

namespace Category

/-- Has a text that stands for one thing. -/
def isTerm (c : Category) : Bool := c.isInline && c != .params && c != .returns

/-- What stands below a term is one. -/
theorem isTerm_of_admits {c d : Category} {cs : List Category} (h : c.admits cs) (block : c ≠ .block)
    (function : c ≠ .function) (mem : d ∈ cs) : d.isTerm := by
  have inline := isInline_of_admits h block function mem
  unfold isTerm
  rw [inline]
  by_cases matrix : c = .matrix
  case pos =>
    rw [matrix] at h
    rw [eq_of_beq (List.all_eq_true.mp h _ mem)]
    rfl
  case neg =>
    have listing := isListing_of_admits h block matrix function mem
    cases d <;> first | rfl | cases listing

end Category

namespace Resolving

open Workspace

variable {t : Tree}

/-- Texts that the node is resolved to are not blank. -/
def Written (t : Tree) (step : Resolving String) : Prop :=
  ∀ w : Workspace, w.tree.bare = t.bare → w.tree.Lawful → w.state.Named →
    ∀ text, (step w).1 = .ok text → Solid text

section

variable {resolve : NodeId → Resolving String} (keeps : ∀ id, Maintains (fun _ s => s.Named) (resolve id))
include keeps

theorem solid_texts : ∀ {ids : List NodeId} {w : Workspace}, (∀ c ∈ ids, Written t (resolve c)) →
    (∀ c ∈ ids, Steady t c (resolve c)) → w.tree.bare = t.bare → w.tree.Lawful → w.state.Named →
    ∀ found, (texts resolve ids w).1 = .ok found → ∀ a ∈ found, Solid a
  | [], _, _, _, _, _, _, found, ok => by
    cases ok
    exact nofun
  | c :: ids, w, written, steady, same, lawful, named, found, ok => by
    obtain ⟨writtenHere, writtenThere⟩ := List.forall_mem_cons.mp written
    obtain ⟨steadyHere, steadyThere⟩ := List.forall_mem_cons.mp steady
    have first := writtenHere w same lawful named
    have leads := steadyHere.leads w same lawful
    have keeps' := keeps c [] w named
    cases result : resolve c w with
    | mk answer w₁ =>
    rw [result] at first leads keeps'
    cases answer with
    | error =>
      rw [texts_of_error result] at ok
      cases ok
    | ok text =>
      rw [texts_of_ok result] at ok
      have rest := solid_texts writtenThere steadyThere (leads.bare.trans same)
        (leads.lawful lawful) keeps'
      cases answers : (texts resolve ids w₁).1 with
      | error =>
        rw [answers] at ok
        cases ok
      | ok more =>
        rw [answers] at ok
        cases ok
        exact List.forall_mem_cons.mpr ⟨first text rfl, rest more answers⟩

variable (wf : t.WellFormed) (spelt : t.Spelt .words) {id : NodeId} (lt : id < t.size)
include wf spelt lt

omit keeps in
/-- The rule of a term, whose operands are not blank. -/
theorem solid_applyRule (term : (t.category id).isTerm) {found : List String} {w : Workspace}
    (same : w.tree.bare = t.bare) (named : w.state.Named)
    (lengths : found.length = (t.children id).length) (solid : ∀ a ∈ found, Solid a) {text : String}
    (ok : (applyRule id found w).1 = .ok text) : Solid text := by
  have same' : (w.seed id).tree.bare = t.bare := (w.bare_seed id).trans same
  have lengths' : found.length = ((w.seed id).tree.children id).length := by
    rwa [Tree.children_of_bare same']
  have lt' : id < (w.seed id).tree.size := by rwa [Tree.size_of_bare same']
  have filled : ((w.seed id).site id found).Filled := by
    refine ⟨sound_site (wf.of_bare same') lt' lengths', (wf.of_bare same').shaped id lt',
      (spelt.of_bare same').plain id, fun o mem => ?_, State.Named.temporaryName named⟩
    obtain ⟨⟨c, text⟩, there, rfl⟩ := List.mem_map.mp mem
    exact solid text (List.of_mem_zip there).2
  have category : ((w.seed id).site id found).node.category = t.category id :=
    congrFun (Tree.category_of_bare same') id
  obtain ⟨inline, outputs⟩ := Bool.and_eq_true _ _ |>.mp term
  obtain ⟨inline, inputs⟩ := Bool.and_eq_true _ _ |>.mp inline
  have shown := Rule.shown_select filled (category ▸ inline) (category ▸ by simpa using inputs)
    (category ▸ by simpa using outputs)
  rw [applyRule_eq] at ok
  cases answer : (w.seed id).answer id found with
  | error =>
    rw [answer] at ok
    cases ok
  | ok o =>
    rw [answer] at ok
    cases ok
    rw [textOf_eq _ lengths']
    exact shown o answer

theorem written_node (term : (t.category id).isTerm)
    (written : ∀ c ∈ t.children id, Written t (resolve c))
    (steady : ∀ c ∈ t.children id, Steady t c (resolve c)) : Written t (node resolve id) := by
  intro w same lawful named text ok
  have children := solid_texts keeps written steady same lawful named
  have leads := (steady_texts steady same lawful).1
  have names := maintains_texts keeps (t.children id) [] w named
  unfold node at ok
  rw [Tree.children_of_bare same] at ok
  cases results : texts resolve (t.children id) w with
  | mk answers w₁ =>
  rw [results] at ok children leads names
  cases answers with
  | error => cases ok
  | ok found =>
    exact solid_applyRule wf spelt lt term (leads.bare.trans same) names (length_of_texts results)
      (children found rfl) ok

end

/-- Any expression. -/
theorem solid_resolveWithin (wf : t.WellFormed) (spelt : t.Spelt .words) (depth : Nat) :
    ∀ {id : NodeId}, id < t.size → (t.category id).isTerm → Written t (resolveWithin depth id) := by
  induction depth with
  | zero =>
    intro _ _ _ _ _ _ _ _ failed
    cases failed
  | succ depth ih =>
    intro id lt term w same lawful named text ok
    have inline := (Bool.and_eq_true _ _ |>.mp (Bool.and_eq_true _ _ |>.mp term).1).1
    obtain ⟨block, function⟩ := Category.ne_of_isInline inline
    have node := written_node (maintains_resolveWithin State.lasting_named depth) wf spelt lt term
      (fun c mem => ih (wf.bound id c mem) (Category.isTerm_of_admits (wf.shaped id lt).children block
        function (List.mem_map_of_mem mem)))
      (fun c mem => steady_resolveWithin wf depth (wf.bound id c mem))
    unfold resolveWithin at ok
    rw [show (w.tree.node id).category = t.category id from congrFun (Tree.category_of_bare same) id]
      at ok
    split at ok
    case h_1 => exact absurd ‹_› block
    case h_2 => exact absurd ‹_› function
    case h_3 => exact node w same lawful named text ok

end Resolving

/-! ## Where texts are read -/

/-- What is resolved elsewhere leaves the text of a node. -/
theorem Workspace.Leads.text {P : NodeId → Prop} {w w' : Workspace} (leads : w.Leads P w') {i : NodeId}
    (apart : ∀ j, P j → ¬w.tree.Reaches j i) : (w'.tree.node i).text = (w.tree.node i).text := by
  have rendered : (w'.tree.node i).rendered = (w.tree.node i).rendered :=
    (leads.fills i).resolve_right fun ⟨j, hj, reached⟩ => apart j hj reached
  rw [Node.text, rendered, Node.text, show (w'.tree.node i).label = (w.tree.node i).label from
    Tree.field_of_bare leads.bare Node.label (fun _ => rfl) i]

namespace Resolving

open Workspace

variable {t : Tree}

/-- What the node is resolved to is the text that it holds afterwards. -/
def Retains (t : Tree) (id : NodeId) (step : Resolving String) : Prop :=
  ∀ w w' : Workspace, w.tree.bare = t.bare → w.tree.Lawful → ∀ text, step w = (.ok text, w') →
    (w'.tree.node id).text = text

theorem text_of_applyRule {id : NodeId} {found : List String} {w w' : Workspace} {text : String}
    (lt : id < w'.tree.size) (run : applyRule id found w = (.ok text, w')) :
    (w'.tree.node id).text = text := by
  rw [applyRule_eq] at run
  cases answer : (w.seed id).answer id found with
  | error =>
    rw [answer] at run
    cases run
  | ok o =>
    rw [answer] at run
    cases run
    rw [commit, modifyNode] at lt ⊢
    rw [Tree.size_modify] at lt
    rw [Tree.node_modify, if_pos ⟨rfl, lt⟩]
    rfl

theorem retains_resolveWithin (wf : t.WellFormed) {depth : Nat} {id : NodeId} (lt : id < t.size)
    (block : t.category id ≠ .block) (function : t.category id ≠ .function) :
    Retains t id (resolveWithin depth id) := by
  intro w w' same lawful text run
  have leads := (steady_resolveWithin wf depth lt).leads w same lawful
  rw [run] at leads
  have lt' : id < w'.tree.size := by rwa [Tree.size_of_bare (leads.bare.trans same)]
  cases depth with
  | zero => cases run
  | succ depth =>
    unfold resolveWithin at run
    rw [show (w.tree.node id).category = t.category id from congrFun (Tree.category_of_bare same) id]
      at run
    split at run
    case h_1 => exact absurd ‹_› block
    case h_2 => exact absurd ‹_› function
    case h_3 =>
      unfold node at run
      generalize texts (resolveWithin depth) (w.tree.children id) w = results at run
      obtain ⟨answers, w₁⟩ := results
      cases answers with
      | error => cases run
      | ok found => exact text_of_applyRule lt' run

/-- The texts of several children are held when all of them are resolved. -/
theorem texts_read (wf : t.WellFormed) {resolve : NodeId → Resolving String} {parent : NodeId} :
    ∀ {ids : List NodeId} {w w' : Workspace} {found : List String},
    (∀ c ∈ ids, Retains t c (resolve c)) → (∀ c ∈ ids, Steady t c (resolve c)) →
    (∀ c ∈ ids, t.parent? c = some parent) → ids.Nodup → w.tree.bare = t.bare → w.tree.Lawful →
    texts resolve ids w = (.ok found, w') → ids.map (fun c => (w'.tree.node c).text) = found
  | [], _, _, _, _, _, _, _, _, _, run => by
    cases run
    rfl
  | c :: ids, w, w', found, retains, steady, parents, nodup, same, lawful, run => by
    obtain ⟨retainsHere, retainsThere⟩ := List.forall_mem_cons.mp retains
    obtain ⟨steadyHere, steadyThere⟩ := List.forall_mem_cons.mp steady
    obtain ⟨up, upThere⟩ := List.forall_mem_cons.mp parents
    obtain ⟨other, nodup'⟩ := List.nodup_cons.mp nodup
    have leads := steadyHere.leads w same lawful
    cases result : resolve c w with
    | mk answer w₁ =>
    rw [result] at leads
    cases answer with
    | error =>
      rw [texts_of_error result] at run
      cases run
    | ok text =>
      have same₁ := leads.bare.trans same
      have lawful₁ := leads.lawful lawful
      rw [texts_of_ok result] at run
      have later := (steady_texts steadyThere same₁ lawful₁).1
      cases results : texts resolve ids w₁ with
      | mk answers w₂ =>
      rw [results] at run later
      cases answers with
      | error => cases run
      | ok more =>
        cases run
        have rest := texts_read wf retainsThere steadyThere upThere nodup' same₁ lawful₁ results
        -- what comes later is resolved below other children
        have kept : (w₂.tree.node c).text = (w₁.tree.node c).text := by
          refine later.text ?_
          rintro j ⟨c', mem, below⟩ reached
          unfold Tree.Reaches at reached
          rw [Tree.children_of_bare same₁] at reached
          obtain rfl := wf.apart up (upThere c' mem) (t.below_self c) (below.reaches wf reached)
          exact other mem
        rw [List.map_cons, rest, kept, retainsHere w w₁ same lawful text result]

end Resolving

end MatrixScript
