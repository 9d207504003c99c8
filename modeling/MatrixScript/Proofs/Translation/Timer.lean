/-
# `Proofs.Translation.Timer` — the wall clock goes with post-order

Every node of a program is resolved once, behind what is below it and from left to right
(`Tree.postOrder`).  So a clock that is read was started before exactly if some `tic`
comes before the `toc` in post-order (`Tree.Precedes`), and the clock is in use exactly if
there is either (`Translator.timer_follows_postOrder`).

`Workspace.Timed` says what resolving some nodes does to the clock, and it goes together
when they are resolved one after the other (`Timed.trans`).  Statements that fail do not
break it: of all nodes only assignments fail, when everything below them is resolved, and
no statement looks at the answer of another.
-/
import Mathlib.Data.List.Nodup
import MatrixScript.Proofs.Rule.Untimed
import MatrixScript.Proofs.Translation.Contained

namespace MatrixScript

variable {t : Tree}

/-! ## Post-order -/

namespace Tree

/-- A node behind what is below it, no more than so many levels deep, from left to right. -/
def postOrderWithin (t : Tree) : Nat → NodeId → List NodeId
  | 0, _ => []
  | depth + 1, id => (t.children id).flatMap (t.postOrderWithin depth) ++ [id]

/-- A node behind everything below it; no way down is longer than there are nodes. -/
def postOrderFrom (t : Tree) (id : NodeId) : List NodeId := t.postOrderWithin (t.size + 1) id

/-- The nodes of a tree, each behind what is below it, from left to right. -/
def postOrder (t : Tree) : List NodeId := t.root.elim [] t.postOrderFrom

/-- The first node comes before the other in post-order. -/
def Precedes (t : Tree) (j i : NodeId) : Prop := [j, i].Sublist t.postOrder

/-- What climbs to a node is that node, or climbs to a child of it. -/
theorem Climbs.exists_child {n : Nat} {id top : NodeId} (h : t.Climbs n id top) :
    id = top ∨ ∃ c, t.parent? c = some top ∧ t.Below c id := by
  induction h with
  | here => exact .inl rfl
  | @step id parent top _ up _ ih =>
    rcases ih with rfl | ⟨c, child, below⟩
    · exact .inr ⟨id, up, t.below_self id⟩
    · exact .inr ⟨c, child, below.step up⟩

section

variable (wf : t.WellFormed)
include wf

theorem WellFormed.below_iff {top id : NodeId} :
    t.Below top id ↔ (∃ c ∈ t.children top, t.Below c id) ∨ id = top := by
  constructor
  · rintro ⟨n, climbs⟩
    rcases climbs.exists_child with eq | ⟨c, up, below⟩
    · exact .inr eq
    · exact .inl ⟨c, (wf.heldBy_of_parent? up).mem_children, below⟩
  · rintro (⟨c, mem, below⟩ | rfl)
    · exact (wf.below_of_mem mem).trans below
    · exact t.below_self id

/-- More levels than there are add nothing. -/
theorem postOrderWithin_eq {depth depth' : Nat} {id : NodeId} (enough : Resolving.Enough t depth id)
    (enough' : Resolving.Enough t depth' id) :
    t.postOrderWithin depth id = t.postOrderWithin depth' id := by
  induction depth generalizing depth' id with
  | zero =>
    obtain ⟨d, eq⟩ := enough.exists_succ
    cases eq
  | succ depth ih =>
    obtain ⟨depth', rfl⟩ := enough'.exists_succ
    have children : (t.children id).map (t.postOrderWithin depth)
        = (t.children id).map (t.postOrderWithin depth') :=
      List.map_congr_left fun c mem => ih (enough.child wf mem) (enough'.child wf mem)
    rw [postOrderWithin, postOrderWithin, List.flatMap_def, children, ← List.flatMap_def]

/-- A node stands behind what is below its children, from left to right. -/
theorem postOrderFrom_eq {id : NodeId} (lt : id < t.size) :
    t.postOrderFrom id = (t.children id).flatMap t.postOrderFrom ++ [id] := by
  have enough := Resolving.enough_of_lt wf lt
  have children : (t.children id).map (t.postOrderWithin t.size)
      = (t.children id).map t.postOrderFrom :=
    List.map_congr_left fun c mem => postOrderWithin_eq wf (enough.child wf mem)
      (Resolving.enough_of_lt wf (wf.bound id c mem))
  rw [postOrderFrom, postOrderWithin, List.flatMap_def, children, ← List.flatMap_def]

theorem mem_postOrderWithin {depth : Nat} {id i : NodeId} (enough : Resolving.Enough t depth id) :
    i ∈ t.postOrderWithin depth id ↔ t.Below id i := by
  induction depth generalizing id with
  | zero =>
    obtain ⟨d, eq⟩ := enough.exists_succ
    cases eq
  | succ depth ih =>
    rw [postOrderWithin, List.mem_append, List.mem_flatMap, List.mem_singleton, wf.below_iff]
    refine or_congr_left (exists_congr fun c => and_congr_right fun mem => ?_)
    exact ih (enough.child wf mem)

theorem nodup_postOrderWithin {depth : Nat} {id : NodeId} (enough : Resolving.Enough t depth id) :
    (t.postOrderWithin depth id).Nodup := by
  induction depth generalizing id with
  | zero => exact List.nodup_nil
  | succ depth ih =>
    have mem_iff : ∀ c ∈ t.children id, ∀ {i}, i ∈ t.postOrderWithin depth c ↔ t.Below c i :=
      fun c mem _ => mem_postOrderWithin wf (enough.child wf mem)
    rw [postOrderWithin, ← List.concat_eq_append, List.nodup_concat]
    refine ⟨?_, List.nodup_flatMap.mpr ⟨fun c mem => ih (enough.child wf mem), ?_⟩⟩
    · intro own
      obtain ⟨c, mem, below⟩ := List.mem_flatMap.mp own
      exact wf.not_below_child mem ((mem_iff c mem).mp below)
    · refine (wf.nodup_children id).imp_of_mem fun {a b} memA memB ne i below below' => ne ?_
      exact wf.apart (wf.parent?_of_mem memA) (wf.parent?_of_mem memB) ((mem_iff a memA).mp below)
        ((mem_iff b memB).mp below')

/-- Post-order lists every node of the tree. -/
theorem mem_postOrder {i : NodeId} : i ∈ t.postOrder ↔ i < t.size := by
  obtain ⟨root, top, last, -⟩ := wf.root
  have lt : root < t.size := Nat.lt_of_succ_le (Nat.le_of_eq last)
  rw [postOrder, top, Option.elim_some, postOrderFrom,
    mem_postOrderWithin wf (Resolving.enough_of_lt wf lt)]
  constructor
  · rintro ⟨n, climbs⟩
    exact climbs.lt_size lt
  · intro inside
    by_cases eq : i = root
    · exact eq ▸ t.below_self i
    · exact exists_climbs_of_mem (wf.grounded root top i inside eq)

/-- Post-order lists no node twice. -/
theorem nodup_postOrder : t.postOrder.Nodup := by
  obtain ⟨root, top, last, -⟩ := wf.root
  rw [postOrder, top]
  exact nodup_postOrderWithin wf (Resolving.enough_of_lt wf (Nat.lt_of_succ_le (Nat.le_of_eq last)))

end

/-! ## Nodes in front of which the clock is not started -/

/-- The node is among these, and none in front of it starts the clock. -/
def Early (t : Tree) (i : NodeId) : List NodeId → Prop
  | [] => False
  | j :: ids => j = i ∨ ¬(t.node j).IsTic ∧ t.Early i ids

theorem early_singleton {i j : NodeId} : t.Early i [j] ↔ j = i :=
  ⟨fun h => h.elim id fun both => both.2.elim, .inl⟩

theorem early_append {i : NodeId} {ids ids' : List NodeId} : t.Early i (ids ++ ids')
    ↔ t.Early i ids ∨ (¬∃ j ∈ ids, (t.node j).IsTic) ∧ t.Early i ids' := by
  induction ids with
  | nil => simp [Early]
  | cons j ids ih =>
    rw [List.cons_append, Early, ih, Early, List.exists_mem_cons_iff, and_or_left, not_or, and_assoc,
      or_assoc]

/-- Where no node stands twice, none that starts the clock comes before an early one. -/
theorem early_iff {i : NodeId} {ids : List NodeId} (nodup : ids.Nodup) :
    t.Early i ids ↔ i ∈ ids ∧ ∀ j, (t.node j).IsTic → ¬[j, i].Sublist ids := by
  induction ids with
  | nil => simp [Early]
  | cons k ids ih =>
    obtain ⟨fresh, nodup⟩ := List.nodup_cons.mp nodup
    have before : ∀ j, [j, i].Sublist (k :: ids) ↔ [j, i].Sublist ids ∨ j = k ∧ i ∈ ids := by
      intro j
      rw [List.sublist_cons_iff]
      simp
    simp only [Early, ih nodup, before, List.mem_cons]
    by_cases here : k = i
    case pos =>
      subst here
      refine iff_of_true (.inl rfl) ⟨.inl rfl, fun j _ both => ?_⟩
      rcases both with sub | ⟨-, mem⟩
      · exact fresh (sub.subset (by simp))
      · exact fresh mem
    case neg =>
      have there : i = k ∨ i ∈ ids ↔ i ∈ ids := or_iff_right fun eq => here eq.symm
      rw [there]
      constructor
      · rintro (eq | ⟨calm, mem, none⟩)
        · exact absurd eq here
        · refine ⟨mem, fun j tic both => ?_⟩
          rcases both with sub | ⟨rfl, -⟩
          · exact none j tic sub
          · exact calm tic
      · rintro ⟨mem, none⟩
        exact .inr ⟨fun tic => none k tic (.inr ⟨rfl, mem⟩), mem,
          fun j tic sub => none j tic (.inl sub)⟩

/-- Blocks have nothing to do with the clock. -/
theorem not_reads_of_block {i : NodeId} (block : t.category i = .block) (name : String) :
    ¬(t.node i).Reads name := by
  rintro ⟨kind | kind, -⟩
  · exact absurd (block.symm.trans kind) (by decide)
  · exact absurd (block.symm.trans kind) (by decide)

/-- The warning at a node that reads the clock. -/
def unstarted (t : Tree) (i : NodeId) : Diagnostic := .ofNode t i .likelyMisuse WallClock.unstarted

theorem unstarted_inj {i j : NodeId} : t.unstarted i = t.unstarted j ↔ i = j :=
  ⟨congrArg Diagnostic.node, congrArg t.unstarted⟩

theorem unstarted_of_bare {t' : Tree} (same : t'.bare = t.bare) (i : NodeId) :
    t'.unstarted i = t.unstarted i := by
  rw [unstarted, unstarted, Diagnostic.ofNode, Diagnostic.ofNode,
    field_of_bare same Node.category fun _ => rfl, field_of_bare same Node.label fun _ => rfl]

theorem reads_of_bare {t' : Tree} (same : t'.bare = t.bare) (i : NodeId) {name : String} :
    (t'.node i).Reads name ↔ (t.node i).Reads name :=
  iff_of_eq (field_of_bare same (Node.Reads · name) (fun _ => rfl) i)

end Tree

/-! ## What is done to the clock -/

namespace State

variable (s : State)

theorem clock_record (x : String) (d : Datatype) : (s.record x d).clock = s.clock := by
  unfold record
  split
  · rfl
  · rfl

theorem clock_hoist (node : NodeId) (text : String) (d : Datatype) :
    (s.hoist node text d).clock = s.clock := by
  unfold hoist
  split
  · split
    · rfl
    · rfl
  · rfl

theorem clock_popScope : s.popScope.clock = s.clock := by
  unfold popScope
  split
  · rfl
  · rfl

end State

namespace Workspace

/-- What resolving these nodes in this order does to the clock: it is started and in use as they
say, and those that read it too early are warned about. -/
structure Timed (t : Tree) (ids : List NodeId) (w w' : Workspace) : Prop where
  started : w'.state.clock.started ↔ w.state.clock.started ∨ ∃ i ∈ ids, (t.node i).IsTic
  used : w'.state.clock.used
    ↔ w.state.clock.used ∨ ∃ i ∈ ids, (t.node i).IsTic ∨ (t.node i).IsToc
  warned : ∀ i, t.unstarted i ∈ w'.state.diagnostics ↔ t.unstarted i ∈ w.state.diagnostics
    ∨ ¬w.state.clock.started ∧ (t.node i).IsToc ∧ t.Early i ids

namespace Timed

variable {ids ids' : List NodeId} {w w' w'' : Workspace}

/-- Nothing is done to the clock. -/
theorem calm (clock : w'.state.clock = w.state.clock)
    (warned : ∀ i, t.unstarted i ∈ w'.state.diagnostics ↔ t.unstarted i ∈ w.state.diagnostics) :
    Timed t [] w w' where
  started := by simp [clock]
  used := by simp [clock]
  warned i := by simp [warned, Tree.Early]

/-- The clock and what is reported are the same. -/
theorem same (clock : w'.state.clock = w.state.clock)
    (diagnostics : w'.state.diagnostics = w.state.diagnostics) : Timed t [] w w' :=
  calm clock fun _ => by rw [diagnostics]

/-- One list of nodes is resolved after the other. -/
theorem trans (h : Timed t ids w w') (k : Timed t ids' w' w'') : Timed t (ids ++ ids') w w'' where
  started := by
    rw [k.started, h.started, or_assoc]
    simp only [List.mem_append, or_and_right, exists_or]
  used := by
    rw [k.used, h.used, or_assoc]
    simp only [List.mem_append, or_and_right, exists_or]
  warned i := by
    rw [k.warned, h.warned, h.started, Tree.early_append, or_assoc]
    refine or_congr_right ?_
    rw [not_or]
    constructor
    · rintro (⟨off, toc, early⟩ | ⟨⟨off, none⟩, toc, early⟩)
      · exact ⟨off, toc, .inl early⟩
      · exact ⟨off, toc, .inr ⟨none, early⟩⟩
    · rintro ⟨off, toc, early | ⟨none, early⟩⟩
      · exact .inl ⟨off, toc, early⟩
      · exact .inr ⟨⟨off, none⟩, toc, early⟩

/-- A node that has nothing to do with the clock. -/
theorem node (h : Timed t [] w w') {i : NodeId} (tic : ¬(t.node i).IsTic) (toc : ¬(t.node i).IsToc) :
    Timed t [i] w w' where
  started := by
    rw [h.started]
    simp [tic]
  used := by
    rw [h.used]
    simp [tic, toc]
  warned j := by
    rw [h.warned]
    refine or_congr_right (iff_of_false (fun both => both.2.2) ?_)
    rintro ⟨-, here, early⟩
    exact toc (Tree.early_singleton.mp early ▸ here)

/-- A node that starts the clock. -/
theorem tic {i : NodeId} (tic : (t.node i).IsTic) (clock : w'.state.clock = w.state.clock.tic)
    (diagnostics : w'.state.diagnostics = w.state.diagnostics) : Timed t [i] w w' where
  started := by simp [clock, WallClock.tic, tic]
  used := by simp [clock, WallClock.tic, tic]
  warned j := by
    rw [diagnostics]
    refine (or_iff_left ?_).symm
    rintro ⟨-, toc, early⟩
    exact absurd (Tree.early_singleton.mp early ▸ tic).2 (toc.2 ▸ by decide)

/-- A node that reads the clock, and a warning if it was not started. -/
theorem toc {i : NodeId} (toc : (t.node i).IsToc) (clock : w'.state.clock = w.state.clock.toc)
    (warned : ∀ j, t.unstarted j ∈ w'.state.diagnostics ↔ t.unstarted j ∈ w.state.diagnostics
      ∨ ¬w.state.clock.started ∧ j = i) : Timed t [i] w w' where
  started := by
    have tic : ¬(t.node i).IsTic := fun tic => absurd tic.2 (toc.2 ▸ by decide)
    simp [clock, WallClock.toc, tic]
  used := by simp [clock, WallClock.toc, toc]
  warned j := by
    rw [warned, Tree.early_singleton]
    refine or_congr_right (and_congr_right fun _ => ⟨?_, fun both => both.2.symm⟩)
    rintro rfl
    exact ⟨toc, rfl⟩

/-- Another problem is reported. -/
theorem report (tree : Tree) (i : NodeId) (problem : Problem) (message : String)
    (other : problem = .likelyMisuse → message ≠ WallClock.unstarted) :
    Timed t [] w { w with state := w.state.report tree i problem message } := by
  refine calm rfl fun j => Diagnostic.mem_report.trans (or_iff_left fun eq => ?_)
  exact other (congrArg Diagnostic.problem eq).symm (congrArg Diagnostic.message eq).symm

end Timed

section Steps

variable {w : Workspace} {id : NodeId}

/-- An effect that leaves the clock alone. -/
theorem timed_perform {e : Effect} (untimed : e.Untimed) : Timed t [] w (w.perform id e) := by
  cases e with
  | tic | toc => exact untimed.elim
  | use i => exact .same rfl rfl
  | record x d => exact .same (w.state.clock_record x d) (w.state.diagnostics_record x d)
  | hoist node text d =>
    exact .same (w.state.clock_hoist node text d) (w.state.diagnostics_hoist node text d)
  | redirect b =>
    show Timed t [] w (w.redirectParent id b)
    unfold redirectParent
    split
    · exact .same rfl rfl
    · exact .same rfl rfl
  | destination c d =>
    show Timed t [] w (w.typeDestination c d)
    unfold typeDestination
    dsimp only
    split
    · exact .same (w.state.clock_record _ d) (w.state.diagnostics_record _ d)
    · exact .same rfl rfl
  | report node problem message => exact .report w.tree node problem message untimed

theorem timed_performAll {es : List Effect} (untimed : ∀ e ∈ es, e.Untimed) :
    Timed t [] w (es.foldl (perform id) w) := by
  induction es generalizing w with
  | nil => exact .same rfl rfl
  | cons e es ih =>
    obtain ⟨first, rest⟩ := List.forall_mem_cons.mp untimed
    exact (timed_perform first).trans (ih rest)

variable {texts : List String} {o : Outcome}

/-- An outcome that leaves the clock alone. -/
theorem timed_commit (untimed : ∀ e ∈ o.effects, e.Untimed) : Timed t [] w (w.commit id texts o) :=
  (timed_performAll untimed).trans (.same rfl rfl)

/-- The outcome of a node that reads the clock. -/
theorem timed_commit_toc (same : w.tree.bare = t.bare) (toc : (t.node id).IsToc)
    (effects : o.effects = if w.state.clock.started then [.toc]
      else [.toc, .report id .likelyMisuse WallClock.unstarted]) :
    Timed t [id] w (w.commit id texts o) := by
  rw [commit, effects]
  split
  case isTrue on =>
    exact .toc toc rfl fun j => ⟨.inl, fun both => both.resolve_right fun warned => warned.1 on⟩
  case isFalse off =>
    refine .toc toc rfl fun j => ?_
    show t.unstarted j ∈ Diagnostic.report w.state.diagnostics (w.tree.unstarted id) ↔ _
    rw [Diagnostic.mem_report, Tree.unstarted_of_bare same, Tree.unstarted_inj, and_iff_right off]

end Steps

end Workspace

/-! ## The whole walk -/

namespace Resolving

open Workspace

section Rule

variable {w : Workspace} (same : w.tree.bare = t.bare)
include same

/-- The rule of a node resolves that node. -/
theorem timed_applyRule (lawful : w.tree.Lawful) (id : NodeId) (found : List String) :
    w.Timed t [id] (applyRule id found w).2 := by
  have same' : (w.seed id).tree.bare = t.bare := (w.bare_seed id).trans same
  have lawful' : (w.seed id).tree.Lawful := (leads_seed (P := fun _ => True) w id).lawful lawful
  have seeded : w.Timed t [] (w.seed id) := .same rfl rfl
  -- variables and calls are not redirected
  have straight : ((w.seed id).tree.node id).category = .var
      ∨ ((w.seed id).tree.node id).category = .get → ((w.seed id).tree.node id).redirect = none :=
    fun kind => lawful'.redirect_eq_none fun assign => by
      rw [show ((w.seed id).tree.node id).category = .assign from assign] at kind
      exact absurd kind (by decide)
  rw [applyRule_eq, answer]
  by_cases tic : (t.node id).IsTic
  · have named := (Tree.reads_of_bare same' id).mpr tic
    rw [Rule.select_tic named (straight named.1)]
    exact .tic tic rfl rfl
  by_cases toc : (t.node id).IsToc
  · have named := (Tree.reads_of_bare same' id).mpr toc
    obtain ⟨o, run, effects⟩ := Rule.exists_toc ((w.seed id).site id found)
    rw [Rule.select_toc named (straight named.1), run]
    exact seeded.trans (timed_commit_toc same' toc effects)
  · have untimed := Rule.select_untimed (t := (w.seed id).tree)
      (mt (Tree.reads_of_bare same' id).mp tic) (mt (Tree.reads_of_bare same' id).mp toc) straight
      (s := (w.seed id).site id found)
    cases chosen : Rule.select (w.seed id).tree ((w.seed id).tree.node id)
      ((w.seed id).site id found) with
    | error e => exact seeded.node tic toc
    | ok o =>
      rw [chosen] at untimed
      exact (seeded.trans (timed_commit untimed)).node tic toc

end Rule

/-- A step that resolves these nodes. -/
def Times (t : Tree) (ids : List NodeId) (step : Resolving String) : Prop :=
  ∀ w : Workspace, w.tree.bare = t.bare → w.tree.Lawful → w.Timed t ids (step w).2

section Nodes

variable {resolve : NodeId → Resolving String} {order : NodeId → List NodeId}

/-- Where none of them fails, nodes are resolved one after the other. -/
theorem timed_texts : ∀ {ids : List NodeId} {w : Workspace} {found : List String},
    (∀ c ∈ ids, Steady t c (resolve c)) → (∀ c ∈ ids, Times t (order c) (resolve c)) →
    w.tree.bare = t.bare → w.tree.Lawful → (texts resolve ids w).1 = .ok found →
    w.Timed t (ids.flatMap order) (texts resolve ids w).2
  | [], _, _, _, _, _, _, _ => .same rfl rfl
  | c :: ids, w, found, steady, times, same, lawful, ok => by
    obtain ⟨steadyHere, steadyThere⟩ := List.forall_mem_cons.mp steady
    obtain ⟨timesHere, timesThere⟩ := List.forall_mem_cons.mp times
    have leads := steadyHere.leads w same lawful
    have first := timesHere w same lawful
    cases result : resolve c w with
    | mk answer w₁ =>
    rw [result] at leads first
    cases answer with
    | error e =>
      rw [texts_of_error result] at ok
      cases ok
    | ok text =>
      rw [texts_of_ok result] at ok ⊢
      cases rest : (texts resolve ids w₁).1 with
      | error e =>
        rw [rest] at ok
        cases ok
      | ok found =>
        exact first.trans (timed_texts steadyThere timesThere (leads.bare.trans same)
          (leads.lawful lawful) rest)

theorem times_node {id : NodeId} (steady : ∀ c ∈ t.children id, Steady t c (resolve c))
    (times : ∀ c ∈ t.children id, Times t (order c) (resolve c))
    (safe : ∀ c ∈ t.children id, ∀ w : Workspace, w.tree.bare = t.bare → w.tree.Lawful →
      ¬Fails (resolve c w).1) : Times t ((t.children id).flatMap order ++ [id]) (node resolve id) := by
  intro w same lawful
  obtain ⟨found, ok⟩ := exists_texts steady safe same lawful
  have leads := (steady_texts steady same lawful).1
  have children := timed_texts steady times same lawful ok
  unfold node
  rw [Tree.children_of_bare same]
  cases result : texts resolve (t.children id) w with
  | mk answers w₁ =>
  rw [result] at ok leads children
  obtain rfl : answers = .ok found := ok
  exact children.trans (timed_applyRule (leads.bare.trans same) (leads.lawful lawful) id found)

/-- Whether the statement fails or not, its nodes are resolved. -/
theorem timed_statementLines {id : NodeId} (times : Times t (order id) (resolve id)) {w : Workspace}
    (same : w.tree.bare = t.bare) (lawful : w.tree.Lawful) :
    w.Timed t (order id) (statementLines resolve id w).2 := by
  have opened : w.Timed t [] { w with state := w.state.withPending [] } := .same rfl rfl
  have resolved := opened.trans (times _ same lawful)
  unfold statementLines
  dsimp only
  generalize resolve id { w with state := w.state.withPending [] } = result at resolved
  obtain ⟨answer, after⟩ := result
  have closing : after.Timed t [] { after with state := after.state.withPending w.state.pending } :=
    .same rfl rfl
  have closed := resolved.trans closing
  rw [List.nil_append, List.append_nil] at closed
  cases answer with
  | ok text => exact closed
  | error e =>
    have error : e.problem ≠ .likelyMisuse := fun misuse =>
      absurd e.severity_problem (misuse ▸ by decide)
    have reported := closed.trans (.report after.tree id e.problem e.message (absurd · error))
    rwa [List.append_nil] at reported

/-- Statements have their turns one after the other, whatever becomes of them. -/
theorem timed_blockLines : ∀ {ids : List NodeId} {w : Workspace},
    (∀ c ∈ ids, Steady t c (resolve c)) → (∀ c ∈ ids, Times t (order c) (resolve c)) →
    w.tree.bare = t.bare → w.tree.Lawful →
    w.Timed t (ids.flatMap order) (blockLines resolve ids w).2
  | [], _, _, _, _, _ => .same rfl rfl
  | c :: ids, w, steady, times, same, lawful => by
    obtain ⟨steadyHere, steadyThere⟩ := List.forall_mem_cons.mp steady
    obtain ⟨timesHere, timesThere⟩ := List.forall_mem_cons.mp times
    have leads := leads_statementLines steadyHere same lawful
    have first := timed_statementLines timesHere same lawful
    exact first.trans (timed_blockLines steadyThere timesThere (leads.bare.trans same)
      (leads.lawful lawful))

/-- A scope has no clock of its own. -/
theorem Times.inScope {ids : List NodeId} {step : Resolving String} (times : Times t ids step) :
    Times t ids (inScope step) := by
  intro w same lawful
  have opened : w.Timed t [] { w with state := w.state.pushScope } := .same rfl rfl
  have inside := opened.trans (times { w with state := w.state.pushScope } same lawful)
  unfold Resolving.inScope
  dsimp only
  generalize step { w with state := w.state.pushScope } = result at inside
  obtain ⟨answer, after⟩ := result
  have closing : after.Timed t [] { after with state := after.state.popScope } :=
    .same after.state.clock_popScope after.state.diagnostics_popScope
  have closed := inside.trans closing
  rwa [List.nil_append, List.append_nil] at closed

end Nodes

section

variable (wf : t.WellFormed) {top p : NodeId} {c : Category} (up : t.parent? top = some p)
  (crown : t.Crown p c)
include wf up crown

/-- What is below a node is resolved in post-order. -/
theorem times_resolveWithin (depth : Nat) : ∀ {id : NodeId}, t.Below top id → id < t.size →
    Enough t depth id → Times t (t.postOrderWithin depth id) (resolveWithin depth id) := by
  induction depth with
  | zero => exact fun _ _ _ w _ _ => .same rfl rfl
  | succ depth ih =>
    intro id below lt enough w same lawful
    have category : (w.tree.node id).category = t.category id :=
      congrFun (Tree.category_of_bare same) id
    have steady : ∀ c ∈ t.children id, Steady t c (resolveWithin depth c) := fun c mem =>
      steady_resolveWithin wf depth (wf.bound id c mem)
    have times : ∀ c ∈ t.children id, Times t (t.postOrderWithin depth c) (resolveWithin depth c) :=
      fun c mem => ih (below.trans (wf.below_of_mem mem)) (wf.bound id c mem) (enough.child wf mem)
    by_cases block : t.category id = .block
    case pos =>
      have lines := timed_blockLines steady times same lawful
      unfold resolveWithin
      rw [category, block]
      show w.Timed t _ (blockLines (resolveWithin depth) (w.tree.children id) w).2
      rw [Tree.children_of_bare same]
      have own : Timed t [id] (blockLines (resolveWithin depth) (t.children id) w).2
          (blockLines (resolveWithin depth) (t.children id) w).2 :=
        (Timed.same rfl rfl).node (Tree.not_reads_of_block block _) (Tree.not_reads_of_block block _)
      exact lines.trans own
    case neg =>
      have resolved := times_node steady times fun c mem w same lawful fails =>
        wf.not_refused_child block mem ((fails_resolveWithin wf up crown depth
          (below.trans (wf.below_of_mem mem)) (wf.bound id c mem) (enough.child wf mem) same lawful).mp
          fails)
      unfold resolveWithin
      split
      case h_1 kind => exact absurd (category.symm.trans kind) block
      case h_2 => exact resolved.inScope w same lawful
      case h_3 => exact resolved w same lawful

end

end Resolving

/-! ## Programs -/

namespace Translator

open Resolving

/-- The clock goes with post-order, in which every node of a program comes once: it is in use if
there is a node that starts or reads it, and a node that reads it is warned about if none that
starts it comes before. -/
theorem timer_follows_postOrder {source : String} {t : Tree} (parsed : Tree.parse source = .ok t)
    (config : Config) :
    let unit := ((⟨.ofConfig config⟩ : Translator).translate t).1
    t.postOrder.Nodup ∧ (∀ i, i ∈ t.postOrder ↔ i < t.size)
      ∧ (unit.usesTimer ↔ ∃ i < t.size, (t.node i).IsTic ∨ (t.node i).IsToc)
      ∧ ∀ i, .ofNode t i .likelyMisuse "toc without a preceding tic" ∈ unit.diagnostics
        ↔ (t.node i).IsToc ∧ ∀ j, (t.node j).IsTic → ¬t.Precedes j i := by
  intro unit
  have wf := Tree.wellFormed_of_parsed parsed
  have lawful := (Tree.raw_of_parse parsed).lawful
  obtain ⟨root, top, last, block, -⟩ := wf.root
  have lt : root < t.size := Nat.lt_of_succ_le (Nat.le_of_eq last)
  have run := rootLines_eq wf top (w := ⟨t, .ofConfig config⟩) rfl
  have lines : Workspace.Timed t ((t.children root).flatMap t.postOrderFrom) ⟨t, .ofConfig config⟩
      (blockLines (resolveWithin (t.size + 1)) (t.children root) ⟨t, .ofConfig config⟩).2 :=
    timed_blockLines (fun c mem => steady_resolveWithin wf (t.size + 1) (wf.bound root c mem))
      (fun c mem => times_resolveWithin wf (wf.parent?_of_mem mem) (.block block) (t.size + 1)
        (t.below_self c) (wf.bound root c mem) (enough_of_root wf top mem)) rfl lawful
  -- the root is not resolved itself, but it is a block
  have own : Workspace.Timed t [root] (rootLines ⟨t, .ofConfig config⟩).2
      (rootLines ⟨t, .ofConfig config⟩).2 :=
    (Workspace.Timed.same rfl rfl).node (Tree.not_reads_of_block block _)
      (Tree.not_reads_of_block block _)
  rw [← run] at lines
  have timed := lines.trans own
  rw [← Tree.postOrderFrom_eq wf lt,
    show t.postOrderFrom root = t.postOrder by rw [Tree.postOrder, top, Option.elim_some]] at timed
  refine ⟨Tree.nodup_postOrder wf, fun i => Tree.mem_postOrder wf, ?_, fun i => ?_⟩
  · refine timed.used.trans ((or_iff_right Bool.false_ne_true).trans ?_)
    exact exists_congr fun i => and_congr_left fun _ => Tree.mem_postOrder wf
  · refine (timed.warned i).trans ((or_iff_right List.not_mem_nil).trans
      ((and_iff_right Bool.false_ne_true).trans ?_))
    rw [Tree.early_iff (Tree.nodup_postOrder wf)]
    refine and_congr_right fun toc => and_iff_right ((Tree.mem_postOrder wf).mpr ?_)
    rcases toc.1 with var | get
    · exact Tree.lt_size_of_category var nofun
    · exact Tree.lt_size_of_category get nofun

/-- A clock that is read by an assignment and by a parameter, started in a statement of a function
that fails, and read in another one that fails and once more. -/
theorem timer_follows_postOrder_failing : ∃ t,
    Tree.parse "x=toc\nfunction f(toc)\npi=tic\nend\n[a]=size(toc)\ntoc\n" = .ok t
    ∧ let unit := ((⟨.ofConfig {}⟩ : Translator).translate t).1
      (unit.errors.length = 2 ∧ unit.warnings.length = 2)
      ∧ t.postOrder.Nodup ∧ (∀ i, i ∈ t.postOrder ↔ i < t.size)
      ∧ (unit.usesTimer ↔ ∃ i < t.size, (t.node i).IsTic ∨ (t.node i).IsToc)
      ∧ ∀ i, .ofNode t i .likelyMisuse "toc without a preceding tic" ∈ unit.diagnostics
        ↔ (t.node i).IsToc ∧ ∀ j, (t.node j).IsTic → ¬t.Precedes j i := by
  have parses : ∃ t,
      Tree.parse "x=toc\nfunction f(toc)\npi=tic\nend\n[a]=size(toc)\ntoc\n" = .ok t
      ∧ let unit := ((⟨.ofConfig {}⟩ : Translator).translate t).1
        unit.errors.length = 2 ∧ unit.warnings.length = 2 :=
    ⟨_, by cbv, by decide +kernel⟩
  obtain ⟨t, run, reported⟩ := parses
  exact ⟨t, run, reported, timer_follows_postOrder run {}⟩

end Translator

end MatrixScript
