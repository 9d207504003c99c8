/-
# `Proofs.Translation.Applied` — all that is done to resolve a node

To resolve a node is to resolve its children, each in its turn (`Resolving.Turn`), and to apply
its rule.  What the rule sees is how the children read, and nothing else reads in another way
afterwards but the node and what its rule moves into temporaries (`Resolving.Applied`).
-/
import MatrixScript.Proofs.Rule.Destination
import MatrixScript.Proofs.Translation.Called

namespace MatrixScript

open Resolving Workspace

variable {t : Tree}

/-! ## Texts that stay -/

namespace Workspace

/-- An effect that does not move a node into a temporary leaves its text. -/
theorem text_perform (id i : NodeId) {e : Effect} (stays : ∀ node text d, e = .hoist node text d → node ≠ i)
    (w : Workspace) : ((w.perform id e).tree.node i).text = (w.tree.node i).text := by
  have modified : ∀ (j : NodeId) (f : Node → Node), (∀ n, (f n).text = n.text) →
      ((w.modifyNode j f).tree.node i).text = (w.tree.node i).text := by
    intro j f text
    rw [modifyNode, Tree.node_modify]
    split
    · exact text _
    · rfl
  cases e with
  | report | use | record | tic | toc => rfl
  | destination c d =>
    show ((w.typeDestination c d).tree.node i).text = _
    unfold typeDestination
    dsimp only
    split
    · exact modified c _ fun _ => rfl
    · exact modified c _ fun _ => rfl
  | redirect b =>
    show ((w.redirectParent id b).tree.node i).text = _
    unfold redirectParent
    split
    · exact modified _ _ fun _ => rfl
    · rfl
  | hoist node text d =>
    show ((w.hoist node text d).tree.node i).text = _
    rw [hoist, modifyNode, Tree.node_modify_of_ne (stays node text d rfl).symm]

theorem text_performAll (id i : NodeId) : ∀ {es : List Effect} (w : Workspace),
    (∀ node text d, Effect.hoist node text d ∈ es → node ≠ i) →
    ((es.foldl (perform id) w).tree.node i).text = (w.tree.node i).text
  | [], _, _ => rfl
  | e :: es, w, stays => by
    rw [List.foldl_cons, text_performAll id i _ fun node text d mem => stays node text d (.tail e mem)]
    exact text_perform id i (fun node text d eq => stays node text d (eq ▸ .head es)) w

end Workspace

/-! ## Expressions do not fail -/

namespace Tree.WellFormed

variable (wf : t.WellFormed)
include wf

/-- Functions stand in blocks. -/
theorem exists_block_of_function {f : NodeId} (function : t.category f = .function) :
    ∃ p, t.parent? f = some p ∧ t.category p = .block := by
  obtain ⟨root, top, -, kind, -⟩ := wf.root
  have other : t.root ≠ some f := by
    rw [top, ne_eq, Option.some_inj]
    rintro rfl
    rw [function] at kind
    cases kind
  obtain ⟨p, held⟩ := wf.held f (lt_size_of_category function nofun) other
  have mem : f ∈ t.children p := held.mem_children
  refine ⟨p, held.up, by_contra fun block => ?_⟩
  by_cases outer : t.category p = .function
  · obtain ⟨a, b, c, ids, first, second, third⟩ := wf.children_function held.bound outer
    have kinds : t.category f ∈ [Category.params, .returns, .block] := by
      have there := List.mem_map_of_mem (f := t.category) mem
      rwa [ids, List.map_cons, List.map_cons, List.map_singleton, first, second, third] at there
    rw [function] at kinds
    exact absurd kinds (by decide)
  · have inline := wf.isInline_child block outer mem
    rw [function] at inline
    cases inline

/-- Every node but blocks is in a piece of program that stands in a block or in a function. -/
theorem exists_crown {n : Nat} {id root : NodeId} (climbs : t.Climbs n id root) (top : t.root = some root)
    (block : t.category id ≠ .block) : ∃ above p c, t.Below above id ∧ t.parent? above = some p ∧ t.Crown p c := by
  induction climbs with
  | here =>
    obtain ⟨root, top', -, kind, -⟩ := wf.root
    obtain rfl := Option.some.inj (top.symm.trans top')
    exact absurd kind block
  | @step id p root n up _ ih =>
    by_cases list : t.category p = .block
    case pos => exact ⟨id, p, .block, t.below_self id, up, .block list⟩
    case neg =>
    by_cases function : t.category p = .function
    case pos =>
      obtain ⟨q, above, kind⟩ := wf.exists_block_of_function function
      exact ⟨id, p, .function, t.below_self id, up, .function function above kind⟩
    case neg =>
      obtain ⟨above, p', c, below, rest⟩ := ih top list
      exact ⟨above, p', c, below.trans (below_of_parent? up), rest⟩

end Tree.WellFormed

/-- An expression has a text. -/
theorem Resolving.exists_text_of_enough (wf : t.WellFormed) {depth : Nat} {id : NodeId}
    (inline : (t.category id).isInline) (enough : Enough t depth id) {w : Workspace}
    (same : w.tree.bare = t.bare) (lawful : w.tree.Lawful) :
    ∃ text w', resolveWithin depth id w = (.ok text, w') := by
  obtain ⟨block, function⟩ := Category.ne_of_isInline inline
  have lt : id < t.size := Tree.lt_size_of_category rfl block
  obtain ⟨k, root, free, rooted, climbs, -⟩ := show Enough t depth id from enough
  have top : t.root = some root := by_contra fun other => by
    obtain ⟨p, held⟩ := wf.held root rooted other
    exact Option.some_ne_none p (held.up.symm.trans free)
  obtain ⟨above, p, c, below, up, crown⟩ := wf.exists_crown climbs top block
  have safe := fun fails => (fails_resolveWithin wf up crown depth below lt enough same lawful).mp fails
  cases run : resolveWithin depth id w with
  | mk answer w' =>
  rw [run] at safe
  cases answer with
  | ok text => exact ⟨text, w', rfl⟩
  | error e =>
    rcases (safe ⟨e, rfl⟩).category with other | other <;> rw [other] at inline <;> cases inline

/-- A child as it reads. -/
def Site.operand (s : Site) (c : NodeId) : Operand := ⟨c, s.tree.node c, (s.tree.node c).text⟩

namespace Resolving

/-- A node whose rule is applied reads as the rule says, and no other node reads in another way
unless the rule moves it into a temporary. -/
theorem outcome_of_run {id : NodeId} {found : List String} {w w' : Workspace}
    (lengths : found.length = (w.tree.children id).length) {text : String}
    (run : applyRule id found w = (.ok text, w')) : ∃ o, (w.seed id).answer id found = .ok o
      ∧ text = ((w.seed id).site id found).written o ∧ w' = (w.seed id).commit id found o
      ∧ ∀ i, i ≠ id → (∀ node text d, Effect.hoist node text d ∈ o.effects → node ≠ i) →
        (w'.tree.node i).text = (w.tree.node i).text := by
  obtain ⟨o, answer, written, -⟩ := exists_outcome lengths run
  rw [applyRule_eq, answer] at run
  cases run
  refine ⟨o, answer, written, rfl, fun i other stays => ?_⟩
  rw [commit, modifyNode, Tree.node_modify_of_ne other, text_performAll id i _ stays, seed, modifyNode,
    Tree.node_modify_of_ne other]

/-- In its turn the node is resolved, when this is known of variables, and what is in it still reads
as it did then. -/
inductive Turn (t : Tree) (lookup : String → Option Datatype) (u : Tree) (c : NodeId) : Prop
  | intro {depth : Nat} {w w' : Workspace} {text : String} (run : resolveWithin depth c w = (.ok text, w'))
      (bare : w.tree.bare = t.bare) (lawful : w.tree.Lawful) (known : w.state.lookup = lookup)
      (reads : ∀ i, t.Below c i → (u.node i).text = (w'.tree.node i).text) : Turn t lookup u c

theorem Turn.keep {lookup : String → Option Datatype} {u v : Tree} {c : NodeId} (turn : Turn t lookup u c)
    (kept : ∀ i, t.Below c i → (v.node i).text = (u.node i).text) : Turn t lookup v c := by
  obtain ⟨run, bare, lawful, known, reads⟩ := turn
  exact ⟨run, bare, lawful, known, fun i below => (kept i below).trans (reads i below)⟩

section

variable (wf : t.WellFormed) {depth : Nat}
include wf

/-- Several expressions are resolved in turns. -/
theorem turn_of_texts {parent : NodeId} : ∀ {ids : List NodeId} {w w' : Workspace} {found : List String},
    ids ⊆ t.children parent → ids.Nodup → (∀ c ∈ ids, (t.category c).isInline) →
    w.tree.bare = t.bare → w.tree.Lawful → texts (resolveWithin depth) ids w = (.ok found, w') →
    ∀ c ∈ ids, Turn t w.state.lookup w'.tree c
  | [], _, _, _, _, _, _, _, _, _ => nofun
  | c :: ids, w, w', found, sub, nodup, inline, same, lawful, run => by
    obtain ⟨mem, sub'⟩ := List.cons_subset.mp sub
    obtain ⟨other, nodup'⟩ := List.nodup_cons.mp nodup
    obtain ⟨inlineHere, inlineThere⟩ := List.forall_mem_cons.mp inline
    have steady : ∀ c ∈ t.children parent, Steady t c (resolveWithin depth c) := fun c mem =>
      steady_resolveWithin wf depth (wf.bound parent c mem)
    have leads := (steady c mem).leads w same lawful
    cases result : resolveWithin depth c w with
    | mk answer w₁ =>
    rw [result] at leads
    cases answer with
    | error =>
      rw [texts_of_error result] at run
      cases run
    | ok text =>
    have same₁ := leads.bare.trans same
    have lawful₁ := leads.lawful lawful
    have single : texts (resolveWithin depth) [c] w = (.ok [text], w₁) := by
      rw [texts_of_ok result]
      rfl
    have lookup : w₁.state.lookup = w.state.lookup := funext <|
      lookup_of_texts wf same lawful (List.forall_mem_singleton.mpr inlineHere)
        (List.forall_mem_singleton.mpr (wf.bound parent c mem)) single
    rw [texts_of_ok result] at run
    have later := (steady_texts (fun c mem => steady c (sub' mem)) same₁ lawful₁).1
    cases results : texts (resolveWithin depth) ids w₁ with
    | mk answers w₂ =>
    rw [results] at run later
    cases answers with
    | error => cases run
    | ok more =>
    cases run
    refine List.forall_mem_cons.mpr ⟨⟨result, same, lawful, rfl, fun i below => ?_⟩, ?_⟩
    · refine later.text ?_
      rintro j ⟨c', mem', below'⟩ reached
      unfold Tree.Reaches at reached
      rw [Tree.children_of_bare same₁] at reached
      obtain rfl := wf.apart (wf.parent?_of_mem mem) (wf.parent?_of_mem (sub' mem')) below
        (below'.reaches wf reached)
      exact other mem'
    · rw [← lookup]
      exact turn_of_texts sub' nodup' inlineThere same₁ lawful₁ results

end

/-- All that is done to resolve a node: its children are resolved in their turns, its rule answers,
and nothing else gets another text but what the rule moves into temporaries. -/
structure Applied (t : Tree) (id : NodeId) (w : Workspace) (text : String) (w' : Workspace) (s : Site)
    (o : Outcome) : Prop where
  here : s.id = id
  bare : s.tree.bare = t.bare
  lawful : s.tree.Lawful
  operands : s.operands = (t.children id).map s.operand
  lookup : ∀ x, s.lookup x = w.state.lookup x
  answer : Rule.select s.tree s.node s = .ok o
  text : text = s.written o
  left : w'.tree.bare = t.bare
  others : ∀ i, i ≠ id → (∀ node text d, Effect.hoist node text d ∈ o.effects → node ≠ i) →
    (w'.tree.node i).text = (s.tree.node i).text
  turns : ∀ c ∈ t.children id, Turn t w.state.lookup s.tree c
  after : w' = (Workspace.mk s.tree s.state).commit id s.texts o
  begun : ∃ depth w₁, texts (resolveWithin depth) (t.children id) w = (.ok s.texts, w₁)
    ∧ s.tree = (w₁.seed id).tree ∧ s.state = w₁.state
  seeded : s.Seeded

section

variable (wf : t.WellFormed) {depth : Nat} {id : NodeId} {w w' : Workspace} {text : String}
include wf

theorem exists_applied (lt : id < t.size) (block : t.category id ≠ .block)
    (function : t.category id ≠ .function) (same : w.tree.bare = t.bare) (lawful : w.tree.Lawful)
    (run : resolveWithin depth id w = (.ok text, w')) : ∃ s o, Applied t id w text w' s o := by
  have leads' := (steady_resolveWithin wf depth lt).leads w same lawful
  rw [run] at leads'
  obtain ⟨depth, found, w₁, rfl, results, applied⟩ := exists_run same block function run
  have inline : ∀ c ∈ t.children id, (t.category c).isInline := fun c => wf.isInline_child block function
  have steady : ∀ c ∈ t.children id, Steady t c (resolveWithin depth c) := fun c mem =>
    steady_resolveWithin wf depth (wf.bound id c mem)
  have leads := (steady_texts steady same lawful).1
  have read := texts_read wf (fun c child => retains_resolveWithin wf (wf.bound id c child)
    (Category.ne_of_isInline (inline c child)).1 (Category.ne_of_isInline (inline c child)).2) steady
    (fun c => wf.parent?_of_mem) (wf.nodup_children id) same lawful results
  have turns := turn_of_texts wf (List.Subset.refl _) (wf.nodup_children id) inline same lawful results
  have lookup := lookup_of_texts wf same lawful inline (wf.bound id) results
  rw [results] at leads
  have seeded := leads_seed (P := fun _ => False) w₁ id
  have bare : (w₁.seed id).tree.bare = t.bare := seeded.bare.trans (leads.bare.trans same)
  have kept : ∀ i, ((w₁.seed id).tree.node i).text = (w₁.tree.node i).text := fun i =>
    seeded.text fun _ never => never.elim
  obtain ⟨o, answer, written, after, others⟩ := outcome_of_run
    ((length_of_texts results).trans (by rw [Tree.children_of_bare (leads.bare.trans same)])) applied
  refine ⟨(w₁.seed id).site id found, o, rfl, bare, seeded.lawful (leads.lawful lawful), ?_, lookup,
    answer, written, leads'.bare.trans same, fun i other stays => ?_,
    fun c mem => (turns c mem).keep fun i _ => kept i, ?_, ⟨depth, w₁, ?_, rfl, rfl⟩,
    seeded_site wf (leads.bare.trans same) (by
      rw [length_of_texts results])⟩
  · show (((w₁.seed id).tree.children id).zip found).map _ = _
    rw [Tree.children_of_bare bare, ← read, ← List.map_prod_left_eq_zip, List.map_map]
    exact List.map_congr_left fun c _ => congrArg (Operand.mk c _) (kept c).symm
  · exact (others i other stays).trans (kept i).symm
  · rw [texts_site_eq _ (by rw [Tree.children_of_bare bare, length_of_texts results])]
    exact after
  · rw [texts_site_eq _ (by rw [Tree.children_of_bare bare, length_of_texts results])]
    exact results

end

namespace Applied

variable {id : NodeId} {w w' : Workspace} {text : String} {s : Site} {o : Outcome}
  (h : Applied t id w text w' s o)
include h

theorem category : s.node.category = t.category id := by
  rw [← h.here]
  exact congrFun (Tree.category_of_bare h.bare) s.id

theorem name : s.name = (t.node id).name := by
  rw [← h.here]
  exact Tree.name_of_bare h.bare s.id

/-- The rule is the one of the category. -/
theorem rule {c : Category} (category : t.category id = c) (plain : c ∉ [.var, .get, .assigns])
    (straight : s.node.redirect = none) {rule : Rule} (own : Rule.ofCategory? c = some rule) :
    rule s = .ok o := by
  have here := h.category.trans category
  have free : Rule.builtinOf? s.tree s.node = none := by
    refine Rule.builtinOf?_eq_none straight (fun named => ?_) fun assigns => ?_
    · rw [here] at named
      exact absurd (named.elim (by rintro rfl; simp) (by rintro rfl; simp)) plain
    · rw [here] at assigns
      exact absurd (by rw [assigns]; simp) plain
  have answer := h.answer
  rwa [Rule.select_eq free (by rw [here]; exact own)] at answer

theorem straight (other : t.category id ≠ .assign) : s.node.redirect = none :=
  straight_of_lawful (w := ⟨s.tree, s.state⟩) h.bare h.lawful (h.here ▸ other)

/-- The rule of a built-in that is called. -/
theorem builtin (get : t.category id = .get) {b : Builtin} (named : Builtin.ofName? (t.node id).name = some b)
    {rule : Rule} (own : Rule.ofCall? b = some rule) : rule s = .ok o := by
  have category : s.node.category = .get := h.category.trans get
  have name : s.node.name = (t.node id).name := h.name
  have answer := h.answer
  rw [Rule.select, Rule.builtinOf?, h.straight (by rw [get]; decide), category] at answer
  dsimp only at answer
  rw [name, named, Option.bind_some, Rule.ofBuiltin?, own] at answer
  exact answer

theorem typing (lt : id < t.size) : (w'.tree.node id).typing = o.typing := by
  have size := Tree.size_of_bare h.left
  rw [h.after, commit, modifyNode, Tree.size_modify] at size
  rw [h.after, commit, modifyNode, Tree.node_modify_self (size ▸ lt)]

/-- What is remembered afterwards is what the effects of the rule leave. -/
theorem state : w'.state = (o.effects.foldl (perform id) ⟨s.tree, s.state⟩).state := by
  rw [h.after]
  rfl

/-- What a rule moves into a temporary first reads as that. -/
theorem text_hoisted {c : NodeId} (other : c ≠ id) (lt : c < t.size) {x : String} {d : Datatype}
    {more : List Effect} (effects : o.effects = .hoist c x d :: more)
    (quiet : ∀ node text d, Effect.hoist node text d ∉ more) :
    (w'.tree.node c).text = s.state.temporaryName c d := by
  have size : c < s.tree.size := by rwa [Tree.size_of_bare h.bare]
  rw [h.after, commit, modifyNode, Tree.node_modify_of_ne other, effects, List.foldl_cons,
    text_performAll id c _ fun node text d mem => absurd mem (quiet node text d)]
  show ((Workspace.hoist ⟨s.tree, s.state⟩ c x d).tree.node c).text = _
  rw [hoist, modifyNode, Tree.node_modify_self size]
  rfl

/-- Nothing happens to what is remembered before the rule of a node without children is applied. -/
theorem leaf (none : t.children id = []) : s.state = w.state := by
  obtain ⟨depth, w₁, run, -, state⟩ := h.begun
  rw [none] at run
  exact state.trans (congrArg (fun r => r.2.state) run).symm

/-- A rule that asks for no temporary leaves the texts of all other nodes. -/
theorem kept (quiet : Rule.Quiet o) {i : NodeId} (other : i ≠ id) :
    (w'.tree.node i).text = (s.tree.node i).text :=
  h.others i other fun node text d mem => absurd mem (quiet node text d)

end Applied

end Resolving

end MatrixScript
