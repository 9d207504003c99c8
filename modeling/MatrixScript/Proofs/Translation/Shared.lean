/-
# `Proofs.Translation.Shared` — statements that two programs share

Two translations of different programs come to a statement that both programs have.  It
is typed alike if its nodes are untouched when its turn comes (`exists_turn`), and if the
types known so far are the same: this is so after statements that are alike
(`scope_blockLines`).  A function definition is met in a scope of its own, so it is typed
alike in any case (`twins_definition`); of a definition with another body the names are
(`twins_names_typed`), and the definition itself is never given a type.
-/
import MatrixScript.Proofs.Translation.Twin
import MatrixScript.Proofs.Tree.Copies

namespace MatrixScript

variable {R : NodeId → NodeId → Prop} {Q : NodeId → Prop} {t t' : Tree}

/-- Paired nodes that keep what is inferred about them stay twins. -/
theorem Tree.Twins.of_kept {u u' : Tree} (h : t.Twins R t') (same : u.bare = t.bare)
    (same' : u'.bare = t'.bare) (kept : ∀ i i', R i i' → (t.node i).Kept (u.node i))
    (kept' : ∀ i i', R i i' → (t'.node i').Kept (u'.node i')) : u.Twins R u' := by
  refine h.of_bare (fun {i i'} pair => ?_) same same'
  have node := h.node pair
  have children : (u.node i).children = (t.node i).children :=
    congrFun (Tree.children_of_bare same) i
  have children' : (u'.node i').children = (t'.node i').children :=
    congrFun (Tree.children_of_bare same') i'
  constructor
  · exact (congrFun (Tree.category_of_bare same') i').trans
      (node.category.trans (congrFun (Tree.category_of_bare same) i).symm)
  · rw [Tree.name_of_bare same', Tree.name_of_bare same, node.name]
  · rw [Tree.value_of_bare same', Tree.value_of_bare same, node.value]
  · rw [children, children']
    exact node.children
  · rw [(kept i i' pair).typing, (kept' i i' pair).typing, node.typing]
  · rw [(kept i i' pair).suggest, (kept' i i' pair).suggest, node.suggest]
  · rw [(kept i i' pair).redirect, (kept' i i' pair).redirect, node.redirect]

theorem Rule.typing_of_function {s : Site} {o : Outcome} (ok : Rule.function s = .ok o) :
    o.typing = s.node.typing := by
  unfold Rule.function at ok
  split at ok
  case h_2 => cases ok
  case h_1 =>
    dsimp only at ok
    split at ok
    · cases ok
      rfl
    · cases ok
      rfl

/-! ## One translation -/

namespace Workspace

variable {w v : Workspace}

/-- A translation is in step with itself below a node. -/
theorem twin_self (wf : t.WellFormed) {top p : NodeId} {c : Category} (up : t.parent? top = some p)
    (crown : t.Crown p c) (same : w.tree.bare = t.bare) : w.Twin (t.Under top) t t w := by
  refine ⟨same, same, (Tree.twins_below wf up crown).of_bare ?_ same same, rfl, rfl⟩
  rintro _ i ⟨rfl, below⟩
  refine ⟨rfl, rfl, rfl, List.forall₂_same.mpr fun c mem => ⟨rfl, ?_⟩, rfl, rfl, rfl⟩
  rw [show (w.tree.node i).children = t.children i from congrFun (Tree.children_of_bare same) i]
    at mem
  exact below.trans (wf.below_of_mem mem)

/-- In scopes of their own nothing is known but what is declared. -/
theorem twin_opened {w' : Workspace} (same : w.tree.bare = t.bare) (same' : w'.tree.bare = t'.bare)
    (trees : w.tree.Twins R w'.tree)
    (declared : w'.state.config.declarations = w.state.config.declarations) :
    Workspace.Twin R t t' { w with state := w.state.pushScope }
      { w' with state := w'.state.pushScope } :=
  ⟨same, same', trees, declared, rfl⟩

end Workspace

namespace Resolving

open Workspace

variable {w : Workspace}

section

variable (wf : t.WellFormed) {top p : NodeId} {c : Category} (up : t.parent? top = some p)
  (crown : t.Crown p c)
include wf up crown

theorem twin_step_self {depth : Nat} (enough : Enough t depth top) :
    Twin (t.Under top) (t.Below top) t t (resolveWithin depth top) (resolveWithin depth top) :=
  twin_resolveWithin (fun _ _ pair => pair.2) wf wf (Tree.twins_below wf up crown).children depth
    depth ⟨rfl, t.below_self top⟩ enough enough

/-- Resolving a node infers nothing about nodes that are not below it. -/
theorem spares_resolveWithin {depth : Nat} (enough : Enough t depth top)
    (same : w.tree.bare = t.bare) : w.Spares (t.Below top) (resolveWithin depth top w).2 :=
  (twin_step_self wf up crown enough (twin_self wf up crown same)).2.2

theorem spares_statementLines {depth : Nat} (enough : Enough t depth top)
    (same : w.tree.bare = t.bare) :
    w.Spares (t.Below top) (statementLines (resolveWithin depth) top w).2 :=
  (twin_statementLines (twin_step_self wf up crown enough) (twin_self wf up crown same)).2

end

/-- Resolving statements infers nothing about nodes that are not below them. -/
theorem spares_blockLines (wf : t.WellFormed) {block : NodeId} (kind : t.category block = .block)
    {depth : Nat} (enough : ∀ c ∈ t.children block, Enough t depth c) :
    ∀ {ids : List NodeId} {w : Workspace}, ids ⊆ t.children block → w.tree.bare = t.bare →
      w.Spares (fun i => ∃ c ∈ ids, t.Below c i) (blockLines (resolveWithin depth) ids w).2
  | [], w, _, _ => .refl _ w
  | c :: ids, w, sub, same => by
    obtain ⟨mem, rest⟩ := List.cons_subset.mp sub
    have first := spares_statementLines wf (wf.parent?_of_mem mem) (.block kind) (enough c mem) same
    have bare := keeps_statementLines (keeps_resolveWithin depth) c w
    have later := spares_blockLines wf kind enough rest (bare.trans same)
    intro i apart
    refine (first i fun below => apart ⟨c, List.mem_cons_self, below⟩).trans (later i ?_)
    rintro ⟨c', mem', below⟩
    exact apart ⟨c', List.mem_cons_of_mem c mem', below⟩

/-- Resolving children infers nothing about nodes that are not below them. -/
theorem spares_texts (wf : t.WellFormed) {parent : NodeId} {k : Category} (crown : t.Crown parent k)
    {depth : Nat} (enough : ∀ c ∈ t.children parent, Enough t depth c) :
    ∀ {ids : List NodeId} {w : Workspace}, ids ⊆ t.children parent → w.tree.bare = t.bare →
      w.Spares (fun i => ∃ c ∈ ids, t.Below c i) (texts (resolveWithin depth) ids w).2
  | [], w, _, _ => .refl _ w
  | c :: ids, w, sub, same => by
    obtain ⟨mem, rest⟩ := List.cons_subset.mp sub
    have first := spares_resolveWithin wf (wf.parent?_of_mem mem) crown (enough c mem) same
    have bare := keeps_resolveWithin depth c w
    cases result : resolveWithin depth c w with
    | mk answer v =>
    rw [result] at first bare
    cases answer with
    | error e =>
      rw [texts_of_error result]
      exact fun i apart => first i fun below => apart ⟨c, List.mem_cons_self, below⟩
    | ok text =>
      rw [texts_of_ok result]
      have later := spares_texts wf crown enough rest (bare.trans same)
      intro i apart
      refine (first i fun below => apart ⟨c, List.mem_cons_self, below⟩).trans (later i ?_)
      rintro ⟨c', mem', below⟩
      exact apart ⟨c', List.mem_cons_of_mem c mem', below⟩

/-! ### Function definitions -/

/-- A definition is typed alike by two translations, in whatever scopes they meet it. -/
theorem twins_definition (wf : t.WellFormed) (wf' : t'.WellFormed)
    (paired : ∀ {i i'}, R i i' → List.Forall₂ R (t.children i) (t'.children i')) {f f' : NodeId}
    (pair : R f f') (function : t.category f = .function) (function' : t'.category f' = .function)
    {depth depth' : Nat} (enough : Enough t depth f) (enough' : Enough t' depth' f')
    {w w' : Workspace} (opened : Workspace.Twin R t t' { w with state := w.state.pushScope }
      { w' with state := w'.state.pushScope }) :
    (statementLines (resolveWithin depth) f w).2.tree.Twins R
      (statementLines (resolveWithin depth') f' w').2.tree := by
  obtain ⟨depth, rfl⟩ := enough.exists_succ
  obtain ⟨depth', rfl⟩ := enough'.exists_succ
  have all : ∀ i i', R i i' → True := fun _ _ _ => trivial
  have each : List.Forall₂ (fun c c' => Twin R (fun _ => True) t t' (resolveWithin depth c)
      (resolveWithin depth' c')) (t.children f) (t'.children f') :=
    forall₂_children (paired pair) fun c c' mem mem' pair =>
      twin_resolveWithin all wf wf' paired depth depth' pair (enough.child wf mem)
        (enough'.child wf' mem')
  have same : w.tree.bare = t.bare := opened.bare
  have same' : w'.tree.bare = t'.bare := opened.bare'
  rw [tree_statementLines, tree_statementLines,
    resolveWithin_function (w := { w with state := w.state.withPending [] }) same depth function,
    resolveWithin_function (w := { w' with state := w'.state.withPending [] }) same' depth' function']
  have reopened : Workspace.Twin R t t'
      { w with state := (w.state.withPending []).pushScope }
      { w' with state := (w'.state.withPending []).pushScope } := opened.of_state rfl rfl rfl
  exact (twin_inScope (w := { w with state := w.state.withPending [] })
    (twin_node all wf wf' pair each) reopened).2.1

/-! ### The parts of a definition -/

/-- The rule of a definition changes nothing else, and infers nothing about it. -/
theorem applyRule_function {f : NodeId} (function : t.category f = .function) (lt : f < t.size)
    (found : List String) (same : w.tree.bare = t.bare) :
    w.Spares (· = f) (applyRule f found w).2
      ∧ ((applyRule f found w).2.tree.node f).typing = .unknown := by
  have kind : ∀ u : Workspace, u.tree.bare = t.bare → (u.tree.node f).category = .function :=
    fun u same => (congrFun (Tree.category_of_bare same) f).trans function
  have size : ∀ u : Workspace, u.tree.bare = t.bare → f < u.tree.size :=
    fun u same => Nat.lt_of_lt_of_eq lt (Tree.size_of_bare same).symm
  have seeded : (w.seed f).tree.bare = t.bare := (w.bare_seed f).trans same
  have unknown : ((w.seed f).tree.node f).typing = .unknown := by
    rw [Workspace.seed, Workspace.modifyNode, Tree.node_modify_self (size w same)]
    show Workspace.seedTyping w.tree (w.tree.node f) = .unknown
    rw [Workspace.seedTyping, kind w same]
    rfl
  have spares : w.Spares (· = f) (w.seed f) := spares_modifyNode (Q := (· = f)) rfl _ w
  unfold applyRule
  dsimp only
  rw [Rule.select_function (kind _ seeded)]
  cases run : Rule.function ((w.seed f).site f found) with
  | error e => exact ⟨spares, unknown⟩
  | ok o =>
    have none := Rule.effects_of_function run
    have typing : o.typing = .unknown := (Rule.typing_of_function run).trans unknown
    show w.Spares (· = f) ((w.seed f).commit f found o)
      ∧ (((w.seed f).commit f found o).tree.node f).typing = .unknown
    rw [Workspace.commit, none]
    refine ⟨spares.trans (spares_modifyNode (Q := (· = f)) rfl _ _), ?_⟩
    rw [List.foldl_nil, Workspace.modifyNode, Tree.node_modify_self (size _ seeded)]
    exact typing

section Definition

variable (wf : t.WellFormed) {f a b c : NodeId} (here : t.Defines f a b c)
include wf

omit here in
/-- The body of a definition is typed in its statements only. -/
theorem spares_body {depth : Nat} (body : t.category c = .block)
    (enough : Enough t depth c) (same : w.tree.bare = t.bare) :
    w.Spares (fun i => ∃ s ∈ t.children c, t.Below s i) (resolveWithin depth c w).2 := by
  obtain ⟨depth, rfl⟩ := enough.exists_succ
  rw [resolveWithin_block same _ body]
  unfold Resolving.block
  rw [Tree.children_of_bare same]
  exact spares_blockLines wf body (fun s mem => enough.child wf mem) (List.Subset.refl _) same

include here

/-- After the names of a definition only its statements are typed. -/
theorem spares_rest {depth : Nat} (enough : Enough t (depth + 1) f) (same : w.tree.bare = t.bare) :
    (texts (resolveWithin depth) [a, b] w).2.Spares
        (fun i => i = f ∨ ∃ s ∈ t.children c, t.Below s i) (node (resolveWithin depth) f w).2
      ∧ (((texts (resolveWithin depth) [a, b] w).2.tree.node f).typing = .unknown →
        ((node (resolveWithin depth) f w).2.tree.node f).typing = .unknown) := by
  have mem := here.mem_body
  have lt : f < t.size := wf.parent_lt (wf.parent?_of_mem mem)
  have first := keeps_texts (keeps_resolveWithin depth) [a, b] w
  unfold node
  rw [Tree.children_of_bare same, here.children, show [a, b, c] = [a, b] ++ [c] from rfl,
    texts_append]
  cases results : texts (resolveWithin depth) [a, b] w with
  | mk answers u =>
  rw [results] at first
  have bare : u.tree.bare = t.bare := first.trans same
  cases answers with
  | error e => exact ⟨.refl _ u, id⟩
  | ok found =>
    have inner := spares_body wf here.body (enough.child wf mem) bare
    have still := keeps_resolveWithin depth c u
    have outside : ¬∃ s ∈ t.children c, t.Below s f := fun ⟨s, hs, below⟩ =>
      wf.not_below_child mem ((wf.below_of_mem hs).trans below)
    cases result : resolveWithin depth c u with
    | mk answer v =>
    rw [result] at inner still
    dsimp only
    cases answer with
    | error e =>
      rw [texts_of_error result]
      refine ⟨fun i apart => inner i fun below => apart (.inr below), fun unknown => ?_⟩
      exact (inner f outside).typing.trans unknown
    | ok text =>
      rw [texts_of_ok result]
      obtain ⟨last, unknown⟩ :=
        applyRule_function here.function lt (found ++ [text]) (still.trans bare)
      refine ⟨fun i apart => ?_, fun _ => unknown⟩
      exact (inner i fun below => apart (.inr below)).trans (last i fun eq => apart (.inl eq))

/-- What is below a name list is neither the definition nor in its body. -/
theorem apart_of_below {x i : NodeId} (mem : x ∈ [a, b]) (below : t.Below x i) :
    ¬(i = f ∨ ∃ s ∈ t.children c, t.Below s i) := by
  have child := here.sub_names mem
  rintro (rfl | ⟨s, hs, below'⟩)
  · exact wf.not_below_child child below
  · exact here.ne_body mem (wf.apart (wf.parent?_of_mem child) (wf.parent?_of_mem here.mem_body) below
      ((wf.below_of_mem hs).trans below'))

/-- A definition is never given a type, and neither is its body. -/
theorem unknown_definition {depth : Nat} (enough : Enough t depth f) (same : w.tree.bare = t.bare)
    (unknown : (w.tree.node f).typing = .unknown) (unknown' : (w.tree.node c).typing = .unknown) :
    ((statementLines (resolveWithin depth) f w).2.tree.node f).typing = .unknown
      ∧ ((statementLines (resolveWithin depth) f w).2.tree.node c).typing = .unknown := by
  obtain ⟨depth, rfl⟩ := enough.exists_succ
  rw [tree_statementLines,
    resolveWithin_function (w := { w with state := w.state.withPending [] }) same depth here.function]
  have names := spares_texts wf here.crown (fun c mem => enough.child wf mem) here.sub_names
    (w := { w with state := (w.state.withPending []).pushScope }) same
  have rest := spares_rest wf here enough
    (w := { w with state := (w.state.withPending []).pushScope }) same
  have outside : ¬∃ x ∈ [a, b], t.Below x f := fun ⟨x, mem, below⟩ =>
    apart_of_below wf here mem below (.inl rfl)
  have outside' : ¬∃ x ∈ [a, b], t.Below x c := fun ⟨x, mem, below⟩ =>
    here.ne_body mem (wf.apart (wf.parent?_of_mem (here.sub_names mem))
      (wf.parent?_of_mem here.mem_body) below (t.below_self _))
  have inner : ¬(c = f ∨ ∃ s ∈ t.children c, t.Below s c) := by
    rintro (eq | ⟨s, hs, below⟩)
    · have body := here.body
      rw [eq, here.function] at body
      cases body
    · exact wf.not_below_child hs below
  refine ⟨rest.2 ?_, ?_⟩
  · exact (names f outside).typing.trans unknown
  · exact (rest.1 c inner).typing.trans ((names c outside').typing.trans unknown')

/-- The names in two headers are typed alike, whatever the bodies are. -/
theorem twins_names_typed (wf' : t'.WellFormed) {f' a' b' c' : NodeId} (here' : t'.Defines f' a' b' c')
    (names : t.Twins (Tree.Headers t t' a a' b b') t') {depth depth' : Nat}
    (enough : Enough t depth f) (enough' : Enough t' depth' f') {w' : Workspace}
    (opened : Workspace.Twin (Tree.Headers t t' a a' b b') t t'
      { w with state := w.state.pushScope } { w' with state := w'.state.pushScope }) :
    (statementLines (resolveWithin depth) f w).2.tree.Twins (Tree.Headers t t' a a' b b')
      (statementLines (resolveWithin depth') f' w').2.tree := by
  obtain ⟨depth, rfl⟩ := enough.exists_succ
  obtain ⟨depth', rfl⟩ := enough'.exists_succ
  have same : w.tree.bare = t.bare := opened.bare
  have same' : w'.tree.bare = t'.bare := opened.bare'
  rw [tree_statementLines, tree_statementLines,
    resolveWithin_function (w := { w with state := w.state.withPending [] }) same depth here.function,
    resolveWithin_function (w := { w' with state := w'.state.withPending [] }) same' depth' here'.function]
  have reopened : Workspace.Twin (Tree.Headers t t' a a' b b') t t'
      { w with state := (w.state.withPending []).pushScope }
      { w' with state := (w'.state.withPending []).pushScope } := opened.of_state rfl rfl rfl
  -- the names first, by both translations
  have all : ∀ i i', Tree.Headers t t' a a' b b' i i' → True := fun _ _ _ => trivial
  have step : ∀ {x x'}, Tree.Headers t t' a a' b b' x x' → x ∈ [a, b] → x' ∈ [a', b'] →
      Twin (Tree.Headers t t' a a' b b') (fun _ => True) t t' (resolveWithin depth x)
        (resolveWithin depth' x') := fun pair mem mem' =>
    twin_resolveWithin all wf wf' names.children depth depth' pair
      (enough.child wf (here.sub_names mem)) (enough'.child wf' (here'.sub_names mem'))
  have steps : List.Forall₂ (fun x x' => Twin (Tree.Headers t t' a a' b b') (fun _ => True) t t'
      (resolveWithin depth x) (resolveWithin depth' x')) [a, b] [a', b'] :=
    .cons (step ⟨true, .top⟩ (by simp) (by simp))
      (.cons (step ⟨false, .top⟩ (by simp) (by simp)) .nil)
  have named := (twin_texts steps reopened).2.1
  -- then the rest, which is apart from them
  have rest := (spares_rest wf here enough
    (w := { w with state := (w.state.withPending []).pushScope }) same).1
  have rest' := spares_rest wf' here' enough' reopened.bare'
  have bare := keeps_node (keeps_resolveWithin depth) f
    { w with state := (w.state.withPending []).pushScope }
  have bare' := keeps_node (keeps_resolveWithin depth') f'
    { w' with state := (w'.state.withPending []).pushScope }
  refine named.trees.of_kept (bare.trans (same.trans named.bare.symm))
    (bare'.trans (same'.trans named.bare'.symm)) ?_ ?_
  · rintro i i' ⟨first, pair⟩
    refine rest i (apart_of_below wf here (x := bif first then a else b) ?_ (pair.below wf wf').1)
    cases first <;> simp
  · rintro i i' ⟨first, pair⟩
    refine rest'.1 i' (apart_of_below wf' here' (x := bif first then a' else b') ?_
      (pair.below wf wf').2)
    cases first <;> simp

end Definition

/-! ## Statements in a row -/

/-- What is below a child of the root is as the parser made it. -/
def Untouched (t : Tree) (ids : List NodeId) (w : Workspace) : Prop :=
  ∀ c ∈ ids, ∀ i, t.Below c i → (t.node i).Kept (w.tree.node i)

section Row

variable (wf : t.WellFormed) {root : NodeId} (top : t.root = some root)
include wf top

theorem block_root : t.category root = .block := by
  obtain ⟨root', top', -, block, -⟩ := wf.root
  obtain rfl := Option.some.inj (top'.symm.trans top)
  exact block

/-- Other statements touch nothing of a statement. -/
theorem kept_blockLines {ids : List NodeId} (sub : ids ⊆ t.children root) {c : NodeId}
    (mem : c ∈ t.children root) (other : c ∉ ids) {w : Workspace} (same : w.tree.bare = t.bare)
    {i : NodeId} (below : t.Below c i) : (w.tree.node i).Kept
      ((blockLines (resolveWithin (t.size + 1)) ids w).2.tree.node i) := by
  refine spares_blockLines wf (block_root wf top) (fun _ mem => enough_of_root wf top mem) sub same i ?_
  rintro ⟨c', mem', below'⟩
  refine other ?_
  rw [wf.apart (wf.parent?_of_mem mem) (wf.parent?_of_mem (sub mem')) below below']
  exact mem'

/-- One statement among others: it is untouched at its turn, and afterwards. -/
theorem exists_turn {l r : List NodeId} {c : NodeId} (cut : t.children root = l ++ c :: r) (s : State) :
    (blockLines (resolveWithin (t.size + 1)) l ⟨t, s⟩).2.tree.bare = t.bare
      ∧ s.Extends (blockLines (resolveWithin (t.size + 1)) l ⟨t, s⟩).2.state
      ∧ Untouched t [c] (blockLines (resolveWithin (t.size + 1)) l ⟨t, s⟩).2
      ∧ ∀ i, t.Below c i → ((statementLines (resolveWithin (t.size + 1)) c
          (blockLines (resolveWithin (t.size + 1)) l ⟨t, s⟩).2).2.tree.node i).Kept
        ((rootLines ⟨t, s⟩).2.tree.node i) := by
  have nodup := wf.nodup_children root
  rw [cut] at nodup
  obtain ⟨-, nodup', apart⟩ := List.nodup_append.mp nodup
  have mem : c ∈ t.children root := by simp [cut]
  have before : l ⊆ t.children root := by simp [cut]
  have after : r ⊆ t.children root := fun x hx => by simp [cut, hx]
  have bare := keeps_blockLines (keeps_resolveWithin (t.size + 1)) l ⟨t, s⟩
  refine ⟨bare, adds_blockLines (adds_resolveWithin _) l ⟨t, s⟩, ?_, fun i below => ?_⟩
  · rintro _ hc i below
    obtain rfl := List.mem_singleton.mp hc
    refine kept_blockLines wf top before mem (fun hl => ?_) (w := ⟨t, s⟩) rfl below
    exact apart _ hl _ List.mem_cons_self rfl
  · rw [rootLines_eq wf top rfl, cut, blockLines_append, blockLines_cons]
    refine kept_blockLines wf top after mem (List.nodup_cons.mp nodup').1 ?_ below
    exact (keeps_statementLines (keeps_resolveWithin _) c _).trans bare

end Row

/-- Two statements that leave the same types behind: twins, or definitions of whatever kind. -/
inductive Alike (t t' : Tree) (c c' : NodeId) : Prop
  | definition : t.category c = .function → t'.category c' = .function → Alike t t' c c'
  | statement {R : NodeId → NodeId → Prop} : t.Twins R t' → R c c' →
      (∀ i i', R i i' → t.Below c i ∧ t'.Below c' i') → Alike t t' c c'

theorem scope_definition {depth : Nat} {f : NodeId} (function : t.category f = .function)
    {w : Workspace} (same : w.tree.bare = t.bare) :
    (statementLines (resolveWithin (depth + 1)) f w).2.state.scope = w.state.scope := by
  have closed := (extends_inScope (adds_node (adds_resolveWithin depth) f)
    { w with state := w.state.withPending [] }).2
  rw [← resolveWithin_function (w := { w with state := w.state.withPending [] }) same depth function] at closed
  unfold statementLines
  dsimp only
  split
  · exact closed
  · exact closed

section Rows

variable (wf : t.WellFormed) (wf' : t'.WellFormed) {root root' : NodeId} (top : t.root = some root)
  (top' : t'.root = some root')
include wf wf' top top'

/-- Twin statements in the same scope. -/
theorem twin_turn {c c' : NodeId} (twins : t.Twins R t') (pair : R c c')
    (below : ∀ i i', R i i' → t.Below c i ∧ t'.Below c' i') (mem : c ∈ t.children root)
    (mem' : c' ∈ t'.children root') {w w' : Workspace} (same : w.tree.bare = t.bare)
    (same' : w'.tree.bare = t'.bare) (untouched : Untouched t [c] w) (untouched' : Untouched t' [c'] w')
    (declared : w'.state.config.declarations = w.state.config.declarations)
    (scope : w'.state.scope = w.state.scope) :
    (statementLines (resolveWithin (t.size + 1)) c w).2.Twin R t t'
      (statementLines (resolveWithin (t'.size + 1)) c' w').2 := by
  have start : w.Twin R t t' w' := by
    refine ⟨same, same', twins.of_kept same same' (fun i i' pair => ?_) (fun i i' pair => ?_),
      declared, scope⟩
    · exact untouched c List.mem_cons_self i (below i i' pair).1
    · exact untouched' c' List.mem_cons_self i' (below i i' pair).2
  exact (twin_statementLines (twin_resolveWithin (Q := fun _ => True) (fun _ _ _ => trivial) wf wf'
    twins.children _ _ pair (enough_of_root wf top mem) (enough_of_root wf' top' mem')) start).1

/-- The same types are known after statements that are alike. -/
theorem scope_blockLines {l l' : List NodeId} (alike : List.Forall₂ (Alike t t') l l')
    (sub : l ⊆ t.children root) (sub' : l' ⊆ t'.children root') (nodup : l.Nodup)
    (nodup' : l'.Nodup) : ∀ {w w' : Workspace}, w.tree.bare = t.bare → w'.tree.bare = t'.bare →
      Untouched t l w → Untouched t' l' w' →
      w'.state.config.declarations = w.state.config.declarations →
      w'.state.scope = w.state.scope →
      (blockLines (resolveWithin (t'.size + 1)) l' w').2.state.scope
        = (blockLines (resolveWithin (t.size + 1)) l w).2.state.scope := by
  induction alike with
  | nil => exact fun _ _ _ _ _ scope => scope
  | @cons c c' l l' first _ ih =>
    intro w w' same same' untouched untouched' declared scope
    obtain ⟨mem, sub⟩ := List.cons_subset.mp sub
    obtain ⟨mem', sub'⟩ := List.cons_subset.mp sub'
    obtain ⟨apart, nodup⟩ := List.nodup_cons.mp nodup
    obtain ⟨apart', nodup'⟩ := List.nodup_cons.mp nodup'
    have later : ∀ {u : Tree} {root c : NodeId} {l : List NodeId} {w : Workspace}, u.WellFormed →
        u.root = some root → c ∈ u.children root → c ∉ l → l ⊆ u.children root →
        w.tree.bare = u.bare → Untouched u (c :: l) w →
        Untouched u l (statementLines (resolveWithin (u.size + 1)) c w).2 := by
      intro u root c l w wf top mem apart sub same untouched x hx i below
      have spares := spares_statementLines wf (wf.parent?_of_mem mem) (.block (block_root wf top))
        (enough_of_root wf top mem) same
      refine (untouched x (List.mem_cons_of_mem c hx) i below).trans (spares i fun below' => ?_)
      rw [wf.apart (wf.parent?_of_mem mem) (wf.parent?_of_mem (sub hx)) below' below] at apart
      exact apart hx
    rw [blockLines_cons, blockLines_cons]
    refine ih sub sub' nodup nodup'
      ((keeps_statementLines (keeps_resolveWithin _) c w).trans same)
      ((keeps_statementLines (keeps_resolveWithin _) c' w').trans same')
      (later wf top mem apart sub same untouched) (later wf' top' mem' apart' sub' same' untouched')
      ?_ ?_
    · rw [(adds_statementLines (adds_resolveWithin _) c w).config,
        (adds_statementLines (adds_resolveWithin _) c' w').config]
      exact declared
    · cases first with
      | definition function function' =>
        rw [scope_definition function same, scope_definition function' same']
        exact scope
      | statement twins pair below =>
        refine (twin_turn wf wf' top top' twins pair below mem mem' same same' ?_ ?_ declared scope).scope
        · exact fun x hx => untouched x (List.mem_cons.mpr (.inl (List.mem_singleton.mp hx)))
        · exact fun x hx => untouched' x (List.mem_cons.mpr (.inl (List.mem_singleton.mp hx)))

end Rows

end Resolving

end MatrixScript
