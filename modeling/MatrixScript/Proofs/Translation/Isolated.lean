/-
# `Proofs.Translation.Isolated` — function definitions are isolated

What is inferred inside of a function definition depends on nothing but that definition
and the declared types; and what is inferred outside of the bodies of functions depends
on none of those bodies (`types_isolated`).

Nodes are addressed by the way that leads to them from the root (`Tree.descend?`), so
nothing depends on how they are numbered.
-/
import MatrixScript.Proofs.Translation.Shared

namespace MatrixScript

variable {R : NodeId → NodeId → Prop} {t t' : Tree}

/-! ## Ways from the root -/

namespace Tree

/-- The node that a way of places among children leads to. -/
def descend? (t : Tree) : List Nat → NodeId → Option NodeId
  | [], i => some i
  | k :: path, i => (t.child? i k).bind (t.descend? path)

/-- What is inferred about the node at the end of a way from the root. -/
def typingAt? (t : Tree) (path : List Nat) : Option Typing :=
  (t.root.bind (t.descend? path)).map fun i => (t.node i).typing

theorem typingAt?_cons {root : NodeId} (top : t.root = some root) (k : Nat) (path : List Nat) :
    t.typingAt? (k :: path) = ((t.children root)[k]?.bind (t.descend? path)).map
      fun i => (t.node i).typing := by
  rw [typingAt?, top]
  rfl

theorem descend?_append (t : Tree) (rest : List Nat) : ∀ (path : List Nat) (i : NodeId),
    t.descend? (path ++ rest) i = (t.descend? path i).bind (t.descend? rest)
  | [], _ => rfl
  | k :: path, i => by
    rw [List.cons_append, descend?, descend?, Option.bind_assoc]
    exact congrArg _ (funext (descend?_append t rest path))

/-- A way leads to every node below. -/
theorem WellFormed.exists_descend (wf : t.WellFormed) {top i : NodeId} (below : t.Below top i) :
    ∃ path, t.descend? path top = some i := by
  obtain ⟨n, climbs⟩ := below
  induction climbs with
  | here => exact ⟨[], rfl⟩
  | @step i parent top _ up _ ih =>
    obtain ⟨path, leads⟩ := ih
    obtain ⟨k, lt, last⟩ := List.getElem_of_mem (wf.heldBy_of_parent? up).mem_children
    refine ⟨path ++ [k], ?_⟩
    rw [descend?_append, leads, Option.bind_some, descend?, child?, List.getElem?_eq_getElem lt, last]
    rfl

/-- The same way leads to twins. -/
theorem Twins.typing_descend (h : t.Twins R t') : ∀ (path : List Nat) {i i' : NodeId}, R i i' →
    (t'.descend? path i').map (fun i => (t'.node i).typing)
      = (t.descend? path i).map fun i => (t.node i).typing
  | [], _, _, pair => congrArg some (h.node pair).typing
  | k :: path, i, i', pair => by
    have children := h.children pair
    rw [descend?, descend?, child?, child?]
    rcases Nat.lt_or_ge k (t.children i).length with lt | ge
    · have lt' : k < (t'.children i').length := children.length_eq ▸ lt
      rw [List.getElem?_eq_getElem lt, List.getElem?_eq_getElem lt']
      exact h.typing_descend path (children.get lt lt')
    · have ge' : (t'.children i').length ≤ k := children.length_eq ▸ ge
      rw [List.getElem?_eq_none ge, List.getElem?_eq_none ge']
      rfl

/-- The same way leads to twins also in definitions whose bodies are no twins. -/
theorem Twins.typing_definition {c x y z c' x' y' z' : NodeId} (h : t.Twins R t') (params : R x x')
    (returns : R y y') (ids : t.children c = [x, y, z]) (ids' : t'.children c' = [x', y', z'])
    (itself : (t'.node c').typing = (t.node c).typing) (body : (t'.node z').typing = (t.node z).typing) :
    ∀ path : List Nat, (∀ m rest, path ≠ 2 :: m :: rest) →
      (t'.descend? path c').map (fun i => (t'.node i).typing)
        = (t.descend? path c).map fun i => (t.node i).typing := by
  intro path outside
  cases path with
  | nil => exact congrArg some itself
  | cons k path =>
    rw [descend?, descend?, child?, child?, ids, ids']
    rcases k with _ | _ | _ | k
    · exact h.typing_descend path params
    · exact h.typing_descend path returns
    · cases path with
      | nil => exact congrArg some body
      | cons m rest => exact absurd rfl (outside m rest)
    · rfl

end Tree

/-! ## Items of programs -/

/-- The items differ in the body of a function definition at most. -/
inductive Item.SameButBody : Item → Item → Prop
  | statement (s : Statement) : SameButBody (.statement s) (.statement s)
  | function (f : Function) (body : List Statement) :
      SameButBody (.function f) (.function { f with body })

/-- The way does not lead into the body of a function. -/
def Program.Outside (p : Program) : List Nat → Prop
  | k :: 2 :: _ :: _ => ∀ f, p[k]? ≠ some (.function f)
  | _ => True

/-! ## At the end of a translation -/

namespace Resolving

open Workspace

theorem bare_run (t : Tree) (s : State) : (rootLines ⟨t, s⟩).2.tree.bare = t.bare :=
  bare_rootLines ⟨t, s⟩

/-- The translation of a program when it comes to its item at a place. -/
def before (p : Program) (s : State) (k : Nat) : Workspace :=
  (blockLines (resolveWithin ((Tree.ofProgram p).size + 1)) ((Tree.tops p).take k)
    ⟨Tree.ofProgram p, s⟩).2

/-- The translation of a program when it is done with the item `c` at a place. -/
def after (p : Program) (s : State) (k : Nat) (c : NodeId) : Workspace :=
  (statementLines (resolveWithin ((Tree.ofProgram p).size + 1)) c (before p s k)).2

section

variable {p p' : Program} (h : p.Accepted) (h' : p'.Accepted) {s s' : State} {k k' : Nat}
  {c c' : NodeId} (here : (Tree.tops p)[k]? = some c) (here' : (Tree.tops p')[k']? = some c')

section

include h here

theorem mem_root : c ∈ (Tree.ofProgram p).children (Tree.forest p).size := by
  rw [Tree.children_root h]
  exact List.mem_of_getElem? here

theorem turn : (before p s k).tree.bare = (Tree.ofProgram p).bare
    ∧ s.Extends (before p s k).state ∧ Untouched (Tree.ofProgram p) [c] (before p s k)
    ∧ ∀ i, (Tree.ofProgram p).Below c i → ((after p s k c).tree.node i).Kept
      ((rootLines ⟨Tree.ofProgram p, s⟩).2.tree.node i) := by
  obtain ⟨lt, rfl⟩ := List.getElem?_eq_some_iff.mp here
  refine exists_turn (Tree.wellFormed_ofProgram h) (Tree.root_ofProgram p) (r := (Tree.tops p).drop (k + 1))
    ?_ s
  rw [Tree.children_root h]
  simp

theorem bare_after : (after p s k c).tree.bare = (Tree.ofProgram p).bare :=
  (keeps_statementLines (keeps_resolveWithin ((Tree.ofProgram p).size + 1)) c (before p s k)).trans
    (turn h here).1

theorem typingAt?_here (path : List Nat) :
    (rootLines ⟨Tree.ofProgram p, s⟩).2.tree.typingAt? (k :: path)
      = ((rootLines ⟨Tree.ofProgram p, s⟩).2.tree.descend? path c).map
        fun i => ((rootLines ⟨Tree.ofProgram p, s⟩).2.tree.node i).typing := by
  have bare := bare_run (Tree.ofProgram p) s
  have top := (Tree.root_of_bare bare).trans (Tree.root_ofProgram p)
  rw [Tree.typingAt?_cons top, Tree.children_of_bare bare, Tree.children_root h, here]
  rfl

end

include h h' here here'

/-- Twins are twins in the end if they are when their turn is over. -/
theorem twins_of_turn (below : ∀ i i', R i i' → (Tree.ofProgram p).Below c i ∧ (Tree.ofProgram p').Below c' i')
    (ended : (after p s k c).tree.Twins R (after p' s' k' c').tree) :
    (rootLines ⟨Tree.ofProgram p, s⟩).2.tree.Twins R (rootLines ⟨Tree.ofProgram p', s'⟩).2.tree := by
  have kept := (turn h here (s := s)).2.2.2
  have kept' := (turn h' here' (s := s')).2.2.2
  have bare := bare_run (Tree.ofProgram p) s
  have bare' := bare_run (Tree.ofProgram p') s'
  have still := bare_after h here (s := s)
  have still' := bare_after h' here' (s := s')
  generalize (rootLines ⟨Tree.ofProgram p, s⟩).2 = u at kept bare ⊢
  generalize (rootLines ⟨Tree.ofProgram p', s'⟩).2 = u' at kept' bare' ⊢
  exact ended.of_kept (bare.trans still.symm) (bare'.trans still'.symm)
    (fun i i' pair => kept i (below i i' pair).1) (fun i i' pair => kept' i' (below i i' pair).2)

end

/-- A definition is typed alike in all programs. -/
theorem typingAt?_definition {p p' : Program} (h : p.Accepted) (h' : p'.Accepted) {s s' : State}
    (declared : s'.config.declarations = s.config.declarations) {k k' : Nat} {f : Function}
    (here : p[k]? = some (.function f)) (here' : p'[k']? = some (.function f)) (path : List Nat) :
    (rootLines ⟨Tree.ofProgram p', s'⟩).2.tree.typingAt? (k' :: path)
      = (rootLines ⟨Tree.ofProgram p, s⟩).2.tree.typingAt? (k :: path) := by
  obtain ⟨R, c, c', top, top', twins, pair, below⟩ := Tree.exists_copy h h' here here'
  obtain ⟨c₀, _, _, _, top₀, defines, -, -⟩ := Tree.exists_definition h here
  obtain rfl := Option.some.inj (top.symm.trans top₀)
  have wf := Tree.wellFormed_ofProgram h
  have wf' := Tree.wellFormed_ofProgram h'
  obtain ⟨bare, extends_, untouched, -⟩ := turn h top (s := s)
  obtain ⟨bare', extends', untouched', -⟩ := turn h' top' (s := s')
  rw [typingAt?_here h top, typingAt?_here h' top']
  refine (twins_of_turn h h' top top' below ?_).typing_descend path pair
  refine twins_definition wf wf' twins.children pair defines.function
    ((twins.node pair).category.trans defines.function)
    (enough_of_root wf (Tree.root_ofProgram p) (mem_root h top))
    (enough_of_root wf' (Tree.root_ofProgram p') (mem_root h' top')) ?_
  refine twin_opened bare bare' (twins.of_kept bare bare' (fun i i' pair => ?_) fun i i' pair => ?_) ?_
  · exact untouched c List.mem_cons_self i (below i i' pair).1
  · exact untouched' c' List.mem_cons_self i' (below i i' pair).2
  · rw [extends_.config, extends'.config]
    exact declared

/-- Definitions with the same tree are typed alike. -/
theorem typingAt?_definition_alike {p p' : Program} (h : p.Accepted) (h' : p'.Accepted) {s s' : State}
    (declared : s'.config.declarations = s.config.declarations) {k k' : Nat} {f f' : Function}
    (here : p[k]? = some (.function f)) (here' : p'[k']? = some (.function f'))
    (alike : Tree.ofProgram [.function f'] = Tree.ofProgram [.function f]) (path : List Nat) :
    (rootLines ⟨Tree.ofProgram p', s'⟩).2.tree.typingAt? (k' :: path)
      = (rootLines ⟨Tree.ofProgram p, s⟩).2.tree.typingAt? (k :: path) := by
  have alone : Program.Accepted [.function f] :=
    List.forall_mem_singleton.mpr (h _ (List.mem_of_getElem? here))
  have alone' : Program.Accepted [.function f'] :=
    List.forall_mem_singleton.mpr (h' _ (List.mem_of_getElem? here'))
  have first := typingAt?_definition (k := 0) (p := [.function f]) alone h (s := s) rfl rfl here path
  have second := typingAt?_definition (k := 0) (p := [.function f']) alone' h' (s := s) declared rfl here' path
  rw [alike, ← first] at second
  exact second

/-! ### Programs that differ in bodies of functions -/

section

variable {p p' : Program} (h : p.Accepted) (h' : p'.Accepted) {s s' : State}
  (same : List.Forall₂ Item.SameButBody p p')
include h h' same

theorem alike_tops :
    List.Forall₂ (Alike (Tree.ofProgram p) (Tree.ofProgram p')) (Tree.tops p) (Tree.tops p') := by
  have lengths : (Tree.tops p).length = (Tree.tops p').length := by
    rw [Tree.length_tops, Tree.length_tops, same.length_eq]
  refine List.forall₂_iff_get.mpr ⟨lengths, fun k lt lt' => ?_⟩
  have bound : k < p.length := Tree.length_tops p ▸ lt
  have bound' : k < p'.length := Tree.length_tops p' ▸ lt'
  have top : ∀ {c}, (Tree.tops p)[k]? = some c → (Tree.tops p).get ⟨k, lt⟩ = c := fun eq => by
    rw [List.getElem?_eq_getElem lt] at eq
    exact Option.some.inj eq
  have top' : ∀ {c}, (Tree.tops p')[k]? = some c → (Tree.tops p').get ⟨k, lt'⟩ = c := fun eq => by
    rw [List.getElem?_eq_getElem lt'] at eq
    exact Option.some.inj eq
  have items := same.get bound bound'
  generalize hi : p.get ⟨k, bound⟩ = i at items
  generalize hi' : p'.get ⟨k, bound'⟩ = i' at items
  have here : p[k]? = some i := (List.getElem?_eq_getElem bound).trans (congrArg some hi)
  have here' : p'[k]? = some i' := (List.getElem?_eq_getElem bound').trans (congrArg some hi')
  cases items with
  | statement st =>
    obtain ⟨R, c, c', hc, hc', twins, pair, below⟩ := Tree.exists_copy h h' here here'
    rw [top hc, top' hc']
    exact .statement twins pair below
  | function f body =>
    obtain ⟨c, _, _, _, hc, defines, -, -⟩ := Tree.exists_definition h here
    obtain ⟨c', _, _, _, hc', defines', -, -⟩ := Tree.exists_definition h' here'
    rw [top hc, top' hc']
    exact .definition defines.function defines'.function

variable (declared : s'.config.declarations = s.config.declarations) (scope : s'.scope = s.scope)
include declared scope

/-- The same types are known when the translations come to the same place. -/
theorem scope_before (k : Nat) : (before p' s' k).state.scope = (before p s k).state.scope := by
  have wf := Tree.wellFormed_ofProgram h
  have wf' := Tree.wellFormed_ofProgram h'
  have nodup := wf.nodup_children (Tree.forest p).size
  have nodup' := wf'.nodup_children (Tree.forest p').size
  have alike := List.forall₂_take k (alike_tops h h' same)
  rw [← Tree.children_root h, ← Tree.children_root h'] at alike
  unfold before
  rw [← Tree.children_root h, ← Tree.children_root h']
  exact scope_blockLines wf wf' (Tree.root_ofProgram p) (Tree.root_ofProgram p') alike
    (List.take_subset ..) (List.take_subset ..) (nodup.sublist (List.take_sublist ..))
    (nodup'.sublist (List.take_sublist ..)) (w := ⟨Tree.ofProgram p, s⟩) rfl rfl
    (fun _ _ _ _ => .refl _) (fun _ _ _ _ => .refl _) declared scope

/-- A statement that both programs have at the same place. -/
theorem typingAt?_statement {k : Nat} {st : Statement} (here : p[k]? = some (.statement st))
    (here' : p'[k]? = some (.statement st)) (path : List Nat) :
    (rootLines ⟨Tree.ofProgram p', s'⟩).2.tree.typingAt? (k :: path)
      = (rootLines ⟨Tree.ofProgram p, s⟩).2.tree.typingAt? (k :: path) := by
  obtain ⟨R, c, c', top, top', twins, pair, below⟩ := Tree.exists_copy h h' here here'
  obtain ⟨bare, grown, untouched, -⟩ := turn h top (s := s)
  obtain ⟨bare', grown', untouched', -⟩ := turn h' top' (s := s')
  rw [typingAt?_here h top, typingAt?_here h' top']
  refine (twins_of_turn h h' top top' below ?_).typing_descend path pair
  have known := scope_before h h' same declared scope k
  have types : (before p' s' k).state.config.declarations = (before p s k).state.config.declarations := by
    rw [grown.config, grown'.config]
    exact declared
  exact (twin_turn (Tree.wellFormed_ofProgram h) (Tree.wellFormed_ofProgram h') (Tree.root_ofProgram p)
    (Tree.root_ofProgram p') twins pair below (mem_root h top) (mem_root h' top') bare bare' untouched
    untouched' types known).trees

end

theorem unknown_of_raw {t : Tree} (raw : t.Raw) {w : Workspace} {i : NodeId}
    (kept : (t.node i).Kept (w.tree.node i)) : (w.tree.node i).typing = .unknown := by
  rw [kept.typing, ← (raw i).bare]
  rfl

/-- A definition and its body are not given a type. -/
theorem unknown_in_the_end {p : Program} (h : p.Accepted) {k : Nat} {c x y z : NodeId}
    (top : (Tree.tops p)[k]? = some c) (defines : (Tree.ofProgram p).Defines c x y z) (s : State) :
    ((rootLines ⟨Tree.ofProgram p, s⟩).2.tree.node c).typing = .unknown
      ∧ ((rootLines ⟨Tree.ofProgram p, s⟩).2.tree.node z).typing = .unknown := by
  have wf := Tree.wellFormed_ofProgram h
  have raw := Tree.raw_ofProgram h
  obtain ⟨bare, -, untouched, kept⟩ := turn h top (s := s)
  have body := wf.below_of_mem defines.mem_body
  have after := unknown_definition wf defines
    (enough_of_root wf (Tree.root_ofProgram p) (mem_root h top)) bare
    (unknown_of_raw raw (untouched c List.mem_cons_self c (Tree.below_self _ c)))
    (unknown_of_raw raw (untouched c List.mem_cons_self z body))
  exact ⟨(kept c (Tree.below_self _ c)).typing.trans after.1, (kept z body).typing.trans after.2⟩

/-- The names in two headers are twins in the end. -/
theorem twins_header_end {p p' : Program} (h : p.Accepted) (h' : p'.Accepted) {s s' : State}
    (declared : s'.config.declarations = s.config.declarations) {k : Nat} {c x y z c' x' y' z' : NodeId}
    (top : (Tree.tops p)[k]? = some c) (top' : (Tree.tops p')[k]? = some c')
    (defines : (Tree.ofProgram p).Defines c x y z) (defines' : (Tree.ofProgram p').Defines c' x' y' z')
    (params : (Tree.ofProgram p').namesOf ((Tree.ofProgram p').children x')
      = (Tree.ofProgram p).namesOf ((Tree.ofProgram p).children x))
    (outputs : (Tree.ofProgram p').namesOf ((Tree.ofProgram p').children y')
      = (Tree.ofProgram p).namesOf ((Tree.ofProgram p).children y)) :
    (rootLines ⟨Tree.ofProgram p, s⟩).2.tree.Twins
      (Tree.Headers (Tree.ofProgram p) (Tree.ofProgram p') x x' y y')
      (rootLines ⟨Tree.ofProgram p', s'⟩).2.tree := by
  have wf := Tree.wellFormed_ofProgram h
  have wf' := Tree.wellFormed_ofProgram h'
  have names : (Tree.ofProgram p).Twins (Tree.Headers (Tree.ofProgram p) (Tree.ofProgram p') x x' y y')
      (Tree.ofProgram p') :=
    Tree.twins_headers wf wf' (Tree.raw_ofProgram h) (Tree.raw_ofProgram h') defines.crown
      defines'.crown (defines.sub_names (by simp)) (defines'.sub_names (by simp))
      (defines.sub_names (by simp)) (defines'.sub_names (by simp)) defines.params defines'.params
      defines.returns defines'.returns params outputs
  have below : ∀ i i', Tree.Headers (Tree.ofProgram p) (Tree.ofProgram p') x x' y y' i i' →
      (Tree.ofProgram p).Below c i ∧ (Tree.ofProgram p').Below c' i' := by
    rintro i i' ⟨first, pair⟩
    have inner := pair.below wf wf'
    cases first with
    | true => exact ⟨(wf.below_of_mem (defines.sub_names (by simp))).trans inner.1,
        (wf'.below_of_mem (defines'.sub_names (by simp))).trans inner.2⟩
    | false => exact ⟨(wf.below_of_mem (defines.sub_names (by simp))).trans inner.1,
        (wf'.below_of_mem (defines'.sub_names (by simp))).trans inner.2⟩
  obtain ⟨bare, grown, untouched, -⟩ := turn h top (s := s)
  obtain ⟨bare', grown', untouched', -⟩ := turn h' top' (s := s')
  refine twins_of_turn h h' top top' below ?_
  refine twins_names_typed wf defines wf' defines' names
    (enough_of_root wf (Tree.root_ofProgram p) (mem_root h top))
    (enough_of_root wf' (Tree.root_ofProgram p') (mem_root h' top')) ?_
  refine twin_opened bare bare' (names.of_kept bare bare' (fun i i' pair => ?_) fun i i' pair => ?_) ?_
  · exact untouched c List.mem_cons_self i (below i i' pair).1
  · exact untouched' c' List.mem_cons_self i' (below i i' pair).2
  · rw [grown.config, grown'.config]
    exact declared

/-- Outside of their bodies, definitions with the same header are typed alike. -/
theorem typingAt?_header {p p' : Program} (h : p.Accepted) (h' : p'.Accepted) {s s' : State}
    (declared : s'.config.declarations = s.config.declarations) {k : Nat} {f : Function}
    {body : List Statement} (here : p[k]? = some (.function f))
    (here' : p'[k]? = some (.function { f with body })) {path : List Nat}
    (outside : ∀ m rest, path ≠ 2 :: m :: rest) :
    (rootLines ⟨Tree.ofProgram p', s'⟩).2.tree.typingAt? (k :: path)
      = (rootLines ⟨Tree.ofProgram p, s⟩).2.tree.typingAt? (k :: path) := by
  obtain ⟨c, x, y, z, top, defines, params, outputs⟩ := Tree.exists_definition h here
  obtain ⟨c', x', y', z', top', defines', params', outputs'⟩ := Tree.exists_definition h' here'
  have unknown := unknown_in_the_end h top defines s
  have unknown' := unknown_in_the_end h' top' defines' s'
  have final := twins_header_end h h' declared top top' defines defines'
    (params'.trans params.symm) (outputs'.trans outputs.symm)
  have held := Tree.children_of_bare (bare_run (Tree.ofProgram p) s)
  have held' := Tree.children_of_bare (bare_run (Tree.ofProgram p') s')
  rw [typingAt?_here h top, typingAt?_here h' top']
  exact final.typing_definition ⟨true, .top⟩ ⟨false, .top⟩
    ((congrFun held c).trans defines.children) ((congrFun held' c').trans defines'.children)
    (unknown'.1.trans unknown.1.symm) (unknown'.2.trans unknown.2.symm) path outside

theorem typingAt?_beyond {p : Program} (h : p.Accepted) {k : Nat} (ge : p.length ≤ k) (s : State)
    (path : List Nat) : (rootLines ⟨Tree.ofProgram p, s⟩).2.tree.typingAt? (k :: path) = none := by
  have bare := bare_run (Tree.ofProgram p) s
  have top := (Tree.root_of_bare bare).trans (Tree.root_ofProgram p)
  rw [Tree.typingAt?_cons top, Tree.children_of_bare bare, Tree.children_root h,
    List.getElem?_eq_none (Tree.length_tops p ▸ ge)]
  rfl

/-- The root is not given a type. -/
theorem typingAt?_root {p : Program} (h : p.Accepted) (s : State) :
    (rootLines ⟨Tree.ofProgram p, s⟩).2.tree.typingAt? [] = some .unknown := by
  have wf := Tree.wellFormed_ofProgram h
  have top := Tree.root_ofProgram p
  have bare := bare_run (Tree.ofProgram p) s
  have kept : ((Tree.ofProgram p).node (Tree.forest p).size).Kept
      ((rootLines ⟨Tree.ofProgram p, s⟩).2.tree.node (Tree.forest p).size) := by
    rw [rootLines_eq wf top rfl]
    refine spares_blockLines wf (block_root wf top) (fun _ mem => enough_of_root wf top mem)
      (List.Subset.refl _) (w := ⟨Tree.ofProgram p, s⟩) rfl _ ?_
    rintro ⟨c, mem, below⟩
    exact wf.not_below_child mem below
  rw [Tree.typingAt?, (Tree.root_of_bare bare).trans top]
  exact congrArg some (unknown_of_raw (Tree.raw_ofProgram h) kept)

/-- Bodies of functions are no matter of what is inferred outside of them. -/
theorem typingAt?_outside {p p' : Program} (h : p.Accepted) (h' : p'.Accepted) {s s' : State}
    (same : List.Forall₂ Item.SameButBody p p')
    (declared : s'.config.declarations = s.config.declarations) (scope : s'.scope = s.scope) :
    ∀ path : List Nat, p.Outside path → (rootLines ⟨Tree.ofProgram p', s'⟩).2.tree.typingAt? path
      = (rootLines ⟨Tree.ofProgram p, s⟩).2.tree.typingAt? path
  | [], _ => by
    rw [typingAt?_root h, typingAt?_root h']
  | k :: path, outside => by
    rcases Nat.lt_or_ge k p.length with lt | ge
    · have lt' : k < p'.length := same.length_eq ▸ lt
      have items := same.get lt lt'
      have here : p[k]? = some (p.get ⟨k, lt⟩) := List.getElem?_eq_getElem lt
      have here' : p'[k]? = some (p'.get ⟨k, lt'⟩) := List.getElem?_eq_getElem lt'
      generalize p.get ⟨k, lt⟩ = i at items here
      generalize p'.get ⟨k, lt'⟩ = i' at items here'
      cases items with
      | statement st => exact typingAt?_statement h h' same declared scope here here' path
      | function f body =>
        refine typingAt?_header h h' declared here here' fun m rest eq => ?_
        subst eq
        exact outside f here
    · have ge' : p'.length ≤ k := same.length_eq ▸ ge
      rw [typingAt?_beyond h ge, typingAt?_beyond h' ge']

end Resolving

open Resolving

namespace Translator

/-- A translator of a configuration starts with what the configuration says. -/
theorem state_of_withConfig {config : Config} {tr : Translator} (valid : withConfig config = .ok tr) :
    tr.state = .ofConfig config := by
  unfold withConfig Config.validate at valid
  cases reserved : config.reservedDeclaration? with
  | some name =>
    rw [reserved] at valid
    cases valid
  | none =>
    rw [reserved] at valid
    cases valid
    rfl

theorem tree_translate (tr : Translator) (t : Tree) :
    (tr.translate t).2.1 = (rootLines ⟨t, tr.state⟩).2.tree := rfl

/-- What is inferred in a function definition depends on the tree of the definition and the
declared types alone, wherever it stands; and what is inferred outside of the bodies of functions
does not depend on those bodies. -/
theorem types_isolated {source source' : String} {p p' : Program}
    {config config' : Config} {tr tr' : Translator} (parsed : Program.parse source = .ok p)
    (parsed' : Program.parse source' = .ok p') (valid : Translator.withConfig config = .ok tr)
    (valid' : Translator.withConfig config' = .ok tr')
    (declared : config'.declarations = config.declarations) :
    (∀ (f f' : Function) (k k' : Nat), p[k]? = some (.function f) → p'[k']? = some (.function f') →
      Tree.ofProgram [.function f'] = Tree.ofProgram [.function f] →
      ∀ path, (tr'.translate (Tree.ofProgram p')).2.1.typingAt? (k' :: path)
        = (tr.translate (Tree.ofProgram p)).2.1.typingAt? (k :: path))
    ∧ (List.Forall₂ Item.SameButBody p p' → ∀ path, p.Outside path →
      (tr'.translate (Tree.ofProgram p')).2.1.typingAt? path
        = (tr.translate (Tree.ofProgram p)).2.1.typingAt? path) := by
  have h := Program.accepted_of_parse parsed
  have h' := Program.accepted_of_parse parsed'
  have state := state_of_withConfig valid
  have state' := state_of_withConfig valid'
  have types : tr'.state.config.declarations = tr.state.config.declarations := by
    rw [state, state']
    exact declared
  have scope : tr'.state.scope = tr.state.scope := by
    rw [state, state']
    rfl
  rw [tree_translate, tree_translate]
  exact ⟨fun f f' k k' here here' => typingAt?_definition_alike h h' types here here',
    fun same => typingAt?_outside h h' same types scope⟩

/-- The same definition behind other statements, and another body under the same header. -/
theorem types_isolated_moved : ∃ p p' p'' : Program, ∃ tr : Translator,
    Program.parse "function y=f(x)\ny=x\nend\nz=x\n" = .ok p
    ∧ Program.parse "w=x\nfunction y=f(x)\ny=x\nend\n" = .ok p'
    ∧ Program.parse "function y=f(x)\ny=g(size(x))\nend\nz=x\n" = .ok p''
    ∧ withConfig { declarations := ⟨[("x", ⟨.matrix, .float⟩)]⟩ } = .ok tr
    ∧ (∀ path, (tr.translate (Tree.ofProgram p')).2.1.typingAt? (1 :: path)
      = (tr.translate (Tree.ofProgram p)).2.1.typingAt? (0 :: path))
    ∧ ∀ path, p.Outside path → (tr.translate (Tree.ofProgram p'')).2.1.typingAt? path
      = (tr.translate (Tree.ofProgram p)).2.1.typingAt? path := by
  let name (x : String) : Expr := .name x
  let f (body : List Statement) : Function := ⟨"f", ["y"], ["x"], body⟩
  let assign (x : String) (e : Expr) : Statement := .assign (.variable x) e
  have parsed : Program.parse "function y=f(x)\ny=x\nend\nz=x\n"
      = .ok [.function (f [assign "y" (name "x")]), .statement (assign "z" (name "x"))] := by cbv
  have parsed' : Program.parse "w=x\nfunction y=f(x)\ny=x\nend\n"
      = .ok [.statement (assign "w" (name "x")), .function (f [assign "y" (name "x")])] := by cbv
  have parsed'' : Program.parse "function y=f(x)\ny=g(size(x))\nend\nz=x\n"
      = .ok [.function (f [assign "y" (.call "g" [.call "size" [name "x"]])]),
        .statement (assign "z" (name "x"))] := by cbv
  let config : Config := { declarations := ⟨[("x", ⟨.matrix, .float⟩)]⟩ }
  have valid : withConfig config = .ok ⟨.ofConfig config⟩ := rfl
  refine ⟨_, _, _, _, parsed, parsed', parsed'', valid, ?_, ?_⟩
  · exact (types_isolated parsed parsed' valid valid rfl).1 _ _ 0 1 rfl rfl rfl
  · exact (types_isolated parsed parsed'' valid valid rfl).2
      (.cons (.function _ _) (.cons (.statement _) .nil))

end Translator

end MatrixScript
