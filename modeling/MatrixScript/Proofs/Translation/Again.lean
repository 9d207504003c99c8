/-
# `Proofs.Translation.Again` — resolving a program twice

Resolving a program once more changes nothing, if all variables that it assigns
are declared (`Translator.resolve_again`).  The second run is compared with the
first, node by node: it remembers from its start what the first one remembers at
its end (`State.Again`), so whatever the first run adds is there already, and a
node that was hoisted is found under its name.  A variable that is not declared
would keep the type of its last value, hence the condition.
-/
import MatrixScript.Proofs.Translation.Lockstep
import MatrixScript.Proofs.Translation.Temporary

namespace MatrixScript

/-! ## What the second run remembers -/

namespace State

/-- The temporary of a node stays. -/
theorem Grows.temporary? {s r : State} (grows : s.Grows r) {i : NodeId} {e : Temporary}
    (found : s.temporary? i = some e) : r.temporary? i = some e := by
  obtain ⟨more, eq⟩ := grows.temporaries
  rw [State.temporary?] at found
  rw [State.temporary?, ← eq, List.find?_append, found]
  rfl

/-- The second run remembers `last`, where the first one ends, but for its scopes and
the definitions that are pending. -/
structure Again (last s s' : State) : Prop where
  onto : s' = { last with scope := s.scope, outer := s.outer, pending := s.pending }
  config : s.config = last.config
  started : s.clock.started → last.clock.started
  numbered : s.Numbered
  /-- what is pending defines temporaries that are there -/
  defined : ∀ line ∈ s.pending, ∃ e ∈ s.temporaries, e.definition = line

namespace Again

variable {last s s' : State} (h : Again last s s')
include h

theorem lookup (x : String) : s'.lookup x = s.lookup x := by
  rw [h.onto, State.lookup, State.lookup, h.config]

theorem pending : s'.pending = s.pending := by rw [h.onto]

/-- Nothing is left to report. -/
theorem report {t t' : Tree} {i : NodeId} {p : Problem} {m : String} (same : t'.bare = t.bare)
    (grows : (s.report t i p m).Grows last) :
    Again last (s.report t i p m) (s'.report t' i p m) := by
  have known : Diagnostic.ofNode t' i p m ∈ last.diagnostics := by
    have node : Diagnostic.ofNode t' i p m = Diagnostic.ofNode t i p m := by
      rw [Diagnostic.ofNode, Tree.field_of_bare same Node.category fun _ => rfl,
        Tree.field_of_bare same Node.label fun _ => rfl, Diagnostic.ofNode]
    rw [node]
    exact grows.diagnostics (Diagnostic.mem_report.mpr (.inr rfl))
  refine ⟨?_, h.config, h.started, h.numbered.congr rfl rfl rfl, h.defined⟩
  rw [h.onto, State.report, Diagnostic.report, if_pos known]
  rfl

theorem silent {t : Tree} {i : NodeId} {p : Problem} {m : String} :
    Again last (s.report t i p m) s' :=
  ⟨h.onto, h.config, h.started, h.numbered.congr rfl rfl rfl, h.defined⟩

theorem addInclude {i : Include} (grows : (s.addInclude i).Grows last) :
    Again last (s.addInclude i) (s'.addInclude i) := by
  have known : i ∈ last.includes := grows.includes (s.mem_includes_addInclude i)
  refine ⟨?_, h.config, h.started, h.numbered.congr rfl rfl rfl, h.defined⟩
  rw [h.onto, State.addInclude, if_pos known]
  rfl

/-- Declared variables leave no trace. -/
theorem record {x : String} (declared : last.config.declarations.contains x) (d : Datatype) :
    Again last (s.record x d) (s'.record x d) := by
  have kept : ∀ s : State, s.config = last.config → s.record x d = s := by
    intro s config
    rw [State.record, State.isDeclared, config, declared, Bool.or_true, if_pos rfl]
  rw [kept s h.config, kept s' (by rw [h.onto])]
  exact h

/-- A temporary of the first run is there in the second. -/
theorem temporary? {r : State} (grows : r.Grows last) {i : NodeId} {e : Temporary}
    (found : r.temporary? i = some e) : s'.temporary? i = some e := by
  rw [h.onto]
  exact grows.temporary? found

/-- The second run finds the temporary that the first one has or makes. -/
theorem hoist {i : NodeId} {a : String} {d : Datatype} (grows : (s.hoist i a d).Grows last) :
    s'.temporaryName i d = s.temporaryName i d
      ∧ Again last (s.hoist i a d) (s'.hoist i a d) := by
  have hoisted := h.numbered.hoist i a d
  cases found : s.temporary? i with
  | some e =>
    have found' := h.temporary? ((s.grows_hoist i a d).trans grows) found
    have mem : e ∈ s.temporaries := List.mem_of_find?_eq_some found
    refine ⟨by rw [State.temporaryName, found', State.temporaryName, found], ?_⟩
    unfold State.hoist at hoisted ⊢
    rw [found] at hoisted ⊢
    rw [found', h.pending]
    dsimp only at hoisted ⊢
    split
    · exact h
    · rename_i absent
      rw [if_neg absent] at hoisted
      refine ⟨by rw [h.onto], h.config, h.started, hoisted, fun line there => ?_⟩
      rcases List.mem_append.mp there with old | new
      · exact h.defined line old
      · exact ⟨e, mem, (List.mem_singleton.mp new).symm⟩
  | none =>
    have made := (temporary?_hoist_of_new found a d i).trans (if_pos rfl)
    have found' := h.temporary? grows made
    refine ⟨by rw [State.temporaryName, found', State.temporaryName, found], ?_⟩
    have absent : definition (s.nextName d) a d ∉ s.pending := by
      intro mem
      obtain ⟨e, there, eq⟩ := h.defined _ mem
      exact h.numbered.definition_ne there a d eq
    unfold State.hoist at hoisted ⊢
    rw [found] at hoisted ⊢
    rw [found', h.pending]
    dsimp only at hoisted ⊢
    rw [if_neg absent]
    refine ⟨by rw [h.onto], h.config, h.started, hoisted, fun line there => ?_⟩
    rcases List.mem_append.mp there with old | new
    · obtain ⟨e, mem, eq⟩ := h.defined line old
      exact ⟨e, List.mem_append_left _ mem, eq⟩
    · exact ⟨_, List.mem_append_right _ (List.mem_singleton.mpr rfl),
        (List.mem_singleton.mp new).symm⟩

theorem tic (grows : State.Grows { s with clock := s.clock.tic } last) :
    Again last { s with clock := s.clock.tic } { s' with clock := s'.clock.tic } := by
  have clock : last.clock = ⟨true, true⟩ := by
    have started := grows.started rfl
    have used := grows.used rfl
    cases clock : last.clock with
    | mk a b =>
      rw [clock] at started used
      obtain rfl : a = true := started
      obtain rfl : b = true := used
      rfl
  refine ⟨?_, h.config, grows.started, h.numbered.congr rfl rfl rfl, h.defined⟩
  rw [h.onto, WallClock.tic, ← clock]

theorem toc (grows : State.Grows { s with clock := s.clock.toc } last) :
    Again last { s with clock := s.clock.toc } { s' with clock := s'.clock.toc } := by
  have clock : last.clock.toc = last.clock := by
    have used := grows.used rfl
    rw [WallClock.toc, ← used]
  refine ⟨?_, h.config, h.started, h.numbered.congr rfl rfl rfl, h.defined⟩
  rw [h.onto]
  show { last with clock := last.clock.toc, scope := _, outer := _, pending := _ } = _
  rw [clock]

theorem opened : Again last (s.withPending []) (s'.withPending []) :=
  ⟨by rw [h.onto]; rfl, h.config, h.started, h.numbered.congr rfl rfl rfl, nofun⟩

theorem closed {r r' : State} (grows : s.Grows r) (k : Again last r r') :
    Again last (r.withPending s.pending) (r'.withPending s'.pending) := by
  refine ⟨by rw [h.pending, k.onto]; rfl, k.config, k.started, k.numbered.congr rfl rfl rfl,
    fun line mem => ?_⟩
  obtain ⟨e, there, eq⟩ := h.defined line mem
  exact ⟨e, grows.temporaries.subset there, eq⟩

theorem pushScope : Again last s.pushScope s'.pushScope :=
  ⟨by rw [h.onto]; rfl, h.config, h.started, h.numbered.congr rfl rfl rfl, h.defined⟩

theorem popScope : Again last s.popScope s'.popScope := by
  have outer : s'.outer = s.outer := by rw [h.onto]
  unfold State.popScope
  rw [outer]
  split
  · exact h
  · exact ⟨by rw [h.onto], h.config, h.started, h.numbered.congr rfl rfl rfl, h.defined⟩

end Again

/-- The second run goes with the first. -/
def again (last : State) : Simulation .same True last where
  rel := Again last
  assigns x := last.config.declarations.contains x
  lookup h := h.lookup
  clock {s s'} h := by
    have started : s'.clock.started = last.clock.started := by rw [h.onto]
    rw [started]
    cases first : s.clock.started with
    | true => exact .inl (h.started first)
    | false => exact .inr ⟨trivial, rfl⟩
  pending h := by
    rw [h.pending]
    exact List.forall₂_same.mpr fun _ _ => rfl
  report h := h.report
  silent _ h _ := h.silent
  addInclude h := h.addInclude
  record declared h := h.record declared _
  hoist h grows same := by
    obtain rfl := same
    obtain ⟨name, rel⟩ := h.hoist grows
    exact ⟨name.symm, rel⟩
  tic h := h.tic
  toc h := h.toc
  opened h := h.opened
  closed h grows _ := h.closed grows
  pushScope h := h.pushScope
  popScope h := h.popScope

end State

/-! ## Both runs -/

/-- Names of the variables that values are assigned to. -/
def Tree.assigned (t : Tree) : List String :=
  (List.range t.size).flatMap fun id =>
    if t.category id = .assign ∨ t.category id = .assigns then
      ((t.children id).dropLast.filter (t.category · == .var)).map fun c => (t.node c).name
    else []

theorem Tree.WellFormed.mem_assigned {t : Tree} (wf : t.WellFormed) {id c : NodeId}
    (taken : t.Takes id c) (var : t.category c = .var) : (t.node c).name ∈ t.assigned := by
  have lt : id < t.size := wf.parent_lt (wf.parent?_of_mem taken.mem)
  refine List.mem_flatMap.mpr ⟨id, List.mem_range.mpr lt, ?_⟩
  rw [if_pos taken.1]
  exact List.mem_map_of_mem (List.mem_filter.mpr ⟨taken.2, beq_iff_eq.mpr var⟩)

/-- Slots and program together are the whole tree. -/
theorem Tree.ext_of_bare {t t' : Tree} (same : t'.bare = t.bare)
    (slots : ∀ i, t'.node i = t.node i) : t' = t := by
  have size : t'.nodes.size = t.nodes.size := Tree.size_of_bare same
  have nodes : t'.nodes = t.nodes := by
    refine Array.ext size fun i lt lt' => ?_
    have eq := slots i
    rw [node_eq_getD, node_eq_getD, Array.getElem?_eq_getElem lt, Array.getElem?_eq_getElem lt']
      at eq
    exact eq
  have root := Tree.root_of_bare same
  cases t
  cases t'
  congr

/-- Nodes with the same program text and the same slots. -/
theorem Node.ext_of_bare {n n' : Node} (bare : n'.bare = n.bare) (typing : n'.typing = n.typing)
    (suggest : n'.suggest = n.suggest) (redirect : n'.redirect = n.redirect)
    (rendered : n'.rendered = n.rendered) : n' = n := by
  cases n
  cases n'
  cases bare
  cases typing
  cases suggest
  cases redirect
  cases rendered
  rfl

namespace Resolving

open Workspace

/-- A block is resolved to a text, whatever happens in its statements, and leaves no
definition behind. -/
theorem block_returns {t : Tree} {id : NodeId} (block : t.category id = .block)
    {w : Workspace} (same : w.tree.bare = t.bare) (depth : Nat) :
    (∃ text, (resolveWithin (depth + 1) id w).1 = .ok text)
      ∧ (resolveWithin (depth + 1) id w).2.state.pending = w.state.pending := by
  rw [resolveWithin_block same depth block]
  exact ⟨⟨_, rfl⟩, pending_blockLines ..⟩

/-- What the second run starts from. -/
theorem locks_again {t : Tree} (raw : t.Raw) {config : Config} {last : Workspace}
    {P : NodeId → Prop} (leads : Leads P ⟨t, .ofConfig config⟩ last)
    (scope : last.state.scope = .empty) (pending : last.state.pending = []) :
    Locks last.tree last (State.again last.state) t ⟨t, .ofConfig config⟩ last where
  bare := rfl
  bare' := leads.bare
  lawful := raw.lawful
  lawful' := leads.lawful raw.lawful
  lower := leads.redirects
  upper _ := id
  slots _ := ⟨.inr rfl, .inr rfl, .inr rfl, .inr rfl⟩
  state := by
    refine ⟨?_, leads.grows.config.symm, nofun, State.numbered_ofConfig config, nofun⟩
    have outer : last.state.outer = [] := leads.outer
    show last.state = { last.state with scope := .empty, outer := [], pending := [] }
    rw [← scope, ← outer, ← pending]

/-- Two runs that go together from the end of the first one end there. -/
theorem eq_of_locks {t : Tree} {w v : Workspace}
    (locks : Locks w.tree w (State.again w.state) t w v) : v = w := by
  have bare := locks.same
  have node : ∀ i, v.tree.node i = w.tree.node i := by
    intro i
    obtain ⟨typing, suggest, redirect, rendered⟩ := locks.slots i
    refine Node.ext_of_bare (Tree.node_of_bare bare i) (or_self_iff.mp typing)
      (or_self_iff.mp suggest) (or_self_iff.mp redirect) ?_
    rcases rendered with ⟨a, a', first, second, same⟩ | kept
    · obtain rfl : a = a' := or_self_iff.mp same
      rw [first, second]
    · exact kept
  have tree : v.tree = w.tree := Tree.ext_of_bare bare node
  have state : v.state = w.state := locks.state.onto
  cases v
  cases w
  cases tree
  cases state
  rfl

/-- Resolving the root where the first run ends gives the same again. -/
theorem resolveWithin_again {t : Tree} (wf : t.WellFormed) (raw : t.Raw) {config : Config}
    (declared : ∀ x ∈ t.assigned, config.declarations.contains x) {root : NodeId}
    (lt : root < t.size) (block : t.category root = .block) (up : t.parent? root = none)
    {first : Except Error String × Workspace}
    (run : resolveWithin (t.size + 1) root ⟨t, .ofConfig config⟩ = first) :
    resolveWithin (t.size + 1) root first.2 = first := by
  have leads := (steady_resolveWithin wf (t.size + 1) lt).leads ⟨t, .ofConfig config⟩ rfl raw.lawful
  have scope := leads.scope fun j c _ taken var => declared _ (wf.mem_assigned taken var)
  have pending := (block_returns block (w := ⟨t, .ofConfig config⟩) rfl t.size).2
  rw [run] at leads scope pending
  have assigned : ∀ id c, t.Takes id c → t.category c = .var →
      first.2.state.config.declarations.contains (t.node c).name := by
    intro id c taken var
    rw [leads.grows.config]
    exact declared _ (wf.mem_assigned taken var)
  have locked : Locked first.2.tree first.2 (State.again first.2.state) t root
      (resolveWithin (t.size + 1) root) :=
    locked_resolveWithin wf ⟨fun _ _ => trivial, fun _ _ _ _ => trivial⟩ assigned (t.size + 1) lt
  have both := locked ⟨t, .ofConfig config⟩ first.2 (locks_again raw leads scope pending)
    (Tree.near_of_loose up)
  rw [run] at both
  obtain ⟨keeps, together, -⟩ := both ⟨.refl _, fun _ => id⟩ fun _ _ => id
  have same := eq_of_locks keeps.locks
  have text : (resolveWithin (t.size + 1) root first.2).1 = first.1 := by
    generalize first.1 = answer at together ⊢
    generalize (resolveWithin (t.size + 1) root first.2).1 = answer' at together ⊢
    cases together with
    | fail => rfl
    | give writes =>
      rw [block] at writes
      exact congrArg Except.ok writes.symm
  exact Prod.ext text same

end Resolving

namespace Translator

/-- A program in which all assigned variables are declared is resolved to a text, and
resolving it again gives that text and changes nothing, neither in the tree nor in what
is remembered. -/
theorem resolve_again {source : String} {t : Tree} (parsed : Tree.parse source = .ok t)
    {config : Config} (declared : ∀ x ∈ t.assigned, config.declarations.contains x)
    {root : NodeId} (top : t.root = some root) :
    let first := (⟨.ofConfig config⟩ : Translator).resolve t root
    (∃ text, first.1 = .ok text) ∧ first.2.2.resolve first.2.1 root = first := by
  have wf := Tree.wellFormed_of_parsed parsed
  obtain ⟨top', root', last, block, free⟩ := wf.root
  obtain rfl : top' = root := Option.some.inj (root'.symm.trans top)
  have lt : top' < t.size := Nat.lt_of_succ_le (Nat.le_of_eq last)
  have size : (Resolving.resolveWithin (t.size + 1) top' ⟨t, .ofConfig config⟩).2.tree.size
      = t.size := Tree.size_of_bare
    ((Resolving.steady_resolveWithin wf (t.size + 1) lt).leads ⟨t, .ofConfig config⟩ rfl
      (Tree.raw_of_parse parsed).lawful).bare
  have again := Resolving.resolveWithin_again wf (Tree.raw_of_parse parsed) declared lt block free.up
    rfl
  refine ⟨(Resolving.block_returns block (w := ⟨t, .ofConfig config⟩) rfl t.size).1, ?_⟩
  unfold Translator.resolve Resolving.resolve
  dsimp only
  rw [size, again]

/-- The extents of a matrix go into a temporary, in both runs the same one. -/
theorem resolve_again_prod : ∃ t root, Tree.parse "n = prod(size(A))\n" = .ok t
    ∧ t.root = some root
    ∧ let config : Config := { declarations := ⟨[("A", ⟨.matrix, .float⟩), ("n", ⟨.scalar, .float⟩)]⟩ }
      let first := (⟨.ofConfig config⟩ : Translator).resolve t root
      (∃ text, first.1 = .ok text) ∧ first.2.2.resolve first.2.1 root = first := by
  have parses : ∃ t, Tree.parse "n = prod(size(A))\n" = .ok t ∧ t.assigned = ["n"]
      ∧ t.root = some 5 := ⟨_, by cbv, by cbv, by cbv⟩
  obtain ⟨t, run, names, top⟩ := parses
  refine ⟨t, 5, run, top, resolve_again run (fun x mem => ?_) top⟩
  rw [names] at mem
  obtain rfl := List.mem_singleton.mp mem
  decide

end Translator

end MatrixScript
