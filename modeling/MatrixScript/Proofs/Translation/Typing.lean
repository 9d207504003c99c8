/-
# `Proofs.Translation.Typing` — what inferred types can be relied on for

Two things hold of what is inferred about the nodes of a tree.  Whatever counts as a
number has a known shape and is stored as a number (`Tree.Handled.numeric_known`); that
holds after any translations of the tree, and of single nodes of it, by any translators.
And a type is known in both of its parts or in neither (`Translator.types_whole`), unless
the program reduces along an axis what only holds the place of an array: then a shape is
given to a value of which nothing is known (`Translator.types_whole_max_not`).

Both say something of every node, and every step of a translation keeps that up
(`Resolving.Stable`).
-/
import MatrixScript.Proofs.Translation.Frame

namespace MatrixScript

/-! ## What holds of every node -/

namespace Tree

variable {p : Node → Prop}

theorem forall_modify {t : Tree} (h : ∀ i, p (t.node i)) {i : NodeId} {f : Node → Node}
    (step : p (t.node i) → p (f (t.node i))) (j : NodeId) : p ((t.modify i f).node j) := by
  rw [node_modify]
  split
  case isTrue here =>
    obtain ⟨rfl, -⟩ := here
    exact step (h j)
  case isFalse => exact h j

end Tree

/-- What holds of every node holds of it after an effect, if it does after the change that
the effect makes. -/
theorem Workspace.forall_perform {p : Node → Prop} {s : Site} {v : Workspace} {e : Effect}
    (same : v.tree.bare = s.tree.bare) (modest : e.Modest s)
    (text : ∀ n x, p n → p { n with rendered := some x })
    (redirect : ∀ n b, n.category = .assign → p n → p { n with redirect := some b })
    (typed : ∀ n d, (s.tree.Sound → s.Whole → d.Whole) → p n →
      p { n with suggest := some d, typing := .of d })
    (h : ∀ i, p (v.tree.node i)) : ∀ i, p ((v.perform s.id e).tree.node i) := by
  cases modest with
  | report | use | record | tic | toc => exact h
  | hoist => exact Tree.forall_modify h (text _ _)
  | redirect assign =>
    show ∀ i, p ((v.redirectParent s.id _).tree.node i)
    unfold redirectParent
    split
    case h_2 => exact h
    case h_1 above up =>
      refine Tree.forall_modify h (redirect _ _ ?_)
      obtain ⟨parent, found, category⟩ := Option.map_eq_some_iff.mp assign
      rw [Tree.parent?_of_bare same] at up
      rw [Site.parent?, up] at found
      cases found
      exact (congrFun (Tree.category_of_bare same) above).trans category
  | @destination o d _ whole =>
    have changed : ∀ i, p ((v.tree.modify o.id fun n =>
        { n with suggest := some d, typing := .of d }).node i) :=
      Tree.forall_modify h (typed _ d whole)
    show ∀ i, p ((v.typeDestination o.id d).tree.node i)
    unfold typeDestination
    dsimp only
    split
    · exact changed
    · exact changed

/-! ## Numbers -/

theorem Typing.Sound.storage {typing : Typing} (h : typing.Sound) (numeric : typing.numeric) :
    typing.datatype.shape ≠ .unknown
      ∧ typing.datatype.cls ∈ [StorageClass.int, .uword, .float, .complex] := by
  have both := Bool.and_eq_true _ _ |>.mp (h numeric)
  refine ⟨(Datatype.isKnown_iff.mp both.1).1, ?_⟩
  have number := both.2
  generalize typing.datatype.cls = c at number
  cases c <;> first | cases number; done | decide

theorem Workspace.sound_seedTyping (t : Tree) (n : Node) : (seedTyping t n).Sound := by
  unfold seedTyping
  split
  · exact fun numeric => (Bool.and_eq_true _ _ |>.mp numeric).1
  · exact Typing.sound_unknown

theorem Resolving.stable_sound (t : Tree) :
    Stable t (fun _ => True) fun w => w.tree.bare = t.bare ∧ w.tree.Sound where
  children _ _ _ _ := trivial
  bare _ holds := holds.1
  state _ _ holds _ _ _ _ := holds
  opened _ holds := holds
  closed _ holds := holds
  seed id w _ holds := ⟨(w.bare_seed id).trans holds.1,
    Tree.forall_modify (p := fun n => n.typing.Sound) holds.2 fun _ =>
      Workspace.sound_seedTyping _ _⟩
  effect s v e _ here _ modest holds := ⟨(Workspace.bare_perform s.id v e).trans holds.1,
    Workspace.forall_perform (p := fun n => n.typing.Sound) (holds.1.trans here.1.symm) modest
      (fun _ _ sound => sound) (fun _ _ _ sound => sound) (fun _ d _ _ => Typing.sound_of d) holds.2⟩
  write s v _ _ _ here _ settled holds :=
    ⟨(v.bare_modifyNode s.id fun _ => by rfl).trans holds.1,
      Tree.forall_modify (p := fun n => n.typing.Sound) holds.2 fun _ => settled.sound here.2⟩

/-- The tree of a script, or what translating it, or single nodes of it, has made of it. -/
inductive Tree.Handled : Tree → Prop
  | parsed {source : String} {t : Tree} : Tree.parse source = .ok t → Handled t
  | translated {t : Tree} (translator : Translator) : Handled t →
      Handled (translator.translate t).2.1
  | resolved {t : Tree} (translator : Translator) (id : NodeId) : Handled t →
      Handled (translator.resolve t id).2.1

namespace Tree.Handled

theorem wellFormed_and_sound {t : Tree} (h : t.Handled) : t.WellFormed ∧ t.Sound := by
  induction h with
  | parsed run =>
    have sound := (raw_of_parse run).forall_node (p := fun n => n.typing.Sound)
      fun _ => Typing.sound_unknown
    obtain ⟨p, accepted, rfl⟩ := exists_program_of_parse run
    exact ⟨wellFormed_ofProgram accepted, sound⟩
  | @translated t translator _ ih =>
    have after := Resolving.stable_rootLines (Resolving.stable_sound t) ih.1 (fun _ _ => trivial)
      (w := ⟨t, translator.state⟩) ⟨rfl, ih.2⟩
    exact ⟨ih.1.of_bare after.1, after.2⟩
  | @resolved t translator id _ ih =>
    have after := Resolving.stable_resolveWithin (Resolving.stable_sound t) ih.1 (t.size + 1) id
      trivial ⟨t, translator.state⟩ ⟨rfl, ih.2⟩
    exact ⟨ih.1.of_bare after.1, after.2⟩

/-- A node that counts as a number has a known shape and is stored as a number, whatever
was done to the tree and whatever failed then. -/
theorem numeric_known {t : Tree} (h : t.Handled) (i : NodeId) (numeric : (t.node i).numeric) :
    (t.node i).shape ≠ .unknown
      ∧ (t.node i).cls ∈ [StorageClass.int, .uword, .float, .complex] :=
  (h.wellFormed_and_sound.2 i).storage numeric

/-- A statement that fails, and a row of one array that is resolved again by another
translator. -/
theorem numeric_known_row : ∃ t, Tree.parse "pi = 2\ny = [A]\n" = .ok t ∧
    let vector : Translator := ⟨.ofConfig { declarations := ⟨[("A", ⟨.colvec, .complex⟩)]⟩ }⟩
    let matrix : Translator := ⟨.ofConfig { declarations := ⟨[("A", ⟨.matrix, .uword⟩)]⟩ }⟩
    let tree := (matrix.resolve (vector.translate t).2.1 5).2.1
    (tree.node 5).numeric ∧ (tree.node 5).shape ≠ .unknown
      ∧ (tree.node 5).cls ∈ [StorageClass.int, .uword, .float, .complex] := by
  have parses : ∃ t, Tree.parse "pi = 2\ny = [A]\n" = .ok t ∧
      let vector : Translator := ⟨.ofConfig { declarations := ⟨[("A", ⟨.colvec, .complex⟩)]⟩ }⟩
      let matrix : Translator := ⟨.ofConfig { declarations := ⟨[("A", ⟨.matrix, .uword⟩)]⟩ }⟩
      ((matrix.resolve (vector.translate t).2.1 5).2.1.node 5).numeric :=
    ⟨_, by cbv, by decide +kernel⟩
  obtain ⟨t, run, numeric⟩ := parses
  exact ⟨t, run, numeric, numeric_known (.resolved _ 5 (.translated _ (.parsed run))) 5 numeric⟩

end Tree.Handled

/-! ## Types known in both parts -/

instance (d : Datatype) : Decidable d.Whole := inferInstanceAs (Decidable (_ ∨ _))

/-- Every type that has a name is known in both parts, or unknown. -/
theorem Datatype.whole_of_name {text : String} {d : Datatype} (named : ofText text = .ok d) :
    d.Whole := by
  have all : ∀ e ∈ names, e.2.Whole := by decide
  unfold ofText at named
  split at named
  case h_2 => cases named
  case h_1 found =>
    cases named
    obtain ⟨before, after, eq, -⟩ := List.lookup_eq_some_iff.mp found
    exact all (_, d) (by rw [eq]; exact List.mem_append_right _ List.mem_cons_self)

namespace NameTable

/-- All types in the table are known in both parts, or unknown. -/
def Whole (table : NameTable Datatype) : Prop := ∀ x d, table.get? x = some d → d.Whole

theorem whole_empty : (empty : NameTable Datatype).Whole := nofun

theorem Whole.insert {table : NameTable Datatype} (h : table.Whole) {name : String}
    {d : Datatype} (whole : d.Whole) : (table.insert name d).Whole := by
  intro x e found
  rw [get?_insert] at found
  split at found
  · cases found
    exact whole
  · exact h x e found

end NameTable

namespace State

/-- All types that are remembered of variables are known in both parts, or unknown. -/
structure Whole (s : State) : Prop where
  declared : s.config.declarations.Whole
  scope : s.scope.Whole
  outer : ∀ scope ∈ s.outer, scope.Whole

variable {s : State} (h : s.Whole)
include h

theorem Whole.lookup (x : String) (d : Datatype) (found : s.lookup x = some d) : d.Whole := by
  unfold State.lookup at found
  split at found
  case h_1 declared =>
    cases found
    exact h.declared x d declared
  case h_2 => exact h.scope x d found

theorem Whole.record (x : String) (d : Datatype) : (s.record x d).Whole := by
  unfold State.record
  split
  · exact h
  case isFalse trace =>
    have known : d.isKnown := by
      cases eq : d.isKnown with
      | true => rfl
      | false => exact absurd (by rw [eq]; rfl) trace
    have merged : (s.merged x d).Whole := by
      unfold State.merged
      split
      · split
        · exact .inr known
        · exact Datatype.whole_join _ d
      · exact .inr known
    exact ⟨h.declared, h.scope.insert merged, h.outer⟩

theorem Whole.pushScope : s.pushScope.Whole :=
  ⟨h.declared, NameTable.whole_empty, List.forall_mem_cons.mpr ⟨h.scope, h.outer⟩⟩

theorem Whole.popScope : s.popScope.Whole := by
  unfold State.popScope
  split
  · exact h
  case h_2 eq =>
    have scopes := h.outer
    rw [eq] at scopes
    obtain ⟨first, rest⟩ := List.forall_mem_cons.mp scopes
    exact ⟨h.declared, first, rest⟩

end State

/-- A call of `min` or `max` along a literal axis, of an empty matrix literal. -/
def Tree.ReducesNothing (t : Tree) (id : NodeId) : Prop :=
  t.category id = .get ∧ ((t.node id).name = "min" ∨ (t.node id).name = "max")
    ∧ ∃ x y axis, t.children id = [x, y, axis] ∧ t.category x = .matrix ∧ t.children x = []
      ∧ (t.node axis).isAxis

/-- A node with a type that is known in both parts, or unknown, so that no rule changes that. -/
structure Node.Whole (n : Node) : Prop where
  sound : n.typing.Sound
  whole : n.datatype.Whole
  redirect : n.redirect.isSome → n.category = .assign

/-- All types are known in both parts, or unknown. -/
structure Workspace.Whole (w : Workspace) : Prop where
  node : ∀ i, (w.tree.node i).Whole
  state : w.state.Whole

namespace Workspace.Whole

variable {t : Tree}

/-- No rule is asked to reduce what holds a place, if the program does not. -/
theorem site (none : ∀ id, ¬t.ReducesNothing id) {s : Site} (h : Whole ⟨s.tree, s.state⟩)
    (same : s.tree.bare = t.bare) (seeded : s.Seeded) : s.Whole where
  tree i := (h.node i).whole
  lookup := h.state.lookup
  reduces get extremum := by
    rintro ⟨x, y, axis, operands, place, literal⟩
    have redirect : s.node.redirect = Option.none := by
      cases eq : s.node.redirect with
      | none => rfl
      | some b =>
        have assign := (h.node s.id).redirect (Option.isSome_iff_exists.mpr ⟨b, eq⟩)
        cases get.symm.trans assign
    have name : (t.node s.id).name = "min" ∨ (t.node s.id).name = "max" := by
      rw [← Tree.name_of_bare same s.id]
      rcases extremum with min | max
      · exact .inl (Rule.name_of_builtinOf? redirect (.inr get) min nofun nofun)
      · exact .inr (Rule.name_of_builtinOf? redirect (.inr get) max nofun nofun)
    have node : ∀ o ∈ [x, y, axis], o.node.bare = (t.node o.id).bare := fun o mem => by
      rw [seeded.node o (operands ▸ mem), Tree.node_of_bare same]
    have first := node x List.mem_cons_self
    have last := node axis (by simp)
    obtain ⟨matrix, empty⟩ := Bool.and_eq_true _ _ |>.mp place
    refine none s.id ⟨?_, name, x.id, y.id, axis.id, ?_, ?_, ?_, ?_⟩
    · exact (congrFun (Tree.category_of_bare same) s.id).symm.trans get
    · rw [← Tree.children_of_bare same, ← seeded.ids, operands]
      rfl
    · exact (congrArg Node.category first).symm.trans (eq_of_beq matrix)
    · exact (congrArg Node.children first).symm.trans (List.isEmpty_iff.mp empty)
    · have value : (axis.node.bare).intValue? = ((t.node axis.id).bare).intValue? :=
        congrArg Node.intValue? last
      show (t.node axis.id).intValue? = _ ∨ (t.node axis.id).intValue? = _
      rw [show (t.node axis.id).intValue? = axis.node.intValue? from value.symm]
      exact literal

theorem seed {w : Workspace} (h : w.Whole) (id : NodeId) : (w.seed id).Whole where
  node := Tree.forall_modify h.node fun whole => by
    refine ⟨sound_seedTyping _ _, ?_, whole.redirect⟩
    show (seedTyping _ _).datatype.Whole
    unfold seedTyping
    split
    · exact Datatype.whole_joinAll (List.forall_mem_map.mpr (List.forall_mem_map.mpr
        fun c _ => (h.node c).whole))
    · exact Datatype.whole_unknown
  state := h.state

theorem perform {s : Site} {v : Workspace} {e : Effect} (same : v.tree.bare = s.tree.bare)
    (modest : e.Modest s) (sound : s.tree.Sound) (whole : s.Whole) (h : v.Whole) :
    (v.perform s.id e).Whole where
  node := forall_perform same modest (fun _ _ there => ⟨there.sound, there.whole, there.redirect⟩)
    (fun _ _ assign there => ⟨there.sound, there.whole, fun _ => assign⟩)
    (fun _ d known there => ⟨Typing.sound_of d, known sound whole, there.redirect⟩) h.node
  state := by
    cases modest with
    | report | use | tic | toc => exact ⟨h.state.declared, h.state.scope, h.state.outer⟩
    | record => exact h.state.record _ _
    | redirect =>
      show (v.redirectParent s.id _).state.Whole
      unfold redirectParent
      split
      · exact h.state
      · exact h.state
    | @hoist node text d =>
      obtain ⟨outer, scope⟩ := v.state.scopes_hoist node text d
      show (v.state.hoist node text d).Whole
      refine ⟨?_, ?_, ?_⟩
      · rw [(v.state.grows_hoist node text d).config]
        exact h.state.declared
      · rw [scope]
        exact h.state.scope
      · rw [outer]
        exact h.state.outer
    | destination =>
      show (v.typeDestination _ _).state.Whole
      unfold typeDestination
      dsimp only
      split
      · exact h.state.record _ _
      · exact h.state

end Workspace.Whole

theorem Resolving.stable_whole {t : Tree} (none : ∀ id, ¬t.ReducesNothing id) :
    Stable t (fun _ => True) fun w => w.tree.bare = t.bare ∧ w.Whole where
  children _ _ _ _ := trivial
  bare _ holds := holds.1
  state w s holds config scope outer _ := by
    refine ⟨holds.1, holds.2.node, ?_, ?_, ?_⟩
    · rw [config]
      exact holds.2.state.declared
    · rw [scope]
      exact holds.2.state.scope
    · rw [outer]
      exact holds.2.state.outer
  opened w holds := ⟨holds.1, holds.2.node, holds.2.state.pushScope⟩
  closed w holds := ⟨holds.1, holds.2.node, holds.2.state.popScope⟩
  seed id w _ holds := ⟨(w.bare_seed id).trans holds.1, holds.2.seed id⟩
  effect s v e _ here seeded modest holds := ⟨(Workspace.bare_perform s.id v e).trans holds.1,
    holds.2.perform (holds.1.trans here.1.symm) modest (fun i => (here.2.node i).sound)
      (here.2.site none here.1 seeded)⟩
  write s v o text _ here seeded settled holds := by
    have sound : s.tree.Sound := fun i => (here.2.node i).sound
    refine ⟨(v.bare_modifyNode s.id fun _ => by rfl).trans holds.1, ?_, holds.2.state⟩
    exact Tree.forall_modify holds.2.node fun there => ⟨settled.sound sound,
      settled.whole sound (here.2.site none here.1 seeded), there.redirect⟩

namespace Translator

/-- After a translation the type of every node is unknown, or known in both of its parts,
if declared types have names and no extremum reduces what holds a place. -/
theorem types_whole {source : String} {t : Tree} (parsed : Tree.parse source = .ok t)
    {config : Config} (named : ∀ x d, config.declarations.get? x = some d →
      ∃ text, Datatype.ofText text = .ok d)
    (none : ∀ id, ¬t.ReducesNothing id) (i : NodeId) :
    let n := ((⟨.ofConfig config⟩ : Translator).translate t).2.1.node i
    n.datatype = .unknown ∨ n.shape ≠ .unknown ∧ n.cls ≠ .unresolved := by
  have raw := Tree.raw_of_parse parsed
  obtain ⟨p, accepted, rfl⟩ := Tree.exists_program_of_parse parsed
  have start : Workspace.Whole ⟨Tree.ofProgram p, .ofConfig config⟩ := by
    refine ⟨raw.forall_node fun n => ⟨Typing.sound_unknown, Datatype.whole_unknown, nofun⟩, ?_,
      NameTable.whole_empty, nofun⟩
    intro x d found
    obtain ⟨text, name⟩ := named x d found
    exact Datatype.whole_of_name name
  have after := Resolving.stable_rootLines (Resolving.stable_whole none)
    (Tree.wellFormed_ofProgram accepted) (fun _ _ => trivial) ⟨rfl, start⟩
  exact (after.2.node i).whole.imp_right Datatype.isKnown_iff.mp

/-- An extremum along an axis, whose second argument holds a place. -/
theorem types_whole_min : ∃ t, Tree.parse "y = min(A, [], 1)\n" = .ok t ∧
    ∀ i, let n := ((⟨.ofConfig { declarations := ⟨[("A", ⟨.matrix, .float⟩)]⟩ }⟩ :
        Translator).translate t).2.1.node i
      n.datatype = .unknown ∨ n.shape ≠ .unknown ∧ n.cls ≠ .unresolved := by
  have parses : ∃ t, Tree.parse "y = min(A, [], 1)\n" = .ok t
      ∧ (∀ i < t.size, t.category i = .get → t.children i = [2, 3, 4])
      ∧ t.category 2 = .var := ⟨_, by cbv, by decide, by decide⟩
  obtain ⟨t, run, call, var⟩ := parses
  refine ⟨t, run, types_whole run (fun x d found => ⟨"mat", ?_⟩) ?_⟩
  · unfold NameTable.get? NameTable.find? at found
    split at found
    · cases found
      rfl
    · cases found
  · rintro id ⟨get, -, x, y, axis, children, matrix, -⟩
    have lt : id < t.size := Tree.lt_size_of_category get (by decide)
    have first := children.symm.trans (call id lt get)
    rw [(List.cons.inj first).1, var] at matrix
    cases matrix

/-- The first argument holds a place: a row of unknown storage. -/
theorem types_whole_max_not : ∃ t, Tree.parse "y = max([], A, 1)\n" = .ok t ∧
    ¬∀ i, let n := ((⟨.ofConfig { declarations := ⟨[("A", ⟨.matrix, .float⟩)]⟩ }⟩ :
        Translator).translate t).2.1.node i
      n.datatype = .unknown ∨ n.shape ≠ .unknown ∧ n.cls ≠ .unresolved :=
  ⟨_, by cbv, fun whole => absurd (whole 1) (by decide +kernel)⟩

end Translator

end MatrixScript
