/-
# `Proofs.Translation.Reserved` — a built-in is never a variable

The rules of subscripts, ranges and assignments take a name with a known type for a
variable, before they think of built-ins.  No built-in gets a type: neither a configuration
nor a declaration may name one, every rule that types destinations checks their names
first (`Effect.Modest`), and temporaries have an underscore in their names, which no
built-in has.  So the tables lack all reserved names at every moment of every translation
(`Translator.Reached.never_reserved`).
-/
import MatrixScript.Config.Document
import MatrixScript.Proofs.Translation.Typing

namespace MatrixScript

theorem Builtin.no_underscore {x : String} (reserved : isReserved x) : '_' ∉ x.toList := by
  have plain : ∀ spelling ∈ spellings, '_' ∉ spelling.1.toList := by decide
  obtain ⟨b, found⟩ := Option.isSome_iff_exists.mp reserved
  obtain ⟨before, after, eq, -⟩ := List.lookup_eq_some_iff.mp found
  exact plain (x, b) (by simp [eq])

/-! ## States -/

/-- The name has no type in any table, and none is suggested for it. -/
structure State.Lacks (s : State) (x : String) : Prop where
  declared : s.config.declarations.get? x = none
  scope : s.scope.get? x = none
  outer : ∀ table ∈ s.outer, table.get? x = none
  suggested : s.suggestions.get? x = none

namespace State.Lacks

variable {s : State} {x : String} (h : s.Lacks x)
include h

theorem lookup : s.lookup x = none := by
  rw [State.lookup, h.declared]
  exact h.scope

theorem record {y : String} (other : x ≠ y) (d : Datatype) : (s.record y d).Lacks x := by
  unfold State.record
  split
  · exact h
  · exact ⟨h.declared, by rw [NameTable.get?_insert, if_neg other, h.scope], h.outer,
      by rw [NameTable.get?_insert, if_neg other, h.suggested]⟩

theorem pushScope : s.pushScope.Lacks x :=
  ⟨h.declared, rfl, List.forall_mem_cons.mpr ⟨h.scope, h.outer⟩, h.suggested⟩

theorem popScope : s.popScope.Lacks x := by
  unfold State.popScope
  split
  · exact h
  case h_2 table outer eq =>
    obtain ⟨first, rest⟩ := List.forall_mem_cons.mp (eq ▸ h.outer)
    exact ⟨h.declared, first, rest, h.suggested⟩

/-- The name of a temporary has an underscore. -/
theorem hoist (plain : '_' ∉ x.toList) (node : NodeId) (text : String) (d : Datatype) :
    (s.hoist node text d).Lacks x := by
  have other : x ≠ s.nextName d := by
    rintro rfl
    exact plain (by simp [State.nextName])
  unfold State.hoist
  split
  · split
    · exact h
    · exact ⟨h.declared, h.scope, h.outer, h.suggested⟩
  · exact ⟨h.declared, h.scope, h.outer,
      by dsimp only; rw [NameTable.get?_insert, if_neg other, h.suggested]⟩

end State.Lacks

theorem State.lacks_ofConfig {config : Config} {x : String}
    (declared : config.declarations.get? x = none) : (State.ofConfig config).Lacks x :=
  ⟨declared, rfl, nofun, rfl⟩

/-! ## Every step -/

/-- No effect of a rule gives a built-in a type. -/
theorem Workspace.lacks_perform {x : String} (reserved : Builtin.isReserved x) {s : Site}
    {v : Workspace} {e : Effect} (same : v.tree.bare = s.tree.bare) (seeded : s.Seeded)
    (modest : e.Modest s) (h : v.state.Lacks x) : (v.perform s.id e).state.Lacks x := by
  have other : ∀ {y : String}, Builtin.isReserved y = false → x ≠ y := by
    rintro y free rfl
    rw [reserved] at free
    cases free
  cases modest with
  | report | use | tic | toc => exact ⟨h.declared, h.scope, h.outer, h.suggested⟩
  | record free => exact h.record (other free) _
  | redirect =>
    show (v.redirectParent s.id _).state.Lacks x
    unfold redirectParent
    split
    · exact h
    · exact h
  | hoist => exact h.hoist (Builtin.no_underscore reserved) _ _ _
  | @destination o d taken _ free =>
    have node : o.node = s.tree.node o.id := seeded.node o (List.mem_of_mem_dropLast taken.2)
    have name : ((v.tree.modify o.id fun n =>
        { n with suggest := some d, typing := .of d }).node o.id).name = o.node.name := by
      rw [node, Tree.field_modify Node.name (fun _ => by rfl), Tree.name_of_bare same]
    show (v.typeDestination o.id d).state.Lacks x
    unfold typeDestination
    dsimp only
    split
    · refine h.record ?_ d
      show x ≠ ((v.tree.modify o.id _).node o.id).name
      rw [name]
      exact other free
    · exact h

theorem Resolving.stable_lacks (t : Tree) {x : String} (reserved : Builtin.isReserved x) :
    Stable t (fun _ => True) fun w => w.tree.bare = t.bare ∧ w.state.Lacks x where
  children _ _ _ _ := trivial
  bare _ holds := holds.1
  state w s holds config scope outer suggestions := by
    refine ⟨holds.1, ?_, ?_, ?_, ?_⟩
    · rw [config, holds.2.declared]
    · rw [scope, holds.2.scope]
    · rw [outer]
      exact holds.2.outer
    · rw [suggestions, holds.2.suggested]
  opened w holds := ⟨holds.1, holds.2.pushScope⟩
  closed w holds := ⟨holds.1, holds.2.popScope⟩
  seed id w _ holds := ⟨(w.bare_seed id).trans holds.1, holds.2⟩
  effect s v e _ here seeded modest holds := ⟨(Workspace.bare_perform s.id v e).trans holds.1,
    Workspace.lacks_perform reserved (holds.1.trans here.1.symm) seeded modest holds.2⟩
  write s v o text _ _ _ _ holds :=
    ⟨(v.bare_modifyNode s.id fun _ => by rfl).trans holds.1, holds.2⟩

/-! ## Configurations -/

/-- A name that has a value is one of the names. -/
theorem NameTable.mem_names {α : Type} {table : NameTable α} {x : String} {a : α}
    (found : table.get? x = some a) : x ∈ table.names := by
  have list : ∀ entries : List (String × α), find? x entries = some a →
      x ∈ entries.map (·.1) := by
    intro entries
    induction entries with
    | nil => exact nofun
    | cons entry rest ih =>
      intro found
      unfold find? at found
      split at found
      case isTrue same => exact List.mem_cons.mpr (.inl same.symm)
      case isFalse => exact List.mem_cons_of_mem _ (ih found)
  exact list table.entries found

namespace Config

variable {c c' : Config} {x : String} (reserved : Builtin.isReserved x)
include reserved

theorem lacks_of_declare {name typeName : String} (h : c.declare name typeName = .ok c')
    (lacks : c.declarations.get? x = none) : c'.declarations.get? x = none := by
  unfold declare at h
  split at h
  case h_2 => cases h
  case h_1 d _ =>
    unfold declareType at h
    split at h
    case isTrue => cases h
    case isFalse free =>
      cases h
      have other : x ≠ name := by
        rintro rfl
        exact free reserved
      exact (NameTable.get?_insert _ _ _ _).trans (by rw [if_neg other, lacks])

theorem lacks_of_validate (h : c.validate = .ok c') : c'.declarations.get? x = none := by
  unfold validate reservedDeclaration? at h
  split at h
  case h_1 => cases h
  case h_2 none =>
    cases h
    cases found : c.declarations.get? x with
    | none => rfl
    | some d =>
      exact absurd reserved (List.find?_eq_none.mp none x (NameTable.mem_names found))

theorem lacks_of_ofJson {text : String} (h : ofJson text = .ok c) :
    c.declarations.get? x = none := by
  unfold ofJson at h
  split at h
  case h_1 => exact lacks_of_validate reserved h
  case h_2 => cases h

end Config

/-! ## Translators -/

/-- A translator that was made, given declarations and put to use on trees of scripts. -/
inductive Translator.Reached : Translator → Prop
  | new : Reached .new
  | withConfig {config : Config} {t : Translator} : Translator.withConfig config = .ok t →
      Reached t
  | ofJson {text : String} {config : Config} : Config.ofJson text = .ok config →
      Reached ⟨.ofConfig config⟩
  | declare {t t' : Translator} {name typeName : String} : Reached t →
      t.declare name typeName = .ok t' → Reached t'
  | translate {t : Translator} {tree : Tree} : Reached t → tree.Handled →
      Reached (t.translate tree).2.2
  | resolve {t : Translator} {tree : Tree} {id : NodeId} : Reached t → tree.Handled →
      Reached (t.resolve tree id).2.2

namespace Translator

theorem Reached.lacks {t : Translator} (h : t.Reached) {x : String}
    (reserved : Builtin.isReserved x) : t.state.Lacks x := by
  induction h with
  | new => exact State.lacks_ofConfig rfl
  | @withConfig config t made =>
    unfold Translator.withConfig at made
    split at made
    case h_1 valid =>
      cases made
      exact State.lacks_ofConfig (Config.lacks_of_validate reserved valid)
    case h_2 => cases made
  | ofJson read => exact State.lacks_ofConfig (Config.lacks_of_ofJson reserved read)
  | @declare t t' name typeName _ declared ih =>
    unfold Translator.declare at declared
    split at declared
    case h_1 added =>
      cases declared
      exact ⟨Config.lacks_of_declare reserved added ih.declared, ih.scope, ih.outer,
        ih.suggested⟩
    case h_2 => cases declared
  | @translate t tree _ handled ih =>
    have after := Resolving.stable_rootLines (Resolving.stable_lacks tree reserved)
      handled.wellFormed_and_sound.1 (fun _ _ => trivial) (w := ⟨tree, t.state⟩) ⟨rfl, ih⟩
    exact State.lacks_ofConfig after.2.declared
  | @resolve t tree id _ handled ih =>
    exact (Resolving.stable_resolveWithin (Resolving.stable_lacks tree reserved)
      handled.wellFormed_and_sound.1 (tree.size + 1) id trivial ⟨tree, t.state⟩ ⟨rfl, ih⟩).2

/-- No reserved name has a type, neither in a translator that is put to use nor at any
moment of a translation with it; and none is suggested for declaration. -/
theorem Reached.never_reserved {t : Translator} (h : t.Reached) {x : String}
    (reserved : Builtin.isReserved x) :
    (t.state.lookup x = none ∧ t.state.Lacks x)
      ∧ ∀ tree : Tree, tree.Handled →
        (∀ m ∈ Resolving.momentsOfRoot ⟨tree, t.state⟩,
          m.state.lookup x = none ∧ m.state.Lacks x)
        ∧ (t.translate tree).1.suggestions.get? x = none
        ∧ ∀ id, ∀ m ∈ Resolving.momentsWithin (tree.size + 1) id ⟨tree, t.state⟩,
          m.state.lookup x = none ∧ m.state.Lacks x := by
  have start := h.lacks reserved
  refine ⟨⟨start.lookup, start⟩, fun tree handled => ?_⟩
  have wf := handled.wellFormed_and_sound.1
  have stable := Resolving.stable_lacks tree reserved
  refine ⟨fun m mem => ?_, ?_, fun id m mem => ?_⟩
  · have lacks := (Resolving.stable_momentsOfRoot stable wf (fun _ _ => trivial)
      ⟨rfl, start⟩ m mem).2
    exact ⟨lacks.lookup, lacks⟩
  · exact (Resolving.stable_rootLines stable wf (fun _ _ => trivial)
      (w := ⟨tree, t.state⟩) ⟨rfl, start⟩).2.suggested
  · have lacks := (Resolving.stable_momentsWithin stable wf _ id trivial _ ⟨rfl, start⟩ m mem).2
    exact ⟨lacks.lookup, lacks⟩

/-- Assigning to `pi` fails, and behind that it is still the constant. -/
theorem never_reserved_pi : ∃ tree t, Tree.parse "pi = 3\nc = 2*pi\n" = .ok tree
    ∧ new.declare "c" "double" = .ok t
    ∧ (t.translate tree).1.statements
      = ["// error: Variable name 'pi' is reserved, please rename the variable",
        "c = 2*datum::pi ;"]
    ∧ Builtin.isReserved "pi"
    ∧ (t.state.lookup "pi" = none ∧ t.state.Lacks "pi")
    ∧ (∀ m ∈ Resolving.momentsOfRoot ⟨tree, t.state⟩,
      m.state.lookup "pi" = none ∧ m.state.Lacks "pi")
    ∧ (t.translate tree).1.suggestions.get? "pi" = none
    ∧ ∀ id, ∀ m ∈ Resolving.momentsWithin (tree.size + 1) id ⟨tree, t.state⟩,
      m.state.lookup "pi" = none ∧ m.state.Lacks "pi" := by
  have parses : ∃ tree, Tree.parse "pi = 3\nc = 2*pi\n" = .ok tree
      ∧ ((⟨.ofConfig { declarations := ⟨[("c", .scalar .float)]⟩ }⟩ : Translator).translate
          tree).1.statements
        = ["// error: Variable name 'pi' is reserved, please rename the variable",
          "c = 2*datum::pi ;"] := ⟨_, by cbv, by decide +kernel⟩
  obtain ⟨tree, run, lines⟩ := parses
  have declared : new.declare "c" "double"
      = .ok ⟨.ofConfig { declarations := ⟨[("c", .scalar .float)]⟩ }⟩ := by cbv
  obtain ⟨here, later⟩ := (Reached.declare .new declared).never_reserved
    (x := "pi") (by decide)
  exact ⟨tree, _, run, declared, lines, by decide, here, later tree (.parsed run)⟩

end Translator

end MatrixScript
