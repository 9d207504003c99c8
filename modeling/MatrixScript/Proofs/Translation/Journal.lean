/-
# `Proofs.Translation.Journal` — the types of variables as a history tells them

A state keeps one type for each variable and scope, and joins into it what is recorded
later.  A `Journal` keeps everything that was recorded, and says of a variable what its
declaration says, else the join of the known types that were recorded for it in the
innermost open scope.  That join looks only at which types there are
(`Datatype.IsJoin`), so neither their order nor their number matters.

State and journal agree after every sequence of steps (`State.follows_run`), whatever is
declared on the way.  A scope may hold a stale type of a variable that was declared later,
which is why the two are compared at undeclared names only.  A scope that was opened and
closed is gone from the journal (`Journal.scopes_nested`), and with it from the answers of
the state (`State.lookup_run`).
-/
import Mathlib.Data.List.Forall2
import MatrixScript.State

namespace MatrixScript

/-! ## Joins -/

namespace Datatype

/-- The type has the widest shape and the highest class that occur among the types. -/
structure IsJoin (types : List Datatype) (d : Datatype) : Prop where
  shape_mem : ∃ e ∈ types, e.shape = d.shape
  shape_le : ∀ e ∈ types, e.shape ≤ d.shape
  cls_mem : ∃ e ∈ types, e.cls = d.cls
  cls_le : ∀ e ∈ types, e.cls ≤ d.cls

variable {d e : Datatype} {types : List Datatype}

theorem isJoin_singleton (d : Datatype) : IsJoin [d] d := by
  have here : d ∈ [d] := List.mem_singleton_self d
  refine ⟨⟨d, here, rfl⟩, fun e mem => ?_, ⟨d, here, rfl⟩, fun e mem => ?_⟩
  · rw [List.mem_singleton.mp mem]
    exact Nat.le_refl _
  · rw [List.mem_singleton.mp mem]
    exact Nat.le_refl _

theorem IsJoin.unique (hd : IsJoin types d) (he : IsJoin types e) : d = e := by
  obtain ⟨a, memA, shapeA⟩ := hd.shape_mem
  obtain ⟨b, memB, shapeB⟩ := he.shape_mem
  obtain ⟨a', memA', clsA⟩ := hd.cls_mem
  obtain ⟨b', memB', clsB⟩ := he.cls_mem
  have shape : d.shape = e.shape := Shape.width_injective
    (Nat.le_antisymm (shapeA ▸ he.shape_le a memA) (shapeB ▸ hd.shape_le b memB))
  have cls : d.cls = e.cls := StorageClass.precedence_injective
    (Nat.le_antisymm (clsA ▸ he.cls_le a' memA') (clsB ▸ hd.cls_le b' memB'))
  cases d
  cases e
  cases shape
  cases cls
  rfl

/-- Neither the order of the types nor their number matters. -/
theorem isJoin_congr {types' : List Datatype} (same : ∀ e, e ∈ types ↔ e ∈ types') :
    IsJoin types d ↔ IsJoin types' d := by
  have transfer : ∀ {a b : List Datatype}, (∀ e, e ∈ a ↔ e ∈ b) → IsJoin a d → IsJoin b d := by
    rintro a b same ⟨⟨e, memE, shape⟩, shapes, ⟨f, memF, cls⟩, classes⟩
    exact ⟨⟨e, (same e).mp memE, shape⟩, fun x mem => shapes x ((same x).mpr mem),
      ⟨f, (same f).mp memF, cls⟩, fun x mem => classes x ((same x).mpr mem)⟩
  exact ⟨transfer same, transfer fun e => (same e).symm⟩

theorem IsJoin.isKnown (h : IsJoin types d) (known : ∀ e ∈ types, e.isKnown) : d.isKnown := by
  obtain ⟨a, memA, shape⟩ := h.shape_mem
  obtain ⟨b, memB, cls⟩ := h.cls_mem
  have knownA := known a memA
  have knownB := known b memB
  rw [Datatype.isKnown, Bool.and_eq_true] at *
  exact ⟨cls ▸ knownB.1, shape ▸ knownA.2⟩

/-- One of two shapes is the wider one, and one of two classes the higher one. -/
theorem join_parts (hd : d.isKnown) (he : e.isKnown) :
    (((d.join e).shape = d.shape ∧ e.shape ≤ d.shape)
      ∨ ((d.join e).shape = e.shape ∧ d.shape ≤ e.shape))
    ∧ (((d.join e).cls = d.cls ∧ e.cls ≤ d.cls)
      ∨ ((d.join e).cls = e.cls ∧ d.cls ≤ e.cls)) := by
  have whole : d.join e = ⟨max d.shape e.shape, max d.cls e.cls⟩ := by
    rw [join, hd, he]
    rfl
  rw [whole]
  constructor
  · rcases Nat.le_total d.shape.width e.shape.width with le | le
    · exact .inr ⟨if_pos le, le⟩
    · refine .inl ⟨Shape.width_injective ?_, le⟩
      rw [Shape.width_max, Nat.max_eq_left le]
  · rcases Nat.le_total d.cls.precedence e.cls.precedence with le | le
    · exact .inr ⟨if_pos le, le⟩
    · refine .inl ⟨StorageClass.precedence_injective ?_, le⟩
      rw [StorageClass.precedence_max, Nat.max_eq_left le]

/-- A known type is joined to what was recorded before. -/
theorem IsJoin.cons (h : IsJoin types d) (hd : d.isKnown) (he : e.isKnown) :
    IsJoin (e :: types) (d.join e) := by
  obtain ⟨shape, cls⟩ := join_parts hd he
  obtain ⟨a, memA, shapeA⟩ := h.shape_mem
  obtain ⟨b, memB, clsB⟩ := h.cls_mem
  refine ⟨?_, ?_, ?_, ?_⟩
  · rcases shape with ⟨eq, -⟩ | ⟨eq, -⟩
    · exact ⟨a, List.mem_cons_of_mem e memA, shapeA.trans eq.symm⟩
    · exact ⟨e, List.mem_cons_self, eq.symm⟩
  · rw [List.forall_mem_cons]
    rcases shape with ⟨eq, le⟩ | ⟨eq, le⟩
    · rw [eq]
      exact ⟨le, h.shape_le⟩
    · rw [eq]
      exact ⟨Nat.le_refl _, fun x mem => Nat.le_trans (h.shape_le x mem) le⟩
  · rcases cls with ⟨eq, -⟩ | ⟨eq, -⟩
    · exact ⟨b, List.mem_cons_of_mem e memB, clsB.trans eq.symm⟩
    · exact ⟨e, List.mem_cons_self, eq.symm⟩
  · rw [List.forall_mem_cons]
    rcases cls with ⟨eq, le⟩ | ⟨eq, le⟩
    · rw [eq]
      exact ⟨le, h.cls_le⟩
    · rw [eq]
      exact ⟨Nat.le_refl _, fun x mem => Nat.le_trans (h.cls_le x mem) le⟩

/-- A type that is there already does not change the join. -/
theorem IsJoin.cons_self (h : IsJoin types d) : IsJoin (d :: types) d := by
  obtain ⟨a, memA, shape⟩ := h.shape_mem
  obtain ⟨b, memB, cls⟩ := h.cls_mem
  exact ⟨⟨a, List.mem_cons_of_mem d memA, shape⟩,
    List.forall_mem_cons.mpr ⟨Nat.le_refl _, h.shape_le⟩,
    ⟨b, List.mem_cons_of_mem d memB, cls⟩,
    List.forall_mem_cons.mpr ⟨Nat.le_refl _, h.cls_le⟩⟩

end Datatype

/-! ## Steps -/

/-- What happens to the types of variables. -/
inductive TypeStep where
  | record (x : String) (d : Datatype)
  | pushScope
  | popScope
  | declare (x : String) (d : Datatype)
deriving DecidableEq, Repr

namespace State

/-- Declares the type of a variable; a reserved name is refused. -/
def declareType (s : State) (x : String) (d : Datatype) : State :=
  match s.config.declareType x d with
  | .ok config => { s with config }
  | .error _ => s

/-- The state after a step. -/
def step (s : State) : TypeStep → State
  | .record x d => s.record x d
  | .pushScope => s.pushScope
  | .popScope => s.popScope
  | .declare x d => s.declareType x d

/-- The state after several steps. -/
def run (s : State) (steps : List TypeStep) : State := steps.foldl step s

end State

/-- Everything that was recorded of variables. -/
structure Journal where
  /-- what each variable is declared as -/
  declared : String → Option Datatype
  /-- what was recorded in the innermost scope, latest first -/
  entries : List (String × Datatype) := []
  /-- what was recorded in the scopes around it, innermost first -/
  outer : List (List (String × Datatype)) := []

namespace Journal

/-- The journal before anything is recorded. -/
def ofConfig (c : Config) : Journal := { declared := c.declarations.get? }

/-- Turns back to the scope around the innermost one, if there is one. -/
def popScope (j : Journal) : Journal :=
  match j.outer with
  | [] => j
  | entries :: outer => { j with entries, outer }

/-- Notes the declared type of a variable, unless the name is reserved. -/
def declare (j : Journal) (x : String) (d : Datatype) : Journal :=
  if Builtin.isReserved x then j
  else { j with declared := fun y => if y = x then some d else j.declared y }

/-- Writes a step down. -/
def step (j : Journal) : TypeStep → Journal
  | .record x d => { j with entries := (x, d) :: j.entries }
  | .pushScope => { j with entries := [], outer := j.entries :: j.outer }
  | .popScope => j.popScope
  | .declare x d => j.declare x d

/-- Writes several steps down. -/
def run (j : Journal) (steps : List TypeStep) : Journal := steps.foldl step j

/-- Known types of a variable in a list of records. -/
def knownTypes (x : String) (entries : List (String × Datatype)) : List Datatype :=
  (entries.filter fun e => e.1 == x && e.2.isKnown).map (·.2)

/-- Known types that were recorded for a variable in the innermost scope. -/
def types (j : Journal) (x : String) : List Datatype := knownTypes x j.entries

theorem knownTypes_cons (x y : String) (d : Datatype) (entries : List (String × Datatype)) :
    knownTypes x ((y, d) :: entries)
      = if y = x ∧ d.isKnown then d :: knownTypes x entries else knownTypes x entries := by
  unfold knownTypes
  rw [List.filter_cons]
  simp only [Bool.and_eq_true, beq_iff_eq]
  split <;> rfl

theorem isKnown_of_mem_knownTypes {x : String} {entries : List (String × Datatype)}
    {d : Datatype} (mem : d ∈ knownTypes x entries) : d.isKnown := by
  obtain ⟨e, found, rfl⟩ := List.mem_map.mp mem
  exact (Bool.and_eq_true_iff.mp (List.mem_filter.mp found).2).2

end Journal

/-! ## What a state keeps of its history -/

namespace State

/-- A scope holds the join of what was recorded in it, of every variable that is not
declared. -/
def Holds (declared : String → Option Datatype) (scope : NameTable Datatype)
    (entries : List (String × Datatype)) : Prop :=
  ∀ x, declared x = none →
    match scope.get? x with
    | some d => Datatype.IsJoin (Journal.knownTypes x entries) d
    | none => Journal.knownTypes x entries = []

/-- The state is what a journal tells. -/
structure Follows (s : State) (j : Journal) : Prop where
  declared : ∀ x, s.config.declarations.get? x = j.declared x
  scopes : List.Forall₂ (Holds j.declared) (s.scope :: s.outer) (j.entries :: j.outer)

theorem follows_ofConfig (c : Config) : (ofConfig c).Follows (.ofConfig c) :=
  ⟨fun _ => rfl, .cons (fun _ _ => rfl) .nil⟩

variable {s : State} {j : Journal}

theorem Follows.isDeclared (h : s.Follows j) (x : String) : s.isDeclared x = (j.declared x).isSome :=
  congrArg Option.isSome (h.declared x)

theorem record_of_declared (d : Datatype) {x : String} (h : s.isDeclared x) : s.record x d = s := by
  rw [record, h, Bool.or_true]
  rfl

theorem record_of_unknown (x : String) {d : Datatype} (h : d.isKnown = false) :
    s.record x d = s := by
  rw [record, h]
  rfl

/-- The type that is recorded last joins the ones before. -/
theorem Holds.merged {declared : String → Option Datatype} {x : String} {d : Datatype}
    {entries : List (String × Datatype)} (h : Holds declared s.scope entries)
    (free : declared x = none) (known : d.isKnown) :
    Datatype.IsJoin (d :: Journal.knownTypes x entries) (s.merged x d) := by
  have here := h x free
  unfold State.merged
  cases found : s.scope.get? x with
  | none =>
    rw [found] at here
    rw [here]
    exact Datatype.isJoin_singleton d
  | some previous =>
    rw [found] at here
    dsimp only
    split
    case isTrue same => exact (same ▸ here).cons_self
    case isFalse =>
      exact here.cons (here.isKnown fun _ => Journal.isKnown_of_mem_knownTypes) known

theorem Holds.record {declared : String → Option Datatype} {x : String} {d : Datatype}
    {entries : List (String × Datatype)} (h : Holds declared s.scope entries)
    (declares : s.isDeclared x = (declared x).isSome) :
    Holds declared (s.record x d).scope ((x, d) :: entries) := by
  intro y free
  have before := h y free
  rw [Journal.knownTypes_cons]
  cases known : d.isKnown with
  | false =>
    rw [record_of_unknown x known, if_neg (by simp)]
    exact before
  | true =>
    by_cases here : x = y
    · subst here
      have undeclared : s.isDeclared x = false := by rw [declares, free]; rfl
      rw [if_pos ⟨rfl, rfl⟩, State.record, known, undeclared]
      simp only [Bool.not_true, Bool.or_false, Bool.false_eq_true, if_false,
        NameTable.get?_insert, if_true]
      exact h.merged free known
    · have scope : (s.record x d).scope.get? y = s.scope.get? y := by
        unfold State.record
        split
        · rfl
        · exact (NameTable.get?_insert ..).trans (if_neg (Ne.symm here))
      rw [if_neg (fun both => here both.1), scope]
      exact before

theorem Follows.record (h : s.Follows j) (x : String) (d : Datatype) :
    (s.record x d).Follows (j.step (.record x d)) := by
  obtain ⟨declared, scopes⟩ := h
  cases scopes with
  | cons inner outer =>
    have kept : (s.record x d).config = s.config ∧ (s.record x d).outer = s.outer := by
      unfold State.record
      split
      · exact ⟨rfl, rfl⟩
      · exact ⟨rfl, rfl⟩
    refine ⟨fun y => (congrArg (·.declarations.get? y) kept.1).trans (declared y), ?_⟩
    rw [kept.2]
    exact .cons (inner.record (congrArg Option.isSome (declared x))) outer

theorem Follows.pushScope (h : s.Follows j) : s.pushScope.Follows (j.step .pushScope) :=
  ⟨h.declared, .cons (fun _ _ => rfl) h.scopes⟩

theorem Follows.popScope (h : s.Follows j) : s.popScope.Follows (j.step .popScope) := by
  obtain ⟨inner, outer⟩ := List.forall₂_cons.mp h.scopes
  show s.popScope.Follows j.popScope
  unfold State.popScope Journal.popScope
  generalize s.outer = scopes, j.outer = entries at outer
  cases outer with
  | nil => exact h
  | cons next rest => exact ⟨h.declared, .cons next rest⟩

/-- What is said of undeclared names stays true when one more is declared. -/
theorem Holds.declare {declared declared' : String → Option Datatype} {scope : NameTable Datatype}
    {entries : List (String × Datatype)} (h : Holds declared scope entries)
    (fewer : ∀ y, declared' y = none → declared y = none) : Holds declared' scope entries :=
  fun y free => h y (fewer y free)

theorem Follows.declare (h : s.Follows j) (x : String) (d : Datatype) :
    (s.declareType x d).Follows (j.step (.declare x d)) := by
  show (s.declareType x d).Follows (j.declare x d)
  unfold declareType Config.declareType Journal.declare
  cases Builtin.isReserved x with
  | true => exact h
  | false =>
    refine ⟨fun y => ?_, h.scopes.imp fun _ _ holds => holds.declare fun y free => ?_⟩
    · show (NameTable.insert _ x d).get? y = if y = x then some d else j.declared y
      rw [NameTable.get?_insert, h.declared y]
    · have free : (if y = x then some d else j.declared y) = none := free
      split at free
      · cases free
      · exact free

theorem Follows.step (h : s.Follows j) (step : TypeStep) : (s.step step).Follows (j.step step) := by
  cases step with
  | record x d => exact h.record x d
  | pushScope => exact h.pushScope
  | popScope => exact h.popScope
  | declare x d => exact h.declare x d

theorem Follows.run (h : s.Follows j) (steps : List TypeStep) :
    (s.run steps).Follows (j.run steps) := by
  induction steps generalizing s j with
  | nil => exact h
  | cons step steps ih => exact ih (h.step step)

theorem follows_run (c : Config) (steps : List TypeStep) :
    ((ofConfig c).run steps).Follows ((Journal.ofConfig c).run steps) :=
  (follows_ofConfig c).run steps

/-- What the innermost scope holds of a variable that is not declared. -/
theorem Follows.innermost (h : s.Follows j) {x : String} (free : j.declared x = none) :
    match s.scope.get? x with
    | some d => Datatype.IsJoin (j.types x) d
    | none => j.types x = [] :=
  (List.forall₂_cons.mp h.scopes).1 x free

/-- The state answers what the journal tells. -/
theorem Follows.lookup_eq_some (h : s.Follows j) (x : String) (d : Datatype) :
    s.lookup x = some d
      ↔ j.declared x = some d ∨ j.declared x = none ∧ Datatype.IsJoin (j.types x) d := by
  rw [State.lookup, h.declared]
  cases declared : j.declared x with
  | some e => simp
  | none =>
    have here := h.innermost declared
    cases found : s.scope.get? x with
    | none =>
      rw [found] at here
      have empty : ¬Datatype.IsJoin (j.types x) d := by
        rintro ⟨⟨e, mem, -⟩, -⟩
        rw [here] at mem
        cases mem
      simp [empty]
    | some e =>
      rw [found] at here
      simp only [Option.some.injEq, reduceCtorEq, true_and, false_or]
      exact ⟨fun eq => eq ▸ here, fun other => here.unique other⟩

theorem Follows.lookup_eq_none (h : s.Follows j) (x : String) :
    s.lookup x = none ↔ j.declared x = none ∧ j.types x = [] := by
  rw [State.lookup, h.declared]
  cases declared : j.declared x with
  | some e => simp
  | none =>
    have here := h.innermost declared
    cases found : s.scope.get? x with
    | none =>
      rw [found] at here
      exact ⟨fun _ => ⟨rfl, here⟩, fun _ => rfl⟩
    | some e =>
      rw [found] at here
      obtain ⟨a, mem, -⟩ := here.shape_mem
      simp [List.ne_nil_of_mem mem]

/-- Journals that tell the same of a variable, in any order and any number of times, are
answered alike. -/
theorem Follows.lookup_congr {s' : State} {j' : Journal} (h : s.Follows j) (h' : s'.Follows j')
    {x : String} (declared : j'.declared x = j.declared x)
    (types : ∀ d, d ∈ j'.types x ↔ d ∈ j.types x) : s'.lookup x = s.lookup x := by
  refine Option.ext fun d => ?_
  rw [h.lookup_eq_some, h'.lookup_eq_some, declared, Datatype.isJoin_congr types]

end State

/-! ## Scopes that are closed -/

namespace TypeStep

/-- Steps that close every scope they open, and no other one. -/
inductive Nested : List TypeStep → Prop
  | nil : Nested []
  | record {steps : List TypeStep} (x : String) (d : Datatype) : Nested steps →
      Nested (.record x d :: steps)
  | declare {steps : List TypeStep} (x : String) (d : Datatype) : Nested steps →
      Nested (.declare x d :: steps)
  | scope {inner steps : List TypeStep} : Nested inner → Nested steps →
      Nested ((.pushScope :: inner ++ [.popScope]) ++ steps)

/-- Steps that may declare a variable: a reserved name is refused. -/
def Declares (steps : List TypeStep) (x : String) : Prop :=
  Builtin.isReserved x = false ∧ ∃ d, .declare x d ∈ steps

end TypeStep

namespace Journal

open TypeStep (Nested Declares)

theorem run_append (j : Journal) (a b : List TypeStep) : j.run (a ++ b) = (j.run a).run b :=
  List.foldl_append

/-- The scopes around are the same after steps that close what they open. -/
theorem outer_nested {steps : List TypeStep} (nested : Nested steps) (j : Journal) :
    (j.run steps).outer = j.outer := by
  induction nested generalizing j with
  | nil => rfl
  | record x d _ ih => exact ih (j.step (.record x d))
  | declare x d _ ih =>
    refine (ih (j.step (.declare x d))).trans ?_
    show (j.declare x d).outer = j.outer
    unfold declare
    split <;> rfl
  | @scope inner steps _ _ ihInner ih =>
    have opened := ihInner (j.step .pushScope)
    rw [run_append, ih, List.cons_append, ← List.singleton_append, run_append, run_append]
    show ((run (j.step .pushScope) inner).popScope).outer = j.outer
    rw [popScope, opened]
    rfl

/-- A scope that is opened and closed leaves nothing of what was recorded in it. -/
theorem entries_scope {inner : List TypeStep} (nested : Nested inner) (j : Journal) :
    (j.run (.pushScope :: inner ++ [.popScope])).entries = j.entries := by
  have opened := outer_nested nested (j.step .pushScope)
  rw [List.cons_append, ← List.singleton_append, run_append, run_append]
  show ((run (j.step .pushScope) inner).popScope).entries = j.entries
  rw [popScope, opened]
  rfl

/-- What a variable is declared as changes only where it is declared. -/
theorem declared_run {steps : List TypeStep} {x : String} (none : ¬Declares steps x)
    (j : Journal) : (j.run steps).declared x = j.declared x := by
  induction steps generalizing j with
  | nil => rfl
  | cons step steps ih =>
    have later : ¬Declares steps x := fun ⟨free, d, mem⟩ => none ⟨free, d, .tail step mem⟩
    refine (ih later (j.step step)).trans ?_
    cases step with
    | record | pushScope => rfl
    | popScope =>
      show j.popScope.declared x = j.declared x
      unfold popScope
      split <;> rfl
    | declare y d =>
      show (j.declare y d).declared x = j.declared x
      unfold declare
      split
      case isTrue => rfl
      case isFalse free =>
        refine if_neg ?_
        rintro rfl
        exact none ⟨Bool.not_eq_true _ ▸ free, d, List.mem_cons_self⟩

end Journal

namespace State

open TypeStep (Nested Declares)

theorem run_append (s : State) (a b : List TypeStep) : s.run (a ++ b) = (s.run a).run b :=
  List.foldl_append

/-- After any steps from the start, a variable has its declared type, else the join of the
known types that were recorded for it in the innermost open scope, else none; in which order
they were recorded and how often is the same.  Unknown types and declared variables leave no
trace, the outermost scope stays open, and a scope that is opened and closed leaves the
answers as they were, except for what was declared meanwhile. -/
theorem lookup_run (c : Config) (steps : List TypeStep) :
    (∀ x d, ((ofConfig c).run steps).lookup x = some d ↔
        ((Journal.ofConfig c).run steps).declared x = some d
        ∨ ((Journal.ofConfig c).run steps).declared x = none
          ∧ Datatype.IsJoin (((Journal.ofConfig c).run steps).types x) d)
    ∧ (∀ x, ((ofConfig c).run steps).lookup x = none ↔
        ((Journal.ofConfig c).run steps).declared x = none
        ∧ ((Journal.ofConfig c).run steps).types x = [])
    ∧ (∀ other x,
        ((Journal.ofConfig c).run other).declared x = ((Journal.ofConfig c).run steps).declared x →
        (∀ d, d ∈ ((Journal.ofConfig c).run other).types x
          ↔ d ∈ ((Journal.ofConfig c).run steps).types x) →
        ((ofConfig c).run other).lookup x = ((ofConfig c).run steps).lookup x)
    ∧ (∀ x d, (d.isKnown = false ∨ (((Journal.ofConfig c).run steps).declared x).isSome) →
        ((ofConfig c).run steps).record x d = (ofConfig c).run steps)
    ∧ (((Journal.ofConfig c).run steps).outer = [] →
        ((ofConfig c).run steps).popScope = (ofConfig c).run steps)
    ∧ ∀ inner, Nested inner → ∀ x, ¬Declares inner x →
        ((ofConfig c).run (steps ++ (.pushScope :: inner ++ [.popScope]))).lookup x
          = ((ofConfig c).run steps).lookup x := by
  have follows := follows_run c steps
  refine ⟨follows.lookup_eq_some, follows.lookup_eq_none, fun other x declared types => ?_,
    ?_, ?_, ?_⟩
  · exact follows.lookup_congr (follows_run c other) declared types
  · rintro x d (unknown | declared)
    · exact record_of_unknown x unknown
    · exact record_of_declared d ((follows.isDeclared x).trans declared)
  · intro outermost
    have outer := (List.forall₂_cons.mp follows.scopes).2
    rw [outermost] at outer
    rw [popScope, List.forall₂_nil_right_iff.mp outer]
  · intro inner nested x undeclared
    have closed := follows.run (.pushScope :: inner ++ [.popScope])
    rw [run_append]
    refine follows.lookup_congr closed ?_ ?_
    · refine Journal.declared_run (fun ⟨free, d, mem⟩ => undeclared ⟨free, d, ?_⟩) _
      simpa using mem
    · intro d
      rw [Journal.types, Journal.entries_scope nested]
      exact Iff.rfl

/-- A variable that is given an integer, then a column of numbers, is a column of numbers;
what a function in between makes of the name does not matter. -/
theorem lookup_run_widened :
    let before : List TypeStep :=
      [.record "x" (.scalar .int), .record "x" .unknown, .record "x" ⟨.colvec, .float⟩]
    let inner : List TypeStep := [.record "x" .string, .declare "y" (.scalar .int)]
    ((ofConfig {}).run before).lookup "x" = some ⟨.colvec, .float⟩
      ∧ Nested inner ∧ ¬Declares inner "x"
      ∧ ((ofConfig {}).run (before ++ (.pushScope :: inner ++ [.popScope]))).lookup "x"
        = some ⟨.colvec, .float⟩ := by
  intro before inner
  obtain ⟨found, -, -, -, -, restored⟩ := lookup_run {} before
  have widened : ((ofConfig {}).run before).lookup "x" = some ⟨.colvec, .float⟩ :=
    (found "x" ⟨.colvec, .float⟩).mpr
      (.inr ⟨rfl, ⟨⟨.colvec, .float⟩, by decide, rfl⟩, by decide,
        ⟨⟨.colvec, .float⟩, by decide, rfl⟩, by decide⟩)
  have nested : Nested inner := .record "x" .string (.declare "y" (.scalar .int) .nil)
  have undeclared : ¬Declares inner "x" := by rintro ⟨-, d, mem⟩; simp [inner] at mem
  exact ⟨widened, nested, undeclared, (restored inner nested "x" undeclared).trans widened⟩

end State

end MatrixScript
