/-
# `Proofs.Translation.Vector` — one argument for a vector

A colon and every `end` are emitted as the extent along the axis of their place, so a
single argument is measured along the first axis, whatever the shape of the variable is.
That extent is the number of elements of a column vector.  A row vector has one row: its
arguments select what they select of a single element (`Translator.vector_extents`).
-/
import MatrixScript.Proofs.Translation.Subscript

namespace MatrixScript

open Program (Bound Argument)

/-! ## Extents in a text -/

namespace Cpp

/-- Variables with the axes whose extents are used. -/
def Term.extents : Term → List (String × Nat)
  | .extent x axis => [(x, axis)]
  | .numeral _ | .negative _ | .negated _ => []

def Sum.extents : Sum → List (String × Nat)
  | .term t => t.extents
  | .shifted _ left right => left.extents ++ right.extents

def Selector.extents : Selector → List (String × Nat)
  | .point s => s.extents
  | .span p q | .uspan p q => p.extents ++ q.extents
  | .stepped p s q => p.extents ++ s.extents ++ q.extents

end Cpp

namespace Program

/-- The position is counted from the last one. -/
def Bound.measures : Bound → Bool
  | .literal _ => false
  | .last => true
  | .shifted _ b _ => b.measures

/-- There is a colon or an `end` in the argument. -/
def Argument.measures : Argument → Bool
  | .bound b => b.measures
  | .all => true
  | .range start stop | .stepped start _ _ stop => start.measures || stop.measures

section Extents

variable {x : String} {axis : Nat}

theorem extents_sum (b : Bound) :
    (b.sum x axis).extents = if b.measures then [(x, axis)] else [] := by
  induction b with
  | literal s => rfl
  | last => rfl
  | shifted op b s ih =>
    rw [Bound.sum, Cpp.Sum.extents, ih]
    exact List.append_nil _

theorem extents_pred (s : Cpp.Sum) : (pred s).extents = s.extents := List.append_nil _

theorem extents_index (b : Bound) :
    (b.index x axis).extents = if b.measures then [(x, axis)] else [] := by
  cases b with
  | literal s =>
    unfold Bound.index
    dsimp only
    split
    case h_1 v _ => cases v.toNat <;> rfl
    case h_2 => rfl
  | last => rfl
  | shifted op b s => exact (extents_pred _).trans (extents_sum _)

/-- No other extent than the one along the axis is used, and that one if it has to be. -/
theorem mem_extents_selector (a : Argument) {e : String × Nat} :
    e ∈ (a.selector x axis).extents ↔ a.measures ∧ e = (x, axis) := by
  have bound : ∀ b : Bound, e ∈ (b.index x axis).extents ↔ b.measures ∧ e = (x, axis) := by
    intro b
    rw [extents_index]
    cases b.measures <;> simp
  cases a with
  | bound b => exact bound b
  | all => simp [Argument.selector, Argument.measures, Cpp.Selector.extents, extents_pred,
      Cpp.Sum.extents, Cpp.Term.extents]
  | range start stop =>
    simp [Argument.selector, Argument.measures, Cpp.Selector.extents, bound, or_and_right]
  | stepped start negated step stop =>
    have none : (Cpp.Sum.term (stepTerm negated step)).extents = [] := by cases negated <;> rfl
    simp [Argument.selector, Argument.measures, Cpp.Selector.extents, bound, none, or_and_right]

end Extents

end Program

/-! ## Vectors -/

namespace Shape

/-- Axis along which the elements of a vector are. -/
def along? : Shape → Option Nat
  | .colvec => some 0
  | .rowvec => some 1
  | _ => none

/-- A vector has its elements along its own axis, and one position along the others. -/
theorem first_extent {s : Shape} {own : Nat} (vector : s.along? = some own) {extent : Nat → ℤ} {n : ℤ}
    (measured : ∀ axis, extent axis = if axis = own then n else 1) :
    extent 0 = if s = .colvec then n else 1 := by
  rw [measured]
  cases s with
  | colvec | rowvec => cases vector; rfl
  | unknown | scalar | matrix | cube => cases vector

end Shape

namespace Translator

/-- With one argument for a declared vector, every `end` is the number of rows, and so is what
a colon runs to.  That is the number of elements of a column vector; in a row vector it is not,
unless the argument needs no extent or there is one element: there the argument selects what it
selects of a vector with one element. -/
theorem vector_extents {source : String} {t : Tree} (parsed : Tree.parse source = .ok t)
    {id c : NodeId} (subscript : (t.category id).isSubscript) (single : t.children id = [c])
    (free : t.category id = .get → Builtin.isReserved (t.node id).name = false)
    {d : Datatype} (numeric : d.isNumeric) {own : Nat} (vector : d.shape.along? = some own) :
    let x := (t.node id).name
    (∀ i, t.Inside c i → t.category i = .last → Resolving.Gives t x d i (x ++ ".n_rows"))
    ∧ ∀ a, t.IsArgument c a → ∃ text selector, Resolving.Gives t x d id text
      ∧ (∀ translator : Translator, translator.state.config.declarations.get? x = some d →
        (translator.resolve t id).1 = .ok text)
      ∧ Cpp.readSubscript? text = some (x, [selector])
      ∧ ∀ extents (n : ℤ), (∀ axis, extents x axis = if axis = own then n else 1) →
        ((∀ e ∈ selector.extents, extents e.1 e.2 = n)
          ↔ d.shape = .colvec ∨ a.measures = false ∨ n = 1)
        ∧ (a.Plain → selector.positions? extents
          = some ((a.positions (if d.shape = .colvec then n else 1)).map (· - 1))) := by
  intro x
  have wf := Tree.wellFormed_of_parsed parsed
  have lt : id < t.size := Tree.lt_size_of_category rfl fun block => by
    rw [block] at subscript
    cases subscript
  have name : isName x := Tree.isName_of_subscript parsed subscript
  have axis : 0 < Cpp.members.length := by decide
  have spot : t.Spot x id c 0 := ⟨subscript, rfl, by rw [single]; rfl, axis⟩
  refine ⟨fun i inside last => ?_, fun a argument => ?_⟩
  · have spelled : String.ofList (Cpp.Term.extent x 0).spelled = x ++ ".n_rows" := by
      apply String.toList_injective
      simp [Cpp.Term.spelled, Cpp.members]
    exact spelled ▸ Resolving.gives_last wf spot inside last
  · have arguments : List.Forall₂ t.IsArgument (t.children id) [a] := by
      rw [single]
      exact .cons argument .nil
    have gives := Resolving.gives_subscript wf subscript rfl free numeric arguments axis
    have spelled : a.Spelled := argument.spelled wf
    have canonical : (a.selector x 0).Canonical := Program.canonical_selector name axis spelled
    have read := Cpp.readSubscript?_spelled name (List.cons_ne_nil _ _)
      (List.forall_mem_singleton.mpr canonical)
      (String.toList_ofList (l := x.toList ++ '(' :: Cpp.spelledArguments [a.selector x 0]))
    refine ⟨_, a.selector x 0, gives,
      fun _ declared => Translator.resolve_of_gives parsed lt gives declared, read,
      fun extents n measured => ?_⟩
    have first := Shape.first_extent vector measured
    refine ⟨?_, fun plain => ?_⟩
    · calc (∀ e ∈ (a.selector x 0).extents, extents e.1 e.2 = n)
          ↔ (a.measures → extents x 0 = n) := by
            simp only [Program.mem_extents_selector]
            exact ⟨fun all needed => all _ ⟨needed, rfl⟩, fun all e mem => mem.2 ▸ all mem.1⟩
        _ ↔ d.shape = .colvec ∨ a.measures = false ∨ n = 1 := by
            rw [first, ← Bool.not_eq_true, ← imp_iff_not_or]
            by_cases column : d.shape = .colvec
            · simp [column]
            · rw [if_neg column, eq_comm (a := 1), or_iff_right column]
    · rw [← first]
      exact Program.positions?_selector spelled plain

/-- The last elements of a column vector are written. -/
theorem vector_extents_column : ∃ t, Tree.parse "v(2:end) = 0\n" = .ok t ∧ (t.node 0).name = "v"
    ∧ t.children 0 = [3] ∧ t.IsArgument 3 (.range (.literal "2") .last)
    ∧ ∃ text selector, Resolving.Gives t "v" ⟨.colvec, .float⟩ 0 text
      ∧ (∀ translator : Translator,
        translator.state.config.declarations.get? "v" = some ⟨.colvec, .float⟩ →
        (translator.resolve t 0).1 = .ok text)
      ∧ Cpp.readSubscript? text = some ("v", [selector])
      ∧ ∀ extents (n : ℤ), (∀ axis, extents "v" axis = if axis = 0 then n else 1) →
        (∀ e ∈ selector.extents, extents e.1 e.2 = n)
        ∧ selector.positions? extents = some ((progression 2 1 n).map (· - 1)) := by
  have parses : ∃ t, Tree.parse "v(2:end) = 0\n" = .ok t ∧ (t.node 0).name = "v" ∧ t.category 0 = .set
      ∧ t.children 0 = [3] ∧ (t.category 3 = .range ∧ t.children 3 = [1, 2]) ∧ t.IsInteger 1 "2"
      ∧ t.category 2 = .last := ⟨_, by cbv, by decide⟩
  obtain ⟨t, run, name, set, children, ⟨range, ends⟩, two, last⟩ := parses
  have argument : t.IsArgument 3 (.range (.literal "2") .last) :=
    .range range ends (.literal two) (.last last)
  have found := (vector_extents (d := ⟨.colvec, .float⟩) run (by rw [set]; rfl) children
    (by rw [set]; exact fun get => absurd get (by decide)) rfl rfl).2 _ argument
  rw [name] at found
  obtain ⟨text, selector, gives, resolves, read, measured⟩ := found
  refine ⟨t, run, name, children, argument, text, selector, gives, resolves, read,
    fun extents n shape => ?_⟩
  obtain ⟨uses, positions⟩ := measured extents n shape
  exact ⟨uses.mpr (.inl rfl), positions (by decide)⟩

/-- The last of five elements in a row is read, and the text names the first one. -/
theorem vector_extents_row : ∃ t, Tree.parse "y = A(end)\n" = .ok t
    ∧ t.children 1 = [2] ∧ t.IsArgument 2 (.bound .last)
    ∧ ((⟨.ofConfig { declarations := ⟨[("A", ⟨.rowvec, .float⟩)]⟩ }⟩ : Translator).resolve t 1).1
      = .ok "A(A.n_rows-1)"
    ∧ ∃ selector, Cpp.readSubscript? "A(A.n_rows-1)" = some ("A", [selector])
      ∧ ∃ extents : String → Nat → ℤ, (∀ axis, extents "A" axis = if axis = 1 then 5 else 1)
        ∧ (¬ ∀ e ∈ selector.extents, extents e.1 e.2 = 5)
        ∧ selector.positions? extents = some [0]
        ∧ (Argument.bound .last).positions 5 = [5] := by
  have parses : ∃ t, Tree.parse "y = A(end)\n" = .ok t ∧ t.children 1 = [2] ∧ t.category 2 = .last
      ∧ ((⟨.ofConfig { declarations := ⟨[("A", ⟨.rowvec, .float⟩)]⟩ }⟩ : Translator).resolve t 1).1
        = .ok "A(A.n_rows-1)" := ⟨_, by cbv, by decide, by decide, by decide +kernel⟩
  obtain ⟨t, run, children, last, emitted⟩ := parses
  refine ⟨t, run, children, .bound (.last last), emitted,
    .point (.shifted .minus (.term (.extent "A" 0)) (.numeral ['1'])), by decide +kernel,
    fun _ axis => if axis = 1 then 5 else 1, fun _ => rfl, fun all => ?_, by decide, by decide⟩
  have rows : (1 : ℤ) = 5 := all ("A", 0) List.mem_cons_self
  omega

end Translator

end MatrixScript
