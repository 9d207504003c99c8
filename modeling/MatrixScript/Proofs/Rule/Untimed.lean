/-
# `Proofs.Rule.Untimed` — only `tic` and `toc` mind the wall clock

Of all rules two start or read the clock, and one of those warns that it was not started.
Every other answer leaves the clock alone and warns of something else (`Untimed`).  The
rules follow in the order of their modules; `Rule.select_untimed` is about the rule of
any node that is neither a variable nor a call of these two names (`Node.IsTic`,
`Node.IsToc`).
-/
import MatrixScript.Proofs.Rule.Refusal

namespace MatrixScript

/-- The warning about a clock that is read and was not started. -/
def WallClock.unstarted : String := "toc without a preceding tic"

/-- The effect leaves the clock alone, and is no warning that it was not started. -/
def Effect.Untimed : Effect → Prop
  | .report _ problem message => problem = .likelyMisuse → message ≠ WallClock.unstarted
  | .tic | .toc => False
  | .use _ | .record _ _ | .destination _ _ | .redirect _ | .hoist _ _ _ => True

/-- An answer that leaves the clock alone. -/
def Untimed : Except Error Outcome → Prop
  | .ok o => ∀ e ∈ o.effects, e.Untimed
  | .error _ => True

namespace Untimed

variable {s : Site} {template : Template} {effects : List Effect}

theorem keep (h : ∀ e ∈ effects, e.Untimed) : Untimed (s.keep template effects) := h

theorem typed {d : Datatype} (h : ∀ e ∈ effects, e.Untimed) : Untimed (s.typed d template effects) :=
  h

theorem withTyping {typing : Typing} (h : ∀ e ∈ effects, e.Untimed) :
    Untimed (s.withTyping typing template effects) := h

theorem nothing : ∀ e ∈ ([] : List Effect), e.Untimed := nofun

theorem single {e : Effect} (h : e.Untimed) : ∀ e' ∈ [e], e'.Untimed :=
  List.forall_mem_singleton.mpr h

theorem use {i : Include} : ∀ e ∈ [Effect.use i], e.Untimed := single trivial

/-- A problem of another kind. -/
theorem report {node : NodeId} {problem : Problem} {message : String}
    (other : problem ≠ .likelyMisuse) : ∀ e ∈ [Effect.report node problem message], e.Untimed :=
  single fun misuse => absurd misuse other

theorem append {first second : List Effect} (h : ∀ e ∈ first, e.Untimed)
    (h' : ∀ e ∈ second, e.Untimed) : ∀ e ∈ first ++ second, e.Untimed :=
  List.forall_mem_append.mpr ⟨h, h'⟩

theorem refuse : Untimed s.refuse := keep (report nofun)

theorem bind {α : Type} (x : Except Error α) {f : α → Except Error Outcome}
    (h : ∀ a, Untimed (f a)) : Untimed (x >>= f) := by
  cases x with
  | error e => trivial
  | ok a => exact h a

end Untimed

namespace Rule

open Untimed

variable {s : Site}

/-! ## Assignments and definitions -/

theorem binding_untimed (destination : Operand) (d : Datatype) :
    ∀ e ∈ binding destination d, e.Untimed := by
  unfold binding
  split
  · exact single trivial
  · exact nothing

theorem assign_untimed : Untimed (assign s) := by
  unfold assign
  split
  · exact bind _ fun _ => keep (binding_untimed _ _)
  · trivial

theorem assigns_untimed : Untimed (assigns s) := by
  unfold assigns
  split
  · trivial
  · refine bind _ fun _ => ?_
    dsimp only
    split
    · exact keep nothing
    · exact keep (report nofun)

theorem function_untimed : Untimed (function s) := by
  unfold function
  split
  · dsimp only
    split
    · exact keep nothing
    · exact keep nothing
  · trivial

theorem ret_untimed : Untimed (ret s) := by
  unfold ret
  split
  · exact keep nothing
  · exact keep nothing

/-! ## Operators -/

theorem checkNumeric_untimed (operation : String) : ∀ e ∈ checkNumeric operation s, e.Untimed := by
  unfold checkNumeric
  split
  · exact report nofun
  · exact nothing

theorem productShape_untimed (shape : Shape) (operands : List Operand) :
    ∀ e ∈ (productShape shape operands).2, e.Untimed := by
  induction operands generalizing shape with
  | nil => exact nothing
  | cons o rest ih =>
    unfold productShape
    split
    · exact ih _
    · exact List.forall_mem_cons.mpr ⟨nofun, ih _⟩

theorem mul_untimed : Untimed (mul s) := by
  unfold mul
  split
  · exact keep nothing
  · split
    · exact keep (report nofun)
    · split
      · trivial
      · exact typed (productShape_untimed _ _)

theorem power_untimed : Untimed (power s) := by
  unfold power
  split
  · trivial
  · exact keep nothing

theorem comparison_untimed (operator : String) : Untimed (comparison operator s) := by
  refine keep ?_
  split
  · exact report nofun
  · exact nothing

theorem transposed_untimed (typing : Typing) : Untimed (transposed typing s) := by
  unfold transposed
  split
  · exact withTyping nothing
  · exact bind _ fun _ => typed nothing

theorem conjugated_untimed (typing : Typing) : Untimed (conjugated typing s) := by
  unfold conjugated
  split
  · exact withTyping nothing
  · exact bind _ fun _ => typed nothing

/-! ## Divisions -/

theorem elRightDiv_untimed : Untimed (elRightDiv s) := by
  unfold elRightDiv
  split
  · trivial
  · exact withTyping (checkNumeric_untimed _)

theorem elLeftDiv_untimed : Untimed (elLeftDiv s) := by
  unfold elLeftDiv
  split
  · trivial
  · exact withTyping (checkNumeric_untimed _)

theorem quotient_untimed (operator : String) (step : Quotient → Operand → Quotient) (q : Quotient)
    (operands : List Operand) : ∀ e ∈ (quotient s operator step q operands).2, e.Untimed := by
  induction operands generalizing q with
  | nil => exact nothing
  | cons o rest ih =>
    unfold quotient
    refine append ?_ (ih _)
    unfold quotientShape
    split
    · exact nothing
    · exact report (by decide)

theorem structural_untimed (operator : String) (step : Quotient → Operand → Quotient) {scalars : Rule}
    (h : Untimed (scalars s)) : Untimed (structural operator step scalars s) := by
  unfold structural
  split
  · exact keep nothing
  · split
    · exact h
    · split
      · trivial
      · exact typed (append (checkNumeric_untimed _) (quotient_untimed _ _ _ _))

/-! ## Ranges, axes, subscripts -/

theorem range_untimed : Untimed (range s) := by
  unfold range
  split
  · unfold rangeOfPositions
    split
    · exact typed nothing
    · exact typed use
    · exact typed nothing
  · unfold rangeOfValues
    split
    · exact typed use
    · split
      · exact typed use
      · exact typed use
    · exact typed nothing

theorem all_untimed : Untimed (all s) := by
  unfold all
  split
  · exact typed use
  · exact typed nothing

theorem last_untimed : Untimed (last s) := by
  unfold last
  split
  · exact keep (report nofun)
  · split
    · exact typed nothing
    · exact typed (report nofun)

theorem subscript_untimed : Untimed (subscript s) := by
  unfold subscript
  split
  · exact keep nothing
  · split
    · exact typed nothing
    · exact keep nothing

/-! ## Literals -/

theorem var_untimed : Untimed (var s) := by
  unfold var
  split
  · exact typed nothing
  · exact keep nothing

theorem row_untimed : Untimed (row s) := by
  unfold row
  split
  · exact keep nothing
  · exact withTyping nothing
  · dsimp only
    split
    · exact typed nothing
    · split
      · exact typed nothing
      · exact keep nothing

theorem plainMatrix_untimed (d : Datatype) : Untimed (plainMatrix d s) := by
  unfold plainMatrix
  split
  · trivial
  · split
    · exact typed nothing
    · exact typed nothing
  · split
    · exact typed nothing
    · refine typed ?_
      split
      · exact report nofun
      · exact nothing

theorem stackedMatrix_untimed (d : Datatype) : Untimed (stackedMatrix d s) := by
  unfold stackedMatrix
  split
  · trivial
  · exact withTyping nothing

theorem matrix_untimed : Untimed (matrix s) := by
  unfold matrix
  dsimp only
  split
  · exact keep nothing
  · split
    · exact typed nothing
    · split
      · split
        · exact plainMatrix_untimed _
        · exact keep nothing
      · exact stackedMatrix_untimed _

end Rule

namespace BuiltinRule

open Untimed

variable {s : Site}

theorem housekeeping_untimed : Untimed (housekeeping s) := by
  unfold housekeeping
  split
  · exact keep nothing
  · exact keep nothing

/-! ## Arrays out of dimensions -/

theorem eye_untimed : Untimed (eye s) := by
  unfold eye
  dsimp only
  split
  · exact typed (s := s) nothing
  · split
    · exact keep nothing
    · split
      · exact typed nothing
      · exact typed nothing
  · split
    · exact keep nothing
    · exact typed nothing
  · exact refuse

theorem rand_untimed : Untimed (rand s) := by
  unfold rand
  split
  · exact typed (s := s) nothing
  · exact typed (s := s) nothing
  · exact typed (s := s) nothing
  · exact typed (s := s) nothing
  · exact refuse

theorem filledByVector_untimed (constructor : String) (d : Datatype) (dims : Operand) :
    Untimed (filledByVector constructor d dims s) := by
  unfold filledByVector
  cases dims.node.category == Category.var with
  | true => exact typed nothing
  | false => exact typed (single trivial)

theorem filledByNumbers_untimed (constructor : String) (d : Datatype) :
    Untimed (filledByNumbers constructor d s) := by
  unfold filledByNumbers
  dsimp only
  split
  · split
    · exact typed nothing
    · split
      · exact typed nothing
      · split
        · exact typed nothing
        · exact typed nothing
  · exact typed nothing

theorem filled_untimed : Untimed (filled s) := by
  unfold filled
  split
  · exact typed nothing
  · split
    · exact refuse
    · dsimp only
      split
      · exact filledByVector_untimed _ _ _
      · exact filledByNumbers_untimed _ _

theorem diagonal_untimed (x : Operand) : Untimed (diagonal x s) := by
  unfold diagonal
  split
  · exact keep nothing
  · split
    · exact withTyping nothing
    · exact typed nothing
    · exact typed nothing
    · exact typed nothing
    · exact refuse

theorem diag_untimed : Untimed (diag s) := by
  unfold diag
  split
  · exact diagonal_untimed _
  · exact diagonal_untimed _
  · exact refuse

/-! ## Functions of every element -/

theorem ofOne_untimed {rule : Operand → Rule} (h : ∀ x, Untimed (rule x s)) :
    Untimed (ofOne rule s) := by
  unfold ofOne
  split
  · exact h _
  · exact refuse

theorem mathFor_untimed (shape : Shape) : ∀ e ∈ mathFor shape, e.Untimed := by
  unfold mathFor
  split
  · exact use
  · exact nothing

theorem abs_untimed : Untimed (abs s) := by
  refine ofOne_untimed fun x => ?_
  dsimp only
  split
  · exact withTyping nothing
  · exact withTyping nothing

theorem rounded_untimed (x : Operand) (places : Option Operand) : Untimed (rounded x places s) := by
  unfold rounded
  dsimp only
  split
  · exact withTyping nothing
  · split
    · exact withTyping nothing
    · split
      · exact withTyping (mathFor_untimed _)
      · exact withTyping (mathFor_untimed _)

theorem round_untimed : Untimed (round s) := by
  unfold round
  split
  · exact rounded_untimed _ _
  · exact rounded_untimed _ _
  · exact refuse

theorem floor_untimed : Untimed (floor s) := by
  refine ofOne_untimed fun x => ?_
  dsimp only
  split
  · exact withTyping nothing
  · exact withTyping (mathFor_untimed _)

/-! ## Sizes -/

theorem sizeOfAxes_untimed (x : Operand) (axes : Nat) : Untimed (sizeOfAxes x axes s) := by
  refine bind _ fun members => ?_
  show Untimed (if _ then _ else _)
  split
  · exact typed (single trivial)
  · split
    · exact typed nothing
    · exact typed (single trivial)

theorem sizeOf_untimed (x : Operand) : Untimed (sizeOf x s) := by
  unfold sizeOf
  split
  · exact typed nothing
  · exact typed nothing
  · exact sizeOfAxes_untimed x 2
  · exact sizeOfAxes_untimed x 3
  · exact keep nothing

theorem size_untimed : Untimed (size s) := by
  unfold size
  split
  · split
    · exact keep nothing
    · exact sizeOf_untimed _
  · split
    · exact keep nothing
    · exact typed (s := s) nothing
  · exact refuse

theorem assignSize_untimed : Untimed (assignSize s) := by
  unfold assignSize
  split
  · exact bind _ fun _ => keep (Rule.binding_untimed _ _)
  · trivial

theorem readable_untimed (id : NodeId) (d : Datatype) : ∀ e ∈ (readable s id d).2, e.Untimed := by
  unfold readable
  dsimp only
  split
  · exact nothing
  · exact single trivial

/-- Destinations that are given types. -/
theorem destinations_untimed {α : Type} (items : List α) (id : α → NodeId) (d : α → Datatype) :
    ∀ e ∈ items.map fun a => Effect.destination (id a) (d a), e.Untimed :=
  List.forall_mem_map.mpr fun _ _ => trivial

theorem assignsSize_untimed : Untimed (assignsSize s) := by
  unfold assignsSize
  split
  · trivial
  · split
    · trivial
    · split
      · trivial
      · refine bind _ fun _ => bind _ fun _ => ?_
        exact keep (append (readable_untimed _ _) (destinations_untimed _ _ _))

theorem length_untimed : Untimed (length s) := by
  unfold length
  split
  · split
    · exact typed nothing
    · exact typed use
  · exact refuse

theorem assignsExtremum_untimed : Untimed (assignsExtremum s) := by
  unfold assignsExtremum
  split
  · trivial
  · dsimp only
    split
    · refine bind _ fun _ => ?_
      split
      · trivial
      · split
        · exact keep (append (destinations_untimed _ _ _) (readable_untimed _ _))
        · exact keep nothing
      · trivial
    · trivial

/-! ## Functions along an axis -/

theorem truthReduction_untimed : Untimed (truthReduction s) := by
  have ofMatrix : ∀ x, Untimed (truthOfMatrix x s) := by
    intro x
    unfold truthOfMatrix
    dsimp only
    split
    · split
      · exact typed nothing
      · exact typed nothing
      · exact withTyping (report nofun)
    · exact withTyping (report nofun)
  unfold truthReduction
  split
  · exact keep nothing
  · dsimp only
    split
    · exact keep nothing
    · split
      · exact withTyping nothing
      · exact typed nothing
      · exact typed nothing
      · exact ofMatrix _
      · exact typed nothing
      · exact withTyping nothing

theorem extremumOfArrays_untimed (x : Operand) : Untimed (extremumOfArrays x s) := by
  unfold extremumOfArrays
  dsimp only
  split
  · exact typed nothing
  · exact typed nothing
  · split
    · exact typed nothing
    · exact typed nothing
    · exact withTyping (report nofun)
  · exact typed (report nofun)

theorem extremum_untimed : Untimed (extremum s) := by
  unfold extremum
  split
  · exact keep nothing
  · split
    · exact keep nothing
    · split
      · exact typed nothing
      · exact extremumOfArrays_untimed _

theorem sum_untimed : Untimed (sum s) := by
  have summed : ∀ x axis, Untimed (sumOf x axis s) := by
    intro x axis
    unfold sumOf
    split
    · exact keep (report nofun)
    · exact typed nothing
  unfold sum
  split
  · exact summed _ _
  · exact summed _ _
  · exact refuse

/-! ## Transforms -/

/-- The other warning about a likely misuse says something else. -/
theorem realInverse_untimed (x : Operand) : ∀ e ∈ realInverse x s, e.Untimed := by
  unfold realInverse
  split
  · refine single fun _ same => ?_
    have first := congrArg (fun m => m.toList.head?) same
    simp [WallClock.unstarted] at first
  · exact nothing

theorem transformCall_untimed (x : Operand) : ∀ e ∈ (transformCall x s).2, e.Untimed := by
  unfold transformCall
  split
  · exact nothing
  · exact nothing
  · unfold transformAlong
    dsimp only
    split
    · exact nothing
    · split
      · exact use
      · exact use
  · exact report nofun

theorem fourier_untimed : Untimed (fourier s) := by
  unfold fourier
  split
  · exact refuse
  · split
    · exact keep nothing
    · exact typed (append (realInverse_untimed _) (transformCall_untimed _))

theorem interp1_untimed : Untimed (interp1 s) := by
  unfold interp1
  dsimp only
  split
  · split
    · exact typed nothing
    · exact keep nothing
  · exact keep nothing

end BuiltinRule

namespace Rule

open Untimed

variable {s : Site} {b : Builtin} {rule : Rule}

/-! ## The rule of a node -/

theorem ofBareName?_untimed (tic : b ≠ .tic) (toc : b ≠ .toc) (eq : ofBareName? b = some rule) :
    Untimed (rule s) := by
  cases b <;> first | cases eq; done | obtain rfl := Option.some.inj eq
  case tic => exact absurd rfl tic
  case toc => exact absurd rfl toc
  case clear | close | plot | hold => exact BuiltinRule.housekeeping_untimed
  all_goals exact typed (s := s) nothing

theorem ofCall?_untimed (tic : b ≠ .tic) (toc : b ≠ .toc) (eq : ofCall? b = some rule) :
    Untimed (rule s) := by
  cases b <;> first | cases eq; done | obtain rfl := Option.some.inj eq
  case tic => exact absurd rfl tic
  case toc => exact absurd rfl toc
  case abs => exact BuiltinRule.abs_untimed
  case land | lor | linspace => exact typed (s := s) nothing
  case lnot => exact BuiltinRule.ofOne_untimed fun _ => withTyping (s := s) nothing
  case any | all => exact BuiltinRule.truthReduction_untimed
  case size => exact BuiltinRule.size_untimed
  case length => exact BuiltinRule.length_untimed
  case min | max => exact BuiltinRule.extremum_untimed
  case eye => exact BuiltinRule.eye_untimed
  case transpose => exact BuiltinRule.ofOne_untimed fun _ => transposed_untimed _
  case ctranspose => exact BuiltinRule.ofOne_untimed fun _ => conjugated_untimed _
  case flipud | real | imag | conj =>
    exact BuiltinRule.ofOne_untimed fun _ => withTyping (s := s) nothing
  case zeros | ones => exact BuiltinRule.filled_untimed
  case round => exact BuiltinRule.round_untimed
  case floor => exact BuiltinRule.floor_untimed
  case rand => exact BuiltinRule.rand_untimed
  case nextpow2 | hankel => exact typed (s := s) use
  case fft | ifft => exact BuiltinRule.fourier_untimed
  case interp1 => exact BuiltinRule.interp1_untimed
  case sum => exact BuiltinRule.sum_untimed
  case diag => exact BuiltinRule.diag_untimed
  case clear | close | plot | hold => exact BuiltinRule.housekeeping_untimed

theorem ofCategory?_untimed {c : Category} (eq : ofCategory? c = some rule) : Untimed (rule s) := by
  cases c <;> first | cases eq; done | obtain rfl := Option.some.inj eq
  case assign => exact assign_untimed
  case assigns => exact assigns_untimed
  case function => exact function_untimed
  case ret => exact ret_untimed
  case var => exact var_untimed
  case get | set => exact subscript_untimed
  case int | float | imag | str => exact typed (s := s) nothing
  case matrix => exact matrix_untimed
  case row => exact row_untimed
  case add | sub | elMul => exact keep (checkNumeric_untimed _)
  case mul => exact mul_untimed
  case rightDiv => exact structural_untimed _ _ elRightDiv_untimed
  case leftDiv => exact structural_untimed _ _ elLeftDiv_untimed
  case elRightDiv => exact elRightDiv_untimed
  case elLeftDiv => exact elLeftDiv_untimed
  case pow | elPow => exact power_untimed
  case gt | ge | lt | le | ne | eq => exact comparison_untimed _
  case not => exact withTyping (s := s) nothing
  case transpose => exact transposed_untimed _
  case ctranspose => exact conjugated_untimed _
  case range => exact range_untimed
  case all => exact all_untimed
  case last => exact last_untimed
  all_goals exact keep (s := s) nothing

end Rule

/-! ## The names of the clock -/

namespace Node

/-- A variable or a call of this name. -/
def Reads (n : Node) (name : String) : Prop := (n.category = .var ∨ n.category = .get) ∧ n.name = name

instance (n : Node) (name : String) : Decidable (n.Reads name) := inferInstanceAs (Decidable (_ ∧ _))

/-- The node starts the clock. -/
abbrev IsTic (n : Node) : Prop := n.Reads "tic"

/-- The node reads the clock. -/
abbrev IsToc (n : Node) : Prop := n.Reads "toc"

end Node

namespace Rule

variable {t : Tree} {n : Node}

/-- A variable or a call that is not redirected is about the built-in of its name. -/
theorem builtinOf?_of_reads {b : Builtin} (reads : n.Reads b.name) (straight : n.redirect = none) :
    builtinOf? t n = some b := by
  obtain ⟨var | get, name⟩ := reads
  · rw [builtinOf?, straight, var, name, Builtin.ofName?_name]
  · rw [builtinOf?, straight, get, name, Builtin.ofName?_name]

theorem select_tic (tic : n.IsTic) (straight : n.redirect = none) : select t n = BuiltinRule.tic := by
  rw [select, builtinOf?_of_reads (b := .tic) tic straight]
  obtain ⟨var | get, -⟩ := tic
  · rw [var]
    rfl
  · rw [get]
    rfl

theorem select_toc (toc : n.IsToc) (straight : n.redirect = none) : select t n = BuiltinRule.toc := by
  rw [select, builtinOf?_of_reads (b := .toc) toc straight]
  obtain ⟨var | get, -⟩ := toc
  · rw [var]
    rfl
  · rw [get]
    rfl

/-- The clock is read whatever it says, and a warning goes with it if it was not started. -/
theorem exists_toc (s : Site) : ∃ o, BuiltinRule.toc s = .ok o ∧ o.effects =
    if s.state.clock.started then [.toc]
    else [.toc, .report s.id .likelyMisuse WallClock.unstarted] := by
  unfold BuiltinRule.toc
  dsimp only
  split
  · exact ⟨_, rfl, rfl⟩
  · exact ⟨_, rfl, rfl⟩

/-- Whatever rule another node gets, it leaves the clock alone. -/
theorem select_untimed (tic : ¬n.IsTic) (toc : ¬n.IsToc)
    (straight : n.category = .var ∨ n.category = .get → n.redirect = none) {s : Site} :
    Untimed (select t n s) := by
  -- a built-in of a variable or a call is that of its name
  have other : ∀ {b}, n.category = .var ∨ n.category = .get → builtinOf? t n = some b →
      b ≠ .tic ∧ b ≠ .toc := by
    intro b kind found
    have named : Builtin.ofName? n.name = some b := by
      rw [builtinOf?, straight kind] at found
      rcases kind with var | get
      · rwa [var] at found
      · rwa [get] at found
    constructor
    · rintro rfl
      exact tic ⟨kind, (Builtin.ofName?_eq_iff (b := .tic) nofun nofun).mp named⟩
    · rintro rfl
      exact toc ⟨kind, (Builtin.ofName?_eq_iff (b := .toc) nofun nofun).mp named⟩
  unfold select
  cases chosen : (builtinOf? t n).bind (ofBuiltin? n.category) with
  | none =>
    cases found : ofCategory? n.category with
    | some rule => exact ofCategory?_untimed found
    | none => exact Untimed.keep (Untimed.report nofun)
  | some rule =>
    obtain ⟨b, found, eq⟩ := Option.bind_eq_some_iff.mp chosen
    cases category : n.category <;> rw [category] at eq
    case var =>
      obtain ⟨tic, toc⟩ := other (.inl category) found
      exact ofBareName?_untimed tic toc eq
    case get =>
      obtain ⟨tic, toc⟩ := other (.inr category) found
      exact ofCall?_untimed tic toc eq
    case assign =>
      cases b <;> first | cases eq; done | obtain rfl := Option.some.inj eq
      exact BuiltinRule.assignSize_untimed
    case assigns =>
      cases b <;> first | cases eq; done | obtain rfl := Option.some.inj eq
      case size => exact BuiltinRule.assignsSize_untimed
      all_goals exact BuiltinRule.assignsExtremum_untimed
    all_goals cases eq

end Rule

end MatrixScript
