/-
# `Proofs.Rule.BuiltinTwin` — the rules of built-ins type twins alike

One lemma for each rule, in the order of their modules, and then for whatever rule a
node gets (`Rule.select_twin`).  A call of `size` is the one that decides about the type
of another node without being an assignment: it redirects the assignment above it.
-/
import MatrixScript.Proofs.Rule.Twin
import MatrixScript.Rule.Table

namespace MatrixScript

variable {R : NodeId → NodeId → Prop} {s s' : Site} (h : s.Twin R s')
include h

namespace BuiltinRule

open Rule

/-! ## Constants, the clock and commands -/

omit h in
theorem constant_twin (c : StorageClass) (text : String) :
    SameTypes R s s' Malformed (constant c text s) (constant c text s') := .given rfl rfl

theorem tic_twin : SameTypes R s s' Malformed (tic s) (tic s') := .keep h rfl rfl

theorem toc_twin : SameTypes R s s' Malformed (toc s) (toc s') := by
  have quiet : ∀ s : Site, (if s.state.clock.started then [Effect.toc]
      else [.toc, .report s.id .likelyMisuse "toc without a preceding tic"]).filter Effect.types
        = [] := by
    intro s
    split
    · rfl
    · rfl
  unfold toc
  rw [h.parentCategory?]
  exact .ite (fun _ => .keep h (quiet s) (quiet s')) fun _ => .given (quiet s) (quiet s')

theorem housekeeping_twin : SameTypes R s s' Malformed (housekeeping s) (housekeeping s') := by
  unfold housekeeping
  rw [h.node.category]
  exact .ite (fun _ => .keep h rfl rfl) fun _ => .keep h rfl rfl

/-! ## Functions of every element -/

theorem ofOne_twin {rule : Operand → Rule}
    (one : ∀ x x', x.Twin R x' → SameTypes R s s' Malformed (rule x s) (rule x' s')) :
    SameTypes R s s' Malformed (ofOne rule s) (ofOne rule s') := by
  unfold ofOne
  rcases h.nil_or_cons with ⟨eq, eq'⟩ | ⟨x, x', os, os', eq, eq', first, rest⟩
  · rw [eq, eq']
    exact .refuse h
  · rw [eq, eq']
    rcases rest with _ | _
    · exact one x x' first
    · exact .refuse h

theorem abs_twin : SameTypes R s s' Malformed (abs s) (abs s') := by
  refine ofOne_twin h fun x x' twin => ?_
  dsimp only
  rw [twin.node.typing, twin.cls]
  exact .ite (fun _ => .given rfl rfl) fun _ => .given rfl rfl

theorem land_twin : SameTypes R s s' Malformed (land s) (land s') := by
  unfold land
  rw [h.types]
  exact .given rfl rfl

theorem lor_twin : SameTypes R s s' Malformed (lor s) (lor s') := by
  unfold lor
  rw [h.types]
  exact .given rfl rfl

theorem lnot_twin : SameTypes R s s' Malformed (lnot s) (lnot s') := by
  refine ofOne_twin h fun x x' twin => ?_
  rw [twin.node.typing]
  exact negation_twin _

theorem transpose_twin : SameTypes R s s' Malformed (transpose s) (transpose s') := by
  refine ofOne_twin h fun x x' twin => ?_
  rw [twin.node.typing]
  exact transposed_twin h _

theorem ctranspose_twin : SameTypes R s s' Malformed (ctranspose s) (ctranspose s') := by
  refine ofOne_twin h fun x x' twin => ?_
  rw [twin.node.typing]
  exact conjugated_twin h _

theorem flipud_twin : SameTypes R s s' Malformed (flipud s) (flipud s') := by
  refine ofOne_twin h fun x x' twin => ?_
  rw [twin.node.typing]
  exact .given rfl rfl

omit h in
theorem quiet_mathFor (shape : Shape) : (mathFor shape).filter Effect.types = [] := by
  cases shape <;> rfl

omit h in
theorem rounded_twin {x x' : Operand} (twin : x.Twin R x') {places places' : Option Operand}
    (same : (places'.all (·.node.isInt 0)) = places.all (·.node.isInt 0)) :
    SameTypes R s s' Malformed (rounded x places s) (rounded x' places' s') := by
  unfold rounded
  rw [twin.node.typing, twin.cls, twin.shape, same]
  have quiet := quiet_mathFor x.shape
  refine .ite (fun _ => .given rfl rfl) fun _ => .ite (fun _ => .given rfl rfl) fun _ => ?_
  exact .ite (fun _ => .given quiet quiet) fun _ => .given quiet quiet

theorem round_twin : SameTypes R s s' Malformed (round s) (round s') := by
  unfold round
  rcases h.nil_or_cons with ⟨eq, eq'⟩ | ⟨x, x', os, os', eq, eq', first, rest⟩
  · rw [eq, eq']
    exact .refuse h
  · rw [eq, eq']
    rcases rest with _ | ⟨second, _ | _⟩
    · exact rounded_twin first rfl
    · exact rounded_twin first (second.node.isInt 0)
    · exact .refuse h

theorem floor_twin : SameTypes R s s' Malformed (floor s) (floor s') := by
  refine ofOne_twin h fun x x' twin => ?_
  dsimp only
  rw [twin.node.typing, twin.cls, twin.shape]
  exact .ite (fun _ => .given rfl rfl) fun _ => .given (quiet_mathFor _) (quiet_mathFor _)

theorem part_twin : SameTypes R s s' Malformed (part s) (part s') := by
  refine ofOne_twin h fun x x' twin => ?_
  dsimp only
  rw [twin.node.typing, twin.cls]
  exact .given rfl rfl

theorem conj_twin : SameTypes R s s' Malformed (conj s) (conj s') := by
  refine ofOne_twin h fun x x' twin => ?_
  rw [twin.node.typing]
  exact .given rfl rfl

/-! ## Arrays out of dimensions -/

theorem eye_twin : SameTypes R s s' Malformed (eye s) (eye s') := by
  unfold eye
  rcases h.nil_or_cons with ⟨eq, eq'⟩ | ⟨x, x', os, os', eq, eq', first, rest⟩
  · rw [eq, eq']
    exact .given rfl rfl
  · rw [eq, eq']
    rcases rest with _ | ⟨second, _ | _⟩
    · dsimp only
      rw [first.numeric, first.shape]
      refine .ite (fun _ => .keep h rfl rfl) fun _ => ?_
      exact .ite (fun _ => .given rfl rfl) fun _ => .given rfl rfl
    · dsimp only
      rw [first.numeric]
      exact .ite (fun _ => .keep h rfl rfl) fun _ => .given rfl rfl
    · exact .refuse h

theorem rand_twin : SameTypes R s s' Malformed (rand s) (rand s') := by
  unfold rand
  rcases h.nil_or_cons with ⟨eq, eq'⟩ | ⟨x, x', os, os', eq, eq', first, rest⟩
  · rw [eq, eq']
    exact .given rfl rfl
  · rw [eq, eq']
    rcases rest with _ | ⟨_, _ | ⟨_, _ | _⟩⟩
    · exact .given rfl rfl
    · exact .given rfl rfl
    · exact .given rfl rfl
    · exact .refuse h

theorem assignmentHint?_twin : assignmentHint? s' = assignmentHint? s := by
  obtain ⟨p, p', up, up', beside⟩ := h.trees.around h.id
  have category : (s'.tree.node p').category = (s.tree.node p).category := beside.category h.trees
  unfold assignmentHint? Site.parent?
  rw [h.node.suggest, up, up', Option.map_some, Option.map_some]
  cases s.node.suggest with
  | some d => rfl
  | none =>
    dsimp only
    rw [category]
    cases kind : (s.tree.node p).category == .assign with
    | false => rfl
    | true =>
      have assign : s.tree.category p = .assign := eq_of_beq kind
      have pair : R p p' := beside.of_category (by rw [assign]; nofun) (by rw [assign]; nofun)
      have children := (h.trees.node pair).children
      rw [h.trees.position? h.id up up' pair]
      generalize (s.tree.node p).children = cs, (s'.tree.node p').children = cs' at children
      cases children with
      | nil => rfl
      | cons first _ =>
        have twin := h.trees.node first
        dsimp only
        rw [twin.category, twin.name, h.lookup]

theorem knownHint?_twin : knownHint? s' = knownHint? s := by
  rw [knownHint?, assignmentHint?_twin h, knownHint?]

theorem fillClass_twin : fillClass s' = fillClass s := by
  obtain ⟨g, g', group, group', beside⟩ :=
    h.trees.exists_groups h.wellFormed h.wellFormed' h.id
  have category : (s'.tree.node g').category = (s.tree.node g).category := beside.category h.trees
  unfold fillClass Site.group?
  rw [group, group', Option.map_some, Option.map_some, knownHint?_twin h]
  show (if (s'.tree.node g').category.isSubscript then _ else _) = _
  rw [category]
  rfl

theorem isDimensionVector_twin : isDimensionVector s' = isDimensionVector s := by
  unfold isDimensionVector
  rcases h.nil_or_cons with ⟨eq, eq'⟩ | ⟨x, x', os, os', eq, eq', first, rest⟩
  · rw [eq, eq']
  · rw [eq, eq']
    rcases rest with _ | _
    · dsimp only
      rw [first.numeric, first.shape]
    · rfl

theorem fillShapeOfArguments_twin (hint : Option Shape) :
    fillShapeOfArguments hint s' = fillShapeOfArguments hint s := by
  unfold fillShapeOfArguments
  rw [isDimensionVector_twin h]
  rcases h.nil_or_cons with ⟨eq, eq'⟩ | ⟨x, x', os, os', eq, eq', first, rest⟩
  · rw [eq, eq']
  · rw [eq, eq']
    rcases rest with _ | ⟨second, _ | _⟩
    · rfl
    · dsimp only
      rw [first.node.isInt, second.node.isInt]
    · rfl

theorem fillShape_twin : fillShape s' = fillShape s := by
  unfold fillShape
  rw [knownHint?_twin h]
  split
  · rw [fillShapeOfArguments_twin h]
  · rw [fillShapeOfArguments_twin h]

omit h in
theorem filledByVector_twin (constructor : String) (d : Datatype) {x x' : Operand} :
    SameTypes R s s' Malformed (filledByVector constructor d x s)
      (filledByVector constructor d x' s') := by
  have quiet : ∀ (s : Site) (x : Operand), ((if x.node.category == .var then (x.text, [])
      else (s.state.temporaryName x.id x.datatype, [.hoist x.id x.node.text x.datatype]) :
        String × List Effect).2.filter Effect.types) = [] := by
    intro s x
    split
    · rfl
    · rfl
  exact .given (quiet s x) (quiet s' x')

omit h in
theorem exists_filledByNumbers (constructor : String) (d : Datatype) (s : Site) :
    ∃ t, filledByNumbers constructor d s = .ok ⟨t, .of d, []⟩ := by
  unfold filledByNumbers
  dsimp only
  split
  · split
    · exact ⟨_, rfl⟩
    · split
      · exact ⟨_, rfl⟩
      · split
        · exact ⟨_, rfl⟩
        · exact ⟨_, rfl⟩
  · exact ⟨_, rfl⟩

theorem filled_twin : SameTypes R s s' Malformed (filled s) (filled s') := by
  unfold filled
  rw [fillShape_twin h, fillClass_twin h, isDimensionVector_twin h, h.arity, h.name]
  rcases h.nil_or_cons with ⟨eq, eq'⟩ | ⟨x, x', os, os', eq, eq', first, rest⟩
  · rw [eq, eq']
    exact .given rfl rfl
  · rw [eq, eq']
    refine .ite (fun _ => .refuse h) fun _ => .ite (fun _ => filledByVector_twin _ _) fun _ => ?_
    obtain ⟨t, numbers⟩ := exists_filledByNumbers
      ("arma::" ++ s.name ++ "<" ++ Datatype.typeName ⟨fillShape s, fillClass s⟩ ++ ">")
      ⟨fillShape s, fillClass s⟩ s
    obtain ⟨t', numbers'⟩ := exists_filledByNumbers
      ("arma::" ++ s.name ++ "<" ++ Datatype.typeName ⟨fillShape s, fillClass s⟩ ++ ">")
      ⟨fillShape s, fillClass s⟩ s'
    rw [numbers, numbers']
    exact .given rfl rfl

theorem diagonal_twin {x x' : Operand} (twin : x.Twin R x') :
    SameTypes R s s' Malformed (diagonal x s) (diagonal x' s') := by
  unfold diagonal
  rw [twin.numeric, twin.shape, twin.node.typing, twin.datatype]
  refine .ite (fun _ => .keep h rfl rfl) fun _ => ?_
  cases x.shape with
  | scalar | colvec | rowvec | matrix => exact .given rfl rfl
  | unknown | cube => exact .refuse h

theorem diag_twin : SameTypes R s s' Malformed (diag s) (diag s') := by
  unfold diag
  rcases h.nil_or_cons with ⟨eq, eq'⟩ | ⟨x, x', os, os', eq, eq', first, rest⟩
  · rw [eq, eq']
    exact .refuse h
  · rw [eq, eq']
    rcases rest with _ | ⟨_, _ | _⟩
    · exact diagonal_twin h first
    · exact diagonal_twin h first
    · exact .refuse h

theorem hankel_twin : SameTypes R s s' Malformed (hankel s) (hankel s') := by
  unfold hankel hankelClass
  rcases h.nil_or_cons with ⟨eq, eq'⟩ | ⟨x, x', os, os', eq, eq', first, rest⟩
  · rw [eq, eq']
    exact .given rfl rfl
  · rw [eq, eq']
    dsimp only
    rw [first.numeric, first.cls]
    exact .given rfl rfl

/-! ## Reductions -/

theorem truthOfMatrix_twin {x x' : Operand} (twin : x.Twin R x') :
    SameTypes R s s' Malformed (truthOfMatrix x s) (truthOfMatrix x' s') := by
  unfold truthOfMatrix
  rw [twin.node.typing]
  rcases h.nil_or_cons with ⟨eq, eq'⟩ | ⟨y, y', os, os', eq, eq', first, rest⟩
  · rw [eq, eq']
    exact .given rfl rfl
  · rw [eq, eq']
    rcases rest with _ | ⟨axis, _ | _⟩
    · exact .given rfl rfl
    · dsimp only
      rw [axis.node.intValue?]
      split
      · exact .given rfl rfl
      · exact .given rfl rfl
      · exact .given rfl rfl
    · exact .given rfl rfl

theorem truthReduction_twin : SameTypes R s s' Malformed (truthReduction s) (truthReduction s') := by
  unfold truthReduction
  rcases h.nil_or_cons with ⟨eq, eq'⟩ | ⟨x, x', os, os', eq, eq', first, rest⟩
  · rw [eq, eq']
    exact .keep h rfl rfl
  · rw [eq, eq']
    dsimp only
    rw [first.node.typing, first.shape]
    refine .ite (fun _ => .keep h rfl rfl) fun _ => ?_
    cases x.shape with
    | matrix => exact truthOfMatrix_twin h first
    | scalar | colvec | rowvec | cube | unknown => exact .given rfl rfl

theorem extremumOfArrays_twin {x x' : Operand} (twin : x.Twin R x') :
    SameTypes R s s' Malformed (extremumOfArrays x s) (extremumOfArrays x' s') := by
  unfold extremumOfArrays
  rw [twin.datatype]
  rcases h.nil_or_cons with ⟨eq, eq'⟩ | ⟨y, y', os, os', eq, eq', first, rest⟩
  · rw [eq, eq']
    exact .given rfl rfl
  · rw [eq, eq']
    rcases rest with _ | ⟨_, _ | ⟨axis, _ | _⟩⟩
    · exact .given rfl rfl
    · exact .given rfl rfl
    · dsimp only
      rw [axis.node.intValue?]
      split
      · exact .given rfl rfl
      · exact .given rfl rfl
      · exact .given rfl rfl
    · exact .given rfl rfl

theorem extremum_twin : SameTypes R s s' Malformed (extremum s) (extremum s') := by
  have numbers := Operand.all_eq_of_twin h.operands (p := fun o => o.isPlaceholder || o.numeric)
    (q := fun o => o.isPlaceholder || o.numeric) fun _ _ _ twin => by
      rw [twin.isPlaceholder, twin.numeric]
  have scalars := Operand.all_eq_of_twin h.operands (p := (·.shape == .scalar))
    (q := (·.shape == .scalar)) fun _ _ _ twin => congrArg (· == Shape.scalar) twin.shape
  unfold extremum
  rw [h.types, numbers, scalars]
  rcases h.nil_or_cons with ⟨eq, eq'⟩ | ⟨x, x', os, os', eq, eq', first, rest⟩
  · rw [eq, eq']
    exact .keep h rfl rfl
  · rw [eq, eq']
    refine .ite (fun _ => .keep h rfl rfl) fun _ => .ite (fun _ => .given rfl rfl) fun _ => ?_
    exact extremumOfArrays_twin h first

theorem sumOf_twin {x x' : Operand} (twin : x.Twin R x') {axis axis' : Option Operand}
    (same : axis'.bind (·.node.intValue?) = axis.bind (·.node.intValue?)) :
    SameTypes R s s' Malformed (sumOf x axis s) (sumOf x' axis' s') := by
  unfold sumOf
  rw [twin.numeric, twin.shape, twin.datatype, same]
  exact .ite (fun _ => .keep h rfl rfl) fun _ => .given rfl rfl

theorem sum_twin : SameTypes R s s' Malformed (sum s) (sum s') := by
  unfold sum
  rcases h.nil_or_cons with ⟨eq, eq'⟩ | ⟨x, x', os, os', eq, eq', first, rest⟩
  · rw [eq, eq']
    exact .refuse h
  · rw [eq, eq']
    rcases rest with _ | ⟨second, _ | _⟩
    · exact sumOf_twin h first rfl
    · exact sumOf_twin h first second.node.intValue?
    · exact .refuse h

/-! ## Transforms and interpolation -/

omit h in
theorem quiet_transformCall (x : Operand) (s : Site) :
    (transformCall x s).2.filter Effect.types = [] := by
  unfold transformCall
  split
  · rfl
  · rfl
  · unfold transformAlong
    dsimp only
    split
    · rfl
    · split
      · rfl
      · rfl
  · rfl

omit h in
theorem quiet_realInverse (x : Operand) (s : Site) :
    (realInverse x s).filter Effect.types = [] := by
  unfold realInverse
  split
  · rfl
  · rfl

theorem fourier_twin : SameTypes R s s' Malformed (fourier s) (fourier s') := by
  have quiet : ∀ (x : Operand) (s : Site),
      (realInverse x s ++ (transformCall x s).2).filter Effect.types = [] := by
    intro x s
    rw [List.filter_append, quiet_realInverse, quiet_transformCall]
    rfl
  unfold fourier
  rcases h.nil_or_cons with ⟨eq, eq'⟩ | ⟨x, x', os, os', eq, eq', first, rest⟩
  · rw [eq, eq']
    exact .refuse h
  · rw [eq, eq']
    dsimp only
    rw [first.numeric, first.datatype]
    exact .ite (fun _ => .keep h rfl rfl) fun _ => .given (quiet x s) (quiet x' s')

theorem interp1_twin : SameTypes R s s' Malformed (interp1 s) (interp1 s') := by
  unfold interp1
  rcases h.nil_or_cons with ⟨eq, eq'⟩ | ⟨x, x', os, os', eq, eq', first, rest⟩
  · rw [eq, eq']
    exact .keep h rfl rfl
  · rw [eq, eq']
    rcases rest with _ | ⟨_, _ | ⟨queries, _⟩⟩
    · exact .keep h rfl rfl
    · exact .keep h rfl rfl
    · dsimp only
      rw [queries.datatype, queries.shape]
      exact .ite (fun _ => .given rfl rfl) fun _ => .keep h rfl rfl

/-! ## Sizes -/

/-- The assignment to a variable above a pair is paired. -/
theorem exists_assigned (assigned : isAssignedToVariable s) : ∃ p p',
    s.tree.parent? s.id = some p ∧ s'.tree.parent? s'.id = some p' ∧ R p p' := by
  obtain ⟨p, p', up, up', beside⟩ := h.trees.around h.id
  unfold isAssignedToVariable Site.parent? at assigned
  rw [up] at assigned
  have assign : s.tree.category p = .assign := eq_of_beq ((Bool.and_eq_true _ _).mp assigned).1
  exact ⟨p, p', up, up', beside.of_category (by rw [assign]; nofun) (by rw [assign]; nofun)⟩

theorem isAssignedToVariable_twin : isAssignedToVariable s' = isAssignedToVariable s := by
  obtain ⟨p, p', up, up', beside⟩ := h.trees.around h.id
  have category : (s'.tree.node p').category = (s.tree.node p).category := beside.category h.trees
  unfold isAssignedToVariable Site.parent?
  rw [up, up']
  show ((s'.tree.node p').category == _ && _) = ((s.tree.node p).category == _ && _)
  rw [category]
  cases kind : (s.tree.node p).category == .assign with
  | false => rfl
  | true =>
    have assign : s.tree.category p = .assign := eq_of_beq kind
    have pair : R p p' := beside.of_category (by rw [assign]; nofun) (by rw [assign]; nofun)
    exact congrArg _ (head?_any_twin h pair fun n n' twin => congrArg (· == Category.var) twin.category)

theorem sizeOfAxes_twin (x x' : Operand) (axes : Nat) :
    SameTypes R s s' Malformed (sizeOfAxes x axes s) (sizeOfAxes x' axes s') := by
  unfold sizeOfAxes extentsOf
  rw [isAssignedToVariable_twin h, h.parentCategory?]
  by_cases few : axes ≤ extents.length
  case neg =>
    rw [if_neg few]
    exact .fails rfl
  case pos =>
    rw [if_pos few]
    refine .ite (fun assigned => ?_) fun _ => ?_
    · obtain ⟨p, p', up, up', pair⟩ := exists_assigned h assigned
      exact .answers rfl (.cons (.redirect _ up up' pair) .nil)
    · exact .ite (fun _ => .given rfl rfl) fun _ => .given rfl rfl

theorem sizeOf_twin {x x' : Operand} (twin : x.Twin R x') :
    SameTypes R s s' Malformed (sizeOf x s) (sizeOf x' s') := by
  unfold sizeOf
  rw [twin.shape]
  cases x.shape with
  | colvec | rowvec => exact .given rfl rfl
  | matrix | cube => exact sizeOfAxes_twin h _ _ _
  | unknown | scalar => exact .keep h rfl rfl

theorem isOpaque_twin {x x' : Operand} (twin : x.Twin R x') : isOpaque x' s' = isOpaque x s := by
  rw [isOpaque, twin.datatype, h.parentCategory?, isOpaque]

theorem size_twin : SameTypes R s s' Malformed (size s) (size s') := by
  unfold size
  rcases h.nil_or_cons with ⟨eq, eq'⟩ | ⟨x, x', os, os', eq, eq', first, rest⟩
  · rw [eq, eq']
    exact .refuse h
  · rw [eq, eq']
    rcases rest with _ | ⟨_, _ | _⟩
    · dsimp only
      rw [isOpaque_twin h first]
      exact .ite (fun _ => .keep h rfl rfl) fun _ => sizeOf_twin h first
    · dsimp only
      rw [isOpaque_twin h first]
      exact .ite (fun _ => .keep h rfl rfl) fun _ => .given rfl rfl
    · exact .refuse h

theorem assignSize_twin : SameTypes R s s' (fun _ => True) (assignSize s) (assignSize s') := by
  unfold assignSize
  rcases h.nil_or_cons with ⟨eq, eq'⟩ | ⟨x, x', os, os', eq, eq', first, rest⟩
  · rw [eq, eq']
    exact .fails trivial
  · rw [eq, eq']
    rcases rest with _ | ⟨second, more⟩
    · exact .fails trivial
    · dsimp only
      rw [second.datatype]
      exact checked_bind_twin (.cons first .nil) (.answers h.seed (binding_twin first _))

omit h in
theorem quiet_readable (s : Site) (id : NodeId) (d : Datatype) :
    (readable s id d).2.filter Effect.types = [] := by
  unfold readable
  dsimp only
  split
  · rfl
  · rfl

omit h in
/-- Every destination is given a type. -/
theorem destinations_twin (d : Datatype) {os os' : List Operand}
    (twins : List.Forall₂ (Operand.Twin R) os os') :
    Effect.Twins R s s' (os.map fun o => .destination o.id d) (os'.map fun o => .destination o.id d) := by
  induction twins with
  | nil => exact .nil
  | cons first _ ih => exact .cons (.destination d first.id) ih

theorem assignsSize_twin : SameTypes R s s' (fun _ => True) (assignsSize s) (assignsSize s') := by
  unfold assignsSize
  rcases splitLast?_twin h.operands with ⟨eq, eq'⟩ | ⟨ds, ds', v, v', eq, eq', twins, twin⟩
  · rw [eq, eq']
    exact .fails trivial
  · rw [eq, eq']
    have children := twin.node.children
    have length := twins.length_eq
    dsimp only
    generalize v.node.children = cs, v'.node.children = cs' at children
    rcases children with _ | ⟨argument, rest⟩
    · exact .fails trivial
    · dsimp only
      rw [← length]
      refine .ite (fun _ => .fails trivial) fun _ => checked_bind_twin twins ?_
      unfold extentsOf
      by_cases few : ds.length ≤ extents.length
      case neg =>
        rw [if_neg few]
        exact .fails trivial
      case pos =>
        rw [if_pos few]
        refine .answers h.seed ?_
        exact (Effect.Twins.of_quiet (quiet_readable ..) (quiet_readable ..)).append
          (destinations_twin _ twins)

theorem length_twin : SameTypes R s s' Malformed (length s) (length s') := by
  unfold length
  rcases h.nil_or_cons with ⟨eq, eq'⟩ | ⟨x, x', os, os', eq, eq', first, rest⟩
  · rw [eq, eq']
    exact .refuse h
  · rw [eq, eq']
    rcases rest with _ | _
    · dsimp only
      rw [first.node.category]
      exact .ite (fun _ => .given rfl rfl) fun _ => .given rfl rfl
    · exact .refuse h

theorem extremumWithIndex_twin (name : String) {value value' index index' : Operand}
    {argument argument' : Operand} (values : value.Twin R value') (indices : index.Twin R index')
    (arguments : argument.Twin R argument') :
    SameTypes R s s' (fun _ => True) (extremumWithIndex name value index argument s)
      (extremumWithIndex name value' index' argument' s') := by
  unfold extremumWithIndex
  rw [arguments.cls]
  refine .answers h.seed (Effect.Twins.append ?_ ?_)
  · exact .cons (.destination _ values.id) (.cons (.destination _ indices.id) .nil)
  · exact .of_quiet (quiet_readable ..) (quiet_readable ..)

theorem assignsExtremum_twin :
    SameTypes R s s' (fun _ => True) (assignsExtremum s) (assignsExtremum s') := by
  unfold assignsExtremum
  rcases splitLast?_twin h.operands with ⟨eq, eq'⟩ | ⟨ds, ds', v, v', eq, eq', twins, twin⟩
  · rw [eq, eq']
    exact .fails trivial
  · rw [eq, eq']
    have children := twin.node.children
    have length := twins.length_eq
    dsimp only
    rw [twin.node.name, ← length]
    rcases twins with _ | ⟨first, _ | ⟨second, _ | ⟨third, more⟩⟩⟩
    · exact .fails trivial
    · exact .fails trivial
    · refine checked_bind_twin (.cons first (.cons second .nil)) ?_
      generalize v.node.children = cs, v'.node.children = cs' at children
      rcases children with _ | @⟨id, id', _, _, pair, _ | ⟨_, _⟩⟩
      · exact .fails trivial
      · have argument : Operand.Twin R ⟨id, s.tree.node id, (s.tree.node id).text⟩
            ⟨id', s'.tree.node id', (s'.tree.node id').text⟩ := ⟨pair, h.trees.node pair⟩
        dsimp only
        rw [argument.numeric]
        refine .ite (fun _ => ?_) fun _ => .keep h rfl rfl
        exact extremumWithIndex_twin h _ first second argument
      · exact .fails trivial
    · exact .fails trivial

end BuiltinRule

/-! ## Whatever rule a node gets -/

namespace Rule

theorem ofBareName?_twin {b : Builtin} {rule : Rule} (eq : ofBareName? b = some rule) :
    SameTypes R s s' Malformed (rule s) (rule s') := by
  cases b <;> first | cases eq; done | obtain rfl := Option.some.inj eq
  case tic => exact BuiltinRule.tic_twin h
  case toc => exact BuiltinRule.toc_twin h
  case clear => exact BuiltinRule.housekeeping_twin h
  case close => exact BuiltinRule.housekeeping_twin h
  case plot => exact BuiltinRule.housekeeping_twin h
  case hold => exact BuiltinRule.housekeeping_twin h
  all_goals exact BuiltinRule.constant_twin _ _

theorem ofCall?_twin {b : Builtin} {rule : Rule} (eq : ofCall? b = some rule) :
    SameTypes R s s' Malformed (rule s) (rule s') := by
  cases b <;> first | cases eq; done | obtain rfl := Option.some.inj eq
  case abs => exact BuiltinRule.abs_twin h
  case land => exact BuiltinRule.land_twin h
  case lor => exact BuiltinRule.lor_twin h
  case lnot => exact BuiltinRule.lnot_twin h
  case any => exact BuiltinRule.truthReduction_twin h
  case all => exact BuiltinRule.truthReduction_twin h
  case size => exact BuiltinRule.size_twin h
  case length => exact BuiltinRule.length_twin h
  case min => exact BuiltinRule.extremum_twin h
  case max => exact BuiltinRule.extremum_twin h
  case eye => exact BuiltinRule.eye_twin h
  case transpose => exact BuiltinRule.transpose_twin h
  case ctranspose => exact BuiltinRule.ctranspose_twin h
  case flipud => exact BuiltinRule.flipud_twin h
  case zeros => exact BuiltinRule.filled_twin h
  case ones => exact BuiltinRule.filled_twin h
  case round => exact BuiltinRule.round_twin h
  case floor => exact BuiltinRule.floor_twin h
  case rand => exact BuiltinRule.rand_twin h
  case nextpow2 => exact .given rfl rfl
  case fft => exact BuiltinRule.fourier_twin h
  case ifft => exact BuiltinRule.fourier_twin h
  case hankel => exact BuiltinRule.hankel_twin h
  case interp1 => exact BuiltinRule.interp1_twin h
  case linspace => exact .given rfl rfl
  case sum => exact BuiltinRule.sum_twin h
  case real => exact BuiltinRule.part_twin h
  case imag => exact BuiltinRule.part_twin h
  case conj => exact BuiltinRule.conj_twin h
  case diag => exact BuiltinRule.diag_twin h
  case tic => exact BuiltinRule.tic_twin h
  case toc => exact BuiltinRule.toc_twin h
  all_goals exact BuiltinRule.housekeeping_twin h

/-- What a rule of the category may fail with. -/
def Fault (c : Category) (e : Error) : Prop := e = .malformedTree ∨ c = .assign ∨ c = .assigns

omit h in
theorem SameTypes.plain {c : Category} {r r' : Except Error Outcome}
    (twin : SameTypes R s s' Malformed r r') : SameTypes R s s' (Fault c) r r' :=
  twin.mono fun _ => .inl

theorem ofBuiltin?_twin {b : Builtin} {rule : Rule}
    (eq : ofBuiltin? s.node.category b = some rule) :
    SameTypes R s s' (Fault s.node.category) (rule s) (rule s') := by
  cases category : s.node.category <;> rw [category] at eq
  case var => exact SameTypes.plain (ofBareName?_twin h eq)
  case get => exact SameTypes.plain (ofCall?_twin h eq)
  case assigns =>
    cases b with
    | size =>
      obtain rfl := Option.some.inj eq
      exact (BuiltinRule.assignsSize_twin h).mono fun _ _ => .inr (.inr rfl)
    | min | max =>
      obtain rfl := Option.some.inj eq
      exact (BuiltinRule.assignsExtremum_twin h).mono fun _ _ => .inr (.inr rfl)
    | _ => cases eq
  case assign =>
    cases b with
    | size =>
      obtain rfl := Option.some.inj eq
      exact (BuiltinRule.assignSize_twin h).mono fun _ _ => .inr (.inl rfl)
    | _ => cases eq
  all_goals cases eq

theorem ofCategory?_twin {rule : Rule} (eq : ofCategory? s.node.category = some rule) :
    SameTypes R s s' (Fault s.node.category) (rule s) (rule s') := by
  cases category : s.node.category <;> rw [category] at eq <;>
    first | cases eq; done | obtain rfl := Option.some.inj eq
  case assign => exact (assign_twin h).mono fun _ _ => .inr (.inl rfl)
  case assigns => exact (assigns_twin h).mono fun _ _ => .inr (.inr rfl)
  all_goals refine SameTypes.plain ?_
  case function => exact function_twin h
  case ret => exact ret_twin h
  case var => exact var_twin h
  case get => exact subscript_twin h
  case set => exact subscript_twin h
  case int => exact .given rfl rfl
  case float => exact .given rfl rfl
  case imag => exact .given rfl rfl
  case str => exact .given rfl rfl
  case matrix => exact matrix_twin h
  case row => exact row_twin h
  case add => exact checked_twin h _
  case sub => exact checked_twin h _
  case mul => exact mul_twin h
  case elMul => exact elMul_twin h
  case rightDiv => exact structural_twin h _ solveRight_twin (elRightDiv_twin h)
  case leftDiv => exact structural_twin h _ solveLeft_twin (elLeftDiv_twin h)
  case elRightDiv => exact elRightDiv_twin h
  case elLeftDiv => exact elLeftDiv_twin h
  case pow => exact power_twin h
  case elPow => exact power_twin h
  case not =>
    unfold not
    rw [h.seed]
    exact negation_twin _
  case transpose =>
    unfold transpose
    rw [h.seed]
    exact transposed_twin h _
  case ctranspose =>
    unfold ctranspose
    rw [h.seed]
    exact conjugated_twin h _
  case range => exact range_twin h
  case all => exact all_twin h
  case last => exact last_twin h
  case gt => exact comparison_twin h _
  case ge => exact comparison_twin h _
  case lt => exact comparison_twin h _
  case le => exact comparison_twin h _
  case ne => exact comparison_twin h _
  case eq => exact comparison_twin h _
  all_goals exact .keep h rfl rfl

/-- The built-in that a node is about is that of its twin. -/
theorem builtinOf?_twin : builtinOf? s'.tree s'.node = builtinOf? s.tree s.node := by
  have twin := h.node
  have last : (s'.node.children.getLast?.map s'.tree.node).map (fun v => (v.category, v.name))
      = (s.node.children.getLast?.map s.tree.node).map fun v => (v.category, v.name) := by
    have children := twin.children
    generalize s.node.children = cs, s'.node.children = cs' at children
    induction children with
    | nil => rfl
    | @cons c c' cs cs' first rest ih =>
      cases rest with
      | nil =>
        have node := h.trees.node first
        simp only [List.getLast?_singleton, Option.map_some, node.category, node.name]
      | cons => simpa only [List.getLast?_cons_cons] using ih
  unfold builtinOf?
  rw [twin.redirect, twin.category, twin.name]
  cases s.node.redirect with
  | some b => rfl
  | none =>
    dsimp only
    split
    · rfl
    · rfl
    · cases eq : s.node.children.getLast? with
      | none =>
        rw [eq] at last
        cases eq' : s'.node.children.getLast? with
        | none => rfl
        | some v' =>
          rw [eq'] at last
          cases last
      | some v =>
        rw [eq] at last
        cases eq' : s'.node.children.getLast? with
        | none =>
          rw [eq'] at last
          cases last
        | some v' =>
          rw [eq'] at last
          obtain ⟨category, name⟩ := Prod.mk.inj (Option.some.inj last)
          dsimp only at category name ⊢
          rw [category, name]
    · rfl

/-- Whatever rule a node gets, it types twins alike. -/
theorem select_twin : SameTypes R s s' (Fault s.node.category) (select s.tree s.node s)
    (select s'.tree s'.node s') := by
  unfold select
  rw [builtinOf?_twin h, h.node.category]
  cases named : (builtinOf? s.tree s.node).bind (ofBuiltin? s.node.category) with
  | some rule =>
    obtain ⟨b, -, found⟩ := Option.bind_eq_some_iff.mp named
    exact ofBuiltin?_twin h found
  | none =>
    cases found : ofCategory? s.node.category with
    | none => exact SameTypes.plain (untranslated_twin h)
    | some rule => exact ofCategory?_twin h found

end Rule

end MatrixScript
