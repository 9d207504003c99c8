/-
# `Proofs.Rule.BuiltinSettled` — how far the answers of built-ins are to be trusted

The rules of built-ins keep to what a rule may do (`Settles`), in the order of their
modules, and with them the rule of any node (`Rule.select_settles`).  Most of them
hand on the typing of an argument or give a type of their own; where one is put
together out of an argument's parts, the argument counts as a number, so both are
known.  `extremumOfArrays` alone does not look: it has to be told that its first
argument holds no place.
-/
import MatrixScript.Proofs.Rule.BuiltinAnswer
import MatrixScript.Proofs.Rule.Settled

namespace MatrixScript

open Settles

variable {s : Site}

/-- The operands of a site with a first one. -/
theorem Site.mem_of_cons {x : Operand} {rest : List Operand} (eq : s.operands = x :: rest) :
    x ∈ s.operands :=
  eq ▸ List.mem_cons_self

namespace BuiltinRule

open Rule

/-! ## Constants, the wall clock, commands -/

theorem tic_settles (h : s.Seeded) : Settles s (tic s) := keep h (single .tic)

theorem toc_settles (h : s.Seeded) : Settles s (toc s) := by
  have modest : ∀ e ∈ (if s.state.clock.started then [Effect.toc]
      else [.toc, .report s.id .likelyMisuse "toc without a preceding tic"]), e.Modest s := by
    split
    · exact single .toc
    · exact List.forall_mem_cons.mpr ⟨.toc, single .report⟩
  unfold toc
  dsimp only
  split
  · exact keep h modest
  · exact known modest rfl

theorem housekeeping_settles (h : s.Seeded) : Settles s (housekeeping s) := by
  unfold housekeeping
  split
  · exact keep h nothing
  · exact keep h nothing

/-! ## Arrays out of dimensions -/

theorem eye_settles (h : s.Seeded) : Settles s (eye s) := by
  unfold eye
  dsimp only
  split
  · exact known nothing rfl
  · split
    · exact keep h nothing
    · split
      · exact known nothing rfl
      · exact known nothing rfl
  · split
    · exact keep h nothing
    · exact known nothing rfl
  · exact refuse h

theorem rand_settles (h : s.Seeded) : Settles s (rand s) := by
  unfold rand
  split
  · exact known nothing rfl
  · exact known nothing rfl
  · exact known nothing rfl
  · exact known nothing rfl
  · exact refuse h

theorem fillShape_ne_unknown : fillShape s ≠ .unknown := by
  have arguments : ∀ hint, fillShapeOfArguments hint s ≠ .unknown := by
    intro hint
    unfold fillShapeOfArguments
    split
    · split
      · split
        · nofun
        · nofun
      · nofun
    · split
      · nofun
      · split
        · nofun
        · nofun
    · nofun
  unfold fillShape
  split
  case h_1 d _ =>
    split
    case isTrue vector =>
      intro eq
      rw [eq] at vector
      cases vector
    case isFalse => exact arguments _
  case h_2 => exact arguments _

theorem fillClass_ne_unresolved : fillClass s ≠ .unresolved := by
  unfold fillClass
  split
  · nofun
  · cases hint : knownHint? s with
    | none => nofun
    | some d => exact (Datatype.isKnown_iff.mp (Option.filter_eq_some_iff.mp hint).2).2

theorem filledByVector_settles (h : s.Seeded) (constructor : String) {d : Datatype}
    (settled : d.isKnown) {dims : Operand} (mem : dims ∈ s.operands) :
    Settles s (filledByVector constructor d dims s) := by
  have modest : ∀ e ∈ (if dims.node.category == .var then (dims.text, [])
      else (s.state.temporaryName dims.id dims.datatype,
        [Effect.hoist dims.id dims.node.text dims.datatype])).2, e.Modest s := by
    split
    · exact nothing
    · exact single (.hoist (.inr (.inl (h.mem_children mem))))
  exact known modest settled

theorem filledByNumbers_settles (constructor : String) {d : Datatype} (settled : d.isKnown) :
    Settles s (filledByNumbers constructor d s) := by
  unfold filledByNumbers
  dsimp only
  split
  · split
    · exact known nothing settled
    · split
      · exact known nothing settled
      · split
        · exact known nothing settled
        · exact known nothing settled
  · exact known nothing settled

theorem filled_settles (h : s.Seeded) : Settles s (filled s) := by
  have settled : Datatype.isKnown ⟨fillShape s, fillClass s⟩ :=
    Datatype.isKnown_iff.mpr ⟨fillShape_ne_unknown, fillClass_ne_unresolved⟩
  unfold filled
  split
  · exact known nothing rfl
  case h_2 first rest eq =>
    split
    · exact refuse h
    · dsimp only
      split
      · exact filledByVector_settles h _ settled (Site.mem_of_cons eq)
      · exact filledByNumbers_settles _ settled

theorem diagonal_settles (h : s.Seeded) {x : Operand} (mem : x ∈ s.operands) :
    Settles s (diagonal x s) := by
  unfold diagonal
  split
  · exact keep h nothing
  case isFalse counts =>
    have numeric : x.numeric := by simpa using counts
    have reshaped : ∀ {shape}, shape ≠ .unknown → s.tree.Sound → s.Whole →
        (x.datatype.withShape shape).Whole := fun some sound _ =>
      .inr (Datatype.isKnown_withShape (h.known sound mem numeric) some)
    split
    · exact inherit h mem nothing
    · exact typed nothing (reshaped nofun)
    · exact typed nothing (reshaped nofun)
    · exact typed nothing (reshaped nofun)
    · exact refuse h

theorem diag_settles (h : s.Seeded) : Settles s (diag s) := by
  unfold diag
  split
  case h_1 x eq => exact diagonal_settles h (Site.mem_of_cons eq)
  case h_2 x y eq => exact diagonal_settles h (Site.mem_of_cons eq)
  case h_3 => exact refuse h

theorem hankel_settles (h : s.Seeded) : Settles s (hankel s) := by
  refine typed (single .use) fun sound _ => .inr (Datatype.isKnown_iff.mpr ⟨nofun, ?_⟩)
  show hankelClass s ≠ .unresolved
  unfold hankelClass
  split
  · nofun
  case h_2 x rest eq =>
    split
    case isTrue numeric =>
      exact (Datatype.isKnown_iff.mp (h.known sound (Site.mem_of_cons eq) numeric)).2
    case isFalse => nofun

/-! ## Functions of every element -/

theorem ofOne_settles (h : s.Seeded) {rule : Operand → Rule}
    (one : ∀ x, s.operands = [x] → Settles s (rule x s)) : Settles s (ofOne rule s) := by
  unfold ofOne
  split
  case h_1 x eq => exact one x eq
  case h_2 => exact refuse h

/-- The typing of an argument that counts as a number, in another class. -/
theorem recast_settles (h : s.Seeded) {x : Operand} (mem : x ∈ s.operands) (numeric : x.numeric)
    {c : StorageClass} (some : c ≠ .unresolved) {p : Prop} [Decidable p] {template : Template}
    {effects : List Effect} (modest : ∀ e ∈ effects, e.Modest s) :
    Settles s (s.withTyping (if p then recast x.node.typing c else x.node.typing) template
      effects) := by
  split
  · exact typed (s := s) modest fun sound _ =>
      .inr (Datatype.isKnown_withClass (h.known sound mem numeric) some)
  · exact inherit h mem modest

theorem abs_settles (h : s.Seeded) : Settles s (abs s) := by
  refine ofOne_settles h fun x eq => ?_
  dsimp only
  split
  · exact inherit h (Site.mem_of_cons eq) nothing
  case isFalse counts =>
    have numeric : x.node.typing.numeric := by simpa using counts
    exact recast_settles (c := .float) h (Site.mem_of_cons eq) numeric nofun nothing

theorem land_settles (h : s.Seeded) : Settles s (land s) := typed nothing fun _ => h.whole_types

theorem lor_settles (h : s.Seeded) : Settles s (lor s) := typed nothing fun _ => h.whole_types

theorem lnot_settles (h : s.Seeded) : Settles s (lnot s) :=
  ofOne_settles h fun _ eq => inherit h (Site.mem_of_cons eq) nothing

theorem turns_operand (h : s.Seeded) {x : Operand} (eq : s.operands = [x]) :
    Turns s x.node.typing where
  sound sound := h.sound sound (Site.mem_of_cons eq)
  whole whole := h.whole whole (Site.mem_of_cons eq)
  shape sound numeric o first := by
    rw [eq] at first
    obtain rfl := Option.some.inj first
    exact (Datatype.isKnown_iff.mp (h.known sound (Site.mem_of_cons eq) numeric)).1

theorem transpose_settles (h : s.Seeded) : Settles s (transpose s) :=
  ofOne_settles h fun _ eq => transposed_settles (turns_operand h eq)

theorem ctranspose_settles (h : s.Seeded) : Settles s (ctranspose s) :=
  ofOne_settles h fun _ eq => conjugated_settles (turns_operand h eq)

theorem flipud_settles (h : s.Seeded) : Settles s (flipud s) :=
  ofOne_settles h fun _ eq => inherit h (Site.mem_of_cons eq) nothing

theorem mathFor_modest (shape : Shape) : ∀ e ∈ mathFor shape, e.Modest s := by
  unfold mathFor
  split
  · exact single .use
  · exact nothing

theorem rounded_settles (h : s.Seeded) {x : Operand} (mem : x ∈ s.operands)
    (places : Option Operand) : Settles s (rounded x places s) := by
  unfold rounded
  dsimp only
  split
  · exact inherit h mem nothing
  · split
    · exact inherit h mem nothing
    · split
      · exact inherit h mem (mathFor_modest _)
      · exact inherit h mem (mathFor_modest _)

theorem round_settles (h : s.Seeded) : Settles s (round s) := by
  unfold round
  split
  case h_1 x eq => exact rounded_settles h (Site.mem_of_cons eq) none
  case h_2 x places eq => exact rounded_settles h (Site.mem_of_cons eq) (some places)
  case h_3 => exact refuse h

theorem floor_settles (h : s.Seeded) : Settles s (floor s) := by
  refine ofOne_settles h fun x eq => ?_
  dsimp only
  split
  · exact inherit h (Site.mem_of_cons eq) nothing
  case isFalse counts =>
    have numeric : x.node.typing.numeric := by simpa using counts
    exact recast_settles (c := .int) h (Site.mem_of_cons eq) numeric nofun (mathFor_modest _)

theorem part_settles (h : s.Seeded) : Settles s (part s) := by
  refine ofOne_settles h fun x eq => ?_
  dsimp only
  split
  case isTrue complex =>
    have numeric : x.numeric := (Bool.and_eq_true _ _ |>.mp complex).1
    exact typed (s := s) nothing fun sound _ =>
      .inr (Datatype.isKnown_withClass (h.known sound (Site.mem_of_cons eq) numeric) nofun)
  case isFalse => exact inherit h (Site.mem_of_cons eq) nothing

theorem conj_settles (h : s.Seeded) : Settles s (conj s) :=
  ofOne_settles h fun _ eq => inherit h (Site.mem_of_cons eq) nothing

/-! ## Sizes -/

theorem parentCategory?_of_assigned (assigned : isAssignedToVariable s) :
    s.parentCategory? = some .assign := by
  unfold isAssignedToVariable at assigned
  unfold Site.parentCategory?
  cases up : s.parent? with
  | none =>
    rw [up] at assigned
    cases assigned
  | some p =>
    rw [up] at assigned
    exact congrArg some (eq_of_beq (Bool.and_eq_true _ _ |>.mp assigned).1)

theorem sizeOfAxes_settles (x : Operand) (axes : Nat) : Settles s (sizeOfAxes x axes s) := by
  unfold sizeOfAxes extentsOf
  split
  · show Settles s (if _ then _ else _)
    split
    case isTrue assigned => exact known (single (.redirect (parentCategory?_of_assigned assigned))) rfl
    case isFalse =>
      split
      · exact known nothing rfl
      · exact known (single (.hoist (.inl rfl))) rfl
  · trivial

theorem size_settles (h : s.Seeded) : Settles s (size s) := by
  unfold size
  split
  · split
    · exact keep h nothing
    · unfold sizeOf
      split
      · exact known nothing rfl
      · exact known nothing rfl
      · exact sizeOfAxes_settles _ 2
      · exact sizeOfAxes_settles _ 3
      · exact keep h nothing
  · split
    · exact keep h nothing
    · exact known nothing rfl
  · exact refuse h

theorem assignSize_settles (h : s.Seeded) : Settles s (assignSize s) := by
  unfold assignSize
  split
  · exact checked_settles fun free =>
      keep h (binding_modest (free _ (List.mem_singleton_self _)) _)
  · trivial

/-- An argument of a call that is an operand is reached. -/
theorem reached_argument (h : s.Seeded) {call : Operand} (mem : call ∈ s.operands) {id : NodeId}
    (argument : id ∈ call.node.children) : s.tree.Reaches s.id id := by
  refine .inr (.inr ⟨call.id, h.mem_children mem, ?_⟩)
  rw [h.node call mem] at argument
  exact argument

theorem readable_modest {id : NodeId} (reached : s.tree.Reaches s.id id) (d : Datatype) :
    ∀ e ∈ (readable s id d).2, e.Modest s := by
  unfold readable
  dsimp only
  split
  · exact nothing
  · exact single (.hoist reached)

theorem assignsSize_settles (h : s.Seeded) (assigns : s.node.category = .assigns) :
    Settles s (assignsSize s) := by
  unfold assignsSize
  split
  · trivial
  case h_2 destinations call eq =>
    have operands := operands_of_splitLast? eq
    have mem : call ∈ s.operands := by
      rw [operands]
      exact List.mem_append_right _ (List.mem_singleton_self _)
    split
    · trivial
    case h_2 argument others children =>
      split
      · trivial
      · refine checked_settles fun free => ?_
        unfold extentsOf
        dsimp only
        split
        · refine keep h (append (readable_modest ?_ _) (List.forall_mem_map.mpr fun o there => ?_))
          · exact reached_argument h mem (by rw [children]; exact List.mem_cons_self)
          · refine .destination ⟨.inr assigns, ?_⟩ (fun _ _ => Datatype.whole_scalar nofun)
              (free o there)
            rw [operands, List.dropLast_concat]
            exact there
        · trivial

theorem length_settles (h : s.Seeded) : Settles s (length s) := by
  unfold length
  split
  · split
    · exact known nothing rfl
    · exact known (single .use) rfl
  · exact refuse h

theorem assignsExtremum_settles (h : s.Seeded) (assigns : s.node.category = .assigns) :
    Settles s (assignsExtremum s) := by
  unfold assignsExtremum
  split
  · trivial
  case h_2 destinations call eq =>
    have operands := operands_of_splitLast? eq
    have mem : call ∈ s.operands := by
      rw [operands]
      exact List.mem_append_right _ (List.mem_singleton_self _)
    dsimp only
    split
    case h_1 value index =>
      refine checked_settles fun free => ?_
      split
      · trivial
      case h_2 id children =>
        split
        case isTrue numeric =>
          unfold extremumWithIndex
          refine keep h (append ?_ (readable_modest ?_ _))
          · have known : s.tree.Sound → (s.tree.node id).cls ≠ .unresolved := fun sound =>
              (Datatype.isKnown_iff.mp ((sound id).isKnown numeric)).2
            have takes : ∀ {o}, o ∈ [value, index] → s.Takes o := fun there =>
              ⟨.inr assigns, by rw [operands, List.dropLast_concat]; exact there⟩
            have second : index ∈ [value, index] := List.mem_cons_of_mem _ List.mem_cons_self
            refine List.forall_mem_cons.mpr
              ⟨.destination (takes List.mem_cons_self) ?_ (free _ List.mem_cons_self),
                single (.destination (takes second) ?_ (free _ second))⟩
            · exact fun sound _ => Datatype.whole_scalar (known sound)
            · exact fun _ _ => Datatype.whole_scalar nofun
          · exact reached_argument h mem (by rw [children]; exact List.mem_cons_self)
        case isFalse => exact keep h nothing
      · trivial
    · trivial

/-! ## Functions along an axis -/

theorem truthOfMatrix_settles (h : s.Seeded) {x : Operand} (mem : x ∈ s.operands)
    (numeric : x.numeric) : Settles s (truthOfMatrix x s) := by
  have reshaped : ∀ {shape}, shape ≠ .unknown → s.tree.Sound → s.Whole →
      (x.node.typing.datatype.withShape shape).Whole := fun some sound _ =>
    .inr (Datatype.isKnown_withShape (h.known sound mem numeric) some)
  unfold truthOfMatrix
  dsimp only
  split
  · split
    · exact typed nothing (reshaped nofun)
    · exact typed nothing (reshaped nofun)
    · exact cleared h mem (single .report)
  · exact cleared h mem (single .report)

theorem truthReduction_settles (h : s.Seeded) : Settles s (truthReduction s) := by
  unfold truthReduction
  split
  · exact keep h nothing
  case h_2 x rest eq =>
    have mem := Site.mem_of_cons eq
    dsimp only
    split
    · exact keep h nothing
    case isFalse counts =>
      have numeric : x.node.typing.numeric := by simpa using counts
      have reshaped : ∀ {shape}, shape ≠ .unknown → s.tree.Sound → s.Whole →
          (x.node.typing.datatype.withShape shape).Whole := fun some sound _ =>
        .inr (Datatype.isKnown_withShape (h.known sound mem numeric) some)
      split
      · exact inherit h mem nothing
      · exact typed nothing (reshaped nofun)
      · exact typed nothing (reshaped nofun)
      · exact truthOfMatrix_settles h mem numeric
      · exact typed nothing (reshaped nofun)
      · exact inherit h mem nothing

theorem extremumOfArrays_settles (h : s.Seeded) (reduces : s.Whole → ¬s.ReducesNothing)
    {x : Operand} (mem : x ∈ s.operands) (first : s.operands.head? = some x)
    (counts : s.operands.all fun o => o.isPlaceholder || o.numeric) :
    Settles s (extremumOfArrays x s) := by
  -- a first argument that is reduced along an axis holds no place, so it counts as a number
  have numeric : ∀ {y axis}, s.operands = [x, y, axis] → axis.node.isAxis → s.Whole →
      x.numeric := by
    intro y axis eq literal whole
    have either := List.all_eq_true.mp counts x mem
    rcases Bool.or_eq_true _ _ |>.mp either with place | numeric
    · exact absurd ⟨x, y, axis, eq, place, literal⟩ (reduces whole)
    · exact numeric
  unfold extremumOfArrays
  dsimp only
  split
  · refine typed nothing fun _ whole => ?_
    rcases h.whole whole mem with unknown | known
    · rw [unknown]
      exact Datatype.whole_unknown
    · exact .inr (Datatype.isKnown_withShape known
        (Shape.reduced_ne_unknown (Datatype.isKnown_iff.mp known).1))
  · exact typed nothing fun _ whole => h.whole whole mem
  case h_3 x' y axis eq =>
    have same : x' = x := Option.some.inj (by rw [← first, eq]; rfl)
    rw [same] at eq
    have reshaped : ∀ {shape}, shape ≠ .unknown → axis.node.isAxis → s.tree.Sound → s.Whole →
        (x.datatype.withShape shape).Whole := fun some literal sound whole =>
      .inr (Datatype.isKnown_withShape (h.known sound mem (numeric eq literal whole)) some)
    split
    case h_1 literal => exact typed nothing (reshaped nofun (.inl literal))
    case h_2 literal => exact typed nothing (reshaped nofun (.inr literal))
    case h_3 => exact cleared h mem (single .report)
  · exact typed (single .report) fun _ whole => h.whole whole mem

theorem extremum_settles (h : s.Seeded) (reduces : s.Whole → ¬s.ReducesNothing) :
    Settles s (extremum s) := by
  unfold extremum
  split
  · exact keep h nothing
  case h_2 x rest eq =>
    split
    · exact keep h nothing
    case isFalse counts =>
      rw [Bool.not_eq_true', Bool.not_eq_false] at counts
      split
      · exact typed nothing fun _ => h.whole_types
      · exact extremumOfArrays_settles h reduces (Site.mem_of_cons eq) (by rw [eq]; rfl) counts

theorem sumOf_settles (h : s.Seeded) {x : Operand} (mem : x ∈ s.operands)
    (axis : Option Operand) : Settles s (sumOf x axis s) := by
  unfold sumOf
  split
  · exact keep h (single .report)
  case isFalse array =>
    have numeric : x.numeric := by
      cases counts : x.numeric with
      | true => rfl
      | false => exact absurd (by rw [counts]; rfl) array
    refine typed nothing fun sound _ => ?_
    have known := h.known sound mem numeric
    refine .inr (Datatype.isKnown_withShape known ?_)
    unfold sumShape
    split
    · nofun
    · exact Shape.reduced_ne_unknown (Datatype.isKnown_iff.mp known).1

theorem sum_settles (h : s.Seeded) : Settles s (sum s) := by
  unfold sum
  split
  case h_1 x eq => exact sumOf_settles h (Site.mem_of_cons eq) none
  case h_2 x axis eq => exact sumOf_settles h (Site.mem_of_cons eq) (some axis)
  case h_3 => exact refuse h

/-! ## Transforms and interpolation -/

theorem transformCall_modest (x : Operand) : ∀ e ∈ (transformCall x s).2, e.Modest s := by
  unfold transformCall
  split
  · exact nothing
  · exact nothing
  · unfold transformAlong
    dsimp only
    split
    · exact nothing
    · split
      · exact single .use
      · exact single .use
  · exact single .report

theorem realInverse_modest (x : Operand) : ∀ e ∈ realInverse x s, e.Modest s := by
  unfold realInverse
  split
  · exact single .report
  · exact nothing

theorem fourier_settles (h : s.Seeded) : Settles s (fourier s) := by
  unfold fourier
  split
  · exact refuse h
  case h_2 x rest eq =>
    split
    · exact keep h nothing
    case isFalse counts =>
      have numeric : x.numeric := by simpa using counts
      refine typed (append (realInverse_modest x) (transformCall_modest x)) fun sound _ => ?_
      exact .inr (Datatype.isKnown_withClass (h.known sound (Site.mem_of_cons eq) numeric) nofun)

theorem interp1_settles (h : s.Seeded) : Settles s (interp1 s) := by
  unfold interp1
  dsimp only
  split
  · split
    case isTrue settled =>
      exact known nothing (Datatype.isKnown_iff.mpr ⟨(Datatype.isKnown_iff.mp settled).1, nofun⟩)
    case isFalse => exact keep h nothing
  · exact keep h nothing

end BuiltinRule

namespace Rule

/-! ## The rule of a node -/

theorem ofBareName?_settles (h : s.Seeded) {b : Builtin} {rule : Rule}
    (eq : ofBareName? b = some rule) : Settles s (rule s) := by
  cases b <;> first | cases eq; done | obtain rfl := Option.some.inj eq
  case tic => exact BuiltinRule.tic_settles h
  case toc => exact BuiltinRule.toc_settles h
  case clear | close | plot | hold => exact BuiltinRule.housekeeping_settles h
  all_goals exact known nothing rfl

theorem ofCall?_settles (h : s.Seeded) {b : Builtin} {rule : Rule} (eq : ofCall? b = some rule)
    (reduces : b = .min ∨ b = .max → s.Whole → ¬s.ReducesNothing) : Settles s (rule s) := by
  cases b <;> first | cases eq; done | obtain rfl := Option.some.inj eq
  case abs => exact BuiltinRule.abs_settles h
  case land => exact BuiltinRule.land_settles h
  case lor => exact BuiltinRule.lor_settles h
  case lnot => exact BuiltinRule.lnot_settles h
  case any | all => exact BuiltinRule.truthReduction_settles h
  case size => exact BuiltinRule.size_settles h
  case length => exact BuiltinRule.length_settles h
  case min => exact BuiltinRule.extremum_settles h (reduces (.inl rfl))
  case max => exact BuiltinRule.extremum_settles h (reduces (.inr rfl))
  case eye => exact BuiltinRule.eye_settles h
  case transpose => exact BuiltinRule.transpose_settles h
  case ctranspose => exact BuiltinRule.ctranspose_settles h
  case flipud => exact BuiltinRule.flipud_settles h
  case zeros | ones => exact BuiltinRule.filled_settles h
  case round => exact BuiltinRule.round_settles h
  case floor => exact BuiltinRule.floor_settles h
  case rand => exact BuiltinRule.rand_settles h
  case nextpow2 => exact known (single .use) rfl
  case fft | ifft => exact BuiltinRule.fourier_settles h
  case hankel => exact BuiltinRule.hankel_settles h
  case interp1 => exact BuiltinRule.interp1_settles h
  case linspace => exact known nothing rfl
  case sum => exact BuiltinRule.sum_settles h
  case real | imag => exact BuiltinRule.part_settles h
  case conj => exact BuiltinRule.conj_settles h
  case diag => exact BuiltinRule.diag_settles h
  case tic => exact BuiltinRule.tic_settles h
  case toc => exact BuiltinRule.toc_settles h
  case clear | close | plot | hold => exact BuiltinRule.housekeeping_settles h

theorem ofBuiltin?_settles (h : s.Seeded) {b : Builtin} {rule : Rule}
    (eq : ofBuiltin? s.node.category b = some rule)
    (reduces : s.node.category = .get → b = .min ∨ b = .max → s.Whole → ¬s.ReducesNothing) :
    Settles s (rule s) := by
  cases category : s.node.category
  all_goals rw [category] at eq
  case var => exact ofBareName?_settles h eq
  case get => exact ofCall?_settles h eq (reduces category)
  case assign =>
    cases b <;> first | cases eq; done | obtain rfl := Option.some.inj eq
    exact BuiltinRule.assignSize_settles h
  case assigns =>
    cases b <;> first | cases eq; done | obtain rfl := Option.some.inj eq
    case size => exact BuiltinRule.assignsSize_settles h category
    all_goals exact BuiltinRule.assignsExtremum_settles h category
  all_goals cases eq

/-- Whatever rule a node gets, its answer keeps to what a rule may do. -/
theorem select_settles (h : s.Seeded) : Settles s (select s.tree s.node s) := by
  unfold select
  cases chosen : (builtinOf? s.tree s.node).bind (ofBuiltin? s.node.category) with
  | some rule =>
    obtain ⟨b, found, eq⟩ := Option.bind_eq_some_iff.mp chosen
    refine ofBuiltin?_settles h eq fun get extremum whole => whole.reduces get ?_
    rcases extremum with rfl | rfl
    · exact .inl found
    · exact .inr found
  | none =>
    cases found : ofCategory? s.node.category with
    | some rule => exact ofCategory?_settles h found
    | none => exact untranslated_settles h

end Rule

end MatrixScript
