/-
# `Proofs.Rule.Same` — rules see no further than their piece of program

Two sites are the same (`Site.Same`) when they are about one node over the same operands,
with the same things remembered, in trees that hold the piece of program around the node
where it stands.  What else the trees hold may be anything.  The rule of a category then
answers the same at both, and whatever rule a node gets, it answers the same at sites that
are the same (`Rule.select_same`).

The rules follow in the order of their modules, those of the built-ins last.
-/
import MatrixScript.Proofs.Rule.BuiltinTwin
import MatrixScript.Proofs.Tree.Embeds

namespace MatrixScript

variable {R : NodeId → NodeId → Prop} {s s' : Site}

/-- The same site in two trees. -/
structure Site.Same (R : NodeId → NodeId → Prop) (s s' : Site) : Prop extends s.Twin R s' where
  embeds : s.tree.Embeds R s'.tree
  state : s'.state = s.state
  listed : s'.operands = s.operands

namespace Site.Same

variable (h : s.Same R s')
include h

theorem eq_id : s'.id = s.id := h.embeds.own h.id

theorem self : R s.id s.id := by
  have pair := h.id
  rwa [h.eq_id] at pair

theorem texts : s'.texts = s.texts := by rw [Site.texts, h.listed, Site.texts]

theorem value : s'.node.value = s.node.value := h.node.value

theorem category : s'.node.category = s.node.category := h.node.category

theorem label : s'.node.label = s.node.label := by
  rw [Site.node, h.eq_id]
  exact h.embeds.label_eq h.self

theorem keep (template : Template) (effects : List Effect) :
    s'.keep template effects = s.keep template effects := by rw [Site.keep, h.seed, Site.keep]

theorem verbatim : s'.verbatim = s.verbatim := by rw [Site.verbatim, h.name, Site.verbatim]

theorem wrongArity : s'.wrongArity = s.wrongArity := by
  rw [Site.wrongArity, h.eq_id, h.name, h.arity, Site.wrongArity]

theorem refuse : s'.refuse = s.refuse := by
  rw [Site.refuse, h.keep, h.verbatim, h.wrongArity, Site.refuse]

theorem operand {o : Operand} (mem : o ∈ s.operands) : o.Twin R o := by
  have operands := h.operands
  rw [h.listed, List.forall₂_same] at operands
  exact operands o mem

/-- The children of an operand are nodes of the piece. -/
theorem inner {o : Operand} (mem : o ∈ s.operands) : ∀ c ∈ o.node.children, R c c :=
  (h.embeds.eq_of_forall₂ (h.operand mem).node.children).2

end Site.Same

namespace Rule

variable (h : s.Same R s')
include h

/-! ## Operators -/

theorem operandTypes_same : operandTypes s' = operandTypes s := by
  rw [operandTypes, h.types, operandTypes]

theorem checkNumeric_same (operation : String) :
    checkNumeric operation s' = checkNumeric operation s := by
  rw [checkNumeric, h.seed, hasText_twin h.toTwin, h.eq_id, operandTypes_same h, checkNumeric]

theorem add_same : add s' = add s := by rw [add, h.keep, checkNumeric_same h, add]

theorem sub_same : sub s' = sub s := by rw [sub, h.keep, checkNumeric_same h, sub]

theorem mul_same : mul s' = mul s := by
  simp only [mul, h.seed, h.keep, h.listed, h.eq_id, operandTypes_same h, Site.typed]

theorem elMul_same : elMul s' = elMul s := by
  simp only [elMul, h.seed, h.keep, checkNumeric_same h]

theorem power_same : power s' = power s := by
  simp only [power, powerFunction, h.texts, h.keep, h.seed]

theorem comparison_same (operator : String) : comparison operator s' = comparison operator s := by
  simp only [comparison, hasText_twin h.toTwin, h.keep, h.eq_id, operandTypes_same h]

theorem logical_same (operator : String) : logical operator s' = logical operator s := h.keep ..

theorem neg_same : neg s' = neg s := h.keep ..

theorem not_same : not s' = not s := by
  simp only [not, negation, h.seed, Site.withTyping]

theorem transposed_same (typing : Typing) : transposed typing s' = transposed typing s := by
  simp only [transposed, turned, h.listed, Site.withTyping, Site.typed]

theorem transpose_same : transpose s' = transpose s := by
  rw [transpose, h.seed, transposed_same h, transpose]

theorem conjugated_same (typing : Typing) : conjugated typing s' = conjugated typing s := by
  simp only [conjugated, turned, h.listed, Site.withTyping, Site.typed]

theorem ctranspose_same : ctranspose s' = ctranspose s := by
  rw [ctranspose, h.seed, conjugated_same h, ctranspose]

theorem paren_same : paren s' = paren s := h.keep ..

/-! ## Divisions -/

theorem elRightDiv_same : elRightDiv s' = elRightDiv s := by
  simp only [elRightDiv, h.listed, h.seed, checkNumeric_same h, Site.withTyping]

theorem elLeftDiv_same : elLeftDiv s' = elLeftDiv s := by
  simp only [elLeftDiv, h.listed, h.seed, checkNumeric_same h, Site.withTyping]

theorem allScalar_same : allScalar s' = allScalar s := by rw [allScalar, h.listed, allScalar]

theorem quotient_same (operator : String) (step : Quotient → Operand → Quotient)
    (os : List Operand) (q : Quotient) :
    quotient s' operator step q os = quotient s operator step q os := by
  induction os generalizing q with
  | nil => rfl
  | cons o os ih => simp only [quotient, quotientShape, quotientMismatch, h.eq_id, ih]

theorem structural_same (operator : String) (step : Quotient → Operand → Quotient) {scalars : Rule}
    (between : scalars s' = scalars s) :
    structural operator step scalars s' = structural operator step scalars s := by
  simp only [structural, allScalar_same h, h.seed, h.keep, h.listed, between, quotient_same h,
    checkNumeric_same h, Site.typed]

theorem rightDiv_same : rightDiv s' = rightDiv s := structural_same h _ _ (elRightDiv_same h)

theorem leftDiv_same : leftDiv s' = leftDiv s := structural_same h _ _ (elLeftDiv_same h)

/-! ## Ranges, axes and subscripts -/

theorem range_same : range s' = range s := by
  simp only [range, rangeOfPositions, rangeOfValues, indexesVariable_twin h.toTwin,
    rangeClass_twin h.toTwin, h.listed, Site.typed]

theorem all_same : all s' = all s := by
  unfold all
  rw [subscripted?_twin h.toTwin]
  cases inside : subscripted? s with
  | none => rfl
  | some x =>
    rw [position?_twin h.toTwin (by rw [inside]; rfl)]
    rfl

theorem last_same : last s' = last s := by
  unfold last
  rw [h.eq_id]
  rcases extentOwner?_twin h.toTwin h.self with ⟨a, a', j, j', eq, eq', pair, place⟩ | ⟨eq, eq'⟩
  · rw [eq, eq']
    dsimp only
    rw [place, (h.trees.node pair).name]
    rfl
  · rw [eq, eq']
    exact h.keep ..

theorem subscript_same : subscript s' = subscript s := by
  simp only [subscript, h.name, h.lookup, h.listed, h.keep, h.verbatim, Site.typed]

/-! ## Literals, variables and rows -/

theorem imag_same : imag s' = imag s := by rw [imag, h.value, imag]; rfl

theorem string_same : string s' = string s := by rw [string, h.value, string]; rfl

theorem var_same : var s' = var s := by
  simp only [var, h.name, h.lookup, h.keep, Site.typed]

theorem row_same : row s' = row s := by
  simp only [row, h.listed, h.types, h.keep, Site.typed, Site.withTyping]

/-! ## Matrices -/

theorem isPlain_same {o : Operand} (mem : o ∈ s.operands) : isPlain s' o = isPlain s o :=
  isPlain_twin h.toTwin (h.operand mem)

theorem stackedRow_same {o : Operand} (mem : o ∈ s.operands) :
    stackedRow s' o = stackedRow s o := by rw [stackedRow, isPlain_same h mem, stackedRow]

theorem plainMatrix_same (d : Datatype) : plainMatrix d s' = plainMatrix d s := by
  simp only [plainMatrix, h.listed, h.texts, h.eq_id, Site.typed]

theorem stackedMatrix_same (d : Datatype) : stackedMatrix d s' = stackedMatrix d s := by
  unfold stackedMatrix
  rw [stackedTyping_twin h.toTwin, h.listed]
  cases operands : s.operands with
  | nil => rfl
  | cons first rest =>
    have row : ∀ o ∈ first :: rest, stackedRow s' o = stackedRow s o := fun o mem =>
      stackedRow_same h (operands ▸ mem)
    dsimp only
    rw [row first List.mem_cons_self,
      List.map_congr_left fun o mem => row o (List.mem_cons_of_mem first mem)]
    rfl

theorem matrix_same : matrix s' = matrix s := by
  have plain : s.operands.all (isPlain s') = s.operands.all (isPlain s) := by
    rw [Bool.eq_iff_iff, List.all_eq_true, List.all_eq_true]
    exact forall₂_congr fun o mem => by rw [isPlain_same h mem]
  simp only [matrix, h.types, h.listed, h.texts, h.keep, plain, plainMatrix_same h,
    stackedMatrix_same h, Site.typed]

/-! ## Assignments, statements and definitions -/

theorem statement_same : statement s' = statement s := h.keep ..

theorem assign_same : assign s' = assign s := by
  simp only [assign, h.listed, h.keep]

theorem assigns_same : assigns s' = assigns s := by
  unfold assigns
  rw [h.listed]
  cases split : splitLast? s.operands with
  | none => rfl
  | some both =>
    obtain ⟨destinations, value⟩ := both
    have mem : value ∈ s.operands := by
      rw [operands_of_splitLast? split]
      exact List.mem_append_right _ (List.mem_singleton_self value)
    have texts : value.node.children.map (fun a => (s'.tree.node a).text)
        = value.node.children.map fun a => (s.tree.node a).text :=
      List.map_congr_left fun a mem' => h.embeds.text_eq (h.inner mem a mem')
    simp only [isForeignCall_twin h.toTwin (h.operand mem).node, h.keep, h.eq_id, texts]

theorem declaredType_same : declaredType s' = declaredType s := by
  funext x
  rw [declaredType, h.lookup, declaredType]

theorem namesOf_same {o : Operand} (mem : o ∈ s.operands) : namesOf s' o = namesOf s o :=
  namesOf_twin h.toTwin (h.operand mem)

theorem parameter_same : parameter s' = parameter s := by
  funext x
  rw [parameter, declaredType_same h, parameter]

theorem reference_same : reference s' = reference s := by
  funext x
  rw [reference, declaredType_same h, reference]

theorem function_same : function s' = function s := by
  unfold function
  rw [h.listed, h.name, parameter_same h, reference_same h, declaredType_same h]
  rcases operands : s.operands with _ | ⟨params, _ | ⟨returns, _ | ⟨block, more⟩⟩⟩
  · rfl
  · rfl
  · rfl
  · dsimp only
    rw [namesOf_same h (o := params) (by simp [operands]),
      namesOf_same h (o := returns) (by simp [operands])]
    simp only [h.keep]

theorem names_same : names s' = names s := h.keep ..

theorem outputsAround?_same : outputsAround? s' = outputsAround? s := by
  obtain ⟨same, inside⟩ := h.embeds.enclosingFunction? h.wellFormed h.wellFormed' h.self
  unfold outputsAround? Tree.child? Tree.children
  rw [h.eq_id, same]
  cases around : s.tree.enclosingFunction? s.id with
  | none => rfl
  | some f =>
    have here := inside f around
    dsimp only
    rw [h.embeds.children_eq here]
    cases second : (s.tree.node f).children[1]? with
    | none => rfl
    | some returns =>
      have here' := h.embeds.child here (List.mem_of_getElem? second)
      dsimp only
      rw [h.embeds.children_eq here', Option.some.injEq]
      exact List.map_congr_left fun c mem => (h.trees.node (h.embeds.child here' mem)).name

theorem ret_same : ret s' = ret s := by
  simp only [ret, outputsAround?_same h, h.keep]

theorem brk_same : brk s' = brk s := h.keep ..

theorem untranslated_same : untranslated s' = untranslated s := by
  rw [untranslated, h.keep, h.label, h.category, h.eq_id, untranslated]

end Rule

namespace BuiltinRule

open Rule

variable (h : s.Same R s')
include h

/-! ## Constants, the wall clock, commands -/

theorem tic_same : tic s' = tic s := h.keep ..

theorem toc_same : toc s' = toc s := by
  simp only [toc, h.state, h.parentCategory?, h.eq_id, h.keep, Site.typed]

theorem housekeeping_same : housekeeping s' = housekeeping s := by
  simp only [housekeeping, h.category, h.name, h.keep]

/-! ## Functions of every element -/

theorem ofOne_same {rule : Operand → Rule} (one : ∀ o, rule o s' = rule o s) :
    ofOne rule s' = ofOne rule s := by
  simp only [ofOne, h.listed, h.refuse, one]

theorem abs_same : abs s' = abs s := ofOne_same h fun x => by
  simp only [h.verbatim, Site.withTyping]

theorem land_same : land s' = land s := by simp only [land, h.types, Site.typed]

theorem lor_same : lor s' = lor s := by simp only [lor, h.types, h.texts, Site.typed]

theorem lnot_same : lnot s' = lnot s := ofOne_same h fun _ => rfl

theorem transpose_same : transpose s' = transpose s := ofOne_same h fun _ => transposed_same h _

theorem ctranspose_same : ctranspose s' = ctranspose s := ofOne_same h fun _ => conjugated_same h _

theorem flipud_same : flipud s' = flipud s := ofOne_same h fun _ => rfl

theorem rounded_same (x : Operand) (places : Option Operand) :
    rounded x places s' = rounded x places s := by
  simp only [rounded, h.verbatim, Site.withTyping]

theorem round_same : round s' = round s := by
  simp only [round, h.listed, h.refuse, rounded_same h]

theorem floor_same : floor s' = floor s := ofOne_same h fun x => by
  simp only [h.verbatim, Site.withTyping]

theorem part_same : part s' = part s := ofOne_same h fun x => by
  simp only [h.name, Site.withTyping]

theorem conj_same : conj s' = conj s := ofOne_same h fun _ => rfl

/-! ## Arrays out of dimensions -/

theorem eye_same : eye s' = eye s := by
  simp only [eye, h.listed, h.keep, h.verbatim, h.refuse, unit, constant, Site.typed]

theorem rand_same : rand s' = rand s := by
  simp only [rand, h.listed, h.refuse, randomNumber, randomArray, constant, Site.typed]

theorem filledByVector_same (constructor : String) (d : Datatype) (dims : Operand) :
    filledByVector constructor d dims s' = filledByVector constructor d dims s := by
  simp only [filledByVector, h.state, Site.typed]

theorem filledByNumbers_same (constructor : String) (d : Datatype) :
    filledByNumbers constructor d s' = filledByNumbers constructor d s := by
  simp only [filledByNumbers, h.listed, Site.typed]

theorem filled_same : filled s' = filled s := by
  simp only [filled, fillShape_twin h.toTwin, fillClass_twin h.toTwin,
    isDimensionVector_twin h.toTwin, h.listed, h.name, h.arity, h.refuse, filledByVector_same h,
    filledByNumbers_same h, Site.typed]

theorem diag_same : diag s' = diag s := by
  simp only [diag, diagonal, h.listed, h.keep, h.verbatim, h.refuse, Site.typed, Site.withTyping]

theorem hankel_same : hankel s' = hankel s := by
  simp only [hankel, hankelClass, h.listed, Site.typed]

/-! ## Reductions -/

theorem truthOfMatrix_same (x : Operand) : truthOfMatrix x s' = truthOfMatrix x s := by
  simp only [truthOfMatrix, h.eq_id, h.name, h.listed, Site.typed, Site.withTyping]

theorem truthReduction_same : truthReduction s' = truthReduction s := by
  simp only [truthReduction, h.listed, h.keep, h.verbatim, h.name, truthOfMatrix_same h, Site.typed,
    Site.withTyping]

theorem extremumOfArrays_same (x : Operand) : extremumOfArrays x s' = extremumOfArrays x s := by
  simp only [extremumOfArrays, h.eq_id, h.name, h.listed, h.verbatim, h.wrongArity, Site.typed,
    Site.withTyping]

theorem extremum_same : extremum s' = extremum s := by
  simp only [extremum, h.listed, h.keep, h.verbatim, h.types, h.name, extremumOfArrays_same h,
    Site.typed]

theorem sumOf_same (x : Operand) (axis : Option Operand) : sumOf x axis s' = sumOf x axis s := by
  simp only [sumOf, h.eq_id, h.keep, h.verbatim, Site.typed]

theorem sum_same : sum s' = sum s := by
  simp only [sum, h.listed, h.refuse, sumOf_same h]

/-! ## Signals -/

theorem realInverse_same (x : Operand) : realInverse x s' = realInverse x s := by
  simp only [realInverse, h.name, h.eq_id]

theorem transformAlong_same (x length : Operand) :
    transformAlong x length s' = transformAlong x length s := by
  simp only [transformAlong, h.name]

theorem transformCall_same (x : Operand) : transformCall x s' = transformCall x s := by
  simp only [transformCall, h.listed, h.name, h.eq_id, transformAlong_same h]

theorem fourier_same : fourier s' = fourier s := by
  simp only [fourier, h.listed, h.refuse, h.keep, h.verbatim, transformCall_same h,
    realInverse_same h, Site.typed]

theorem interp1_same : interp1 s' = interp1 s := by
  simp only [interp1, h.listed, h.keep, Site.typed]

/-! ## Sizes -/

theorem sizeOfAxes_same (x : Operand) (axes : Nat) : sizeOfAxes x axes s' = sizeOfAxes x axes s := by
  simp only [sizeOfAxes, isAssignedToVariable_twin h.toTwin, h.parentCategory?, h.state, h.eq_id,
    Site.typed]

theorem sizeOf_same (x : Operand) : sizeOf x s' = sizeOf x s := by
  simp only [sizeOf, sizeOfAxes_same h, h.keep, h.verbatim, Site.typed]

theorem sizeAlong_same (x axis : Operand) : sizeAlong x axis s' = sizeAlong x axis s := by
  simp only [sizeAlong, h.verbatim, Site.typed]

theorem isOpaque_same (x : Operand) : isOpaque x s' = isOpaque x s := by
  rw [isOpaque, h.parentCategory?, isOpaque]

theorem size_same : size s' = size s := by
  simp only [size, h.listed, isOpaque_same h, h.keep, h.verbatim, h.refuse, sizeOf_same h,
    sizeAlong_same h]

theorem firstArgumentShape_same {o : Operand} (mem : o ∈ s.operands) :
    firstArgumentShape s' o = firstArgumentShape s o := by
  unfold firstArgumentShape
  cases arguments : o.node.children with
  | nil => rfl
  | cons a more =>
    have here := h.inner mem a (by rw [arguments]; exact List.mem_cons_self)
    exact congrArg some (h.trees.node here).shape

theorem assignSize_same : assignSize s' = assignSize s := by
  unfold assignSize
  rw [h.listed]
  rcases operands : s.operands with _ | ⟨destination, _ | ⟨value, more⟩⟩
  · rfl
  · rfl
  · have shape := firstArgumentShape_same h (o := value) (by simp [operands])
    simp only [shape, h.keep]

theorem readable_same {id : NodeId} (here : R id id) (d : Datatype) :
    readable s' id d = readable s id d := by
  simp only [readable, (h.trees.node here).category, h.embeds.text_eq here, h.state]

theorem assignsSize_same : assignsSize s' = assignsSize s := by
  unfold assignsSize
  rw [h.listed]
  cases split : splitLast? s.operands with
  | none => rfl
  | some both =>
    obtain ⟨destinations, call⟩ := both
    have mem : call ∈ s.operands := by
      rw [operands_of_splitLast? split]
      exact List.mem_append_right _ (List.mem_singleton_self call)
    dsimp only
    cases arguments : call.node.children with
    | nil => rfl
    | cons argument more =>
      have here := h.inner mem argument (by rw [arguments]; exact List.mem_cons_self)
      simp only [(h.trees.node here).datatype, readable_same h here, h.keep]

theorem length_same : length s' = length s := by
  simp only [length, h.listed, h.refuse, Site.typed]

/-- Of the argument its number and its type matter. -/
theorem extremumWithIndex_same (x : String) (value index : Operand) {argument argument' : Operand}
    (here : R argument.id argument.id) (id : argument'.id = argument.id)
    (datatype : argument'.datatype = argument.datatype) :
    extremumWithIndex x value index argument' s'
      = extremumWithIndex x value index argument s := by
  have cls : argument'.cls = argument.cls := congrArg Datatype.cls datatype
  simp only [extremumWithIndex, id, datatype, cls, readable_same h here, h.keep]

theorem assignsExtremum_same : assignsExtremum s' = assignsExtremum s := by
  unfold assignsExtremum
  rw [h.listed]
  cases split : splitLast? s.operands with
  | none => rfl
  | some both =>
    obtain ⟨destinations, call⟩ := both
    have mem : call ∈ s.operands := by
      rw [operands_of_splitLast? split]
      exact List.mem_append_right _ (List.mem_singleton_self call)
    rcases arguments : call.node.children with _ | ⟨argument, _ | ⟨_, _⟩⟩
    · simp only [arguments]
    · have here := h.inner mem argument (by rw [arguments]; exact List.mem_cons_self)
      have numeric :
          Operand.numeric ⟨argument, s'.tree.node argument, (s'.tree.node argument).text⟩
            = Operand.numeric ⟨argument, s.tree.node argument, (s.tree.node argument).text⟩ :=
        (h.trees.node here).numeric
      have extremum : ∀ x value index, extremumWithIndex x value index
            ⟨argument, s'.tree.node argument, (s'.tree.node argument).text⟩ s'
          = extremumWithIndex x value index
            ⟨argument, s.tree.node argument, (s.tree.node argument).text⟩ s := fun x value index =>
        extremumWithIndex_same h x value index here rfl (h.trees.node here).datatype
      simp only [arguments, extremum, numeric, h.keep]
    · simp only [arguments]

end BuiltinRule

/-! ## Whatever rule a node gets -/

namespace Rule

variable (h : s.Same R s')
include h

theorem ofBareName?_same {b : Builtin} {rule : Rule} (eq : ofBareName? b = some rule) :
    rule s' = rule s := by
  cases b <;> first | cases eq; done | obtain rfl := Option.some.inj eq
  case tic => exact BuiltinRule.tic_same h
  case toc => exact BuiltinRule.toc_same h
  case clear | close | plot | hold => exact BuiltinRule.housekeeping_same h
  all_goals rfl

theorem ofCall?_same {b : Builtin} {rule : Rule} (eq : ofCall? b = some rule) :
    rule s' = rule s := by
  cases b <;> first | cases eq; done | obtain rfl := Option.some.inj eq
  case abs => exact BuiltinRule.abs_same h
  case land => exact BuiltinRule.land_same h
  case lor => exact BuiltinRule.lor_same h
  case lnot => exact BuiltinRule.lnot_same h
  case any | all => exact BuiltinRule.truthReduction_same h
  case size => exact BuiltinRule.size_same h
  case length => exact BuiltinRule.length_same h
  case min | max => exact BuiltinRule.extremum_same h
  case eye => exact BuiltinRule.eye_same h
  case transpose => exact BuiltinRule.transpose_same h
  case ctranspose => exact BuiltinRule.ctranspose_same h
  case flipud => exact BuiltinRule.flipud_same h
  case zeros | ones => exact BuiltinRule.filled_same h
  case round => exact BuiltinRule.round_same h
  case floor => exact BuiltinRule.floor_same h
  case rand => exact BuiltinRule.rand_same h
  case fft | ifft => exact BuiltinRule.fourier_same h
  case hankel => exact BuiltinRule.hankel_same h
  case interp1 => exact BuiltinRule.interp1_same h
  case sum => exact BuiltinRule.sum_same h
  case real | imag => exact BuiltinRule.part_same h
  case conj => exact BuiltinRule.conj_same h
  case diag => exact BuiltinRule.diag_same h
  case tic => exact BuiltinRule.tic_same h
  case toc => exact BuiltinRule.toc_same h
  case clear | close | plot | hold => exact BuiltinRule.housekeeping_same h
  case nextpow2 | linspace => rfl

theorem ofBuiltin?_same {c : Category} {b : Builtin} {rule : Rule}
    (eq : ofBuiltin? c b = some rule) : rule s' = rule s := by
  cases c
  case var => exact ofBareName?_same h eq
  case get => exact ofCall?_same h eq
  case assigns =>
    cases b with
    | size =>
      obtain rfl := Option.some.inj eq
      exact BuiltinRule.assignsSize_same h
    | min | max =>
      obtain rfl := Option.some.inj eq
      exact BuiltinRule.assignsExtremum_same h
    | _ => cases eq
  case assign =>
    cases b with
    | size =>
      obtain rfl := Option.some.inj eq
      exact BuiltinRule.assignSize_same h
    | _ => cases eq
  all_goals cases eq

theorem ofCategory?_same {c : Category} {rule : Rule} (eq : ofCategory? c = some rule) :
    rule s' = rule s := by
  cases c <;> first | cases eq; done | obtain rfl := Option.some.inj eq
  case statement => exact statement_same h
  case assign => exact assign_same h
  case assigns => exact assigns_same h
  case function => exact function_same h
  case params | returns => exact names_same h
  case ret => exact ret_same h
  case brk => exact brk_same h
  case var => exact var_same h
  case get | set => exact subscript_same h
  case imag => exact imag_same h
  case str => exact string_same h
  case matrix => exact matrix_same h
  case row => exact row_same h
  case add => exact add_same h
  case sub => exact sub_same h
  case mul => exact mul_same h
  case elMul => exact elMul_same h
  case rightDiv => exact rightDiv_same h
  case leftDiv => exact leftDiv_same h
  case elRightDiv => exact elRightDiv_same h
  case elLeftDiv => exact elLeftDiv_same h
  case pow | elPow => exact power_same h
  case gt | ge | lt | le | ne | eq => exact comparison_same h _
  case andAnd | and | orOr | or => exact logical_same h _
  case neg => exact neg_same h
  case not => exact not_same h
  case transpose => exact transpose_same h
  case ctranspose => exact ctranspose_same h
  case paren => exact paren_same h
  case range => exact range_same h
  case all => exact all_same h
  case last => exact last_same h
  case int | float => rfl

/-- Whatever rule a node gets, it answers the same at both sites. -/
theorem select_same : select s'.tree s'.node s' = select s.tree s.node s := by
  unfold select
  rw [builtinOf?_twin h.toTwin, h.category]
  cases named : (builtinOf? s.tree s.node).bind (ofBuiltin? s.node.category) with
  | some rule =>
    obtain ⟨b, -, found⟩ := Option.bind_eq_some_iff.mp named
    exact ofBuiltin?_same h found
  | none =>
    cases found : ofCategory? s.node.category with
    | none => exact untranslated_same h
    | some rule => exact ofCategory?_same h found

end Rule

end MatrixScript
