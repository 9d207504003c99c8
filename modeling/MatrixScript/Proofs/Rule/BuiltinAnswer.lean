/-
# `Proofs.Rule.BuiltinAnswer` — the rules of built-ins answer too

A built-in is called with any number of arguments, so its rules count them:
all of them answer at every sound site.  The rules for several destinations
also read the arguments of the call behind them, which are nodes of the tree
because links lead to nodes.  Together with the rules of categories this
gives `select_answers`: whatever a node is redirected to, its rule answers.
-/
import MatrixScript.Proofs.Rule.Answer
import MatrixScript.Rule.Table

namespace MatrixScript

namespace BuiltinRule

open Answers

variable {s : Site}

/-! ## Constants, clock, commands -/

theorem constant_answers (c : StorageClass) (text : String) :
    Answers s.tree (constant c text s) := typed (s := s) nothing

theorem tic_answers : Answers s.tree (tic s) := by
  refine keep fun e mem => ?_
  obtain rfl := List.mem_singleton.mp mem
  trivial

theorem toc_answers (h : s.Sound) : Answers s.tree (toc s) := by
  have effects : ∀ e ∈ (if s.state.clock.started then [Effect.toc]
      else [.toc, .report s.id .likelyMisuse "toc without a preceding tic"]), e.Within s.tree := by
    split
    · exact List.forall_mem_singleton.mpr trivial
    · exact List.forall_mem_cons.mpr ⟨trivial, report h⟩
  unfold toc
  dsimp only
  split
  · exact keep effects
  · exact typed effects

theorem housekeeping_answers : Answers s.tree (housekeeping s) := by
  unfold housekeeping
  split
  · exact keep nothing
  · exact keep nothing

/-! ## Construction -/

theorem eye_answers (h : s.Sound) : Answers s.tree (eye s) := by
  unfold eye
  split
  · exact constant_answers _ _
  · split
    · exact keep nothing
    · split
      · exact typed nothing
      · exact typed nothing
  · split
    · exact keep nothing
    · exact typed nothing
  · exact refuse h

theorem randomArray_answers (shape : Shape) : Answers s.tree (randomArray shape s) :=
  typed (s := s) nothing

theorem rand_answers (h : s.Sound) : Answers s.tree (rand s) := by
  unfold rand
  split
  · exact constant_answers _ _
  · exact randomArray_answers _
  · exact randomArray_answers _
  · exact randomArray_answers _
  · exact refuse h

theorem filledByVector_answers {dims : Operand} (bound : dims.id < s.tree.size)
    (constructor : String) (d : Datatype) :
    Answers s.tree (filledByVector constructor d dims s) := by
  unfold filledByVector
  cases dims.node.category == Category.var with
  | true => exact typed nothing
  | false => exact typed (List.forall_mem_singleton.mpr bound)

theorem filledByNumbers_answers (constructor : String) (d : Datatype) :
    Answers s.tree (filledByNumbers constructor d s) := by
  unfold filledByNumbers
  split
  · split
    · exact typed nothing
    · split
      · exact typed nothing
      · split
        · exact typed nothing
        · exact typed nothing
  · exact typed nothing

theorem filled_answers (h : s.Sound) : Answers s.tree (filled s) := by
  unfold filled
  split
  case h_1 => exact typed nothing
  case h_2 first rest eq =>
    have bound : first.id < s.tree.size := h.operand first (eq ▸ List.mem_cons_self)
    split
    · exact refuse h
    · dsimp only
      split
      · exact filledByVector_answers bound _ _
      · exact filledByNumbers_answers _ _

theorem linspace_answers : Answers s.tree (linspace s) := typed nothing

theorem diagonal_answers (h : s.Sound) (x : Operand) : Answers s.tree (diagonal x s) := by
  unfold diagonal
  split
  · exact keep nothing
  · split
    · exact withTyping nothing
    · exact typed nothing
    · exact typed nothing
    · exact typed nothing
    · exact refuse h

theorem diag_answers (h : s.Sound) : Answers s.tree (diag s) := by
  unfold diag
  split
  · exact diagonal_answers h _
  · exact diagonal_answers h _
  · exact refuse h

theorem hankel_answers : Answers s.tree (hankel s) := typed use

/-! ## Functions of every element -/

/-- A function of one argument is asked only when it has one. -/
theorem ofOne_answers (h : s.Sound) {rule : Operand → Rule}
    (answers : ∀ x, s.operands = [x] → Answers s.tree (rule x s)) :
    Answers s.tree (ofOne rule s) := by
  unfold ofOne
  split
  case h_1 x eq => exact answers x eq
  case h_2 => exact refuse h

theorem abs_answers (h : s.Sound) : Answers s.tree (abs s) := by
  refine ofOne_answers h fun x _ => ?_
  dsimp only
  split
  · exact withTyping nothing
  · exact withTyping nothing

theorem land_answers : Answers s.tree (land s) := typed nothing

theorem lor_answers : Answers s.tree (lor s) := typed nothing

theorem lnot_answers (h : s.Sound) : Answers s.tree (lnot s) :=
  ofOne_answers h fun _ _ => Rule.negation_answers _

theorem transpose_answers (h : s.Sound) : Answers s.tree (transpose s) :=
  ofOne_answers h fun _ eq => Rule.transposed_answers _ (by simp [eq])

theorem ctranspose_answers (h : s.Sound) : Answers s.tree (ctranspose s) :=
  ofOne_answers h fun _ eq => Rule.conjugated_answers _ (by simp [eq])

theorem flipud_answers (h : s.Sound) : Answers s.tree (flipud s) :=
  ofOne_answers h fun _ _ => withTyping nothing

theorem mathFor_within {t : Tree} (shape : Shape) : ∀ e ∈ mathFor shape, e.Within t := by
  unfold mathFor
  split
  · exact use
  · exact nothing

theorem rounded_answers (x : Operand) (places : Option Operand) :
    Answers s.tree (rounded x places s) := by
  unfold rounded
  dsimp only
  split
  · exact withTyping nothing
  · split
    · exact withTyping nothing
    · split
      · exact withTyping (mathFor_within _)
      · exact withTyping (mathFor_within _)

theorem round_answers (h : s.Sound) : Answers s.tree (round s) := by
  unfold round
  split
  · exact rounded_answers _ _
  · exact rounded_answers _ _
  · exact refuse h

theorem floor_answers (h : s.Sound) : Answers s.tree (floor s) := by
  refine ofOne_answers h fun x _ => ?_
  dsimp only
  split
  · exact withTyping nothing
  · exact withTyping (mathFor_within _)

theorem part_answers (h : s.Sound) : Answers s.tree (part s) :=
  ofOne_answers h fun _ _ => withTyping nothing

theorem conj_answers (h : s.Sound) : Answers s.tree (conj s) :=
  ofOne_answers h fun _ _ => withTyping nothing

/-! ## Functions along an axis -/

theorem truthOfMatrix_answers (h : s.Sound) (x : Operand) :
    Answers s.tree (truthOfMatrix x s) := by
  unfold truthOfMatrix
  dsimp only
  split
  · split
    · exact typed nothing
    · exact typed nothing
    · exact withTyping (report h)
  · exact withTyping (report h)

theorem truthReduction_answers (h : s.Sound) : Answers s.tree (truthReduction s) := by
  unfold truthReduction
  split
  · exact keep nothing
  · dsimp only
    split
    · exact keep nothing
    · split
      · exact withTyping nothing
      · exact typed nothing
      · exact typed nothing
      · exact truthOfMatrix_answers h _
      · exact typed nothing
      · exact withTyping nothing

theorem extremumOfArrays_answers (h : s.Sound) (x : Operand) :
    Answers s.tree (extremumOfArrays x s) := by
  unfold extremumOfArrays
  dsimp only
  split
  · exact typed nothing
  · exact typed nothing
  · split
    · exact typed nothing
    · exact typed nothing
    · exact withTyping (report h)
  · exact typed (report h)

theorem extremum_answers (h : s.Sound) : Answers s.tree (extremum s) := by
  unfold extremum
  split
  · exact keep nothing
  · split
    · exact keep nothing
    · split
      · exact typed nothing
      · exact extremumOfArrays_answers h _

theorem sumOf_answers (h : s.Sound) (x : Operand) (axis : Option Operand) :
    Answers s.tree (sumOf x axis s) := by
  unfold sumOf
  split
  · exact keep (report h)
  · exact typed nothing

theorem sum_answers (h : s.Sound) : Answers s.tree (sum s) := by
  unfold sum
  split
  · exact sumOf_answers h _ _
  · exact sumOf_answers h _ _
  · exact refuse h

/-! ## Transforms -/

theorem realInverse_within (h : s.Sound) (x : Operand) :
    ∀ e ∈ realInverse x s, e.Within s.tree := by
  unfold realInverse
  split
  · exact report h
  · exact nothing

theorem transformAlong_within (x length : Operand) :
    ∀ e ∈ (transformAlong x length s).2, e.Within s.tree := by
  unfold transformAlong
  dsimp only
  split
  · exact nothing
  · split
    · exact use
    · exact use

theorem transformCall_within (h : s.Sound) (x : Operand) :
    ∀ e ∈ (transformCall x s).2, e.Within s.tree := by
  unfold transformCall
  split
  · exact nothing
  · exact nothing
  · exact transformAlong_within _ _
  · exact report h

theorem fourier_answers (h : s.Sound) : Answers s.tree (fourier s) := by
  unfold fourier
  split
  · exact refuse h
  · split
    · exact keep nothing
    · exact typed (append (realInverse_within h _) (transformCall_within h _))

theorem nextpow2_answers : Answers s.tree (nextpow2 s) := typed use

theorem interp1_answers : Answers s.tree (interp1 s) := by
  unfold interp1
  dsimp only
  split
  · split
    · exact typed nothing
    · exact keep nothing
  · exact keep nothing

/-! ## Sizes -/

/-- There are members for two axes, and for three. -/
theorem extentsOf_eq {axes : Nat} (le : axes ≤ 3) : extentsOf axes = .ok (extents.take axes) :=
  if_pos le

theorem sizeOfAxes_answers (h : s.Sound) (x : Operand) {axes : Nat} (le : axes ≤ 3) :
    Answers s.tree (sizeOfAxes x axes s) := by
  unfold sizeOfAxes
  rw [extentsOf_eq le]
  show Answers s.tree (if _ then _ else _)
  split
  · exact typed (List.forall_mem_singleton.mpr trivial)
  · split
    · exact typed nothing
    · exact typed (List.forall_mem_singleton.mpr h.self)

theorem sizeOf_answers (h : s.Sound) (x : Operand) : Answers s.tree (sizeOf x s) := by
  unfold sizeOf
  split
  · exact typed nothing
  · exact typed nothing
  · exact sizeOfAxes_answers h x (by decide)
  · exact sizeOfAxes_answers h x (by decide)
  · exact keep nothing

theorem sizeAlong_answers (x axis : Operand) : Answers s.tree (sizeAlong x axis s) := typed nothing

theorem size_answers (h : s.Sound) : Answers s.tree (size s) := by
  unfold size
  split
  · split
    · exact keep nothing
    · exact sizeOf_answers h _
  · split
    · exact keep nothing
    · exact sizeAlong_answers _ _
  · exact refuse h

theorem assignSize_answers {destination value : Operand} (two : s.operands = [destination, value]) :
    Answers s.tree (assignSize s) := by
  unfold assignSize
  rw [two]
  exact Rule.checked_answers (keep (Rule.binding_within _ _))

theorem readable_within {id : NodeId} (bound : id < s.tree.size) (d : Datatype) :
    ∀ e ∈ (readable s id d).2, e.Within s.tree := by
  unfold readable
  dsimp only
  split
  · exact nothing
  · exact List.forall_mem_singleton.mpr bound

/-- Arguments of an operand are nodes of the tree. -/
theorem argument_lt (h : s.Sound) {call : Operand} (mem : call ∈ s.operands) {id : NodeId}
    (argument : id ∈ call.node.children) : id < s.tree.size := by
  rw [h.node call mem] at argument
  exact h.child _ id argument

theorem assignsSize_answers (h : s.Sound) {destinations : List Operand} {call : Operand}
    (eq : s.operands = destinations ++ [call]) : Answers s.tree (assignsSize s) := by
  have there : call ∈ s.operands := by simp [eq]
  unfold assignsSize
  rw [eq, Rule.splitLast?_append]
  dsimp only
  split
  case h_1 => exact nofun
  case h_2 argument rest arguments =>
    split
    case isTrue => exact nofun
    case isFalse few =>
      refine Rule.checked_answers ?_
      rw [extentsOf_eq (by omega)]
      have bound : argument < s.tree.size :=
        argument_lt h there (arguments ▸ List.mem_cons_self)
      refine keep (append (readable_within bound _) fun e mem => ?_)
      obtain ⟨o, there, rfl⟩ := List.mem_map.mp mem
      exact h.operand o (eq ▸ List.mem_append_left _ there)

theorem length_answers (h : s.Sound) : Answers s.tree (length s) := by
  unfold length
  split
  · split
    · exact typed nothing
    · exact typed use
  · exact refuse h

theorem extremumWithIndex_answers {value index argument : Operand} (hv : value.id < s.tree.size)
    (hi : index.id < s.tree.size) (ha : argument.id < s.tree.size) (name : String) :
    Answers s.tree (extremumWithIndex name value index argument s) := by
  refine keep (append ?_ (readable_within ha _))
  exact List.forall_mem_cons.mpr ⟨hv, List.forall_mem_singleton.mpr hi⟩

theorem assignsExtremum_answers (h : s.Sound) {destinations : List Operand} {call : Operand}
    (eq : s.operands = destinations ++ [call]) : Answers s.tree (assignsExtremum s) := by
  have there : call ∈ s.operands := by simp [eq]
  unfold assignsExtremum
  rw [eq, Rule.splitLast?_append]
  dsimp only
  split
  case h_2 => exact nofun
  case h_1 value index =>
    refine Rule.checked_answers ?_
    split
    case h_1 => exact nofun
    case h_3 => exact nofun
    case h_2 id arguments =>
      have hv : value.id < s.tree.size := h.operand value (by simp [eq])
      have hi : index.id < s.tree.size := h.operand index (by simp [eq])
      have ha : id < s.tree.size := argument_lt h there (by simp [arguments])
      split
      · exact extremumWithIndex_answers hv hi ha _
      · exact keep nothing

end BuiltinRule

namespace Rule

open Answers

variable {s : Site}

/-! ## The table -/

theorem ofBareName?_answers (h : s.Sound) {b : Builtin} {rule : Rule}
    (eq : ofBareName? b = some rule) : Answers s.tree (rule s) := by
  cases b with
  | i | pi | inf | nan | truth | falsity | eye | rand =>
    obtain rfl := Option.some.inj eq
    exact BuiltinRule.constant_answers _ _
  | tic =>
    obtain rfl := Option.some.inj eq
    exact BuiltinRule.tic_answers
  | toc =>
    obtain rfl := Option.some.inj eq
    exact BuiltinRule.toc_answers h
  | clear | close | plot | hold =>
    obtain rfl := Option.some.inj eq
    exact BuiltinRule.housekeeping_answers
  | _ => cases eq

theorem ofCall?_answers (h : s.Sound) {b : Builtin} {rule : Rule} (eq : ofCall? b = some rule) :
    Answers s.tree (rule s) := by
  cases b <;> first | cases eq; done | obtain rfl := Option.some.inj eq
  case abs => exact BuiltinRule.abs_answers h
  case land => exact BuiltinRule.land_answers
  case lor => exact BuiltinRule.lor_answers
  case lnot => exact BuiltinRule.lnot_answers h
  case all => exact BuiltinRule.truthReduction_answers h
  case any => exact BuiltinRule.truthReduction_answers h
  case size => exact BuiltinRule.size_answers h
  case length => exact BuiltinRule.length_answers h
  case min => exact BuiltinRule.extremum_answers h
  case max => exact BuiltinRule.extremum_answers h
  case eye => exact BuiltinRule.eye_answers h
  case transpose => exact BuiltinRule.transpose_answers h
  case ctranspose => exact BuiltinRule.ctranspose_answers h
  case flipud => exact BuiltinRule.flipud_answers h
  case zeros => exact BuiltinRule.filled_answers h
  case ones => exact BuiltinRule.filled_answers h
  case round => exact BuiltinRule.round_answers h
  case floor => exact BuiltinRule.floor_answers h
  case rand => exact BuiltinRule.rand_answers h
  case nextpow2 => exact BuiltinRule.nextpow2_answers
  case fft => exact BuiltinRule.fourier_answers h
  case ifft => exact BuiltinRule.fourier_answers h
  case hankel => exact BuiltinRule.hankel_answers
  case interp1 => exact BuiltinRule.interp1_answers
  case linspace => exact BuiltinRule.linspace_answers
  case sum => exact BuiltinRule.sum_answers h
  case real => exact BuiltinRule.part_answers h
  case imag => exact BuiltinRule.part_answers h
  case conj => exact BuiltinRule.conj_answers h
  case diag => exact BuiltinRule.diag_answers h
  case tic => exact BuiltinRule.tic_answers
  case toc => exact BuiltinRule.toc_answers h
  all_goals exact BuiltinRule.housekeeping_answers

/-- An operator has an operand. -/
theorem operands_ne_nil (h : s.Sound)
    (operator : s.node.category.isChained ∨ s.node.category.isUnary) : s.operands ≠ [] := by
  intro none
  have admits := h.admits
  rw [none] at admits
  rcases operator with chained | unary
  · rw [Category.admits_of_isChained chained] at admits
    cases admits
  · cases category : s.node.category <;> rw [category] at admits unary <;>
      first | cases admits; done | cases unary

theorem assign_operands (h : s.Sound) (category : s.node.category = .assign) :
    ∃ destination value, s.operands = [destination, value] := by
  have admits := h.admits
  rw [category] at admits
  match operands : s.operands with
  | [destination, value] => exact ⟨destination, value, rfl⟩
  | [] | [_] | _ :: _ :: _ :: _ =>
    rw [operands] at admits
    cases admits

theorem assigns_operands (h : s.Sound) (category : s.node.category = .assigns) :
    ∃ destinations value, s.operands = destinations ++ [value] := by
  rcases List.eq_nil_or_concat s.operands with none | ⟨destinations, value, eq⟩
  · have admits := h.admits
    rw [category, none] at admits
    cases admits
  · exact ⟨destinations, value, eq.trans List.concat_eq_append⟩

theorem function_operands (h : s.Sound) (category : s.node.category = .function) :
    ∃ params returns block, s.operands = [params, returns, block] := by
  have admits := h.admits
  rw [category] at admits
  match operands : s.operands with
  | [params, returns, block] => exact ⟨params, returns, block, rfl⟩
  | [] | [_] | [_, _] | _ :: _ :: _ :: _ :: _ =>
    rw [operands] at admits
    simp [Category.admits] at admits

theorem ofDestructured?_answers (h : s.Sound) (category : s.node.category = .assigns)
    {b : Builtin} {rule : Rule} (eq : ofDestructured? b = some rule) :
    Answers s.tree (rule s) := by
  obtain ⟨destinations, value, operands⟩ := assigns_operands h category
  cases b with
  | size =>
    obtain rfl := Option.some.inj eq
    exact BuiltinRule.assignsSize_answers h operands
  | min | max =>
    obtain rfl := Option.some.inj eq
    exact BuiltinRule.assignsExtremum_answers h operands
  | _ => cases eq

theorem ofBuiltin?_answers (h : s.Sound) {b : Builtin} {rule : Rule}
    (eq : ofBuiltin? s.node.category b = some rule) : Answers s.tree (rule s) := by
  cases category : s.node.category <;> rw [category] at eq
  case var => exact ofBareName?_answers h eq
  case get => exact ofCall?_answers h eq
  case assigns => exact ofDestructured?_answers h category eq
  case assign =>
    obtain ⟨destination, value, operands⟩ := assign_operands h category
    cases b with
    | size =>
      obtain rfl := Option.some.inj eq
      exact BuiltinRule.assignSize_answers operands
    | _ => cases eq
  all_goals cases eq

theorem ofCategory?_answers (h : s.Sound) {rule : Rule}
    (eq : ofCategory? s.node.category = some rule) : Answers s.tree (rule s) := by
  have chained : s.node.category.isChained → s.operands ≠ [] :=
    fun chained => operands_ne_nil h (.inl chained)
  have unary : s.node.category.isUnary → s.operands ≠ [] :=
    fun unary => operands_ne_nil h (.inr unary)
  cases category : s.node.category <;> rw [category] at eq chained unary <;>
    first | cases eq; done | obtain rfl := Option.some.inj eq
  case statement => exact statement_answers
  case assign =>
    obtain ⟨_, _, operands⟩ := assign_operands h category
    exact assign_answers operands
  case assigns =>
    obtain ⟨_, _, operands⟩ := assigns_operands h category
    exact assigns_answers h operands
  case function =>
    obtain ⟨_, _, _, operands⟩ := function_operands h category
    exact function_answers operands
  case params => exact names_answers
  case returns => exact names_answers
  case ret => exact ret_answers
  case brk => exact brk_answers
  case var => exact var_answers
  case get => exact subscript_answers
  case set => exact subscript_answers
  case int => exact int_answers
  case float => exact float_answers
  case imag => exact imag_answers
  case str => exact string_answers
  case matrix => exact matrix_answers h
  case row => exact row_answers
  case add => exact add_answers h
  case sub => exact sub_answers h
  case mul => exact mul_answers h (chained rfl)
  case elMul => exact elMul_answers h
  case rightDiv => exact structural_answers h (chained rfl) _ _ (elRightDiv_answers h (chained rfl))
  case leftDiv => exact structural_answers h (chained rfl) _ _ (elLeftDiv_answers h (chained rfl))
  case elRightDiv => exact elRightDiv_answers h (chained rfl)
  case elLeftDiv => exact elLeftDiv_answers h (chained rfl)
  case pow => exact power_answers (chained rfl)
  case elPow => exact power_answers (chained rfl)
  case neg => exact neg_answers
  case not => exact not_answers
  case transpose => exact transposed_answers _ (unary rfl)
  case ctranspose => exact conjugated_answers _ (unary rfl)
  case paren => exact paren_answers
  case range => exact range_answers
  case all => exact all_answers
  case last => exact last_answers h
  all_goals first | exact comparison_answers h _ | exact logical_answers _

theorem untranslated_answers (h : s.Sound) : Answers s.tree (untranslated s) := keep (report h)

/-- Whatever rule a node gets, it answers. -/
theorem select_answers (h : s.Sound) : Answers s.tree (select s.tree s.node s) := by
  unfold select
  cases named : (builtinOf? s.tree s.node).bind (ofBuiltin? s.node.category) with
  | some rule =>
    obtain ⟨b, -, found⟩ := Option.bind_eq_some_iff.mp named
    exact ofBuiltin?_answers h found
  | none =>
    cases found : ofCategory? s.node.category with
    | none => exact untranslated_answers h
    | some rule => exact ofCategory?_answers h found

end Rule

end MatrixScript
