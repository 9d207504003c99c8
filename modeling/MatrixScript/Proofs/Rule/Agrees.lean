/-
# `Proofs.Rule.Agrees` — the rules of categories agree

One lemma for each rule, in the order of their modules: at sites that are alike
the rule of a category answers alike.
-/
import MatrixScript.Proofs.Rule.Alike
import MatrixScript.Proofs.Rule.BuiltinAnswer
import MatrixScript.Proofs.Rule.Scalar

namespace MatrixScript

theorem Template.render_statement (node : Node) (text : String) (rest : List String) :
    render node (text :: rest) (.format "%(0)s ;") = text ++ " ;" := by
  have opens : Text.splitAtPair '%' '(' "%(0)s ;".toList = some ([], "0)s ;".toList) := by decide
  have closes : Text.splitAtPair ')' 's' "0)s ;".toList = some (['0'], " ;".toList) := by decide
  have value : valueOf? node (text :: rest) ['0'] = some text := rfl
  have whole : substitute (fun key => (valueOf? node (text :: rest) key).map String.toList)
      "%(0)s ;".toList = text.toList ++ " ;".toList := by
    rw [substitute_step opens closes, substitute_plain (by decide), value]
    rfl
  rw [render, whole]
  apply String.toList_injective
  simp

namespace Rule

variable {L : Likeness} {quieter : Prop} {s s' : Site}

/-! ## Operators -/

section

variable (h : s.Alike L quieter s')
include h

theorem operandTypes_eq : operandTypes s' = operandTypes s := by
  rw [operandTypes, h.types, operandTypes]

theorem hasText_eq : hasText s' = hasText s :=
  Operand.any_eq_of_alike h.operands fun _ _ _ alike => congrArg (· == StorageClass.text) alike.cls

theorem checkNumeric_eq (operation : String) : checkNumeric operation s' = checkNumeric operation s := by
  rw [checkNumeric, h.seed, hasText_eq h, h.id, operandTypes_eq h, checkNumeric]

theorem checkNumeric_alike (operation : String) :
    Effect.AllAlike L quieter s (checkNumeric operation s) (checkNumeric operation s') := by
  rw [checkNumeric_eq h]
  unfold checkNumeric
  split
  · exact .report
  · exact .nil

theorem add_agrees : Agrees L quieter s s' L.Shows (add s) (add s') :=
  .keep h (checkNumeric_alike h _) fun _ => h.shows_between rfl

theorem sub_agrees : Agrees L quieter s s' L.Shows (sub s) (sub s') :=
  .keep h (checkNumeric_alike h _) fun _ => h.shows_between rfl

omit h in
theorem productShape_eq {os os' : List Operand} (alike : List.Forall₂ (Operand.Alike L) os os')
    (shape : Shape) : productShape shape os' = productShape shape os := by
  induction alike generalizing shape with
  | nil => rfl
  | @cons o o' os os' first _ ih =>
    unfold productShape productMismatch
    rw [first.shape, first.id]
    split
    · exact ih _
    · rw [ih]

theorem productShape_alike (shape : Shape) {os : List Operand} (sub : os ⊆ s.operands) :
    Effect.AllAlike L quieter s (productShape shape os).2 (productShape shape os).2 := by
  induction os generalizing shape with
  | nil => exact .nil
  | cons o os ih =>
    obtain ⟨mem, rest⟩ := List.cons_subset.mp sub
    unfold productShape
    split
    · exact ih _ rest
    · exact .cons (.report (.inr (.inl (h.ids ▸ List.mem_map_of_mem mem)))) (ih _ rest)

theorem mul_agrees (some : s.operands ≠ []) : Agrees L quieter s s' L.Shows (mul s) (mul s') := by
  obtain ⟨o, os, o', os', eq, eq', first, rest⟩ := h.cons some
  unfold mul
  rw [h.seed, operandTypes_eq h, h.id, eq, eq']
  refine .ite (fun _ => .keep h .nil fun _ => h.shows_between rfl) fun _ => ?_
  refine .ite (fun _ => .keep h .report fun _ => h.shows_between rfl) fun _ => ?_
  dsimp only
  rw [first.shape, productShape_eq rest]
  exact .typed _ (productShape_alike h _ (eq ▸ List.subset_cons_self ..)) fun _ => h.shows_between rfl

theorem elMul_agrees : Agrees L quieter s s' L.Shows (elMul s) (elMul s') := by
  unfold elMul
  rw [h.seed]
  refine .keep h (checkNumeric_alike h _) fun _ => ?_
  split
  · exact h.shows_between rfl
  · exact h.shows_between rfl

theorem powerFunction_eq : powerFunction s' = powerFunction s := by
  rw [powerFunction, h.seed, powerFunction]

omit h in
theorem scan_powerFunction : Text.scan .free (powerFunction s ++ "(").toList = some .free := by
  unfold powerFunction
  split
  · rfl
  · split
    · rfl
    · rfl

theorem power_agrees (some : s.operands ≠ []) :
    Agrees L quieter s s' L.Shows (power s) (power s') := by
  obtain ⟨o, os, o', os', eq, eq', first, rest⟩ := h.cons some
  have texts := h.texts
  unfold power
  rw [powerFunction_eq h]
  rw [Site.texts, eq, Site.texts, eq'] at texts ⊢
  obtain ⟨shows, others⟩ := List.forall₂_cons.mp texts
  exact .keep h .nil fun _ => Likeness.shows_nested scan_powerFunction others shows

theorem comparison_agrees {operator : String}
    (separates : Text.scan .word operator.toList = some .free) :
    Agrees L quieter s s' L.Shows (comparison operator s) (comparison operator s') := by
  unfold comparison
  rw [hasText_eq h, h.id, operandTypes_eq h]
  exact .keep h (.ite .report .nil) fun _ => h.shows_between separates

theorem logical_agrees {operator : String}
    (separates : Text.scan .word operator.toList = some .free) :
    Agrees L quieter s s' L.Shows (logical operator s) (logical operator s') :=
  .keep h .nil fun _ => h.shows_between separates

/-! ### One operand -/

/-- One operand at each site. -/
theorem one (unary : s.node.category.isUnary) : ∃ o o', s.operands = [o] ∧ s'.operands = [o']
    ∧ o.Alike L o' := by
  have admits := h.sound.admits
  have single : ∃ o, s.operands = [o] := by
    match operands : s.operands with
    | [o] => exact ⟨o, rfl⟩
    | [] | _ :: _ :: _ =>
      rw [operands] at admits
      cases category : s.node.category <;> rw [category] at admits unary <;>
        first | cases unary; done | cases admits
  obtain ⟨o, eq⟩ := single
  have operands := h.operands
  rw [eq] at operands
  generalize eq' : s'.operands = os' at operands
  cases operands with
  | cons first rest =>
    cases rest
    exact ⟨o, _, eq, rfl, first⟩

omit h in
theorem shows_around {front : String} (opens : Text.scan .free front.toList = some .free)
    {o o' : Operand} (eq : s.operands = [o]) (eq' : s'.operands = [o']) (first : o.Alike L o')
    (n n' : Node) : L.Shows ((Template.join front "" ")").render n s.texts)
      ((Template.join front "" ")").render n' s'.texts) := by
  rw [Site.texts, eq, Site.texts, eq']
  exact (((L.opening front opens).append first.text).put ")" rfl).shows

theorem neg_agrees (unary : s.node.category.isUnary) :
    Agrees L quieter s s' L.Shows (neg s) (neg s') := by
  obtain ⟨o, o', eq, eq', first⟩ := one h unary
  exact .keep h .nil fun _ => shows_around rfl eq eq' first _ _

omit h in
theorem negation_agrees (typing : Typing) {o o' : Operand} (eq : s.operands = [o])
    (eq' : s'.operands = [o']) (first : o.Alike L o') :
    Agrees L quieter s s' L.Shows (negation typing s) (negation typing s') := by
  refine .withTyping typing .nil fun _ => L.weaken ?_
  split
  · exact Template.like_format (Site.Alike.keys_one eq eq' first) (k := 1) rfl
  · exact Template.like_format (Site.Alike.keys_one eq eq' first) (k := 1) rfl

theorem not_agrees (unary : s.node.category.isUnary) :
    Agrees L quieter s s' L.Shows (not s) (not s') := by
  obtain ⟨o, o', eq, eq', first⟩ := one h unary
  unfold not
  rw [h.seed]
  exact negation_agrees _ eq eq' first

omit h in
theorem turned_eq (typing : Typing) {o o' : Operand} (eq : s.operands = [o])
    (eq' : s'.operands = [o']) (first : o.Alike L o') :
    turned typing s = .ok (typing.datatype.withShape o.shape.transposed)
      ∧ turned typing s' = .ok (typing.datatype.withShape o.shape.transposed) := by
  refine ⟨?_, ?_⟩
  · rw [turned, eq]
  · rw [turned, eq', ← first.shape]

omit h in
theorem transposed_agrees (typing : Typing) {o o' : Operand} (eq : s.operands = [o])
    (eq' : s'.operands = [o']) (first : o.Alike L o') :
    Agrees L quieter s s' L.Shows (transposed typing s) (transposed typing s') := by
  obtain ⟨turn, turn'⟩ := turned_eq typing eq eq' first
  unfold transposed
  rw [turn, turn']
  refine .ite (fun _ => ?_) fun _ => ?_
  · refine .withTyping typing .nil fun _ => L.weaken ?_
    exact Template.like_format (Site.Alike.keys_one eq eq' first) (k := 1) rfl
  · exact .typed _ .nil fun _ => shows_around rfl eq eq' first _ _

theorem transpose_agrees (unary : s.node.category.isUnary) :
    Agrees L quieter s s' L.Shows (transpose s) (transpose s') := by
  obtain ⟨o, o', eq, eq', first⟩ := one h unary
  unfold transpose
  rw [h.seed]
  exact transposed_agrees _ eq eq' first

omit h in
theorem conjugated_agrees (typing : Typing) {o o' : Operand} (eq : s.operands = [o])
    (eq' : s'.operands = [o']) (first : o.Alike L o') :
    Agrees L quieter s s' L.Shows (conjugated typing s) (conjugated typing s') := by
  obtain ⟨turn, turn'⟩ := turned_eq typing eq eq' first
  unfold conjugated
  rw [turn, turn']
  refine .ite (fun _ => ?_) fun _ => ?_
  · exact .withTyping typing .nil fun _ => shows_around rfl eq eq' first _ _
  · refine .typed _ .nil fun _ => ?_
    split
    · exact shows_around rfl eq eq' first _ _
    · exact shows_around rfl eq eq' first _ _

theorem ctranspose_agrees (unary : s.node.category.isUnary) :
    Agrees L quieter s s' L.Shows (ctranspose s) (ctranspose s') := by
  obtain ⟨o, o', eq, eq', first⟩ := one h unary
  unfold ctranspose
  rw [h.seed]
  exact conjugated_agrees _ eq eq' first

theorem paren_agrees (unary : s.node.category.isUnary) :
    Agrees L quieter s s' L.Shows (paren s) (paren s') := by
  obtain ⟨o, o', eq, eq', first⟩ := one h unary
  refine .keep h .nil fun _ => L.weaken ?_
  exact Template.like_format (Site.Alike.keys_one eq eq' first) (k := 1) rfl

end

/-! ## Divisions -/

/-- Quotients of the same class and shape, with texts that are alike. -/
structure Quotient.Alike (L : Likeness) (q q' : Quotient) : Prop where
  text : L.Shows q.text q'.text
  cls : q'.cls = q.cls
  shape : q'.shape = q.shape

section

variable {q q' : Quotient} {o o' : Operand}

theorem Quotient.alike_ofOperand (first : o.Alike L o') :
    Quotient.Alike L (.ofOperand o) (.ofOperand o') := ⟨first.text, first.cls, first.shape⟩

theorem bothIntegral_eq (hq : q.Alike L q') (ho : o.Alike L o') :
    bothIntegral q' o' = bothIntegral q o := by rw [bothIntegral, hq.cls, ho.cls, bothIntegral]

theorem widened_eq (hq : q.Alike L q') (ho : o.Alike L o') : widened q' o' = widened q o := by
  rw [widened, hq.cls, ho.cls, widened]

/-- Two texts with a fixed piece between them. -/
theorem shows_both {a a' b b' : String} (ha : L.Shows a a') (hb : L.Shows b b') {k : String}
    (separates : Text.scan .word k.toList = some .free) :
    L.Shows (a ++ k ++ b) (a' ++ k ++ b') := (ha.put k separates).append hb

theorem divideBy_alike (typed : Bool) (hq : q.Alike L q') (ho : o.Alike L o') :
    (divideBy typed q o).Alike L (divideBy typed q' o') := by
  refine ⟨?_, widened_eq hq ho, hq.shape⟩
  simp only [divideBy]
  rw [ho.category, bothIntegral_eq hq ho]
  split
  · exact (shows_both hq.text ho.text (k := "/") rfl).putWord ".0" rfl
  · split
    · exact shows_both hq.text ho.text rfl
    · exact shows_both hq.text ho.text rfl

theorem divideInto_alike (typed literal : Bool) (hq : q.Alike L q') (ho : o.Alike L o')
    {divisor divisor' : String} (hd : L.Shows divisor divisor') :
    (divideInto typed literal q divisor o).Alike L (divideInto typed literal q' divisor' o') := by
  refine ⟨?_, widened_eq hq ho, hq.shape⟩
  simp only [divideInto]
  rw [bothIntegral_eq hq ho]
  split
  · exact (shows_both ho.text hd (k := "/") rfl).putWord ".0" rfl
  · split
    · exact shows_both ho.text hd rfl
    · exact shows_both ho.text hd rfl

/-- A text in parentheses. -/
theorem shows_parens {a a' : String} (h : L.Shows a a') :
    L.Shows ("(" ++ a ++ ")") ("(" ++ a' ++ ")") :=
  (((L.opening "(" rfl).append h).put ")" rfl).shows

theorem divideIntoQuotient_alike (typed : Bool) (hq : q.Alike L q') (ho : o.Alike L o') :
    (divideIntoQuotient typed q o).Alike L (divideIntoQuotient typed q' o') :=
  divideInto_alike typed false hq ho (shows_parens hq.text)

theorem solveRight_alike (hq : q.Alike L q') (ho : o.Alike L o') :
    (solveRight q o).Alike L (solveRight q' o') := by
  unfold solveRight
  rw [ho.shape, bothIntegral_eq hq ho, hq.cls, ho.cls]
  split
  · refine ⟨?_, rfl, hq.shape⟩
    have operand := (L.opening "arma::solve(" rfl).append ho.text
    exact (((operand.put ".t(), " rfl).append hq.text).put ".t()).t()" rfl).shows
  · split
    · exact ⟨shows_both hq.text ho.text rfl, rfl, hq.shape⟩
    · exact ⟨shows_both hq.text ho.text rfl, rfl, hq.shape⟩

theorem solveLeft_alike (hq : q.Alike L q') (ho : o.Alike L o') :
    (solveLeft q o).Alike L (solveLeft q' o') := by
  unfold solveLeft
  rw [ho.shape, bothIntegral_eq hq ho, hq.cls, ho.cls]
  split
  · refine ⟨?_, rfl, hq.shape⟩
    have quotient := (L.opening "arma::solve(" rfl).append hq.text
    exact (((quotient.put ", " rfl).append ho.text).put ")" rfl).shows
  · have quotient := (L.opening "(" rfl).append hq.text
    split
    · exact ⟨(quotient.put ")*1.0/" rfl).append ho.text, rfl, hq.shape⟩
    · exact ⟨(quotient.put ")/" rfl).append ho.text, rfl, hq.shape⟩

theorem foldl_alike {step : Quotient → Operand → Quotient}
    (one : ∀ {q q' o o'}, Quotient.Alike L q q' → Operand.Alike L o o' →
      (step q o).Alike L (step q' o')) {os os' : List Operand}
    (rest : List.Forall₂ (Operand.Alike L) os os') (hq : q.Alike L q') :
    (os.foldl step q).Alike L (os'.foldl step q') := by
  induction rest generalizing q q' with
  | nil => exact hq
  | cons first _ ih => exact ih (one hq first)

end

section

variable (h : s.Alike L quieter s')
include h

theorem elRightDiv_agrees (some : s.operands ≠ []) :
    Agrees L quieter s s' L.Shows (elRightDiv s) (elRightDiv s') := by
  obtain ⟨o, os, o', os', eq, eq', first, rest⟩ := h.cons some
  unfold elRightDiv
  rw [h.seed, eq, eq']
  refine .withTyping _ (checkNumeric_alike h _) fun _ => ?_
  exact (foldl_alike (divideBy_alike _) rest (Quotient.alike_ofOperand first)).text

theorem elLeftDiv_agrees (some : s.operands ≠ []) :
    Agrees L quieter s s' L.Shows (elLeftDiv s) (elLeftDiv s') := by
  obtain ⟨o, os, o', os', eq, eq', first, rest⟩ := h.cons some
  unfold elLeftDiv
  rw [h.seed, eq, eq']
  refine .withTyping _ (checkNumeric_alike h _) fun _ => ?_
  dsimp only
  have start := Quotient.alike_ofOperand first
  cases rest with
  | nil => exact start.text
  | cons second more =>
    rw [first.category]
    have divided := divideInto_alike s.seed.numeric (o.node.category == .int) start second first.text
    exact (foldl_alike (divideIntoQuotient_alike _) more divided).text

theorem quotientShape_eq (operator : String) {q q' : Quotient} {o o' : Operand}
    (hq : q.Alike L q') (ho : o.Alike L o') :
    quotientShape s' operator q' o' = quotientShape s operator q o := by
  unfold quotientShape quotientMismatch
  rw [hq.shape, ho.shape, h.id]

omit h in
theorem quotientShape_alike (operator : String) (q : Quotient) (o : Operand) :
    Effect.AllAlike L quieter s (quotientShape s operator q o).2
      (quotientShape s operator q o).2 := by
  unfold quotientShape
  split
  · exact .nil
  · exact .report

theorem quotient_alike (operator : String) {step : Quotient → Operand → Quotient}
    (one : ∀ {q q' o o'}, Quotient.Alike L q q' → Operand.Alike L o o' →
      (step q o).Alike L (step q' o')) {os os' : List Operand}
    (rest : List.Forall₂ (Operand.Alike L) os os') {q q' : Quotient} (hq : q.Alike L q') :
    (quotient s operator step q os).1.Alike L (quotient s' operator step q' os').1
      ∧ Effect.AllAlike L quieter s (quotient s operator step q os).2
        (quotient s' operator step q' os').2 := by
  induction rest generalizing q q' with
  | nil => exact ⟨hq, .nil⟩
  | @cons o o' os os' first _ ih =>
    unfold quotient
    rw [quotientShape_eq h operator hq first]
    have stepped := one hq first
    have shaped : Quotient.Alike L { step q o with shape := (quotientShape s operator q o).1 }
        { step q' o' with shape := (quotientShape s operator q o).1 } :=
      ⟨stepped.text, stepped.cls, rfl⟩
    obtain ⟨final, effects⟩ := ih shaped
    exact ⟨final, (quotientShape_alike operator q o).append effects⟩

theorem structural_agrees {operator : String}
    (separates : Text.scan .word operator.toList = some .free)
    {step : Quotient → Operand → Quotient}
    (one : ∀ {q q' o o'}, Quotient.Alike L q q' → Operand.Alike L o o' →
      (step q o).Alike L (step q' o')) (some : s.operands ≠ []) {scalars : Rule}
    (agree : Agrees L quieter s s' L.Shows (scalars s) (scalars s')) :
    Agrees L quieter s s' L.Shows (structural operator step scalars s)
      (structural operator step scalars s') := by
  obtain ⟨o, os, o', os', eq, eq', first, rest⟩ := h.cons some
  have scalar : allScalar s' = allScalar s :=
    Operand.all_eq_of_alike h.operands fun _ _ _ alike => congrArg (· == Shape.scalar) alike.shape
  obtain ⟨final, effects⟩ := quotient_alike h operator one rest (Quotient.alike_ofOperand first)
  unfold structural
  rw [h.seed, scalar, eq, eq']
  refine .ite (fun _ => .keep h .nil fun _ => h.shows_between separates) fun _ => ?_
  refine .ite (fun _ => agree) fun _ => ?_
  dsimp only
  rw [final.cls, final.shape]
  exact .typed _ ((checkNumeric_alike h _).append effects) fun _ => final.text

theorem rightDiv_agrees (some : s.operands ≠ []) :
    Agrees L quieter s s' L.Shows (rightDiv s) (rightDiv s') :=
  structural_agrees h rfl solveRight_alike some (elRightDiv_agrees h some)

theorem leftDiv_agrees (some : s.operands ≠ []) :
    Agrees L quieter s s' L.Shows (leftDiv s) (leftDiv s') :=
  structural_agrees h rfl solveLeft_alike some (elLeftDiv_agrees h some)

end

/-! ## Ranges, axes, subscripts -/

theorem shows_zeroBased {o o' : Operand} (ho : o.Alike L o') :
    L.Shows (zeroBased o) (zeroBased o') := by
  unfold zeroBased
  rw [ho.intValue?]
  split
  · exact Likeness.shows_int _
  · exact ho.text.putWord "-1" rfl

section

variable (h : s.Alike L quieter s')
include h

theorem subscripted?_eq : subscripted? s' = subscripted? s := by
  have through : ∀ s, subscripted? s = (s.parent?.map Node.bare).bind fun p =>
      if p.category.isSubscript then some p.name else none := by
    intro s
    unfold subscripted?
    cases s.parent? <;> rfl
  rw [through, h.parent?, ← through]

theorem plain_of_subscripted? {x : String} (found : subscripted? s = some x) : L.plain x := by
  unfold subscripted? at found
  split at found
  case h_2 => cases found
  case h_1 p up =>
    split at found
    case isFalse => cases found
    case isTrue subscript =>
      obtain ⟨i, -, rfl⟩ := Option.map_eq_some_iff.mp up
      cases found
      refine h.spelt.plain i ?_
      unfold Category.isSubscript at subscript
      unfold Tree.category
      split at subscript
      · next eq => rw [eq]; rfl
      · next eq => rw [eq]; rfl
      · cases subscript

theorem indexesVariable_eq : indexesVariable s' = indexesVariable s := by
  rw [indexesVariable, subscripted?_eq h, funext h.lookup, indexesVariable]

theorem rangeOfPositions_agrees :
    Agrees L quieter s s' L.Shows (rangeOfPositions s) (rangeOfPositions s') := by
  have operands := h.operands
  unfold rangeOfPositions
  generalize s.operands = os at operands
  generalize s'.operands = os' at operands
  have other : Agrees L quieter s s' L.Shows (s.typed ⟨.colvec, .uword⟩ (.join "" ":" ""))
      (s'.typed ⟨.colvec, .uword⟩ (.join "" ":" "")) :=
    .typed _ .nil fun _ => h.shows_between rfl
  rcases operands with _ | ⟨start, _ | ⟨step, _ | ⟨stop, _ | _⟩⟩⟩
  · exact other
  · exact other
  · refine .typed _ .nil fun _ => ?_
    have first := (L.opening "arma::span(" rfl).append (shows_zeroBased start)
    exact (((first.put ", " rfl).append (shows_zeroBased step)).put ")" rfl).shows
  · refine .typed _ .use fun _ => ?_
    have first := (L.opening "m2cpp::uspan(" rfl).append (shows_zeroBased start)
    have second := (first.put ", " rfl).append step.text
    exact (((second.put ", " rfl).append (shows_zeroBased stop)).put ")" rfl).shows
  · exact other

theorem rangeClass_eq (category : s.node.category = .range) : rangeClass s' = rangeClass s := by
  unfold rangeClass
  rw [h.types, h.parentCategory?, h.target category]

theorem rangeOfValues_agrees (category : s.node.category = .range) :
    Agrees L quieter s s' L.Shows (rangeOfValues s) (rangeOfValues s') := by
  have operands := h.operands
  unfold rangeOfValues
  rw [rangeClass_eq h category]
  dsimp only
  generalize (⟨.colvec, rangeClass s⟩ : Datatype) = d
  generalize eq : s.operands = os at operands ⊢
  generalize eq' : s'.operands = os' at operands ⊢
  have other : Agrees L quieter s s' L.Shows (s.typed d (.join "" ":" ""))
      (s'.typed d (.join "" ":" "")) := .typed _ .nil fun _ => h.shows_between rfl
  have type : Template.KeyAlike L { s.node with typing := .of d } { s'.node with typing := .of d }
      s.texts s'.texts "type".toList :=
    ⟨d.typeName, d.typeName, rfl, rfl, Likeness.shows_typeName d⟩
  rcases operands with _ | ⟨start, _ | ⟨step, _ | ⟨stop, _ | _⟩⟩⟩
  · exact other
  · exact other
  · refine .typed _ .use fun _ => L.weaken ?_
    have keys := List.forall_mem_cons.mpr ⟨type, Site.Alike.keys_two eq eq' start step⟩
    exact Template.like_format keys (k := 3) rfl
  · have keys := List.forall_mem_cons.mpr ⟨type, Site.Alike.keys_three eq eq' start step stop⟩
    dsimp only
    rw [step.category]
    refine .ite (fun _ => ?_) fun _ => ?_
    · exact .typed _ .use fun _ => L.weaken (Template.like_format keys (k := 4) rfl)
    · exact .typed _ .use fun _ => L.weaken (Template.like_format keys (k := 4) rfl)
  · exact other

theorem range_agrees (category : s.node.category = .range) :
    Agrees L quieter s s' L.Shows (range s) (range s') := by
  unfold range
  rw [indexesVariable_eq h]
  exact .ite (fun _ => rangeOfPositions_agrees h) fun _ => rangeOfValues_agrees h category

omit h in
/-- The member that holds the extent of an axis. -/
theorem like_axisExtent {axis : Option Nat} {extent : String}
    (found : axis.bind axisExtent? = some extent) : L.like .free extent extent .word := by
  obtain ⟨k, -, named⟩ := Option.bind_eq_some_iff.mp found
  unfold axisExtent? at named
  split at named <;> first | cases named; done | (cases named; exact L.fixed (by decide))

theorem all_agrees : Agrees L quieter s s' L.Shows (all s) (all s') := by
  unfold all
  rw [subscripted?_eq h, h.id, Tree.position?_of_bare h.bare]
  dsimp only
  split
  case h_1 name extent found axis =>
    refine .typed _ .use fun _ => ?_
    have named := Likeness.Shows.name (plain_of_subscripted? h found)
    have owner := ((L.opening "m2cpp::uspan(0, " rfl).append named).put "." rfl
    exact ((owner.append (like_axisExtent axis)).put "-1)" rfl).shows
  case h_2 => exact .typed _ .nil fun _ => .word L "span::all" rfl

theorem extentOwner?_eq (argument : NodeId) (ids : List NodeId) :
    extentOwner? s' argument ids = extentOwner? s argument ids := by
  have category : ∀ i, (s'.tree.node i).category = (s.tree.node i).category :=
    congrFun (Tree.category_of_bare h.bare)
  have gives : ∀ i, givesExtent s' (s'.tree.node i) = givesExtent s (s.tree.node i) := by
    intro i
    rw [givesExtent, category, Tree.name_of_bare h.bare, h.isVariable, givesExtent]
  induction ids generalizing argument with
  | nil => rfl
  | cons a rest ih => rw [extentOwner?, gives, category, ih, extentOwner?]

omit h in
theorem isNamed_of_extentOwner? {argument owner at_ : NodeId} {ids : List NodeId}
    (found : extentOwner? s argument ids = some (owner, at_)) :
    (s.tree.category owner).isNamed := by
  induction ids generalizing argument with
  | nil => cases found
  | cons a rest ih =>
    unfold extentOwner? at found
    split at found
    case isTrue gives =>
      cases found
      rcases Bool.or_eq_true _ _ |>.mp gives with set | get
      · rw [Tree.category, eq_of_beq set]
        rfl
      · rw [Tree.category, eq_of_beq (Bool.and_eq_true _ _ |>.mp get).1]
        rfl
    case isFalse =>
      split at found
      · cases found
      · exact ih found

theorem last_agrees : Agrees L quieter s s' L.Shows (last s) (last s') := by
  unfold last
  rw [h.id, Tree.ancestors_of_bare h.bare, extentOwner?_eq h]
  split
  case h_1 => exact .keep h .report fun _ => .word L "end" rfl
  case h_2 owner argument found =>
    rw [Tree.position?_of_bare h.bare, Tree.name_of_bare h.bare]
    dsimp only
    split
    case h_1 extent axis =>
      refine .typed _ .nil fun _ => ?_
      have named := Likeness.Shows.name (h.spelt.plain owner (isNamed_of_extentOwner? found))
      exact (named.put "." rfl).append (like_axisExtent axis)
    case h_2 => exact .typed _ .report fun _ => .word L "end" rfl

omit h in
theorem shows_indexText {o o' : Operand} (ho : o.Alike L o') :
    L.Shows (indexText o) (indexText o') := by
  unfold indexText
  rw [ho.category]
  split
  · exact ho.text
  · exact shows_zeroBased ho

omit h in
theorem isPoint_eq {o o' : Operand} (ho : o.Alike L o') : isPoint o' = isPoint o := by
  rw [isPoint, ho.category, ho.shape, isPoint]

theorem subscript_agrees (named : s.node.category.isNamed) :
    Agrees L quieter s s' L.Shows (subscript s) (subscript s') := by
  have points : s'.operands.map isPoint = s.operands.map isPoint :=
    Operand.map_eq_of_alike h.operands fun _ _ _ alike => isPoint_eq alike
  have indices : List.Forall₂ L.Shows (s.operands.map indexText) (s'.operands.map indexText) :=
    List.forall₂_map_left_iff.mpr
      (List.forall₂_map_right_iff.mpr (h.operands.imp fun _ _ alike => shows_indexText alike))
  unfold subscript
  rw [h.name, h.lookup, points]
  split
  case h_1 => exact .keep h .nil fun _ => h.shows_verbatim named
  case h_2 d _ =>
    have text : L.Shows (s.name ++ "(" ++ Text.joined ", " (s.operands.map indexText) ++ ")")
        (s.name ++ "(" ++ Text.joined ", " (s'.operands.map indexText) ++ ")") := by
      have name := (Likeness.Shows.name (h.plain named)).put "(" rfl
      have arguments : L.Shows (Text.joined ", " (s.operands.map indexText))
          (Text.joined ", " (s'.operands.map indexText)) := Likeness.shows_joined rfl indices
      exact ((name.append arguments).put ")" rfl).shows
    dsimp only
    exact .ite (fun _ => .typed _ .nil fun _ => text) fun _ => .keep h .nil fun _ => text

end

/-! ## Assignments -/

/-- Operands of the same names meet the same reserved name. -/
theorem checked_agrees {R : String → String → Prop} {ds ds' : List Operand}
    (same : ds'.map (·.node.name) = ds.map (·.node.name)) (names : ∀ d ∈ ds, s.tree.Names d.node.name)
    {answer answer' : PUnit → Except Error Outcome}
    (agree : (∀ d ∈ ds, Builtin.isReserved d.node.name = false) →
      Agrees L quieter s s' R (answer ⟨⟩) (answer' ⟨⟩)) :
    Agrees L quieter s s' R (checkDestinations ds >>= answer)
      (checkDestinations ds' >>= answer') := by
  unfold checkDestinations reservedDestination?
  rw [same]
  cases found : (ds.map (·.node.name)).find? Builtin.isReserved with
  | some name =>
    obtain ⟨d, mem, rfl⟩ := List.mem_map.mp (List.mem_of_find?_eq_some found)
    refine .fails fun L spelt => ?_
    have named := Likeness.Shows.name (spelt.of_names (names d mem))
    exact ((L.opening "Variable name '" rfl).append named).putWord
      "' is reserved, please rename the variable" rfl
  | none =>
    refine agree fun d mem => ?_
    have other := List.find?_eq_none.mp found _ (List.mem_map_of_mem mem)
    exact Bool.eq_false_iff.mpr other

theorem names_eq {os os' : List Operand} (alike : List.Forall₂ (Operand.Alike L) os os') :
    os'.map (·.node.name) = os.map (·.node.name) :=
  Operand.map_eq_of_alike alike fun _ _ _ alike => alike.name

section

variable (h : s.Alike L quieter s')
include h

/-- The name of an operand that has one. -/
theorem names_of_mem {o : Operand} (mem : o ∈ s.operands) (named : o.node.category.isNamed) :
    s.tree.Names o.node.name := by
  rw [h.sound.node o mem] at named ⊢
  exact ⟨o.id, named, rfl⟩

theorem plain_of_mem {o : Operand} (mem : o ∈ s.operands) (named : o.node.category.isNamed) :
    L.plain o.node.name := h.spelt.of_names (names_of_mem h mem named)

omit h in
theorem isNamed_of_isDestination {c : Category} (h : c.isDestination) : c.isNamed := by
  cases c with
  | var | set => rfl
  | _ => cases h

/-- The destination and the value of an assignment, at both sites. -/
theorem two (category : s.node.category = .assign) : ∃ d v d' v', s.operands = [d, v]
    ∧ s'.operands = [d', v'] ∧ d.Alike L d' ∧ v.Alike L v' ∧ d.node.category.isDestination := by
  obtain ⟨d, v, eq⟩ := assign_operands h.sound category
  have admits := h.sound.admits
  have operands := h.operands
  rw [category, eq] at admits
  rw [eq] at operands
  generalize eq' : s'.operands = os' at operands
  rcases operands with _ | ⟨first, _ | ⟨second, _ | _⟩⟩
  exact ⟨d, v, _, _, eq, rfl, first, second, (Bool.and_eq_true _ _ |>.mp admits).1⟩

omit h in
theorem binding_alike (category : s.node.category = .assign) {d v d' v' : Operand}
    (eq : s.operands = [d, v]) (first : d.Alike L d') (second : v.Alike L v') :
    Effect.AllAlike L quieter s (binding d v.datatype) (binding d' v'.datatype) := by
  unfold binding
  rw [first.category, first.name, second.datatype]
  split
  case isTrue var =>
    have takes : s.Takes d := ⟨.inl category, by rw [eq]; exact List.mem_singleton_self d⟩
    exact .cons (.record takes (eq_of_beq var)) .nil
  case isFalse => exact .nil

theorem assign_agrees (category : s.node.category = .assign) :
    Agrees L quieter s s' L.prints (assign s) (assign s') := by
  obtain ⟨d, v, d', v', eq, eq', first, second, destination⟩ := two h category
  have named : s.tree.Names d.node.name :=
    names_of_mem h (by simp [eq]) (isNamed_of_isDestination destination)
  unfold assign
  rw [eq, eq']
  refine checked_agrees (names_eq (.cons first .nil)) (by simpa using named) fun _ => ?_
  refine .keep h (binding_alike category eq first second) fun _ => ?_
  rw [Site.texts, eq, Site.texts, eq']
  simp only [List.map_cons, Template.render_assign]
  exact ((first.text.put " = " rfl).append second.text).ends " ;" rfl (by decide)

theorem statement_agrees (category : s.node.category = .statement) :
    Agrees L quieter s s' L.prints (statement s) (statement s') := by
  have some : s.operands ≠ [] := by
    intro none
    have admits := h.sound.admits
    rw [category, none] at admits
    cases admits
  obtain ⟨o, os, o', os', eq, eq', first, -⟩ := h.cons some
  refine .keep h .nil fun _ => ?_
  rw [Site.texts, eq, Site.texts, eq']
  simp only [List.map_cons, Template.render_statement]
  exact first.text.ends " ;" rfl (by decide)

omit h in
/-- A list that is alike to one with a last element has one too. -/
theorem exists_concat {ds os' : List Operand} {v : Operand}
    (alike : List.Forall₂ (Operand.Alike L) (ds ++ [v]) os') : ∃ ds' v', os' = ds' ++ [v']
      ∧ List.Forall₂ (Operand.Alike L) ds ds' ∧ v.Alike L v' := by
  induction ds generalizing os' with
  | nil =>
    rcases alike with _ | ⟨last, _ | _⟩
    exact ⟨[], _, rfl, .nil, last⟩
  | cons d ds ih =>
    rcases alike with _ | ⟨first, rest⟩
    obtain ⟨ds', v', rfl, alike, last⟩ := ih rest
    exact ⟨_ :: ds', v', rfl, .cons first alike, last⟩

/-- The destinations and the value of a multi-value assignment, at both sites. -/
theorem several (category : s.node.category = .assigns) : ∃ ds v ds' v',
    s.operands = ds ++ [v] ∧ s'.operands = ds' ++ [v']
      ∧ List.Forall₂ (Operand.Alike L) ds ds' ∧ v.Alike L v'
      ∧ (∀ d ∈ ds, s.tree.Names d.node.name) ∧ ∀ d ∈ ds, s.Takes d := by
  obtain ⟨ds, v, eq⟩ := assigns_operands h.sound category
  have admits := h.sound.admits
  have operands := h.operands
  rw [category, eq, List.map_append, List.map_singleton, Category.admits_assigns,
    Bool.and_eq_true, List.all_map, List.all_eq_true] at admits
  rw [eq] at operands
  obtain ⟨ds', v', eq', alike, last⟩ := exists_concat operands
  refine ⟨ds, v, ds', v', eq, eq', alike, last, fun d mem => ?_, fun d mem => ⟨.inr category, ?_⟩⟩
  · have there : d ∈ s.operands := eq ▸ List.mem_append_left _ mem
    exact names_of_mem h there (isNamed_of_isDestination (admits.1 d mem))
  · rw [eq, List.dropLast_concat]
    exact mem

theorem isForeignCall_eq {v v' : Operand} (last : v.Alike L v') :
    isForeignCall s' v'.node = isForeignCall s v.node := by
  rw [isForeignCall, last.category, last.name, h.isVariable, isForeignCall]

/-- Texts of the children of an operand. -/
theorem arguments_alike {v v' : Operand} (mem : v ∈ s.operands) (last : v.Alike L v') :
    List.Forall₂ L.Shows (v.node.children.map fun a => (s.tree.node a).text)
      (v'.node.children.map fun a => (s'.tree.node a).text) := by
  have reach := h.reach v mem
  rw [last.children]
  generalize v.node.children = cs at reach
  induction cs with
  | nil => exact .nil
  | cons c cs ih =>
    obtain ⟨here, there⟩ := List.forall_mem_cons.mp reach
    exact .cons here.2 (ih there)

theorem assigns_agrees (category : s.node.category = .assigns) :
    Agrees L quieter s s' L.prints (assigns s) (assigns s') := by
  obtain ⟨ds, v, ds', v', eq, eq', alike, last, names, -⟩ := several h category
  have there : v ∈ s.operands := by simp [eq]
  have outputs := Operand.texts_alike alike
  unfold assigns
  rw [eq, eq', splitLast?_append, splitLast?_append]
  refine checked_agrees (names_eq alike) names fun _ => ?_
  dsimp only
  rw [isForeignCall_eq h last, last.name, h.id]
  refine .ite (fun foreign => .keep h .nil fun _ => ?_) fun _ => .keep h .report fun _ => ?_
  · have named : v.node.category.isNamed := by
      have call := (Bool.and_eq_true _ _ |>.mp (Bool.and_eq_true _ _ |>.mp foreign).1).1
      rcases Bool.or_eq_true _ _ |>.mp call with get | var
      · rw [eq_of_beq get]
        rfl
      · rw [eq_of_beq var]
        rfl
    have arguments := List.rel_append (arguments_alike h there last) outputs
    have opened := (Likeness.Shows.name (plain_of_mem h there named)).put "(" rfl
    exact (opened.append (Likeness.shows_joined (j := ", ") rfl arguments)).ends ") ;" rfl (by decide)
  · have opened := (L.opening "[" rfl).append (Likeness.shows_joined (j := ", ") rfl outputs)
    exact ((opened.put "] = " rfl).append last.text).ends " ;" rfl (by decide)

end

/-! ## Definitions -/

section

variable (h : s.Akin L s')
include h

theorem declaredType_eq (x : String) : declaredType s' x = declaredType s x := by
  rw [declaredType, h.lookup, declaredType]

theorem namesOf_eq {o o' : Operand} (bare : o'.node.bare = o.node.bare) :
    namesOf s' o' = namesOf s o := by
  have children := congrArg Node.children bare
  rw [namesOf, show o'.node.children = o.node.children from children, namesOf]
  exact List.map_congr_left fun c _ => Tree.name_of_bare h.bare c

/-- The names of parameters and of outputs are names of the script. -/
theorem plain_of_child {id : NodeId} (lt : id < s.tree.size)
    (category : s.tree.category id = .params ∨ s.tree.category id = .returns) :
    ∀ c ∈ s.tree.children id, L.plain (s.tree.node c).name := by
  intro c child
  have vars : ((s.tree.children id).map s.tree.category).all (· == .var) := by
    have admits := (h.wellFormed.shaped id lt).children
    rcases category with params | returns
    · rwa [params] at admits
    · rwa [returns] at admits
  have var := List.all_eq_true.mp vars _ (List.mem_map_of_mem child)
  refine h.spelt.plain c ?_
  rw [eq_of_beq var]
  rfl

theorem plain_of_namesOf {o : Operand} (mem : o ∈ s.operands)
    (category : o.node.category = .params ∨ o.node.category = .returns) :
    ∀ x ∈ namesOf s o, L.plain x := by
  intro x there
  obtain ⟨c, child, rfl⟩ := List.mem_map.mp there
  have node := h.sound.node o mem
  rw [node] at child category
  exact plain_of_child h (h.sound.operand o mem) category c child

omit h in
theorem shows_declared {d x : String} (type : L.Shows d d) (plain : L.plain x) :
    L.Shows (d ++ " " ++ x) (d ++ " " ++ x) :=
  (type.append (L.fixed (e := .gap) rfl)).append (L.named plain nofun)

omit h in
theorem shows_declaredType (s : Site) (x : String) :
    L.Shows (declaredType s x) (declaredType s x) := Likeness.shows_typeName _

omit h in
theorem shows_parameters {xs : List String} {write : Site → String → String}
    (one : ∀ x ∈ xs, L.Shows (write s x) (write s x)) :
    List.Forall₂ L.Shows (xs.map (write s)) (xs.map (write s)) := by
  induction xs with
  | nil => exact .nil
  | cons x xs ih =>
    obtain ⟨first, rest⟩ := List.forall_mem_cons.mp one
    exact .cons first (ih rest)

omit h in
theorem line_return {output : String} (plain : L.plain output) :
    L.line ("return " ++ output ++ " ;") ("return " ++ output ++ " ;") := by
  have named := (L.fixed (a := "return ") (m := .free) (e := .gap) rfl).append (L.named plain nofun)
  refine L.line_of_like (named.put " ;" rfl) ?_
  simp

omit h in
/-- Whether a body ends with a way out is the same for lines that are alike. -/
theorem returning_alike {output : String} (plain : L.plain output) {ls ls' : List String}
    (alike : List.Forall₂ L.line ls ls') :
    List.Forall₂ L.line (returning output ls) (returning output ls') := by
  have starts : ls'.map (·.startsWith "return") = ls.map (·.startsWith "return") := by
    induction alike with
    | nil => rfl
    | cons first _ ih => rw [List.map_cons, List.map_cons, ih, L.returns first]
  have last : ls'.getLast?.any (·.startsWith "return") = ls.getLast?.any (·.startsWith "return") := by
    have through : ∀ ls : List String, ls.getLast?.any (·.startsWith "return")
        = (ls.map (·.startsWith "return")).getLast?.any fun b => b := by
      intro ls
      rw [List.getLast?_map]
      cases ls.getLast? <;> rfl
    rw [through, starts, ← through]
  unfold returning
  rw [last]
  split
  · exact alike
  · exact List.rel_append alike (.cons (line_return plain) .nil)

omit h in
/-- At most one line is put behind a body. -/
theorem exists_returning {output : String} (plain : L.plain output) (body : List String) :
    ∃ back, returning output body = body ++ back ∧ ∀ l ∈ back, L.line l l := by
  unfold returning
  split
  · exact ⟨[], (List.append_nil body).symm, nofun⟩
  · exact ⟨_, rfl, List.forall_mem_singleton.mpr (line_return plain)⟩

omit h in
theorem definition_alike {head : String} (first : L.line head head) {ls ls' : List String}
    (alike : List.Forall₂ L.line ls ls') : L.prints (definition head ls) (definition head ls') := by
  have opening : L.line "\x7b" "\x7b" := L.line_of_like (L.opening "\x7b" rfl) (by decide)
  have closing : L.line "\x7d" "\x7d" := L.line_of_like (L.opening "\x7d" rfl) (by decide)
  exact L.joined (.cons first (.cons opening (List.rel_append alike (.cons closing .nil))))

section

variable (named : s.node.category.isNamed) {p r b : Operand} (eq : s.operands = [p, r, b])
  (params : p.node.category = .params) (returns : r.node.category = .returns)
include named eq params

/-- The first line of a function that returns a value. -/
theorem line_returningHead (output : String) :
    L.line (declaredType s output ++ " " ++ s.name ++ "("
        ++ Text.joined ", " ((namesOf s p).map (parameter s)) ++ ")")
      (declaredType s output ++ " " ++ s.name ++ "("
        ++ Text.joined ", " ((namesOf s p).map (parameter s)) ++ ")") := by
  have shown : List.Forall₂ L.Shows ((namesOf s p).map (parameter s))
      ((namesOf s p).map (parameter s)) :=
    shows_parameters fun x mem =>
      shows_declared (shows_declaredType s x) (plain_of_namesOf h (by simp [eq]) (.inl params) x mem)
  have typed := shows_declared (shows_declaredType s output) (h.plain named)
  have head := (typed.put "(" rfl).append (Likeness.shows_joined (j := ", ") rfl shown)
  refine L.line_of_like (head.put ")" rfl) ?_
  simp

include returns

/-- The first line of a function with reference parameters for its outputs. -/
theorem line_voidHead :
    L.line ("void " ++ s.name ++ "(" ++ Text.joined ", "
        ((namesOf s p).map (parameter s) ++ (namesOf s r).map (reference s)) ++ ")")
      ("void " ++ s.name ++ "(" ++ Text.joined ", "
        ((namesOf s p).map (parameter s) ++ (namesOf s r).map (reference s)) ++ ")") := by
  have shown : List.Forall₂ L.Shows ((namesOf s p).map (parameter s))
      ((namesOf s p).map (parameter s)) :=
    shows_parameters fun x mem =>
      shows_declared (shows_declaredType s x) (plain_of_namesOf h (by simp [eq]) (.inl params) x mem)
  have shown' : List.Forall₂ L.Shows ((namesOf s r).map (reference s))
      ((namesOf s r).map (reference s)) :=
    shows_parameters fun x mem =>
      ((shows_declaredType s x).append (L.fixed (a := "& ") (e := .free) rfl)).append
        (Likeness.Shows.name (plain_of_namesOf h (by simp [eq]) (.inr returns) x mem))
  have typed := (L.fixed (a := "void ") (m := .free) (e := .gap) rfl).append
    (L.named (h.plain named) nofun)
  have head := (typed.put "(" rfl).append
    (Likeness.shows_joined (j := ", ") rfl (List.rel_append shown shown'))
  refine L.line_of_like (head.put ")" rfl) ?_
  simp

/-- A function is defined alike where its names are the same and the texts of its bodies
are alike; nothing else of its parts is read. -/
theorem function_agrees {p' r' b' : Operand} (eq' : s'.operands = [p', r', b'])
    (bare : p'.node.bare = p.node.bare) (bare' : r'.node.bare = r.node.bare)
    (body : L.prints b.text b'.text) :
    Agrees L quieter s s' L.prints (function s) (function s') := by
  have arguments : parameter s' = parameter s :=
    funext fun x => by rw [parameter, declaredType_eq h, parameter]
  have references : reference s' = reference s :=
    funext fun x => by rw [reference, declaredType_eq h, reference]
  have lines := L.lines body
  unfold function
  rw [eq, eq']
  dsimp only
  rw [namesOf_eq h bare, namesOf_eq h bare', h.name, arguments, references]
  split
  case h_1 output names =>
    have plain := plain_of_namesOf h (o := r) (by simp [eq]) (.inr returns) output (by simp [names])
    rw [declaredType_eq h]
    exact .answers h.seed .nil fun _ => definition_alike
      (line_returningHead h named eq params output) (returning_alike plain lines)
  case h_2 =>
    exact .answers h.seed .nil fun _ => definition_alike
      (line_voidHead h named eq params returns) lines

/-- The text of a function: its first line, and the lines of its body in braces, at most
one of them added. -/
theorem function_written : ∃ o head back, function s = .ok o ∧ o.effects = []
    ∧ s.written o = Text.joined "\n" (head :: "\x7b" :: (Text.lines b.text ++ back) ++ ["\x7d"])
    ∧ L.line head head ∧ ∀ l ∈ back, L.line l l := by
  unfold function
  rw [eq]
  dsimp only
  split
  case h_1 output names =>
    have plain := plain_of_namesOf h (o := r) (by simp [eq]) (.inr returns) output (by simp [names])
    obtain ⟨back, eq', lines⟩ := exists_returning plain (Text.lines b.text)
    rw [eq']
    exact ⟨_, _, back, rfl, rfl, rfl, line_returningHead h named eq params output, lines⟩
  case h_2 =>
    exact ⟨_, _, [], rfl, rfl, by rw [List.append_nil]; rfl,
      line_voidHead h named eq params returns, nofun⟩

end

end

section

variable (h : s.Alike L quieter s')
include h

theorem names_agrees : Agrees L quieter s s' L.Shows (names s) (names s') :=
  .keep h .nil fun _ => h.shows_between rfl

theorem outputsAround?_eq : outputsAround? s' = outputsAround? s := by
  have children := Tree.children_of_bare h.bare
  unfold outputsAround?
  rw [h.id, Tree.enclosingFunction?_of_bare h.bare]
  cases s.tree.enclosingFunction? s.id with
  | none => rfl
  | some f =>
    dsimp only
    rw [Tree.child?, children, Tree.child?]
    cases (s.tree.children f)[1]? with
    | none => rfl
    | some returns =>
      exact congrArg some (List.map_congr_left fun c _ => Tree.name_of_bare h.bare c)

/-- What a function gives out are names of the script. -/
theorem plain_of_outputsAround? {outputs : List String} (found : outputsAround? s = some outputs) :
    ∀ x ∈ outputs, L.plain x := by
  unfold outputsAround? at found
  split at found
  case h_1 => cases found
  case h_2 f enclosing =>
    split at found
    case h_1 => cases found
    case h_2 returns second =>
      cases found
      have function : s.tree.category f = .function := by
        have is := List.find?_some enclosing
        exact eq_of_beq is
      have lt : f < s.tree.size := by
        rcases Nat.lt_or_ge f s.tree.size with lt | ge
        · exact lt
        · rw [Tree.category, Tree.node_of_size_le ge] at function
          cases function
      have shaped := (h.wellFormed.shaped f lt).children
      have parts : (s.tree.children f).map s.tree.category = [.params, .returns, .block] := by
        rw [function] at shaped
        exact eq_of_beq shaped
      have category : s.tree.category returns = .returns := by
        have at_ := congrArg (·[1]?) parts
        rw [Tree.child?] at second
        simpa [second] using at_
      have bound : returns < s.tree.size :=
        h.wellFormed.bound f returns (List.mem_of_getElem? second)
      intro x mem
      obtain ⟨c, child, rfl⟩ := List.mem_map.mp mem
      exact plain_of_child h.toAkin bound (.inr category) c child

theorem ret_agrees : Agrees L quieter s s' L.prints (ret s) (ret s') := by
  unfold ret
  rw [outputsAround?_eq h]
  split
  case h_1 output found =>
    refine .keep h .nil fun _ => ?_
    have plain := plain_of_outputsAround? h found output (List.mem_singleton_self output)
    have named := (L.fixed (a := "return ") (m := .free) (e := .gap) rfl).append
      (L.named plain nofun)
    exact named.ends " ;" rfl (by decide)
  case h_2 =>
    exact .keep h .nil fun _ => L.prints_fixed "return ;" rfl (by decide)

theorem brk_agrees : Agrees L quieter s s' L.prints (brk s) (brk s') :=
  .keep h .nil fun _ => L.prints_fixed "break ;" rfl (by decide)

end

/-! ## Literals -/

section

variable (h : s.Alike L quieter s')
include h

/-- A literal has a text of its kind. -/
theorem exists_value (literal : s.node.category.isLiteral) :
    ∃ v, s.node.value = some v ∧ s.node.category.spells v := by
  have shaped := h.wellFormed.shaped s.id h.sound.self
  have value := shaped.value
  rw [show s.tree.category s.id = s.node.category from rfl, literal] at value
  obtain ⟨v, eq⟩ := Option.isSome_iff_exists.mp value
  exact ⟨v, eq, shaped.spelled v eq⟩

theorem value_agrees {d : Datatype} {v : String} (eq : s.node.value = some v)
    (numerals : ∀ c ∈ v.toList, Token.isNumeral c) :
    Agrees L quieter s s' L.Shows (s.typed d (.format "%(value)s"))
      (s'.typed d (.format "%(value)s")) := by
  have eq' : s'.node.value = some v := h.value.trans eq
  have shown : ∀ {n : Node} {ts : List String}, n.value = some v →
      Template.render n ts (.format "%(value)s") = v := Template.render_value _ _
  refine .typed _ .nil fun _ => ?_
  rw [shown (n := { s.node with typing := .of d }) eq,
    shown (n := { s'.node with typing := .of d }) eq']
  exact Likeness.shows_numerals numerals

theorem int_agrees (category : s.node.category = .int) :
    Agrees L quieter s s' L.Shows (int s) (int s') := by
  obtain ⟨v, eq, spells⟩ := exists_value h (by rw [category]; rfl)
  rw [category] at spells
  exact value_agrees h eq (List.all_eq_true.mp (Token.all_isNumeral (eq_of_beq spells) nofun))

theorem float_agrees (category : s.node.category = .float) :
    Agrees L quieter s s' L.Shows (float s) (float s') := by
  obtain ⟨v, eq, spells⟩ := exists_value h (by rw [category]; rfl)
  rw [category] at spells
  exact value_agrees h eq (List.all_eq_true.mp (Token.all_isNumeral (eq_of_beq spells) nofun))

omit h in
/-- Without its mark an imaginary number has nothing but numerals. -/
theorem isNumeral_of_magnitude {v : String}
    (spells : Token.numberAt? v.toList = some (.imag, v.toList.length)) :
    ∀ c ∈ (magnitude v).toList, Token.isNumeral c := by
  obtain ⟨front, mark, eq, numerals, imaginary⟩ := Token.exists_mark_of_imag spells
  have dropped : (mark == 'i' || mark == 'j') = true := by
    rcases imaginary with rfl | rfl <;> rfl
  intro c mem
  rw [magnitude, String.toList_ofList, eq, List.reverse_append, List.reverse_singleton,
    List.singleton_append, List.dropWhile_cons, if_pos dropped, List.mem_reverse] at mem
  have there := List.mem_reverse.mp ((List.dropWhile_suffix _).subset mem)
  exact List.all_eq_true.mp numerals c there

theorem imag_agrees (category : s.node.category = .imag) :
    Agrees L quieter s s' L.Shows (imag s) (imag s') := by
  obtain ⟨v, eq, spells⟩ := exists_value h (by rw [category]; rfl)
  rw [category] at spells
  unfold imag
  rw [h.value, eq]
  refine .typed _ .nil fun _ => ?_
  have numerals := isNumeral_of_magnitude (eq_of_beq spells)
  exact (((L.opening "cx_double(0, " rfl).append (Likeness.shows_numerals numerals)).put ")" rfl).shows

theorem string_agrees (category : s.node.category = .str) :
    Agrees L quieter s s' L.Shows (string s) (string s') := by
  obtain ⟨v, eq, -⟩ := exists_value h (by rw [category]; rfl)
  unfold string
  rw [h.value, eq]
  exact .typed _ .nil fun _ => L.weaken (L.string (h.spelt.quotable s.id v category eq))

theorem var_agrees (category : s.node.category = .var) :
    Agrees L quieter s s' L.Shows (var s) (var s') := by
  have plain : L.plain s.node.name := h.plain (by rw [category]; rfl)
  have name : s'.node.name = s.node.name := h.name
  unfold var
  rw [h.name, h.lookup]
  split
  · refine .typed _ .nil fun _ => ?_
    rw [Template.render_name, Template.render_name]
    show L.Shows s.node.name s'.node.name
    rw [name]
    exact .name plain
  · refine .keep h .nil fun _ => ?_
    rw [Template.render_name, Template.render_name, name]
    exact .name plain

/-! ### Matrices -/

omit h in
theorem shows_braced {a a' : String} (shows : L.Shows a a') : L.Shows (braced a) (braced a') :=
  (((L.opening "\x7b" rfl).append shows).put "\x7d" rfl).shows

omit h in
theorem shows_bracedAll {ts ts' : List String} (shows : List.Forall₂ L.Shows ts ts') :
    List.Forall₂ L.Shows (ts.map braced) (ts'.map braced) :=
  List.forall₂_map_left_iff.mpr
    (List.forall₂_map_right_iff.mpr (shows.imp fun _ _ shows => shows_braced shows))

omit h in
theorem shows_initialiser (d : Datatype) {a a' : String} (shows : L.Shows a a') :
    L.Shows (initialiser d a) (initialiser d a') := by
  have type := ((L.opening "arma::" rfl).append (Likeness.shows_typeName d)).put "(" rfl
  exact ((type.append (shows_braced shows)).put ")" rfl).shows

theorem scalar_eq : s'.operands.all (·.shape == .scalar) = s.operands.all (·.shape == .scalar) :=
  Operand.all_eq_of_alike h.operands fun _ _ _ alike => congrArg (· == Shape.scalar) alike.shape

theorem row_agrees : Agrees L quieter s s' L.Shows (row s) (row s') := by
  have operands := h.operands
  have scalar := scalar_eq h
  have flat : s'.operands.all (fun e => e.shape == .scalar || e.shape == .rowvec)
      = s.operands.all fun e => e.shape == .scalar || e.shape == .rowvec :=
    Operand.all_eq_of_alike h.operands fun o _ o' alike => by
      show (o'.shape == _ || o'.shape == _) = (o.shape == _ || o.shape == _)
      rw [alike.shape]
  unfold row
  rw [h.types, scalar, flat]
  generalize eq : s.operands = os at operands ⊢
  generalize eq' : s'.operands = os' at operands ⊢
  rcases operands with _ | ⟨first, _ | ⟨second, rest⟩⟩
  · exact .keep h .nil fun _ => L.weaken (L.opening "" rfl)
  · dsimp only
    rw [first.typing]
    refine .withTyping _ .nil fun _ => ?_
    exact Template.like_format (Site.Alike.keys_one eq eq' first) (k := 1) rfl
  · dsimp only
    have texts := Operand.texts_alike (.cons second rest)
    have joined := Likeness.shows_nested (L := L) (f := "arma::join_rows") (by decide) texts
      first.text
    refine .ite (fun _ => .typed _ .nil fun _ => ?_) fun _ => ?_
    · have inner : L.Shows (Text.joined ", " s.texts) (Text.joined ", " s'.texts) :=
        Likeness.shows_joined rfl h.texts
      exact ((L.opening "" rfl).append inner).putWord "" rfl
    · refine .ite (fun _ => .typed _ .nil fun _ => joined) fun _ => .keep h .nil fun _ => joined

theorem isPlain_eq {o o' : Operand} (mem : o ∈ s.operands) (alike : o.Alike L o') :
    isPlain s' o' = isPlain s o := by
  have reach := h.reach o mem
  have each : ∀ c ∈ o.node.children,
      (((s'.tree.node c).shape == .scalar || (s'.tree.node c).shape == .unknown)
          && (s'.tree.node c).category != .range)
        = (((s.tree.node c).shape == .scalar || (s.tree.node c).shape == .unknown)
          && (s.tree.node c).category != .range) := by
    intro c child
    have shape : (s'.tree.node c).shape = (s.tree.node c).shape :=
      congrArg (·.datatype.shape) (reach c child).1
    have category : (s'.tree.node c).category = (s.tree.node c).category :=
      congrFun (Tree.category_of_bare h.bare) c
    rw [shape, category]
  unfold isPlain elementsOf
  rw [alike.children, List.all_map, List.all_map]
  generalize o.node.children = cs at each
  induction cs with
  | nil => rfl
  | cons c cs ih =>
    obtain ⟨here, there⟩ := List.forall_mem_cons.mp each
    rw [List.all_cons, List.all_cons, ih there]
    exact congrArg (· && _) here

omit h in
theorem widthOf_eq {o o' : Operand} (alike : o.Alike L o') : widthOf o' = widthOf o :=
  congrArg List.length alike.children

theorem plainMatrix_agrees (some : s.operands ≠ []) (d : Datatype) :
    Agrees L quieter s s' L.Shows (plainMatrix d s) (plainMatrix d s') := by
  obtain ⟨o, os, o', os', eq, eq', first, rest⟩ := h.cons some
  have single : s'.operands.all (widthOf · = 1) = s.operands.all (widthOf · = 1) :=
    Operand.all_eq_of_alike h.operands fun _ _ _ alike => by rw [widthOf_eq alike]
  have joined : L.Shows (Text.joined ", " s.texts) (Text.joined ", " s'.texts) :=
    Likeness.shows_joined rfl h.texts
  have stacked : L.Shows (Text.joined ", " (s.texts.map braced))
      (Text.joined ", " (s'.texts.map braced)) :=
    Likeness.shows_joined rfl (shows_bracedAll h.texts)
  have ragged : os'.any (widthOf · ≠ widthOf o') = os.any (widthOf · ≠ widthOf o) :=
    Operand.any_eq_of_alike rest fun _ _ _ alike => by rw [widthOf_eq alike, widthOf_eq first]
  unfold plainMatrix
  rw [single, h.id, eq, eq']
  cases rest with
  | nil =>
    dsimp only
    rw [widthOf_eq first]
    refine .ite (fun _ => .typed _ .nil fun _ => ?_) fun _ => .typed _ .nil fun _ => ?_
    · exact Template.like_format (Site.Alike.keys_one eq eq' first) (k := 1) rfl
    · exact shows_initialiser _ first.text
  | cons =>
    dsimp only
    rw [ragged]
    refine .ite (fun _ => .typed _ .nil fun _ => shows_initialiser _ joined) fun _ => ?_
    exact .typed _ (.ite .report .nil) fun _ => shows_initialiser _ stacked

theorem shows_stackedRow {o o' : Operand} (mem : o ∈ s.operands) (alike : o.Alike L o') :
    L.Shows (stackedRow s o) (stackedRow s' o') := by
  unfold stackedRow
  rw [isPlain_eq h mem alike, widthOf_eq alike, alike.cls]
  split
  · exact shows_initialiser _ alike.text
  · exact alike.text

theorem stackedTyping_eq (d : Datatype) : stackedTyping d s' = stackedTyping d s := by
  have operands := h.operands
  have vectors : ∀ {os os' : List Operand}, List.Forall₂ (Operand.Alike L) os os' →
      stackedShape os' = stackedShape os := by
    intro os os' alike
    have columns : os'.all (fun r => r.shape == .scalar || r.shape == .colvec)
        = os.all fun r => r.shape == .scalar || r.shape == .colvec :=
      Operand.all_eq_of_alike alike fun o _ o' alike => by
        show (o'.shape == _ || o'.shape == _) = (o.shape == _ || o.shape == _)
        rw [alike.shape]
    unfold stackedShape
    rw [columns]
    rcases alike with _ | ⟨first, _ | _⟩
    · rfl
    · exact first.shape
    · rfl
  unfold stackedTyping
  rw [vectors operands, h.seed]
  split
  · rfl
  · generalize s.operands = os at operands
    generalize s'.operands = os' at operands
    rcases operands with _ | ⟨first, _ | _⟩
    · rfl
    · dsimp only
      rw [first.numeric]
    · rfl

theorem stackedMatrix_agrees (some : s.operands ≠ []) (d : Datatype) :
    Agrees L quieter s s' L.Shows (stackedMatrix d s) (stackedMatrix d s') := by
  obtain ⟨o, os, o', os', eq, eq', first, rest⟩ := h.cons some
  have rows : List.Forall₂ L.Shows (os.map (stackedRow s)) (os'.map (stackedRow s')) := by
    have mem : ∀ r ∈ os, r ∈ s.operands := fun r mem => eq ▸ List.mem_cons_of_mem o mem
    clear eq eq'
    induction rest with
    | nil => exact .nil
    | cons row _ ih =>
      obtain ⟨here, there⟩ := List.forall_mem_cons.mp mem
      exact .cons (shows_stackedRow h here row) (ih there)
  unfold stackedMatrix
  rw [stackedTyping_eq h, eq, eq']
  refine .withTyping _ .nil fun _ => ?_
  exact Likeness.shows_nested (f := "arma::join_cols") (by decide) rows
    (shows_stackedRow h (by simp [eq]) first)

theorem shows_untypedInitialiser :
    L.Shows (untypedInitialiser s.texts) (untypedInitialiser s'.texts) := by
  have texts := h.texts
  have several := Likeness.shows_joined (j := ", ") rfl (shows_bracedAll texts)
  unfold untypedInitialiser
  generalize s.texts = ts at texts several
  generalize s'.texts = ts' at texts several
  rcases texts with _ | ⟨first, _ | _⟩
  · exact shows_braced several
  · exact shows_braced first
  · exact shows_braced several

theorem matrix_agrees : Agrees L quieter s s' L.Shows (matrix s) (matrix s') := by
  have empty : s'.operands.isEmpty = s.operands.isEmpty := by
    have operands := h.operands
    generalize s.operands = os at operands
    generalize s'.operands = os' at operands
    cases operands <;> rfl
  have plain : s'.operands.all (isPlain s') = s.operands.all (isPlain s) :=
    Operand.all_eq_of_alike h.operands fun _ mem _ alike => isPlain_eq h mem alike
  unfold matrix
  rw [h.types, empty, plain]
  dsimp only
  refine .ite (fun _ => .keep h .nil fun _ => L.weaken (L.opening (braced "") (by decide))) fun filled => ?_
  have some : s.operands ≠ [] := by simpa using filled
  refine .ite (fun _ => .typed _ .nil fun _ => ?_) fun _ => ?_
  · have sum : L.Shows (Text.joined " + " s.texts) (Text.joined " + " s'.texts) :=
      Likeness.shows_joined rfl h.texts
    exact (((L.opening "std::string(" rfl).append sum).put ")" rfl).shows
  · refine .ite (fun _ => ?_) fun _ => stackedMatrix_agrees h some _
    exact .ite (fun _ => plainMatrix_agrees h some _) fun _ =>
      .keep h .nil fun _ => shows_untypedInitialiser h

end

end Rule

end MatrixScript
