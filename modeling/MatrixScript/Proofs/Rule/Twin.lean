/-
# `Proofs.Rule.Twin` — rules type twins alike

Two sites are twins (`Site.Twin`) when their trees hold the same piece of program, when
they are about paired nodes of it, and when variables have the same types.  The texts
of the operands, the temporaries and everything else that is remembered may differ.
Every rule then gives the same typing at both, and the same effects among those that
decide about types (`SameTypes`): no rule makes a type depend on a text.

What a rule fails with is told apart: only a rule of an assignment fails with anything
but a malformed tree.
-/
import MatrixScript.BuiltinRule.Extent
import MatrixScript.Proofs.Rule.Answer
import MatrixScript.Proofs.Tree.Twins

namespace MatrixScript

variable {R : NodeId → NodeId → Prop}

/-! ## Sites -/

/-- Paired children; their texts may be any. -/
structure Operand.Twin (R : NodeId → NodeId → Prop) (o o' : Operand) : Prop where
  id : R o.id o'.id
  node : o.node.Twin R o'.node

namespace Operand.Twin

variable {o o' : Operand} (h : o.Twin R o')
include h

theorem datatype : o'.datatype = o.datatype := h.node.datatype

theorem shape : o'.shape = o.shape := h.node.shape

theorem cls : o'.cls = o.cls := h.node.cls

theorem numeric : o'.numeric = o.numeric := h.node.numeric

theorem isPlaceholder : o'.isPlaceholder = o.isPlaceholder := by
  rw [Operand.isPlaceholder, h.node.category, h.node.isEmpty_children, Operand.isPlaceholder]

end Operand.Twin

namespace Operand

variable {os os' : List Operand}

/-- What is the same of twins is the same of all of them. -/
theorem map_eq_of_twin (twins : List.Forall₂ (Operand.Twin R) os os') {β : Type}
    {f g : Operand → β} (same : ∀ o ∈ os, ∀ o', o.Twin R o' → g o' = f o) :
    os'.map g = os.map f := by
  induction twins with
  | nil => rfl
  | cons first _ ih =>
    rw [List.map_cons, List.map_cons, same _ List.mem_cons_self _ first,
      ih fun o mem => same o (List.mem_cons_of_mem _ mem)]

theorem all_eq_of_twin (twins : List.Forall₂ (Operand.Twin R) os os') {p q : Operand → Bool}
    (same : ∀ o ∈ os, ∀ o', o.Twin R o' → q o' = p o) : os'.all q = os.all p := by
  have all : ∀ (os : List Operand) (p : Operand → Bool), os.all p = (os.map p).all fun b => b := by
    intro os p
    rw [List.all_map]
    rfl
  rw [all, map_eq_of_twin twins same, ← all]

end Operand

/-- Sites at paired nodes, where variables have the same types. -/
structure Site.Twin (R : NodeId → NodeId → Prop) (s s' : Site) : Prop where
  id : R s.id s'.id
  trees : s.tree.Twins R s'.tree
  wellFormed : s.tree.WellFormed
  wellFormed' : s'.tree.WellFormed
  operands : List.Forall₂ (Operand.Twin R) s.operands s'.operands
  lookup : ∀ x, s'.lookup x = s.lookup x

/-! ## Answers -/

/-- The effect decides about types. -/
def Effect.types : Effect → Bool
  | .record .. | .destination .. | .redirect .. => true
  | _ => false

/-- The same decision about types. -/
inductive Effect.Twin (R : NodeId → NodeId → Prop) (s s' : Site) : Effect → Effect → Prop
  | record (x : String) (d : Datatype) : Twin R s s' (.record x d) (.record x d)
  | destination {c c' : NodeId} (d : Datatype) : R c c' →
      Twin R s s' (.destination c d) (.destination c' d)
  | redirect {p p' : NodeId} (b : Builtin) : s.tree.parent? s.id = some p →
      s'.tree.parent? s'.id = some p' → R p p' → Twin R s s' (.redirect b) (.redirect b)

/-- The same decisions about types in the same order; other effects may be any. -/
def Effect.Twins (R : NodeId → NodeId → Prop) (s s' : Site) (es es' : List Effect) : Prop :=
  List.Forall₂ (Effect.Twin R s s') (es.filter Effect.types) (es'.filter Effect.types)

theorem Effect.Twins.append {s s' : Site} {es es' fs fs' : List Effect} (h : Effect.Twins R s s' es es')
    (k : Effect.Twins R s s' fs fs') : Effect.Twins R s s' (es ++ fs) (es' ++ fs') := by
  unfold Effect.Twins
  rw [List.filter_append, List.filter_append]
  exact List.rel_append h k

/-- No effect decides about types. -/
theorem Effect.Twins.of_quiet {s s' : Site} {es es' : List Effect} (quiet : es.filter Effect.types = [])
    (quiet' : es'.filter Effect.types = []) : Effect.Twins R s s' es es' := by
  unfold Effect.Twins
  rw [quiet, quiet']
  exact .nil

/-- Both fail with one of the errors `F`, or both give the same typing and the same
decisions about types. -/
inductive SameTypes (R : NodeId → NodeId → Prop) (s s' : Site) (F : Error → Prop) :
    Except Error Outcome → Except Error Outcome → Prop
  | fails {e : Error} : F e → SameTypes R s s' F (.error e) (.error e)
  | answers {o o' : Outcome} : o'.typing = o.typing → Effect.Twins R s s' o.effects o'.effects →
      SameTypes R s s' F (.ok o) (.ok o')

/-- The only error of a rule that is not about an assignment. -/
abbrev Malformed (e : Error) : Prop := e = .malformedTree

theorem SameTypes.mono {s s' : Site} {F G : Error → Prop} {r r' : Except Error Outcome}
    (h : SameTypes R s s' F r r') (le : ∀ e, F e → G e) : SameTypes R s s' G r r' := by
  cases h with
  | fails error => exact .fails (le _ error)
  | answers typing effects => exact .answers typing effects

namespace Site.Twin

variable {s s' : Site} (h : s.Twin R s')
include h

theorem node : s.node.Twin R s'.node := h.trees.node h.id

theorem seed : s'.seed = s.seed := h.node.typing

theorem name : s'.name = s.name := h.node.name

theorem types : s'.types = s.types :=
  Operand.map_eq_of_twin h.operands fun _ _ _ twin => twin.datatype

theorem arity : s'.arity = s.arity := h.operands.length_eq.symm

theorem isVariable (x : String) : s'.isVariable x = s.isVariable x := by
  rw [Site.isVariable, h.lookup, Site.isVariable]

theorem parentCategory? : s'.parentCategory? = s.parentCategory? := by
  have same := h.trees.parentCategory? h.id
  rw [Site.parentCategory?, Site.parentCategory?, Site.parent?, Site.parent?, Option.map_map,
    Option.map_map]
  exact same

/-- Both have no operands, or both have a first one. -/
theorem nil_or_cons : s.operands = [] ∧ s'.operands = [] ∨ ∃ x x' os os', s.operands = x :: os
    ∧ s'.operands = x' :: os' ∧ x.Twin R x' ∧ List.Forall₂ (Operand.Twin R) os os' := by
  have operands := h.operands
  generalize s.operands = os, s'.operands = os' at operands
  cases operands with
  | nil => exact .inl ⟨rfl, rfl⟩
  | cons first rest => exact .inr ⟨_, _, _, _, rfl, rfl, first, rest⟩

end Site.Twin

/-! ## How answers are put together -/

namespace SameTypes

variable {F : Error → Prop} {s s' : Site} {t t' : Template} {es es' : List Effect}

/-- The same typing, and no decision about others. -/
theorem given {typing : Typing} (quiet : es.filter Effect.types = [])
    (quiet' : es'.filter Effect.types = []) :
    SameTypes R s s' F (.ok ⟨t, typing, es⟩) (.ok ⟨t', typing, es'⟩) :=
  .answers rfl (.of_quiet quiet quiet')

theorem keep (h : s.Twin R s') (quiet : es.filter Effect.types = [])
    (quiet' : es'.filter Effect.types = []) : SameTypes R s s' F (s.keep t es) (s'.keep t' es') :=
  .answers h.seed (.of_quiet quiet quiet')

theorem refuse (h : s.Twin R s') : SameTypes R s s' F s.refuse s'.refuse := .keep h rfl rfl

theorem ite {b : Prop} [Decidable b] {r r' q q' : Except Error Outcome}
    (h : b → SameTypes R s s' F r r') (h' : ¬b → SameTypes R s s' F q q') :
    SameTypes R s s' F (if b then r else q) (if b then r' else q') := by
  split
  · exact h ‹_›
  · exact h' ‹_›

end SameTypes

namespace Rule

variable {s s' : Site} (h : s.Twin R s')
include h

/-! ## Operators -/

theorem hasText_twin : hasText s' = hasText s := by
  have any : ∀ s : Site, hasText s = (s.operands.map (·.cls == .text)).any fun b => b := by
    intro s
    rw [List.any_map]
    rfl
  rw [any, any, Operand.map_eq_of_twin h.operands fun _ _ _ twin =>
    congrArg (· == StorageClass.text) twin.cls]

omit h in
theorem quiet_checkNumeric (operation : String) (s : Site) :
    (checkNumeric operation s).filter Effect.types = [] := by
  unfold checkNumeric
  split
  · rfl
  · rfl

theorem checked_twin (operation : String) {t t' : Template} :
    SameTypes R s s' Malformed (s.keep t (checkNumeric operation s))
      (s'.keep t' (checkNumeric operation s')) :=
  .keep h (quiet_checkNumeric _ _) (quiet_checkNumeric _ _)

omit h in
theorem productShape_twin {os os' : List Operand} (twins : List.Forall₂ (Operand.Twin R) os os')
    (shape : Shape) : (productShape shape os').1 = (productShape shape os).1 := by
  induction twins generalizing shape with
  | nil => rfl
  | @cons o o' os os' first _ ih =>
    unfold productShape
    rw [first.shape]
    split
    · exact ih _
    · exact ih _

omit h in
theorem quiet_productShape (shape : Shape) (os : List Operand) :
    (productShape shape os).2.filter Effect.types = [] := by
  induction os generalizing shape with
  | nil => rfl
  | cons o os ih =>
    unfold productShape
    split
    · exact ih _
    · exact ih _

theorem mul_twin : SameTypes R s s' Malformed (mul s) (mul s') := by
  unfold mul
  rw [h.seed]
  refine .ite (fun _ => .keep h rfl rfl) fun _ => .ite (fun _ => .keep h rfl rfl) fun _ => ?_
  rcases h.nil_or_cons with ⟨eq, eq'⟩ | ⟨x, x', os, os', eq, eq', first, rest⟩
  · rw [eq, eq']
    exact .fails rfl
  · rw [eq, eq']
    dsimp only
    rw [first.shape, productShape_twin rest]
    exact .given (quiet_productShape _ _) (quiet_productShape _ _)

theorem elMul_twin : SameTypes R s s' Malformed (elMul s) (elMul s') := checked_twin h _

theorem power_twin : SameTypes R s s' Malformed (power s) (power s') := by
  unfold power Site.texts
  rcases h.nil_or_cons with ⟨eq, eq'⟩ | ⟨x, x', os, os', eq, eq', -, -⟩
  · rw [eq, eq']
    exact .fails rfl
  · rw [eq, eq']
    exact .keep h rfl rfl

theorem comparison_twin (operator : String) :
    SameTypes R s s' Malformed (comparison operator s) (comparison operator s') := by
  unfold comparison
  rw [hasText_twin h]
  split
  · exact .keep h rfl rfl
  · exact .keep h rfl rfl

omit h in
theorem negation_twin (typing : Typing) : SameTypes R s s' Malformed (negation typing s) (negation typing s') :=
  .given rfl rfl

theorem turned_twin (typing : Typing) : (∃ d, turned typing s = .ok d ∧ turned typing s' = .ok d)
    ∨ turned typing s = .error .malformedTree ∧ turned typing s' = .error .malformedTree := by
  unfold turned
  rcases h.nil_or_cons with ⟨eq, eq'⟩ | ⟨x, x', os, os', eq, eq', first, -⟩
  · rw [eq, eq']
    exact .inr ⟨rfl, rfl⟩
  · rw [eq, eq']
    dsimp only
    rw [first.shape]
    exact .inl ⟨_, rfl, rfl⟩

theorem transposed_twin (typing : Typing) :
    SameTypes R s s' Malformed (transposed typing s) (transposed typing s') := by
  unfold transposed
  refine .ite (fun _ => .given rfl rfl) fun _ => ?_
  rcases turned_twin h typing with ⟨d, eq, eq'⟩ | ⟨eq, eq'⟩
  · rw [eq, eq']
    exact .given rfl rfl
  · rw [eq, eq']
    exact .fails rfl

theorem conjugated_twin (typing : Typing) :
    SameTypes R s s' Malformed (conjugated typing s) (conjugated typing s') := by
  unfold conjugated
  refine .ite (fun _ => .given rfl rfl) fun _ => ?_
  rcases turned_twin h typing with ⟨d, eq, eq'⟩ | ⟨eq, eq'⟩
  · rw [eq, eq']
    exact .given rfl rfl
  · rw [eq, eq']
    exact .fails rfl

/-! ## Divisions -/

theorem elRightDiv_twin : SameTypes R s s' Malformed (elRightDiv s) (elRightDiv s') := by
  unfold elRightDiv
  rw [h.seed]
  have quiet := quiet_checkNumeric "division"
  rcases h.nil_or_cons with ⟨eq, eq'⟩ | ⟨x, x', os, os', eq, eq', -, -⟩
  · rw [eq, eq']
    exact .fails rfl
  · rw [eq, eq']
    exact .given (quiet s) (quiet s')

theorem elLeftDiv_twin : SameTypes R s s' Malformed (elLeftDiv s) (elLeftDiv s') := by
  unfold elLeftDiv
  rw [h.seed]
  have quiet := quiet_checkNumeric "division"
  rcases h.nil_or_cons with ⟨eq, eq'⟩ | ⟨x, x', os, os', eq, eq', -, -⟩
  · rw [eq, eq']
    exact .fails rfl
  · rw [eq, eq']
    exact .given (quiet s) (quiet s')

/-- Quotients of the same class and shape. -/
def Quotient.Twin (q q' : Quotient) : Prop := q'.cls = q.cls ∧ q'.shape = q.shape

omit h in
theorem quotientShape_twin {operator : String} {q q' : Quotient} {o o' : Operand}
    (twin : Quotient.Twin q q') (operand : o.Twin R o') :
    (quotientShape s' operator q' o').1 = (quotientShape s operator q o).1 := by
  unfold quotientShape
  rw [twin.2, operand.shape]
  split
  · rfl
  · rfl

omit h in
theorem quotient_twin {operator : String} {step : Quotient → Operand → Quotient}
    (steps : ∀ {q q' o o'}, Quotient.Twin q q' → Operand.Twin R o o' →
      (step q' o').cls = (step q o).cls)
    {os os' : List Operand} (twins : List.Forall₂ (Operand.Twin R) os os') {q q' : Quotient}
    (twin : Quotient.Twin q q') :
    Quotient.Twin (quotient s operator step q os).1 (quotient s' operator step q' os').1 := by
  induction twins generalizing q q' with
  | nil => exact twin
  | @cons o o' os os' first _ ih =>
    exact ih ⟨steps twin first, quotientShape_twin twin first⟩

omit h in
theorem quiet_quotient (s : Site) (operator : String) (step : Quotient → Operand → Quotient)
    (os : List Operand) (q : Quotient) :
    (quotient s operator step q os).2.filter Effect.types = [] := by
  induction os generalizing q with
  | nil => rfl
  | cons o os ih =>
    have quiet : (quotientShape s operator q o).2.filter Effect.types = [] := by
      unfold quotientShape
      split
      · rfl
      · rfl
    show (((quotientShape s operator q o).2 ++ _).filter _) = _
    rw [List.filter_append, quiet]
    exact ih _

omit h in
theorem bothIntegral_twin {q q' : Quotient} {o o' : Operand} (twin : Quotient.Twin q q')
    (operand : o.Twin R o') : bothIntegral q' o' = bothIntegral q o := by
  rw [bothIntegral, twin.1, operand.cls, bothIntegral]

omit h in
theorem solveRight_twin {q q' : Quotient} {o o' : Operand} (twin : Quotient.Twin q q')
    (operand : o.Twin R o') : (solveRight q' o').cls = (solveRight q o).cls := by
  unfold solveRight
  rw [operand.shape, bothIntegral_twin twin operand, twin.1, operand.cls]
  split
  · rfl
  · split
    · rfl
    · rfl

omit h in
theorem solveLeft_twin {q q' : Quotient} {o o' : Operand} (twin : Quotient.Twin q q')
    (operand : o.Twin R o') : (solveLeft q' o').cls = (solveLeft q o).cls := by
  unfold solveLeft
  rw [operand.shape, bothIntegral_twin twin operand, twin.1, operand.cls]
  split
  · rfl
  · split
    · rfl
    · rfl

theorem structural_twin (operator : String) {step : Quotient → Operand → Quotient} {scalars : Rule}
    (steps : ∀ {q q' o o'}, Quotient.Twin q q' → Operand.Twin R o o' →
      (step q' o').cls = (step q o).cls)
    (between : SameTypes R s s' Malformed (scalars s) (scalars s')) :
    SameTypes R s s' Malformed (structural operator step scalars s)
      (structural operator step scalars s') := by
  have all : allScalar s' = allScalar s := Operand.all_eq_of_twin h.operands fun _ _ _ twin =>
    congrArg (· == Shape.scalar) twin.shape
  unfold structural
  rw [h.seed, all]
  refine .ite (fun _ => .keep h rfl rfl) fun _ => .ite (fun _ => between) fun _ => ?_
  rcases h.nil_or_cons with ⟨eq, eq'⟩ | ⟨x, x', os, os', eq, eq', first, rest⟩
  · rw [eq, eq']
    exact .fails rfl
  · rw [eq, eq']
    have start : Quotient.Twin (.ofOperand x) (.ofOperand x') := ⟨first.cls, first.shape⟩
    have result : Quotient.Twin (quotient s operator step (.ofOperand x) os).1
        (quotient s' operator step (.ofOperand x') os').1 := quotient_twin steps rest start
    obtain ⟨cls, shape⟩ := result
    dsimp only
    rw [cls, shape]
    refine .given ?_ ?_
    · rw [List.filter_append, quiet_checkNumeric, quiet_quotient]
      rfl
    · rw [List.filter_append, quiet_checkNumeric, quiet_quotient]
      rfl

/-! ## Ranges, axes and subscripts -/

theorem subscripted?_twin : subscripted? s' = subscripted? s := by
  obtain ⟨p, p', up, up', beside⟩ := h.trees.around h.id
  have category : (s'.tree.node p').category = (s.tree.node p).category :=
    beside.category h.trees
  unfold subscripted? Site.parent?
  rw [up, up', Option.map_some, Option.map_some]
  dsimp only
  rw [category]
  split
  case isFalse => rfl
  case isTrue kind =>
    have pair : R p p' := by
      refine beside.of_category ?_ ?_
      · intro block
        rw [show (s.tree.node p).category = .block from block] at kind
        cases kind
      · intro function
        rw [show (s.tree.node p).category = .function from function] at kind
        cases kind
    rw [(h.trees.node pair).name]

theorem indexesVariable_twin : indexesVariable s' = indexesVariable s := by
  rw [indexesVariable, subscripted?_twin h, funext h.lookup, indexesVariable]

/-- The first child of a pair. -/
theorem head?_any_twin {p p' : NodeId} (pair : R p p') {f f' : Node → Bool}
    (same : ∀ n n' : Node, n.Twin R n' → f' n' = f n) :
    ((s'.tree.node p').children.head?.any fun d => f' (s'.tree.node d))
      = (s.tree.node p).children.head?.any fun d => f (s.tree.node d) := by
  match (s.tree.node p).children, (s'.tree.node p').children, (h.trees.node pair).children with
  | [], [], _ => rfl
  | c :: _, c' :: _, .cons first _ => exact same _ _ (h.trees.node first)

theorem assignedToNumeric_twin : assignedToNumeric s' = assignedToNumeric s := by
  obtain ⟨g, g', group, group', beside⟩ :=
    h.trees.exists_groups h.wellFormed h.wellFormed' h.id
  have category : (s'.tree.node g').category = (s.tree.node g).category := beside.category h.trees
  unfold assignedToNumeric Site.group?
  rw [group, group', Option.map_some, Option.map_some]
  dsimp only
  rw [category]
  cases kind : (s.tree.node g).category == .assign with
  | false => rfl
  | true =>
    have assign : s.tree.category g = .assign := eq_of_beq kind
    have pair : R g g' := beside.of_category (by rw [assign]; nofun) (by rw [assign]; nofun)
    exact congrArg _ (head?_any_twin h pair fun n n' twin => twin.numeric)

theorem rangeClass_twin : rangeClass s' = rangeClass s := by
  rw [rangeClass, h.types, h.parentCategory?, assignedToNumeric_twin h, rangeClass]

theorem range_twin : SameTypes R s s' Malformed (range s) (range s') := by
  unfold range
  rw [indexesVariable_twin h]
  refine .ite (fun _ => ?_) fun _ => ?_
  · unfold rangeOfPositions
    rcases h.nil_or_cons with ⟨eq, eq'⟩ | ⟨x, x', os, os', eq, eq', first, rest⟩
    · rw [eq, eq']
      exact .given rfl rfl
    · rw [eq, eq']
      rcases rest with _ | ⟨_, _ | ⟨_, _ | _⟩⟩ <;> exact .given rfl rfl
  · unfold rangeOfValues
    rw [rangeClass_twin h]
    rcases h.nil_or_cons with ⟨eq, eq'⟩ | ⟨x, x', os, os', eq, eq', first, rest⟩
    · rw [eq, eq']
      exact .given rfl rfl
    · rw [eq, eq']
      rcases rest with _ | ⟨second, _ | ⟨_, _ | _⟩⟩
      · exact .given rfl rfl
      · exact .given rfl rfl
      · dsimp only
        rw [second.node.category]
        exact .ite (fun _ => .given rfl rfl) fun _ => .given rfl rfl
      · exact .given rfl rfl

/-- Inside of a subscript a pair has the same place. -/
theorem position?_twin (inside : (subscripted? s).isSome) :
    s'.tree.position? s'.id = s.tree.position? s.id := by
  obtain ⟨p, p', up, up', beside⟩ := h.trees.around h.id
  have kind : (s.tree.node p).category.isSubscript := by
    unfold subscripted? Site.parent? at inside
    rw [up, Option.map_some] at inside
    dsimp only at inside
    split at inside
    · assumption
    · cases inside
  refine h.trees.position? h.id up up' (beside.of_category ?_ ?_)
  · intro block
    rw [show (s.tree.node p).category = .block from block] at kind
    cases kind
  · intro function
    rw [show (s.tree.node p).category = .function from function] at kind
    cases kind

theorem all_twin : SameTypes R s s' Malformed (all s) (all s') := by
  unfold all
  rw [subscripted?_twin h]
  cases name : subscripted? s with
  | none => exact .given rfl rfl
  | some x =>
    rw [position?_twin h (by rw [name]; rfl)]
    dsimp only
    split
    · exact .given rfl rfl
    · exact .given rfl rfl

theorem givesExtent_twin {n n' : Node} (twin : n.Twin R n') :
    givesExtent s' n' = givesExtent s n := by
  rw [givesExtent, twin.category, twin.name, h.isVariable, givesExtent]

omit h in
/-- Among statements and functions there is no subscript. -/
theorem extentOwner?_of_crown (wf : s.tree.WellFormed) {i : NodeId} {c : Category}
    {p : NodeId} (up : s.tree.parent? i = some p) (crown : s.tree.Crown p c) :
    extentOwner? s i (s.tree.ancestors i) = none := by
  have passes : ∀ {a : NodeId}, s.tree.category a = .block ∨ s.tree.category a = .function →
      givesExtent s (s.tree.node a) = false := by
    intro a kind
    unfold givesExtent
    rcases kind with kind | kind
    · rw [show (s.tree.node a).category = .block from kind]
      rfl
    · rw [show (s.tree.node a).category = .function from kind]
      rfl
  cases crown with
  | block kind =>
    rw [wf.ancestors_of_parent? up, extentOwner?, passes (.inl kind),
      show (s.tree.node p).category = .block from kind]
    rfl
  | @function q kind up' kind' =>
    rw [wf.ancestors_of_parent? up, wf.ancestors_of_parent? up', extentOwner?, extentOwner?,
      passes (.inr kind), passes (.inl kind'), show (s.tree.node p).category = .function from kind,
      show (s.tree.node q).category = .block from kind']
    rfl

/-- The search for the subscript around an `end` takes the same way. -/
theorem extentOwner?_twin {i i' : NodeId} (pair : R i i') :
    (∃ a a' j j', extentOwner? s i (s.tree.ancestors i) = some (a, j)
        ∧ extentOwner? s' i' (s'.tree.ancestors i') = some (a', j') ∧ R a a'
        ∧ s'.tree.position? j' = s.tree.position? j)
      ∨ extentOwner? s i (s.tree.ancestors i) = none
        ∧ extentOwner? s' i' (s'.tree.ancestors i') = none := by
  -- on the way up, the list of ancestors gets shorter
  induction length : (s.tree.ancestors i).length using Nat.strong_induction_on
    generalizing i i' with
  | _ n ih =>
    obtain ⟨p, p', up, up', beside⟩ := h.trees.around pair
    cases beside with
    | outside crown crown' =>
      exact .inr ⟨extentOwner?_of_crown h.wellFormed up crown,
        extentOwner?_of_crown h.wellFormed' up' crown'⟩
    | inside above =>
      have shorter : (s.tree.ancestors p).length < n := by
        rw [← length, h.wellFormed.ancestors_of_parent? up]
        exact Nat.lt_succ_self _
      have twin := h.trees.node above
      rw [h.wellFormed.ancestors_of_parent? up, h.wellFormed'.ancestors_of_parent? up',
        extentOwner?, extentOwner?, givesExtent_twin h twin, twin.category]
      split
      case isTrue => exact .inl ⟨p, p', i, i', rfl, rfl, above, h.trees.position? pair up up' above⟩
      case isFalse =>
        split
        case isTrue => exact .inr ⟨rfl, rfl⟩
        case isFalse => exact ih _ shorter above rfl

theorem last_twin : SameTypes R s s' Malformed (last s) (last s') := by
  unfold last
  rcases extentOwner?_twin h h.id with ⟨a, a', j, j', eq, eq', -, place⟩ | ⟨eq, eq'⟩
  · rw [eq, eq']
    dsimp only
    rw [place]
    split
    · exact .given rfl rfl
    · exact .given rfl rfl
  · rw [eq, eq']
    exact .keep h rfl rfl

omit h in
theorem isPoint_twin {o o' : Operand} (twin : o.Twin R o') : isPoint o' = isPoint o := by
  rw [isPoint, twin.node.category, twin.shape, isPoint]

theorem subscript_twin : SameTypes R s s' Malformed (subscript s) (subscript s') := by
  unfold subscript
  rw [h.name, h.lookup, Operand.map_eq_of_twin h.operands fun _ _ _ twin => isPoint_twin twin]
  split
  · exact .keep h rfl rfl
  · exact .ite (fun _ => .given rfl rfl) fun _ => .keep h rfl rfl

/-! ## Literals, variables and rows -/

theorem var_twin : SameTypes R s s' Malformed (var s) (var s') := by
  unfold var
  rw [h.name, h.lookup]
  split
  · exact .given rfl rfl
  · exact .keep h rfl rfl

theorem row_twin : SameTypes R s s' Malformed (row s) (row s') := by
  have scalars := Operand.all_eq_of_twin h.operands (p := (·.shape == .scalar))
    (q := (·.shape == .scalar)) fun _ _ _ twin => congrArg (· == Shape.scalar) twin.shape
  have flat := Operand.all_eq_of_twin h.operands
    (p := fun e => e.shape == .scalar || e.shape == .rowvec)
    (q := fun e => e.shape == .scalar || e.shape == .rowvec)
    fun _ _ _ twin => congrArg (fun s => s == Shape.scalar || s == Shape.rowvec) twin.shape
  unfold row
  rw [h.types, scalars, flat]
  rcases h.nil_or_cons with ⟨eq, eq'⟩ | ⟨x, x', os, os', eq, eq', first, rest⟩
  · rw [eq, eq']
    exact .keep h rfl rfl
  · rw [eq, eq']
    rcases rest with _ | ⟨second, more⟩
    · dsimp only
      rw [first.node.typing]
      exact .given rfl rfl
    · exact .ite (fun _ => .given rfl rfl) fun _ => .ite (fun _ => .given rfl rfl) fun _ => .keep h rfl rfl

/-! ## Matrices -/

/-- The elements of a row are twins. -/
theorem elementsOf_twin {o o' : Operand} (twin : o.Twin R o') :
    List.Forall₂ (Node.Twin R) (elementsOf s o) (elementsOf s' o') := by
  unfold elementsOf
  have children := twin.node.children
  generalize o.node.children = cs, o'.node.children = cs' at children
  induction children with
  | nil => exact .nil
  | cons first _ ih => exact .cons (h.trees.node first) ih

theorem isPlain_twin {o o' : Operand} (twin : o.Twin R o') : isPlain s' o' = isPlain s o := by
  have elements := elementsOf_twin h twin
  unfold isPlain
  generalize elementsOf s o = es, elementsOf s' o' = es' at elements
  induction elements with
  | nil => rfl
  | cons first _ ih => rw [List.all_cons, List.all_cons, first.shape, first.category, ih]

omit h in
theorem widthOf_twin {o o' : Operand} (twin : o.Twin R o') : widthOf o' = widthOf o :=
  twin.node.length_children

theorem plainMatrix_twin (d : Datatype) :
    SameTypes R s s' Malformed (plainMatrix d s) (plainMatrix d s') := by
  have single := Operand.all_eq_of_twin h.operands (p := (widthOf · = 1)) (q := (widthOf · = 1))
    fun _ _ _ twin => by rw [widthOf_twin twin]
  unfold plainMatrix
  rw [single]
  rcases h.nil_or_cons with ⟨eq, eq'⟩ | ⟨x, x', os, os', eq, eq', first, rest⟩
  · rw [eq, eq']
    exact .fails rfl
  · rw [eq, eq']
    rcases rest with _ | ⟨second, more⟩
    · dsimp only
      rw [widthOf_twin first]
      exact .ite (fun _ => .given rfl rfl) fun _ => .given rfl rfl
    · refine .ite (fun _ => .given rfl rfl) fun _ => .given ?_ ?_
      · split
        · rfl
        · rfl
      · split
        · rfl
        · rfl

theorem stackedShape_twin : stackedShape s'.operands = stackedShape s.operands := by
  have all := Operand.all_eq_of_twin h.operands
    (p := fun r => r.shape == .scalar || r.shape == .colvec)
    (q := fun r => r.shape == .scalar || r.shape == .colvec)
    fun _ _ _ twin => congrArg (fun s => s == Shape.scalar || s == Shape.colvec) twin.shape
  rcases h.nil_or_cons with ⟨eq, eq'⟩ | ⟨x, x', os, os', eq, eq', first, rest⟩
  · rw [eq, eq']
  · rw [eq, eq'] at all ⊢
    rcases rest with _ | ⟨second, more⟩
    · exact first.shape
    · exact congrArg (if · then Shape.colvec else Shape.matrix) all

theorem stackedTyping_twin (d : Datatype) : stackedTyping d s' = stackedTyping d s := by
  unfold stackedTyping
  rw [stackedShape_twin h, h.seed]
  rcases h.nil_or_cons with ⟨eq, eq'⟩ | ⟨x, x', os, os', eq, eq', first, rest⟩
  · rw [eq, eq']
  · rw [eq, eq']
    rcases rest with _ | ⟨second, more⟩
    · dsimp only
      rw [first.numeric]
    · rfl

theorem stackedMatrix_twin (d : Datatype) :
    SameTypes R s s' Malformed (stackedMatrix d s) (stackedMatrix d s') := by
  unfold stackedMatrix
  rw [stackedTyping_twin h]
  rcases h.nil_or_cons with ⟨eq, eq'⟩ | ⟨x, x', os, os', eq, eq', -, -⟩
  · rw [eq, eq']
    exact .fails rfl
  · rw [eq, eq']
    exact .given rfl rfl

theorem matrix_twin : SameTypes R s s' Malformed (matrix s) (matrix s') := by
  have none : s'.operands.isEmpty = s.operands.isEmpty := by
    rcases h.nil_or_cons with ⟨eq, eq'⟩ | ⟨x, x', os, os', eq, eq', -, -⟩
    · rw [eq, eq']
    · rw [eq, eq']
      rfl
  have plain := Operand.all_eq_of_twin h.operands (p := isPlain s) (q := isPlain s')
    fun _ _ _ twin => isPlain_twin h twin
  unfold matrix
  rw [h.types, none, plain]
  refine .ite (fun _ => .keep h rfl rfl) fun _ => .ite (fun _ => .given rfl rfl) fun _ => ?_
  refine .ite (fun _ => .ite (fun _ => plainMatrix_twin h _) fun _ => .keep h rfl rfl) fun _ => ?_
  exact stackedMatrix_twin h _

/-! ## Assignments, statements and definitions -/

theorem namesOf_twin {o o' : Operand} (twin : o.Twin R o') : namesOf s' o' = namesOf s o := by
  have children := twin.node.children
  unfold namesOf
  generalize o.node.children = cs, o'.node.children = cs' at children
  induction children with
  | nil => rfl
  | cons first _ ih => rw [List.map_cons, List.map_cons, (h.trees.node first).name, ih]

theorem function_twin : SameTypes R s s' Malformed (function s) (function s') := by
  unfold function
  rcases h.nil_or_cons with ⟨eq, eq'⟩ | ⟨x, x', os, os', eq, eq', first, rest⟩
  · rw [eq, eq']
    exact .fails rfl
  · rw [eq, eq']
    rcases rest with _ | ⟨second, _ | _⟩
    · exact .fails rfl
    · exact .fails rfl
    · dsimp only
      rw [namesOf_twin h second]
      split
      · exact .keep h rfl rfl
      · exact .keep h rfl rfl

theorem ret_twin : SameTypes R s s' Malformed (ret s) (ret s') := by
  unfold ret
  split
  · split
    · exact .keep h rfl rfl
    · exact .keep h rfl rfl
  · split
    · exact .keep h rfl rfl
    · exact .keep h rfl rfl

theorem untranslated_twin : SameTypes R s s' Malformed (untranslated s) (untranslated s') := .keep h rfl rfl

omit h in
theorem reservedDestination?_twin {os os' : List Operand}
    (twins : List.Forall₂ (Operand.Twin R) os os') :
    reservedDestination? os' = reservedDestination? os := by
  rw [reservedDestination?, Operand.map_eq_of_twin twins fun _ _ _ twin => twin.node.name,
    reservedDestination?]

omit h in
theorem checkDestinations_twin {os os' : List Operand}
    (twins : List.Forall₂ (Operand.Twin R) os os') :
    checkDestinations os' = checkDestinations os := by
  rw [checkDestinations, reservedDestination?_twin twins, checkDestinations]

omit h in
theorem binding_twin {o o' : Operand} (twin : o.Twin R o') (d : Datatype) :
    Effect.Twins R s s' (binding o d) (binding o' d) := by
  unfold binding
  rw [twin.node.category, twin.node.name]
  split
  · exact .cons (.record _ _) .nil
  · exact .nil

omit h in
/-- What destinations are checked for comes first. -/
theorem checked_bind_twin {os os' : List Operand} (twins : List.Forall₂ (Operand.Twin R) os os')
    {r r' : Except Error Outcome} (rest : SameTypes R s s' (fun _ => True) r r') :
    SameTypes R s s' (fun _ => True) (checkDestinations os >>= fun _ => r)
      (checkDestinations os' >>= fun _ => r') := by
  rw [checkDestinations_twin twins]
  cases checkDestinations os with
  | error e => exact .fails trivial
  | ok _ => exact rest

theorem assign_twin : SameTypes R s s' (fun _ => True) (assign s) (assign s') := by
  unfold assign
  rcases h.nil_or_cons with ⟨eq, eq'⟩ | ⟨x, x', os, os', eq, eq', first, rest⟩
  · rw [eq, eq']
    exact .fails trivial
  · rw [eq, eq']
    rcases rest with _ | ⟨second, more⟩
    · exact .fails trivial
    · dsimp only
      rw [second.datatype]
      exact checked_bind_twin (.cons first .nil) (.answers h.seed (binding_twin first _))

omit h in
theorem splitLast?_twin {os os' : List Operand} (twins : List.Forall₂ (Operand.Twin R) os os') :
    splitLast? os = none ∧ splitLast? os' = none
      ∨ ∃ ds ds' v v', splitLast? os = some (ds, v) ∧ splitLast? os' = some (ds', v')
        ∧ List.Forall₂ (Operand.Twin R) ds ds' ∧ v.Twin R v' := by
  induction twins with
  | nil => exact .inl ⟨rfl, rfl⟩
  | @cons o o' os os' first rest ih =>
    cases rest with
    | nil => exact .inr ⟨[], [], o, o', rfl, rfl, .nil, first⟩
    | cons =>
      unfold splitLast?
      rcases ih with ⟨eq, eq'⟩ | ⟨ds, ds', v, v', eq, eq', twins, twin⟩
      · rw [eq, eq']
        exact .inl ⟨rfl, rfl⟩
      · rw [eq, eq']
        exact .inr ⟨o :: ds, o' :: ds', v, v', rfl, rfl, .cons first twins, twin⟩

theorem isForeignCall_twin {n n' : Node} (twin : n.Twin R n') :
    isForeignCall s' n' = isForeignCall s n := by
  rw [isForeignCall, twin.category, twin.name, h.isVariable, isForeignCall]

theorem assigns_twin : SameTypes R s s' (fun _ => True) (assigns s) (assigns s') := by
  unfold assigns
  rcases splitLast?_twin h.operands with ⟨eq, eq'⟩ | ⟨ds, ds', v, v', eq, eq', twins, twin⟩
  · rw [eq, eq']
    exact .fails trivial
  · rw [eq, eq']
    dsimp only
    rw [isForeignCall_twin h twin.node]
    exact checked_bind_twin twins (.ite (fun _ => .keep h rfl rfl) fun _ => .keep h rfl rfl)

end Rule

end MatrixScript
