/-
# `Proofs.Rule.Chain` — the type of a chain of operands

An operator that has operands answers (`Rule.exists_of_isOperator`).  Between numbers the
type of a chain is put together from the left, two types at a time
(`Rule.select_infers`), and the type of two operands is plain to say (`Category.ofTwo`):

* shapes are joined, but composed by the tables under products and structural quotients;
* classes are joined, and widened to floating point under quotients that are taken
  element by element.

The rules do not compute it so.  Most of them keep the join from which the node starts,
the element-wise divisions widen that join once, and the other two divisions do so only
if all of the operands are scalars, else they go through them with the quotient so far.
-/
import MatrixScript.Proofs.Rule.Settled
import MatrixScript.Rule.Table

namespace MatrixScript

/-! ## Operators answer -/

namespace Rule

variable {s : Site}

/-- No built-in has a rule for an operator. -/
theorem select_of_isOperator (operator : s.node.category.isOperator) :
    select s.tree s.node = (ofCategory? s.node.category).getD untranslated := by
  have general : (builtinOf? s.tree s.node).bind (ofBuiltin? s.node.category) = none := by
    cases builtinOf? s.tree s.node with
    | none => rfl
    | some b =>
      generalize s.node.category = c at operator
      cases c <;> first | rfl | cases operator
  unfold select
  rw [general]

theorem exists_of_structural {operator : String} {step : Quotient → Operand → Quotient}
    {scalars : Rule} (some : s.operands ≠ []) (answers : ∃ o, scalars s = .ok o) :
    ∃ o, structural operator step scalars s = .ok o := by
  unfold structural
  split
  · exact ⟨_, rfl⟩
  · split
    · exact answers
    · split
      case h_1 none => exact absurd none some
      case h_2 => exact ⟨_, rfl⟩

theorem exists_of_elRightDiv (some : s.operands ≠ []) : ∃ o, elRightDiv s = .ok o := by
  unfold elRightDiv
  split
  case h_1 none => exact absurd none some
  case h_2 => exact ⟨_, rfl⟩

theorem exists_of_elLeftDiv (some : s.operands ≠ []) : ∃ o, elLeftDiv s = .ok o := by
  unfold elLeftDiv
  split
  case h_1 none => exact absurd none some
  case h_2 => exact ⟨_, rfl⟩

theorem exists_of_turned (some : s.operands ≠ []) (typing : Typing) :
    ∃ d, turned typing s = .ok d := by
  unfold turned
  split
  case h_1 none => exact absurd none some
  case h_2 => exact ⟨_, rfl⟩

/-- Whatever operator a node is, its rule answers if it has operands. -/
theorem exists_of_isOperator (operator : s.node.category.isOperator) (some : s.operands ≠ []) :
    ∃ o, select s.tree s.node s = .ok o := by
  rw [select_of_isOperator operator]
  cases category : s.node.category <;> rw [category] at operator <;>
    first | cases operator; done | skip
  case mul =>
    show ∃ o, mul s = .ok o
    unfold mul
    split
    · exact ⟨_, rfl⟩
    · split
      · exact ⟨_, rfl⟩
      · split
        case h_1 none => exact absurd none some
        case h_2 => exact ⟨_, rfl⟩
  case pow | elPow =>
    show ∃ o, power s = .ok o
    unfold power
    split
    case h_1 none => exact absurd (List.map_eq_nil_iff.mp none) some
    case h_2 => exact ⟨_, rfl⟩
  case rightDiv => exact exists_of_structural some (exists_of_elRightDiv some)
  case leftDiv => exact exists_of_structural some (exists_of_elLeftDiv some)
  case elRightDiv => exact exists_of_elRightDiv some
  case elLeftDiv => exact exists_of_elLeftDiv some
  case transpose =>
    obtain ⟨d, eq⟩ := exists_of_turned some s.seed
    show ∃ o, transposed s.seed s = .ok o
    unfold transposed
    split
    · exact ⟨_, rfl⟩
    · rw [eq]
      exact ⟨_, rfl⟩
  case ctranspose =>
    obtain ⟨d, eq⟩ := exists_of_turned some s.seed
    show ∃ o, conjugated s.seed s = .ok o
    unfold conjugated
    split
    · exact ⟨_, rfl⟩
    · rw [eq]
      exact ⟨_, rfl⟩
  all_goals exact ⟨_, rfl⟩

end Rule

/-! ## Two operands -/

namespace Category

/-- Shape of an operator between operands of two shapes. -/
def composed (op : Category) (a b : Shape) : Shape :=
  match op with
  | .mul => (a.mul b).toOption.getD a
  | .rightDiv | .leftDiv => (a.div b).toOption.getD a
  | _ => max a b

/-- The operator is taken element by element at a right operand of a shape, as a quotient
that is not to be cut to an integer. -/
def widens (op : Category) (right : Shape) : Bool :=
  match op with
  | .elRightDiv | .elLeftDiv => true
  | .rightDiv => !decide (Shape.matrix ≤ right)
  | .leftDiv => !right.isArray
  | _ => false

/-- Type of an operator between operands of two types. -/
def ofTwo (op : Category) (a b : Datatype) : Datatype where
  shape := op.composed a.shape b.shape
  cls := if op.widens b.shape then max (max a.cls b.cls) .float else max a.cls b.cls

/-- Type of an operator between any number of operands, taken from the left. -/
def ofChain (op : Category) : List Datatype → Datatype
  | [] => .unknown
  | d :: ds => ds.foldl op.ofTwo d

end Category

theorem Datatype.isNumeric_iff {d : Datatype} : d.isNumeric ↔ d.shape ≠ .unknown ∧ d.cls.isNumeric := by
  refine ⟨fun h => ?_, fun ⟨shape, number⟩ => ?_⟩
  · obtain ⟨known, number⟩ := Bool.and_eq_true _ _ |>.mp h
    exact ⟨(isKnown_iff.mp known).1, number⟩
  · refine Bool.and_eq_true _ _ |>.mpr ⟨isKnown_iff.mpr ⟨shape, fun none => ?_⟩, number⟩
    rw [none] at number
    cases number

namespace StorageClass

theorem isNumeric_max {a b : StorageClass} (ha : a.isNumeric) (hb : b.isNumeric) :
    (max a b).isNumeric := by
  cases a <;> cases b <;> first | rfl | cases ha; done | cases hb

theorem max_comm (a b : StorageClass) : max a b = max b a :=
  precedence_injective (by simp only [precedence_max]; omega)

theorem isIntegral_max {a b : StorageClass} :
    (max a b).isIntegral ↔ a.isIntegral ∧ b.isIntegral := by
  cases a <;> cases b <;> decide

/-- Widening before another class is joined changes nothing. -/
theorem max_float_max_float (a b : StorageClass) :
    max (max (max a .float) b) .float = max (max a b) .float :=
  precedence_injective (by simp only [precedence_max]; omega)

/-- Unless both are integers, floating point is in the join already. -/
theorem max_float_of_not_integral {a b : StorageClass} (h : ¬(a.isIntegral && b.isIntegral)) :
    max (max a b) .float = max a b := by
  cases a <;> cases b <;> first | rfl | exact absurd rfl h

theorem max_float_of_integral {a b : StorageClass} (h : a.isIntegral && b.isIntegral) :
    max (max a b) .float = max .float b := by
  cases a <;> cases b <;> first | rfl | cases h

end StorageClass

namespace Category

variable {op : Category} {a b d : Datatype} {ds : List Datatype}

theorem composed_ne_unknown {a b : Shape} (ha : a ≠ .unknown) (hb : b ≠ .unknown) :
    op.composed a b ≠ .unknown := by
  unfold composed
  split
  · cases eq : a.mul b with
    | error e => exact ha
    | ok c => exact Shape.ne_unknown_of_mul ha hb eq
  · cases eq : a.div b with
    | error e => exact ha
    | ok c => exact Shape.ne_unknown_of_div ha hb eq
  · cases eq : a.div b with
    | error e => exact ha
    | ok c => exact Shape.ne_unknown_of_div ha hb eq
  · exact Shape.max_ne_unknown hb

/-- An operator between two numbers is a number. -/
theorem isNumeric_ofTwo (ha : a.isNumeric) (hb : b.isNumeric) : (op.ofTwo a b).isNumeric := by
  obtain ⟨sa, ca⟩ := Datatype.isNumeric_iff.mp ha
  obtain ⟨sb, cb⟩ := Datatype.isNumeric_iff.mp hb
  refine Datatype.isNumeric_iff.mpr ⟨composed_ne_unknown sa sb, ?_⟩
  show StorageClass.isNumeric (if _ then _ else _)
  split
  · exact StorageClass.isNumeric_max (StorageClass.isNumeric_max ca cb) rfl
  · exact StorageClass.isNumeric_max ca cb

theorem isNumeric_foldl (hd : d.isNumeric) (hds : ∀ e ∈ ds, e.isNumeric) :
    (ds.foldl op.ofTwo d).isNumeric := by
  induction ds generalizing d with
  | nil => exact hd
  | cons e ds ih =>
    obtain ⟨he, hds⟩ := List.forall_mem_cons.mp hds
    exact ih (isNumeric_ofTwo hd he) hds

theorem isNumeric_ofChain (some : ds ≠ []) (h : ∀ d ∈ ds, d.isNumeric) :
    (op.ofChain ds).isNumeric := by
  cases ds with
  | nil => exact absurd rfl some
  | cons d ds =>
    obtain ⟨first, rest⟩ := List.forall_mem_cons.mp h
    exact isNumeric_foldl first rest

/-- One more operand stands beside the chain so far. -/
theorem ofChain_concat (some : ds ≠ []) (d : Datatype) :
    op.ofChain (ds ++ [d]) = op.ofTwo (op.ofChain ds) d := by
  cases ds with
  | nil => exact absurd rfl some
  | cons e ds => exact List.foldl_concat op.ofTwo e d ds

end Category

/-! ## The join that an operator starts from -/

namespace Category

variable {op : Category} {d : Datatype} {ds : List Datatype}

/-- The operator joins types. -/
def Joins (op : Category) : Prop := ∀ a b, op.ofTwo a b = ⟨max a.shape b.shape, max a.cls b.cls⟩

theorem Joins.foldl (h : op.Joins) (hd : d.isKnown) (hds : ∀ e ∈ ds, e.isKnown) :
    ds.foldl Datatype.join d = ds.foldl op.ofTwo d := by
  induction ds generalizing d with
  | nil => rfl
  | cons e ds ih =>
    obtain ⟨he, hds⟩ := List.forall_mem_cons.mp hds
    have step : d.join e = op.ofTwo d e := by
      rw [h, Datatype.join, hd, he]
      rfl
    rw [List.foldl_cons, List.foldl_cons, ← step]
    exact ih (Datatype.isKnown_join.mpr ⟨hd, he⟩) hds

theorem Joins.joinAll (h : op.Joins) (known : ∀ d ∈ ds, d.isKnown) :
    Datatype.joinAll ds = op.ofChain ds := by
  cases ds with
  | nil => rfl
  | cons d ds =>
    obtain ⟨hd, hds⟩ := List.forall_mem_cons.mp known
    exact h.foldl hd hds

theorem joins_add : Category.add.Joins := fun _ _ => rfl

/-- Under an operator that widens neither more nor less, the chain is of the same class. -/
theorem cls_foldl_congr {op' : Category} (same : ∀ s, op.widens s = op'.widens s) {d' : Datatype}
    (cls : d.cls = d'.cls) : (ds.foldl op.ofTwo d).cls = (ds.foldl op'.ofTwo d').cls := by
  induction ds generalizing d d' with
  | nil => exact cls
  | cons e ds ih =>
    refine ih ?_
    show (if op.widens e.shape then _ else _) = if op'.widens e.shape then _ else _
    rw [same, cls]

theorem cls_ofChain_congr {op' : Category} (same : ∀ s, op.widens s = op'.widens s) :
    (op.ofChain ds).cls = (op'.ofChain ds).cls := by
  cases ds with
  | nil => rfl
  | cons d ds => exact cls_foldl_congr same rfl

/-- Widening at every operand is widening the join. -/
theorem foldl_widened (shape : ∀ a b, op.composed a b = max a b) (widens : ∀ s, op.widens s)
    (s : Shape) (c : StorageClass) : ds.foldl op.ofTwo ⟨s, max c .float⟩
      = (ds.foldl Category.add.ofTwo ⟨s, c⟩).withClass
          (max (ds.foldl Category.add.ofTwo ⟨s, c⟩).cls .float) := by
  induction ds generalizing s c with
  | nil => rfl
  | cons e ds ih =>
    have step : op.ofTwo ⟨s, max c .float⟩ e = ⟨max s e.shape, max (max c e.cls) .float⟩ := by
      unfold ofTwo
      rw [shape, if_pos (widens _), StorageClass.max_float_max_float]
    rw [List.foldl_cons, step]
    exact ih (max s e.shape) (max c e.cls)

theorem ofChain_widened (shape : ∀ a b, op.composed a b = max a b) (widens : ∀ s, op.widens s)
    (two : 2 ≤ ds.length) : op.ofChain ds
      = (Category.add.ofChain ds).withClass (max (Category.add.ofChain ds).cls .float) := by
  match ds, two with
  | d :: e :: ds, _ =>
    have first : op.ofTwo d e = ⟨max d.shape e.shape, max (max d.cls e.cls) .float⟩ := by
      unfold ofTwo
      rw [shape, if_pos (widens _)]
    show (e :: ds).foldl op.ofTwo d = _
    rw [List.foldl_cons, first]
    exact foldl_widened shape widens (max d.shape e.shape) (max d.cls e.cls)

theorem ofTwo_rightDiv {a b : Datatype} (ha : a.shape = .scalar) (hb : b.shape = .scalar) :
    Category.rightDiv.ofTwo a b = Category.elRightDiv.ofTwo a b := by
  unfold ofTwo
  rw [ha, hb]
  rfl

theorem ofTwo_leftDiv {a b : Datatype} (ha : a.shape = .scalar) (hb : b.shape = .scalar) :
    Category.leftDiv.ofTwo a b = Category.elRightDiv.ofTwo a b := by
  unfold ofTwo
  rw [ha, hb]
  rfl

/-- Between scalars a structural quotient is one of elements. -/
theorem ofChain_scalars (scalars : ∀ a b : Datatype, a.shape = .scalar → b.shape = .scalar →
      op.ofTwo a b = Category.elRightDiv.ofTwo a b) (h : ∀ d ∈ ds, d.shape = .scalar) :
    op.ofChain ds = Category.elRightDiv.ofChain ds := by
  cases ds with
  | nil => rfl
  | cons d ds =>
    obtain ⟨hd, hds⟩ := List.forall_mem_cons.mp h
    show ds.foldl op.ofTwo d = ds.foldl Category.elRightDiv.ofTwo d
    clear h
    induction ds generalizing d with
    | nil => rfl
    | cons e ds ih =>
      obtain ⟨he, hds⟩ := List.forall_mem_cons.mp hds
      rw [List.foldl_cons, List.foldl_cons, scalars d e hd he]
      refine ih (Category.elRightDiv.ofTwo d e) ?_ hds
      show max d.shape e.shape = _
      rw [hd, he]
      rfl

end Category

/-! ## Rules of chains -/

/-- Every operand counts as a number and has a type of numbers. -/
structure Site.Numbers (s : Site) : Prop where
  numeric : ∀ o ∈ s.operands, o.numeric
  type : ∀ d ∈ s.types, d.isNumeric

namespace Rule

open Category

variable {s : Site}

/-- An operator between numbers starts from a type of numbers, and as a number. -/
theorem seed_of_numbers (h : s.Seeded) (operator : s.node.category.isOperator) (n : s.Numbers) :
    s.seed = .of (Category.add.ofChain s.types) := by
  have joined := joins_add.joinAll fun d mem => Datatype.isKnown_of_numeric (n.type d mem)
  rw [h.eq, if_pos operator, List.all_eq_true.mpr n.numeric, Bool.and_true, joined]
  rfl

/-- The shape of a product, operand by operand. -/
theorem shape_productShape (d : Datatype) (operands : List Operand) :
    (productShape d.shape operands).1
      = ((operands.map (·.datatype)).foldl Category.mul.ofTwo d).shape := by
  induction operands generalizing d with
  | nil => rfl
  | cons o rest ih =>
    have step : (Category.mul.ofTwo d o.datatype).shape = (d.shape.mul o.shape).toOption.getD d.shape :=
      rfl
    have later := ih (Category.mul.ofTwo d o.datatype)
    rw [step] at later
    unfold productShape
    split
    case h_1 next eq =>
      rw [eq] at later
      exact later
    case h_2 m eq =>
      rw [eq] at later
      exact later

/-- The type of a quotient so far. -/
def Quotient.type (q : Quotient) : Datatype := ⟨q.shape, q.cls⟩

/-- One more operand changes the type of the quotient as the division does. -/
def Divides (op : Category) (step : Quotient → Operand → Quotient) : Prop :=
  ∀ (q : Quotient) (o : Operand),
    ⟨(q.shape.div o.shape).toOption.getD q.shape, (step q o).cls⟩ = op.ofTwo q.type o.datatype

theorem quotient_type {op : Category} {step : Quotient → Operand → Quotient} (divides : Divides op step)
    (operator : String) (q : Quotient) (operands : List Operand) :
    (quotient s operator step q operands).1.type
      = (operands.map (·.datatype)).foldl op.ofTwo q.type := by
  induction operands generalizing q with
  | nil => rfl
  | cons o rest ih =>
    have shape : (quotientShape s operator q o).1 = (q.shape.div o.shape).toOption.getD q.shape := by
      unfold quotientShape
      split
      case h_1 eq => rw [eq]; rfl
      case h_2 eq => rw [eq]; rfl
    unfold quotient
    dsimp only
    rw [ih, List.map_cons, List.foldl_cons, ← divides q o, ← shape]
    rfl

theorem solveRight_divides : Divides .rightDiv solveRight := by
  intro q o
  have cls : (solveRight q o).cls
      = if Category.rightDiv.widens o.shape then max (max q.cls o.cls) .float else max q.cls o.cls := by
    unfold solveRight widens
    by_cases solves : Shape.matrix ≤ o.shape
    · simp [solves]
    · by_cases both : bothIntegral q o
      · simp [solves, both, StorageClass.max_float_of_integral both]
      · simp [solves, both, StorageClass.max_float_of_not_integral both]
  rw [cls]
  rfl

theorem solveLeft_divides : Divides .leftDiv solveLeft := by
  intro q o
  have cls : (solveLeft q o).cls
      = if Category.leftDiv.widens o.shape then max (max q.cls o.cls) .float else max q.cls o.cls := by
    unfold solveLeft widens
    by_cases solves : o.shape.isArray
    · simp [solves]
    · by_cases both : bothIntegral q o
      · simp [solves, both, StorageClass.max_float_of_integral both]
      · simp [solves, both, StorageClass.max_float_of_not_integral both]
  rw [cls]
  rfl

/-! ### Answers -/

/-- The rule answers with a type, and a number if that is one. -/
def Infers (answer : Except Error Outcome) (d : Datatype) : Prop :=
  ∃ o, answer = .ok o ∧ o.typing = .of d

theorem keep_infers {d : Datatype} (seed : s.seed = .of d) {template : Template} {effects : List Effect} :
    Infers (s.keep template effects) d :=
  ⟨_, rfl, seed⟩

variable (n : s.Numbers) (seed : s.seed = .of (Category.add.ofChain s.types))
include n seed

theorem mul_infers (some : s.operands ≠ []) : Infers (mul s) (Category.mul.ofChain s.types) := by
  have types : s.types ≠ [] := fun none => some (List.map_eq_nil_iff.mp none)
  have number : (Category.add.ofChain s.types).isNumeric := isNumeric_ofChain types n.type
  have known : s.seed.datatype.isKnown := by
    rw [seed]
    exact Datatype.isKnown_of_numeric number
  have numeric : s.seed.numeric := by
    rw [seed]
    exact number
  unfold mul
  rw [if_neg (by rw [known]; decide), if_neg (by rw [numeric]; decide)]
  split
  case h_1 none => exact absurd none some
  case h_2 first rest eq =>
    have list : s.types = first.datatype :: rest.map (·.datatype) := congrArg (List.map _) eq
    have cls : s.seed.datatype.cls = (Category.mul.ofChain s.types).cls := by
      rw [seed]
      exact cls_ofChain_congr fun _ => rfl
    refine ⟨_, rfl, congrArg Typing.of ?_⟩
    show Datatype.mk (productShape first.datatype.shape rest).1 s.seed.datatype.cls = _
    rw [shape_productShape, cls, list]
    rfl

theorem quotientTyping_eq (some : s.types ≠ []) : quotientTyping s.seed
    = .of ((Category.add.ofChain s.types).withClass (max (Category.add.ofChain s.types).cls .float)) := by
  have number : (Category.add.ofChain s.types).isNumeric := isNumeric_ofChain some n.type
  unfold quotientTyping
  rw [seed, if_pos (show (Typing.of _).numeric from number)]
  rfl

theorem elRightDiv_infers (two : 2 ≤ s.operands.length) :
    Infers (elRightDiv s) (Category.elRightDiv.ofChain s.types) := by
  have types : 2 ≤ s.types.length := (List.length_map _).symm ▸ two
  unfold elRightDiv
  split
  case h_1 none => rw [none] at two; cases two
  case h_2 =>
    refine ⟨_, rfl, ?_⟩
    rw [ofChain_widened (fun _ _ => rfl) (fun _ => rfl) types]
    exact quotientTyping_eq n seed (List.ne_nil_of_length_pos (by omega))

theorem elLeftDiv_infers (two : 2 ≤ s.operands.length) :
    Infers (elLeftDiv s) (Category.elRightDiv.ofChain s.types) := by
  have types : 2 ≤ s.types.length := (List.length_map _).symm ▸ two
  unfold elLeftDiv
  split
  case h_1 none => rw [none] at two; cases two
  case h_2 =>
    refine ⟨_, rfl, ?_⟩
    rw [ofChain_widened (fun _ _ => rfl) (fun _ => rfl) types]
    exact quotientTyping_eq n seed (List.ne_nil_of_length_pos (by omega))

/-- A structural division answers as its operands do one by one, or all of them at once if
they are scalars. -/
theorem structural_infers {op : Category} {operator : String}
    {step : Quotient → Operand → Quotient} {rule : Rule} (some : s.operands ≠ [])
    (divides : Divides op step) (elementwise : Infers (rule s) (Category.elRightDiv.ofChain s.types))
    (scalars : ∀ a b : Datatype, a.shape = .scalar → b.shape = .scalar →
      op.ofTwo a b = Category.elRightDiv.ofTwo a b) :
    Infers (structural operator step rule s) (op.ofChain s.types) := by
  have types : s.types ≠ [] := fun none => some (List.map_eq_nil_iff.mp none)
  have known : s.seed.datatype.isKnown := by
    rw [seed]
    exact Datatype.isKnown_of_numeric (isNumeric_ofChain types n.type)
  unfold structural
  rw [if_neg (by rw [known]; decide)]
  split
  case isTrue all =>
    have shapes : ∀ d ∈ s.types, d.shape = .scalar := List.forall_mem_map.mpr fun o mem =>
      eq_of_beq (List.all_eq_true.mp all o mem)
    rwa [ofChain_scalars scalars shapes]
  case isFalse =>
    split
    case h_1 none => exact absurd none some
    case h_2 first rest eq =>
      have list : s.types = first.datatype :: rest.map (·.datatype) := congrArg (List.map _) eq
      refine ⟨_, rfl, congrArg Typing.of ?_⟩
      rw [list]
      exact quotient_type divides operator (.ofOperand first) rest

omit seed in
/-- Whatever chain of at least two numbers a node is, its type is that of the chain taken
from the left. -/
theorem select_infers (h : s.Seeded) (chained : s.node.category.isChained)
    (two : 2 ≤ s.operands.length) :
    Infers (select s.tree s.node s) (s.node.category.ofChain s.types) := by
  have operator := isOperator_of_isChained chained
  have seed := seed_of_numbers h operator n
  have some : s.operands ≠ [] := List.ne_nil_of_length_pos (by omega)
  rw [select_of_isOperator operator]
  cases category : s.node.category <;> rw [category] at chained <;>
    first | cases chained; done | skip
  case mul => exact mul_infers n seed some
  case elRightDiv => exact elRightDiv_infers n seed two
  case elLeftDiv => exact elLeftDiv_infers n seed two
  case rightDiv =>
    exact structural_infers n seed some solveRight_divides (elRightDiv_infers n seed two)
      fun _ _ => ofTwo_rightDiv
  case leftDiv =>
    exact structural_infers n seed some solveLeft_divides (elLeftDiv_infers n seed two)
      fun _ _ => ofTwo_leftDiv
  case pow | elPow =>
    show Infers (power s) _
    unfold power
    split
    case h_1 none => exact absurd (List.map_eq_nil_iff.mp none) some
    case h_2 => exact keep_infers seed
  all_goals exact keep_infers seed

omit n seed in
/-- Parentheses around a number are of its type. -/
theorem paren_infers (h : s.Seeded) (category : s.node.category = .paren) (n : s.Numbers) :
    Infers (select s.tree s.node s) (Category.paren.ofChain s.types) := by
  have operator : s.node.category.isOperator := by rw [category]; rfl
  rw [select_of_isOperator operator, category]
  exact keep_infers (seed_of_numbers h operator n)

end Rule

end MatrixScript
