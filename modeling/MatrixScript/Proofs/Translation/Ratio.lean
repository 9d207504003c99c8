/-
# `Proofs.Translation.Ratio` — what left divisions between scalars are worth

The rule of a left division writes each operand over what stands before it.  From the
second step on that is the quotient so far in parentheses, but the first step writes the
first operand bare.  So the text is worth the chain where the first operand holds together
in front of any operator (`Rule.leftDivision_outcome`).

Products and quotients of floating-point variables, in both directions.  Resolving
such an expression gives a text that is worth it, provided that no chain of left
divisions has a bare chain in front (`Resolving.resolves_of_ratio`): the first divisor
is written without parentheses, so `a*b\c` becomes `c/a*b`.  A name or a pair of
parentheses in front holds together, and every later divisor is put into parentheses.
An assignment is then one line whose right side reads as C++ with the value of the
expression (`ratio_of_translateWith`).
-/
import MatrixScript.Proofs.Program.Scalar
import MatrixScript.Proofs.Rule.Scalar
import MatrixScript.Proofs.Translation.Reserved
import MatrixScript.Proofs.Translation.Scalar

namespace MatrixScript

/-! ## The rule of left divisions between scalars -/

section

open Rule (Quotient)

variable {floating : String → Bool}

namespace Rule

section Steps

variable {q : Quotient} {v : Env → Option ℚ} {o : Operand} {e : Expr}

theorem float_divideInto (typed literal : Bool) (divisor : String) (hq : q.cls.isReal)
    (ho : o.cls.isReal) : (divideInto typed literal q divisor o).cls = .float :=
  StorageClass.max_float_of_isReal (StorageClass.isReal_max hq ho)

/-- One more numerator over a divisor that holds together. -/
theorem divideInto_renders {literal : Bool} {divisor : String} (real : q.cls.isReal)
    (text : Cpp.Denotes floating divisor q.cls 2 v)
    (widened : literal → Cpp.Denotes floating (divisor ++ ".0") .float 2 v)
    (operand : o.Renders floating e) (tight : 1 ≤ Cpp.levelOf e.level) :
    (divideInto true literal q divisor o).Renders floating 1
      fun env => combined quotient? (e.value env) (v env) := by
  have float := float_divideInto true literal divisor real operand.real
  have numerator := operand.text.mono tight
  refine ⟨by rw [float]; rfl, ?_⟩
  rw [float]
  unfold divideInto
  dsimp only
  split
  case isTrue literal =>
    rw [String.append_assoc]
    exact denotes_quotient_float numerator operand.real (widened literal)
  case isFalse =>
    have quotient := denotes_quotient numerator text operand.real real
    rwa [Bool.and_comm] at quotient

/-- A later numerator stands over the quotient before it, which is put into parentheses. -/
theorem divideIntoQuotient_renders {acc : Expr}
    (h : q.Renders floating 1 fun env => acc.value env) (operand : o.Renders floating e)
    (tight : 1 ≤ Cpp.levelOf e.level) :
    (divideIntoQuotient true q o).Renders floating 1 fun env => (acc.dividing e).value env := by
  have step := divideInto_renders h.real h.text.paren
    (fun literal => absurd literal Bool.false_ne_true) operand tight
  refine ⟨step.real, step.text.congr fun env => ?_⟩
  rw [Expr.value_dividing, combined_comm]

theorem foldl_divideIntoQuotient_renders {os : List Operand} {es : List Expr}
    (operands : List.Forall₂ (Operand.Renders floating) os es)
    (tight : ∀ e ∈ es, 1 ≤ Cpp.levelOf e.level) : ∀ {q : Quotient} {acc : Expr},
      (q.Renders floating 1 fun env => acc.value env) →
      (os.foldl (divideIntoQuotient true) q).Renders floating 1
        fun env => (es.foldl Expr.dividing acc).value env := by
  induction operands with
  | nil => exact id
  | cons operand _ ih =>
    intro q acc h
    obtain ⟨here, there⟩ := List.forall_mem_cons.mp tight
    exact ih there (divideIntoQuotient_renders h operand here)

theorem float_foldl_divideIntoQuotient {os : List Operand} (real : ∀ o ∈ os, o.cls.isReal) :
    ∀ {q : Quotient}, q.cls = .float → (os.foldl (divideIntoQuotient true) q).cls = .float := by
  induction os with
  | nil => exact id
  | cons o os ih =>
    intro q float
    obtain ⟨here, there⟩ := List.forall_mem_cons.mp real
    exact ih there (float_divideInto true false _ (float ▸ rfl) here)

end Steps

section Chains

variable {s : Site} {first second : Expr} {more : List Expr}

/-- A left division of scalars is worth the quotients with operands exchanged, if its first
operand is a name, a call or in parentheses. -/
theorem elLeftDiv_outcome (h : s.Renders floating (first :: second :: more))
    (enclosed : 7 < first.level) (tight : ∀ e ∈ second :: more, 7 < e.level) :
    ∃ outcome, elLeftDiv s = .ok outcome
      ∧ outcome.Renders floating s
        (more.foldl Expr.dividing (.chain .elRightDiv second first [])) := by
  obtain ⟨o, os, operands, start, others, real, seed⟩ := start_of_renders h
  obtain ⟨o', os, second', others', rfl⟩ := List.forall₂_cons_right_iff.mp others
  obtain ⟨tight', tightMore⟩ := List.forall_mem_cons.mp tight
  have numeric := numeric_of_seed real seed
  let q := divideInto true (o.node.category == .int) (.ofOperand o) o.text o'
  have begun : q.Renders floating 1 fun env =>
      (Expr.chain .elRightDiv second first []).value env := by
    have step := divideInto_renders (q := .ofOperand o) start.real
      (start.text.mono (Cpp.two_le_levelOf enclosed)) (fun int => start.widened (eq_of_beq int))
      second' (Cpp.one_le_levelOf (by omega))
    refine ⟨step.real, step.text.congr fun env => ?_⟩
    rw [Expr.value, Expr.valueFrom]
    rfl
  have folded := foldl_divideIntoQuotient_renders others'
    (fun e mem => Cpp.one_le_levelOf (Nat.lt_of_succ_lt (tightMore e mem))) begun
  have float := float_foldl_divideIntoQuotient
    (Operand.forall_of_renders (fun renders => renders.real) others')
    (show q.cls = .float from float_divideInto true _ o.text start.real second'.real)
  refine ⟨⟨.fixed (os.foldl (divideIntoQuotient true) q).text, .of (.scalar .float), []⟩, ?_, rfl,
    .float, rfl, rfl, fun node => ?_⟩
  case refine_1 =>
    rw [elLeftDiv, operands]
    simp only [quotientTyping_seed real seed, numeric, checkNumeric_eq_nil _ numeric]
    rfl
  case refine_2 =>
    have denotes := folded.text
    rw [float] at denotes
    rw [Expr.level_foldl_dividing rfl]
    exact denotes

/-- Between scalars a matrix quotient from the left is an element-wise one. -/
theorem leftDiv_eq (h : s.Renders floating (first :: second :: more)) :
    leftDiv s = elLeftDiv s := by
  obtain ⟨o, os, -, -, -, real, seed⟩ := start_of_renders h
  rw [leftDiv, structural, known_of_seed real seed, allScalar_of_renders h]
  rfl

/-- The rule of both left divisions. -/
theorem leftDivision_outcome {op : ChainOp} (left : op.isLeftDivision)
    (h : s.Renders floating (first :: second :: more)) (enclosed : 7 < first.level)
    (tight : ∀ e ∈ second :: more, 7 < e.level) :
    ∃ rule outcome, ofCategory? op.category = some rule ∧ rule s = .ok outcome
      ∧ outcome.Renders floating s
        (more.foldl Expr.dividing (.chain .elRightDiv second first [])) := by
  obtain ⟨outcome, ok, renders⟩ := elLeftDiv_outcome h enclosed tight
  cases op with
  | leftDiv => exact ⟨leftDiv, outcome, rfl, (leftDiv_eq h).trans ok, renders⟩
  | elLeftDiv => exact ⟨elLeftDiv, outcome, rfl, ok, renders⟩
  | _ => cases left

end Chains

end Rule

end

/-! ## The whole walk -/

theorem Tree.numbers_of_ratio {declarations : NameTable Datatype} {e : Expr}
    (h : e.Ratio declarations) : Numbers e := by
  induction h with
  | name => exact numbers_name _
  | paren _ ih => exact numbers_paren ih
  | chain _ _ ih => exact numbers_chain ih

/-- What is no chain is tighter than every chain of products and quotients. -/
theorem Expr.Ratio.lt_level {declarations : NameTable Datatype} {e : Expr}
    (h : e.Ratio declarations) (single : e.chainOp? = none) : 7 < e.level := by
  cases h with
  | name | paren => exact (by decide : 7 < 11)
  | chain => cases single

namespace Resolving

variable {declarations : NameTable Datatype} {e : Expr}

/-- Products and quotients are resolved to a text that is worth them. -/
theorem resolves_of_ratio (h : e.Ratio declarations) (canonical : e.Canonical)
    (enclosed : e.DivisorsEnclosed)
    (free : ∀ x d, declarations.get? x = some d → Builtin.isReserved x = false) :
    ∀ depth, ResolvesTo declarations depth e e.turned := by
  induction h with
  | name declared =>
    cases canonical with
    | name spelled => exact resolves_name (free _ _ declared) declared rfl spelled
  | paren _ ih =>
    cases canonical with
    | paren inner =>
      cases enclosed with
      | paren enclosed => exact resolves_paren (ih inner enclosed)
  | @chain op first second more level ratios ih =>
    cases canonical with
    | chain start low _ operands takes =>
      cases enclosed with
      | chain front enclosed =>
        have all : ∀ e ∈ first :: second :: more, e.Canonical :=
          List.forall_mem_cons.mpr ⟨start, operands⟩
        have resolves : ∀ depth, List.Forall₂ (ResolvesTo declarations depth)
            (first :: second :: more) ((first :: second :: more).map Expr.turned) := by
          intro depth
          rw [List.forall₂_map_right_iff]
          exact List.forall₂_same.mpr fun e mem => ih e mem (all e mem) (enclosed e mem) depth
        have tight : ∀ e ∈ second :: more, 7 < e.level := fun e mem =>
          level ▸ Rule.takes_tight (by rw [level]; decide) (takes e mem)
        obtain ⟨ratio, ratios⟩ := List.forall_mem_cons.mp ratios
        have turned : ∀ m ∈ second.turned :: more.map Expr.turned, 7 < m.level := by
          rw [← List.map_cons, List.forall_mem_map]
          intro e mem
          rw [(ratios e mem).level_turned]
          exact tight e mem
        rw [Expr.turned_chain, Expr.turnedAll_eq_map]
        rcases ChainOp.ratio_cases level with ⟨left, -⟩ | ⟨right, arithmetic, -⟩
        · rw [if_pos left]
          have single : 7 < first.turned.level := by
            rw [ratio.level_turned]
            exact ratio.lt_level (front left)
          exact resolves_chain
            (fun s site => Rule.leftDivision_outcome left site single turned) resolves
        · rw [right, if_neg Bool.false_ne_true]
          have low' : op.level ≤ first.turned.level := by rwa [ratio.level_turned]
          have takes' : ∀ m ∈ second.turned :: more.map Expr.turned, op.Takes m := by
            intro m mem
            rw [ChainOp.Takes, level, if_neg (by decide)]
            exact turned m mem
          exact resolves_chain (fun s site => Rule.chain_outcome arithmetic site low' takes') resolves

end Resolving

/-- Translating an assignment of products and quotients of floating-point variables emits one
assignment, and its right side, read as C++, is worth what the expression is, if the first
divisor of every chain of left divisions is a name or stands in parentheses. -/
theorem ratio_of_translateWith {source y : String} {e : Expr} {config : Config}
    (parses : Program.parse source = .ok [.statement (.assign (.variable y) e)])
    (free : Builtin.isReserved y = false) (ratio : e.Ratio config.declarations)
    (enclosed : e.DivisorsEnclosed) (valid : config.validate = .ok config) :
    ∃ translation text tree, translateWith source config = .ok translation
      ∧ translation.statements = [y ++ " = " ++ text ++ " ;"] ∧ Cpp.read? text = some tree
      ∧ ∀ env, tree.value (isFloatingIn config.declarations) env = e.ratio env := by
  have canonical : e.Canonical := (Program.accepted_of_parse parses _ List.mem_cons_self).2
  have declared : ∀ x d, config.declarations.get? x = some d → Builtin.isReserved x = false := by
    intro x d found
    refine Bool.eq_false_iff.mpr fun reserved => ?_
    rw [Config.lacks_of_validate reserved valid] at found
    cases found
  obtain ⟨translation, text, tree, ok, statements, reads, worth⟩ :=
    translateWith_of_resolves parses free (Tree.numbers_of_ratio ratio)
      (Resolving.resolves_of_ratio ratio canonical enclosed declared) valid
  exact ⟨translation, text, tree, ok, statements, reads,
    fun env => (worth env).trans (ratio.value_turned env)⟩

section Instances

/-- Three floating-point variables. -/
def threeFloats : Config :=
  { declarations := ⟨[("a", .scalar .float), ("b", .scalar .float), ("c", .scalar .float)]⟩ }

theorem ratio_of_name {x : String} (declared : x ∈ ["a", "b", "c"]) :
    Expr.Ratio threeFloats.declarations (.name x) := by
  simp only [List.mem_cons, List.not_mem_nil, or_false] at declared
  rcases declared with rfl | rfl | rfl <;> exact .name rfl

/-- A product in parentheses in front of two left divisions, within a product. -/
theorem ratio_of_translateWith_nested : ∃ e translation text tree,
    Program.parse "y = (a*b)\\c\\a*b" = .ok [.statement (.assign (.variable "y") e)]
      ∧ e.Ratio threeFloats.declarations ∧ e.DivisorsEnclosed
      ∧ translateWith "y = (a*b)\\c\\a*b" threeFloats = .ok translation
      ∧ translation.statements = ["y" ++ " = " ++ text ++ " ;"] ∧ Cpp.read? text = some tree
      ∧ ∀ env, tree.value (isFloatingIn threeFloats.declarations) env = e.ratio env := by
  let product : Expr := .chain .mul (.name "a") (.name "b") []
  let quotient : Expr := .chain .leftDiv (.paren product) (.name "c") [.name "a"]
  have parses : Program.parse "y = (a*b)\\c\\a*b"
      = .ok [.statement (.assign (.variable "y") (.chain .mul quotient (.name "b") []))] := by cbv
  have a := ratio_of_name (x := "a") (by decide)
  have b := ratio_of_name (x := "b") (by decide)
  have c := ratio_of_name (x := "c") (by decide)
  have factors : Expr.Ratio threeFloats.declarations product := .chain rfl (by simp [a, b])
  have inner : Expr.Ratio threeFloats.declarations quotient :=
    .chain rfl (by simp [factors.paren, a, c])
  have ratio : Expr.Ratio threeFloats.declarations (.chain .mul quotient (.name "b") []) :=
    .chain rfl (by simp [inner, b])
  have front : product.DivisorsEnclosed :=
    .chain (fun left => by cases left) (by simp [Expr.DivisorsEnclosed.name])
  have enclosed : quotient.DivisorsEnclosed :=
    .chain (fun _ => rfl) (by simp [front.paren, Expr.DivisorsEnclosed.name])
  have whole : (Expr.chain .mul quotient (.name "b") []).DivisorsEnclosed :=
    .chain (fun left => by cases left) (by simp [enclosed, Expr.DivisorsEnclosed.name])
  obtain ⟨translation, text, tree, found⟩ :=
    ratio_of_translateWith parses (by decide) ratio whole rfl
  exact ⟨_, translation, text, tree, parses, ratio, whole, found⟩

/-- A bare product in front of a left division does not hold together: `c/a*b` is emitted. -/
theorem ratio_of_translateWith_not : ∃ e,
    Program.parse "y = a*b\\c" = .ok [.statement (.assign (.variable "y") e)]
      ∧ e.Ratio threeFloats.declarations
      ∧ ¬ ∃ translation text tree, translateWith "y = a*b\\c" threeFloats = .ok translation
        ∧ translation.statements = ["y" ++ " = " ++ text ++ " ;"] ∧ Cpp.read? text = some tree
        ∧ ∀ env, tree.value (isFloatingIn threeFloats.declarations) env = e.ratio env := by
  let product : Expr := .chain .mul (.name "a") (.name "b") []
  have parses : Program.parse "y = a*b\\c"
      = .ok [.statement (.assign (.variable "y") (.chain .leftDiv product (.name "c") []))] := by
    cbv
  have a := ratio_of_name (x := "a") (by decide)
  have b := ratio_of_name (x := "b") (by decide)
  have c := ratio_of_name (x := "c") (by decide)
  have inner : Expr.Ratio threeFloats.declarations product := .chain rfl (by simp [a, b])
  refine ⟨_, parses, .chain rfl (by simp [inner, c]), ?_⟩
  rintro ⟨translation, text, tree, ok, statements, reads, worth⟩
  have emitted : (translateWith "y = a*b\\c" threeFloats).toOption.map (·.statements)
      = some ["y" ++ " = " ++ "c/a*b" ++ " ;"] := by decide +kernel
  rw [ok] at emitted
  have lines := statements.symm.trans (Option.some.inj emitted)
  have same : text = "c/a*b" := by
    have letters := congrArg String.toList (List.cons.inj lines).1
    simp only [String.toList_append, List.append_assoc] at letters
    exact String.toList_injective
      (List.append_cancel_right (List.append_cancel_left (List.append_cancel_left letters)))
  subst same
  have read : Cpp.read? "c/a*b"
      = some (.binary .mul (.binary .div (.name "c") (.name "a")) (.name "b")) := by
    decide +kernel
  obtain rfl := Option.some.inj (read.symm.trans reads)
  have differ := worth ⟨fun x => if x = "b" then 2 else 1, fun _ _ => none⟩
  revert differ
  decide +kernel

end Instances

end MatrixScript
