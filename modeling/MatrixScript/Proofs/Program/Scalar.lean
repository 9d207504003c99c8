/-
# `Proofs.Program.Scalar` — scalar arithmetic and what it is worth

The expressions of plain arithmetic (`Expr.Scalar`): numerals and variables
that are declared as real scalars, in parentheses and in chains of the binary
operators.  `Expr.value` is the exact number of such an expression.  A chain is
worked out from the left, both products multiply, both quotients divide, and
both powers are one function that nothing is known of.
-/
import MatrixScript.Config
import MatrixScript.Proofs.Program.Grammar
import MatrixScript.Proofs.Token.Decimal

namespace MatrixScript

/-! ## The fragment -/

/-- Real numbers, of whole or floating-point type. -/
def StorageClass.isReal : StorageClass → Bool
  | .int | .uword | .float => true
  | _ => false

/-- The variables that are declared as floating-point scalars. -/
def isFloatingIn (declarations : NameTable Datatype) (x : String) : Bool :=
  declarations.get? x == some (.scalar .float)

theorem LiteralKind.spells_tenths {s : String} (spells : LiteralKind.int.spells s) :
    LiteralKind.float.spells (s ++ ".0") := by
  obtain ⟨some, digits⟩ := Token.all_isDigit_of_int (eq_of_beq spells)
  rw [LiteralKind.spells, show (s ++ ".0").toList = s.toList ++ ['.', '0'] from String.toList_append ..,
    Token.numberAt?_tenths some digits]
  exact beq_self_eq_true _

/-- Sums, products, right quotients and powers, of matrices or element by element. -/
def ChainOp.isArithmetic : ChainOp → Bool
  | .add | .sub | .mul | .elMul | .rightDiv | .elRightDiv | .pow | .elPow => true
  | _ => false

/-- Arithmetic of real scalars: the variables are declared, and an integer has no zero in
front. -/
inductive Expr.Scalar (declarations : NameTable Datatype) : Expr → Prop
  | name {x : String} {c : StorageClass} : Builtin.isReserved x = false →
      declarations.get? x = some (.scalar c) → c.isReal → Scalar declarations (.name x)
  | int {s : String} : Token.hasLeadingZero s.toList = false →
      Scalar declarations (.literal .int s)
  | float {s : String} : Scalar declarations (.literal .float s)
  | paren {e : Expr} : Scalar declarations e → Scalar declarations (.paren e)
  | chain {op : ChainOp} {first second : Expr} {more : List Expr} : op.isArithmetic →
      (∀ e ∈ first :: second :: more, Scalar declarations e) →
      Scalar declarations (.chain op first second more)

/-! ## Values -/

/-- Values of variables, and the power function. -/
structure Env where
  value : String → ℚ
  power : ℚ → ℚ → Option ℚ

/-- Quotient of two numbers; there is none by zero. -/
def quotient? (a b : ℚ) : Option ℚ := if b = 0 then none else some (a / b)

/-- An operator on numbers, if it belongs to plain arithmetic. -/
def ChainOp.apply (env : Env) : ChainOp → ℚ → ℚ → Option ℚ
  | .add, a, b => some (a + b)
  | .sub, a, b => some (a - b)
  | .mul, a, b | .elMul, a, b => some (a * b)
  | .rightDiv, a, b | .elRightDiv, a, b => quotient? a b
  | .pow, a, b | .elPow, a, b => env.power a b
  | _, _, _ => none

/-- An operator between operands that may have no value. -/
def combined (f : ℚ → ℚ → Option ℚ) (a b : Option ℚ) : Option ℚ := do f (← a) (← b)

mutual

/-- Number of an expression of plain arithmetic. -/
def Expr.value (env : Env) : Expr → Option ℚ
  | .name x => some (env.value x)
  | .literal .int s | .literal .float s => some (Token.decimal s.toList)
  | .paren e => e.value env
  | .chain op first second more =>
      Expr.valueFrom env op (combined (op.apply env) (first.value env) (second.value env)) more
  | _ => none

/-- Number of a chain whose operands so far are worth `acc`. -/
def Expr.valueFrom (env : Env) (op : ChainOp) (acc : Option ℚ) : List Expr → Option ℚ
  | [] => acc
  | e :: es => Expr.valueFrom env op (combined (op.apply env) acc (e.value env)) es

end

theorem Expr.value_chain (env : Env) (op : ChainOp) (first second : Expr) (more : List Expr) :
    (Expr.chain op first second more).value env
      = Expr.valueFrom env op (first.value env) (second :: more) := by
  rw [Expr.value, Expr.valueFrom]

/-! ## Products and quotients in both directions

The products and quotients of variables that are declared as floating-point
scalars (`Expr.Ratio`).  The divisor of a right division stands behind the
operator, that of a left division in front of it, and every chain is worked out
from the left; `Expr.ratio` is the exact number.

A left division is a right one with its operands exchanged, and the quotient so
far is one operand of the next.  `Expr.turned` writes an expression that way, so
what is known of plain arithmetic carries over (`Expr.value_turned`). -/

/-! ## The fragment -/

/-- The divisions whose divisor stands in front. -/
def ChainOp.isLeftDivision : ChainOp → Bool
  | .leftDiv | .elLeftDiv => true
  | _ => false

/-- Products and quotients of declared floating-point scalars, with parentheses. -/
inductive Expr.Ratio (declarations : NameTable Datatype) : Expr → Prop
  | name {x : String} : declarations.get? x = some (.scalar .float) →
      Ratio declarations (.name x)
  | paren {e : Expr} : Ratio declarations e → Ratio declarations (.paren e)
  | chain {op : ChainOp} {first second : Expr} {more : List Expr} : op.level = 7 →
      (∀ e ∈ first :: second :: more, Ratio declarations e) →
      Ratio declarations (.chain op first second more)

/-- The first divisor of every chain of left divisions is a name or stands in parentheses. -/
inductive Expr.DivisorsEnclosed : Expr → Prop
  | name {x : String} : DivisorsEnclosed (.name x)
  | paren {e : Expr} : DivisorsEnclosed e → DivisorsEnclosed (.paren e)
  | chain {op : ChainOp} {first second : Expr} {more : List Expr} :
      (op.isLeftDivision → first.chainOp? = none) →
      (∀ e ∈ first :: second :: more, DivisorsEnclosed e) →
      DivisorsEnclosed (.chain op first second more)

/-! ## Values -/

/-- An operator on numbers, if it multiplies or divides. -/
def ChainOp.ratio : ChainOp → ℚ → ℚ → Option ℚ
  | .mul, a, b | .elMul, a, b => some (a * b)
  | .rightDiv, a, b | .elRightDiv, a, b => quotient? a b
  | .leftDiv, a, b | .elLeftDiv, a, b => quotient? b a
  | _, _, _ => none

mutual

/-- Number of an expression of products and quotients. -/
def Expr.ratio (env : Env) : Expr → Option ℚ
  | .name x => some (env.value x)
  | .paren e => e.ratio env
  | .chain op first second more =>
      Expr.ratioFrom env op (combined op.ratio (first.ratio env) (second.ratio env)) more
  | _ => none

/-- Number of a chain whose operands so far are worth `acc`. -/
def Expr.ratioFrom (env : Env) (op : ChainOp) (acc : Option ℚ) : List Expr → Option ℚ
  | [] => acc
  | e :: es => Expr.ratioFrom env op (combined op.ratio acc (e.ratio env)) es

end

/-! ## Exchanged operands -/

/-- The quotient of `e` by the whole of `acc`. -/
def Expr.dividing (acc e : Expr) : Expr := .chain .elRightDiv e (.paren acc) []

mutual

/-- The expression with right divisions only. -/
def Expr.turned : Expr → Expr
  | .paren e => .paren e.turned
  | .chain op first second more =>
      if op.isLeftDivision then
        (Expr.turnedAll more).foldl Expr.dividing (.chain .elRightDiv second.turned first.turned [])
      else .chain op first.turned second.turned (Expr.turnedAll more)
  | e => e

/-- Every one of the expressions with right divisions only. -/
def Expr.turnedAll : List Expr → List Expr
  | [] => []
  | e :: es => e.turned :: Expr.turnedAll es

end

theorem Expr.turned_chain (op : ChainOp) (first second : Expr) (more : List Expr) :
    (chain op first second more).turned
      = if op.isLeftDivision then
          (turnedAll more).foldl dividing (.chain .elRightDiv second.turned first.turned [])
        else .chain op first.turned second.turned (turnedAll more) := rfl

theorem Expr.turnedAll_cons (e : Expr) (es : List Expr) :
    turnedAll (e :: es) = e.turned :: turnedAll es := rfl

theorem Expr.turnedAll_eq_map (es : List Expr) : Expr.turnedAll es = es.map Expr.turned := by
  induction es with
  | nil => rfl
  | cons e es ih => rw [turnedAll_cons, ih, List.map_cons]

theorem combined_comm (f : ℚ → ℚ → Option ℚ) (a b : Option ℚ) :
    combined f a b = combined (fun x y => f y x) b a := by
  cases a <;> cases b <;> rfl

theorem Expr.value_dividing (env : Env) (acc e : Expr) :
    (dividing acc e).value env
      = combined (fun a b => quotient? b a) (acc.value env) (e.value env) := by
  rw [dividing, value, valueFrom, value, combined_comm]
  rfl

theorem Expr.level_foldl_dividing {acc : Expr} (level : acc.level = 7) (es : List Expr) :
    (es.foldl dividing acc).level = 7 := by
  induction es generalizing acc with
  | nil => exact level
  | cons e es ih => exact ih rfl

/-- Turning keeps the level. -/
theorem Expr.Ratio.level_turned {declarations : NameTable Datatype} {e : Expr}
    (h : e.Ratio declarations) : e.turned.level = e.level := by
  cases h with
  | name => rfl
  | paren => rfl
  | @chain op first second more level =>
    rw [turned_chain]
    split
    · rw [level_foldl_dividing rfl]
      exact level.symm
    · rfl

/-- An operator of products and quotients is one of plain arithmetic or a left division. -/
theorem ChainOp.ratio_cases {op : ChainOp} (level : op.level = 7) :
    (op.isLeftDivision ∧ op.ratio = fun a b => quotient? b a)
      ∨ (op.isLeftDivision = false ∧ op.isArithmetic ∧ ∀ env, op.apply env = op.ratio) := by
  cases op with
  | leftDiv | elLeftDiv => exact .inl ⟨rfl, rfl⟩
  | mul | elMul | rightDiv | elRightDiv => exact .inr ⟨rfl, rfl, fun _ => rfl⟩
  | _ => cases level

section Values

variable {env : Env} {op : ChainOp}

theorem Expr.ratio_chain (first second : Expr) (more : List Expr) :
    (chain op first second more).ratio env
      = ratioFrom env op (combined op.ratio (first.ratio env) (second.ratio env)) more := rfl

theorem Expr.ratioFrom_cons (acc : Option ℚ) (e : Expr) (es : List Expr) :
    ratioFrom env op acc (e :: es) = ratioFrom env op (combined op.ratio acc (e.ratio env)) es := rfl

theorem Expr.valueFrom_turnedAll (same : op.apply env = op.ratio) {es : List Expr}
    (h : ∀ e ∈ es, e.turned.value env = e.ratio env) (acc : Option ℚ) :
    valueFrom env op acc (turnedAll es) = ratioFrom env op acc es := by
  induction es generalizing acc with
  | nil => rfl
  | cons e es ih =>
    obtain ⟨here, there⟩ := List.forall_mem_cons.mp h
    rw [turnedAll_cons, valueFrom, ratioFrom_cons, here, same]
    exact ih there _

theorem Expr.value_foldl_dividing (same : op.ratio = fun a b => quotient? b a) {es : List Expr}
    (h : ∀ e ∈ es, e.turned.value env = e.ratio env) (acc : Expr) :
    ((turnedAll es).foldl dividing acc).value env = ratioFrom env op (acc.value env) es := by
  induction es generalizing acc with
  | nil => rfl
  | cons e es ih =>
    obtain ⟨here, there⟩ := List.forall_mem_cons.mp h
    rw [turnedAll_cons, List.foldl_cons, ih there, value_dividing, ratioFrom_cons, here, same]

end Values

/-- Turning keeps the value. -/
theorem Expr.Ratio.value_turned {declarations : NameTable Datatype} {e : Expr}
    (h : e.Ratio declarations) (env : Env) : e.turned.value env = e.ratio env := by
  induction h with
  | name => rfl
  | paren _ ih => exact ih
  | @chain op first second more level _ ih =>
    obtain ⟨hfirst, ih⟩ := List.forall_mem_cons.mp ih
    obtain ⟨hsecond, hmore⟩ := List.forall_mem_cons.mp ih
    rw [turned_chain, ratio_chain]
    rcases ChainOp.ratio_cases level with ⟨left, same⟩ | ⟨right, -, same⟩
    · rw [if_pos left, value_foldl_dividing same hmore, value, valueFrom, hfirst, hsecond, same,
        combined_comm]
      rfl
    · rw [right, if_neg Bool.false_ne_true, value, hfirst, hsecond, same,
        valueFrom_turnedAll (same env) hmore]

end MatrixScript
