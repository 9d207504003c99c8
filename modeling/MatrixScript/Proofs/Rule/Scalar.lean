/-
# `Proofs.Rule.Scalar` — the rules of scalar arithmetic keep its value

A rule of an operator folds the texts of its operands from the left, and so does
the value of a chain.  So one step of the rule is compared with one step of the
value (`*_renders`), and `Quotient.Renders.foldl` carries the comparison over the
whole chain.  The accumulator is a `Quotient` for every operator, since a step
has to know the class so far.  Each of the eight rules then answers a text that
is worth the chain (`Rule.*_outcome`).
-/
import Mathlib.Data.List.Forall2
import MatrixScript.Proofs.Cpp.Reading
import MatrixScript.Proofs.Text.Slice
import MatrixScript.Rule.Table

namespace MatrixScript

open Rule (Quotient)

/-! ## Patterns of rules -/

namespace Template

variable (node : Node) (texts : List String)

theorem render_name : render node texts (.format "%(name)s") = node.name := by
  have opens : Text.splitAtPair '%' '(' "%(name)s".toList = some ([], "name)s".toList) := by decide
  have closes : Text.splitAtPair ')' 's' "name)s".toList = some ("name".toList, []) := by decide
  have whole : substitute (fun key => (valueOf? node texts key).map String.toList)
      "%(name)s".toList = node.name.toList := by
    rw [substitute_step opens closes, substitute_plain rfl]
    simp [valueOf?]
  rw [render, whole, String.ofList_toList]

theorem render_value {s : String} (value : node.value = some s) :
    render node texts (.format "%(value)s") = s := by
  have opens : Text.splitAtPair '%' '(' "%(value)s".toList = some ([], "value)s".toList) := by
    decide
  have closes : Text.splitAtPair ')' 's' "value)s".toList = some ("value".toList, []) := by decide
  have whole : substitute (fun key => (valueOf? node texts key).map String.toList)
      "%(value)s".toList = s.toList := by
    rw [substitute_step opens closes, substitute_plain rfl]
    simp [valueOf?, value]
  rw [render, whole, String.ofList_toList]

theorem render_paren (text : String) (rest : List String) :
    render node (text :: rest) (.format "(%(0)s)") = "(" ++ text ++ ")" := by
  have opens : Text.splitAtPair '%' '(' "(%(0)s)".toList = some (['('], "0)s)".toList) := by decide
  have closes : Text.splitAtPair ')' 's' "0)s)".toList = some (['0'], [')']) := by decide
  have value : valueOf? node (text :: rest) ['0'] = some text := rfl
  have whole : substitute (fun key => (valueOf? node (text :: rest) key).map String.toList)
      "(%(0)s)".toList = '(' :: (text.toList ++ [')']) := by
    rw [substitute_step opens closes, substitute_plain rfl, value]
    rfl
  rw [render, whole]
  apply String.toList_injective
  simp

theorem render_assign (target value : String) (rest : List String) :
    render node (target :: value :: rest) (.format "%(0)s = %(1)s ;")
      = target ++ " = " ++ value ++ " ;" := by
  have opens : Text.splitAtPair '%' '(' "%(0)s = %(1)s ;".toList
      = some ([], "0)s = %(1)s ;".toList) := by decide
  have closes : Text.splitAtPair ')' 's' "0)s = %(1)s ;".toList
      = some (['0'], " = %(1)s ;".toList) := by decide
  have opens' : Text.splitAtPair '%' '(' " = %(1)s ;".toList
      = some (" = ".toList, "1)s ;".toList) := by decide
  have closes' : Text.splitAtPair ')' 's' "1)s ;".toList = some (['1'], " ;".toList) := by decide
  have first : valueOf? node (target :: value :: rest) ['0'] = some target := rfl
  have second : valueOf? node (target :: value :: rest) ['1'] = some value := rfl
  have whole : substitute (fun key => (valueOf? node (target :: value :: rest) key).map String.toList)
      "%(0)s = %(1)s ;".toList
        = target.toList ++ (" = ".toList ++ (value.toList ++ " ;".toList)) := by
    rw [substitute_step opens closes, substitute_step opens' closes', substitute_plain rfl, first,
      second]
    simp
  rw [render, whole]
  apply String.toList_injective
  simp

end Template

/-! ## Levels and classes -/

/-- Level of the C++ text of an expression of level `ℓ`: a sum, a product or neither. -/
def Cpp.levelOf (ℓ : Nat) : Nat := if ℓ ≤ 6 then 0 else if ℓ ≤ 7 then 1 else 2

theorem Cpp.levelOf_mono {ℓ m : Nat} (le : ℓ ≤ m) : levelOf ℓ ≤ levelOf m := by
  unfold levelOf
  split <;> split <;> (try split) <;> (try split) <;> omega

theorem Cpp.one_le_levelOf {ℓ : Nat} (lt : 6 < ℓ) : 1 ≤ levelOf ℓ := levelOf_mono lt

theorem Cpp.two_le_levelOf {ℓ : Nat} (lt : 7 < ℓ) : 2 ≤ levelOf ℓ := levelOf_mono lt

namespace StorageClass

variable {a b : StorageClass}

theorem isReal_max (ha : a.isReal) (hb : b.isReal) : (max a b).isReal := by
  revert ha hb
  cases a <;> cases b <;> decide

theorem isNumeric_of_isReal (h : a.isReal) : (Datatype.scalar a).isNumeric := by
  revert h
  cases a <;> decide

/-- A real class that is not integral is floating point. -/
theorem eq_float_of_isReal (h : a.isReal) (whole : a.isIntegral = false) : a = .float := by
  revert h whole
  cases a <;> decide

theorem max_float_of_isReal (h : a.isReal) : max a .float = .float := by
  revert h
  cases a <;> decide

theorem float_max_of_isReal (h : a.isReal) : max .float a = .float := by
  revert h
  cases a <;> decide

theorem join_scalar (ha : a.isReal) (hb : b.isReal) :
    (Datatype.scalar a).join (.scalar b) = .scalar (max a b) := by
  revert ha hb
  cases a <;> cases b <;> decide

end StorageClass

/-! ## Operands and quotients -/

variable {floating : String → Bool}

/-- A resolved operand of real class whose text is worth `e`; if it is an integer literal,
the text can be widened. -/
structure Operand.Renders (floating : String → Bool) (o : Operand) (e : Expr) : Prop where
  real : o.cls.isReal
  typing : o.node.typing = .of (.scalar o.cls)
  text : Cpp.Denotes floating o.text o.cls (Cpp.levelOf e.level) fun env => e.value env
  widened : o.node.category = .int →
    Cpp.Denotes floating (o.text ++ ".0") .float 2 fun env => e.value env

/-- The operands so far are of real class and their text is worth `v`. -/
structure Rule.Quotient.Renders (floating : String → Bool) (q : Quotient) (ℓ : Nat)
    (v : Env → Option ℚ) : Prop where
  real : q.cls.isReal
  text : Cpp.Denotes floating q.text q.cls ℓ v

/-- If one step of `step` is worth one step of the chain, so are all of them together. -/
theorem Rule.Quotient.Renders.foldl {op : ChainOp} {ℓ : Nat} {step : Quotient → Operand → Quotient}
    (one : ∀ {q : Quotient} {v : Env → Option ℚ} {o : Operand} {e : Expr},
      q.Renders floating ℓ v → o.Renders floating e → op.Takes e →
      (step q o).Renders floating ℓ fun env => combined (op.apply env) (v env) (e.value env))
    {os : List Operand} {es : List Expr} (operands : List.Forall₂ (Operand.Renders floating) os es) :
    ∀ {q : Quotient} {v : Env → Option ℚ}, (∀ e ∈ es, op.Takes e) → q.Renders floating ℓ v →
      (os.foldl step q).Renders floating ℓ fun env => Expr.valueFrom env op (v env) es := by
  induction operands with
  | nil =>
    intro q v _ h
    simpa only [List.foldl_nil, Expr.valueFrom] using h
  | cons operand _ ih =>
    intro q v takes h
    obtain ⟨here, there⟩ := List.forall_mem_cons.mp takes
    simpa only [List.foldl_cons, Expr.valueFrom] using ih there (one h operand here)

/-! ## One step -/

namespace Rule

/-- One more operand behind an operator of C++. -/
def joinBy (operator : String) (q : Quotient) (o : Operand) : Quotient :=
  { q with text := q.text ++ operator ++ o.text, cls := max q.cls o.cls }

/-- One more exponent. -/
def raiseTo (q : Quotient) (o : Operand) : Quotient :=
  { q with text := "std::pow(" ++ q.text ++ ", " ++ o.text ++ ")", cls := max q.cls o.cls }

section Steps

variable {q : Quotient} {v : Env → Option ℚ} {o : Operand} {e : Expr}

theorem joinBy_renders {op : Cpp.Op} (other : op ≠ .div) (h : q.Renders floating op.level v)
    (operand : o.Renders floating e) (tight : op.level + 1 ≤ Cpp.levelOf e.level) :
    (joinBy (String.singleton op.symbol) q o).Renders floating op.level
      fun env => combined (op.apply true) (v env) (e.value env) where
  real := StorageClass.isReal_max h.real operand.real
  text := h.text.binary op (operand.text.mono tight) fun eq => absurd eq other

theorem raiseTo_renders {ℓ : Nat} (h : q.Renders floating ℓ v) (operand : o.Renders floating e) :
    (raiseTo q o).Renders floating 2 fun env => combined env.power (v env) (e.value env) where
  real := StorageClass.isReal_max h.real operand.real
  text := h.text.pow operand.text _

theorem combined_one (a : Option ℚ) : combined (Cpp.Op.mul.apply true) a (some 1) = a := by
  cases a with
  | none => rfl
  | some a => simp [combined, Cpp.Op.apply]

/-- Two real classes that are not both integral have a floating-point one among them. -/
theorem float_of_not_integral {a b : StorageClass} (ha : a.isReal) (hb : b.isReal)
    (other : (a.isIntegral && b.isIntegral) = false) : a = .float ∨ b = .float := by
  rw [Bool.and_eq_false_iff] at other
  exact other.imp (StorageClass.eq_float_of_isReal ha) (StorageClass.eq_float_of_isReal hb)

section Quotients

variable {text text' : String} {c c' : StorageClass} {v' : Env → Option ℚ}

/-- A quotient by a floating-point number. -/
theorem denotes_quotient_float (left : Cpp.Denotes floating text c 1 v) (real : c.isReal)
    (right : Cpp.Denotes floating text' .float 2 v') :
    Cpp.Denotes floating (text ++ "/" ++ text') .float 1
      fun env => combined quotient? (v env) (v' env) :=
  (left.binary .div right fun _ => .inr rfl).withClass fun _ =>
    StorageClass.max_float_of_isReal real

/-- A quotient of two integers gets a factor of floating-point type, so that C++ divides
at that type. -/
theorem denotes_quotient (left : Cpp.Denotes floating text c 1 v)
    (right : Cpp.Denotes floating text' c' 2 v') (hc : c.isReal) (hc' : c'.isReal) :
    Cpp.Denotes floating
      (if c.isIntegral && c'.isIntegral then text ++ "*1.0/" ++ text' else text ++ "/" ++ text')
      .float 1 fun env => combined quotient? (v env) (v' env) := by
  split
  case isTrue =>
    have factor := left.binary .mul Cpp.denotes_one nofun
    rw [StorageClass.max_float_of_isReal hc] at factor
    have whole := factor.binary .div right fun _ => .inl rfl
    have spelled : text ++ "*1.0/" = text ++ "*" ++ "1.0" ++ "/" := by
      rw [String.append_assoc, String.append_assoc]
      rfl
    rw [StorageClass.float_max_of_isReal hc'] at whole
    rw [spelled]
    refine whole.congr fun env => ?_
    rw [combined_one]
    rfl
  case isFalse other =>
    have some := float_of_not_integral hc hc' (by simpa using other)
    refine (left.binary .div right fun _ => some).withClass fun _ => ?_
    rcases some with eq | eq
    · rw [eq, StorageClass.float_max_of_isReal hc']
    · rw [eq, StorageClass.max_float_of_isReal hc]

end Quotients

/-- A divisor is written so that C++ divides at floating-point type. -/
theorem divideBy_renders (h : q.Renders floating 1 v) (operand : o.Renders floating e)
    (tight : 2 ≤ Cpp.levelOf e.level) :
    (divideBy true q o).Renders floating 1
      fun env => combined quotient? (v env) (e.value env) := by
  have float : (divideBy true q o).cls = .float :=
    StorageClass.max_float_of_isReal (StorageClass.isReal_max h.real operand.real)
  refine ⟨by rw [float]; rfl, ?_⟩
  rw [float]
  unfold divideBy
  dsimp only
  split
  case isTrue literal =>
    rw [String.append_assoc]
    exact denotes_quotient_float h.text h.real (operand.widened (eq_of_beq literal))
  case isFalse =>
    exact denotes_quotient h.text (operand.text.mono tight) h.real operand.real

end Steps

end Rule

/-! ## Sites of chains -/

/-- The operands are worth `es`, and the typing starts from their join. -/
structure Site.Renders (floating : String → Bool) (s : Site) (es : List Expr) : Prop where
  operands : List.Forall₂ (Operand.Renders floating) s.operands es
  seed : s.seed = .of (Datatype.joinAll s.types)

/-- The outcome has no effects, is typed as a real scalar, and its text is worth `e`. -/
def Outcome.Renders (floating : String → Bool) (s : Site) (outcome : Outcome) (e : Expr) : Prop :=
  outcome.effects = [] ∧ ∃ c : StorageClass, c.isReal ∧ outcome.typing = .of (.scalar c)
    ∧ ∀ node, Cpp.Denotes floating (outcome.template.render node s.texts) c
        (Cpp.levelOf e.level) fun env => e.value env

/-- Class of the join of operands behind one of class `c`. -/
def joinedClass (c : StorageClass) (os : List Operand) : StorageClass :=
  os.foldl (fun c o => max c o.cls) c

theorem isReal_joinedClass {os : List Operand} (real : ∀ o ∈ os, o.cls.isReal) :
    ∀ {c : StorageClass}, c.isReal → (joinedClass c os).isReal := by
  induction os with
  | nil => exact id
  | cons o os ih =>
    intro c h
    obtain ⟨here, there⟩ := List.forall_mem_cons.mp real
    exact ih there (StorageClass.isReal_max h here)

theorem joinAll_scalar {os : List Operand}
    (scalar : ∀ o ∈ os, o.cls.isReal ∧ o.datatype = .scalar o.cls) :
    ∀ {c : StorageClass}, c.isReal →
      (os.map (·.datatype)).foldl Datatype.join (.scalar c) = .scalar (joinedClass c os) := by
  induction os with
  | nil => exact fun _ => rfl
  | cons o os ih =>
    intro c h
    obtain ⟨⟨real, typed⟩, there⟩ := List.forall_mem_cons.mp scalar
    rw [List.map_cons, List.foldl_cons, typed, StorageClass.join_scalar h real,
      ih there (StorageClass.isReal_max h real)]
    rfl

theorem Operand.Renders.datatype {o : Operand} {e : Expr} (h : o.Renders floating e) :
    o.datatype = .scalar o.cls :=
  congrArg Typing.datatype h.typing

/-- What holds of every operand that is worth some expression holds of all of them. -/
theorem Operand.forall_of_renders {P : Operand → Prop} {os : List Operand} {es : List Expr}
    (one : ∀ {o : Operand} {e : Expr}, o.Renders floating e → P o)
    (operands : List.Forall₂ (Operand.Renders floating) os es) : ∀ o ∈ os, P o := by
  have both : List.Forall₂ (fun o e => P o ∧ o.Renders floating e) os es :=
    operands.imp fun _ _ renders => ⟨one renders, renders⟩
  exact ((List.forall₂_and_left os es).mp both).1

theorem joined_cons (separator : String) : ∀ (piece : String) (rest : List String),
    Text.joined separator (piece :: rest)
      = rest.foldl (fun text next => text ++ separator ++ next) piece
  | _, [] => rfl
  | piece, next :: rest => by
      have shifted : ∀ (rest : List String) (a b : String),
          rest.foldl (fun text next => text ++ separator ++ next) (a ++ b)
            = a ++ rest.foldl (fun text next => text ++ separator ++ next) b := by
        intro rest
        induction rest with
        | nil => exact fun _ _ => rfl
        | cons t rest ih =>
          intro a b
          rw [List.foldl_cons, List.foldl_cons, String.append_assoc, String.append_assoc, ih,
            ← String.append_assoc]
      rw [Text.joined, joined_cons separator next rest, List.foldl_cons, shifted]

namespace Rule

section Chains

variable {s : Site} {op : ChainOp} {first second : Expr} {more : List Expr}

/-- What the rules of a chain start from: the first operand, the other ones, and the class
of all of them. -/
theorem start_of_renders (h : s.Renders floating (first :: second :: more)) :
    ∃ o os, s.operands = o :: os ∧ o.Renders floating first
      ∧ List.Forall₂ (Operand.Renders floating) os (second :: more)
      ∧ (joinedClass o.cls os).isReal ∧ s.seed = .of (.scalar (joinedClass o.cls os)) := by
  obtain ⟨operands, seed⟩ := h
  cases eq : s.operands with
  | nil =>
    rw [eq] at operands
    cases operands
  | cons o os =>
    rw [eq] at operands
    obtain ⟨one, others⟩ := List.forall₂_cons.mp operands
    have scalar : ∀ o ∈ os, o.cls.isReal ∧ o.datatype = .scalar o.cls :=
      Operand.forall_of_renders (fun renders => ⟨renders.real, renders.datatype⟩) others
    refine ⟨o, os, rfl, one, others, ?_, ?_⟩
    · exact isReal_joinedClass (fun o mem => (scalar o mem).1) one.real
    · rw [seed, Site.types, eq, List.map_cons, Datatype.joinAll, one.datatype,
        joinAll_scalar scalar one.real]

/-- A rule that folds its operands in steps is worth the chain. -/
theorem fold_renders {ℓ : Nat} (step : Quotient → Operand → Quotient)
    (one : ∀ {q : Quotient} {v : Env → Option ℚ} {o : Operand} {e : Expr},
      q.Renders floating ℓ v → o.Renders floating e → op.Takes e →
      (step q o).Renders floating ℓ fun env => combined (op.apply env) (v env) (e.value env))
    {o : Operand} {os : List Operand} (start : o.Renders floating first)
    (others : List.Forall₂ (Operand.Renders floating) os (second :: more))
    (tight : ℓ ≤ Cpp.levelOf first.level) (takes : ∀ e ∈ second :: more, op.Takes e) :
    (os.foldl step (.ofOperand o)).Renders floating ℓ
      fun env => (Expr.chain op first second more).value env := by
  have begun : (Quotient.ofOperand o).Renders floating ℓ fun env => first.value env :=
    ⟨start.real, start.text.mono tight⟩
  have whole := Rule.Quotient.Renders.foldl one others takes begun
  refine ⟨whole.real, whole.text.congr fun env => ?_⟩
  rw [Expr.value_chain]

/-- The text that a fold of steps leaves, if the text of a step depends on texts only. -/
theorem text_foldl {step : Quotient → Operand → Quotient} {join : String → String → String}
    (one : ∀ q o, (step q o).text = join q.text o.text) (q : Quotient) (os : List Operand) :
    (os.foldl step q).text = (os.map (·.text)).foldl join q.text := by
  rw [List.foldl_map]
  exact (List.foldl_hom Quotient.text fun q o => (one q o).symm).symm

theorem cls_foldl {step : Quotient → Operand → Quotient}
    (one : ∀ q o, (step q o).cls = max q.cls o.cls) (q : Quotient) (os : List Operand) :
    (os.foldl step q).cls = joinedClass q.cls os :=
  (List.foldl_hom Quotient.cls fun q o => (one q o).symm).symm

/-- What a rule has to answer of a chain, if it folds its operands and keeps their class. -/
theorem outcome_of_fold {template : Template} (step : Quotient → Operand → Quotient)
    (h : s.Renders floating (first :: second :: more)) (low : op.level ≤ first.level)
    (takes : ∀ e ∈ second :: more, op.Takes e)
    (one : ∀ {q : Quotient} {v : Env → Option ℚ} {o : Operand} {e : Expr},
      q.Renders floating (Cpp.levelOf op.level) v → o.Renders floating e → op.Takes e →
      (step q o).Renders floating (Cpp.levelOf op.level)
        fun env => combined (op.apply env) (v env) (e.value env))
    (widens : ∀ q o, (step q o).cls = max q.cls o.cls)
    (text : ∀ {o : Operand} {os : List Operand}, s.operands = o :: os →
      ∀ node, template.render node s.texts = (os.foldl step (.ofOperand o)).text) :
    Outcome.Renders floating s ⟨template, s.seed, []⟩ (.chain op first second more) := by
  obtain ⟨o, os, operands, start, others, real, seed⟩ := start_of_renders h
  have folded := fold_renders step one start others (Cpp.levelOf_mono low) takes
  refine ⟨rfl, _, real, seed, fun node => ?_⟩
  have denotes := folded.text
  rwa [← text operands node, cls_foldl widens] at denotes

theorem texts_of_operands {o : Operand} {os : List Operand} (operands : s.operands = o :: os) :
    s.texts = o.text :: os.map (·.text) := by
  rw [Site.texts, operands, List.map_cons]

theorem render_between (operator : String) {o : Operand} {os : List Operand}
    (operands : s.operands = o :: os) (node : Node) :
    (between operator).render node s.texts = (os.foldl (joinBy operator) (.ofOperand o)).text := by
  have text : (os.foldl (joinBy operator) (.ofOperand o)).text
      = (os.map (·.text)).foldl (fun text next => text ++ operator ++ next) o.text :=
    text_foldl (fun _ _ => rfl) (.ofOperand o) os
  rw [text, ← joined_cons, between, Template.render, texts_of_operands operands,
    String.empty_append, String.append_empty]

/-- An operator of C++ between the operands of a chain. -/
theorem between_outcome (sign : Cpp.Op) (other : sign ≠ .div)
    (level : Cpp.levelOf op.level = sign.level)
    (tighter : ∀ e, op.Takes e → sign.level + 1 ≤ Cpp.levelOf e.level)
    (same : ∀ env, op.apply env = sign.apply true)
    (h : s.Renders floating (first :: second :: more)) (low : op.level ≤ first.level)
    (takes : ∀ e ∈ second :: more, op.Takes e) :
    Outcome.Renders floating s ⟨between (String.singleton sign.symbol), s.seed, []⟩
      (.chain op first second more) := by
  refine outcome_of_fold (joinBy (String.singleton sign.symbol)) h low takes ?_
    (fun _ _ => rfl) (render_between _)
  intro q v o e hq ho take
  rw [level] at hq ⊢
  simpa only [same] using joinBy_renders other hq ho (tighter e take)

/-! ## The rules -/

theorem numeric_of_seed {c : StorageClass} (real : c.isReal) (seed : s.seed = .of (.scalar c)) :
    s.seed.numeric := by
  rw [seed]
  exact StorageClass.isNumeric_of_isReal real

theorem known_of_seed {c : StorageClass} (real : c.isReal) (seed : s.seed = .of (.scalar c)) :
    s.seed.datatype.isKnown := by
  obtain ⟨known, -⟩ := Bool.and_eq_true_iff.mp (StorageClass.isNumeric_of_isReal real)
  rw [seed]
  exact known

theorem checkNumeric_eq_nil (operation : String) (numeric : s.seed.numeric) :
    checkNumeric operation s = [] := by
  rw [checkNumeric, numeric]
  rfl

theorem takes_tight {e : Expr} (loose : op.level ≠ 9) (takes : op.Takes e) : op.level < e.level := by
  rwa [ChainOp.Takes, if_neg loose] at takes

/-- Scalars conform. -/
theorem productShape_scalar : ∀ {os : List Operand}, (∀ o ∈ os, o.shape = .scalar) →
    productShape .scalar os = (.scalar, [])
  | [], _ => rfl
  | o :: os, scalar => by
      obtain ⟨here, there⟩ := List.forall_mem_cons.mp scalar
      rw [productShape, here]
      exact productShape_scalar there

theorem shapes_of_renders {os : List Operand} {es : List Expr}
    (operands : List.Forall₂ (Operand.Renders floating) os es) : ∀ o ∈ os, o.shape = .scalar :=
  Operand.forall_of_renders (fun renders => congrArg Datatype.shape renders.datatype) operands

theorem add_eq_ok {c : StorageClass} (real : c.isReal) (seed : s.seed = .of (.scalar c)) :
    add s = .ok ⟨between "+", s.seed, []⟩ := by
  rw [add, checkNumeric_eq_nil _ (numeric_of_seed real seed)]
  rfl

theorem sub_eq_ok {c : StorageClass} (real : c.isReal) (seed : s.seed = .of (.scalar c)) :
    sub s = .ok ⟨between "-", s.seed, []⟩ := by
  rw [sub, checkNumeric_eq_nil _ (numeric_of_seed real seed)]
  rfl

theorem elMul_eq_ok {c : StorageClass} (real : c.isReal) (seed : s.seed = .of (.scalar c)) :
    elMul s = .ok ⟨between "*", s.seed, []⟩ := by
  have scalar : (s.seed.numeric && s.seed.datatype.shape == .scalar) = true := by
    rw [numeric_of_seed real seed, seed]
    rfl
  rw [elMul, checkNumeric_eq_nil _ (numeric_of_seed real seed), if_pos scalar]
  rfl

/-- Between scalars a matrix product is a plain one. -/
theorem mul_eq_ok (h : s.Renders floating (first :: second :: more)) :
    mul s = .ok ⟨between "*", s.seed, []⟩ := by
  obtain ⟨o, os, operands, start, others, real, seed⟩ := start_of_renders h
  have numeric := numeric_of_seed real seed
  have known := known_of_seed real seed
  have shape : o.shape = .scalar := congrArg Datatype.shape start.datatype
  rw [mul, known, numeric, operands]
  simp only [Bool.not_true, Bool.false_eq_true, if_false, shape,
    productShape_scalar (shapes_of_renders others)]
  rw [seed]
  rfl

/-- Powers nest to the left. -/
theorem power_outcome (scalar : op = .pow ∨ op = .elPow)
    (h : s.Renders floating (first :: second :: more)) (low : op.level ≤ first.level)
    (takes : ∀ e ∈ second :: more, op.Takes e) :
    ∃ outcome, power s = .ok outcome
      ∧ outcome.Renders floating s (.chain op first second more) := by
  obtain ⟨o, os, operands, start, others, real, seed⟩ := start_of_renders h
  have function : powerFunction s = "std::pow" := by
    rw [powerFunction, numeric_of_seed real seed, seed]
    rfl
  have text : (os.foldl raiseTo (.ofOperand o)).text
      = (os.map (·.text)).foldl (fun base e => powerFunction s ++ "(" ++ base ++ ", " ++ e ++ ")")
          o.text := by
    rw [function]
    exact text_foldl (fun _ _ => rfl) (.ofOperand o) os
  refine ⟨⟨.fixed (os.foldl raiseTo (.ofOperand o)).text, s.seed, []⟩, ?_, ?_⟩
  case refine_1 =>
    rw [power, texts_of_operands operands, text]
    rfl
  case refine_2 =>
    refine outcome_of_fold raiseTo h low takes ?_ (fun _ _ => rfl) ?_
    · intro q v o e hq ho _
      rcases scalar with rfl | rfl
      · exact raiseTo_renders hq ho
      · exact raiseTo_renders hq ho
    · intro o' os' operands' node
      obtain ⟨rfl, rfl⟩ := List.cons.inj (operands.symm.trans operands')
      rfl

theorem cls_foldl_divideBy : ∀ {os : List Operand} {q : Quotient}, os ≠ [] → q.cls.isReal →
    (∀ o ∈ os, o.cls.isReal) → (os.foldl (divideBy true) q).cls = .float
  | [], _, nonempty, _, _ => absurd rfl nonempty
  | o :: os, q, _, hq, hos => by
      obtain ⟨here, there⟩ := List.forall_mem_cons.mp hos
      have float : (divideBy true q o).cls = .float :=
        StorageClass.max_float_of_isReal (StorageClass.isReal_max hq here)
      have real : (divideBy true q o).cls.isReal := by rw [float]; rfl
      rw [List.foldl_cons]
      cases os with
      | nil => exact float
      | cons o' os => exact cls_foldl_divideBy (List.cons_ne_nil o' os) real there

theorem quotientTyping_seed {c : StorageClass} (real : c.isReal)
    (seed : s.seed = .of (.scalar c)) : quotientTyping s.seed = .of (.scalar .float) := by
  rw [quotientTyping, if_pos (numeric_of_seed real seed), seed]
  exact congrArg (fun c => Typing.of (.scalar c)) (StorageClass.max_float_of_isReal real)

/-- A quotient of scalars is of floating-point class. -/
theorem elRightDiv_outcome (quotient : op = .rightDiv ∨ op = .elRightDiv)
    (h : s.Renders floating (first :: second :: more)) (low : op.level ≤ first.level)
    (takes : ∀ e ∈ second :: more, op.Takes e) :
    ∃ outcome, elRightDiv s = .ok outcome
      ∧ outcome.Renders floating s (.chain op first second more) := by
  obtain ⟨o, os, operands, start, others, real, seed⟩ := start_of_renders h
  have level : op.level = 7 := by rcases quotient with rfl | rfl <;> rfl
  have same : ∀ env, op.apply env = quotient? := by
    intro env
    rcases quotient with rfl | rfl <;> rfl
  have numeric := numeric_of_seed real seed
  have step : ∀ {q : Quotient} {v : Env → Option ℚ} {o : Operand} {e : Expr},
      q.Renders floating 1 v → o.Renders floating e → op.Takes e →
      (divideBy true q o).Renders floating 1
        fun env => combined (op.apply env) (v env) (e.value env) := by
    intro q v o e hq ho take
    have tight : 7 < e.level := level ▸ takes_tight (by rw [level]; decide) take
    simpa only [same] using divideBy_renders hq ho (Cpp.two_le_levelOf tight)
  have folded := fold_renders (divideBy true) step start others (Cpp.one_le_levelOf (by omega)) takes
  have float : (os.foldl (divideBy true) (.ofOperand o)).cls = .float := by
    refine cls_foldl_divideBy ?_ start.real ?_
    · rintro rfl
      cases others
    · exact Operand.forall_of_renders (fun renders => renders.real) others
  refine ⟨⟨.fixed (os.foldl (divideBy true) (.ofOperand o)).text, .of (.scalar .float), []⟩, ?_, ?_⟩
  case refine_1 =>
    rw [elRightDiv, operands]
    simp only [quotientTyping_seed real seed, numeric, checkNumeric_eq_nil _ numeric]
    rfl
  case refine_2 =>
    refine ⟨rfl, .float, rfl, rfl, fun node => ?_⟩
    have denotes := folded.text
    rw [float] at denotes
    have tight : Cpp.levelOf (Expr.chain op first second more).level = 1 := by
      rw [Expr.level, level]
      rfl
    rw [tight]
    exact denotes

theorem allScalar_of_renders {es : List Expr} (h : s.Renders floating es) : allScalar s := by
  rw [allScalar, List.all_eq_true]
  intro o mem
  rw [shapes_of_renders h.operands o mem]
  rfl

/-- Between scalars a matrix quotient is an element-wise one. -/
theorem rightDiv_eq (h : s.Renders floating (first :: second :: more)) :
    rightDiv s = elRightDiv s := by
  obtain ⟨o, os, -, -, -, real, seed⟩ := start_of_renders h
  rw [rightDiv, structural, known_of_seed real seed, allScalar_of_renders h]
  rfl

end Chains

/-- Parentheses are kept. -/
theorem paren_outcome {s : Site} {e : Expr} (h : s.Renders floating [e]) :
    ∃ outcome, paren s = .ok outcome ∧ outcome.Renders floating s (.paren e) := by
  obtain ⟨operands, seed⟩ := h
  obtain ⟨o, os, one, none, eq⟩ := List.forall₂_cons_right_iff.mp operands
  obtain rfl := List.forall₂_nil_right_iff.mp none
  have typing : s.seed = .of (.scalar o.cls) := by
    rw [seed, Site.types, eq]
    exact congrArg Typing.of one.datatype
  refine ⟨⟨.format "(%(0)s)", s.seed, []⟩, rfl, rfl, o.cls, one.real, typing, fun node => ?_⟩
  rw [texts_of_operands eq, Template.render_paren]
  exact one.text.paren

/-- The rule of every operator of plain arithmetic answers a text that is worth the chain. -/
theorem chain_outcome {s : Site} {op : ChainOp} {first second : Expr} {more : List Expr}
    (arithmetic : op.isArithmetic) (h : s.Renders floating (first :: second :: more))
    (low : op.level ≤ first.level) (takes : ∀ e ∈ second :: more, op.Takes e) :
    ∃ rule outcome, ofCategory? op.category = some rule ∧ rule s = .ok outcome
      ∧ outcome.Renders floating s (.chain op first second more) := by
  obtain ⟨o, os, -, -, -, real, seed⟩ := start_of_renders h
  have sum : ∀ e : Expr, 6 < e.level → 1 ≤ Cpp.levelOf e.level := fun _ => Cpp.one_le_levelOf
  have product : ∀ e : Expr, 7 < e.level → 2 ≤ Cpp.levelOf e.level := fun _ => Cpp.two_le_levelOf
  cases op with
  | add =>
    refine ⟨add, _, rfl, add_eq_ok real seed, ?_⟩
    exact between_outcome .add nofun rfl sum (fun _ => rfl) h low takes
  | sub =>
    refine ⟨sub, _, rfl, sub_eq_ok real seed, ?_⟩
    exact between_outcome .sub nofun rfl sum (fun _ => rfl) h low takes
  | mul =>
    refine ⟨mul, _, rfl, mul_eq_ok h, ?_⟩
    exact between_outcome .mul nofun rfl product (fun _ => rfl) h low takes
  | elMul =>
    refine ⟨elMul, _, rfl, elMul_eq_ok real seed, ?_⟩
    exact between_outcome .mul nofun rfl product (fun _ => rfl) h low takes
  | rightDiv =>
    obtain ⟨outcome, ok, renders⟩ := elRightDiv_outcome (.inl rfl) h low takes
    exact ⟨rightDiv, outcome, rfl, (rightDiv_eq h).trans ok, renders⟩
  | elRightDiv =>
    obtain ⟨outcome, ok, renders⟩ := elRightDiv_outcome (.inr rfl) h low takes
    exact ⟨elRightDiv, outcome, rfl, ok, renders⟩
  | pow =>
    obtain ⟨outcome, ok, renders⟩ := power_outcome (.inl rfl) h low takes
    exact ⟨power, outcome, rfl, ok, renders⟩
  | elPow =>
    obtain ⟨outcome, ok, renders⟩ := power_outcome (.inr rfl) h low takes
    exact ⟨power, outcome, rfl, ok, renders⟩
  | _ => cases arithmetic

end Rule

end MatrixScript
