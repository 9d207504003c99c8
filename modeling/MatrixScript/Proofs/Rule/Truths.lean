/-
# `Proofs.Rule.Truths` — the rules of operators between scalars

Between real scalars every operator is written with the operators of C++, and the node is a scalar
of the class that their classes have as parts.  The rule of a chain folds its operands from the left, and
so does `ChainOp.parts`: one step of it writes what one step of that does (`Rule.written_parts`).
-/
import MatrixScript.Proofs.Program.Truths
import MatrixScript.Proofs.Rule.Formula
import MatrixScript.Proofs.Rule.Fragments

namespace MatrixScript

open Cpp (Assembly Operator)
open Cpp.Assembly (whole parens call negated binary)

/-- A resolved operand that is put together like this. -/
structure Operand.Tells (o : Operand) (q : Part) : Prop where
  text : o.text = q.assembly.spelled
  typing : o.node.typing = .of q.datatype
  literal : (o.node.category == .int) = q.literal

namespace Operand.Tells

variable {o : Operand} {q : Part} (h : o.Tells q)
include h

theorem datatype : o.datatype = q.datatype := congrArg Typing.datatype h.typing

theorem cls : o.cls = q.cls := congrArg Datatype.cls h.datatype

theorem shape : o.shape = .scalar := congrArg Datatype.shape h.datatype

end Operand.Tells

namespace Rule

/-- What is put together so far has the text and the class of this. -/
structure Assembled.Tells (a : Assembled) (q : Part) : Prop where
  text : a.assembly.spelled = q.assembly.spelled
  cls : a.quotient.cls = q.cls

/-! ## One step -/

section Steps

variable {op : ChainOp} {a : Assembled} {q p : Part} {o : Operand}

theorem bothIntegral_of_tells (cls : a.quotient.cls = q.cls) (ho : o.Tells p) :
    bothIntegral a.quotient o = (q.cls.isIntegral && p.cls.isIntegral) := by
  rw [bothIntegral, cls, ho.cls]

theorem cls_step (cls : a.quotient.cls = q.cls) (ho : o.Tells p) (division : op.isDivision) :
    widened a.quotient o = (op.step q p).cls := by
  rw [widened, cls, ho.cls]
  cases op <;> first | rfl | cases division

theorem spelled_quotient {dividend divisor : Assembly} (hq : dividend.spelled = q.assembly.spelled)
    (hp : divisor.spelled = p.assembly.spelled) :
    (if p.literal then ratio false dividend (whole (divisor.spelled ++ ".0"))
      else ratio (q.cls.isIntegral && p.cls.isIntegral) dividend divisor).spelled
      = (q.quotient p).spelled := by
  unfold Part.quotient
  split
  · rw [spelled_ratio, spelled_ratio, hq, hp]
  · rw [spelled_ratio, spelled_ratio, hq, hp]

/-- One more divisor. -/
theorem tells_divideBy (right : op.isDivision) (side : op.isLeftDivision = false) (h : a.Tells q)
    (ho : o.Tells p) : (a.divideBy true o).Tells (op.step q p) := by
  refine ⟨?_, cls_step h.cls ho right⟩
  have scalars : op.scalars q p = q.quotient p := by
    cases op <;> first | rfl | cases right; done | cases side
  show (if o.node.category == .int then ratio false a.assembly (whole (o.text ++ ".0"))
      else ratio (true && bothIntegral a.quotient o) a.assembly (whole o.text)).spelled
    = (op.scalars q p).spelled
  rw [ho.literal, Bool.true_and, bothIntegral_of_tells h.cls ho, scalars]
  exact spelled_quotient h.text ho.text

/-- One more numerator over the divisor so far. -/
theorem tells_divideInto (left : op.isLeftDivision) (cls : a.quotient.cls = q.cls) (ho : o.Tells p)
    {divisor : Assembly} (same : divisor.spelled = q.assembly.spelled) :
    (a.divideInto true q.literal divisor o).Tells (op.step q p) := by
  have division : op.isDivision := by cases op <;> first | rfl | cases left
  refine ⟨?_, cls_step cls ho division⟩
  have scalars : op.scalars q p = p.quotient q := by
    cases op <;> first | rfl | cases left
  show (if q.literal then ratio false (whole o.text) (whole (divisor.spelled ++ ".0"))
      else ratio (true && bothIntegral a.quotient o) (whole o.text) divisor).spelled
    = (op.scalars q p).spelled
  rw [Bool.true_and, bothIntegral_of_tells cls ho, Bool.and_comm, scalars]
  exact spelled_quotient ho.text same

end Steps

/-! ## Chains -/

section Chains

variable {s : Site} {op : ChainOp} {o x : Operand} {os : List Operand} {q p : Part} {ps : List Part}
  (next : x.Tells p) (rest : List.Forall₂ Operand.Tells os ps) (here : o.Tells q)
include next rest

/-- Where no quotient so far is put into parentheses, a chain is a fold from the first operand. -/
theorem tells_foldl {α : Type} {R : α → Part → Prop} {step : α → Operand → α}
    (side : op.isLeftDivision = false)
    (one : ∀ {a q o p}, R a q → o.Tells p → R (step a o) (op.step q p)) {a : α} (start : R a q) :
    R ((x :: os).foldl step a) (op.parts q p ps) := by
  have divided : ∀ q, op.divided q = q := fun q => if_neg (by rw [side]; exact Bool.false_ne_true)
  have folded : op.parts q p ps = (p :: ps).foldl op.step q := by
    unfold ChainOp.parts
    simp only [divided]
    rfl
  rw [folded]
  exact List.rel_foldl (P := R) (R := Operand.Tells) (fun _ _ h _ _ ho => one h ho) start
    (.cons next rest)

include here

theorem tells_quotient (right : op.isDivision) (side : op.isLeftDivision = false) :
    ((x :: os).foldl (.divideBy true) (Assembled.ofOperand o)).Tells (op.parts q p ps) :=
  tells_foldl next rest (R := Assembled.Tells) side (tells_divideBy right side)
    ⟨here.text, here.cls⟩

theorem tells_leftQuotient (left : op.isLeftDivision) :
    (Assembled.leftQuotient true o (x :: os)).Tells (op.parts q p ps) := by
  have divided : ∀ q, op.divided q = q.enclosed := fun q => if_pos left
  show (os.foldl (.divideIntoQuotient true)
    ((Assembled.ofOperand o).divideInto true (o.node.category == .int) (whole o.text) x)).Tells _
  rw [here.literal]
  have first : (whole o.text).spelled = q.assembly.spelled := here.text
  refine List.rel_foldl (P := Assembled.Tells) (R := Operand.Tells) (fun a q h y p ho => ?_)
    (tells_divideInto (a := .ofOperand o) left here.cls next first) rest
  rw [divided]
  exact tells_divideInto (q := q.enclosed) left h.cls ho
    (by rw [Part.enclosed, Assembly.spelled, Assembly.spelled, h.text])

theorem spelled_chained_parts {operator : Operator} (side : op.isLeftDivision = false)
    (same : ∀ q p, op.scalars q p = binary operator false q.assembly p.assembly) :
    (chained operator o (x :: os)).spelled = (op.parts q p ps).assembly.spelled := by
  have folded : chained operator o (x :: os)
      = (x :: os).foldl (fun e y => binary operator false e (whole y.text)) (whole o.text) := by
    rw [chained, Assembly.chain, List.foldl_map]
  rw [folded]
  refine tells_foldl next rest (R := fun (e : Assembly) q => e.spelled = q.assembly.spelled) side
    ?_ here.text
  intro e q y p start operand
  show _ = (op.scalars q p).spelled
  rw [same, Assembly.spelled, Assembly.spelled, Assembly.spelled, start, operand.text]

end Chains

/-! ## Numbers -/

section Numbers

variable {s : Site} {op : ChainOp} {q p : Part} {ps qs : List Part} {os : List Operand}

theorem types_of_tells (operands : List.Forall₂ Operand.Tells os qs) :
    os.map (·.datatype) = qs.map Part.datatype := by
  induction operands with
  | nil => rfl
  | cons here _ ih => rw [List.map_cons, List.map_cons, here.datatype, ih]

theorem exists_of_tells (operands : List.Forall₂ Operand.Tells os qs) :
    ∀ o ∈ os, ∃ q ∈ qs, o.Tells q := by
  induction operands with
  | nil => exact fun _ mem => absurd mem List.not_mem_nil
  | @cons o q _ _ here _ ih =>
    refine List.forall_mem_cons.mpr ⟨⟨q, List.mem_cons_self, here⟩, fun o mem => ?_⟩
    obtain ⟨q, mem, tells⟩ := ih o mem
    exact ⟨q, List.mem_cons_of_mem _ mem, tells⟩

theorem numbers_of_tells (operands : List.Forall₂ Operand.Tells s.operands qs)
    (real : ∀ q ∈ qs, q.cls.isReal) : s.Numbers := by
  have number : ∀ q ∈ qs, q.datatype.isNumeric := fun q mem =>
    StorageClass.isNumeric_of_isReal (real q mem)
  have types : s.types = qs.map Part.datatype := types_of_tells operands
  refine ⟨fun o mem => ?_, types ▸ List.forall_mem_map.mpr number⟩
  obtain ⟨q, mem', tells⟩ := exists_of_tells operands _ mem
  rw [Operand.numeric, Node.numeric, tells.typing]
  exact number q mem'

/-- The join of scalars is a scalar of the widest class. -/
theorem foldl_ofTwo_add (qs : List Part) (c : StorageClass) :
    (qs.map Part.datatype).foldl Category.add.ofTwo (.scalar c)
      = .scalar (qs.foldl (fun c q => max c q.cls) c) := by
  induction qs generalizing c with
  | nil => rfl
  | cons q qs ih => exact ih (max c q.cls)

/-- Scalars are chained to a scalar. -/
theorem ofChain_parts : op.category.ofChain ((q :: p :: ps).map Part.datatype)
    = (op.parts q p ps).datatype := by
  have one : ∀ q p : Part, op.category.ofTwo q.datatype p.datatype = (op.step q p).datatype := by
    intro q p
    cases op <;> rfl
  have fold : ∀ (ps : List Part) (q : Part),
      (ps.map Part.datatype).foldl op.category.ofTwo q.datatype
        = (ps.foldl (fun q p => op.step (op.divided q) p) q).datatype := by
    intro ps
    induction ps with
    | nil => exact fun _ => rfl
    | cons p ps ih =>
      intro q
      have same : q.datatype = (op.divided q).datatype :=
        congrArg Datatype.scalar ChainOp.cls_divided.symm
      rw [List.map_cons, List.foldl_cons, List.foldl_cons, ← ih, ← one, same]
  show (ps.map Part.datatype).foldl op.category.ofTwo (op.category.ofTwo q.datatype p.datatype) = _
  rw [one, fold]
  rfl

end Numbers

/-! ## The rules -/

section Answers

variable {s : Site} {op : ChainOp} {q p : Part} {ps qs : List Part} {o : Outcome}

/-- The rule of a chain writes the chain of scalars. -/
theorem written_parts (seeded : s.Seeded) (category : s.node.category = op.category)
    (operands : List.Forall₂ Operand.Tells s.operands (q :: p :: ps))
    (real : ∀ x ∈ q :: p :: ps, x.cls.isReal) (ok : select s.tree s.node s = .ok o) :
    s.written o = (op.parts q p ps).assembly.spelled ∧ o.typing = .of (op.parts q p ps).datatype := by
  have numbers := numbers_of_tells operands real
  have types : s.types = (q :: p :: ps).map Part.datatype := types_of_tells operands
  have chained : s.node.category.isChained := category ▸ op.isChained_category
  have seed : s.seed = .of (.scalar ((p :: ps).foldl (fun c x => max c x.cls) q.cls)) := by
    rw [seed_of_numbers seeded (Category.isOperator_of_isChained chained) numbers, types]
    exact congrArg Typing.of (foldl_ofTwo_add (p :: ps) q.cls)
  have joined : (Datatype.scalar ((p :: ps).foldl (fun c x => max c x.cls) q.cls)).isNumeric := by
    have first : q.cls.isReal := real q List.mem_cons_self
    refine StorageClass.isNumeric_of_isReal (List.foldlRecOn (p :: ps) _
      (motive := fun c : StorageClass => c.isReal) first fun c h x mem => ?_)
    exact StorageClass.isReal_max h (real x (List.mem_cons_of_mem q mem))
  have counts : s.seed.numeric := by
    rw [seed]
    exact joined
  have known : s.seed.datatype.isKnown := by
    rw [seed]
    exact Datatype.isKnown_of_numeric joined
  have scalar : (s.seed.datatype.shape == .scalar) = true := by
    rw [seed]
    rfl
  obtain ⟨x, xs, here, others, list⟩ := List.forall₂_cons_right_iff.mp operands
  obtain ⟨y, os, next, rest, rfl⟩ := List.forall₂_cons_right_iff.mp others
  have scalars : allScalar s := by
    refine List.all_eq_true.mpr fun x mem => ?_
    obtain ⟨q, -, tells⟩ := exists_of_tells operands _ mem
    rw [tells.shape]
    rfl
  constructor
  · obtain ⟨e, found, same⟩ : ∃ e, operation? s x (y :: os) = some e
        ∧ e.spelled = (op.parts q p ps).assembly.spelled := by
      unfold operation?
      rw [category]
      cases op
      case elMul =>
        refine ⟨_, rfl, ?_⟩
        rw [counts, scalar]
        exact spelled_chained_parts next rest here rfl fun _ _ => rfl
      case rightDiv =>
        refine ⟨_, rfl, ?_⟩
        rw [rightDivision, known, scalars, counts]
        exact (tells_quotient next rest here rfl rfl).text
      case leftDiv =>
        refine ⟨_, if_pos known, ?_⟩
        rw [leftDivision, scalars, counts]
        exact (tells_leftQuotient next rest here rfl).text
      case elRightDiv =>
        refine ⟨_, rfl, ?_⟩
        rw [counts]
        exact (tells_quotient next rest here rfl rfl).text
      case elLeftDiv =>
        refine ⟨_, rfl, ?_⟩
        rw [counts]
        exact (tells_leftQuotient next rest here rfl).text
      case pow | elPow =>
        refine ⟨_, rfl, ?_⟩
        have power : powerFunction s = "std::pow" := by
          unfold powerFunction
          rw [counts, scalar]
          rfl
        refine tells_foldl next rest
          (R := fun (e : Assembly) q => e.spelled = q.assembly.spelled) rfl ?_ here.text
        intro e q y p start operand
        show (call (powerCallee s) [e, whole y.text]).spelled
          = (call scalarPower [q.assembly, p.assembly]).spelled
        have name : (powerCallee s).name = scalarPower.name := power
        simp only [Assembly.spelled, Assembly.spelledAll, name, start, operand.text]
      all_goals exact ⟨_, rfl, spelled_chained_parts next rest here rfl fun _ _ => rfl⟩
    exact ((writes_operation list found).written ok).trans same
  · have two : 2 ≤ s.operands.length := by
      rw [list]
      simp
    obtain ⟨o', answer, typing⟩ := select_infers numbers seeded chained two
    obtain rfl := Except.ok.inj (ok.symm.trans answer)
    rw [typing, category, types, ofChain_parts]

/-- Signs, comparisons and parentheses leave the type from which the node starts. -/
theorem typing_of_kept (seeded : s.Seeded) (operator : s.node.category.isOperator)
    (kept : s.node.category.isUnary ∧ s.node.category ≠ .transpose ∧ s.node.category ≠ .ctranspose
      ∨ s.node.category.isComparison) (numbers : s.Numbers) (ok : select s.tree s.node s = .ok o) :
    o.typing = .of (Category.add.ofChain s.types) := by
  have seed := seed_of_numbers seeded operator numbers
  rw [select_of_isOperator operator] at ok
  rw [← seed]
  cases category : s.node.category <;> rw [category] at kept ok <;>
    first | (exfalso; revert kept; decide) | skip
  all_goals
    cases ok
    rfl

theorem writes_not {x : Operand} (category : s.node.category = .not) (operands : s.operands = [x])
    (numeric : s.seed.numeric) : Writes (select s.tree s.node) s
      (parens (binary .eq true (whole x.text) (whole "0"))).spelled := by
  rw [select_of_category not (fun b => by rw [category]; rfl) (by rw [category]; rfl)]
  have answer : not s = .ok ⟨.format "(%(0)s == 0)", s.seed, []⟩ := by
    show negation s.seed s = _
    rw [negation, if_pos numeric]
    rfl
  have pattern : "(%(0)s == 0)" = "(" ++ ("%(0)s" ++ " == 0)") := rfl
  refine ⟨_, answer, ?_⟩
  rw [Site.written, texts_of_operands operands, pattern,
    Template.render_around (by decide) (by decide)]
  simp [Assembly.spelled, Operator.symbol, String.append_assoc]

end Answers

end Rule

end MatrixScript
