/-
# `Proofs.Rule.Quotients` — the rules of products and quotients of matrices

Each of these rules folds its operands from the left, and so does `ChainOp.emitChain`.  One step
of a rule writes what one step of that does (`Rule.Assembled.emits_solveRight` and its like), so
of operands that are numeric matrices the rule writes the whole chain
(`Rule.emits_operation`).
-/
import MatrixScript.Proofs.Program.Quotients

namespace MatrixScript

open Cpp (Assembly Operator)
open Cpp.Assembly (whole parens call binary)

/-- A resolved operand that is put together like this. -/
structure Operand.Emits (o : Operand) (q : Emission) : Prop where
  text : o.text = q.assembly.spelled
  typing : o.node.typing = .of q.datatype
  other : o.node.category ≠ .int

namespace Operand.Emits

variable {o : Operand} {q : Emission} (h : o.Emits q)
include h

theorem datatype : o.datatype = q.datatype := congrArg Typing.datatype h.typing

theorem cls : o.cls = q.cls := congrArg Datatype.cls h.datatype

theorem shape : o.shape = .matrix := congrArg Datatype.shape h.datatype

end Operand.Emits

namespace Rule

/-- What is put together so far has the text and the class of this. -/
structure Assembled.Emits (a : Assembled) (q : Emission) : Prop where
  text : a.assembly.spelled = q.assembly.spelled
  cls : a.quotient.cls = q.cls

/-! ## One step -/

namespace Assembled

variable {a : Assembled} {q p : Emission} {o : Operand}

theorem emits_ofOperand (ho : o.Emits p) : (ofOperand o).Emits p := ⟨ho.text, ho.cls⟩

theorem bothIntegral_eq (cls : a.quotient.cls = q.cls) (ho : o.Emits p) :
    bothIntegral a.quotient o = (q.cls.isIntegral && p.cls.isIntegral) := by
  rw [bothIntegral, cls, ho.cls]

/-- The divisor is the quotient so far. -/
theorem emits_divideInto (cls : a.quotient.cls = q.cls) (ho : o.Emits p) {divisor : Assembly}
    (same : divisor.spelled = q.assembly.spelled) :
    (a.divideInto true false divisor o).Emits (ChainOp.elLeftDiv.emit q p) := by
  constructor
  · show (ratio (true && bothIntegral a.quotient o) (whole o.text) divisor).spelled
      = (ChainOp.elLeftDiv.assembled q p).spelled
    rw [ChainOp.assembled, spelled_ratio, spelled_ratio, bothIntegral_eq cls ho, same, ← ho.text]
    rfl
  · show widened a.quotient o = _
    rw [widened, cls, ho.cls]
    rfl

variable (h : a.Emits q) (ho : o.Emits p)
include h ho

theorem emits_solveRight : (a.solveRight o).Emits (ChainOp.rightDiv.emit q p) := by
  have solves : Shape.matrix ≤ o.shape := by rw [ho.shape]; decide
  constructor
  · have same : (a.solveRight o).assembly
        = transposedText (call solver [transposedText (whole o.text), transposedText a.assembly]) :=
      if_pos solves
    show _ = (ChainOp.rightDiv.assembled q p).spelled
    rw [same, ChainOp.assembled]
    simp only [spelled_transposedText, spelled_solver, h.text, ← ho.text]
    rfl
  · show (Rule.solveRight a.quotient o).cls = _
    rw [Rule.solveRight, if_pos solves, h.cls, ho.cls]
    rfl

theorem emits_solveLeft : (a.solveLeft o).Emits (ChainOp.leftDiv.emit q p) := by
  have solves : o.shape.isArray := by rw [ho.shape]; rfl
  constructor
  · have same : (a.solveLeft o).assembly = call solver [a.assembly, whole o.text] := if_pos solves
    show _ = (ChainOp.leftDiv.assembled q p).spelled
    rw [same, ChainOp.assembled]
    simp only [spelled_solver, h.text, ← ho.text]
    rfl
  · show (Rule.solveLeft a.quotient o).cls = _
    rw [Rule.solveLeft, if_pos solves, h.cls, ho.cls]
    rfl

theorem emits_divideBy : (a.divideBy true o).Emits (ChainOp.elRightDiv.emit q p) := by
  have other : ¬(o.node.category == .int) := fun int => ho.other (eq_of_beq int)
  constructor
  · have same : (a.divideBy true o).assembly
        = ratio (true && bothIntegral a.quotient o) a.assembly (whole o.text) := if_neg other
    show _ = (ChainOp.elRightDiv.assembled q p).spelled
    rw [same, ChainOp.assembled, spelled_ratio, spelled_ratio, bothIntegral_eq h.cls ho, h.text, ← ho.text]
    rfl
  · show widened a.quotient o = _
    rw [widened, h.cls, ho.cls]
    rfl

end Assembled

theorem spelled_factor {operator : Operator} {left left' right right' : Assembly}
    (hl : left.spelled = left'.spelled) (hr : right.spelled = right'.spelled) :
    (binary operator false left right).spelled = (binary operator false left' right').spelled := by
  rw [Assembly.spelled, Assembly.spelled, hl, hr]

/-! ## Chains -/

section

variable {s : Site} {op : ChainOp} {o x : Operand} {os : List Operand} {q p : Emission}
  {ps : List Emission}

/-- Where later operands are put like the second one, a chain is a fold from the first operand. -/
theorem emitChain_eq (other : op ≠ .elLeftDiv) :
    op.emitChain q p ps = (p :: ps).foldl op.emit q := by
  have later : ∀ q, op.later q = q := fun q => if_neg other
  unfold ChainOp.emitChain
  simp only [later]
  rfl

/-- Steps that agree one by one agree together. -/
theorem emits_foldl {α : Type} {R : α → Emission → Prop} {step : α → Operand → α}
    {step' : Emission → Emission → Emission}
    (one : ∀ {a q o p}, R a q → o.Emits p → R (step a o) (step' q p)) :
    ∀ {os : List Operand} {ps : List Emission}, List.Forall₂ Operand.Emits os ps →
      ∀ {a : α} {q : Emission}, R a q → R (os.foldl step a) (ps.foldl step' q)
  | [], [], .nil, _, _, start => start
  | _ :: _, _ :: _, .cons here there, _, _, start => emits_foldl one there (one start here)

variable (here : o.Emits q) (next : x.Emits p) (rest : List.Forall₂ Operand.Emits os ps)
include here next rest

theorem emits_chained {operator : Operator}
    (same : ∀ q p, (op.emit q p).assembly = binary operator false q.assembly p.assembly)
    (other : op ≠ .elLeftDiv) :
    (chained operator o (x :: os)).spelled = (op.emitChain q p ps).assembly.spelled := by
  have folded : chained operator o (x :: os)
      = (x :: os).foldl (fun e y => binary operator false e (whole y.text)) (whole o.text) := by
    rw [chained, Assembly.chain, List.foldl_map]
  rw [folded, emitChain_eq other]
  refine emits_foldl (R := fun (e : Assembly) q => e.spelled = q.assembly.spelled) ?_ (.cons next rest) here.text
  intro e q y p start operand
  rw [same]
  exact spelled_factor start operand.text

theorem emits_solved (operator : String) {step : Assembled → Operand → Assembled}
    (one : ∀ {a q y p}, Assembled.Emits a q → Operand.Emits y p → (step a y).Emits (op.emit q p))
    (other : op ≠ .elLeftDiv) :
    (Assembled.solved s operator step (.ofOperand o) (x :: os)).Emits (op.emitChain q p ps) := by
  rw [emitChain_eq other]
  refine emits_foldl (fun start operand => ?_) (.cons next rest) (Assembled.emits_ofOperand here)
  exact ⟨(one start operand).text, (one start operand).cls⟩

theorem emits_quotient :
    ((x :: os).foldl (.divideBy true) (Assembled.ofOperand o)).Emits
      (ChainOp.elRightDiv.emitChain q p ps) := by
  rw [emitChain_eq (by decide)]
  exact emits_foldl Assembled.emits_divideBy (.cons next rest) (Assembled.emits_ofOperand here)

theorem emits_leftQuotient :
    (Assembled.leftQuotient true o (x :: os)).Emits (ChainOp.elLeftDiv.emitChain q p ps) := by
  have literal : (o.node.category == Category.int) = false := beq_eq_false_iff_ne.mpr here.other
  show (os.foldl (.divideIntoQuotient true)
    ((Assembled.ofOperand o).divideInto true (o.node.category == .int) (whole o.text) x)).Emits _
  rw [literal]
  refine emits_foldl (fun {a q y p} start operand => ?_) rest
    (Assembled.emits_divideInto here.cls next here.text)
  refine Assembled.emits_divideInto (q := q.enclosed) start.cls operand ?_
  rw [Emission.enclosed, Assembly.spelled, Assembly.spelled, start.text]

end

/-! ## The rules -/

section

variable {s : Site} {op : ChainOp} {q p : Emission} {ps : List Emission}

theorem types_of_emits {qs : List Emission} {os : List Operand}
    (operands : List.Forall₂ Operand.Emits os qs) :
    os.map (·.datatype) = qs.map Emission.datatype := by
  induction operands with
  | nil => rfl
  | cons here _ ih => rw [List.map_cons, List.map_cons, here.datatype, ih]

/-- Matrices are joined to one. -/
theorem shape_joined (qs : List Emission) (c : StorageClass) :
    ((qs.map Emission.datatype).foldl Category.add.ofTwo ⟨.matrix, c⟩).shape = .matrix := by
  induction qs generalizing c with
  | nil => rfl
  | cons q qs ih => exact ih (max c q.cls)

theorem numeric_of_emits {qs : List Emission} {os : List Operand}
    (operands : List.Forall₂ Operand.Emits os qs) (numeric : ∀ q ∈ qs, q.datatype.isNumeric) :
    ∀ o ∈ os, o.numeric := by
  induction operands with
  | nil => exact fun _ mem => absurd mem List.not_mem_nil
  | @cons o q _ _ here _ ih =>
    obtain ⟨first, rest⟩ := List.forall_mem_cons.mp numeric
    have counts : o.numeric := by
      rw [Operand.numeric, Node.numeric, here.typing]
      exact first
    exact List.forall_mem_cons.mpr ⟨counts, ih rest⟩

/-- The rule of a product or a quotient writes the chain of operands that are numeric matrices. -/
theorem written_emitChain (seeded : s.Seeded) (level : op.level = 7)
    (category : s.node.category = op.category)
    (numeric : ∀ o ∈ q :: p :: ps, o.datatype.isNumeric)
    (operands : List.Forall₂ Operand.Emits s.operands (q :: p :: ps)) {o : Outcome}
    (ok : select s.tree s.node s = .ok o) :
    s.written o = (op.emitChain q p ps).assembly.spelled
      ∧ o.typing = .of (op.emitChain q p ps).datatype := by
  have types : s.types = (q :: p :: ps).map Emission.datatype := types_of_emits operands
  have numbers : s.Numbers :=
    ⟨numeric_of_emits operands numeric, types ▸ List.forall_mem_map.mpr numeric⟩
  have operator : s.node.category.isOperator := by
    rw [category]
    exact Category.isOperator_of_isChained op.isChained_category
  have seed : s.seed = .of (Category.add.ofChain s.types) := seed_of_numbers seeded operator numbers
  have shape : s.seed.datatype.shape = .matrix := by
    rw [seed, types]
    exact shape_joined (p :: ps) q.cls
  have joined : (Category.add.ofChain s.types).isNumeric := by
    rw [types]
    exact Category.isNumeric_ofChain (List.cons_ne_nil _ _) (List.forall_mem_map.mpr numeric)
  have counts : s.seed.numeric := by
    rw [seed]
    exact joined
  have known : s.seed.datatype.isKnown := by
    rw [seed]
    exact Datatype.isKnown_of_numeric joined
  obtain ⟨x, xs, here, others, list⟩ := List.forall₂_cons_right_iff.mp operands
  obtain ⟨y, os, next, rest, rfl⟩ := List.forall₂_cons_right_iff.mp others
  have arrays : allScalar s = false := by
    rw [allScalar, list, List.all_cons, here.shape]
    rfl
  constructor
  · obtain ⟨e, found, same⟩ : ∃ e, operation? s x (y :: os) = some e
        ∧ e.spelled = (op.emitChain q p ps).assembly.spelled := by
      unfold operation?
      rw [category]
      cases op <;> first | cases level; done | skip
      case mul => exact ⟨_, rfl, emits_chained here next rest (fun _ _ => rfl) (by decide)⟩
      case elMul =>
        refine ⟨_, rfl, ?_⟩
        rw [counts, shape]
        exact emits_chained here next rest (fun _ _ => rfl) (by decide)
      case rightDiv =>
        refine ⟨_, rfl, ?_⟩
        rw [rightDivision, known, arrays]
        exact (emits_solved here next rest "/" Assembled.emits_solveRight (by decide)).text
      case leftDiv =>
        refine ⟨_, if_pos known, ?_⟩
        rw [leftDivision, arrays]
        exact (emits_solved here next rest "\\" Assembled.emits_solveLeft (by decide)).text
      case elRightDiv =>
        refine ⟨_, rfl, ?_⟩
        rw [counts]
        exact (emits_quotient here next rest).text
      case elLeftDiv =>
        refine ⟨_, rfl, ?_⟩
        rw [counts]
        exact (emits_leftQuotient here next rest).text
    exact ((writes_operation list found).written ok).trans same
  · have two : 2 ≤ s.operands.length := by
      rw [list]
      simp
    obtain ⟨o', answer, typing⟩ := select_infers numbers seeded (category ▸ op.isChained_category) two
    obtain rfl := Except.ok.inj (ok.symm.trans answer)
    rw [typing, category, types, Emission.ofChain_datatype level]

end

end Rule

end MatrixScript
