/-
# `Proofs.Rule.Formula` — the rules of names, literals and operators

Rules of formulas do nothing but answer: a name stands for itself, a literal is spelled in
the target language, and an operator at most reports its operands
(`Rule.reports_of_isOperator`).  So no definition is hoisted out of a formula.
-/
import MatrixScript.Proofs.Rule.Chain
import MatrixScript.Proofs.Rule.Pasted

namespace MatrixScript

/-- Nothing takes place but reports. -/
def Effect.Reports (es : List Effect) : Prop := ∀ e ∈ es, ∃ i p m, e = .report i p m

namespace Rule

variable {s : Site} {o : Outcome}

/-! ## Operators -/

theorem reports_nil : Effect.Reports [] := nofun

theorem reports_singleton (i : NodeId) (p : Problem) (m : String) :
    Effect.Reports [.report i p m] :=
  List.forall_mem_singleton.mpr ⟨i, p, m, rfl⟩

theorem reports_ite {c : Prop} [Decidable c] {es : List Effect} (h : Effect.Reports es) :
    Effect.Reports (if c then es else []) := by
  split
  · exact h
  · exact reports_nil

theorem reports_append {es es' : List Effect} (h : Effect.Reports es) (h' : Effect.Reports es') :
    Effect.Reports (es ++ es') :=
  List.forall_mem_append.mpr ⟨h, h'⟩

theorem reports_checkNumeric (operation : String) (s : Site) :
    Effect.Reports (checkNumeric operation s) :=
  reports_ite (reports_singleton _ _ _)

theorem reports_productShape (shape : Shape) (os : List Operand) :
    Effect.Reports (productShape shape os).2 := by
  induction os generalizing shape with
  | nil => exact reports_nil
  | cons o os ih =>
    rw [productShape]
    split
    · exact ih _
    · exact List.forall_mem_cons.mpr ⟨⟨_, _, _, rfl⟩, ih shape⟩

theorem reports_quotient (operator : String) (step : Quotient → Operand → Quotient) (q : Quotient)
    (os : List Operand) : Effect.Reports (quotient s operator step q os).2 := by
  induction os generalizing q with
  | nil => exact reports_nil
  | cons o os ih =>
    rw [quotient]
    refine reports_append ?_ (ih _)
    unfold quotientShape
    split
    · exact reports_nil
    · exact reports_singleton _ _ _

theorem reports_elRightDiv (ok : elRightDiv s = .ok o) : Effect.Reports o.effects := by
  unfold elRightDiv at ok
  split at ok
  · cases ok
  · cases ok
    exact reports_checkNumeric _ _

theorem reports_elLeftDiv (ok : elLeftDiv s = .ok o) : Effect.Reports o.effects := by
  unfold elLeftDiv at ok
  split at ok
  · cases ok
  · cases ok
    exact reports_checkNumeric _ _

theorem reports_structural {operator : String} {step : Quotient → Operand → Quotient}
    {scalars : Rule} (reports : ∀ o, scalars s = .ok o → Effect.Reports o.effects)
    (ok : structural operator step scalars s = .ok o) : Effect.Reports o.effects := by
  unfold structural at ok
  split at ok
  · cases ok
    exact reports_nil
  · split at ok
    · exact reports o ok
    · split at ok
      · cases ok
      · cases ok
        exact reports_append (reports_checkNumeric _ _) (reports_quotient _ _ _ _)

theorem reports_mul (ok : mul s = .ok o) : Effect.Reports o.effects := by
  unfold mul at ok
  split at ok
  · cases ok
    exact reports_nil
  · split at ok
    · cases ok
      exact reports_singleton _ _ _
    · split at ok
      · cases ok
      · cases ok
        exact reports_productShape _ _

theorem reports_power (ok : power s = .ok o) : Effect.Reports o.effects := by
  unfold power at ok
  split at ok
  · cases ok
  · cases ok
    exact reports_nil

theorem reports_turned {typing : Typing} {answer : Datatype → Except Error Outcome}
    (reports : ∀ d o, answer d = .ok o → Effect.Reports o.effects)
    (ok : (do answer (← turned typing s)) = .ok o) : Effect.Reports o.effects := by
  cases type : turned typing s with
  | error e =>
    rw [type] at ok
    cases ok
  | ok d =>
    rw [type] at ok
    exact reports d o ok

/-- An operator at most reports its operands. -/
theorem reports_of_isOperator (operator : s.node.category.isOperator)
    (ok : select s.tree s.node s = .ok o) : Effect.Reports o.effects := by
  rw [select_of_isOperator operator] at ok
  cases category : s.node.category <;> rw [category] at operator ok <;>
    first | cases operator; done | skip
  case mul => exact reports_mul ok
  case rightDiv => exact reports_structural (fun _ => reports_elRightDiv) ok
  case leftDiv => exact reports_structural (fun _ => reports_elLeftDiv) ok
  case elRightDiv => exact reports_elRightDiv ok
  case elLeftDiv => exact reports_elLeftDiv ok
  case pow | elPow => exact reports_power ok
  case transpose =>
    change transposed s.seed s = .ok o at ok
    unfold transposed at ok
    split at ok
    · cases ok
      exact reports_nil
    · refine reports_turned (fun d o ok => ?_) ok
      cases ok
      exact reports_nil
  case ctranspose =>
    change conjugated s.seed s = .ok o at ok
    unfold conjugated at ok
    split at ok
    · cases ok
      exact reports_nil
    · refine reports_turned (fun d o ok => ?_) ok
      cases ok
      exact reports_nil
  case gt | ge | lt | le | ne | eq =>
    cases ok
    exact reports_ite (reports_singleton _ _ _)
  case add | sub | elMul =>
    cases ok
    exact reports_checkNumeric _ _
  all_goals
    cases ok
    exact reports_nil

/-! ## Names and literals -/

/-- The rule answers with a typing and a text that satisfy `P`, and nothing else takes place. -/
def Spells (rule : Rule) (s : Site) (P : Typing → String → Prop) : Prop :=
  ∃ o, rule s = .ok o ∧ P o.typing (s.written o) ∧ o.effects = []

/-- A variable stands for itself, and has its declared type. -/
theorem spells_var (s : Site) : Spells var s fun typing text => text = s.name
    ∧ ∀ d, s.state.config.declarations.get? s.name = some d → typing = .of d := by
  unfold Spells var
  split
  case h_1 d found =>
    refine ⟨_, rfl, ⟨Template.render_name _ _, fun d' declared => ?_⟩, rfl⟩
    rw [Site.lookup, State.lookup, declared] at found
    exact congrArg Typing.of (Option.some.inj found).symm
  case h_2 none =>
    refine ⟨_, rfl, ⟨Template.render_name _ _, fun d' declared => ?_⟩, rfl⟩
    rw [Site.lookup, State.lookup, declared] at none
    cases none

end Rule

/-- A literal in the target language. -/
def LiteralKind.emitted : LiteralKind → String → String
  | .int, s | .float, s => s
  | .imag, s => "cx_double(0, " ++ Rule.magnitude s ++ ")"
  | .str, s => String.ofList ('\x22' :: Rule.escaped s.toList ++ ['\x22'])

/-- Type of a literal. -/
def LiteralKind.datatype : LiteralKind → Datatype
  | .int => .scalar .int
  | .float => .scalar .float
  | .imag => .scalar .complex
  | .str => .string

namespace Rule

theorem spells_literal (kind : LiteralKind) : ∃ rule, ofCategory? kind.category = some rule
    ∧ ∀ (s : Site) (v : String), s.node.value = some v →
      Spells rule s fun typing text => text = kind.emitted v ∧ typing = .of kind.datatype := by
  have render : ∀ (s : Site) (v : String) (typing : Typing), s.node.value = some v →
      (Template.format "%(value)s").render { s.node with typing } s.texts = v :=
    fun _ _ _ value => Template.render_value _ _ value
  cases kind with
  | int => exact ⟨int, rfl, fun s v value => ⟨_, rfl, ⟨render s v _ value, rfl⟩, rfl⟩⟩
  | float => exact ⟨float, rfl, fun s v value => ⟨_, rfl, ⟨render s v _ value, rfl⟩, rfl⟩⟩
  | imag =>
    refine ⟨imag, rfl, fun s v value => ⟨_, rfl, ⟨?_, rfl⟩, rfl⟩⟩
    show "cx_double(0, " ++ magnitude (s.node.value.getD "") ++ ")" = _
    rw [value]
    rfl
  | str =>
    refine ⟨string, rfl, fun s v value => ⟨_, rfl, ⟨?_, rfl⟩, rfl⟩⟩
    show String.ofList ('\x22' :: escaped (s.node.value.getD "").toList ++ ['\x22']) = _
    rw [value]
    rfl

end Rule

end MatrixScript
