/-
# `Proofs.Rule.Joined` — operators and members around bare operands

The rule of an operator writes it between the texts of its operands as they are, and so do
the divisions, step by step: each step puts the quotient so far on one side of `/`, or into
a call that solves a system, where a transpose stands behind it.  A size is a member of its
argument, which is put into parentheses unless it is known to be one operand.  `joined?` is
how all of these are put together, and `emits_joined` says that the rules write that.

A bracket around one element is no matrix, rounding an integer does nothing, and neither do
`any`, `all` and `diag` of one number.  What was in brackets or arguments is written without
them then (`Wrapping.bare`); an element of unknown type is put into braces, and text into a
string.  `writes_wrapped` says that the rules write that.
-/
import MatrixScript.Proofs.Rule.Chain
import MatrixScript.Proofs.Rule.Pasted

namespace MatrixScript

open Cpp (Assembly)
open Cpp.Assembly (whole call)

namespace Rule

/-- What is written around the text of an operand. -/
inductive Wrapping where
  | bare
  | braces
  | string
deriving DecidableEq, Repr

namespace Wrapping

/-- What is wrapped, in its wrapping. -/
def around : Wrapping → Assembly → Assembly
  | bare, e => e
  | braces, e => .braces [e]
  | string, e => call ⟨"std::string", by decide⟩ [e]

variable (wrapping : Wrapping) (e : Assembly)

theorem spelled_around :
    (wrapping.around e).spelled = (wrapping.around (whole e.spelled)).spelled := by
  cases wrapping <;> simp [around, Assembly.spelled, Assembly.spelledAll]

theorem pasted_around : (wrapping.around e).pasted = e.pasted := by
  cases wrapping <;> simp [around, Assembly.pasted, Assembly.pastedAll]

/-- A wrapping is no looser than what it is around. -/
theorem fits_around : (wrapping.around e).Fits ↔ e.Fits := by
  cases wrapping <;> simp [around, Assembly.Fits, Assembly.FitsAll]

end Wrapping

/-- Wrapping of the element of a one-element bracket. -/
def bracketWrapping (s : Site) (row : Operand) : Wrapping :=
  if row.cls == .text then .string
  else if isPlain s row && !row.datatype.isKnown then .braces
  else .bare

/-- The operand is one number. -/
def isNumber (x : Operand) : Bool := x.numeric && x.shape == .scalar

/-- A call of a built-in that does nothing to its first argument. -/
def isIdle (b : Builtin) (x : Operand) (more : List Operand) : Bool :=
  match b with
  | .round => more.tail.isEmpty && x.numeric && x.cls.isIntegral
  | .any | .all => isNumber x
  | .diag => more.tail.isEmpty && isNumber x
  | _ => false

/-- Wrapping of the first operand, where the node stands for that alone. -/
def wrapping? (s : Site) : Option Wrapping :=
  match s.node.category, s.operands with
  | .row, [_] => some .bare
  | .matrix, [row] => if widthOf row = 1 then some (bracketWrapping s row) else none
  | .get, x :: more =>
      if (builtinOf? s.tree s.node).any (isIdle · x more) then some .bare else none
  | _, _ => none

section

variable {s : Site} {x : Operand} {more : List Operand} {wrapping : Wrapping}

theorem select_of_category (rule : Rule) (general : ∀ b, ofBuiltin? s.node.category b = none)
    (category : ofCategory? s.node.category = some rule) : select s.tree s.node = rule := by
  have none : (builtinOf? s.tree s.node).bind (ofBuiltin? s.node.category) = none :=
    Option.bind_eq_none_iff.mpr fun b _ => general b
  rw [select, none, category]
  rfl

theorem writes_paren (category : s.node.category = .paren)
    (operands : s.operands = x :: more) : Writes (select s.tree s.node) s ("(" ++ x.text ++ ")") := by
  rw [select_of_category paren (fun b => by rw [category]; rfl) (by rw [category]; rfl)]
  refine ⟨_, rfl, ?_⟩
  rw [Site.written, texts_of_operands operands]
  exact Template.render_paren _ _ _

/-- A rule that answers its first operand as it is. -/
theorem writes_bare {rule : Rule} {typing : Typing} (operands : s.operands = x :: more)
    (answer : rule s = .ok ⟨.format "%(0)s", typing, []⟩) :
    Writes rule s (whole x.text).spelled := by
  refine ⟨_, answer, ?_⟩
  rw [Site.written, texts_of_operands operands]
  exact Template.render_whole x.text _

theorem typing_of_numeric (numeric : x.numeric) : (!x.node.typing.numeric) = false := by
  rw [Bool.not_eq_false']
  exact numeric

theorem truthReduction_of_isNumber (operands : s.operands = x :: more) (number : isNumber x) :
    BuiltinRule.truthReduction s = .ok ⟨.format "%(0)s", x.node.typing, []⟩ := by
  obtain ⟨numeric, scalar⟩ := (Bool.and_eq_true _ _).mp number
  unfold BuiltinRule.truthReduction
  rw [operands]
  dsimp only
  rw [typing_of_numeric numeric, eq_of_beq scalar]
  rfl

theorem diagonal_of_isNumber (number : isNumber x) :
    BuiltinRule.diagonal x s = .ok ⟨.format "%(0)s", x.node.typing, []⟩ := by
  obtain ⟨numeric, scalar⟩ := (Bool.and_eq_true _ _).mp number
  unfold BuiltinRule.diagonal
  rw [numeric, eq_of_beq scalar]
  rfl

/-- A call of a built-in that does nothing is its first argument. -/
theorem writes_idle {b : Builtin} (get : s.node.category = .get)
    (builtin : builtinOf? s.tree s.node = some b) (operands : s.operands = x :: more)
    (idle : isIdle b x more) : Writes (select s.tree s.node) s (whole x.text).spelled := by
  unfold isIdle at idle
  split at idle
  case h_1 =>
    obtain ⟨idle, integral⟩ := (Bool.and_eq_true _ _).mp idle
    obtain ⟨few, numeric⟩ := (Bool.and_eq_true _ _).mp idle
    rw [select_of_call get builtin rfl]
    obtain ⟨places, rfl⟩ : ∃ places : Option Operand, more = places.toList := by
      rcases more with _ | ⟨n, _ | _⟩
      · exact ⟨none, rfl⟩
      · exact ⟨some n, rfl⟩
      · cases few
    have writes := writes_round operands numeric
    unfold roundedCall at writes
    rwa [if_pos integral] at writes
  case h_2 | h_3 =>
    rw [select_of_call get builtin rfl]
    exact writes_bare operands (truthReduction_of_isNumber operands idle)
  case h_4 =>
    obtain ⟨few, number⟩ := (Bool.and_eq_true _ _).mp idle
    rw [select_of_call get builtin rfl]
    have answer : BuiltinRule.diag s = BuiltinRule.diagonal x s := by
      unfold BuiltinRule.diag
      rw [operands]
      rcases more with _ | ⟨_, _ | _⟩
      · rfl
      · rfl
      · cases few
    exact writes_bare operands (answer.trans (diagonal_of_isNumber number))
  case h_5 => cases idle

theorem writes_matrix (operands : s.operands = [x]) (width : widthOf x = 1) :
    Writes matrix s ((bracketWrapping s x).around (whole x.text)).spelled := by
  have texts : s.texts = [x.text] := texts_of_operands operands
  have types : Datatype.joinAll s.types = x.datatype := by
    rw [Site.types, operands]
    rfl
  have some : s.operands.isEmpty = false := by rw [operands]; rfl
  have plain : s.operands.all (isPlain s) = isPlain s x := by
    rw [operands, List.all_cons, List.all_nil, Bool.and_true]
  unfold bracketWrapping Writes matrix
  dsimp only
  rw [types, some, plain, texts, if_neg Bool.false_ne_true, show x.datatype.cls = x.cls from rfl]
  by_cases text : x.cls == .text
  · rw [if_pos text, if_pos text]
    refine ⟨_, rfl, ?_⟩
    simp [Site.written, Template.render, Text.joined, Wrapping.around, Assembly.spelled,
      Assembly.spelledAll, Cpp.call]
  · rw [if_neg text, if_neg text]
    cases single : isPlain s x with
    | true =>
      cases x.datatype.isKnown with
      | true =>
        have answer : plainMatrix x.datatype s
            = .ok ⟨.format "%(0)s", .of (x.datatype.withShape .scalar), []⟩ := by
          unfold plainMatrix
          rw [operands]
          exact if_pos width
        exact writes_bare operands answer
      | false =>
        refine ⟨_, rfl, ?_⟩
        simp [Site.written, Template.render, untypedInitialiser, braced, Wrapping.around,
          Assembly.spelled, Assembly.spelledAll, Text.joined]
    | false =>
      have answer : stackedMatrix x.datatype s
          = .ok ⟨.fixed (stackedRow s x), stackedTyping x.datatype s, []⟩ := by
        unfold stackedMatrix
        rw [operands]
        rfl
      refine ⟨_, answer, ?_⟩
      show stackedRow s x = x.text
      rw [stackedRow, single]
      rfl

/-- A bracket around one element and an idle call are written as the text in its wrapping. -/
theorem writes_wrapped (wraps : wrapping? s = some wrapping) :
    ∃ x more, s.operands = x :: more
      ∧ Writes (select s.tree s.node) s (wrapping.around (whole x.text)).spelled := by
  unfold wrapping? at wraps
  split at wraps
  case h_1 x category operands =>
    cases wraps
    rw [select_of_category _ (by rw [category]; exact fun _ => rfl) (by rw [category]; rfl)]
    have answer : row s = .ok ⟨.format "%(0)s", x.node.typing, []⟩ := by
      unfold row
      rw [operands]
      rfl
    exact ⟨x, [], operands, writes_bare operands answer⟩
  case h_2 x category operands =>
    split at wraps
    case isFalse => cases wraps
    case isTrue width =>
      cases wraps
      rw [select_of_category _ (by rw [category]; exact fun _ => rfl) (by rw [category]; rfl)]
      exact ⟨x, [], operands, writes_matrix operands width⟩
  case h_3 x more get operands =>
    split at wraps
    case isFalse => cases wraps
    case isTrue idle =>
      cases wraps
      obtain ⟨b, builtin, idle⟩ := (Option.any_eq_true _ _).mp idle
      exact ⟨x, more, operands, writes_idle get builtin operands idle⟩
  case h_4 => cases wraps

end

end Rule

open Cpp (Assembly Operator Callee Member)
open Cpp.Assembly (whole parens braces call applied member binary)

namespace Rule

/-- A member function without arguments. -/
def transposedText (e : Assembly) : Assembly := applied (member e ⟨"t", by decide, by decide⟩) []

/-- A quotient; `wide` says that the numerator is made a floating-point one. -/
def ratio (wide : Bool) (numerator divisor : Assembly) : Assembly :=
  binary .div false (if wide then binary .mul false numerator (whole "1.0") else numerator) divisor

theorem spelled_ratio (wide : Bool) (numerator divisor : Assembly) :
    (ratio wide numerator divisor).spelled
      = if wide then numerator.spelled ++ "*1.0/" ++ divisor.spelled
        else numerator.spelled ++ "/" ++ divisor.spelled := by
  cases wide with
  | true =>
    apply String.toList_injective
    simp [ratio, Assembly.spelled, Operator.symbol]
  | false => rfl

/-! ## Quotients -/

/-- A quotient and how its text is put together. -/
structure Assembled where
  quotient : Quotient
  assembly : Assembly
  spelled : assembly.spelled = quotient.text

namespace Assembled

/-- The first operand alone. -/
def ofOperand (o : Operand) : Assembled := ⟨.ofOperand o, whole o.text, rfl⟩

/-- One more divisor. -/
def divideBy (typed : Bool) (q : Assembled) (o : Operand) : Assembled where
  quotient := Rule.divideBy typed q.quotient o
  assembly :=
    if o.node.category == .int then ratio false q.assembly (whole (o.text ++ ".0"))
    else ratio (typed && bothIntegral q.quotient o) q.assembly (whole o.text)
  spelled := by
    unfold Rule.divideBy
    dsimp only
    rw [← q.spelled]
    split
    · rw [spelled_ratio, if_neg Bool.false_ne_true, @String.append_assoc _ _ ".0"]
      rfl
    · exact spelled_ratio _ _ _

/-- One more numerator; `literal` says that the divisor is an integer literal. -/
def divideInto (typed literal : Bool) (q : Assembled) (divisor : Assembly) (o : Operand) :
    Assembled where
  quotient := Rule.divideInto typed literal q.quotient divisor.spelled o
  assembly :=
    if literal then ratio false (whole o.text) (whole (divisor.spelled ++ ".0"))
    else ratio (typed && bothIntegral q.quotient o) (whole o.text) divisor
  spelled := by
    unfold Rule.divideInto
    dsimp only
    split
    · rw [spelled_ratio, if_neg Bool.false_ne_true, @String.append_assoc _ _ ".0"]
      rfl
    · exact spelled_ratio _ _ _

/-- A later numerator. -/
def divideIntoQuotient (typed : Bool) (q : Assembled) (o : Operand) : Assembled :=
  q.divideInto typed false (parens q.assembly) o

/-- One more divisor on the right of a matrix division. -/
def solveRight (q : Assembled) (o : Operand) : Assembled where
  quotient := Rule.solveRight q.quotient o
  assembly :=
    if .matrix ≤ o.shape then
      transposedText (call ⟨"arma::solve", by decide⟩
        [transposedText (whole o.text), transposedText q.assembly])
    else ratio (bothIntegral q.quotient o) q.assembly (whole o.text)
  spelled := by
    unfold Rule.solveRight
    split
    · rw [← q.spelled]
      apply String.toList_injective
      simp [transposedText, Assembly.spelled, Assembly.spelledAll, Cpp.arguments, Cpp.call, Text.joined]
    · rw [spelled_ratio, ← q.spelled]
      split
      · rfl
      · rfl

/-- One more operand of a left matrix division. -/
def solveLeft (q : Assembled) (o : Operand) : Assembled where
  quotient := Rule.solveLeft q.quotient o
  assembly :=
    if o.shape.isArray then call ⟨"arma::solve", by decide⟩ [q.assembly, whole o.text]
    else ratio (bothIntegral q.quotient o) (parens q.assembly) (whole o.text)
  spelled := by
    unfold Rule.solveLeft
    split
    · rw [← q.spelled]
      apply String.toList_injective
      simp [Assembly.spelled, Assembly.spelledAll, Cpp.call, Text.joined]
    · rw [spelled_ratio, ← q.spelled]
      split
      · apply String.toList_injective
        simp [Assembly.spelled]
      · apply String.toList_injective
        simp [Assembly.spelled]

/-- The same text for a quotient of another shape. -/
def withShape (q : Assembled) (shape : Shape) : Assembled :=
  ⟨{ q.quotient with shape }, q.assembly, q.spelled⟩

/-- Operands of a left division between scalars. -/
def leftQuotient (typed : Bool) (first : Operand) : List Operand → Assembled
  | [] => .ofOperand first
  | second :: more =>
      more.foldl (divideIntoQuotient typed)
        ((ofOperand first).divideInto typed (first.node.category == .int) (whole first.text) second)

/-- Operands of a division that solves systems. -/
def solved (s : Site) (operator : String) (step : Assembled → Operand → Assembled) (q : Assembled)
    (os : List Operand) : Assembled :=
  os.foldl (fun q o => (step q o).withShape (quotientShape s operator q.quotient o).1) q

end Assembled

/-! ## Operators -/

/-- Operands with an operator in the gaps. -/
def chained (op : Operator) (o : Operand) (os : List Operand) : Assembly :=
  .chain op (whole o.text) (os.map fun o => whole o.text)

/-- The function that raises to a power. -/
def powerCallee (s : Site) : Callee where
  name := powerFunction s
  callable := by
    unfold powerFunction
    split
    · decide
    · split
      · decide
      · decide

/-- Operands of a right division. -/
def rightDivision (s : Site) (o : Operand) (os : List Operand) : Assembly :=
  if !s.seed.datatype.isKnown then chained .div o os
  else if allScalar s then (os.foldl (.divideBy s.seed.numeric) (Assembled.ofOperand o)).assembly
  else (Assembled.solved s "/" .solveRight (.ofOperand o) os).assembly

/-- Operands of a left division of known type. -/
def leftDivision (s : Site) (o : Operand) (os : List Operand) : Assembly :=
  if allScalar s then (Assembled.leftQuotient s.seed.numeric o os).assembly
  else (Assembled.solved s "\\" .solveLeft (.ofOperand o) os).assembly

/-- The operator that is written for one of the script, whatever the operands are. -/
def operator? : Category → Option Operator
  | .add => some .add
  | .sub => some .sub
  | .gt => some .gt
  | .ge => some .ge
  | .lt => some .lt
  | .le => some .le
  | .ne => some .ne
  | .eq => some .eq
  | .andAnd => some .andAnd
  | .and => some .and
  | .orOr => some .orOr
  | .or => some .or
  | _ => none

/-- Operands of an operator; a left division of operands of unknown type is none of C++. -/
def operation? (s : Site) (o : Operand) (os : List Operand) : Option Assembly :=
  match s.node.category with
  | .mul => some (chained .mul o os)
  | .elMul =>
      some (chained (if s.seed.numeric && s.seed.datatype.shape == .scalar then .mul else .mod) o os)
  | .elRightDiv => some (os.foldl (.divideBy s.seed.numeric) (Assembled.ofOperand o)).assembly
  | .elLeftDiv => some (Assembled.leftQuotient s.seed.numeric o os).assembly
  | .rightDiv => some (rightDivision s o os)
  | .leftDiv => if s.seed.datatype.isKnown then some (leftDivision s o os) else none
  | .pow | .elPow =>
      some (os.foldl (fun base e => call (powerCallee s) [base, whole e.text]) (whole o.text))
  | c => (operator? c).map (chained · o os)

/-! ## Members -/

/-- An argument as the owner of a member. -/
def owner (x : Operand) : Assembly :=
  if x.node.category == .var || x.node.category == .get || x.node.category == .paren then whole x.text
  else parens (whole x.text)

theorem spelled_owner (x : Operand) : (owner x).spelled = BuiltinRule.receiver x := by
  unfold owner BuiltinRule.receiver
  split
  · rfl
  · rfl

/-- Members that hold the extents, by axis. -/
def extentMembers : List Member :=
  [⟨"n_rows", by decide, by decide⟩, ⟨"n_cols", by decide, by decide⟩,
    ⟨"n_slices", by decide, by decide⟩]

/-- The member of a literal one-based axis. -/
def memberOfAxis? (axis : Int) : Option Member :=
  if 1 ≤ axis then extentMembers[(axis - 1).toNat]? else none

/-- Extents of the first axes, as a value of its own if it stands alone. -/
def extentsAssembly (x : Operand) (axes : Nat) (s : Site) : Assembly :=
  let list := braces ((extentMembers.take axes).map (member (owner x)))
  if !BuiltinRule.isAssignedToVariable s && s.parentCategory? == some .statement then
    call ⟨"urowvec", by decide⟩ [list]
  else list

/-- A size. -/
def extent? (s : Site) : Option Assembly :=
  match s.operands with
  | [x] =>
      if BuiltinRule.isOpaque x s then none
      else
        match x.shape with
        | .colvec | .rowvec => some (member (owner x) ⟨"n_elem", by decide, by decide⟩)
        | .matrix => some (extentsAssembly x 2 s)
        | .cube => some (extentsAssembly x 3 s)
        | _ => none
  | [x, axis] =>
      if BuiltinRule.isOpaque x s then none
      else (axis.node.intValue?.bind memberOfAxis?).map (member (owner x))
  | _ => none

/-- How a node whose rule puts an operator, a transpose or a member at the bare texts of its
operands is put together. -/
def joined? (s : Site) : Option Assembly :=
  match s.operands with
  | [] => none
  | o :: os =>
      if s.node.category = .get ∧ builtinOf? s.tree s.node = some .size then extent? s
      else operation? s o os

/-! ## What the rules write -/

/-- The rule answers, and puts this text into the code: as that of the node, or as what a
temporary for the node holds. -/
def Emits (rule : Rule) (s : Site) (text : String) : Prop :=
  ∃ o, rule s = .ok o ∧ (s.written o = text ∨ ∃ d, Effect.hoist s.id text d ∈ o.effects)

theorem Writes.emits {rule : Rule} {s : Site} {text : String} (h : Writes rule s text) :
    Emits rule s text := by
  obtain ⟨o, answer, written⟩ := h
  exact ⟨o, answer, .inl written⟩

section

variable {s : Site} {o x : Operand} {os : List Operand} {e : Assembly} {op : Operator} {rule : Rule}
  {typing : Typing} {effects : List Effect}

theorem exists_between (op : Operator) (operands : s.operands = o :: os) :
    ∃ o', (.ok ⟨between op.symbol, typing, effects⟩ : Except Error Outcome) = .ok o'
      ∧ s.written o' = (chained op o os).spelled := by
  refine ⟨_, rfl, ?_⟩
  rw [chained, Assembly.spelled_chain, List.map_map, Site.written, between, Template.render,
    texts_of_operands operands, String.empty_append, String.append_empty]
  rfl

theorem exists_fixed {text text' : String} (same : text' = text) :
    ∃ o', (.ok ⟨.fixed text', typing, effects⟩ : Except Error Outcome) = .ok o' ∧ s.written o' = text :=
  ⟨_, rfl, same⟩

theorem writes_mul (operands : s.operands = o :: os) :
    Writes mul s (chained .mul o os).spelled := by
  unfold Writes mul
  split
  · exact exists_between .mul operands
  · split
    · exact exists_between .mul operands
    · rw [operands]
      exact exists_between .mul operands

theorem writes_elMul (operands : s.operands = o :: os) :
    Writes elMul s (chained (if s.seed.numeric && s.seed.datatype.shape == .scalar then .mul else .mod)
      o os).spelled := by
  unfold Writes elMul
  split
  · exact exists_between .mul operands
  · exact exists_between .mod operands

/-! ### Divisions -/

theorem writes_elRightDiv (operands : s.operands = o :: os) :
    Writes elRightDiv s
      (os.foldl (.divideBy s.seed.numeric) (Assembled.ofOperand o)).assembly.spelled := by
  have same : os.foldl (divideBy s.seed.numeric) (.ofOperand o)
      = (os.foldl (.divideBy s.seed.numeric) (Assembled.ofOperand o)).quotient := by
    show os.foldl _ (Assembled.ofOperand o).quotient = _
    exact List.foldl_hom Assembled.quotient fun _ _ => rfl
  unfold Writes elRightDiv
  rw [operands, Assembled.spelled, ← same]
  exact exists_fixed rfl

theorem quotient_leftQuotient (typed : Bool) (first : Operand) (os : List Operand) :
    (Assembled.leftQuotient typed first os).quotient
      = match os with
        | [] => .ofOperand first
        | second :: more =>
            more.foldl (divideIntoQuotient typed)
              (divideInto typed (first.node.category == .int) (.ofOperand first) first.text second) := by
  cases os with
  | nil => rfl
  | cons second more =>
    refine (List.foldl_hom Assembled.quotient fun q o => ?_).symm
    rw [Assembled.divideIntoQuotient, Assembled.divideInto, divideIntoQuotient, ← q.spelled]
    rfl

theorem writes_elLeftDiv (operands : s.operands = o :: os) :
    Writes elLeftDiv s (Assembled.leftQuotient s.seed.numeric o os).assembly.spelled := by
  unfold Writes elLeftDiv
  rw [operands, Assembled.spelled, quotient_leftQuotient]
  exact exists_fixed rfl

theorem quotient_solved (operator : String) {step : Assembled → Operand → Assembled}
    {plain : Quotient → Operand → Quotient} (same : ∀ q o, (step q o).quotient = plain q.quotient o)
    (q : Assembled) (os : List Operand) :
    (quotient s operator plain q.quotient os).1 = (Assembled.solved s operator step q os).quotient := by
  induction os generalizing q with
  | nil => rfl
  | cons o os ih =>
    rw [quotient, Assembled.solved, List.foldl_cons, ← Assembled.solved, ← ih]
    show (quotient s operator plain { plain q.quotient o with shape := _ } os).1 = _
    rw [← same]
    rfl

theorem writes_structural (operator : String) {step : Assembled → Operand → Assembled}
    {plain : Quotient → Operand → Quotient} (same : ∀ q o, (step q o).quotient = plain q.quotient o)
    {scalars : Rule} (operands : s.operands = o :: os) (known : s.seed.datatype.isKnown)
    (other : allScalar s = false) : Writes (structural operator plain scalars) s
      (Assembled.solved s operator step (.ofOperand o) os).assembly.spelled := by
  unfold Writes structural
  rw [known, other, if_neg Bool.false_ne_true, Bool.not_true, if_neg Bool.false_ne_true, operands,
    Assembled.spelled]
  exact exists_fixed (congrArg Quotient.text (quotient_solved operator same (.ofOperand o) os))

theorem structural_of_unknown {operator : String} {plain : Quotient → Operand → Quotient}
    {scalars : Rule} (unknown : s.seed.datatype.isKnown = false) :
    structural operator plain scalars s = s.keep (between operator) := by
  rw [structural, unknown]
  rfl

theorem structural_of_scalars {operator : String} {plain : Quotient → Operand → Quotient}
    {scalars : Rule} (known : s.seed.datatype.isKnown) (all : allScalar s) :
    structural operator plain scalars s = scalars s := by
  rw [structural, known, all]
  rfl

theorem writes_power (operands : s.operands = o :: os) :
    Writes power s
      (os.foldl (fun base e => call (powerCallee s) [base, whole e.text]) (whole o.text)).spelled := by
  unfold Writes power
  rw [texts_of_operands operands]
  refine exists_fixed ?_
  rw [List.foldl_map]
  show os.foldl _ (whole o.text).spelled = _
  refine List.foldl_hom Assembly.spelled fun base e => ?_
  apply String.toList_injective
  simp [Assembly.spelled, Assembly.spelledAll, Cpp.call, Text.joined, powerCallee]

theorem writes_rightDiv (operands : s.operands = o :: os) :
    Writes rightDiv s (rightDivision s o os).spelled := by
  unfold rightDivision
  cases known : s.seed.datatype.isKnown with
  | false =>
    unfold Writes rightDiv
    rw [structural_of_unknown known]
    exact exists_between .div operands
  | true =>
    cases scalars : allScalar s with
    | true =>
      unfold Writes rightDiv
      rw [structural_of_scalars known scalars]
      exact writes_elRightDiv operands
    | false => exact writes_structural "/" (fun _ _ => rfl) operands known scalars

theorem writes_leftDiv (operands : s.operands = o :: os) (known : s.seed.datatype.isKnown) :
    Writes leftDiv s (leftDivision s o os).spelled := by
  unfold leftDivision
  cases scalars : allScalar s with
  | true =>
    unfold Writes leftDiv
    rw [structural_of_scalars known scalars]
    exact writes_elLeftDiv operands
  | false => exact writes_structural "\\" (fun _ _ => rfl) operands known scalars

/-- An operator that is written whatever the operands are. -/
theorem rule_of_operator {c : Category} (found : operator? c = some op) :
    ∃ (rule : Rule) (effects : Site → List Effect), c.isOperator ∧ ofCategory? c = some rule
      ∧ ∀ s, rule s = s.keep (between op.symbol) (effects s) := by
  cases c <;> cases found
  all_goals exact ⟨_, _, rfl, rfl, fun _ => rfl⟩

/-- The rule of an operator writes its operands as they are put together. -/
theorem writes_operation (operands : s.operands = o :: os) (found : operation? s o os = some e) :
    Writes (select s.tree s.node) s e.spelled := by
  have selects : ∀ {c : Category} {rule : Rule}, s.node.category = c → c.isOperator →
      ofCategory? c = some rule → Writes rule s e.spelled →
        Writes (select s.tree s.node) s e.spelled := by
    rintro _ _ rfl operator category writes
    rw [select_of_isOperator operator, category]
    exact writes
  unfold operation? at found
  split at found
  case h_1 category =>
    cases found
    exact selects category rfl rfl (writes_mul operands)
  case h_2 category =>
    cases found
    exact selects category rfl rfl (writes_elMul operands)
  case h_3 category =>
    cases found
    exact selects category rfl rfl (writes_elRightDiv operands)
  case h_4 category =>
    cases found
    exact selects category rfl rfl (writes_elLeftDiv operands)
  case h_5 category =>
    cases found
    exact selects category rfl rfl (writes_rightDiv operands)
  case h_6 category =>
    split at found
    case isTrue known =>
      cases found
      exact selects category rfl rfl (writes_leftDiv operands known)
    case isFalse => cases found
  case h_7 category | h_8 category =>
    cases found
    exact selects category rfl rfl (writes_power operands)
  case h_9 =>
    obtain ⟨op, operator, rfl⟩ := Option.map_eq_some_iff.mp found
    obtain ⟨rule, effects, operator, category, answer⟩ := rule_of_operator operator
    refine selects rfl operator category ?_
    unfold Writes
    rw [answer]
    exact exists_between op operands

/-! ### Sizes -/

theorem spelled_extents (x : Operand) (axes : Nat) :
    (braces ((extentMembers.take axes).map (member (owner x)))).spelled
      = BuiltinRule.extentList (BuiltinRule.receiver x) (BuiltinRule.extents.take axes) := by
  have names : BuiltinRule.extents = extentMembers.map (·.name) := rfl
  rw [Assembly.spelled, Assembly.spelledAll_eq, BuiltinRule.extentList, names, ← List.map_take,
    List.map_map, List.map_map]
  congr 4
  funext m
  show (member (owner x) m).spelled = _
  rw [Assembly.spelled, spelled_owner]
  rfl

theorem emits_sizeOfAxes {axes : Nat} (few : axes ≤ 3) :
    Emits (BuiltinRule.sizeOfAxes x axes) s (extentsAssembly x axes s).spelled := by
  have members : BuiltinRule.extentsOf axes = .ok (BuiltinRule.extents.take axes) := if_pos few
  have list := spelled_extents x axes
  unfold Emits BuiltinRule.sizeOfAxes extentsAssembly
  rw [members]
  cases BuiltinRule.isAssignedToVariable s with
  | true => exact ⟨_, rfl, .inl list.symm⟩
  | false =>
    dsimp only
    rw [Bool.not_false, Bool.true_and]
    cases alone : s.parentCategory? == some .statement with
    | true =>
      refine ⟨⟨.fixed ("urowvec(" ++ BuiltinRule.extentList (BuiltinRule.receiver x)
        (BuiltinRule.extents.take axes) ++ ")"), .of ⟨.rowvec, .uword⟩, []⟩, ?_, .inl ?_⟩
      · rfl
      · rw [← list]
        apply String.toList_injective
        simp [Site.written, Template.render, Assembly.spelled, Assembly.spelledAll, Cpp.call, Text.joined]
    | false =>
      refine ⟨⟨.fixed (s.state.temporaryName s.id ⟨.rowvec, .uword⟩), .of ⟨.rowvec, .uword⟩,
        [.hoist s.id (BuiltinRule.extentList (BuiltinRule.receiver x) (BuiltinRule.extents.take axes))
          ⟨.rowvec, .uword⟩]⟩, ?_, .inr ⟨⟨.rowvec, .uword⟩, ?_⟩⟩
      · rfl
      · rw [if_neg Bool.false_ne_true, list]
        exact List.mem_singleton_self _

theorem extentOfAxis?_eq (axis : Int) :
    BuiltinRule.extentOfAxis? axis = (memberOfAxis? axis).map (·.name) := by
  unfold BuiltinRule.extentOfAxis? memberOfAxis?
  split
  · rw [← List.getElem?_map]
    rfl
  · rfl

/-- A size is written as it is put together. -/
theorem emits_extent (get : s.node.category = .get)
    (builtin : builtinOf? s.tree s.node = some .size)
    (found : extent? s = some e) : Emits (select s.tree s.node) s e.spelled := by
  rw [select_of_call get builtin rfl]
  unfold extent? at found
  split at found
  case h_1 x operands =>
    unfold Emits BuiltinRule.size
    rw [operands]
    dsimp only
    split at found
    · cases found
    case isFalse told =>
      rw [if_neg told]
      split at found
      case h_1 shape | h_2 shape =>
        cases found
        rw [BuiltinRule.sizeOf, shape]
        refine ⟨_, rfl, .inl ?_⟩
        rw [Assembly.spelled, spelled_owner, String.append_assoc]
        rfl
      case h_3 shape | h_4 shape =>
        cases found
        rw [BuiltinRule.sizeOf, shape]
        exact emits_sizeOfAxes (by decide)
      case h_5 => cases found
  case h_2 x axis operands =>
    unfold Emits BuiltinRule.size
    rw [operands]
    dsimp only
    split at found
    · cases found
    case isFalse told =>
      obtain ⟨m, axis', rfl⟩ := Option.map_eq_some_iff.mp found
      obtain ⟨k, literal, here⟩ := Option.bind_eq_some_iff.mp axis'
      rw [if_neg told, BuiltinRule.sizeAlong, literal, Option.bind_some, extentOfAxis?_eq, here]
      refine ⟨_, rfl, .inl ?_⟩
      rw [Assembly.spelled, spelled_owner]
      rfl
  case h_3 => cases found

/-- Every node that is put together from bare operands is written so. -/
theorem emits_joined (found : joined? s = some e) : Emits (select s.tree s.node) s e.spelled := by
  unfold joined? at found
  split at found
  case h_1 => cases found
  case h_2 o os operands =>
    split at found
    case isTrue size => exact emits_extent size.1 size.2 found
    case isFalse => exact (writes_operation operands found).emits

theorem isInline_of_joined (found : joined? s = some e) :
    s.node.category ≠ .block ∧ s.node.category ≠ .function := by
  unfold joined? at found
  split at found
  case h_1 => cases found
  case h_2 =>
    split at found
    case isTrue size => exact ⟨by rw [size.1]; nofun, by rw [size.1]; nofun⟩
    case isFalse =>
      unfold operation? at found
      constructor
      · intro eq
        rw [eq] at found
        cases found
      · intro eq
        rw [eq] at found
        cases found

/-! ## Which texts stand bare -/

/-- A fold keeps what is pasted, and pastes the texts of all operands that each step pastes. -/
theorem pasted_foldl {α : Type} (pasted : α → List String) (step : α → Operand → α)
    (P : Operand → Prop)
    (keeps : ∀ q o, ∀ a ∈ pasted q, a ∈ pasted (step q o))
    (adds : ∀ q o, P o → o.text ∈ pasted (step q o)) (q : α) (os : List Operand) :
    (∀ a ∈ pasted q, a ∈ pasted (os.foldl step q))
      ∧ ∀ o ∈ os, P o → o.text ∈ pasted (os.foldl step q) := by
  induction os generalizing q with
  | nil => exact ⟨fun _ mem => mem, fun _ mem => absurd mem List.not_mem_nil⟩
  | cons o os ih =>
    obtain ⟨kept, rest⟩ := ih (step q o)
    refine ⟨fun a mem => kept a (keeps q o a mem), List.forall_mem_cons.mpr ⟨fun holds => ?_, rest⟩⟩
    exact kept _ (adds q o holds)

theorem pasted_ratio (wide : Bool) (numerator divisor : Assembly) {a : String} :
    a ∈ numerator.pasted ∨ a ∈ divisor.pasted → a ∈ (ratio wide numerator divisor).pasted := by
  intro h
  unfold ratio
  rw [Assembly.pasted, List.mem_append]
  cases wide with
  | true =>
    rw [if_pos rfl, Assembly.pasted, List.mem_append]
    exact h.imp_left .inl
  | false => exact h

/-- An operand that is no integer literal, which may be made a floating-point one. -/
def Stays (o : Operand) : Prop := o.node.category ≠ .int

namespace Assembled

/-- What is pasted into the text of the quotient. -/
def pasted (q : Assembled) : List String := q.assembly.pasted

theorem pasted_divideBy (typed : Bool) (q : Assembled) (o : Operand) :
    (∀ a ∈ q.pasted, a ∈ (q.divideBy typed o).pasted)
      ∧ (Stays o → o.text ∈ (q.divideBy typed o).pasted) := by
  unfold pasted divideBy
  dsimp only
  split
  case isTrue int =>
    exact ⟨fun a mem => pasted_ratio _ _ _ (.inl mem), fun stays => absurd (eq_of_beq int) stays⟩
  case isFalse =>
    exact ⟨fun a mem => pasted_ratio _ _ _ (.inl mem),
      fun _ => pasted_ratio _ _ _ (.inr List.mem_cons_self)⟩

theorem pasted_divideInto (typed literal : Bool) (q : Assembled) (divisor : Assembly)
    (o : Operand) :
    (literal = false → ∀ a ∈ divisor.pasted, a ∈ (q.divideInto typed literal divisor o).pasted)
      ∧ o.text ∈ (q.divideInto typed literal divisor o).pasted := by
  unfold pasted divideInto
  cases literal with
  | true => exact ⟨nofun, pasted_ratio _ _ _ (.inl List.mem_cons_self)⟩
  | false =>
    exact ⟨fun _ a mem => pasted_ratio _ _ _ (.inr mem), pasted_ratio _ _ _ (.inl List.mem_cons_self)⟩

theorem pasted_solveRight (q : Assembled) (o : Operand) :
    (∀ a ∈ q.pasted, a ∈ (q.solveRight o).pasted) ∧ o.text ∈ (q.solveRight o).pasted := by
  unfold pasted solveRight
  dsimp only
  split
  · simp only [transposedText, Assembly.pasted, Assembly.pastedAll, List.append_nil, List.mem_append]
    exact ⟨fun _ mem => .inr mem, .inl List.mem_cons_self⟩
  · exact ⟨fun a mem => pasted_ratio _ _ _ (.inl mem), pasted_ratio _ _ _ (.inr List.mem_cons_self)⟩

theorem pasted_solveLeft (q : Assembled) (o : Operand) :
    (∀ a ∈ q.pasted, a ∈ (q.solveLeft o).pasted) ∧ o.text ∈ (q.solveLeft o).pasted := by
  unfold pasted solveLeft
  dsimp only
  split
  · simp only [Assembly.pasted, Assembly.pastedAll, List.append_nil, List.mem_append]
    exact ⟨fun _ mem => .inl mem, .inr List.mem_cons_self⟩
  · exact ⟨fun a mem => pasted_ratio _ _ _ (.inl mem), pasted_ratio _ _ _ (.inr List.mem_cons_self)⟩

theorem pasted_leftQuotient (typed : Bool) (first : Operand) (os : List Operand) :
    ∀ o ∈ first :: os, Stays o → o.text ∈ (leftQuotient typed first os).pasted := by
  cases os with
  | nil =>
    intro o mem _
    rw [List.mem_singleton.mp mem]
    exact List.mem_cons_self
  | cons second more =>
    obtain ⟨front, here⟩ := pasted_divideInto typed (first.node.category == .int) (ofOperand first)
      (whole first.text) second
    obtain ⟨kept, rest⟩ := pasted_foldl pasted (divideIntoQuotient typed) (fun _ => True)
      (fun q o => (pasted_divideInto typed false q (parens q.assembly) o).1 rfl)
      (fun q o _ => (pasted_divideInto typed false q (parens q.assembly) o).2)
      ((ofOperand first).divideInto typed (first.node.category == .int) (whole first.text) second) more
    refine List.forall_mem_cons.mpr
      ⟨fun stays => ?_, List.forall_mem_cons.mpr ⟨fun _ => kept _ here, ?_⟩⟩
    · exact kept _ (front (beq_eq_false_iff_ne.mpr stays) _ List.mem_cons_self)
    · exact fun o mem _ => rest o mem trivial

theorem pasted_solved {s : Site} (operator : String) {step : Assembled → Operand → Assembled}
    (pastes : ∀ q o, (∀ a ∈ pasted q, a ∈ (step q o).pasted) ∧ o.text ∈ (step q o).pasted)
    (first : Operand) (os : List Operand) :
    ∀ o ∈ first :: os, o.text ∈ (solved s operator step (.ofOperand first) os).pasted := by
  obtain ⟨kept, rest⟩ := pasted_foldl pasted
    (fun q o => (step q o).withShape (quotientShape s operator q.quotient o).1) (fun _ => True)
    (fun q o => (pastes q o).1) (fun q o _ => (pastes q o).2) (.ofOperand first) os
  exact List.forall_mem_cons.mpr ⟨kept _ List.mem_cons_self, fun o mem => rest o mem trivial⟩

end Assembled

theorem pasted_chained (op : Operator) (o : Operand) (os : List Operand) :
    ∀ x ∈ o :: os, x.text ∈ (chained op o os).pasted := by
  obtain ⟨kept, rest⟩ := pasted_foldl Assembly.pasted
    (fun e o => binary op false e (whole o.text)) (fun _ => True)
    (fun e o a mem => by rw [Assembly.pasted]; exact List.mem_append_left _ mem)
    (fun e o _ => by rw [Assembly.pasted]; exact List.mem_append_right _ List.mem_cons_self)
    (whole o.text) os
  have same : chained op o os
      = os.foldl (fun e o => binary op false e (whole o.text)) (whole o.text) := by
    rw [chained, Assembly.chain, List.foldl_map]
  rw [same]
  exact List.forall_mem_cons.mpr ⟨kept _ List.mem_cons_self, fun x mem => rest x mem trivial⟩

theorem pasted_owner (x : Operand) : x.text ∈ (owner x).pasted := by
  unfold owner
  split
  · exact List.mem_cons_self
  · exact List.mem_cons_self

theorem pasted_operation {s : Site} {o : Operand} {os : List Operand} {e : Assembly}
    (found : operation? s o os = some e) : ∀ x ∈ o :: os, Stays x → x.text ∈ e.pasted := by
  have divided : ∀ x ∈ o :: os, Stays x →
      x.text ∈ (os.foldl (.divideBy s.seed.numeric) (Assembled.ofOperand o)).pasted := by
    obtain ⟨kept, rest⟩ := pasted_foldl Assembled.pasted (.divideBy s.seed.numeric) Stays
      (fun q o => (Assembled.pasted_divideBy s.seed.numeric q o).1)
      (fun q o => (Assembled.pasted_divideBy s.seed.numeric q o).2) (.ofOperand o) os
    exact List.forall_mem_cons.mpr ⟨fun _ => kept _ List.mem_cons_self, rest⟩
  unfold operation? at found
  split at found
  case h_1 | h_2 =>
    cases found
    exact fun x mem _ => pasted_chained _ o os x mem
  case h_3 =>
    cases found
    exact divided
  case h_4 =>
    cases found
    exact Assembled.pasted_leftQuotient s.seed.numeric o os
  case h_5 =>
    cases found
    unfold rightDivision
    split
    · exact fun x mem _ => pasted_chained .div o os x mem
    · split
      · exact divided
      · exact fun x mem _ => Assembled.pasted_solved "/" Assembled.pasted_solveRight o os x mem
  case h_6 =>
    split at found
    case isTrue =>
      cases found
      unfold leftDivision
      split
      · exact Assembled.pasted_leftQuotient s.seed.numeric o os
      · exact fun x mem _ => Assembled.pasted_solved "\\" Assembled.pasted_solveLeft o os x mem
    case isFalse => cases found
  case h_7 | h_8 =>
    cases found
    obtain ⟨kept, rest⟩ := pasted_foldl Assembly.pasted
      (fun base e => call (powerCallee s) [base, whole e.text]) (fun _ => True)
      (fun base e a mem => by simp [Assembly.pasted, Assembly.pastedAll, mem])
      (fun base e _ => by simp [Assembly.pasted, Assembly.pastedAll]) (whole o.text) os
    exact List.forall_mem_cons.mpr
      ⟨fun _ => kept _ List.mem_cons_self, fun x mem _ => rest x mem trivial⟩
  case h_9 =>
    obtain ⟨op, -, rfl⟩ := Option.map_eq_some_iff.mp found
    exact fun x mem _ => pasted_chained op o os x mem

theorem pasted_extents {s : Site} (x : Operand) {axes : Nat} (some : 0 < axes) :
    x.text ∈ (extentsAssembly x axes s).pasted := by
  have list : x.text ∈ (braces ((extentMembers.take axes).map (member (owner x)))).pasted := by
    obtain ⟨n, rfl⟩ := Nat.exists_eq_succ_of_ne_zero (Nat.ne_of_gt some)
    rw [extentMembers, List.take_succ_cons, List.map_cons, Assembly.pasted, Assembly.pastedAll,
      Assembly.pasted]
    exact List.mem_append_left _ (pasted_owner x)
  unfold extentsAssembly
  dsimp only
  split
  · rw [Assembly.pasted, Assembly.pastedAll]
    exact List.mem_append_left _ list
  · exact list

theorem int_of_intValue? {n : Node} {k : Int} (literal : n.intValue? = some k) :
    n.category = .int := by
  unfold Node.intValue? at literal
  split at literal
  case h_1 category _ => exact category
  case h_2 => cases literal

theorem pasted_extent {s : Site} {e : Assembly} (found : extent? s = some e) :
    ∀ x ∈ s.operands, Stays x → x.text ∈ e.pasted := by
  unfold extent? at found
  split at found
  case h_1 x operands =>
    rw [operands]
    refine List.forall_mem_singleton.mpr fun _ => ?_
    split at found
    · cases found
    · split at found
      case h_1 | h_2 =>
        cases found
        rw [Assembly.pasted]
        exact pasted_owner x
      case h_3 | h_4 =>
        cases found
        exact pasted_extents x (by decide)
      case h_5 => cases found
  case h_2 x axis operands =>
    rw [operands]
    split at found
    · cases found
    · obtain ⟨m, axis', rfl⟩ := Option.map_eq_some_iff.mp found
      obtain ⟨k, literal, -⟩ := Option.bind_eq_some_iff.mp axis'
      refine List.forall_mem_cons.mpr ⟨fun _ => ?_, List.forall_mem_singleton.mpr fun stays => ?_⟩
      · rw [Assembly.pasted]
        exact pasted_owner x
      · exact absurd (int_of_intValue? literal) stays
  case h_3 => cases found

/-- Every operand that is no integer literal is pasted. -/
theorem pasted_joined {s : Site} {e : Assembly} (found : joined? s = some e) :
    ∀ x ∈ s.operands, Stays x → x.text ∈ e.pasted := by
  unfold joined? at found
  split at found
  case h_1 => cases found
  case h_2 o os operands =>
    split at found
    case isTrue => exact pasted_extent found
    case isFalse =>
      rw [operands]
      exact pasted_operation found

end

end Rule

end MatrixScript
