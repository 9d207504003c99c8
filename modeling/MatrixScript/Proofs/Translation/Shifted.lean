/-
# `Proofs.Translation.Shifted` — arguments of subscripts that stay whole

Scripts count from one and the emitted code from zero, so a subscript of a known variable
writes a minus one behind every argument that is no literal, range or colon; `Rule.subscripted`
is how its text is put together.  Read as C++ the minus takes all of the argument exactly if no
operator of that is looser (`Rule.fits_position`, `positions_whole_iff`): a sum is shifted as a
whole, and of a comparison only what stands on its right.  The operators that C++ has looser than
a minus are the comparisons and the logical ones (`Rule.level_operation`).
-/
import MatrixScript.Proofs.Cpp.Name
import MatrixScript.Proofs.Rule.Joined
import MatrixScript.Proofs.Translation.Handed

namespace MatrixScript

section

open Cpp (Assembly Operator Callee Tight)
open Cpp.Assembly (whole call binary)

namespace Rule

/-! ## Positions -/

/-- A range or a colon: its text counts from zero already. -/
def isSpan (o : Operand) : Bool := o.node.category == .range || o.node.category == .all

/-- How an argument is put together. -/
def position (o : Operand) : Assembly :=
  if isSpan o then whole o.text
  else
    match o.node.intValue? with
    | some v => whole (toString (Node.predecessor v))
    | none => binary .sub false (whole o.text) (whole "1")

/-- A subscript of a known variable. -/
def subscripted (x : Callee) (os : List Operand) : Assembly := call x (os.map position)

/-- The text of an argument is no looser than what is written beside it. -/
def PositionTight (o : Operand) : Prop :=
  if isSpan o then Tight 0 o.text else o.node.intValue? = none → Tight 6 o.text

variable {s : Site} {o : Operand} {os : List Operand} {x : Callee} {d : Datatype} {e : Assembly}

theorem spelled_position (o : Operand) : (position o).spelled = indexText o := by
  unfold position indexText zeroBased isSpan
  split
  · rfl
  · cases o.node.intValue? with
    | some v => rfl
    | none => rw [Assembly.spelled, Assembly.spelled, Assembly.spelled, String.append_assoc]; rfl

/-- A subscript of a known variable is written as it is put together. -/
theorem writes_subscript (named : x.name = s.name) (known : s.lookup s.name = some d) :
    Writes subscript s (subscripted x s.operands).spelled := by
  have text : s.name ++ "(" ++ Text.joined ", " (s.operands.map indexText) ++ ")"
      = (subscripted x s.operands).spelled := by
    rw [subscripted, Assembly.spelled, Assembly.spelledAll_eq, List.map_map, named]
    show _ = Cpp.call s.name (s.operands.map fun o => (position o).spelled)
    simp only [spelled_position, Cpp.call]
  unfold Writes subscript
  rw [known]
  dsimp only
  split
  · exact exists_fixed text
  · exact exists_fixed text

/-- Integers are written as operands, or as such with a minus. -/
theorem fits_integer (v : Int) : (whole (toString v)).Fits := by
  have natural : ∀ n : Nat, Cpp.group? (toString n) = some (.operand [toString n]) := fun n =>
    Cpp.group?_digits (Program.digits_toString n)
  rw [Assembly.Fits]
  cases v with
  | ofNat n =>
    show (Cpp.group? (toString n)).isSome
    rw [natural]
    rfl
  | negSucc n =>
    have alone : Operator.sub.fusesWith (toString (n + 1)) = false := by
      obtain ⟨some, digits⟩ := Program.digits_toString (n + 1)
      obtain ⟨c, cs, letters⟩ := List.exists_cons_of_ne_nil some
      rw [letters, List.all_cons, Bool.and_eq_true] at digits
      rw [Operator.fusesWith, letters]
      have other : c ≠ '-' := by
        rintro rfl
        cases digits.1
      simp [Operator.symbol, Cpp.fuses, other.symm]
    show (Cpp.group? ("-" ++ toString (n + 1))).isSome
    rw [(Cpp.group?_minus_iff (natural (n + 1))).mpr ⟨Nat.le_succ 8, alone⟩]
    rfl

/-- The minus takes all of an argument exactly if that is tight enough. -/
theorem read_position : (position o).Read ↔ PositionTight o := by
  rw [Assembly.read_iff_fits]
  unfold position PositionTight
  split
  · rw [Assembly.tight_iff, and_iff_left (Nat.zero_le _)]
  · cases o.node.intValue? with
    | some v => exact iff_of_true (fits_integer _) nofun
    | none =>
      have one : (whole "1").Fits ∧ Operator.sub.level < (whole "1").level
          ∧ Operator.sub.fusesWith (whole "1").spelled = false := by decide
      have six : Operator.sub.level = 6 := rfl
      rw [Assembly.Fits, Assembly.tight_iff, six]
      constructor
      · rintro ⟨le, -, -, fits, -⟩ -
        exact ⟨fits, le⟩
      · intro tight
        obtain ⟨fits, le⟩ := tight rfl
        exact ⟨le, one.2.1, fun _ => one.2.2, fits, one.1⟩

/-- An operator is neither a range nor a literal. -/
theorem positionTight_of_isOperator (operator : o.node.category.isOperator) :
    PositionTight o ↔ Tight 6 o.text := by
  have span : isSpan o = false := by
    unfold isSpan
    generalize o.node.category = c at operator
    cases c <;> first | rfl | cases operator
  have literal : o.node.intValue? = none := by
    unfold Node.intValue?
    split
    case h_1 int _ =>
      rw [int] at operator
      cases operator
    case h_2 => rfl
  rw [PositionTight, span, if_neg Bool.false_ne_true]
  exact ⟨fun tight => tight literal, fun tight _ => tight⟩

theorem read_subscripted : (subscripted x os).Read ↔ ∀ o ∈ os, PositionTight o := by
  rw [subscripted, Assembly.read_call, Assembly.readAll_iff, List.forall_mem_map]
  exact forall₂_congr fun _ _ => read_position

/-! ## How loose operators are -/

/-- A comparison or a logical operator of two operands. -/
def isTruthOperator (c : Category) : Bool :=
  c.isComparison || c == .and || c == .andAnd || c == .or || c == .orOr

theorem level_operator {c : Category} {op : Operator} (found : operator? c = some op) :
    6 ≤ op.level ↔ isTruthOperator c = false := by
  cases c <;> cases found <;> decide

theorem level_chained (op : Operator) (o o' : Operand) (os : List Operand) :
    (chained op o (o' :: os)).level = op.level := by
  rw [chained, Assembly.level_chain, if_neg (by simp)]

/-- What every step of a fold makes true is true after at least one. -/
theorem foldl_of_step {α : Type} {P : α → Prop} {step : α → Operand → α}
    (steps : ∀ q o, P (step q o)) (q : α) (o : Operand) (os : List Operand) :
    P ((o :: os).foldl step q) :=
  List.foldlRecOn os step (steps q o) fun q _ o _ => steps q o

/-- Quotients are no looser than products. -/
theorem level_divideBy (typed : Bool) (q : Assembled) (o : Operand) :
    6 ≤ (q.divideBy typed o).assembly.level := by
  unfold Assembled.divideBy
  dsimp only
  split <;> exact Nat.le_succ 6

theorem level_divideInto (typed literal : Bool) (q : Assembled) (divisor : Assembly) (o : Operand) :
    6 ≤ (q.divideInto typed literal divisor o).assembly.level := by
  unfold Assembled.divideInto
  dsimp only
  split <;> exact Nat.le_succ 6

theorem level_solveRight (q : Assembled) (o : Operand) : 6 ≤ (q.solveRight o).assembly.level := by
  unfold Assembled.solveRight
  dsimp only
  split
  · exact (by decide : 6 ≤ 9)
  · exact Nat.le_succ 6

theorem level_solveLeft (q : Assembled) (o : Operand) : 6 ≤ (q.solveLeft o).assembly.level := by
  unfold Assembled.solveLeft
  dsimp only
  split
  · exact (by decide : 6 ≤ 9)
  · exact Nat.le_succ 6

theorem level_leftQuotient (typed : Bool) (o o' : Operand) (os : List Operand) :
    6 ≤ (Assembled.leftQuotient typed o (o' :: os)).assembly.level :=
  List.foldlRecOn os _ (motive := fun q : Assembled => 6 ≤ q.assembly.level)
    (level_divideInto _ _ _ _ _) fun _ _ _ _ => level_divideInto _ _ _ _ _

theorem level_solved (operator : String) {step : Assembled → Operand → Assembled}
    (steps : ∀ q o, 6 ≤ (step q o).assembly.level) (q : Assembled) (o : Operand) (os : List Operand) :
    6 ≤ (Assembled.solved s operator step q (o :: os)).assembly.level :=
  have steps' (q : Assembled) (o : Operand) :
      6 ≤ ((step q o).withShape (quotientShape s operator q.quotient o).1).assembly.level := steps q o
  foldl_of_step (P := fun q : Assembled => 6 ≤ q.assembly.level) steps' q o os

theorem isOperator_of_operation (found : operation? s o os = some e) : s.node.category.isOperator := by
  unfold operation? at found
  split at found
  case h_9 =>
    obtain ⟨op, operator, -⟩ := Option.map_eq_some_iff.mp found
    obtain ⟨-, -, operator, -⟩ := rule_of_operator operator
    exact operator
  all_goals
    rename_i category
    rw [category]
    rfl

/-- What is put together from the operands of an operator is tight enough for a minus behind
it, unless the operator compares or is a logical one. -/
theorem level_operation {o' : Operand} (found : operation? s o (o' :: os) = some e) :
    6 ≤ e.level ↔ isTruthOperator s.node.category = false := by
  have tight : ∀ {e : Assembly}, 6 ≤ e.level → isTruthOperator s.node.category = false →
      (6 ≤ e.level ↔ isTruthOperator s.node.category = false) := fun le not => iff_of_true le not
  have seven : ∀ {op : Operator}, op.level = 7 → 6 ≤ (chained op o (o' :: os)).level := by
    intro op level
    rw [level_chained, level]
    exact Nat.le_succ 6
  unfold operation? at found
  split at found
  case h_1 category =>
    cases found
    exact tight (seven rfl) (by rw [category]; rfl)
  case h_2 category =>
    cases found
    refine tight (seven ?_) (by rw [category]; rfl)
    split <;> rfl
  case h_3 category =>
    cases found
    exact tight (foldl_of_step (P := fun q : Assembled => 6 ≤ q.assembly.level)
      (level_divideBy _) _ _ _) (by rw [category]; rfl)
  case h_4 category =>
    cases found
    exact tight (level_leftQuotient _ _ _ _) (by rw [category]; rfl)
  case h_5 category =>
    cases found
    refine tight ?_ (by rw [category]; rfl)
    unfold rightDivision
    split
    · exact seven rfl
    · split
      · exact foldl_of_step (P := fun q : Assembled => 6 ≤ q.assembly.level) (level_divideBy _) _ _ _
      · exact level_solved _ level_solveRight _ _ _
  case h_6 category =>
    split at found
    case isTrue =>
      cases found
      refine tight ?_ (by rw [category]; rfl)
      unfold leftDivision
      split
      · exact level_leftQuotient _ _ _ _
      · exact level_solved _ level_solveLeft _ _ _
    case isFalse => cases found
  case h_7 category | h_8 category =>
    cases found
    refine tight ?_ (by rw [category]; rfl)
    refine foldl_of_step (P := fun e : Assembly => 6 ≤ e.level) (fun base e => ?_) _ _ _
    exact (by decide : 6 ≤ 9)
  case h_9 =>
    obtain ⟨op, operator, rfl⟩ := Option.map_eq_some_iff.mp found
    rw [level_chained]
    exact level_operator operator

end Rule

end

/-! ## The whole walk -/

open Cpp (Assembly Callee)
open Cpp.Assembly (whole call binary)

namespace Resolving

variable {w w₁ : Workspace} {depth : Nat}

/-- After its operands an operator is put together from their texts. -/
inductive Joins (w : Workspace) : Nat → NodeId → Assembly → Prop
  | intro {depth : Nat} {c : NodeId} {found : List String} {w₁ : Workspace} {o o' : Operand}
      {os : List Operand} {e : Assembly} :
      texts (resolveWithin depth) (w.tree.children c) w = (.ok found, w₁) →
      ((w₁.seed c).site c found).operands = o :: o' :: os →
      Rule.operation? ((w₁.seed c).site c found) o (o' :: os) = some e → Joins w (depth + 1) c e

/-- An operator is resolved to its text, which is loose where the operator is. -/
theorem Joins.resolve {c : NodeId} {e : Assembly} (h : Joins w depth c e) :
    (∃ w', resolveWithin depth c w = (.ok e.spelled, w')) ∧ (w.tree.category c).isOperator
      ∧ (6 ≤ e.level ↔ Rule.isTruthOperator (w.tree.category c) = false) := by
  obtain ⟨children, operands, joins⟩ := h
  have category := category_of_texts children
  have level := Rule.level_operation joins
  have operator := Rule.isOperator_of_operation joins
  rw [category] at level operator
  have block : w.tree.category c ≠ .block := by
    intro eq
    rw [eq] at operator
    cases operator
  have function : w.tree.category c ≠ .function := by
    intro eq
    rw [eq] at operator
    cases operator
  exact ⟨resolveWithin_of_writes block function children (Rule.writes_operation operands joins),
    operator, level⟩

/-- A subscript of a known variable whose arguments are resolved is resolved to a call of the
variable with one less than each argument, where ranges, colons and literals are shifted
already.  Read as C++, every minus in it takes all of its argument exactly if the argument is
tight enough; of an operator that is read as it is put together all is taken exactly if it
neither compares nor is a logical one. -/
theorem positions_whole_iff {p : NodeId} {found : List String} {d : Datatype}
    (subscript : (w.tree.category p).isSubscript) (name : isName (w.tree.node p).name)
    (children : texts (resolveWithin depth) (w.tree.children p) w = (.ok found, w₁))
    (plain : Rule.builtinOf? (w₁.seed p).tree ((w₁.seed p).tree.node p) = none)
    (known : w₁.state.lookup (w.tree.node p).name = some d) :
    let s := (w₁.seed p).site p found
    let x : Callee := ⟨(w.tree.node p).name, Cpp.isCallee_of_isName name⟩
    (∃ w', resolveWithin (depth + 1) p w = (.ok (Rule.subscripted x s.operands).spelled, w'))
      ∧ ((Rule.subscripted x s.operands).Read ↔ ∀ o ∈ s.operands, Rule.PositionTight o)
      ∧ (∀ o ∈ s.operands, ((Rule.position o).Read ↔ Rule.PositionTight o))
      ∧ ∀ {before after : List NodeId} {c : NodeId} {front : List String} {w₂ : Workspace}
          {e : Assembly}, w.tree.children p = before ++ c :: after →
          texts (resolveWithin depth) before w = (.ok front, w₂) → Joins w₂ depth c e → e.Read →
          ∃ o ∈ s.operands, o.id = c ∧ o.text = e.spelled
            ∧ ((Rule.position o).Read ↔ Rule.isTruthOperator (w.tree.category c) = false) := by
  intro s x
  have category : s.node.category = w.tree.category p := category_of_texts children
  have same : s.tree.bare = w.tree.bare := (w₁.bare_seed p).trans (bare_of_texts children)
  have named : (w.tree.node p).name = s.name := (Tree.name_of_bare same p).symm
  have other : w.tree.category p ≠ .block ∧ w.tree.category p ≠ .function := by
    constructor <;> (intro eq; rw [eq] at subscript; cases subscript)
  have rule : Rule.select s.tree s.node = Rule.subscript := by
    refine Rule.select_eq plain ?_
    rw [category]
    generalize w.tree.category p = c at subscript
    cases c <;> first | rfl | cases subscript
  have writes := Rule.writes_subscript (s := s) (x := x) named (named ▸ known)
  rw [← rule] at writes
  refine ⟨resolveWithin_of_writes other.1 other.2 children writes, Rule.read_subscripted,
    fun o _ => Rule.read_position, ?_⟩
  intro before after c front w₂ e kids first joins read
  obtain ⟨⟨w₃, here⟩, operator, level⟩ := joins.resolve
  have same' : s.tree.category = w₂.tree.category :=
    Tree.category_of_bare (same.trans (bare_of_texts first).symm)
  have place : found[before.length]? = some e.spelled := by
    rw [kids] at children
    exact getElem?_of_texts children first here
  have child : (w.tree.children p)[before.length]? = some c := by
    rw [kids]
    simp
  have mem := mem_operands children child place
  refine ⟨_, mem, rfl, rfl, ?_⟩
  rw [← congrFun same' c] at operator level
  rw [← congrFun (Tree.category_of_bare same) c, Rule.read_position,
    Rule.positionTight_of_isOperator operator, ← level]
  exact read.tight_iff

section Instances

/-- A vector and two numbers. -/
def vectorAndFloats : Config :=
  { declarations := ⟨[("v", ⟨.colvec, .float⟩), ("a", ⟨.scalar, .float⟩), ("b", ⟨.scalar, .float⟩)]⟩ }

/-- A sum is shifted as a whole. -/
theorem positions_whole_sum : ∃ t w₁, Tree.parse "y = v(a + b)\n" = .ok t
    ∧ t.category 1 = .get ∧ t.children 1 = [4] ∧ t.category 4 = .add
    ∧ texts (resolveWithin 3) (t.children 1) ⟨t, .ofConfig vectorAndFloats⟩ = (.ok ["a+b"], w₁)
    ∧ ∃ e o, Joins ⟨t, .ofConfig vectorAndFloats⟩ 3 4 e ∧ o ∈ ((w₁.seed 1).site 1 ["a+b"]).operands
      ∧ o.text = e.spelled ∧ (Rule.position o).Read
      ∧ ∃ w', resolveWithin 4 1 ⟨t, .ofConfig vectorAndFloats⟩ = (.ok "v(a+b-1)", w') := by
  have visits : ∃ t w₁ w₂ o o', Tree.parse "y = v(a + b)\n" = .ok t
      ∧ t.category 1 = .get ∧ t.children 1 = [4] ∧ t.category 4 = .add
      ∧ texts (resolveWithin 3) (t.children 1) ⟨t, .ofConfig vectorAndFloats⟩ = (.ok ["a+b"], w₁)
      ∧ Rule.builtinOf? (w₁.seed 1).tree ((w₁.seed 1).tree.node 1) = none
      ∧ w₁.state.lookup (t.node 1).name = some ⟨.colvec, .float⟩
      ∧ texts (resolveWithin 2) (t.children 4) ⟨t, .ofConfig vectorAndFloats⟩ = (.ok ["a", "b"], w₂)
      ∧ ((w₂.seed 4).site 4 ["a", "b"]).operands = [o, o']
      ∧ Rule.operation? ((w₂.seed 4).site 4 ["a", "b"]) o [o']
        = some (binary .add false (whole "a") (whole "b"))
      ∧ ∃ name : isName (t.node 1).name, (Rule.subscripted ⟨_, Cpp.isCallee_of_isName name⟩
        ((w₁.seed 1).site 1 ["a+b"]).operands).spelled = "v(a+b-1)" :=
    ⟨_, _, _, _, _, by cbv, by decide, by decide, by decide,
      Prod.ext (by decide +kernel) rfl, by decide +kernel, by decide +kernel,
      Prod.ext (by decide +kernel) rfl, rfl, rfl, by decide, by decide +kernel⟩
  obtain ⟨t, w₁, w₂, o, o', parses, get, kids, sum, children, plain, known, found, operands,
    joined, name, text⟩ := visits
  have joins : Joins ⟨t, .ofConfig vectorAndFloats⟩ 3 4 _ := .intro found operands joined
  have first : texts (resolveWithin 3) [] ⟨t, .ofConfig vectorAndFloats⟩
      = (.ok [], ⟨t, .ofConfig vectorAndFloats⟩) := rfl
  have place : t.children 1 = [] ++ 4 :: [] := kids
  obtain ⟨⟨w', run⟩, -, -, shifted⟩ := positions_whole_iff (w := ⟨t, .ofConfig vectorAndFloats⟩)
    (show (t.category 1).isSubscript by rw [get]; rfl) name children plain known
  obtain ⟨o, mem, -, same, read⟩ := shifted place first joins (by decide)
  have loose : Rule.isTruthOperator (t.category 4) = false := by
    rw [sum]
    rfl
  exact ⟨t, w₁, parses, get, kids, sum, children, _, o, joins, mem, same, read.mpr loose, w', text ▸ run⟩

/-- A comparison is not: of `a == b` the minus takes `b` alone. -/
theorem positions_whole_equality : ∃ t w₁, Tree.parse "y = v(a == b)\n" = .ok t
    ∧ t.category 1 = .get ∧ t.children 1 = [4] ∧ t.category 4 = .eq
    ∧ texts (resolveWithin 3) (t.children 1) ⟨t, .ofConfig vectorAndFloats⟩ = (.ok ["a==b"], w₁)
    ∧ w₁.state.lookup "v" = some ⟨.colvec, .float⟩
    ∧ (translateWith "y = v(a == b)\n" vectorAndFloats).toOption.map (·.statements)
      = some ["y = v(a==b-1) ;"]
    ∧ Cpp.group? "a==b-1" = some (.binary .eq (.operand ["a"])
      (.binary .sub (.operand ["b"]) (.operand ["1"])))
    ∧ ∃ o, ((w₁.seed 1).site 1 ["a==b"]).operands = [o] ∧ o.text = "a==b"
      ∧ Rule.position o = binary .sub false (whole "a==b") (whole "1") ∧ ¬(Rule.position o).Read :=
  ⟨_, _, by cbv, by decide, by decide, by decide, Prod.ext (by decide +kernel) rfl,
    by decide +kernel, by decide +kernel, by decide, _, rfl, by decide +kernel, rfl, by decide +kernel⟩

end Instances

end Resolving

end MatrixScript
