/-
# `Proofs.Translation.Contagion` — what does not count as a number stays so

An operator counts as a number only if all of its operands do (`Tree.Contagious`), so
that what is no number is none behind any chain of operators (`Translator.numeric_through`).
A division that solves a system is apart: it takes its type from the shapes and classes
alone and counts as a number whatever the operands do (`Tree.Solves`,
`Translator.numeric_through_solve_not`).

An operator shows what its rule answers to operands of the types that they have in the
end (`Tree.Ruled`), so the law is one about answers (`Counts`).
-/
import MatrixScript.Proofs.Translation.Ruled

namespace MatrixScript

/-! ## What rules answer -/

/-- A division between types of which not all are scalars: it solves a system. -/
def Site.Solves (s : Site) : Prop :=
  (s.node.category = .rightDiv ∨ s.node.category = .leftDiv) ∧ ∃ o ∈ s.operands, o.shape ≠ .scalar

/-- An answer that makes a number only out of numbers, unless it solves a system. -/
def Counts (s : Site) : Except Error Outcome → Prop
  | .ok o => o.typing.numeric → s.Solves ∨ ∀ x ∈ s.operands, x.numeric
  | .error _ => True

variable {s : Site}

/-- An operator starts as a number only if all operands are. -/
theorem Site.Seeded.numeric (h : s.Seeded) (numeric : s.seed.numeric) :
    ∀ x ∈ s.operands, x.numeric := by
  rw [h.eq] at numeric
  split at numeric
  · exact List.all_eq_true.mp (Bool.and_eq_true _ _ |>.mp numeric).2
  · cases numeric

namespace Counts

variable {template : Template} {effects : List Effect}

theorem withTyping (h : s.Seeded) {typing : Typing} (seed : typing.numeric → s.seed.numeric) :
    Counts s (s.withTyping typing template effects) :=
  fun numeric => .inr (h.numeric (seed numeric))

theorem keep (h : s.Seeded) : Counts s (s.keep template effects) := withTyping h id

/-- What starts as a number may get any type. -/
theorem typed (h : s.Seeded) (numeric : s.seed.numeric) {d : Datatype} :
    Counts s (s.typed d template effects) :=
  fun _ => .inr (h.numeric numeric)

end Counts

namespace Rule

theorem mul_counts (h : s.Seeded) : Counts s (mul s) := by
  unfold mul
  split
  · exact .keep h
  · split
    · exact .keep h
    case isFalse numeric =>
      split
      · trivial
      · exact .typed h (by simpa using numeric)

theorem power_counts (h : s.Seeded) : Counts s (power s) := by
  unfold power
  split
  · trivial
  · exact .keep h

theorem turned_counts (h : s.Seeded) (numeric : s.seed.numeric) (template : Datatype → Template) :
    Counts s (turned s.seed s >>= fun d => s.typed d (template d)) := by
  unfold turned
  split
  · trivial
  · exact .typed h numeric

theorem transpose_counts (h : s.Seeded) : Counts s (transpose s) := by
  unfold transpose transposed
  split
  · exact .keep h
  case isFalse numeric =>
    exact turned_counts h (by simpa using numeric) fun _ => .join "arma::strans(" "" ")"

theorem ctranspose_counts (h : s.Seeded) : Counts s (ctranspose s) := by
  unfold ctranspose conjugated
  split
  · exact .keep h
  case isFalse numeric =>
    exact turned_counts h (by simpa using numeric) fun d =>
      if d.cls == .complex then .join "arma::trans(" "" ")" else .join "arma::strans(" "" ")"

/-- A quotient of elements is widened, but starts as what the operands are. -/
theorem numeric_of_quotientTyping {seed : Typing} (numeric : (quotientTyping seed).numeric) :
    seed.numeric := by
  unfold quotientTyping at numeric
  split at numeric
  · assumption
  · exact numeric

theorem elRightDiv_counts (h : s.Seeded) : Counts s (elRightDiv s) := by
  unfold elRightDiv
  split
  · trivial
  · exact .withTyping h numeric_of_quotientTyping

theorem elLeftDiv_counts (h : s.Seeded) : Counts s (elLeftDiv s) := by
  unfold elLeftDiv
  split
  · trivial
  · exact .withTyping h numeric_of_quotientTyping

theorem structural_counts (h : s.Seeded)
    (division : s.node.category = .rightDiv ∨ s.node.category = .leftDiv) (operator : String)
    (step : Quotient → Operand → Quotient) {scalars : Rule} (counts : Counts s (scalars s)) :
    Counts s (structural operator step scalars s) := by
  unfold structural
  split
  · exact .keep h
  · split
    · exact counts
    case isFalse solves =>
      split
      · trivial
      · refine fun _ => .inl ⟨division, ?_⟩
        have other : ¬∀ o ∈ s.operands, (o.shape == .scalar) = true :=
          fun all => solves (List.all_eq_true.mpr all)
        push Not at other
        exact other.imp fun o found => ⟨found.1, fun eq => found.2 (beq_iff_eq.mpr eq)⟩

/-- Whatever operator a node is, its answer makes a number only out of numbers, unless it
solves a system. -/
theorem select_counts (h : s.Seeded) (operator : s.node.category.isOperator) :
    Counts s (select s.tree s.node s) := by
  rw [select_of_isOperator operator]
  cases category : s.node.category <;> rw [category] at operator <;>
    first | cases operator; done | skip
  case mul => exact mul_counts h
  case pow | elPow => exact power_counts h
  case transpose => exact transpose_counts h
  case ctranspose => exact ctranspose_counts h
  case elRightDiv => exact elRightDiv_counts h
  case elLeftDiv => exact elLeftDiv_counts h
  case rightDiv => exact structural_counts h (.inl category) "/" solveRight (elRightDiv_counts h)
  case leftDiv => exact structural_counts h (.inr category) "\\" solveLeft (elLeftDiv_counts h)
  all_goals exact .keep h

end Rule

/-! ## What holds of a node -/

namespace Tree

/-- The node is a division that solves a system. -/
def Solves (t : Tree) (id : NodeId) : Prop :=
  (t.category id = .rightDiv ∨ t.category id = .leftDiv)
    ∧ ∃ c ∈ t.children id, (t.node c).shape ≠ .scalar

/-- An operator counts as a number only if all of its operands do, unless it solves a system. -/
def Contagious (t : Tree) (id : NodeId) : Prop :=
  (t.category id).isOperator → (t.node id).numeric →
    t.Solves id ∨ ∀ c ∈ t.children id, (t.node c).numeric

end Tree

/-- What an operator shows makes a number only out of numbers. -/
theorem Tree.Ruled.contagious {t : Tree} {id : NodeId} (h : t.Ruled id) : t.Contagious id := by
  intro operator numeric
  rcases h operator with ⟨s, o, rfl, shows⟩ | ⟨none, -⟩
  · have counts := Rule.select_counts shows.seeded (shows.category ▸ operator)
    rw [shows.answer] at counts
    refine (counts (shows.typing ▸ numeric)).imp (fun solves => ⟨?_, ?_⟩) fun numbers c mem => ?_
    · rw [shows.category]
      exact solves.1
    · obtain ⟨x, mem, shape⟩ := solves.2
      refine ⟨x.id, shows.ids ▸ List.mem_map_of_mem mem, ?_⟩
      rwa [show (t.node x.id).shape = x.shape from
        congrArg (fun typing => typing.datatype.shape) (shows.typing_operand mem)]
    · rw [← shows.ids] at mem
      obtain ⟨x, there, rfl⟩ := List.mem_map.mp mem
      exact (congrArg Typing.numeric (shows.typing_operand there)).trans (numbers x there)
  · exact absurd (none.symm.trans numeric) nofun

/-! ## Chains of operators -/

/-- Operators lead from `top` to a node, and none of them solves a system. -/
inductive Tree.Through (t : Tree) : NodeId → NodeId → Prop
  | here {id : NodeId} : Through t id id
  | step {top c id : NodeId} : (t.category top).isOperator → ¬t.Solves top → c ∈ t.children top →
      Through t c id → Through t top id

namespace Translator

/-- After a translation an operator that does not solve a system counts as a number only if
all its operands do, so what is no number does not become one through any chain of them. -/
theorem numeric_through {source : String} {t : Tree} (parsed : Tree.parse source = .ok t)
    (translator : Translator) :
    let after := (translator.translate t).2.1
    (∀ id, (after.category id).isOperator → ¬after.Solves id → (after.node id).numeric →
      ∀ c ∈ after.children id, (after.node c).numeric)
    ∧ ∀ top id, after.Through top id → (after.node id).numeric = false →
      (after.node top).numeric = false := by
  have law : ∀ id, (translator.translate t).2.1.Contagious id := fun id =>
    (ruled_translate parsed translator id).contagious
  generalize (translator.translate t).2.1 = after at law ⊢
  intro after
  have step : ∀ id, (after.category id).isOperator → ¬after.Solves id → (after.node id).numeric →
      ∀ c ∈ after.children id, (after.node c).numeric := fun id operator plain numeric =>
    (law id operator numeric).resolve_left plain
  refine ⟨step, fun top id chain => ?_⟩
  induction chain with
  | here => exact fun none => none
  | @step top c id operator plain mem _ ih =>
    intro none
    by_contra numeric
    have number := step top operator plain (by simpa using numeric) c mem
    exact absurd ((ih none).symm.trans number) nofun

/-- Truth values along an unknown axis are no number, and neither is what is made of them. -/
theorem numeric_through_any : ∃ t, Tree.parse "y = (any(A, k) + 1)' .* A\n" = .ok t ∧
    let after := ((⟨.ofConfig { declarations := ⟨[("A", ⟨.matrix, .float⟩)]⟩ }⟩ :
      Translator).translate t).2.1
    after.category 9 = .elMul ∧ after.category 1 = .get ∧ after.Through 9 1
      ∧ (after.node 1).numeric = false ∧ (after.node 9).datatype.isNumeric
      ∧ (after.node 9).numeric = false := by
  have parses : ∃ t, Tree.parse "y = (any(A, k) + 1)' .* A\n" = .ok t ∧
      let after := ((⟨.ofConfig { declarations := ⟨[("A", ⟨.matrix, .float⟩)]⟩ }⟩ :
        Translator).translate t).2.1
      after.category 9 = .elMul ∧ after.category 7 = .ctranspose ∧ after.category 6 = .paren
        ∧ after.category 5 = .add ∧ after.category 1 = .get
        ∧ 7 ∈ after.children 9 ∧ 6 ∈ after.children 7 ∧ 5 ∈ after.children 6 ∧ 1 ∈ after.children 5
        ∧ (after.node 1).numeric = false ∧ (after.node 9).datatype.isNumeric :=
    ⟨_, by cbv, by decide +kernel⟩
  obtain ⟨t, run, nine, seven, six, five, one, below9, below7, below6, below5, none, type⟩ := parses
  have plain : ∀ {after : Tree} {id : NodeId}, after.category id ≠ .rightDiv →
      after.category id ≠ .leftDiv → ¬after.Solves id := fun right left solves =>
    solves.1.elim right left
  have chain := Tree.Through.step (by rw [nine]; rfl) (plain (by rw [nine]; decide) (by rw [nine]; decide)) below9 <|
    .step (by rw [seven]; rfl) (plain (by rw [seven]; decide) (by rw [seven]; decide)) below7 <|
    .step (by rw [six]; rfl) (plain (by rw [six]; decide) (by rw [six]; decide)) below6 <|
    .step (by rw [five]; rfl) (plain (by rw [five]; decide) (by rw [five]; decide)) below5 .here
  exact ⟨t, run, nine, one, chain, none, type, (numeric_through run _).2 9 1 chain none⟩

/-- A division of such truth values by a matrix solves a system, and is a number. -/
theorem numeric_through_solve_not : ∃ t, Tree.parse "y = any(A, k) / B\n" = .ok t ∧
    let after := ((⟨.ofConfig { declarations := ⟨[("A", ⟨.matrix, .float⟩),
      ("B", ⟨.matrix, .float⟩)]⟩ }⟩ : Translator).translate t).2.1
    ¬∀ id, (after.category id).isOperator → (after.node id).numeric →
      ∀ c ∈ after.children id, (after.node c).numeric := by
  have parses : ∃ t, Tree.parse "y = any(A, k) / B\n" = .ok t ∧
      let after := ((⟨.ofConfig { declarations := ⟨[("A", ⟨.matrix, .float⟩),
        ("B", ⟨.matrix, .float⟩)]⟩ }⟩ : Translator).translate t).2.1
      after.category 5 = .rightDiv ∧ (after.node 5).numeric ∧ 1 ∈ after.children 5
        ∧ (after.node 1).numeric = false := ⟨_, by cbv, by decide +kernel⟩
  obtain ⟨t, run, division, numeric, operand, none⟩ := parses
  refine ⟨t, run, fun law => ?_⟩
  exact absurd (none.symm.trans (law 5 (by rw [division]; rfl) numeric 1 operand)) Bool.false_ne_true

end Translator

end MatrixScript
