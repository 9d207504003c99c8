/-
# `Proofs.Program.Logical` — sums, comparisons and logic as operator trees

Both languages have these operators, but not the same precedence: in scripts all comparisons
are on one level, and C++ has `==` and `!=` on a looser one.  `Expr.assembly` is the operator
tree of the script, with chains read from left to right.  In C++ its text is read as that tree
exactly if no equality stands bare on the left of `<`, `<=`, `>` or `>=`
(`Expr.fits_assembly_iff`); every other pair of levels has the same order in both languages.
-/
import MatrixScript.Proofs.Cpp.Name
import MatrixScript.Proofs.Rule.Joined
import MatrixScript.Proofs.Tree.Bears

namespace MatrixScript

open Cpp (Assembly Operator)
open Cpp.Assembly (whole parens)

/-- The operator of C++ that is written for one of the script, whatever the operands are. -/
def ChainOp.operator? : ChainOp → Option Operator
  | .mul => some .mul
  | op => Rule.operator? op.category

/-- The operator of C++ that is written for a comparison. -/
def Comparison.operator : Comparison → Operator
  | .eq => .eq
  | .ne => .ne
  | .lt => .lt
  | .le => .le
  | .gt => .gt
  | .ge => .ge

/-- `<`, `<=`, `>` or `>=` -/
def Comparison.isRelational : Comparison → Bool
  | .eq | .ne => false
  | _ => true

theorem ChainOp.level_operator {op : ChainOp} {o : Operator} (h : op.operator? = some o) :
    o.level = op.level ∧ op.level < 8 ∧ op.level ≠ 4 ∧ op.level ≠ 5 := by
  cases op <;> cases h <;> decide

/-- A comparison of what is tighter in the script is read as one, unless it is a relation and an
equality stands on its left. -/
theorem Comparison.fits_iff {op : Comparison} {left right : Assembly} {equality : Bool}
    (front : 4 ≤ left.level) (relation : 5 ≤ left.level ↔ equality = false) (behind : 5 < right.level) :
    (Assembly.binary op.operator false left right).Fits
      ↔ left.Fits ∧ right.Fits ∧ (op.isRelational → equality = false) := by
  have level : op.operator.level = if op.isRelational then 5 else 4 := by cases op <;> rfl
  have left_iff : op.operator.level ≤ left.level ↔ (op.isRelational → equality = false) := by
    rw [level, ← relation]
    cases op.isRelational with
    | true => simp
    | false => simp [front]
  have right_lt : op.operator.level < right.level := by
    rw [level]
    split <;> omega
  have apart : op.operator.fusesWith right.spelled = false :=
    Operator.fusesWith_eq_false (by cases op <;> decide) (by cases op <;> decide) _
  rw [Assembly.Fits, left_iff]
  constructor
  · rintro ⟨bare, -, -, fits, fits'⟩
    exact ⟨fits, fits', bare⟩
  · rintro ⟨fits, fits', bare⟩
    exact ⟨bare, right_lt, fun _ => apart, fits, fits'⟩

namespace Expr

/-- Variables with parentheses, sums, products `*`, comparisons and logical operators. -/
inductive Logical : Expr → Prop
  | name {x : String} : Builtin.isReserved x = false → Logical (.name x)
  | paren {e : Expr} : Logical e → Logical (.paren e)
  | chain {op : ChainOp} {first second : Expr} {more : List Expr} : op.operator?.isSome →
      (∀ e ∈ first :: second :: more, Logical e) → Logical (.chain op first second more)
  | compare {op : Comparison} {left right : Expr} : Logical left → Logical right →
      Logical (.compare op left right)

mutual

/-- The operator tree, where chains are read from left to right; blank for other expressions. -/
def assembly : Expr → Assembly
  | .name x => whole x
  | .paren e => parens e.assembly
  | .chain op first second more =>
      match op.operator? with
      | some o => .chain o first.assembly (second.assembly :: assemblies more)
      | none => whole ""
  | .compare op left right => .binary op.operator false left.assembly right.assembly
  | _ => whole ""

/-- Operator trees of several expressions. -/
def assemblies : List Expr → List Assembly
  | [] => []
  | e :: es => e.assembly :: assemblies es

end

/-- `==` or `~=` is outermost. -/
def isEquality : Expr → Bool
  | .compare op _ _ => !op.isRelational
  | _ => false

/-- Nowhere does `<`, `<=`, `>` or `>=` have a bare equality on its left. -/
inductive EqualitiesEnclosed : Expr → Prop
  | intro {e : Expr} : (∀ x ∈ e.operands, EqualitiesEnclosed x) →
      (∀ op left right, e = .compare op left right → op.isRelational → left.isEquality = false) →
      EqualitiesEnclosed e

/-! ## Operator trees -/

theorem assemblies_eq (es : List Expr) : assemblies es = es.map assembly := by
  induction es with
  | nil => rfl
  | cons e es ih => exact congrArg (e.assembly :: ·) ih

theorem assembly_name (x : String) : (name x).assembly = whole x := rfl

theorem assembly_paren (e : Expr) : (paren e).assembly = parens e.assembly := rfl

theorem assembly_compare (op : Comparison) (left right : Expr) :
    (compare op left right).assembly = .binary op.operator false left.assembly right.assembly := rfl

theorem assembly_chain {op : ChainOp} {o : Operator} (operator : op.operator? = some o)
    (first second : Expr) (more : List Expr) :
    (Expr.chain op first second more).assembly
      = .chain o first.assembly ((second :: more).map assembly) := by
  show (match op.operator? with
    | some o => Assembly.chain o first.assembly (second.assembly :: assemblies more)
    | none => whole "") = _
  rw [operator, assemblies_eq]
  rfl

@[simp] theorem equalitiesEnclosed_name (x : String) : (name x).EqualitiesEnclosed :=
  .intro nofun nofun

@[simp] theorem equalitiesEnclosed_paren {e : Expr} :
    (paren e).EqualitiesEnclosed ↔ e.EqualitiesEnclosed := by
  constructor
  · rintro ⟨below, -⟩
    exact below e List.mem_cons_self
  · exact fun enclosed => .intro (List.forall_mem_singleton.mpr enclosed) nofun

@[simp] theorem equalitiesEnclosed_chain {op : ChainOp} {first second : Expr} {more : List Expr} :
    (chain op first second more).EqualitiesEnclosed
      ↔ ∀ x ∈ first :: second :: more, x.EqualitiesEnclosed := by
  constructor
  · rintro ⟨below, -⟩
    exact below
  · exact fun enclosed => .intro enclosed nofun

@[simp] theorem equalitiesEnclosed_compare {op : Comparison} {left right : Expr} :
    (compare op left right).EqualitiesEnclosed ↔ left.EqualitiesEnclosed
      ∧ right.EqualitiesEnclosed ∧ (op.isRelational → left.isEquality = false) := by
  constructor
  · rintro ⟨below, bare⟩
    obtain ⟨enclosed, enclosed'⟩ := List.forall_mem_cons.mp below
    exact ⟨enclosed, List.forall_mem_singleton.mp enclosed', bare op left right rfl⟩
  · rintro ⟨enclosed, enclosed', bare⟩
    refine .intro (List.forall_mem_cons.mpr ⟨enclosed, List.forall_mem_singleton.mpr enclosed'⟩) ?_
    intro _ _ _ same
    cases same
    exact bare

theorem Logical.operands {e x : Expr} (h : e.Logical) (mem : x ∈ e.operands) : x.Logical := by
  cases h with
  | name => cases mem
  | paren inner => exact List.mem_singleton.mp mem ▸ inner
  | chain _ all => exact all x mem
  | compare left right =>
    rcases List.mem_cons.mp mem with rfl | mem
    · exact left
    · exact List.mem_singleton.mp mem ▸ right

theorem Logical.formula {e : Expr} (h : e.Logical) : e.Formula := by
  induction h with
  | name => exact .name _
  | paren _ ih => exact .operator rfl (List.forall_mem_singleton.mpr ih)
  | @chain op _ _ _ _ _ ih =>
    exact .operator (Category.isOperator_of_isChained op.isChained_category) ih
  | @compare op _ _ _ _ ih ih' =>
    exact .operator (by cases op <;> rfl)
      (List.forall_mem_cons.mpr ⟨ih, List.forall_mem_singleton.mpr ih'⟩)

/-! ## First characters -/

/-- The text starts with a letter or with a parenthesis. -/
theorem head_spelled {e : Expr} (h : e.Logical) (canonical : e.Canonical) :
    ∃ c cs, e.assembly.spelled.toList = c :: cs ∧ (Token.isWordStart c ∨ c = '(') := by
  induction h with
  | @name x _ =>
    cases canonical with
    | name name =>
      obtain ⟨c, cs, letters, start, -⟩ := Cpp.exists_cons_of_isName name
      rw [assembly_name, Assembly.spelled]
      exact ⟨c, cs, letters, .inl start⟩
  | @paren e _ _ =>
    rw [assembly_paren, Assembly.spelled]
    exact ⟨'(', e.assembly.spelled.toList ++ [')'], by simp, .inr rfl⟩
  | @chain op first second more known _ ih =>
    cases canonical with
    | chain start _ _ _ _ =>
      obtain ⟨o, operator⟩ := Option.isSome_iff_exists.mp known
      obtain ⟨c, cs, letters, head⟩ := ih first List.mem_cons_self start
      rw [assembly_chain operator, Assembly.spelled_chain, List.map_cons, List.map_cons,
        Text.joined_cons, String.append_assoc, String.toList_append, letters]
      exact ⟨c, _, rfl, head⟩
  | @compare op left right _ _ ih _ =>
    cases canonical with
    | compare start _ _ _ =>
      obtain ⟨c, cs, letters, head⟩ := ih start
      rw [assembly_compare, Assembly.spelled, String.append_assoc, String.toList_append, letters]
      exact ⟨c, _, rfl, head⟩

/-- So no operator in front of it becomes longer. -/
theorem fusesWith_spelled {e : Expr} (h : e.Logical) (canonical : e.Canonical) (op : Operator) :
    op.fusesWith e.assembly.spelled = false := by
  obtain ⟨c, cs, letters, head⟩ := head_spelled h canonical
  have other : c ≠ '+' ∧ c ≠ '-' := by
    rcases head with start | rfl
    · constructor <;> (rintro rfl; cases start)
    · decide
  have apart : ∀ d : Char, Cpp.fuses d c = false := by
    intro d
    rw [Cpp.fuses, Bool.and_eq_false_imp]
    intro eq
    obtain rfl := eq_of_beq eq
    simp [other]
  simp [Operator.fusesWith, letters, apart]

/-! ## Levels -/

theorem level_ne {e : Expr} (h : e.Logical) : e.level ≠ 5 := by
  cases h with
  | @chain op _ _ _ known _ =>
    obtain ⟨o, operator⟩ := Option.isSome_iff_exists.mp known
    exact (ChainOp.level_operator operator).2.2.2
  | _ => nofun

/-- In C++ nothing is looser than in the script. -/
theorem level_le_assembly {e : Expr} (h : e.Logical) (canonical : e.Canonical) :
    min e.level 9 ≤ e.assembly.level := by
  cases h with
  | @name x _ =>
    cases canonical with
    | name name =>
      rw [assembly_name, Assembly.level_name name]
      exact Nat.min_le_right _ _
  | paren => exact Nat.min_le_right _ _
  | @chain op first second more known _ =>
    obtain ⟨o, operator⟩ := Option.isSome_iff_exists.mp known
    rw [assembly_chain operator, Assembly.level_chain, if_neg (by simp), (ChainOp.level_operator operator).1]
    exact Nat.min_le_left _ _
  | @compare op left right _ _ =>
    show 4 ≤ op.operator.level
    cases op <;> decide

/-- Of the expressions on the left of a comparison, an equality is too loose for a relation. -/
theorem level_assembly_iff {e : Expr} (h : e.Logical) (canonical : e.Canonical) (tight : 4 ≤ e.level) :
    5 ≤ e.assembly.level ↔ e.isEquality = false := by
  have le := level_le_assembly h canonical
  cases h with
  | @compare op left right _ _ =>
    show 5 ≤ op.operator.level ↔ (!op.isRelational) = false
    cases op <;> decide
  | @chain op _ _ _ known _ =>
    obtain ⟨o, operator⟩ := Option.isSome_iff_exists.mp known
    obtain ⟨-, -, ne, ne'⟩ := ChainOp.level_operator operator
    refine iff_of_true ?_ rfl
    change 4 ≤ op.level at tight
    change min op.level 9 ≤ _ at le
    omega
  | name | paren =>
    refine iff_of_true ?_ rfl
    simp only [Expr.level] at le
    omega

/-! ## Where operator trees fit -/

/-- A text is read as its operator tree exactly if relations have no bare equality on their left. -/
theorem fits_assembly_iff {e : Expr} (h : e.Logical) (canonical : e.Canonical) :
    e.assembly.Fits ↔ e.EqualitiesEnclosed := by
  induction h with
  | @name x _ =>
    cases canonical with
    | name name =>
      rw [assembly_name]
      exact iff_of_true (Assembly.fits_name name) (equalitiesEnclosed_name x)
  | @paren e inner ih =>
    cases canonical with
    | paren within =>
      rw [assembly_paren, Assembly.Fits, ih within, equalitiesEnclosed_paren]
  | @chain op first second more known all ih =>
    cases canonical with
    | chain start low _ operands takes =>
      obtain ⟨o, operator⟩ := Option.isSome_iff_exists.mp known
      obtain ⟨same, lt, -, -⟩ := ChainOp.level_operator operator
      obtain ⟨logical, others⟩ := List.forall_mem_cons.mp all
      have front : o.level ≤ first.assembly.level := by
        have le := level_le_assembly logical start
        omega
      have behind : ∀ x ∈ second :: more, o.level < x.assembly.level := by
        intro x mem
        have le := level_le_assembly (others x mem) (operands x mem)
        have tight := takes x mem
        rw [ChainOp.Takes, if_neg (by omega)] at tight
        omega
      have rest : ∀ x ∈ second :: more, x.assembly.Fits ↔ x.EqualitiesEnclosed := fun x mem =>
        ih x (List.mem_cons_of_mem _ mem) (operands x mem)
      rw [assembly_chain operator, Assembly.fits_chain, ih first List.mem_cons_self start,
        equalitiesEnclosed_chain]
      constructor
      · rintro ⟨-, enclosed, others'⟩
        exact List.forall_mem_cons.mpr ⟨enclosed, fun x mem =>
          (rest x mem).mp (others' _ (List.mem_map_of_mem mem)).2.2⟩
      · intro enclosed
        obtain ⟨enclosed, enclosed'⟩ := List.forall_mem_cons.mp enclosed
        refine ⟨fun _ => front, enclosed, List.forall_mem_map.mpr fun x mem => ?_⟩
        exact ⟨behind x mem, fusesWith_spelled (others x mem) (operands x mem) o,
          (rest x mem).mpr (enclosed' x mem)⟩
  | @compare op left right hl hr ihl ihr =>
    cases canonical with
    | compare start low stop high =>
      have front := level_le_assembly hl start
      have behind := level_le_assembly hr stop
      have ne := level_ne hr
      rw [assembly_compare, Comparison.fits_iff (by omega) (level_assembly_iff hl start low) (by omega),
        ihl start, ihr stop, equalitiesEnclosed_compare]

end Expr

end MatrixScript
