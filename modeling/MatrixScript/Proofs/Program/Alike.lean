/-
# `Proofs.Program.Alike` — where C++ groups a scalar expression like the script

The text of an expression is put together as `Expr.part` says, and C++ reads it with a precedence
of its own.  Three things stand bare in the text that would have to be in parentheses: an equality
on the left of a relation, since scripts have all comparisons on one level; a product or quotient
that is the first divisor of left divisions, since it changes sides with the dividend; and what
starts with a minus behind a minus, since two of them are one token.  C++ groups every other
expression like the script does (`Expr.fits_part_iff`).
-/
import MatrixScript.Proofs.Program.Truths

namespace MatrixScript

open Cpp (Assembly Operator)
open Cpp.Assembly (whole parens call negated binary)
open Rule (ratio)

/-! ## First characters -/

namespace Cpp.Assembly

/-- Of names, numerals and what is put together from them: the text starts with a minus. -/
def leadsWithMinus : Assembly → Bool
  | negated _ => true
  | binary _ _ left _ => left.leadsWithMinus
  | _ => false

variable {e : Assembly}

theorem Scalar.head (h : e.Scalar) :
    ∃ c cs, e.spelled.toList = c :: cs ∧ c ≠ '+' ∧ (c = '-' ↔ e.leadsWithMinus) := by
  induction h with
  | @name x name =>
    obtain ⟨c, cs, letters, start, -⟩ := exists_cons_of_isName name
    rw [spelled]
    refine ⟨c, cs, letters, ?_, iff_of_false ?_ nofun⟩ <;> (rintro rfl; cases start)
  | @numeral s kind number real =>
    rw [spelled]
    cases letters : s.toList with
    | nil =>
      rw [letters] at number
      cases number
    | cons c cs =>
      rw [letters] at number
      have start := Token.numberAt?_head number
      refine ⟨c, cs, rfl, ?_, iff_of_false ?_ nofun⟩ <;> (rintro rfl; revert start; decide)
  | @parens e _ _ =>
    rw [spelled]
    exact ⟨'(', e.spelled.toList ++ [')'], by simp, by decide, iff_of_false (by decide) nofun⟩
  | @negated e _ _ =>
    rw [spelled]
    exact ⟨'-', e.spelled.toList, by simp, by decide, iff_of_true rfl rfl⟩
  | @power f items name _ _ =>
    rw [spelled, Cpp.call, name]
    exact ⟨'s', _, by simp only [String.append_assoc, String.toList_append]; rfl, by decide,
      iff_of_false (by decide) nofun⟩
  | @binary op spaced left right _ _ ih _ =>
    obtain ⟨c, cs, letters, plus, minus⟩ := ih
    cases spaced <;>
    · rw [spelled]
      simp only [String.append_assoc]
      rw [String.toList_append, letters]
      exact ⟨c, _, rfl, plus, minus⟩

/-- Of all operators only a minus becomes a longer one, and in front of a minus. -/
theorem Scalar.fusesWith_iff (h : e.Scalar) (op : Operator) :
    op.fusesWith e.spelled ↔ op = .sub ∧ e.leadsWithMinus := by
  obtain ⟨c, cs, letters, plus, minus⟩ := h.head
  have fuses : ∀ d : Char, Cpp.fuses d c ↔ d = '-' ∧ c = '-' := by
    intro d
    rw [Cpp.fuses]
    constructor
    · intro both
      obtain ⟨same, sign⟩ := (Bool.and_eq_true _ _).mp both
      obtain rfl := eq_of_beq same
      have sign : d = '+' ∨ d = '-' := by simpa using sign
      exact ⟨sign.resolve_left plus, sign.resolve_left plus⟩
    · rintro ⟨rfl, rfl⟩
      rfl
  have symbol : '-' ∈ op.symbol.toList ↔ op = .sub := by cases op <;> decide
  rw [Operator.fusesWith, letters, ← minus, ← symbol]
  simp [fuses]

end Cpp.Assembly

/-! ## Quotients -/

namespace Part

variable {q d : Part}

theorem fits_ratio {wide : Bool} {left right : Assembly} (hr : right.Scalar) :
    (ratio wide left right).Fits
      ↔ 7 ≤ left.level ∧ 7 < right.level ∧ left.Fits ∧ right.Fits := by
  have alone : ∀ op : Operator, op ≠ .sub → ∀ a : Assembly, a.Scalar → op.fusesWith a.spelled = false :=
    fun op other a scalar => Bool.eq_false_iff.mpr fun fuses => other ((scalar.fusesWith_iff op).mp fuses).1
  have one : (whole "1.0").Scalar := .float (by decide)
  have one_fits : (whole "1.0").Fits ∧ (whole "1.0").level = 9 := by decide
  have level : Operator.div.level = 7 ∧ Operator.mul.level = 7 := ⟨rfl, rfl⟩
  unfold ratio
  rw [Assembly.Fits, alone .div nofun right hr, level.1]
  cases wide with
  | false => simp
  | true =>
    have widened : (binary .mul false left (whole "1.0")).level = 7 := rfl
    rw [if_pos rfl, widened, Assembly.Fits, alone .mul nofun _ one, level.2, one_fits.2]
    simp only [one_fits.1, le_refl, implies_true, true_and, and_true, show 7 < 9 by decide]
    exact ⟨fun ⟨tight, ⟨low, fits⟩, fits'⟩ => ⟨low, tight, fits, fits'⟩,
      fun ⟨low, tight, fits, fits'⟩ => ⟨tight, ⟨low, fits⟩, fits'⟩⟩

/-- A quotient is read as one if its divisor is tighter than a product. -/
theorem fits_quotient (hd : d.Spelled) (front : 7 ≤ q.assembly.level) : (q.quotient d).Fits
    ↔ 7 < d.assembly.level ∧ q.assembly.Fits ∧ d.assembly.Fits := by
  unfold Part.quotient
  split
  case isTrue literal =>
    -- a literal is an operand, with and without the zero behind the point
    obtain ⟨s, eq, spells⟩ := hd.numeral literal
    have tenths := LiteralKind.spells_tenths spells
    have fits := Assembly.fits_numeral (eq_of_beq tenths) nofun
    have level := Assembly.level_numeral (eq_of_beq tenths) nofun
    have fits' := Assembly.fits_numeral (eq_of_beq spells) nofun
    have level' := Assembly.level_numeral (eq_of_beq spells) nofun
    rw [eq, Assembly.spelled, fits_ratio (.float tenths)]
    simp [front, fits, level, fits', level']
  case isFalse =>
    rw [fits_ratio hd.scalar]
    simp [front]

end Part

/-! ## Chains -/

/-- The text of two operands starts with a minus, where those of the operands do or not: a power
starts with the name of its function, and a left division with its dividend. -/
def ChainOp.leads (op : ChainOp) (first second : Bool) : Bool :=
  match op with
  | .pow | .elPow => false
  | .leftDiv | .elLeftDiv => second
  | _ => first

namespace ChainOp

variable {op : ChainOp} {q p : Part} {ps : List Part}

theorem level_step : (op.step q p).assembly.level = op.level := by
  have quotient : ∀ q p : Part, (q.quotient p).level = 7 := by
    intro q p
    unfold Part.quotient
    split <;> rfl
  show (op.scalars q p).level = _
  cases op with
  | rightDiv | elRightDiv => exact quotient q p
  | leftDiv | elLeftDiv => exact quotient p q
  | _ => rfl

theorem level_parts : (op.parts q p ps).assembly.level = op.level :=
  List.foldlRecOn ps _ (motive := fun q : Part => q.assembly.level = op.level) level_step
    fun _ _ _ _ => level_step

/-- One more operand, of which the last one is tight enough. -/
theorem fits_step (hq : q.Spelled) (hp : p.Spelled) (front : op.level ≤ 7 → op.level ≤ q.assembly.level)
    (behind : op.level ≤ 7 → op.level < p.assembly.level) : (op.step q p).assembly.Fits
      ↔ q.assembly.Fits ∧ p.assembly.Fits ∧ (op.isLeftDivision → 7 < q.assembly.level)
        ∧ (op = .sub → p.assembly.leadsWithMinus = false) := by
  have joined : ∀ o : Operator, op.scalars q p = binary o false q.assembly p.assembly → op.level ≤ 7 →
      o.level = op.level → op.isLeftDivision = false → (o = .sub ↔ op = .sub) →
      ((op.scalars q p).Fits ↔ q.assembly.Fits ∧ p.assembly.Fits
        ∧ (op.isLeftDivision → 7 < q.assembly.level)
        ∧ (op = .sub → p.assembly.leadsWithMinus = false)) := by
    intro o eq low level right minus
    have apart : o.fusesWith p.assembly.spelled = false
        ↔ (op = .sub → p.assembly.leadsWithMinus = false) := by
      rw [← Bool.not_eq_true, hp.scalar.fusesWith_iff, not_and, Bool.not_eq_true, minus]
    rw [eq, Assembly.Fits, level, apart, right]
    simp only [front low, behind low, true_and, forall_const, Bool.false_eq_true, false_imp_iff]
    exact and_comm.trans and_assoc
  show (op.scalars q p).Fits ↔ _
  cases op with
  | rightDiv | elRightDiv =>
    have tight : 7 < p.assembly.level := behind (by decide)
    rw [scalars, Part.fits_quotient hp (front (by decide))]
    simp [tight, isLeftDivision]
  | leftDiv | elLeftDiv =>
    have tight : 7 < p.assembly.level := behind (by decide)
    rw [scalars, Part.fits_quotient hq tight.le]
    simp only [isLeftDivision, forall_const, reduceCtorEq, false_imp_iff, and_true]
    constructor
    · rintro ⟨tight, fits', fits⟩
      exact ⟨fits, fits', tight⟩
    · rintro ⟨fits, fits', tight⟩
      exact ⟨tight, fits', fits⟩
  | pow | elPow =>
    rw [scalars, Assembly.Fits, Assembly.FitsAll, Assembly.FitsAll, Assembly.FitsAll]
    simp [isLeftDivision]
  | _ => exact joined _ rfl (by decide) rfl rfl (by decide)

/-- A chain is read like the script if its operands are, and the first divisor of left divisions
is tighter than a product, and behind a minus nothing starts with one. -/
theorem fits_parts (hq : q.Spelled) (hp : p.Spelled) (hps : ∀ x ∈ ps, x.Spelled)
    (front : op.level ≤ 7 → op.level ≤ q.assembly.level)
    (behind : op.level ≤ 7 → ∀ x ∈ p :: ps, op.level < x.assembly.level) :
    (op.parts q p ps).assembly.Fits
      ↔ (∀ x ∈ q :: p :: ps, x.assembly.Fits) ∧ (op.isLeftDivision → 7 < q.assembly.level)
        ∧ (op = .sub → ∀ x ∈ p :: ps, x.assembly.leadsWithMinus = false) := by
  -- the chain so far is on the level of the operator, or in parentheses
  have fold : ∀ (ps : List Part) (q : Part), (∀ x ∈ ps, x.Spelled) →
      (op.level ≤ 7 → ∀ x ∈ ps, op.level < x.assembly.level) → q.Spelled →
      q.assembly.level = op.level →
      ((ps.foldl (fun q p => op.step (op.divided q) p) q).assembly.Fits
        ↔ q.assembly.Fits ∧ (∀ x ∈ ps, x.assembly.Fits)
          ∧ (op = .sub → ∀ x ∈ ps, x.assembly.leadsWithMinus = false)) := by
    intro ps
    induction ps with
    | nil => simp
    | cons p ps ih =>
      intro q hps behind hq level
      obtain ⟨hp, hps⟩ := List.forall_mem_cons.mp hps
      have tight : (op.divided q).assembly.Fits ↔ q.assembly.Fits := by
        unfold divided
        split
        · rw [Part.enclosed, Assembly.Fits]
        · rfl
      have low : op.level ≤ (op.divided q).assembly.level
          ∧ (op.isLeftDivision → 7 < (op.divided q).assembly.level) := by
        unfold divided
        split
        case isTrue left => exact ⟨op.level_le, fun _ => (by decide : 7 < 9)⟩
        case isFalse other => exact ⟨level.ge, fun left => absurd left other⟩
      have here := fits_step (spelled_divided hq) hp (fun _ => low.1)
        fun le => behind le p List.mem_cons_self
      rw [and_iff_right_of_imp (fun _ => low.2), tight] at here
      rw [List.foldl_cons, ih _ hps (fun le x mem => behind le x (List.mem_cons_of_mem _ mem))
        (spelled_step (spelled_divided hq) hp) level_step, here]
      simp only [List.forall_mem_cons, imp_and]
      rw [and_assoc, and_and_and_comm]
  refine (fold ps _ hps (fun le x mem => behind le x (List.mem_cons_of_mem _ mem))
    (spelled_step hq hp) level_step).trans ?_
  rw [fits_step hq hp front fun le => behind le p List.mem_cons_self]
  simp only [List.forall_mem_cons, imp_and]
  constructor
  · rintro ⟨⟨a, b, left, c⟩, d, e⟩
    exact ⟨⟨a, b, d⟩, left, c, e⟩
  · rintro ⟨⟨a, b, d⟩, left, c, e⟩
    exact ⟨⟨a, b, left, c⟩, d, e⟩

theorem leadsWithMinus_step : (op.step q p).assembly.leadsWithMinus
    = op.leads q.assembly.leadsWithMinus p.assembly.leadsWithMinus := by
  have quotient : ∀ q p : Part, (q.quotient p).leadsWithMinus = q.assembly.leadsWithMinus := by
    intro q p
    have widened : ∀ wide (left right : Assembly),
        (Rule.ratio wide left right).leadsWithMinus = left.leadsWithMinus := by
      intro wide left right
      cases wide <;> rfl
    unfold Part.quotient
    split <;> exact widened _ _ _
  show (op.scalars q p).leadsWithMinus = _
  cases op with
  | rightDiv | elRightDiv => exact quotient q p
  | leftDiv | elLeftDiv => exact quotient p q
  | _ => rfl

theorem leadsWithMinus_parts : (op.parts q p ps).assembly.leadsWithMinus
    = ps.foldl (fun leads x => op.leads leads x.assembly.leadsWithMinus)
      (op.leads q.assembly.leadsWithMinus p.assembly.leadsWithMinus) := by
  have next : ∀ q p : Part, (op.step (op.divided q) p).assembly.leadsWithMinus
      = op.leads q.assembly.leadsWithMinus p.assembly.leadsWithMinus := by
    intro q p
    rw [leadsWithMinus_step]
    cases op <;> rfl
  have fold : ∀ (ps : List Part) (q : Part),
      (ps.foldl (fun q p => op.step (op.divided q) p) q).assembly.leadsWithMinus
        = ps.foldl (fun leads x => op.leads leads x.assembly.leadsWithMinus) q.assembly.leadsWithMinus := by
    intro ps
    induction ps with
    | nil => exact fun _ => rfl
    | cons p ps ih => exact fun q => by rw [List.foldl_cons, List.foldl_cons, ih, next]
  exact (fold ps _).trans (by rw [leadsWithMinus_step])

end ChainOp

/-! ## Expressions -/

namespace Expr

mutual

/-- The text starts with a minus. -/
@[simp] def leadsWithMinus : Expr → Bool
  | .sign .neg _ => true
  | .chain op first second more =>
      leadsAfter op (op.leads first.leadsWithMinus second.leadsWithMinus) more
  | .compare _ left _ => left.leadsWithMinus
  | _ => false

/-- So does the text of a chain, where that of the operands so far does or not. -/
@[simp] def leadsAfter (op : ChainOp) (leads : Bool) : List Expr → Bool
  | [] => leads
  | e :: es => leadsAfter op (op.leads leads e.leadsWithMinus) es

end

/-- What stands outermost needs no parentheses that are not there: no equality stands on the left
of a relation, no product or quotient is the first divisor of left divisions, and behind a minus
nothing starts with a minus. -/
def Agrees : Expr → Prop
  | .compare op left _ => op.isRelational → left.isEquality = false
  | .chain op first second more => (op.isLeftDivision → 7 < first.level)
      ∧ (op = .sub → ∀ x ∈ second :: more, x.leadsWithMinus = false)
  | _ => True

/-- Nothing in the expression needs such parentheses. -/
inductive Alike : Expr → Prop
  | intro {e : Expr} : (∀ x ∈ e.operands, Alike x) → e.Agrees → Alike e

theorem leadsAfter_eq (op : ChainOp) (leads : Bool) (es : List Expr) :
    leadsAfter op leads es = es.foldl (fun leads e => op.leads leads e.leadsWithMinus) leads := by
  induction es generalizing leads with
  | nil => rfl
  | cons e es ih => exact ih _

theorem alike_iff {e : Expr} : e.Alike ↔ (∀ x ∈ e.operands, x.Alike) ∧ e.Agrees :=
  ⟨fun ⟨below, here⟩ => ⟨below, here⟩, fun ⟨below, here⟩ => .intro below here⟩

@[simp] theorem alike_name (x : String) : (name x).Alike := .intro nofun trivial

@[simp] theorem alike_literal (kind : LiteralKind) (s : String) : (literal kind s).Alike :=
  .intro nofun trivial

@[simp] theorem alike_paren {e : Expr} : (paren e).Alike ↔ e.Alike :=
  alike_iff.trans (by simp [operands, Agrees])

@[simp] theorem alike_sign {op : SignOp} {e : Expr} : (sign op e).Alike ↔ e.Alike :=
  alike_iff.trans (by simp [operands, Agrees])

@[simp] theorem alike_compare {op : Comparison} {left right : Expr} : (compare op left right).Alike
    ↔ left.Alike ∧ right.Alike ∧ (op.isRelational → left.isEquality = false) :=
  alike_iff.trans (by simp [operands, Agrees, and_assoc])

@[simp] theorem alike_chain {op : ChainOp} {first second : Expr} {more : List Expr} :
    (chain op first second more).Alike ↔ (∀ x ∈ first :: second :: more, x.Alike)
      ∧ (op.isLeftDivision → 7 < first.level)
      ∧ (op = .sub → ∀ x ∈ second :: more, x.leadsWithMinus = false) := alike_iff

variable {declarations : NameTable Datatype} {e : Expr}

theorem leadsWithMinus_part (h : e.Truthful declarations) :
    (e.part declarations).assembly.leadsWithMinus = e.leadsWithMinus := by
  induction h with
  | name | int | float | paren =>
    rw [part, leadsWithMinus]
    · rfl
    all_goals nofun
  | @sign op =>
    cases op with
    | neg =>
      rw [part, leadsWithMinus]
      rfl
    | not =>
      rw [part, leadsWithMinus]
      · rfl
      all_goals nofun
  | compare _ _ ih _ =>
    rw [part, leadsWithMinus]
    exact ih
  | @chain op first second more _ ih =>
    obtain ⟨here, others⟩ := List.forall_mem_cons.mp ih
    obtain ⟨next, rest⟩ := List.forall_mem_cons.mp others
    rw [part_chain, ChainOp.leadsWithMinus_parts, leadsWithMinus, leadsAfter_eq, here, next, List.foldl_map]
    exact List.foldl_ext _ _ _ fun leads x mem => by rw [rest x mem]

/-! ### Levels -/

/-- There are no ranges. -/
theorem Truthful.level_ne (h : e.Truthful declarations) : e.level ≠ 5 := by
  cases h with
  | @chain op =>
    show op.level ≠ 5
    cases op <;> decide
  | _ => nofun

/-- Names and numerals are operands. -/
theorem fits_leaf (h : e.Truthful declarations) (canonical : e.Canonical) (leaf : e.operands = []) :
    (e.part declarations).assembly.Fits ∧ (e.part declarations).assembly.level = 9 := by
  cases h with
  | name =>
    cases canonical with
    | name name =>
      rw [part]
      exact ⟨Assembly.fits_name name, Assembly.level_name name⟩
  | int | float =>
    cases canonical with
    | literal spells =>
      rw [part]
      exact ⟨Assembly.fits_numeral (eq_of_beq spells) nofun, Assembly.level_numeral (eq_of_beq spells) nofun⟩
  | paren | sign | chain | compare => cases leaf

/-- In C++ nothing is looser than in the script. -/
theorem level_part (h : e.Truthful declarations) (canonical : e.Canonical) :
    min e.level 9 ≤ (e.part declarations).assembly.level := by
  cases h with
  | name free declared real =>
    rw [(fits_leaf (.name free declared real) canonical rfl).2]
    exact Nat.min_le_right _ _
  | int =>
    rw [(fits_leaf .int canonical rfl).2]
    exact Nat.min_le_right _ _
  | float =>
    rw [(fits_leaf .float canonical rfl).2]
    exact Nat.min_le_right _ _
  | paren =>
    rw [part]
    exact Nat.min_le_right _ _
  | @sign op =>
    cases op with
    | neg => rw [part]; exact Nat.min_le_left _ _
    | not => rw [part]; exact Nat.min_le_right _ _
  | chain =>
    rw [part_chain, ChainOp.level_parts]
    exact Nat.min_le_left _ _
  | @compare op =>
    rw [part]
    show 4 ≤ op.operator.level
    cases op <;> decide

/-- Of the expressions on the left of a comparison, an equality is too loose for a relation. -/
theorem five_le_level_part_iff (h : e.Truthful declarations) (canonical : e.Canonical)
    (tight : 4 ≤ e.level) : 5 ≤ (e.part declarations).assembly.level ↔ e.isEquality = false := by
  have le := level_part h canonical
  by_cases level : e.level = 4
  case neg =>
    have other : e.isEquality = false := by
      cases h <;> first | rfl | exact absurd rfl level
    exact iff_of_true (by omega) other
  case pos =>
    cases h with
    | @compare op =>
      rw [part]
      show 5 ≤ op.operator.level ↔ (!op.isRelational) = false
      cases op <;> decide
    | @chain op =>
      change op.level = 4 at level
      cases op <;> cases level
    | _ => cases level

/-- Of the operands of left divisions, a product or quotient is too loose for a divisor. -/
theorem seven_lt_level_part_iff (h : e.Truthful declarations) (canonical : e.Canonical)
    (tight : 7 ≤ e.level) : 7 < (e.part declarations).assembly.level ↔ 7 < e.level := by
  have le := level_part h canonical
  by_cases level : e.level = 7
  case neg => exact iff_of_true (by omega) (by omega)
  case pos =>
    cases h with
    | chain =>
      rw [part_chain, ChainOp.level_parts]
      rfl
    | _ => cases level

/-! ### Where parts fit -/

theorem fits_part_chain {op : ChainOp} {first second : Expr} {more : List Expr}
    (all : ∀ x ∈ first :: second :: more, x.Truthful declarations)
    (canonical : ∀ x ∈ first :: second :: more, x.Canonical) (low : op.level ≤ first.level)
    (takes : ∀ x ∈ second :: more, op.Takes x)
    (below : ∀ x ∈ first :: second :: more, (x.part declarations).assembly.Fits ↔ x.Alike) :
    ((Expr.chain op first second more).part declarations).assembly.Fits
      ↔ (Expr.chain op first second more).Alike := by
  obtain ⟨here, others⟩ := List.forall_mem_cons.mp fun x mem => spelled_part (all x mem) (canonical x mem)
  obtain ⟨next, rest⟩ := List.forall_mem_cons.mp others
  obtain ⟨kept, kept'⟩ := List.forall_mem_cons.mp fun x mem => level_part (all x mem) (canonical x mem)
  have front : op.level ≤ 7 → op.level ≤ (first.part declarations).assembly.level := by omega
  have behind : op.level ≤ 7 → ∀ x ∈ second :: more, op.level < (x.part declarations).assembly.level := by
    intro le x mem
    have kept := kept' x mem
    have tight := takes x mem
    rw [ChainOp.Takes, if_neg (by omega)] at tight
    omega
  have divisor : op.isLeftDivision → (7 < (first.part declarations).assembly.level ↔ 7 < first.level) := by
    intro left
    have level : op.level = 7 := by cases op <;> first | rfl | cases left
    exact seven_lt_level_part_iff (all first List.mem_cons_self) (canonical first List.mem_cons_self)
      (level ▸ low)
  have minus : ∀ x ∈ second :: more, (x.part declarations).assembly.leadsWithMinus = x.leadsWithMinus :=
    fun x mem => leadsWithMinus_part (all x (List.mem_cons_of_mem _ mem))
  have parts : (op.parts _ _ _).assembly.Fits ↔ _ := ChainOp.fits_parts here next
    (List.forall_mem_map.mpr rest) front (by rwa [← List.map_cons, List.forall_mem_map])
  rw [part_chain, parts, ← List.map_cons, ← List.map_cons, List.forall_mem_map, List.forall_mem_map,
    alike_chain]
  refine and_congr (forall₂_congr below)
    (and_congr (forall_congr' divisor) (forall_congr' fun _ => forall₂_congr fun x mem => ?_))
  rw [minus x mem]

/-- C++ reads the text as it is put together exactly if nothing in it needs more parentheses. -/
theorem fits_part_iff (h : e.Truthful declarations) (canonical : e.Canonical) :
    (e.part declarations).assembly.Fits ↔ e.Alike := by
  induction h with
  | name free declared real =>
    exact iff_of_true (fits_leaf (.name free declared real) canonical rfl).1 (alike_name _)
  | int => exact iff_of_true (fits_leaf .int canonical rfl).1 (alike_literal _ _)
  | float => exact iff_of_true (fits_leaf .float canonical rfl).1 (alike_literal _ _)
  | paren _ ih =>
    cases canonical with
    | paren inner =>
      rw [part, Part.enclosed, Assembly.Fits, ih inner, alike_paren]
  | @sign op e inner ih =>
    cases canonical with
    | sign within tight =>
      have scalar := (spelled_part inner within).scalar
      rw [alike_sign, ← ih within]
      cases op with
      | neg =>
        have apart : ¬Operator.sub.fusesWith (parens (e.part declarations).assembly).spelled := fun fuses =>
          Bool.false_ne_true ((scalar.parens.fusesWith_iff _).mp fuses).2
        rw [part, Assembly.Fits, Assembly.Fits]
        simp [apart, Assembly.level]
      | not =>
        have low := level_part inner within
        have front : 4 ≤ (e.part declarations).assembly.level := by omega
        have zero : (whole "0").Fits ∧ 4 < (whole "0").level := by decide
        rw [part, Assembly.Fits, Assembly.Fits]
        simp [Operator.level, front, zero]
  | @compare op left right hl hr ihl ihr =>
    cases canonical with
    | compare start low stop high =>
      have front := level_part hl start
      have behind := level_part hr stop
      have ne := hr.level_ne
      rw [part, Comparison.fits_iff (by omega) (five_le_level_part_iff hl start low) (by omega),
        ihl start, ihr stop, alike_compare]
  | @chain op first second more all ih =>
    cases canonical with
    | chain start low _ operands takes =>
      have canonicals : ∀ x ∈ first :: second :: more, x.Canonical :=
        List.forall_mem_cons.mpr ⟨start, operands⟩
      exact fits_part_chain all canonicals low takes fun x mem => ih x mem (canonicals x mem)

end Expr

end MatrixScript
