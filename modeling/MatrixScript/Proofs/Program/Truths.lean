/-
# `Proofs.Program.Truths` — scalar expressions with truth values, as they are emitted

Comparisons, logical operators and negations of real scalars are inferred to be of the class of
their operands.  C++ has truth values there, which are integers.  A division looks at the inferred
classes to see whether it has to widen its operands; so a truth value of floating-point numbers
passes for one of them, and its quotient by an integer is cut.

`Expr.part` is how such an expression is put together.  Some quotient in it is cut exactly if
somewhere the first two operands of a division are integers in C++, one of them is inferred to be
of floating point, and the divisor is no integer literal (`Expr.part_iff`).  That does
not happen if all truth values are about integers (`Expr.keepsFractions_of_truthsOfIntegers`).
-/
import MatrixScript.Proofs.Cpp.Truncation
import MatrixScript.Proofs.Program.Scalar
import MatrixScript.Proofs.Program.Logical

namespace MatrixScript

open Cpp (Assembly Operator Callee)
open Cpp.Assembly (whole parens call negated binary)
open Rule (ratio)

/-! ## How scalars are put together -/

/-- How a scalar is put together, its inferred class, and whether it is an integer literal. -/
structure Part where
  assembly : Assembly
  cls : StorageClass
  literal : Bool

theorem isCallee_pow : Cpp.isCallee "std::pow" := by decide

/-- The power function of scalars. -/
def scalarPower : Callee := ⟨"std::pow", isCallee_pow⟩

namespace Part

def datatype (q : Part) : Datatype := .scalar q.cls

/-- In parentheses. -/
def enclosed (q : Part) : Part := ⟨parens q.assembly, q.cls, false⟩

/-- The quotient by a divisor: an integer literal is made a numeral of floating point, and a
factor `1.0` is put behind the dividend if both classes are integral. -/
def quotient (q divisor : Part) : Assembly :=
  if divisor.literal then ratio false q.assembly (whole (divisor.assembly.spelled ++ ".0"))
  else ratio (q.cls.isIntegral && divisor.cls.isIntegral) q.assembly divisor.assembly

end Part

namespace ChainOp

/-- The four divisions. -/
def isDivision : ChainOp → Bool
  | .rightDiv | .leftDiv | .elRightDiv | .elLeftDiv => true
  | _ => false

/-- C++ has a floating-point number there, where `some` says that an operand is one.  A quotient
is taken for one. -/
def isFloating (op : ChainOp) (some : Bool) : Bool :=
  match op with
  | .add | .sub | .mul | .elMul => some
  | .andAnd | .and | .orOr | .or => false
  | .rightDiv | .leftDiv | .elRightDiv | .elLeftDiv | .pow | .elPow => true

/-- How one more scalar is put behind those so far. -/
def scalars (op : ChainOp) (q p : Part) : Assembly :=
  match op with
  | .mul | .elMul => binary .mul false q.assembly p.assembly
  | .rightDiv | .elRightDiv => q.quotient p
  | .leftDiv | .elLeftDiv => p.quotient q
  | .pow | .elPow => call scalarPower [q.assembly, p.assembly]
  | .add => binary .add false q.assembly p.assembly
  | .sub => binary .sub false q.assembly p.assembly
  | .andAnd => binary .andAnd false q.assembly p.assembly
  | .and => binary .and false q.assembly p.assembly
  | .orOr => binary .orOr false q.assembly p.assembly
  | .or => binary .or false q.assembly p.assembly

/-- One more scalar behind those so far. -/
def step (op : ChainOp) (q p : Part) : Part :=
  ⟨op.scalars q p, (op.category.ofTwo q.datatype p.datatype).cls, false⟩

/-- The next numerator of a left division is divided by the whole quotient so far. -/
def divided (op : ChainOp) (q : Part) : Part := if op.isLeftDivision then q.enclosed else q

/-- Operands of a chain. -/
def parts (op : ChainOp) (first second : Part) (more : List Part) : Part :=
  more.foldl (fun q p => op.step (op.divided q) p) (op.step first second)

end ChainOp

namespace Expr

/-- Numerals and variables of real scalars, with parentheses, signs, comparisons and chains. -/
inductive Truthful (declarations : NameTable Datatype) : Expr → Prop
  | name {x : String} {c : StorageClass} : Builtin.isReserved x = false →
      declarations.get? x = some (.scalar c) → c.isReal → Truthful declarations (.name x)
  | int {s : String} : Truthful declarations (.literal .int s)
  | float {s : String} : Truthful declarations (.literal .float s)
  | paren {e : Expr} : Truthful declarations e → Truthful declarations (.paren e)
  | sign {op : SignOp} {e : Expr} : Truthful declarations e → Truthful declarations (.sign op e)
  | chain {op : ChainOp} {first second : Expr} {more : List Expr} :
      (∀ e ∈ first :: second :: more, Truthful declarations e) →
      Truthful declarations (.chain op first second more)
  | compare {op : Comparison} {left right : Expr} : Truthful declarations left →
      Truthful declarations right → Truthful declarations (.compare op left right)

mutual

/-- How such an expression is put together; blank for other expressions. -/
@[simp] def part (declarations : NameTable Datatype) : Expr → Part
  | .name x => ⟨whole x, ((declarations.get? x).map Datatype.cls).getD .unresolved, false⟩
  | .literal .int s => ⟨whole s, .int, true⟩
  | .literal .float s => ⟨whole s, .float, false⟩
  | .paren e => (e.part declarations).enclosed
  | .sign .neg e => ⟨negated (parens (e.part declarations).assembly), (e.part declarations).cls, false⟩
  | .sign .not e =>
      ⟨parens (Assembly.binary .eq true (e.part declarations).assembly (whole "0")),
        (e.part declarations).cls, false⟩
  | .chain op first second more =>
      op.parts (first.part declarations) (second.part declarations) (partsOf declarations more)
  | .compare op left right =>
      ⟨Assembly.binary op.operator false (left.part declarations).assembly
          (right.part declarations).assembly,
        max (left.part declarations).cls (right.part declarations).cls, false⟩
  | _ => ⟨whole "", .unresolved, false⟩

@[simp] def partsOf (declarations : NameTable Datatype) : List Expr → List Part
  | [] => []
  | e :: es => e.part declarations :: partsOf declarations es

end

mutual

/-- C++ has a floating-point number there.  Quotients are taken for such numbers. -/
@[simp] def isFloating (declarations : NameTable Datatype) : Expr → Bool
  | .name x => isFloatingIn declarations x
  | .literal kind _ => kind == .float
  | .paren e | .sign .neg e => e.isFloating declarations
  | .chain op first second more =>
      op.isFloating (first.isFloating declarations || second.isFloating declarations
        || anyFloating declarations more)
  | .sign .not _ | .compare _ _ _ => false
  | _ => false

@[simp] def anyFloating (declarations : NameTable Datatype) : List Expr → Bool
  | [] => false
  | e :: es => e.isFloating declarations || anyFloating declarations es

end

/-- An integer literal. -/
def isInteger : Expr → Bool
  | .literal .int _ => true
  | _ => false

end Expr

/-- The sides of a quotient, the dividend first. -/
def ChainOp.sides {α : Type} (op : ChainOp) (first second : α) : α × α :=
  if op.isLeftDivision then (second, first) else (first, second)

namespace Expr

/-- The quotient of the first two operands is one of floating point in C++: the divisor is made
one, both classes are integral so that the translation widens, or an operand is of that type. -/
def keepsFraction (declarations : NameTable Datatype) (op : ChainOp) (first second : Expr) : Bool :=
  (op.sides first second).2.isInteger
    || ((first.part declarations).cls.isIntegral && (second.part declarations).cls.isIntegral)
    || first.isFloating declarations || second.isFloating declarations

/-- Every division keeps the fraction of the quotient of its first two operands. -/
inductive KeepsFractions (declarations : NameTable Datatype) : Expr → Prop
  | intro {e : Expr} : (∀ x ∈ e.operands, KeepsFractions declarations x) →
      (∀ op first second more, e = .chain op first second more → op.isDivision →
        keepsFraction declarations op first second) → KeepsFractions declarations e

/-- A comparison, a logical operator or a negation is outermost. -/
def isTruth : Expr → Bool
  | .compare _ _ _ | .sign .not _ => true
  | .chain op _ _ _ => op.level ≤ 3
  | _ => false

/-- All truth values are about integers. -/
inductive TruthsOfIntegers (declarations : NameTable Datatype) : Expr → Prop
  | intro {e : Expr} : (∀ x ∈ e.operands, TruthsOfIntegers declarations x) →
      (e.isTruth → (e.part declarations).cls.isIntegral) → TruthsOfIntegers declarations e

theorem partsOf_eq (declarations : NameTable Datatype) (es : List Expr) :
    partsOf declarations es = es.map (part declarations) := by
  induction es with
  | nil => rw [partsOf, List.map_nil]
  | cons e es ih => rw [partsOf, ih, List.map_cons]

theorem anyFloating_eq (declarations : NameTable Datatype) (es : List Expr) :
    anyFloating declarations es = es.any (isFloating declarations) := by
  induction es with
  | nil => rw [anyFloating, List.any_nil]
  | cons e es ih => rw [anyFloating, ih, List.any_cons]

variable {declarations : NameTable Datatype} {e x : Expr}

theorem part_chain (op : ChainOp) (first second : Expr) (more : List Expr) :
    (Expr.chain op first second more).part declarations
      = op.parts (first.part declarations) (second.part declarations) (more.map (part declarations)) := by
  rw [part, partsOf_eq]

theorem Truthful.operands (h : e.Truthful declarations) (mem : x ∈ e.operands) :
    x.Truthful declarations := by
  cases h with
  | name | int | float => cases mem
  | paren inner | sign inner => exact List.mem_singleton.mp mem ▸ inner
  | chain all => exact all x mem
  | compare left right =>
    rcases List.mem_cons.mp mem with rfl | mem
    · exact left
    · exact List.mem_singleton.mp mem ▸ right

theorem Truthful.formula (h : e.Truthful declarations) : e.Formula := by
  induction h with
  | name => exact .name _
  | int | float => exact .literal _ _
  | paren _ ih => exact .operator rfl (List.forall_mem_singleton.mpr ih)
  | @sign op _ _ ih => exact .operator (by cases op <;> rfl) (List.forall_mem_singleton.mpr ih)
  | @chain op _ _ _ _ ih =>
    exact .operator (Category.isOperator_of_isChained op.isChained_category) ih
  | @compare op _ _ _ _ ih ih' =>
    exact .operator (by cases op <;> rfl)
      (List.forall_mem_cons.mpr ⟨ih, List.forall_mem_singleton.mpr ih'⟩)

end Expr

/-! ## One step -/

/-- A part is put together from names and numerals, and an integer literal is its numeral. -/
structure Part.Spelled (p : Part) : Prop where
  scalar : p.assembly.Scalar
  numeral : p.literal → ∃ s, p.assembly = whole s ∧ LiteralKind.int.spells s

namespace Part

variable {floating : String → Bool} {q d : Part}

theorem Spelled.enclosed (h : q.Spelled) : q.enclosed.Spelled := ⟨.parens h.scalar, nofun⟩

theorem isFloating_one : (whole "1.0").isFloating floating := by
  rw [Assembly.isFloating, show LiteralKind.float.spells "1.0" from by decide, Bool.or_true]

theorem isFloating_ratio (wide : Bool) (left right : Assembly) :
    (ratio wide left right).isFloating floating
      = (wide || left.isFloating floating || right.isFloating floating) := by
  unfold ratio
  rw [Assembly.isFloating]
  cases wide with
  | true =>
    rw [if_pos rfl, Assembly.isFloating, isFloating_one]
    simp [Operator.isArithmetic]
  | false => simp [Operator.isArithmetic]

theorem truncates_ratio (wide : Bool) (left right : Assembly) :
    (ratio wide left right).truncates floating
      = ((!wide && !left.isFloating floating && !right.isFloating floating)
        || left.truncates floating || right.truncates floating) := by
  unfold ratio
  rw [Assembly.truncates]
  cases wide with
  | true =>
    rw [if_pos rfl, Assembly.isFloating, isFloating_one]
    simp [Assembly.truncates, Operator.isArithmetic]
  | false => simp

theorem scalar_ratio {wide : Bool} {left right : Assembly} (hl : left.Scalar) (hr : right.Scalar) :
    (ratio wide left right).Scalar := by
  have one : (whole "1.0").Scalar := .float (by decide)
  cases wide with
  | true => exact .binary (.binary hl one) hr
  | false => exact .binary hl hr

/-- A quotient is of floating point in C++. -/
def keeps (floating : String → Bool) (q d : Part) : Bool :=
  d.literal || (q.cls.isIntegral && d.cls.isIntegral) || q.assembly.isFloating floating
    || d.assembly.isFloating floating

theorem isFloating_tenths (h : d.Spelled) (literal : d.literal) :
    (whole (d.assembly.spelled ++ ".0")).isFloating floating := by
  obtain ⟨s, eq, spells⟩ := h.numeral literal
  rw [Assembly.isFloating, eq, Assembly.spelled, LiteralKind.spells_tenths spells, Bool.or_true]

theorem isFloating_quotient (h : d.Spelled) :
    (q.quotient d).isFloating floating = keeps floating q d := by
  unfold quotient keeps
  cases literal : d.literal with
  | true => simp [isFloating_ratio, isFloating_tenths h literal]
  | false => simp [isFloating_ratio]

theorem truncates_quotient (h : d.Spelled) : (q.quotient d).truncates floating
    = (!keeps floating q d || q.assembly.truncates floating || d.assembly.truncates floating) := by
  unfold quotient keeps
  cases literal : d.literal with
  | true =>
    obtain ⟨s, eq, -⟩ := h.numeral literal
    have leaf : ∀ text, (whole text).truncates floating = false := fun _ => by rw [Assembly.truncates]
    simp only [if_true, truncates_ratio, isFloating_tenths h literal, leaf]
    simp [eq, leaf]
  | false => simp [truncates_ratio, Bool.and_assoc, Bool.or_assoc]

theorem Spelled.quotient (hq : q.Spelled) (hd : d.Spelled) : (q.quotient d).Scalar := by
  unfold Part.quotient
  split
  case isTrue literal =>
    obtain ⟨s, eq, spells⟩ := hd.numeral literal
    refine scalar_ratio hq.scalar (.float ?_)
    rw [eq, Assembly.spelled]
    exact LiteralKind.spells_tenths spells
  case isFalse => exact scalar_ratio hq.scalar hd.scalar

end Part

namespace ChainOp

variable {floating : String → Bool} {op : ChainOp} {q p : Part} {ps : List Part}

theorem spelled_step (hq : q.Spelled) (hp : p.Spelled) : (op.step q p).Spelled := by
  refine ⟨?_, nofun⟩
  show (op.scalars q p).Scalar
  cases op with
  | rightDiv | elRightDiv => exact hq.quotient hp
  | leftDiv | elLeftDiv => exact hp.quotient hq
  | pow | elPow =>
    exact .power rfl (List.forall_mem_cons.mpr ⟨hq.scalar, List.forall_mem_singleton.mpr hp.scalar⟩)
  | _ => exact .binary hq.scalar hp.scalar

theorem spelled_divided (hq : q.Spelled) : (op.divided q).Spelled := by
  unfold divided
  split
  · exact hq.enclosed
  · exact hq

theorem spelled_parts (hq : q.Spelled) (hp : p.Spelled) (hps : ∀ p ∈ ps, p.Spelled) :
    (op.parts q p ps).Spelled :=
  List.foldlRecOn ps _ (motive := Part.Spelled) (spelled_step hq hp)
    fun _ h p mem => spelled_step (spelled_divided h) (hps p mem)

@[simp] theorem isFloating_divided :
    (op.divided q).assembly.isFloating floating = q.assembly.isFloating floating := by
  unfold divided
  split
  · rw [Part.enclosed, Assembly.isFloating]
  · rfl

@[simp] theorem truncates_divided :
    (op.divided q).assembly.truncates floating = q.assembly.truncates floating := by
  unfold divided
  split
  · rw [Part.enclosed, Assembly.truncates]
  · rfl

/-! ### Divisions -/

section Division

variable (floating) (division : op.isDivision)
include division

theorem scalars_of_division : op.scalars q p = (op.sides q p).1.quotient (op.sides q p).2 := by
  cases op <;> first | rfl | cases division

/-- The quotient of two scalars is one of floating point, or C++ cuts it. -/
theorem step_of_division (hq : q.Spelled) (hp : p.Spelled) :
    let kept := (op.sides q p).1.keeps floating (op.sides q p).2
    (op.step q p).assembly.isFloating floating = kept
      ∧ (op.step q p).assembly.truncates floating
        = (!kept || q.assembly.truncates floating || p.assembly.truncates floating) := by
  have divisor : (op.sides q p).2.Spelled := by
    unfold sides
    split
    · exact hq
    · exact hp
  show (op.scalars q p).isFloating floating = _ ∧ (op.scalars q p).truncates floating = _
  rw [scalars_of_division division, Part.isFloating_quotient divisor, Part.truncates_quotient divisor]
  refine ⟨rfl, ?_⟩
  unfold sides
  split
  · rw [Bool.or_right_comm]
  · rfl

/-- The quotient so far is cut already, or it is of floating point and no later one is cut. -/
theorem foldl_division (hps : ∀ p ∈ ps, p.Spelled) : ∀ {q : Part}, q.Spelled →
    (q.assembly.truncates floating ∨ q.assembly.isFloating floating) →
    let all := ps.foldl (fun q p => op.step (op.divided q) p) q
    (all.assembly.truncates floating
        ↔ q.assembly.truncates floating ∨ ∃ x ∈ ps, x.assembly.truncates floating)
      ∧ (all.assembly.truncates floating ∨ all.assembly.isFloating floating) := by
  induction ps with
  | nil => exact fun _ inv => ⟨by simp, inv⟩
  | cons p ps ih =>
    intro q hq inv
    obtain ⟨hp, hps⟩ := List.forall_mem_cons.mp hps
    obtain ⟨floats, cuts⟩ := step_of_division floating division (spelled_divided hq) hp
    have kept : q.assembly.isFloating floating →
        (op.sides (op.divided q) p).1.keeps floating (op.sides (op.divided q) p).2 := by
      intro float
      have float : (op.divided q).assembly.isFloating floating := isFloating_divided.trans float
      unfold sides Part.keeps
      split <;> simp [float]
    have next : (op.step (op.divided q) p).assembly.truncates floating
          ↔ q.assembly.truncates floating ∨ p.assembly.truncates floating := by
      rw [cuts, truncates_divided]
      rcases inv with cut | float
      · simp [cut]
      · simp [kept float]
    obtain ⟨all, inv'⟩ := ih hps (spelled_step (spelled_divided hq) hp) (by
      rcases inv with cut | float
      · exact .inl (next.mpr (.inl cut))
      · exact .inr (floats.trans (kept float)))
    refine ⟨?_, inv'⟩
    rw [List.foldl_cons, all, next]
    simp [or_assoc]

theorem parts_of_division (hq : q.Spelled) (hp : p.Spelled) (hps : ∀ p ∈ ps, p.Spelled) :
    ((op.parts q p ps).assembly.truncates floating
        ↔ ¬(op.sides q p).1.keeps floating (op.sides q p).2
          ∨ ∃ x ∈ q :: p :: ps, x.assembly.truncates floating)
      ∧ ((op.parts q p ps).assembly.truncates floating
        ∨ (op.parts q p ps).assembly.isFloating floating) := by
  obtain ⟨floats, cuts⟩ := step_of_division floating division hq hp
  obtain ⟨all, inv⟩ := foldl_division floating division hps (spelled_step hq hp) (by
    rw [floats, cuts]
    cases (op.sides q p).1.keeps floating (op.sides q p).2 <;> simp)
  refine ⟨?_, inv⟩
  refine all.trans ?_
  rw [cuts]
  simp [or_assoc]

end Division

/-! ### Other operators -/

section Other

variable (other : op.isDivision = false)
include other

theorem truncates_step : (op.step q p).assembly.truncates floating
    = (q.assembly.truncates floating || p.assembly.truncates floating) := by
  show (op.scalars q p).truncates floating = _
  cases op <;> first | cases other; done | skip
  all_goals simp [scalars, Assembly.truncates, Assembly.truncatesAny]

theorem truncates_parts : (op.parts q p ps).assembly.truncates floating
    ↔ ∃ x ∈ q :: p :: ps, x.assembly.truncates floating := by
  have fold : ∀ (ps : List Part) (q : Part),
      (ps.foldl (fun q p => op.step (op.divided q) p) q).assembly.truncates floating
        ↔ q.assembly.truncates floating ∨ ∃ x ∈ ps, x.assembly.truncates floating := by
    intro ps
    induction ps with
    | nil => simp
    | cons p ps ih =>
      intro q
      rw [List.foldl_cons, ih, truncates_step other]
      simp [or_assoc]
  refine (fold ps _).trans ?_
  rw [truncates_step other]
  simp [or_assoc]

end Other

/-- What C++ makes of operators other than divisions. -/
theorem isFloating_parts (other : op.isDivision = false) :
    (op.parts q p ps).assembly.isFloating floating
      = op.isFloating ((q :: p :: ps).any (·.assembly.isFloating floating)) := by
  have one : ∀ q p : Part, (op.step q p).assembly.isFloating floating
      = op.isFloating (q.assembly.isFloating floating || p.assembly.isFloating floating) := by
    intro q p
    show (op.scalars q p).isFloating floating = _
    cases op <;> first | cases other; done | (rw [scalars, Assembly.isFloating]; rfl)
  have again : ∀ a b : Bool, op.isFloating (op.isFloating a || b) = op.isFloating (a || b) := by
    intro a b
    cases op <;> rfl
  have fold : ∀ (ps : List Part) (q : Part) (some : Bool),
      q.assembly.isFloating floating = op.isFloating some →
      (ps.foldl (fun q p => op.step (op.divided q) p) q).assembly.isFloating floating
        = op.isFloating (some || ps.any (·.assembly.isFloating floating)) := by
    intro ps
    induction ps with
    | nil => exact fun q some start => by rw [List.foldl_nil, start, List.any_nil, Bool.or_false]
    | cons p ps ih =>
      intro q some start
      rw [List.foldl_cons, List.any_cons, ← Bool.or_assoc]
      refine ih _ _ ?_
      rw [one, isFloating_divided, start, again]
  refine (fold ps _ _ (one q p)).trans ?_
  rw [List.any_cons, List.any_cons, Bool.or_assoc]

theorem literal_parts : (op.parts q p ps).literal = false :=
  List.foldlRecOn ps _ (motive := fun q : Part => q.literal = false) rfl fun _ _ _ _ => rfl

theorem cls_divided : (op.divided q).cls = q.cls := by
  unfold divided
  split <;> rfl

/-- The class of a chain of operands that is not widened is integral if theirs are. -/
theorem isIntegral_parts (other : op.isDivision = false) :
    (op.parts q p ps).cls.isIntegral ↔ ∀ x ∈ q :: p :: ps, x.cls.isIntegral := by
  have one : ∀ q p : Part, (op.step q p).cls = max q.cls p.cls := by
    intro q p
    cases op <;> first | rfl | cases other
  have fold : ∀ (ps : List Part) (q : Part),
      (ps.foldl (fun q p => op.step (op.divided q) p) q).cls.isIntegral
        ↔ q.cls.isIntegral ∧ ∀ x ∈ ps, x.cls.isIntegral := by
    intro ps
    induction ps with
    | nil => simp
    | cons p ps ih =>
      intro q
      rw [List.foldl_cons, ih, one, cls_divided, StorageClass.isIntegral_max]
      simp [and_assoc]
  refine (fold ps _).trans ?_
  rw [one, StorageClass.isIntegral_max]
  simp [and_assoc]

end ChainOp

/-! ## Expressions -/

namespace Expr

variable {declarations : NameTable Datatype} {e : Expr}

@[simp] theorem keepsFractions_name (x : String) : (name x).KeepsFractions declarations :=
  .intro nofun nofun

@[simp] theorem keepsFractions_literal (kind : LiteralKind) (s : String) :
    (literal kind s).KeepsFractions declarations := .intro nofun nofun

theorem keepsFractions_iff (other : ∀ op first second more, e ≠ .chain op first second more) :
    e.KeepsFractions declarations ↔ ∀ x ∈ e.operands, x.KeepsFractions declarations := by
  constructor
  · rintro ⟨below, -⟩
    exact below
  · exact fun keeps => .intro keeps fun op first second more eq => absurd eq (other op first second more)

@[simp] theorem keepsFractions_paren :
    (paren e).KeepsFractions declarations ↔ e.KeepsFractions declarations :=
  (keepsFractions_iff (e := .paren e) nofun).trans List.forall_mem_singleton

@[simp] theorem keepsFractions_sign {op : SignOp} :
    (sign op e).KeepsFractions declarations ↔ e.KeepsFractions declarations :=
  (keepsFractions_iff (e := .sign op e) nofun).trans List.forall_mem_singleton

@[simp] theorem keepsFractions_compare {op : Comparison} {left right : Expr} :
    (compare op left right).KeepsFractions declarations
      ↔ left.KeepsFractions declarations ∧ right.KeepsFractions declarations :=
  (keepsFractions_iff (e := .compare op left right) nofun).trans (by simp [operands])

@[simp] theorem keepsFractions_chain {op : ChainOp} {first second : Expr} {more : List Expr} :
    (chain op first second more).KeepsFractions declarations
      ↔ (∀ x ∈ first :: second :: more, x.KeepsFractions declarations)
        ∧ (op.isDivision → keepsFraction declarations op first second) := by
  constructor
  · rintro ⟨below, kept⟩
    exact ⟨below, kept op first second more rfl⟩
  · rintro ⟨below, kept⟩
    refine .intro below ?_
    intro _ _ _ _ same
    cases same
    exact kept

/-- An expression is put together from names and numerals. -/
theorem spelled_part (h : e.Truthful declarations) (canonical : e.Canonical) :
    (e.part declarations).Spelled := by
  induction h with
  | name =>
    cases canonical with
    | name name => exact ⟨by rw [part]; exact .name name, by rw [part]; nofun⟩
  | @int s =>
    cases canonical with
    | literal spells =>
      refine ⟨by rw [part]; exact .int spells, fun _ => ?_⟩
      rw [part]
      exact ⟨s, rfl, spells⟩
  | float =>
    cases canonical with
    | literal spells => exact ⟨by rw [part]; exact .float spells, by rw [part]; nofun⟩
  | paren _ ih =>
    cases canonical with
    | paren inner =>
      rw [part]
      exact (ih inner).enclosed
  | @sign op e _ ih =>
    cases canonical with
    | sign inner =>
      have zero : (whole "0").Scalar := .int (by decide)
      cases op with
      | neg => exact ⟨by rw [part]; exact .negated (.parens (ih inner).scalar), by rw [part]; nofun⟩
      | not => exact ⟨by rw [part]; exact .parens (.binary (ih inner).scalar zero), by rw [part]; nofun⟩
  | @chain op first second more _ ih =>
    cases canonical with
    | chain start _ _ operands _ =>
      have all : ∀ x ∈ first :: second :: more, (x.part declarations).Spelled := fun x mem =>
        ih x mem (List.forall_mem_cons.mpr ⟨start, operands⟩ x mem)
      obtain ⟨here, others⟩ := List.forall_mem_cons.mp all
      obtain ⟨next, rest⟩ := List.forall_mem_cons.mp others
      rw [part_chain]
      exact ChainOp.spelled_parts here next (List.forall_mem_map.mpr rest)
  | compare _ _ ih ih' =>
    cases canonical with
    | compare start _ stop _ =>
      exact ⟨by rw [part]; exact .binary (ih start).scalar (ih' stop).scalar, by rw [part]; nofun⟩

theorem literal_part (h : e.Truthful declarations) : (e.part declarations).literal = e.isInteger := by
  cases h with
  | name | int | float | paren | compare => rw [part]; rfl
  | @sign op => cases op <;> (rw [part]; rfl)
  | chain =>
    rw [part_chain, ChainOp.literal_parts]
    rfl

/-- The type that C++ gives a name or a numeral. -/
theorem isFloating_leaf (h : e.Truthful declarations) (canonical : e.Canonical) (leaf : e.operands = []) :
    (e.part declarations).assembly.isFloating (isFloatingIn declarations) = e.isFloating declarations := by
  cases h with
  | @name x =>
    cases canonical with
    | name name =>
      obtain ⟨c, cs, letters, start, -⟩ := Cpp.exists_cons_of_isName name
      have other : LiteralKind.float.spells x = false := by
        refine Bool.eq_false_iff.mpr fun spells => ?_
        have number := eq_of_beq spells
        rw [letters] at number
        rw [Token.isWordStart_of_number (Token.numberAt?_head number)] at start
        cases start
      rw [part, Assembly.isFloating, name, other, isFloating, Bool.true_and, Bool.or_false]
  | @int s =>
    cases canonical with
    | literal spells =>
      have number := eq_of_beq spells
      obtain ⟨c, cs, letters⟩ := List.exists_cons_of_ne_nil (Token.all_isDigit_of_int number).1
      have other : isName s = false := by
        unfold isName
        rw [letters]
        dsimp only
        rw [Token.isWordStart_of_number (Token.numberAt?_head (letters ▸ number))]
        rfl
      have float : LiteralKind.float.spells s = false := by
        rw [LiteralKind.spells, number]
        rfl
      rw [part, Assembly.isFloating, other, float, isFloating]
      rfl
  | float =>
    cases canonical with
    | literal spells =>
      rw [part, Assembly.isFloating, spells, isFloating, Bool.or_true]
      rfl
  | paren | sign | chain | compare => cases leaf

/-- A quotient of parts is of floating point as the quotient of the expressions is. -/
theorem keeps_part {op : ChainOp} {first second : Expr} {floating : String → Bool}
    (hf : first.Truthful declarations) (hs : second.Truthful declarations)
    (first_type : (first.part declarations).assembly.isFloating floating = first.isFloating declarations)
    (second_type : (second.part declarations).assembly.isFloating floating
      = second.isFloating declarations) :
    (op.sides (first.part declarations) (second.part declarations)).1.keeps floating
        (op.sides (first.part declarations) (second.part declarations)).2
      = keepsFraction declarations op first second := by
  unfold ChainOp.sides keepsFraction ChainOp.sides Part.keeps
  split
  · rw [literal_part hf, first_type, second_type, Bool.and_comm, Bool.or_right_comm]
  · rw [literal_part hs, first_type, second_type]

section Chain

variable {op : ChainOp} {first second : Expr} {more : List Expr}
  (types : ∀ x ∈ first :: second :: more, x.KeepsFractions declarations →
    (x.part declarations).assembly.isFloating (isFloatingIn declarations) = x.isFloating declarations)
  (all : ∀ x ∈ first :: second :: more, x.Truthful declarations)
  (canonical : ∀ x ∈ first :: second :: more, x.Canonical)
include types

theorem isFloating_chain (other : op.isDivision = false)
    (kept : ∀ x ∈ first :: second :: more, x.KeepsFractions declarations) :
    ((Expr.chain op first second more).part declarations).assembly.isFloating
        (isFloatingIn declarations)
      = (Expr.chain op first second more).isFloating declarations := by
  rw [part_chain, ChainOp.isFloating_parts other, isFloating, anyFloating_eq, Bool.or_assoc,
    ← List.map_cons, ← List.map_cons, ← List.any_cons, ← List.any_cons]
  refine congrArg _ (Bool.eq_iff_iff.mpr ?_)
  simp only [List.any_eq_true, List.mem_map, exists_exists_and_eq_and]
  exact exists_congr fun x => and_congr_right fun mem => by rw [types x mem (kept x mem)]

include all canonical

/-- A division is cut if an operand is, or if it does not keep its own fraction. -/
theorem truncates_division (division : op.isDivision)
    (cuts : (∃ q ∈ (first :: second :: more).map (part declarations),
        q.assembly.truncates (isFloatingIn declarations))
      ↔ ¬∀ x ∈ first :: second :: more, x.KeepsFractions declarations) :
    (((Expr.chain op first second more).part declarations).assembly.truncates
        (isFloatingIn declarations)
      ↔ ¬(Expr.chain op first second more).KeepsFractions declarations)
    ∧ ((Expr.chain op first second more).KeepsFractions declarations →
      ((Expr.chain op first second more).part declarations).assembly.isFloating
        (isFloatingIn declarations)) := by
  have spelled : ∀ x ∈ first :: second :: more, (x.part declarations).Spelled := fun x mem =>
    spelled_part (all x mem) (canonical x mem)
  obtain ⟨here, others⟩ := List.forall_mem_cons.mp spelled
  obtain ⟨next, rest⟩ := List.forall_mem_cons.mp others
  obtain ⟨cut, floats⟩ := ChainOp.parts_of_division (isFloatingIn declarations) division
    here next (List.forall_mem_map.mpr rest)
  rw [List.map_cons, List.map_cons] at cuts
  rw [← part_chain] at cut floats
  have whole : ((Expr.chain op first second more).part declarations).assembly.truncates
        (isFloatingIn declarations)
      ↔ ¬(Expr.chain op first second more).KeepsFractions declarations := by
    rw [keepsFractions_chain, cut, cuts]
    by_cases keep : ∀ x ∈ first :: second :: more, x.KeepsFractions declarations
    case neg => exact iff_of_true (.inr keep) fun kept => keep kept.1
    case pos =>
      have type : ∀ x ∈ first :: second :: more, _ := fun x mem => types x mem (keep x mem)
      rw [keeps_part (all first (by simp)) (all second (by simp)) (type first (by simp))
        (type second (by simp)), or_iff_left (not_not.mpr keep), and_iff_right keep]
      simp [division]
  exact ⟨whole, fun kept => floats.resolve_left fun cut => whole.mp cut kept⟩

theorem part_iff_chain (below : ∀ x ∈ first :: second :: more,
      (x.part declarations).assembly.truncates (isFloatingIn declarations)
        ↔ ¬x.KeepsFractions declarations) :
    (((Expr.chain op first second more).part declarations).assembly.truncates
        (isFloatingIn declarations)
      ↔ ¬(Expr.chain op first second more).KeepsFractions declarations)
    ∧ ((Expr.chain op first second more).KeepsFractions declarations →
      ((Expr.chain op first second more).part declarations).assembly.isFloating
        (isFloatingIn declarations) = (Expr.chain op first second more).isFloating declarations) := by
  have cuts : (∃ q ∈ (first :: second :: more).map (part declarations),
        q.assembly.truncates (isFloatingIn declarations))
      ↔ ¬∀ x ∈ first :: second :: more, x.KeepsFractions declarations := by
    simp only [List.mem_map, exists_exists_and_eq_and, not_forall]
    exact exists_congr fun x => (and_congr_right fun mem => below x mem).trans exists_prop.symm
  cases division : op.isDivision with
  | true =>
    obtain ⟨cut, floats⟩ := truncates_division types all canonical division cuts
    have float : (Expr.chain op first second more).isFloating declarations := by
      rw [isFloating]
      cases op <;> first | rfl | cases division
    exact ⟨cut, fun kept => (floats kept).trans float.symm⟩
  | false =>
    refine ⟨?_, fun kept => isFloating_chain types division (keepsFractions_chain.mp kept).1⟩
    rw [part_chain, ChainOp.truncates_parts division, keepsFractions_chain, division]
    rw [List.map_cons, List.map_cons] at cuts
    refine cuts.trans (not_congr ?_)
    simp

end Chain

/-- C++ cuts a quotient of the expression as it is put together exactly if some division does not
keep the fraction; where all of them do, C++ has the type that is read off the expression. -/
theorem part_iff (h : e.Truthful declarations) (canonical : e.Canonical) :
    ((e.part declarations).assembly.truncates (isFloatingIn declarations)
        ↔ ¬e.KeepsFractions declarations)
      ∧ (e.KeepsFractions declarations →
        (e.part declarations).assembly.isFloating (isFloatingIn declarations)
          = e.isFloating declarations) := by
  induction h with
  | name free declared real =>
    refine ⟨?_, fun _ => isFloating_leaf (.name free declared real) canonical rfl⟩
    rw [part, Assembly.truncates]
    simp
  | int =>
    refine ⟨?_, fun _ => isFloating_leaf .int canonical rfl⟩
    rw [part, Assembly.truncates]
    simp
  | float =>
    refine ⟨?_, fun _ => isFloating_leaf .float canonical rfl⟩
    rw [part, Assembly.truncates]
    simp
  | paren _ ih =>
    cases canonical with
    | paren inner =>
      obtain ⟨cuts, type⟩ := ih inner
      rw [part, Part.enclosed, Assembly.truncates, Assembly.isFloating, isFloating, keepsFractions_paren]
      exact ⟨cuts, type⟩
  | @sign op e _ ih =>
    cases canonical with
    | sign inner =>
      obtain ⟨cuts, type⟩ := ih inner
      rw [keepsFractions_sign]
      cases op with
      | neg =>
        rw [part, Assembly.truncates, Assembly.truncates, Assembly.isFloating, Assembly.isFloating,
          isFloating]
        exact ⟨cuts, type⟩
      | not =>
        rw [part, Assembly.truncates, Assembly.truncates, Assembly.truncates, Assembly.isFloating,
          Assembly.isFloating, isFloating]
        exact ⟨by simpa using cuts, fun _ => rfl⟩
  | @compare op left right _ _ ih ih' =>
    cases canonical with
    | compare start _ stop _ =>
      obtain ⟨cuts, -⟩ := ih start
      obtain ⟨cuts', -⟩ := ih' stop
      have plain : op.operator.isArithmetic = false ∧ op.operator ≠ .div := by cases op <;> decide
      rw [part, Assembly.truncates, Assembly.isFloating, keepsFractions_compare, plain.1, isFloating]
      refine ⟨?_, fun _ => rfl⟩
      simp only [Bool.or_eq_true, cuts, cuts', plain.2, decide_false, Bool.false_and,
        Bool.false_eq_true, false_or]
      exact not_and_or.symm
  | @chain op first second more all ih =>
    cases canonical with
    | chain start _ _ operands _ =>
      have canonicals : ∀ x ∈ first :: second :: more, x.Canonical :=
        List.forall_mem_cons.mpr ⟨start, operands⟩
      exact part_iff_chain (fun x mem => (ih x mem (canonicals x mem)).2) all canonicals
        fun x mem => (ih x mem (canonicals x mem)).1

/-- Parts are real numbers. -/
theorem isReal_part (h : e.Truthful declarations) : (e.part declarations).cls.isReal := by
  have step : ∀ (op : ChainOp) {q p : Part}, q.cls.isReal → p.cls.isReal → (op.step q p).cls.isReal := by
    intro op q p hq hp
    show StorageClass.isReal (if _ then max (max q.cls p.cls) .float else max q.cls p.cls)
    split
    · exact StorageClass.isReal_max (StorageClass.isReal_max hq hp) rfl
    · exact StorageClass.isReal_max hq hp
  induction h with
  | name _ declared real =>
    rw [part, declared]
    exact real
  | int | float =>
    rw [part]
    rfl
  | paren _ ih =>
    rw [part]
    exact ih
  | @sign op _ _ ih => cases op <;> (rw [part]; exact ih)
  | compare _ _ ih ih' =>
    rw [part]
    exact StorageClass.isReal_max ih ih'
  | @chain op first second more _ ih =>
    obtain ⟨here, others⟩ := List.forall_mem_cons.mp ih
    obtain ⟨next, rest⟩ := List.forall_mem_cons.mp others
    rw [part_chain]
    refine List.foldlRecOn _ _ (motive := fun q : Part => q.cls.isReal) (step op here next) ?_
    intro q hq p mem
    obtain ⟨x, there, rfl⟩ := List.mem_map.mp mem
    have divided : (op.divided q).cls.isReal := by
      rw [ChainOp.cls_divided]
      exact hq
    exact step op divided (rest x there)

/-! ## Truth values of integers -/

theorem TruthsOfIntegers.operands (h : e.TruthsOfIntegers declarations) :
    ∀ x ∈ e.operands, x.TruthsOfIntegers declarations := by
  cases h with
  | intro below => exact below

theorem TruthsOfIntegers.integral (h : e.TruthsOfIntegers declarations) (truth : e.isTruth) :
    (e.part declarations).cls.isIntegral := by
  cases h with
  | intro _ own => exact own truth

/-- Where truth values are about integers, what is inferred to be of floating point is so in C++,
and every division keeps the fraction. -/
theorem keepsFractions_of_truthsOfIntegers (h : e.Truthful declarations)
    (truths : e.TruthsOfIntegers declarations) : e.KeepsFractions declarations
      ∧ ((e.part declarations).cls.isIntegral = false → e.isFloating declarations) := by
  induction h with
  | @name x c _ declared real =>
    refine ⟨keepsFractions_name x, fun float => ?_⟩
    rw [part, declared] at float
    obtain rfl := StorageClass.eq_float_of_isReal real float
    rw [isFloating, isFloatingIn, declared]
    exact beq_self_eq_true _
  | int => exact ⟨keepsFractions_literal _ _, fun float => by rw [part] at float; cases float⟩
  | float => exact ⟨keepsFractions_literal _ _, fun _ => by rw [isFloating]; rfl⟩
  | paren _ ih =>
    rw [keepsFractions_paren, part, isFloating]
    exact ih (truths.operands _ List.mem_cons_self)
  | @sign op e _ ih =>
    obtain ⟨keeps, floats⟩ := ih (truths.operands _ List.mem_cons_self)
    rw [keepsFractions_sign]
    refine ⟨keeps, fun float => ?_⟩
    cases op with
    | neg =>
      rw [part] at float
      rw [isFloating]
      exact floats float
    | not => exact absurd (truths.integral rfl) (by rw [float]; exact Bool.false_ne_true)
  | @compare op left right _ _ ih ih' =>
    have below := truths.operands
    rw [keepsFractions_compare]
    refine ⟨⟨(ih (below _ (by simp [operands]))).1, (ih' (below _ (by simp [operands]))).1⟩, fun float => ?_⟩
    exact absurd (truths.integral rfl) (by rw [float]; exact Bool.false_ne_true)
  | @chain op first second more _ ih =>
    have each := fun x mem => ih x mem (truths.operands x mem)
    have kept : op.isDivision → keepsFraction declarations op first second := by
      intro _
      have here := (each first (by simp)).2
      have next := (each second (by simp)).2
      unfold keepsFraction
      cases integral : (first.part declarations).cls.isIntegral with
      | false => simp [here integral]
      | true =>
        cases integral' : (second.part declarations).cls.isIntegral with
        | false => simp [next integral']
        | true => simp
    refine ⟨keepsFractions_chain.mpr ⟨fun x mem => (each x mem).1, kept⟩, fun float => ?_⟩
    have some (other : op.isDivision = false) :
        ∃ x ∈ first :: second :: more, x.isFloating declarations := by
      rw [part_chain, Bool.eq_false_iff, ne_eq, ChainOp.isIntegral_parts other, ← List.map_cons,
        ← List.map_cons, List.forall_mem_map, not_forall] at float
      obtain ⟨x, float⟩ := float
      obtain ⟨mem, float⟩ := not_forall.mp float
      exact ⟨x, mem, (each x mem).2 (Bool.eq_false_iff.mpr float)⟩
    rw [isFloating, anyFloating_eq, Bool.or_assoc, ← List.any_cons, ← List.any_cons]
    cases op with
    | add | sub | mul | elMul => exact List.any_eq_true.mpr (some rfl)
    | andAnd | and | orOr | or =>
      exact absurd (truths.integral rfl) (by rw [float]; exact Bool.false_ne_true)
    | rightDiv | leftDiv | elRightDiv | elLeftDiv | pow | elPow => rfl

end Expr

end MatrixScript
