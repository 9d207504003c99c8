/-
# `Proofs.Program.Quotients` — products and quotients of matrices as they are emitted

C++ has no operators for structural quotients: `A / B` is emitted as the transposed solution of
the transposed system, and the transpose is written behind the text of the dividend.  So of a
first operand that is a product, or a quotient of elements, only the last factor is transposed;
`.\` has the same trouble with the divisor.  `Expr.emission` is how an expression is put together.
Its text is read so exactly if no such operand stands bare (`Expr.fits_emission_iff`), and what it
is put together to is worth what the expression is (`Expr.matrixValue_emission`).
-/
import MatrixScript.Proofs.Cpp.Matrices
import MatrixScript.Proofs.Cpp.Name
import MatrixScript.Proofs.Rule.Joined
import MatrixScript.Proofs.Tree.Bears

namespace MatrixScript

open Cpp (Assembly Operator Callee)
open Cpp.Assembly (whole parens call applied member binary)
open Rule (transposedText ratio)

/-- How an expression is put together, and the class of its elements. -/
structure Emission where
  assembly : Assembly
  cls : StorageClass

namespace Emission

/-- In parentheses. -/
def enclosed (q : Emission) : Emission := ⟨parens q.assembly, q.cls⟩

/-- A member can follow the text. -/
structure Closed (q : Emission) : Prop where
  level : q.assembly.level = 9
  ends : Cpp.endsInNumber q.assembly.spelled = false

end Emission

theorem isCallee_solve : Cpp.isCallee "arma::solve" := by decide

/-- The function that solves linear systems. -/
def solver : Callee := ⟨"arma::solve", isCallee_solve⟩

theorem Rule.spelled_transposedText (e : Assembly) :
    (transposedText e).spelled = e.spelled ++ "." ++ "t" ++ "()" := by
  rw [transposedText, Assembly.spelled, Assembly.spelled, Assembly.spelledAll]
  rfl

theorem spelled_solver (p q : Assembly) :
    (call solver [p, q]).spelled = Cpp.call "arma::solve" [p.spelled, q.spelled] := by
  rw [Assembly.spelled, Assembly.spelledAll, Assembly.spelledAll, Assembly.spelledAll]
  rfl

namespace ChainOp

/-- How one more operand is put behind those so far; blank where the operator is no product and
no quotient. -/
def assembled (op : ChainOp) (q o : Emission) : Assembly :=
  match op with
  | .mul => binary .mul false q.assembly o.assembly
  | .elMul => binary .mod false q.assembly o.assembly
  | .rightDiv =>
      transposedText (call solver [transposedText o.assembly, transposedText q.assembly])
  | .leftDiv => call solver [q.assembly, o.assembly]
  | .elRightDiv => Rule.ratio (q.cls.isIntegral && o.cls.isIntegral) q.assembly o.assembly
  | .elLeftDiv => Rule.ratio (q.cls.isIntegral && o.cls.isIntegral) o.assembly q.assembly
  | _ => whole ""

/-- One more operand behind those so far. -/
def emit (op : ChainOp) (q o : Emission) : Emission where
  assembly := op.assembled q o
  cls := (op.category.ofTwo ⟨.matrix, q.cls⟩ ⟨.matrix, o.cls⟩).cls

/-- A numerator behind the first one is divided by the whole quotient before it. -/
def later (op : ChainOp) (q : Emission) : Emission := if op = .elLeftDiv then q.enclosed else q

/-- Operands of a chain. -/
def emitChain (op : ChainOp) (first second : Emission) (more : List Emission) : Emission :=
  more.foldl (fun q o => op.emit (op.later q) o) (op.emit first second)

/-- The operator solves linear systems. -/
def solves (op : ChainOp) : Bool := op == .rightDiv || op == .leftDiv

/-- The text of the first operand is an operand of a transpose or of `/`. -/
def clings (op : ChainOp) : Bool := op == .rightDiv || op == .elLeftDiv

end ChainOp

namespace Expr

/-- Variables of numeric matrices with parentheses, products and quotients. -/
inductive Multiplicative (declarations : NameTable Datatype) : Expr → Prop
  | name {x : String} {c : StorageClass} : Builtin.isReserved x = false →
      declarations.get? x = some ⟨.matrix, c⟩ → c.isNumeric →
      Multiplicative declarations (.name x)
  | paren {e : Expr} : Multiplicative declarations e → Multiplicative declarations (.paren e)
  | chain {op : ChainOp} {first second : Expr} {more : List Expr} : op.level = 7 →
      (∀ e ∈ first :: second :: more, Multiplicative declarations e) →
      Multiplicative declarations (.chain op first second more)

mutual

/-- How such an expression is put together; blank for other expressions. -/
def emission (declarations : NameTable Datatype) : Expr → Emission
  | .name x => ⟨whole x, ((declarations.get? x).map Datatype.cls).getD .unresolved⟩
  | .paren e => (e.emission declarations).enclosed
  | .chain op first second more =>
      op.emitChain (first.emission declarations) (second.emission declarations)
        (emissions declarations more)
  | _ => ⟨whole "", .unresolved⟩

def emissions (declarations : NameTable Datatype) : List Expr → List Emission
  | [] => []
  | e :: es => e.emission declarations :: emissions declarations es

end

/-- A product or a quotient of elements is outermost. -/
def isOpen : Expr → Bool
  | .chain op _ _ _ => !op.solves
  | _ => false

/-- No product and no quotient of elements is the bare first operand of `/` or `.\`. -/
inductive DividendsEnclosed : Expr → Prop
  | intro {e : Expr} : (∀ x ∈ e.operands, DividendsEnclosed x) →
      (∀ op first second more, e = .chain op first second more → op.clings → first.isOpen = false) →
      DividendsEnclosed e

theorem emissions_eq (declarations : NameTable Datatype) (es : List Expr) :
    emissions declarations es = es.map (emission declarations) := by
  induction es with
  | nil => rfl
  | cons e es ih => exact congrArg (e.emission declarations :: ·) ih

@[simp] theorem dividendsEnclosed_name (x : String) : (name x).DividendsEnclosed :=
  .intro nofun nofun

@[simp] theorem dividendsEnclosed_paren {e : Expr} :
    (paren e).DividendsEnclosed ↔ e.DividendsEnclosed := by
  constructor
  · rintro ⟨below, -⟩
    exact below e List.mem_cons_self
  · exact fun enclosed => .intro (List.forall_mem_singleton.mpr enclosed) nofun

@[simp] theorem dividendsEnclosed_chain {op : ChainOp} {first second : Expr} {more : List Expr} :
    (chain op first second more).DividendsEnclosed
      ↔ (∀ x ∈ first :: second :: more, x.DividendsEnclosed) ∧ (op.clings → first.isOpen = false) := by
  constructor
  · rintro ⟨below, bare⟩
    exact ⟨below, bare op first second more rfl⟩
  · rintro ⟨enclosed, bare⟩
    refine .intro enclosed ?_
    intro _ _ _ _ same
    cases same
    exact bare

variable {declarations : NameTable Datatype} {e x : Expr}

theorem Multiplicative.operands (h : e.Multiplicative declarations) (mem : x ∈ e.operands) :
    x.Multiplicative declarations := by
  cases h with
  | name => cases mem
  | paren inner => exact List.mem_singleton.mp mem ▸ inner
  | chain _ all => exact all x mem

theorem Multiplicative.formula (h : e.Multiplicative declarations) : e.Formula := by
  induction h with
  | name => exact .name _
  | paren _ ih => exact .operator rfl (List.forall_mem_singleton.mpr ih)
  | @chain op _ _ _ _ _ ih =>
    exact .operator (Category.isOperator_of_isChained op.isChained_category) ih

end Expr

/-! ## One step -/

namespace Emission

variable {op : ChainOp} {q o : Emission}

theorem closed_enclosed (q : Emission) : q.enclosed.Closed where
  level := rfl
  ends := by
    rw [enclosed, Assembly.spelled]
    exact Cpp.endsInNumber_close _

theorem closed_transposedText (e : Assembly) (c : StorageClass) :
    (Emission.mk (transposedText e) c).Closed where
  level := rfl
  ends := by
    rw [Rule.spelled_transposedText, show "()" = "(" ++ ")" from rfl, ← String.append_assoc]
    exact Cpp.endsInNumber_close _

theorem closed_call (f : Callee) (items : List Assembly) (c : StorageClass) :
    (Emission.mk (call f items) c).Closed where
  level := rfl
  ends := by
    rw [Assembly.spelled]
    exact Cpp.endsInNumber_close _

/-- What solves a system is a call or a transpose. -/
theorem closed_emit (solves : op.solves) (q o : Emission) : (op.emit q o).Closed := by
  cases op <;> first | cases solves; done | skip
  case rightDiv => exact closed_transposedText _ _
  case leftDiv => exact closed_call _ _ _

/-- Products and quotients of elements are left open. -/
theorem level_emit (level : op.level = 7) (solves : op.solves = false) (q o : Emission) :
    (op.emit q o).assembly.level = 7 := by
  cases op <;> first | cases level; done | cases solves; done | skip
  all_goals rfl

/-- What parentheses keep, stays the same. -/
theorem later_eq {B : Type} {f : Emission → B} (same : ∀ q : Emission, f q.enclosed = f q)
    (op : ChainOp) (q : Emission) : f (op.later q) = f q := by
  unfold ChainOp.later
  split
  · exact same q
  · rfl

theorem closed_later (clings : op.clings) (q o : Emission) : (op.later (op.emit q o)).Closed := by
  unfold ChainOp.later
  split
  · exact closed_enclosed _
  case isFalse other =>
    refine closed_emit ?_ q o
    cases op <;> first | rfl | cases clings; done | exact absurd rfl other

/-- A factor is tighter than what stands in front of it. -/
theorem fits_factor {op : Operator} (factor : op = .mul ∨ op = .mod ∨ op = .div)
    {left right : Assembly} : (binary op false left right).Fits
      ↔ 7 ≤ left.level ∧ 7 < right.level ∧ left.Fits ∧ right.Fits := by
  have level : op.level = 7 := by rcases factor with rfl | rfl | rfl <;> rfl
  have apart : op.fusesWith right.spelled = false := by
    refine Operator.fusesWith_eq_false ?_ ?_ _ <;> (rintro rfl; cases level)
  rw [Assembly.Fits, level, apart]
  simp

theorem fits_ratio {wide : Bool} {left right : Assembly} : (ratio wide left right).Fits
    ↔ 7 ≤ left.level ∧ 7 < right.level ∧ left.Fits ∧ right.Fits := by
  rw [ratio, fits_factor (by simp)]
  cases wide with
  | false => rfl
  | true =>
    have one : 7 < (whole "1.0").level ∧ (whole "1.0").Fits := by decide
    have level : (binary .mul false left (whole "1.0")).level = 7 := rfl
    rw [if_pos rfl, fits_factor (by simp), level]
    simp only [one, le_refl, true_and, and_true]
    rw [and_assoc, and_left_comm]

theorem fits_transposedText {e : Assembly} : (transposedText e).Fits
    ↔ (e.level = 9 ∧ Cpp.endsInNumber e.spelled = false) ∧ e.Fits := by
  rw [transposedText, Assembly.Fits, Assembly.Fits, Assembly.FitsAll, and_true, and_assoc]
  exact ⟨fun ⟨_, fits⟩ => fits, fun fits => ⟨rfl, fits⟩⟩

theorem closed_iff : q.Closed ↔ q.assembly.level = 9 ∧ Cpp.endsInNumber q.assembly.spelled = false :=
  ⟨fun ⟨level, ends⟩ => ⟨level, ends⟩, fun ⟨level, ends⟩ => ⟨level, ends⟩⟩

/-- A closed operand behind those so far fits, if these are closed where something clings to them. -/
theorem fits_emit (level : op.level = 7) (start : q.assembly.level = 7 ∨ q.Closed) (closed : o.Closed) :
    (op.emit q o).assembly.Fits
      ↔ q.assembly.Fits ∧ o.assembly.Fits ∧ (op.clings → q.Closed) := by
  have nine : ∀ {q : Emission}, q.Closed → 7 < q.assembly.level := fun closed => by
    rw [closed.level]
    decide
  have loose : 7 ≤ q.assembly.level := start.elim (·.ge) fun closed => (nine closed).le
  have tighter : 7 < q.assembly.level ↔ q.Closed :=
    ⟨fun lt => start.resolve_left fun eq => Nat.lt_irrefl 7 (eq ▸ lt), nine⟩
  show (op.assembled q o).Fits ↔ _
  cases op <;> first | cases level; done | skip
  case mul | elMul =>
    rw [ChainOp.assembled, fits_factor (by simp)]
    simp [loose, nine closed, ChainOp.clings]
  case elRightDiv =>
    rw [ChainOp.assembled, fits_ratio]
    simp [loose, nine closed, ChainOp.clings]
  case leftDiv =>
    rw [ChainOp.assembled, Assembly.Fits, Assembly.FitsAll, Assembly.FitsAll, Assembly.FitsAll]
    simp [ChainOp.clings]
  case rightDiv =>
    have level : ∀ items, (call solver items).level = 9 := fun _ => rfl
    rw [ChainOp.assembled, fits_transposedText, Assembly.Fits, Assembly.FitsAll, Assembly.FitsAll,
      Assembly.FitsAll, fits_transposedText, fits_transposedText, ← closed_iff, ← closed_iff]
    simp [level, closed, (closed_call solver _ .float).ends, ChainOp.clings, and_assoc, and_comm,
      and_left_comm]
  case elLeftDiv =>
    rw [ChainOp.assembled, fits_ratio, tighter, closed.level]
    simp [ChainOp.clings, and_comm, and_left_comm]

/-! ## Chains -/

section Chains

variable {first second : Emission} {more : List Emission}

theorem open_or_closed_later (level : op.level = 7) (q o : Emission) :
    (op.later (op.emit q o)).assembly.level = 7 ∨ (op.later (op.emit q o)).Closed := by
  unfold ChainOp.later
  split
  · exact .inr (closed_enclosed _)
  · cases solves : op.solves with
    | true => exact .inr (closed_emit solves q o)
    | false => exact .inl (level_emit level solves q o)

/-- A chain starts and goes on with steps. -/
theorem exists_emit_eq (op : ChainOp) (first second : Emission) (more : List Emission) :
    ∃ q o, op.emitChain first second more = op.emit q o := by
  unfold ChainOp.emitChain
  induction more generalizing first second with
  | nil => exact ⟨first, second, rfl⟩
  | cons x more ih => exact ih (op.later (op.emit first second)) x

/-- Closed operands behind the first one fit, if that is closed where something clings to it. -/
theorem fits_emitChain (level : op.level = 7) (start : first.assembly.level = 7 ∨ first.Closed)
    (closed : ∀ o ∈ second :: more, o.Closed) :
    (op.emitChain first second more).assembly.Fits
      ↔ (∀ o ∈ first :: second :: more, o.assembly.Fits) ∧ (op.clings → first.Closed) := by
  unfold ChainOp.emitChain
  induction more generalizing first second with
  | nil =>
    rw [List.foldl_nil, fits_emit level start (closed second List.mem_cons_self)]
    simp [and_assoc]
  | cons x more ih =>
    obtain ⟨here, there⟩ := List.forall_mem_cons.mp closed
    have kept : (op.later (op.emit first second)).assembly.Fits = (op.emit first second).assembly.Fits :=
      later_eq (f := (·.assembly.Fits)) (fun q => by rw [enclosed, Assembly.Fits]) op _
    have clings : op.clings → (op.later (op.emit first second)).Closed := fun clings =>
      closed_later clings first second
    rw [List.foldl_cons, ih (open_or_closed_later level first second) there]
    simp only [List.forall_mem_cons, kept, fits_emit level start here]
    constructor
    · rintro ⟨⟨⟨fits, fits', closed⟩, rest⟩, -⟩
      exact ⟨⟨fits, fits', rest⟩, closed⟩
    · rintro ⟨⟨fits, fits', rest⟩, closed⟩
      exact ⟨⟨⟨fits, fits', closed⟩, rest⟩, clings⟩

end Chains

end Emission

namespace Expr

variable {declarations : NameTable Datatype} {e : Expr}

theorem emission_name (x : String) : (name x).emission declarations
    = ⟨whole x, ((declarations.get? x).map Datatype.cls).getD .unresolved⟩ := rfl

theorem emission_paren (e : Expr) :
    (paren e).emission declarations = (e.emission declarations).enclosed := rfl

theorem emission_chain (declarations : NameTable Datatype) (op : ChainOp) (first second : Expr)
    (more : List Expr) : (chain op first second more).emission declarations
      = op.emitChain (first.emission declarations) (second.emission declarations)
        (more.map (emission declarations)) := by
  rw [← emissions_eq]
  rfl

/-- The text is closed, or open behind a product or a quotient of elements. -/
theorem closed_emission (h : e.Multiplicative declarations) (canonical : e.Canonical) :
    if e.isOpen then (e.emission declarations).assembly.level = 7
      else (e.emission declarations).Closed := by
  cases h with
  | @name x c =>
    cases canonical with
    | name name =>
      rw [emission_name]
      exact ⟨Assembly.level_name name, Cpp.endsInNumber_name name⟩
  | paren =>
    rw [emission_paren]
    exact Emission.closed_enclosed _
  | @chain op first second more level =>
    obtain ⟨q, o, same⟩ := Emission.exists_emit_eq op (first.emission declarations)
      (second.emission declarations) (more.map (emission declarations))
    rw [emission_chain, same, isOpen]
    cases solves : op.solves with
    | true => exact Emission.closed_emit solves q o
    | false => exact Emission.level_emit level solves q o

theorem closed_iff_isOpen (h : e.Multiplicative declarations) (canonical : e.Canonical) :
    (e.emission declarations).Closed ↔ e.isOpen = false := by
  have all := closed_emission h canonical
  cases bare : e.isOpen with
  | false => simpa [bare] using all
  | true =>
    rw [bare, if_pos rfl] at all
    exact iff_of_false (fun closed => absurd (closed.level.symm.trans all) (by decide)) nofun

/-- An operand that is tighter than products is no chain of them. -/
theorem closed_of_takes (h : e.Multiplicative declarations) (canonical : e.Canonical)
    (tight : 7 < e.level) : (e.emission declarations).Closed := by
  rw [closed_iff_isOpen h canonical]
  cases h with
  | chain level => exact absurd tight (by simp [level, Expr.level])
  | _ => rfl

theorem closed_operands {op : ChainOp} {second : Expr} {more : List Expr} (level : op.level = 7)
    (all : ∀ x ∈ second :: more, x.Multiplicative declarations)
    (canonical : ∀ x ∈ second :: more, x.Canonical) (takes : ∀ x ∈ second :: more, op.Takes x) :
    ∀ o ∈ (second :: more).map (emission declarations), o.Closed := by
  refine List.forall_mem_map.mpr fun x mem => closed_of_takes (all x mem) (canonical x mem) ?_
  have tight := takes x mem
  rwa [ChainOp.Takes, if_neg (by rw [level]; decide), level] at tight

/-- A text is read as it is put together exactly if no product and no quotient of elements is the
bare first operand of `/` or `.\`. -/
theorem fits_emission_iff (h : e.Multiplicative declarations) (canonical : e.Canonical) :
    (e.emission declarations).assembly.Fits ↔ e.DividendsEnclosed := by
  induction h with
  | @name x =>
    cases canonical with
    | name name =>
      rw [emission_name]
      exact iff_of_true (Assembly.fits_name name) (dividendsEnclosed_name x)
  | paren _ ih =>
    cases canonical with
    | paren inner =>
      rw [emission_paren, Emission.enclosed, Assembly.Fits, ih inner, dividendsEnclosed_paren]
  | @chain op first second more level all ih =>
    cases canonical with
    | chain start low _ others takes =>
      have canonical : ∀ x ∈ first :: second :: more, x.Canonical :=
        List.forall_mem_cons.mpr ⟨start, others⟩
      obtain ⟨here, there⟩ := List.forall_mem_cons.mp all
      have closed := closed_operands level there others takes
      have front : (first.emission declarations).assembly.level = 7
          ∨ (first.emission declarations).Closed := by
        have either := closed_emission here start
        split at either
        · exact .inl either
        · exact .inr either
      rw [emission_chain, Emission.fits_emitChain level front closed, dividendsEnclosed_chain,
        closed_iff_isOpen here start, ← List.map_cons, ← List.map_cons, List.forall_mem_map]
      exact and_congr_left fun _ => forall₂_congr fun x mem => ih x mem (canonical x mem)

end Expr

/-! ## Texts and types -/

namespace Emission

variable {op : ChainOp} {first second : Emission} {more : List Emission}

/-- Type of the value. -/
def datatype (q : Emission) : Datatype := ⟨.matrix, q.cls⟩

theorem no_newline_emit {q o : Emission} (start : '\n' ∉ q.assembly.spelled.toList)
    (here : '\n' ∉ o.assembly.spelled.toList) :
    '\n' ∉ (op.emit q o).assembly.spelled.toList := by
  show '\n' ∉ (op.assembled q o).spelled.toList
  have divided : ∀ wide {a b : Assembly}, '\n' ∉ a.spelled.toList → '\n' ∉ b.spelled.toList →
      '\n' ∉ (ratio wide a b).spelled.toList := by
    intro wide a b ha hb
    rw [Rule.spelled_ratio]
    split <;> simp [ha, hb]
  unfold ChainOp.assembled
  split
  case h_5 => exact divided _ start here
  case h_6 => exact divided _ here start
  all_goals
    simp [transposedText, solver, Assembly.spelled, Assembly.spelledAll, Cpp.call, Cpp.arguments,
      Text.joined, Operator.symbol, start, here]

theorem no_newline_emitChain (all : ∀ o ∈ first :: second :: more, '\n' ∉ o.assembly.spelled.toList) :
    '\n' ∉ (op.emitChain first second more).assembly.spelled.toList := by
  unfold ChainOp.emitChain
  induction more generalizing first second with
  | nil => exact no_newline_emit (all first (by simp)) (all second (by simp))
  | cons x more ih =>
    have step : '\n' ∉ (op.emit first second).assembly.spelled.toList :=
      no_newline_emit (all first (by simp)) (all second (by simp))
    have kept : ('\n' ∉ (op.later (op.emit first second)).assembly.spelled.toList)
        = ('\n' ∉ (op.emit first second).assembly.spelled.toList) :=
      later_eq (f := ('\n' ∉ ·.assembly.spelled.toList))
        (fun q => by simp [enclosed, Assembly.spelled]) op _
    refine ih (List.forall_mem_cons.mpr ⟨kept ▸ step, fun o mem => all o ?_⟩)
    exact List.mem_cons_of_mem _ (List.mem_cons_of_mem _ mem)

/-- Products and quotients of matrices are matrices. -/
theorem ofTwo_datatype (level : op.level = 7) (q o : Emission) :
    op.category.ofTwo q.datatype o.datatype = (op.emit q o).datatype := by
  cases op <;> first | cases level; done | rfl

theorem ofChain_datatype (level : op.level = 7) :
    op.category.ofChain ((first :: second :: more).map datatype)
      = (op.emitChain first second more).datatype := by
  show (more.map datatype).foldl op.category.ofTwo (op.category.ofTwo first.datatype second.datatype) = _
  unfold ChainOp.emitChain
  rw [ofTwo_datatype level]
  induction more generalizing first second with
  | nil => rfl
  | cons x more ih =>
    have kept : (op.later (op.emit first second)).datatype = (op.emit first second).datatype :=
      later_eq (fun _ => rfl) op _
    rw [List.map_cons, List.foldl_cons, List.foldl_cons, ← kept, ofTwo_datatype level, ih]

end Emission

namespace Expr

variable {declarations : NameTable Datatype} {e : Expr}

theorem no_newline_emission (h : e.Multiplicative declarations) (canonical : e.Canonical) :
    '\n' ∉ (e.emission declarations).assembly.spelled.toList := by
  induction h with
  | name =>
    cases canonical with
    | name name =>
      rw [emission_name, Assembly.spelled]
      exact Cpp.no_newline_of_isName name
  | paren _ ih =>
    cases canonical with
    | paren inner =>
      rw [emission_paren, Emission.enclosed, Assembly.spelled]
      simpa using ih inner
  | @chain op first second more _ all ih =>
    cases canonical with
    | chain start _ _ others _ =>
      rw [emission_chain]
      refine Emission.no_newline_emitChain ?_
      rw [← List.map_cons, ← List.map_cons]
      exact List.forall_mem_map.mpr fun x mem =>
        ih x mem (List.forall_mem_cons.mpr ⟨start, others⟩ x mem)

/-- The value is a numeric matrix. -/
theorem isNumeric_emission (h : e.Multiplicative declarations) :
    (e.emission declarations).datatype.isNumeric := by
  induction h with
  | @name x c _ declared numeric =>
    rw [emission_name, declared]
    exact Datatype.isNumeric_iff.mpr ⟨nofun, numeric⟩
  | paren _ ih =>
    rw [emission_paren]
    exact ih
  | @chain op first second more level _ ih =>
    rw [emission_chain, ← Emission.ofChain_datatype level]
    refine Category.isNumeric_ofChain (List.cons_ne_nil _ _) ?_
    rw [← List.map_cons, ← List.map_cons, List.map_map]
    exact List.forall_mem_map.mpr ih

end Expr

/-! ## Values -/

section Values

variable {K : Type} [Field K]

/-- Value of an operator on matrices. -/
noncomputable def ChainOp.onMatrices : ChainOp → Mat K → Mat K → Option (Mat K)
  | .mul => Mat.product
  | .elMul => Mat.entrywise (· * ·)
  | .rightDiv => Mat.divide
  | .leftDiv => Mat.solve
  | .elRightDiv => Mat.entrywise (· / ·)
  | .elLeftDiv => fun a b => b.entrywise (· / ·) a
  | _ => fun _ _ => none

mutual

/-- Value of an expression of matrices; a chain is taken from the left. -/
noncomputable def Expr.matrixValue (env : String → Option (Mat K)) : Expr → Option (Mat K)
  | .name x => env x
  | .paren e => e.matrixValue env
  | .chain op first second more =>
      (Expr.matrixValues env more).foldl (Mat.both op.onMatrices)
        (Mat.both op.onMatrices (first.matrixValue env) (second.matrixValue env))
  | _ => none

noncomputable def Expr.matrixValues (env : String → Option (Mat K)) : List Expr → List (Option (Mat K))
  | [] => []
  | e :: es => e.matrixValue env :: Expr.matrixValues env es

end

theorem Expr.matrixValues_eq (env : String → Option (Mat K)) (es : List Expr) :
    Expr.matrixValues env es = es.map (Expr.matrixValue env) := by
  induction es with
  | nil => rfl
  | cons e es ih => exact congrArg (e.matrixValue env :: ·) ih

theorem Expr.matrixValue_chain (env : String → Option (Mat K)) (op : ChainOp) (first second : Expr)
    (more : List Expr) : (chain op first second more).matrixValue env
      = (more.map (matrixValue env)).foldl (Mat.both op.onMatrices)
        (Mat.both op.onMatrices (first.matrixValue env) (second.matrixValue env)) := by
  rw [← matrixValues_eq]
  rfl

namespace Emission

variable {env : String → Option (Mat K)} {op : ChainOp} {q o : Emission}

theorem matrixValue_transposedText (e : Assembly) :
    (transposedText e).matrixValue env = (e.matrixValue env).map Mat.transpose := if_pos rfl

theorem matrixValue_solver (p q : Assembly) :
    (call solver [p, q]).matrixValue env = Mat.both Mat.solve (p.matrixValue env) (q.matrixValue env) :=
  rfl

theorem matrixValue_ratio (wide : Bool) (left right : Assembly) : (ratio wide left right).matrixValue env
    = Mat.both (Mat.entrywise (· / ·)) (left.matrixValue env) (right.matrixValue env) := by
  have other : ¬(Operator.div = .mul ∧ right.spelled = "1.0") := fun both => by cases both.1
  rw [ratio, Assembly.matrixValue_binary other]
  cases wide with
  | false => rfl
  | true =>
    rw [if_pos rfl, Assembly.matrixValue_one rfl]
    rfl

theorem Closed.ne_one (closed : o.Closed) : o.assembly.spelled ≠ "1.0" := by
  intro same
  have ends := closed.ends
  rw [same] at ends
  exact absurd ends (by decide)

/-- One more operand has the value of the operator. -/
theorem matrixValue_emit (level : op.level = 7) (closed : o.Closed) : (op.emit q o).assembly.matrixValue env
    = Mat.both op.onMatrices (q.assembly.matrixValue env) (o.assembly.matrixValue env) := by
  show (op.assembled q o).matrixValue env = _
  cases op <;> first | cases level; done | skip
  case mul => exact Assembly.matrixValue_binary fun both => closed.ne_one both.2
  case elMul => exact Assembly.matrixValue_binary fun both => nomatch both.1
  case rightDiv =>
    rw [ChainOp.assembled, matrixValue_transposedText, matrixValue_solver, matrixValue_transposedText,
      matrixValue_transposedText, Mat.both_solve_transpose]
    rfl
  case leftDiv =>
    rw [ChainOp.assembled, matrixValue_solver]
    rfl
  case elRightDiv =>
    rw [ChainOp.assembled, matrixValue_ratio]
    rfl
  case elLeftDiv =>
    rw [ChainOp.assembled, matrixValue_ratio]
    cases q.assembly.matrixValue env <;> cases o.assembly.matrixValue env <;> rfl

theorem matrixValue_emitChain (level : op.level = 7) {first second : Emission} {more : List Emission}
    (closed : ∀ o ∈ second :: more, o.Closed) :
    (op.emitChain first second more).assembly.matrixValue env
      = (more.map fun o => o.assembly.matrixValue env).foldl (Mat.both op.onMatrices)
        (Mat.both op.onMatrices (first.assembly.matrixValue env) (second.assembly.matrixValue env)) := by
  unfold ChainOp.emitChain
  induction more generalizing first second with
  | nil => exact matrixValue_emit level (closed second List.mem_cons_self)
  | cons x more ih =>
    obtain ⟨here, there⟩ := List.forall_mem_cons.mp closed
    have kept : (op.later (op.emit first second)).assembly.matrixValue env
        = (op.emit first second).assembly.matrixValue env :=
      later_eq (f := (·.assembly.matrixValue env)) (fun q => Assembly.matrixValue_parens q.assembly) op _
    rw [List.foldl_cons, ih there, kept, matrixValue_emit level here, List.map_cons, List.foldl_cons]

end Emission

namespace Expr

variable {declarations : NameTable Datatype} {e : Expr}

/-- What an expression is put together to is worth the expression. -/
theorem matrixValue_emission (h : e.Multiplicative declarations) (canonical : e.Canonical)
    (env : String → Option (Mat K)) : (e.emission declarations).assembly.matrixValue env = e.matrixValue env := by
  induction h with
  | name => rfl
  | paren _ ih =>
    cases canonical with
    | paren inner =>
      rw [emission_paren, Emission.enclosed, Assembly.matrixValue_parens]
      exact ih inner
  | @chain op first second more level all ih =>
    cases canonical with
    | chain start low _ others takes =>
      have canonical : ∀ x ∈ first :: second :: more, x.Canonical :=
        List.forall_mem_cons.mpr ⟨start, others⟩
      have closed := closed_operands level (List.forall_mem_cons.mp all).2 others takes
      have values : (more.map (emission declarations)).map (fun o => o.assembly.matrixValue env)
          = more.map (matrixValue env) := by
        rw [List.map_map]
        exact List.map_congr_left fun x mem => ih x (by simp [mem]) (canonical x (by simp [mem]))
      rw [emission_chain, Emission.matrixValue_emitChain level closed, values,
        ih first (by simp) start, ih second (by simp) (others second (by simp)), matrixValue_chain]

end Expr

end Values

end MatrixScript
