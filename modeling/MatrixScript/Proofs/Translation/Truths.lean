/-
# `Proofs.Translation.Truths` — quotients of truth values

Scalar expressions with comparisons, logic and negations are translated as `Expr.part` puts them
together (`Resolving.delivers_part`).  In C++ a truth value is an integer, but the translation
infers the class of what is compared for it: so `(a < b)/c` of two floating-point numbers and an
integer is not widened and C++ cuts it.  No quotient is cut exactly if every division keeps the
fraction (`truths_of_translateWith`).
-/
import MatrixScript.Proofs.Program.Alike
import MatrixScript.Proofs.Rule.Truths
import MatrixScript.Proofs.Translation.Logical

namespace MatrixScript

open Cpp (Assembly)
open Cpp.Assembly (whole parens negated binary)

namespace Rule

/-- The node has this type and this text. -/
def EmittedPart (declarations : NameTable Datatype) (e : Expr) (typing : Typing) (text : String) : Prop :=
  text = (e.part declarations).assembly.spelled ∧ typing = .of (e.part declarations).datatype

variable {declarations : NameTable Datatype} {s : Site} {o : Outcome} {e : Expr}

theorem tells_of_shows (h : e.Truthful declarations) {x : Operand}
    (shows : x.Shows (EmittedPart declarations) e) : x.Tells (e.part declarations) := by
  refine ⟨shows.holds.1, shows.holds.2, ?_⟩
  rw [shows.category, Expr.literal_part h]
  cases h with
  | @sign op => cases op <;> rfl
  | @chain op => cases op <;> rfl
  | @compare op => cases op <;> rfl
  | _ => rfl

/-- The rule of an operator writes what the operands are put together to. -/
theorem emitted_part (seeded : s.Seeded) (h : e.Truthful declarations)
    (operator : e.category.isOperator) (category : s.node.category = e.category)
    (shows : List.Forall₂ (Operand.Shows (EmittedPart declarations)) s.operands e.operands)
    (ok : select s.tree s.node s = .ok o) : EmittedPart declarations e o.typing (s.written o) := by
  have tells : List.Forall₂ Operand.Tells s.operands (e.operands.map (Expr.part declarations)) := by
    refine List.forall₂_map_right_iff.mpr (List.forall₂_iff_zip.mpr ⟨shows.length_eq, fun mem => ?_⟩)
    exact tells_of_shows (h.operands (List.of_mem_zip mem).2) (List.forall₂_zip shows mem)
  have real : ∀ q ∈ e.operands.map (Expr.part declarations), q.cls.isReal :=
    List.forall_mem_map.mpr fun x mem => Expr.isReal_part (h.operands mem)
  have numbers := numbers_of_tells tells real
  have types : s.types = (e.operands.map (Expr.part declarations)).map Part.datatype :=
    types_of_tells tells
  have operator' : s.node.category.isOperator := category ▸ operator
  cases h with
  | name | int | float => cases operator
  | @paren e _ =>
    obtain ⟨x, xs, here, none, operands⟩ := List.forall₂_cons_right_iff.mp tells
    have typing := typing_of_kept seeded operator' (.inl (by rw [category, Expr.category]; decide)) numbers ok
    rw [EmittedPart, Expr.part, (writes_paren category operands).written ok, typing, types, here.text]
    exact ⟨by rw [Part.enclosed, Assembly.spelled], rfl⟩
  | @sign op e _ =>
    obtain ⟨x, xs, here, none, operands⟩ := List.forall₂_cons_right_iff.mp tells
    obtain rfl := List.forall₂_nil_right_iff.mp none
    have typing := typing_of_kept seeded operator'
      (.inl (by rw [category, Expr.category]; cases op <;> decide)) numbers ok
    cases op with
    | neg =>
      rw [EmittedPart, Expr.part, (writes_neg category operands).written ok, typing, types, here.text]
      refine ⟨?_, rfl⟩
      rw [Assembly.spelled, Assembly.spelled, ← String.append_assoc, ← String.append_assoc]
      rfl
    | not =>
      have counts : s.seed.numeric := by
        rw [seed_of_numbers seeded operator' numbers, types]
        exact StorageClass.isNumeric_of_isReal (real _ List.mem_cons_self)
      rw [EmittedPart, Expr.part, (writes_not category operands counts).written ok, typing, types]
      refine ⟨?_, rfl⟩
      simp only [Assembly.spelled, here.text]
  | @chain op first second more all =>
    rw [EmittedPart, Expr.part_chain]
    exact written_parts seeded category tells real ok
  | @compare op left right _ _ =>
    obtain ⟨x, xs, here, others, operands⟩ := List.forall₂_cons_right_iff.mp tells
    obtain ⟨y, ys, next, none, rfl⟩ := List.forall₂_cons_right_iff.mp others
    obtain rfl := List.forall₂_nil_right_iff.mp none
    have typing := typing_of_kept seeded operator'
      (.inr (by rw [category]; cases op <;> rfl)) numbers ok
    have writes := writes_operation operands (operation?_of_comparison category x [y])
    rw [EmittedPart, Expr.part, writes.written ok, typing, types]
    refine ⟨?_, rfl⟩
    show (binary op.operator false (whole x.text) (whole y.text)).spelled = _
    rw [Assembly.spelled, Assembly.spelled, Assembly.spelled, Assembly.spelled, here.text, next.text]

end Rule

namespace Resolving

variable {t : Tree} {id : NodeId} {e : Expr} {depth : Nat} {config : Config}

/-- Wherever such an expression stands, it is resolved to what it is put together to. -/
theorem delivers_part (wf : t.WellFormed) (bears : t.Bears id e) (h : e.Truthful config.declarations)
    (enough : Enough t depth id) :
    Delivers t config id (Rule.EmittedPart config.declarations e) (resolveWithin depth id) := by
  refine delivers_of_bears wf (F := Expr.Truthful config.declarations)
    (P := Rule.EmittedPart config.declarations) (fun h mem => h.operands mem) (fun h => ?_) (fun h => ?_)
    (fun h operator category seeded shows ok => Rule.emitted_part seeded h operator category shows ok)
    bears h enough
  · cases h with
    | name free declared =>
      refine ⟨free, fun typing types => ?_⟩
      rw [Rule.EmittedPart, Expr.part, Assembly.spelled, declared]
      exact ⟨rfl, types _ declared⟩
  · cases h with
    | int | float =>
      rw [Rule.EmittedPart, Expr.part, Assembly.spelled]
      exact ⟨rfl, rfl⟩

end Resolving

/-- Such texts stand on one line. -/
theorem Cpp.Assembly.Scalar.no_newline {e : Assembly} (h : e.Scalar) : '\n' ∉ e.spelled.toList := by
  induction h with
  | name name =>
    rw [Assembly.spelled]
    exact Cpp.no_newline_of_isName name
  | numeral number real =>
    rw [Assembly.spelled]
    exact Cpp.no_newline_of_numeral number real
  | parens _ ih =>
    rw [Assembly.spelled]
    simpa using ih
  | negated _ ih =>
    rw [Assembly.spelled]
    simpa using ih
  | @power f items name _ ih =>
    rw [Assembly.spelled, Assembly.spelledAll_eq, Cpp.call, name]
    have items : '\n' ∉ (Text.joined ", " (items.map Assembly.spelled)).toList := by
      refine fun mem => (Text.mem_joined mem).elim (by decide) ?_
      rintro ⟨a, there, mem⟩
      obtain ⟨x, here, rfl⟩ := List.mem_map.mp there
      exact ih x here mem
    simpa using items
  | @binary op spaced left right _ _ ihl ihr =>
    have symbol : '\n' ∉ op.symbol.toList := by cases op <;> decide
    cases spaced <;> (rw [Assembly.spelled]; simp [ihl, ihr, symbol])

/-- Translating an assignment of real scalars with signs, comparisons, logic and other operators
emits one assignment, and its right side is how the expression is put together.  C++ reads the
text so exactly if nothing in the expression needs parentheses that are not there; then some
quotient in it is cut to an integer exactly if some division does not keep the fraction of its
first two operands. -/
theorem truths_of_translateWith {source y : String} {e : Expr} {config : Config}
    (parses : Program.parse source = .ok [.statement (.assign (.variable y) e)])
    (free : Builtin.isReserved y = false) (h : e.Truthful config.declarations)
    (valid : config.validate = .ok config) :
    ∃ translation, translateWith source config = .ok translation
      ∧ translation.statements
        = [y ++ " = " ++ (e.part config.declarations).assembly.spelled ++ " ;"]
      ∧ ((e.part config.declarations).assembly.Read ↔ e.Alike)
      ∧ (e.Alike →
        (Cpp.Cuts (isFloatingIn config.declarations) (e.part config.declarations).assembly.spelled
          ↔ ¬e.KeepsFractions config.declarations)) := by
  obtain ⟨-, canonical⟩ : isName y ∧ e.Canonical := Program.accepted_of_parse parses _ List.mem_cons_self
  have scalar := (Expr.spelled_part h canonical).scalar
  obtain ⟨translation, text, answer, statements, rfl⟩ :=
    translateWith_of_delivers (P := (· = (e.part config.declarations).assembly.spelled)) parses free
      (Tree.numbered_of_formula h.formula)
      (fun t id depth wf bears enough =>
        (Resolving.delivers_part wf bears h enough).imp fun _ _ emitted => emitted.1)
      (fun text eq => eq ▸ scalar.no_newline) valid
  have alike : (e.part config.declarations).assembly.Read ↔ e.Alike := by
    rw [Assembly.read_iff_fits, Expr.fits_part_iff h canonical]
  refine ⟨translation, answer, statements, alike, fun same => ?_⟩
  rw [Assembly.cuts_iff scalar (alike.mpr same), (Expr.part_iff h canonical).1]

section Instances

/-- Three numbers of floating point and an integer. -/
def threeDoubles : Config :=
  { declarations := ⟨[("a", .scalar .float), ("b", .scalar .float), ("x", .scalar .float),
    ("c", .scalar .int)]⟩ }

theorem truthful_double {x : String} (mem : x ∈ ["a", "b", "x"]) :
    Expr.Truthful threeDoubles.declarations (.name x) := by
  simp only [List.mem_cons, List.not_mem_nil, or_false] at mem
  rcases mem with rfl | rfl | rfl <;> exact .name (c := .float) (by decide) rfl rfl

theorem truthful_int : Expr.Truthful threeDoubles.declarations (.name "c") :=
  .name (c := .int) (by decide) rfl rfl

theorem truthful_less : Expr.Truthful threeDoubles.declarations
    (.paren (.compare .lt (.name "a") (.name "b"))) :=
  .paren (.compare (truthful_double (by decide)) (truthful_double (by decide)))

/-- A comparison of floating-point numbers is divided by one, and the negation of an integer by a
literal. -/
theorem truths_of_translateWith_kept : ∃ e translation,
    Program.parse "y = (a < b)/x + ~c/2" = .ok [.statement (.assign (.variable "y") e)]
      ∧ e.Truthful threeDoubles.declarations ∧ e.Alike ∧ e.KeepsFractions threeDoubles.declarations
      ∧ translateWith "y = (a < b)/x + ~c/2" threeDoubles = .ok translation
      ∧ translation.statements
        = ["y" ++ " = " ++ (e.part threeDoubles.declarations).assembly.spelled ++ " ;"]
      ∧ (e.part threeDoubles.declarations).assembly.spelled = "(a<b)/x+(c == 0)/2.0"
      ∧ ¬Cpp.Cuts (isFloatingIn threeDoubles.declarations)
        (e.part threeDoubles.declarations).assembly.spelled := by
  let less : Expr := .chain .rightDiv (.paren (.compare .lt (.name "a") (.name "b"))) (.name "x") []
  let zero : Expr := .chain .rightDiv (.sign .not (.name "c")) (.literal .int "2") []
  have parses : Program.parse "y = (a < b)/x + ~c/2"
      = .ok [.statement (.assign (.variable "y") (.chain .add less zero []))] := by cbv
  have left : less.Truthful threeDoubles.declarations :=
    .chain (by simp [truthful_less, truthful_double])
  have right : zero.Truthful threeDoubles.declarations :=
    .chain (by simp [truthful_int.sign, Expr.Truthful.int])
  have truthful : Expr.Truthful threeDoubles.declarations (.chain .add less zero []) :=
    .chain (by simp [left, right])
  have kept : Expr.keepsFraction threeDoubles.declarations .rightDiv
        (.paren (.compare .lt (.name "a") (.name "b"))) (.name "x")
      ∧ Expr.keepsFraction threeDoubles.declarations .rightDiv (.sign .not (.name "c"))
        (.literal .int "2") := by decide +kernel
  have keeps : (Expr.chain .add less zero []).KeepsFractions threeDoubles.declarations := by
    simp [less, zero, kept, ChainOp.isDivision]
  have alike : (Expr.chain .add less zero []).Alike := by
    simp [less, zero, ChainOp.isLeftDivision, Comparison.isRelational, Expr.isEquality]
  obtain ⟨translation, answer, statements, -, cuts⟩ :=
    truths_of_translateWith parses (by decide) truthful rfl
  exact ⟨_, translation, parses, truthful, alike, keeps, answer, statements, by decide +kernel,
    fun cut => (cuts alike).mp cut keeps⟩

/-- A comparison of floating-point numbers is divided by an integer, and C++ cuts the quotient. -/
theorem not_truths_comparison : ∃ e translation,
    Program.parse "y = (a < b)/c" = .ok [.statement (.assign (.variable "y") e)]
      ∧ e.Truthful threeDoubles.declarations
      ∧ translateWith "y = (a < b)/c" threeDoubles = .ok translation
      ∧ translation.statements = ["y = (a<b)/c ;"]
      ∧ Cpp.Cuts (isFloatingIn threeDoubles.declarations) "(a<b)/c" := by
  let e : Expr := .chain .rightDiv (.paren (.compare .lt (.name "a") (.name "b"))) (.name "c") []
  have parses : Program.parse "y = (a < b)/c" = .ok [.statement (.assign (.variable "y") e)] := by cbv
  have truthful : e.Truthful threeDoubles.declarations :=
    .chain (by simp [truthful_less, truthful_int])
  have canonical : isName "y" ∧ e.Canonical := Program.accepted_of_parse parses _ List.mem_cons_self
  have scalar := (Expr.spelled_part truthful canonical.2).scalar
  have spelled : (e.part threeDoubles.declarations).assembly.spelled = "(a<b)/c" := by decide +kernel
  have emitted : (translateWith "y = (a < b)/c" threeDoubles).toOption.map (·.statements)
      = some ["y = (a<b)/c ;"] := by decide +kernel
  obtain ⟨translation, answer, statements⟩ : ∃ translation,
      translateWith "y = (a < b)/c" threeDoubles = .ok translation
        ∧ translation.statements = ["y = (a<b)/c ;"] := by
    cases answer : translateWith "y = (a < b)/c" threeDoubles with
    | error e =>
      rw [answer] at emitted
      cases emitted
    | ok translation =>
      rw [answer] at emitted
      exact ⟨translation, rfl, Option.some.inj emitted⟩
  refine ⟨e, translation, parses, truthful, answer, statements, ?_⟩
  rw [← spelled, Assembly.cuts_iff scalar (by decide +kernel)]
  decide +kernel

end Instances

end MatrixScript
