/-
# `Proofs.Translation.Quotients` — quotients of matrices keep their dividends

Of variables that are declared as numeric matrices, with parentheses, products and quotients, the
translation emits what `Expr.emission` puts together (`Resolving.delivers_emission`).  A structural
quotient solves a transposed system there, and is worth the dividend times the inverse of the
divisor.  C++ reads the text so exactly if no product and no quotient of elements is the bare
dividend of `/` or the bare divisor of `.\`; of the bare dividend only the last factor is
transposed (`quotients_of_translateWith`).
-/
import MatrixScript.Proofs.Rule.Quotients
import MatrixScript.Proofs.Translation.Formula

namespace MatrixScript

open Cpp (Assembly)

namespace Rule

variable {declarations : NameTable Datatype} {s : Site} {o : Outcome} {e : Expr}

/-- The node has this type and this text. -/
def Emitted (declarations : NameTable Datatype) (e : Expr) (typing : Typing) (text : String) : Prop :=
  text = (e.emission declarations).assembly.spelled ∧ typing = .of (e.emission declarations).datatype

theorem emits_of_shows (h : e.Multiplicative declarations) {x : Operand}
    (shows : x.Shows (Emitted declarations) e) : x.Emits (e.emission declarations) := by
  refine ⟨shows.holds.1, shows.holds.2, ?_⟩
  rw [shows.category]
  cases h with
  | @chain op => cases op <;> nofun
  | _ => nofun

/-- The rule of an operator writes what the operands are put together to. -/
theorem emitted_of_shows (seeded : s.Seeded) (h : e.Multiplicative declarations)
    (operator : e.category.isOperator) (category : s.node.category = e.category)
    (shows : List.Forall₂ (Operand.Shows (Emitted declarations)) s.operands e.operands)
    (ok : select s.tree s.node s = .ok o) : Emitted declarations e o.typing (s.written o) := by
  have emits : List.Forall₂ Operand.Emits s.operands (e.operands.map (Expr.emission declarations)) := by
    refine List.forall₂_map_right_iff.mpr (List.forall₂_iff_zip.mpr ⟨shows.length_eq, fun mem => ?_⟩)
    exact emits_of_shows (h.operands (List.of_mem_zip mem).2) (List.forall₂_zip shows mem)
  have numeric : ∀ q ∈ e.operands.map (Expr.emission declarations), q.datatype.isNumeric :=
    List.forall_mem_map.mpr fun x mem => Expr.isNumeric_emission (h.operands mem)
  cases h with
  | name => cases operator
  | @paren e inner =>
    obtain ⟨x, xs, here, none, operands⟩ := List.forall₂_cons_right_iff.mp emits
    have types : s.types = [(e.emission declarations).datatype] := types_of_emits emits
    have numbers : s.Numbers :=
      ⟨numeric_of_emits emits numeric, types ▸ List.forall_mem_singleton.mpr (Expr.isNumeric_emission inner)⟩
    obtain ⟨o', answer, typing⟩ := paren_infers seeded category numbers
    obtain rfl := Except.ok.inj (ok.symm.trans answer)
    rw [Emitted, Expr.emission, (writes_paren category operands).written ok, typing, types, here.text,
      Emission.enclosed, Assembly.spelled]
    exact ⟨rfl, rfl⟩
  | @chain op first second more level all =>
    rw [Emitted, Expr.emission_chain]
    exact written_emitChain seeded level category numeric emits ok

end Rule

namespace Resolving

variable {t : Tree} {id : NodeId} {e : Expr} {depth : Nat} {config : Config}

/-- Wherever such an expression stands, it is resolved to what it is put together to. -/
theorem delivers_emission (wf : t.WellFormed) (bears : t.Bears id e)
    (h : e.Multiplicative config.declarations) (enough : Enough t depth id) :
    Delivers t config id (Rule.Emitted config.declarations e) (resolveWithin depth id) := by
  refine delivers_of_bears wf (F := Expr.Multiplicative config.declarations)
    (P := Rule.Emitted config.declarations) (fun h mem => h.operands mem) (fun h => ?_) (fun h => ?_)
    (fun h operator category seeded shows ok =>
      Rule.emitted_of_shows seeded h operator category shows ok) bears h enough
  · cases h with
    | name free declared =>
      refine ⟨free, fun typing types => ?_⟩
      rw [Rule.Emitted, Expr.emission, Assembly.spelled, declared]
      exact ⟨rfl, types _ declared⟩
  · cases h

end Resolving

/-- Translating an assignment of variables that are declared as numeric matrices, with parentheses,
products and quotients, emits one assignment.  Its right side is the text of the chains in which
every `/` solves the transposed system and transposes back: as it is put together it is worth what
the expression is, where `/` multiplies with the inverse.  Read with the precedence of C++ it is
put together so exactly if nowhere a product or a quotient of elements is the bare first operand
of `/` or `.\`. -/
theorem quotients_of_translateWith {source y : String} {e : Expr} {config : Config}
    (parses : Program.parse source = .ok [.statement (.assign (.variable y) e)])
    (free : Builtin.isReserved y = false) (h : e.Multiplicative config.declarations)
    (valid : config.validate = .ok config) :
    ∃ translation, translateWith source config = .ok translation
      ∧ translation.statements
        = [y ++ " = " ++ (e.emission config.declarations).assembly.spelled ++ " ;"]
      ∧ ((e.emission config.declarations).assembly.Read ↔ e.DividendsEnclosed)
      ∧ ∀ {K : Type} [Field K] (env : String → Option (Mat K)),
        (e.emission config.declarations).assembly.matrixValue env = e.matrixValue env := by
  obtain ⟨-, canonical⟩ : isName y ∧ e.Canonical := Program.accepted_of_parse parses _ List.mem_cons_self
  obtain ⟨translation, text, answer, statements, rfl⟩ :=
    translateWith_of_delivers (P := (· = (e.emission config.declarations).assembly.spelled)) parses free
      (Tree.numbered_of_formula h.formula)
      (fun t id depth wf bears enough =>
        (Resolving.delivers_emission wf bears h enough).imp fun _ _ emitted => emitted.1)
      (fun text eq => eq ▸ Expr.no_newline_emission h canonical) valid
  refine ⟨translation, answer, statements, ?_, Expr.matrixValue_emission h canonical⟩
  rw [Assembly.read_iff_fits, Expr.fits_emission_iff h canonical]

/-- Three matrices of floating-point numbers. -/
def threeMatrices : Config :=
  { declarations := ⟨[("A", ⟨.matrix, .float⟩), ("B", ⟨.matrix, .float⟩), ("C", ⟨.matrix, .float⟩)]⟩ }

theorem multiplicative_name {x : String} (mem : x ∈ ["A", "B", "C"]) :
    (Expr.name x).Multiplicative threeMatrices.declarations := by
  have all : ∀ x ∈ ["A", "B", "C"], Builtin.isReserved x = false
      ∧ threeMatrices.declarations.get? x = some ⟨.matrix, .float⟩ := by decide
  exact .name (all x mem).1 (all x mem).2 rfl

theorem multiplicative_product :
    (Expr.chain .mul (.name "A") (.name "B") []).Multiplicative threeMatrices.declarations :=
  .chain rfl (by simp [multiplicative_name])

/-- A product in parentheses is divided as a whole, twice. -/
theorem quotients_of_translateWith_enclosed : ∃ e translation,
    Program.parse "y = (A*B)/C/A" = .ok [.statement (.assign (.variable "y") e)]
      ∧ translateWith "y = (A*B)/C/A" threeMatrices = .ok translation
      ∧ translation.statements
        = ["y" ++ " = " ++ (e.emission threeMatrices.declarations).assembly.spelled ++ " ;"]
      ∧ (e.emission threeMatrices.declarations).assembly.spelled
        = "arma::solve(A.t(), arma::solve(C.t(), (A*B).t()).t().t()).t()"
      ∧ (e.emission threeMatrices.declarations).assembly.Read
      ∧ ∀ env : String → Option (Mat ℚ),
        (e.emission threeMatrices.declarations).assembly.matrixValue env
          = Mat.both Mat.divide (Mat.both Mat.divide
            (Mat.both Mat.product (env "A") (env "B")) (env "C")) (env "A") := by
  have parses : Program.parse "y = (A*B)/C/A" = .ok [.statement (.assign (.variable "y")
      (.chain .rightDiv (.paren (.chain .mul (.name "A") (.name "B") [])) (.name "C") [.name "A"]))] := by
    cbv
  have h : (Expr.chain .rightDiv (.paren (.chain .mul (.name "A") (.name "B") [])) (.name "C")
      [.name "A"]).Multiplicative threeMatrices.declarations :=
    .chain rfl (by simp [multiplicative_name, multiplicative_product.paren])
  obtain ⟨translation, answer, statements, read, value⟩ :=
    quotients_of_translateWith parses (by decide) h rfl
  refine ⟨_, translation, parses, answer, statements, by decide, read.mpr (by simp [Expr.isOpen]),
    fun env => ?_⟩
  rw [value]
  simp only [Expr.matrixValue, Expr.matrixValues, List.foldl_nil, List.foldl_cons, ChainOp.onMatrices]

/-- A row, a column and a single element. -/
def rowAndColumn : String → Option (Mat ℚ)
  | "A" => some ⟨1, 2, 0⟩
  | "B" => some ⟨2, 1, 0⟩
  | _ => some ⟨1, 1, 1⟩

/-- Of a bare product only the last factor is transposed: the quotient of a product of a row and
a column has a value, and what is emitted has none. -/
theorem not_quotients_product : ∃ (e : Expr) (read : Assembly),
    Program.parse "y = A*B/C" = .ok [.statement (.assign (.variable "y") e)]
      ∧ e.Multiplicative threeMatrices.declarations
      ∧ (translateWith "y = A*B/C" threeMatrices).toOption.map (·.statements)
        = some ["y = " ++ (e.emission threeMatrices.declarations).assembly.spelled ++ " ;"]
      ∧ (e.emission threeMatrices.declarations).assembly.spelled
        = "arma::solve(C.t(), A*B.t()).t()"
      ∧ ¬(e.emission threeMatrices.declarations).assembly.Read
      ∧ read.spelled = (e.emission threeMatrices.declarations).assembly.spelled ∧ read.Read
      ∧ (e.matrixValue rowAndColumn).isSome ∧ read.matrixValue rowAndColumn = none := by
  refine ⟨.chain .rightDiv (.chain .mul (.name "A") (.name "B") []) (.name "C") [],
    Rule.transposedText (.call solver [Rule.transposedText (.whole "C"),
      .binary .mul false (.whole "A") (Rule.transposedText (.whole "B"))]), by cbv,
    .chain rfl (by simp [multiplicative_name, multiplicative_product]), by decide +kernel, by decide,
    by decide, by decide, by decide, ?_, ?_⟩
  · have inverse : Mat.inverse (⟨1, 1, 1⟩ : Mat ℚ) = some ⟨1, 1, 1⁻¹⟩ := by
      rw [Mat.inverse_mk, Mat.squareInverse, Matrix.det_one, if_neg one_ne_zero]
    simp [Expr.matrixValue, Expr.matrixValues, rowAndColumn, Mat.both, ChainOp.onMatrices,
      Mat.product_mk, Mat.divide, inverse]
  · have other : Mat.product (⟨1, 2, 0⟩ : Mat ℚ) (Mat.transpose ⟨2, 1, 0⟩) = none := dif_neg (by decide)
    have product : (Assembly.binary .mul false (.whole "A")
        (Rule.transposedText (.whole "B"))).matrixValue rowAndColumn = none := by
      rw [Assembly.matrixValue, if_neg (by decide), Emission.matrixValue_transposedText,
        Assembly.matrixValue, Assembly.matrixValue]
      exact other
    rw [Emission.matrixValue_transposedText, Emission.matrixValue_solver, product]
    cases (Rule.transposedText (.whole "C")).matrixValue rowAndColumn <;> rfl

end MatrixScript
