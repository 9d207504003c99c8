/-
# `Proofs.Translation.Logical` — sums, comparisons and logic keep their operators

Of variables with sums, products `*`, comparisons and logical operators the translation writes
the operator tree down as it is, whatever the types are (`Resolving.delivers_assembly`).  The
parentheses of the script are all that the text has, and C++ has another precedence: so it
groups the text like the script exactly if every equality on the left of `<`, `<=`, `>` or `>=`
is in parentheses (`grouping_of_translateWith`).
-/
import MatrixScript.Proofs.Program.Logical
import MatrixScript.Proofs.Translation.Formula

namespace MatrixScript

open Cpp (Assembly Operator)

/-- What stands in joined texts stands in one of them or in a gap. -/
theorem Text.mem_joined {c : Char} {separator : String} : ∀ {as : List String},
    c ∈ (Text.joined separator as).toList → c ∈ separator.toList ∨ ∃ a ∈ as, c ∈ a.toList
  | [a], mem => .inr ⟨a, List.mem_cons_self, mem⟩
  | a :: b :: as, mem => by
    rw [Text.joined_cons, String.toList_append, String.toList_append, List.mem_append,
      List.mem_append] at mem
    rcases mem with (mem | mem) | mem
    · exact .inr ⟨a, List.mem_cons_self, mem⟩
    · exact .inl mem
    · exact (Text.mem_joined mem).imp_right fun ⟨a', there, mem⟩ =>
        ⟨a', List.mem_cons_of_mem a there, mem⟩

/-! ## The rules -/

namespace Rule

variable {s : Site} {o : Outcome}

/-- Operands with an operator in the gaps. -/
theorem spelled_chained (op : Operator) (o : Operand) (os : List Operand) :
    (chained op o os).spelled = Text.joined op.symbol ((o :: os).map (·.text)) := by
  rw [chained, Assembly.spelled_chain, List.map_map]
  rfl

theorem operation?_of_chainOp {op : ChainOp} {op' : Operator} (operator : op.operator? = some op')
    (category : s.node.category = op.category) (x : Operand) (xs : List Operand) :
    operation? s x xs = some (chained op' x xs) := by
  unfold operation?
  rw [category]
  cases op <;> cases operator <;> rfl

theorem operation?_of_comparison {op : Comparison} (category : s.node.category = op.category)
    (x : Operand) (xs : List Operand) : operation? s x xs = some (chained op.operator x xs) := by
  unfold operation?
  rw [category]
  cases op <;> rfl

/-- The rule of an operator spells the operator tree, if the operands are spelled. -/
theorem written_assembly {e : Expr} (logical : e.Logical) (operator : e.category.isOperator)
    (category : s.node.category = e.category)
    (shows : List.Forall₂ (Operand.Shows fun x _ text => text = x.assembly.spelled) s.operands e.operands)
    (ok : select s.tree s.node s = .ok o) : s.written o = e.assembly.spelled := by
  have texts : s.operands.map (·.text) = e.operands.map fun x => x.assembly.spelled := by
    generalize s.operands = os at shows
    generalize e.operands = es at shows
    induction shows with
    | nil => rfl
    | cons here _ ih => rw [List.map_cons, List.map_cons, here.holds, ih]
  have some : s.operands ≠ [] := fun none => by
    rw [none] at shows
    exact e.operands_ne_nil operator (List.forall₂_nil_left_iff.mp shows)
  obtain ⟨x, xs, operands⟩ := List.exists_cons_of_ne_nil some
  rw [operands] at texts
  cases logical with
  | name => cases operator
  | paren =>
    have text : x.text = _ := (List.cons.inj texts).1
    rw [(writes_paren category operands).written ok, Expr.assembly_paren, Assembly.spelled, text]
  | @chain op first second more known _ =>
    obtain ⟨op', operator⟩ := Option.isSome_iff_exists.mp known
    have writes := writes_operation operands (operation?_of_chainOp operator category x xs)
    rw [writes.written ok, spelled_chained, texts, Expr.assembly_chain operator,
      Assembly.spelled_chain, List.map_map]
    rfl
  | @compare op left right _ _ =>
    have writes := writes_operation operands (operation?_of_comparison category x xs)
    rw [writes.written ok, spelled_chained, texts, Expr.assembly_compare, Assembly.spelled]
    rfl

end Rule

/-! ## Wherever they stand -/

namespace Resolving

variable {t : Tree} {id : NodeId} {e : Expr} {depth : Nat} {config : Config}

/-- Wherever such an expression stands, it is resolved to the text of its operator tree. -/
theorem delivers_assembly (wf : t.WellFormed) (bears : t.Bears id e) (logical : e.Logical)
    (enough : Enough t depth id) :
    Delivers t config id (fun _ text => text = e.assembly.spelled) (resolveWithin depth id) := by
  refine delivers_of_bears wf (F := Expr.Logical) (P := fun e _ text => text = e.assembly.spelled)
    (fun logical mem => logical.operands mem) (fun logical => ?_) (fun logical => ?_)
    (fun logical operator category _ shows ok =>
      Rule.written_assembly logical operator category shows ok)
    bears logical enough
  · cases logical with
    | name free => exact ⟨free, fun _ _ => by rw [Expr.assembly_name, Assembly.spelled]⟩
  · cases logical

end Resolving

theorem Expr.no_newline_assembly {e : Expr} (logical : e.Logical) (canonical : e.Canonical) :
    '\n' ∉ e.assembly.spelled.toList := by
  have symbol : ∀ op : Operator, '\n' ∉ op.symbol.toList := by
    intro op
    cases op <;> decide
  induction logical with
  | name =>
    cases canonical with
    | name name =>
      rw [Expr.assembly_name, Assembly.spelled]
      exact Cpp.no_newline_of_isName name
  | paren _ ih =>
    cases canonical with
    | paren inner =>
      rw [Expr.assembly_paren, Assembly.spelled]
      simpa using ih inner
  | @chain op first second more known _ ih =>
    cases canonical with
    | chain start _ _ operands _ =>
      obtain ⟨o, operator⟩ := Option.isSome_iff_exists.mp known
      rw [Expr.assembly_chain operator, Assembly.spelled_chain, List.map_map]
      refine fun mem => (Text.mem_joined mem).elim (symbol o) ?_
      rintro ⟨a, there, mem⟩
      obtain ⟨x, here, rfl⟩ : ∃ x ∈ first :: second :: more, x.assembly.spelled = a := by
        rwa [← List.mem_map]
      exact ih x here (List.forall_mem_cons.mpr ⟨start, operands⟩ x here) mem
  | compare _ _ ih ih' =>
    cases canonical with
    | compare start _ stop _ =>
      rw [Expr.assembly_compare, Assembly.spelled]
      simp [ih start, ih' stop, symbol]

/-- Translating an assignment of variables with sums, products `*`, comparisons and logical
operators emits one assignment, and its right side is the text of the operator tree.  Read with
the precedence of C++ it has this tree exactly if nowhere a `<`, `<=`, `>` or `>=` has a bare
equality on its left. -/
theorem grouping_of_translateWith {source y : String} {e : Expr} {config : Config}
    (parses : Program.parse source = .ok [.statement (.assign (.variable y) e)])
    (free : Builtin.isReserved y = false) (logical : e.Logical)
    (valid : config.validate = .ok config) :
    ∃ translation, translateWith source config = .ok translation
      ∧ translation.statements = [y ++ " = " ++ e.assembly.spelled ++ " ;"]
      ∧ (e.assembly.Read ↔ e.EqualitiesEnclosed) := by
  obtain ⟨-, canonical⟩ : isName y ∧ e.Canonical := Program.accepted_of_parse parses _ List.mem_cons_self
  obtain ⟨translation, text, answer, statements, rfl⟩ :=
    translateWith_of_delivers parses free (Tree.numbered_of_formula logical.formula)
      (fun t id depth wf bears enough => Resolving.delivers_assembly wf bears logical enough)
      (fun text eq => eq ▸ Expr.no_newline_assembly logical canonical) valid
  refine ⟨translation, answer, statements, ?_⟩
  rw [Assembly.read_iff_fits, Expr.fits_assembly_iff logical canonical]

/-- An equality in parentheses, and one behind a relation. -/
theorem grouping_of_translateWith_enclosed : ∃ e translation,
    Program.parse "y = (a == b) < c & a < b == c" = .ok [.statement (.assign (.variable "y") e)]
      ∧ translateWith "y = (a == b) < c & a < b == c" {} = .ok translation
      ∧ translation.statements = ["y" ++ " = " ++ e.assembly.spelled ++ " ;"]
      ∧ e.assembly.spelled = "(a==b)<c&a<b==c" ∧ e.assembly.Read := by
  let left : Expr := .compare .lt (.paren (.compare .eq (.name "a") (.name "b"))) (.name "c")
  let right : Expr := .compare .eq (.compare .lt (.name "a") (.name "b")) (.name "c")
  have parses : Program.parse "y = (a == b) < c & a < b == c"
      = .ok [.statement (.assign (.variable "y") (.chain .and left right []))] := by cbv
  have logical : (Expr.chain .and left right []).Logical :=
    .chain rfl (List.forall_mem_cons.mpr
      ⟨.compare (.paren (.compare (.name (by decide)) (.name (by decide)))) (.name (by decide)),
        List.forall_mem_singleton.mpr
          (.compare (.compare (.name (by decide)) (.name (by decide))) (.name (by decide)))⟩)
  have valid : Config.validate {} = .ok {} := rfl
  obtain ⟨translation, answer, statements, read⟩ :=
    grouping_of_translateWith parses (by decide) logical valid
  exact ⟨_, translation, parses, answer, statements, by decide, read.mpr
    (by simp [left, right, Comparison.isRelational, Expr.isEquality])⟩

/-- A relation with a bare equality on its left: C++ compares `b` with `c` first. -/
theorem not_grouped_equality : ∃ e : Expr,
    Program.parse "y = a == b < c" = .ok [.statement (.assign (.variable "y") e)] ∧ e.Logical
      ∧ e.assembly = .binary .lt false (.binary .eq false (.whole "a") (.whole "b")) (.whole "c")
      ∧ (translateWith "y = a == b < c" {}).toOption.map (·.statements)
        = some ["y = " ++ e.assembly.spelled ++ " ;"]
      ∧ Cpp.group? e.assembly.spelled = some (.binary .eq (.operand ["a"])
        (.binary .lt (.operand ["b"]) (.operand ["c"])))
      ∧ ¬e.assembly.Read :=
  ⟨.compare .lt (.compare .eq (.name "a") (.name "b")) (.name "c"), by cbv,
    .compare (.compare (.name (by decide)) (.name (by decide))) (.name (by decide)), rfl,
    by decide +kernel, by decide, by decide⟩

end MatrixScript
