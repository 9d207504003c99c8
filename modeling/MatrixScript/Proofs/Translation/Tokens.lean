/-
# `Proofs.Translation.Tokens` — operators keep the tokens of their operands

The texts of operands are joined without blanks.  So of variables and numerals with
parentheses, minus signs and operators, the text of an operator has the tokens of its operands
and of what is written around them exactly if nowhere a minus is written in front of a minus
and no transpose behind a numeral (`Resolving.tokens_of_elementary`).  Every other
pair of neighbours is apart, because every operand starts and ends like one
(`Resolving.delivers_pasteable`).
-/
import MatrixScript.Proofs.Rule.Fragments
import MatrixScript.Proofs.Token.Decimal
import MatrixScript.Proofs.Translation.Formula

namespace MatrixScript

open Cpp (Fragment Pasteable)

namespace Expr

/-- Variables and numerals with parentheses, minus signs and operators between operands. -/
inductive Elementary : Expr → Prop
  | name {x : String} : Builtin.isReserved x = false → Elementary (.name x)
  | numeral {kind : LiteralKind} {s : String} : kind ≠ .str → Elementary (.literal kind s)
  | paren {e : Expr} : Elementary e → Elementary (.paren e)
  | neg {e : Expr} : Elementary e → Elementary (.sign .neg e)
  | chain {op : ChainOp} {first second : Expr} {more : List Expr} :
      (∀ e ∈ first :: second :: more, Elementary e) → Elementary (.chain op first second more)
  | compare {op : Comparison} {left right : Expr} : Elementary left → Elementary right →
      Elementary (.compare op left right)

variable {e x : Expr}

theorem Elementary.operands (h : e.Elementary) (mem : x ∈ e.operands) : x.Elementary := by
  cases h with
  | name | numeral => cases mem
  | paren inner | neg inner => exact List.mem_singleton.mp mem ▸ inner
  | chain all => exact all x mem
  | compare left right =>
    rcases List.mem_cons.mp mem with rfl | mem
    · exact left
    · exact List.mem_singleton.mp mem ▸ right

theorem Elementary.isJoining (h : e.Elementary) (operator : e.category.isOperator) :
    Rule.isJoining e.category := by
  cases h with
  | name => cases operator
  | @numeral kind => cases kind <;> cases operator
  | paren | neg => rfl
  | @chain op => cases op <;> rfl
  | @compare op => cases op <;> rfl

theorem Canonical.operands (h : e.Canonical) (mem : x ∈ e.operands) : x.Canonical := by
  cases h with
  | paren inner | sign inner | transpose inner => exact List.mem_singleton.mp mem ▸ inner
  | chain start _ _ others _ =>
    rcases List.mem_cons.mp mem with rfl | mem
    · exact start
    · exact others x mem
  | compare start _ stop _ =>
    rcases List.mem_cons.mp mem with rfl | mem
    · exact start
    · exact List.mem_singleton.mp mem ▸ stop
  | _ => cases mem

/-- Operators with one operand. -/
theorem operands_of_isUnary (unary : e.category.isUnary) : ∃ x, e.operands = [x] := by
  cases e with
  | paren x | sign _ x | transpose _ x => exact ⟨x, rfl⟩
  | chain op => cases op <;> cases unary
  | compare op => cases op <;> cases unary
  | literal kind => cases kind <;> cases unary
  | _ => cases unary

end Expr

/-! ## Numerals -/

/-- A numeral starts with a digit or a point, and ends in one. -/
theorem pasteable_of_numberAt? {s : String} {kind : Token.NumberKind}
    (h : Token.numberAt? s.toList = some (kind, s.toList.length)) (real : kind ≠ .imag) :
    Pasteable s := by
  have numerals := List.all_eq_true.mp (Token.all_isNumeral h real)
  obtain ⟨d, last, ends⟩ := Token.last_of_numberAt? h real
  cases letters : s.toList with
  | nil =>
    rw [letters] at last
    cases last
  | cons c cs =>
    have start := h
    rw [letters] at start
    refine Cpp.pasteable_numeral (c := c) (fun blank => ?_) (by rw [letters]; rfl)
      (Token.numberAt?_head start) last ends
    exact absurd (numerals ' ' blank) (by decide)

/-- A literal is an operand of C++, also where an integer is made a floating-point number. -/
theorem LiteralKind.pasteable {kind : LiteralKind} {s : String} (spells : kind.spells s)
    (number : kind ≠ .str) : Pasteable (kind.emitted s)
      ∧ (kind.category = .int → Pasteable (kind.emitted s ++ ".0")) := by
  cases kind with
  | int =>
    have spells : Token.numberAt? s.toList = some (.int, s.toList.length) := eq_of_beq spells
    have pasteable := pasteable_of_numberAt? spells nofun
    refine ⟨pasteable, fun _ => ?_⟩
    obtain ⟨some, digits⟩ := Token.all_isDigit_of_int spells
    obtain ⟨c, cs, letters⟩ := List.exists_cons_of_ne_nil some
    have digits := List.all_eq_true.mp digits
    have letters' : (s ++ ".0").toList = s.toList ++ ['.', '0'] := String.toList_append
    show Pasteable (s ++ ".0")
    refine Cpp.pasteable_numeral (c := c) (d := '0') ?_ ?_ (.inl (digits c ?_)) ?_ (.inl rfl)
    · rw [letters', List.mem_append]
      rintro (blank | blank)
      · exact absurd (digits ' ' blank) (by decide)
      · exact absurd blank (by decide)
    · rw [letters', letters]
      rfl
    · rw [letters]
      exact List.mem_cons_self
    · rw [letters', List.getLast?_append]
      rfl
  | float =>
    have spells : Token.numberAt? s.toList = some (.float, s.toList.length) := eq_of_beq spells
    exact ⟨pasteable_of_numberAt? spells nofun, nofun⟩
  | imag =>
    refine ⟨Cpp.pasteable_call (c := 'c') ?_ rfl, nofun⟩
    rw [String.toList_append, List.head?_append]
    rfl
  | str => exact absurd rfl number

namespace Resolving

variable {t : Tree} {w : Workspace} {id : NodeId} {e : Expr} {depth : Nat} {config : Config}

/-- The text is an operand of C++, and an integer literal with a zero behind the point too. -/
def Operates (e : Expr) (_ : Typing) (text : String) : Prop :=
  Pasteable text ∧ (e.category = .int → Pasteable (text ++ ".0"))

theorem pastes_of_shows {os : List Operand} {es : List Expr}
    (shows : List.Forall₂ (Operand.Shows Operates) os es) :
    ∀ o ∈ os, Rule.Pastes Pasteable o := by
  induction shows with
  | nil => exact fun _ mem => absurd mem List.not_mem_nil
  | cons here _ ih =>
    refine List.forall_mem_cons.mpr ⟨⟨here.holds.1, fun int => here.holds.2 ?_⟩, ih⟩
    exact here.category ▸ int

theorem pasteable_one : Pasteable "1.0" :=
  Cpp.pasteable_numeral (by decide) rfl (.inl rfl) rfl (.inl rfl)

/-- The rule of an operator writes fragments in which operands alternate with operators. -/
theorem fragments_of_shows {s : Site} {o : Outcome} (elementary : e.Elementary)
    (operator : e.category.isOperator) (category : s.node.category = e.category)
    (shows : List.Forall₂ (Operand.Shows Operates) s.operands e.operands)
    (ok : Rule.select s.tree s.node s = .ok o) :
    s.written o = Fragment.spelled (Rule.fragments s)
      ∧ (∀ o ∈ s.operands, o.node.category ≠ .int → .whole o.text ∈ Rule.fragments s)
      ∧ Cpp.Alternates Pasteable (Rule.fragments s) := by
  have some : s.operands ≠ [] := fun none => by
    rw [none] at shows
    exact e.operands_ne_nil operator (List.forall₂_nil_left_iff.mp shows)
  have alternates := Rule.alternates_fragments pasteable_one some (pastes_of_shows shows)
  obtain ⟨x, xs, operands⟩ := List.exists_cons_of_ne_nil some
  have joining := elementary.isJoining operator
  rw [← category] at joining
  have single : s.node.category.isUnary → xs = [] := by
    intro unary
    rw [category] at unary
    obtain ⟨y, single⟩ := Expr.operands_of_isUnary unary
    rw [operands, single] at shows
    cases shows with
    | cons _ none => exact List.forall₂_nil_right_iff.mp none
  exact ⟨(Rule.writes_fragments joining operands single).written ok,
    Rule.whole_mem_fragments operands single, alternates⟩

/-- Wherever such an expression stands, its text starts and ends like an operand. -/
theorem delivers_pasteable (wf : t.WellFormed) (bears : t.Bears id e) (elementary : e.Elementary)
    (canonical : e.Canonical) (enough : Enough t depth id) :
    Delivers t config id (Operates e) (resolveWithin depth id) := by
  refine delivers_of_bears wf (F := fun e => e.Elementary ∧ e.Canonical) (P := Operates)
    (fun h mem => ⟨h.1.operands mem, h.2.operands mem⟩) ?_ ?_ ?_ bears ⟨elementary, canonical⟩ enough
  · rintro x ⟨elementary, canonical⟩
    cases elementary with
    | name free =>
      cases canonical with
      | name name => exact ⟨free, fun _ _ => ⟨Cpp.pasteable_name name, nofun⟩⟩
  · rintro kind s ⟨elementary, canonical⟩
    cases elementary with
    | numeral number =>
      cases canonical with
      | literal spells => exact LiteralKind.pasteable spells number
  · rintro e s o ⟨elementary, -⟩ operator category - shows ok
    obtain ⟨written, -, alternates⟩ := fragments_of_shows elementary operator category shows ok
    rw [written]
    refine ⟨.of_alternates alternates, fun int => ?_⟩
    rw [int] at operator
    cases operator

/-- Wherever an operator stands in variables and numerals with parentheses, minus signs and
operators, its operands are resolved to texts and it is written from these.  The tokens of
what it writes are those of the fragments it is written from exactly if among them no minus
stands in front of a minus and no point behind a number. -/
theorem tokens_of_elementary (wf : t.WellFormed) (bears : t.Bears id e) (elementary : e.Elementary)
    (canonical : e.Canonical) (operator : e.category.isOperator) (enough : Enough t (depth + 1) id)
    (same : w.tree.bare = t.bare) (lawful : w.tree.Lawful) :
    ∃ found w₁ w', texts (resolveWithin depth) (t.children id) w = (.ok found, w₁)
      ∧ let s := (w₁.seed id).site id found
        resolveWithin (depth + 1) id w = (.ok (Fragment.spelled (Rule.fragments s)), w')
        ∧ s.texts = found
        ∧ (∀ o ∈ s.operands, o.node.category ≠ .int → .whole o.text ∈ Rule.fragments s)
        ∧ (Cpp.tokens (Fragment.spelled (Rule.fragments s))
            = (Rule.fragments s).flatMap (Cpp.tokens ·.text)
          ↔ (Rule.fragments s).IsChain (¬Fragment.Fuses · ·)) := by
  obtain ⟨-, operands⟩ := bears.operands operator
  have delivers : List.Forall₂ (fun c x => Delivers t w.state.config c (Operates x) (resolveWithin depth c))
      (t.children id) e.operands := by
    refine List.forall₂_iff_zip.mpr ⟨operands.length_eq, fun mem => ?_⟩
    obtain ⟨child, operand⟩ := List.of_mem_zip mem
    exact delivers_pasteable wf (List.forall₂_zip operands mem) (elementary.operands operand)
      (canonical.operands operand) (enough.child wf child)
  obtain ⟨found, w₁, o, w', run, category, texts, -, shows, answer, resolved, -, -⟩ :=
    exists_site_of_bears wf bears operator delivers same lawful rfl
  obtain ⟨written, all, alternates⟩ := fragments_of_shows elementary operator category shows answer
  exact ⟨found, w₁, w', run, written ▸ resolved, texts, all,
    Cpp.tokens_of_alternates alternates⟩

section Instances

/-- A difference whose second operand is in parentheses. -/
theorem tokens_of_elementary_paren : ∃ e t w₁ w',
    Program.parse "y = a-(-b)\n" = .ok [.statement (.assign (.variable "y") e)]
      ∧ t = Tree.ofProgram [.statement (.assign (.variable "y") e)] ∧ e.Elementary ∧ t.Bears 5 e
      ∧ texts (resolveWithin 8) (t.children 5) ⟨t, .ofConfig {}⟩ = (.ok ["a", "(-(b))"], w₁)
      ∧ resolveWithin 9 5 ⟨t, .ofConfig {}⟩ = (.ok "a-(-(b))", w')
      ∧ Cpp.tokens "a-(-(b))" = ["a", "-", "(", "-", "(", "b", ")", ")"] := by
  have visits : ∃ e t w₁,
      Program.parse "y = a-(-b)\n" = .ok [.statement (.assign (.variable "y") e)]
        ∧ t = Tree.ofProgram [.statement (.assign (.variable "y") e)] ∧ e.Elementary
        ∧ t.Bears 5 e ∧ e.category.isOperator ∧ t.size = 8
        ∧ texts (resolveWithin 8) (t.children 5) ⟨t, .ofConfig {}⟩ = (.ok ["a", "(-(b))"], w₁)
        ∧ Rule.fragments ((w₁.seed 5).site 5 ["a", "(-(b))"])
          = [.whole "a", .between "-", .whole "(-(b))"] :=
    ⟨.chain .sub (.name "a") (.paren (.sign .neg (.name "b"))) [], _, _, by cbv, rfl,
      .chain (List.forall_mem_cons.mpr ⟨.name (by decide),
        List.forall_mem_singleton.mpr (.paren (.neg (.name (by decide))))⟩),
      .of_forall₂ [1, 4] rfl (by decide) (.cons (.name (by decide)) (.cons
        (.of_forall₂ [3] rfl (by decide) (.cons
          (.of_forall₂ [2] rfl (by decide) (.cons (.name (by decide)) .nil)) .nil)) .nil)),
      rfl, by decide, Prod.ext (by decide +kernel) rfl, by decide +kernel⟩
  obtain ⟨e, t, w₁, parses, built, elementary, bears, operator, size, run, fragments⟩ := visits
  have accepted := Program.accepted_of_parse parses
  have wf : t.WellFormed := built ▸ Tree.wellFormed_ofProgram accepted
  have lawful : t.Lawful := built ▸ (Tree.raw_ofProgram accepted).lawful
  obtain ⟨-, canonical⟩ : isName "y" ∧ e.Canonical := accepted _ List.mem_cons_self
  have enough : Enough t (8 + 1) 5 := by
    obtain ⟨root, top, inside, n, climbs⟩ := wf.exists_climbs (size ▸ (by decide : 5 < 8))
    exact ⟨n, root, top, inside, climbs, by omega⟩
  obtain ⟨found, w₂, w', run', resolved, -, -, tokens⟩ := tokens_of_elementary wf bears elementary
    canonical operator enough (w := ⟨t, .ofConfig {}⟩) rfl lawful
  obtain ⟨same, rfl⟩ := Prod.mk.inj (run'.symm.trans run)
  obtain rfl := Except.ok.inj same
  rw [fragments] at resolved tokens
  exact ⟨e, t, w₂, w', parses, built, elementary, bears, run, resolved, tokens.mpr (by decide)⟩

/-- Without the parentheses a minus stands in front of a minus. -/
theorem not_tokens_minus : ∃ t w₁, Tree.parse "y = a - -b\n" = .ok t
    ∧ t.Bears 4 (.chain .sub (.name "a") (.sign .neg (.name "b")) [])
    ∧ (Expr.chain .sub (.name "a") (.sign .neg (.name "b")) []).Elementary
    ∧ texts (resolveWithin 3) (t.children 4) ⟨t, .ofConfig {}⟩ = (.ok ["a", "-(b)"], w₁)
    ∧ Rule.fragments ((w₁.seed 4).site 4 ["a", "-(b)"]) = [.whole "a", .between "-", .whole "-(b)"]
    ∧ (translateWith "y = a - -b\n" {}).toOption.map (·.statements) = some ["y = a--(b) ;"]
    ∧ Cpp.tokens "a--(b)" = ["a", "--", "(", "b", ")"]
    ∧ Cpp.tokens "a" ++ Cpp.tokens "-" ++ Cpp.tokens "-(b)" = ["a", "-", "-", "(", "b", ")"] :=
  ⟨_, _, by cbv, .of_forall₂ [1, 3] rfl (by decide) (.cons (.name (by decide)) (.cons
      (.of_forall₂ [2] rfl (by decide) (.cons (.name (by decide)) .nil)) .nil)),
    .chain (List.forall_mem_cons.mpr ⟨.name (by decide),
      List.forall_mem_singleton.mpr (.neg (.name (by decide)))⟩),
    Prod.ext (by decide +kernel) rfl, by decide +kernel, by decide +kernel, by decide, by decide⟩

end Instances

end Resolving

end MatrixScript
