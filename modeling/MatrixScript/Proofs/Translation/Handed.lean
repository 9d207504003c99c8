/-
# `Proofs.Translation.Handed` — operands that lose their brackets

A one-element bracket and an idle call are resolved to the text of what stands in them, also
several of them around each other (`Resolving.Hands`).  The brackets that grouped it are
gone then, and the operator around it takes all of it exactly if it is tight enough for its
place there (`Resolving.handed_whole_iff`): a sum in brackets falls apart in a product.
-/
import MatrixScript.Proofs.Rule.Joined
import MatrixScript.Proofs.Translation.Leads
import MatrixScript.Proofs.Translation.Pasted

namespace MatrixScript

open Cpp (Assembly)
open Cpp.Assembly (whole)

namespace Resolving

variable {w w₁ w₂ : Workspace} {depth : Nat} {a : String} {inner : Assembly}

/-- Resolving the node hands on the text of a node below it, in wrappings. -/
inductive Hands (w : Workspace) : Nat → NodeId → String → Assembly → Prop
  | one {depth : Nat} {c : NodeId} {a : String} {more : List String} {w₁ : Workspace}
      {wrapping : Rule.Wrapping} :
      texts (resolveWithin depth) (w.tree.children c) w = (.ok (a :: more), w₁) →
      Rule.wrapping? ((w₁.seed c).site c (a :: more)) = some wrapping →
      Hands w (depth + 1) c a (wrapping.around (whole a))
  | around {depth : Nat} {c c' : NodeId} {cs : List NodeId} {a : String} {inner : Assembly}
      {found : List String} {w₁ : Workspace} {wrapping : Rule.Wrapping} :
      Hands w depth c' a inner → w.tree.children c = c' :: cs →
      texts (resolveWithin depth) (w.tree.children c) w = (.ok found, w₁) →
      Rule.wrapping? ((w₁.seed c).site c found) = some wrapping →
      Hands w (depth + 1) c a (wrapping.around inner)

/-- Only a row, a matrix or a call hands on a text. -/
theorem category_of_wrapping {s : Site} {wrapping : Rule.Wrapping}
    (wraps : Rule.wrapping? s = some wrapping) :
    s.node.category = .row ∨ s.node.category = .matrix ∨ s.node.category = .get := by
  unfold Rule.wrapping? at wraps
  split at wraps
  case h_1 category _ => exact .inl category
  case h_2 category _ => exact .inr (.inl category)
  case h_3 category _ => exact .inr (.inr category)
  case h_4 => cases wraps

/-- A node that wraps its first child is resolved to the text of that in the wrapping. -/
theorem resolveWithin_of_wrapping {c : NodeId} {found : List String} {wrapping : Rule.Wrapping}
    (children : texts (resolveWithin depth) (w.tree.children c) w = (.ok found, w₁))
    (wraps : Rule.wrapping? ((w₁.seed c).site c found) = some wrapping) :
    ∃ t more w', found = t :: more
      ∧ resolveWithin (depth + 1) c w = (.ok (wrapping.around (whole t)).spelled, w') := by
  have kind := category_of_wrapping wraps
  rw [category_of_texts children] at kind
  obtain ⟨x, more, operands, writes⟩ := Rule.writes_wrapped wraps
  have found' : found = x.text :: more.map (·.text) := by
    rw [← Rule.texts_of_operands operands, Workspace.texts_site_eq _ (lengths_of_texts children)]
  have plain : w.tree.category c ≠ .block ∧ w.tree.category c ≠ .function := by
    rcases kind with eq | eq | eq <;> rw [eq] <;> exact ⟨nofun, nofun⟩
  obtain ⟨w', run⟩ := resolveWithin_of_writes plain.1 plain.2 children writes
  exact ⟨_, _, w', found', run⟩

/-- What is resolved first gives the first text. -/
theorem head_of_texts {resolve : NodeId → Resolving String} {c : NodeId} {cs : List NodeId}
    {t text : String} {more : List String}
    (children : texts resolve (c :: cs) w = (.ok (t :: more), w₁))
    (first : resolve c w = (.ok text, w₂)) : text = t := by
  rw [texts_of_ok first] at children
  cases rest : (texts resolve cs w₂).1 with
  | error e =>
    rw [rest] at children
    cases children
  | ok found =>
    rw [rest] at children
    cases children
    rfl

/-- What hands on a text is resolved to it, in the wrappings. -/
theorem Hands.resolve {c : NodeId} (h : Hands w depth c a inner) :
    (∃ w', resolveWithin depth c w = (.ok inner.spelled, w')) ∧ inner.pasted = [a]
      ∧ (inner.Fits ↔ (whole a).Fits)
      ∧ (w.tree.category c = .row ∨ w.tree.category c = .matrix ∨ w.tree.category c = .get) := by
  induction h with
  | @one depth c a more w₁ wrapping children wraps =>
    obtain ⟨t, more, w', found, run⟩ := resolveWithin_of_wrapping children wraps
    cases found
    have kind := category_of_wrapping wraps
    rw [category_of_texts children] at kind
    exact ⟨⟨w', run⟩, wrapping.pasted_around _, wrapping.fits_around _, kind⟩
  | @around depth c c' cs a inner found w₁ wrapping _ kids children wraps ih =>
    obtain ⟨⟨w₂, first⟩, pasted, fits, -⟩ := ih
    obtain ⟨t, more, w', rfl, run⟩ := resolveWithin_of_wrapping children wraps
    have kind := category_of_wrapping wraps
    rw [category_of_texts children] at kind
    rw [kids] at children
    obtain rfl := head_of_texts children first
    rw [← wrapping.spelled_around] at run
    exact ⟨⟨w', run⟩, (wrapping.pasted_around inner).trans pasted,
      (wrapping.fits_around inner).trans fits, kind⟩

/-- Of several nodes that are resolved each gives the text at its place. -/
theorem getElem?_of_texts {resolve : NodeId → Resolving String} {c : NodeId}
    {before after : List NodeId} {front found : List String} {w₃ : Workspace} {text : String}
    (children : texts resolve (before ++ c :: after) w = (.ok found, w₁))
    (first : texts resolve before w = (.ok front, w₂)) (here : resolve c w₂ = (.ok text, w₃)) :
    found[before.length]? = some text := by
  rw [texts_append, first] at children
  dsimp only at children
  rw [texts_of_ok here] at children
  cases rest : (texts resolve after w₃).1 with
  | error e =>
    rw [rest] at children
    cases children
  | ok behind =>
    rw [rest] at children
    cases children
    rw [← length_of_texts first]
    simp

/-- What the rule of a node sees of the child at a place. -/
theorem mem_operands {p c : NodeId} {k : Nat} {found : List String} {text : String}
    (children : texts (resolveWithin depth) (w.tree.children p) w = (.ok found, w₁))
    (child : (w.tree.children p)[k]? = some c) (here : found[k]? = some text) :
    ⟨c, (w₁.seed p).tree.node c, text⟩ ∈ ((w₁.seed p).site p found).operands := by
  have kids : (w₁.seed p).tree.children p = w.tree.children p :=
    congrFun (Tree.children_of_bare ((w₁.bare_seed p).trans (bare_of_texts children))) p
  have pair : ((w.tree.children p).zip found)[k]? = some (c, text) :=
    List.getElem?_zip_eq_some.mpr ⟨child, here⟩
  refine List.mem_map.mpr ⟨(c, text), ?_, rfl⟩
  rw [kids]
  exact List.mem_of_getElem? pair

/-- A one-element bracket, a rounded integer or a number under `any`, `all` or `diag` hands on
the text of what stands in it, through any number of such brackets.  Where it is an operand
of an operator, or stands in front of a transpose or a member, that text is pasted there.
What is emitted, read as C++, keeps all of it together as that operand, and every other
operand too, exactly if all of them are tight enough for their places. -/
theorem handed_whole_iff {p c : NodeId} {before after : List NodeId} {front found : List String}
    {outer : Assembly} (kids : w.tree.children p = before ++ c :: after)
    (first : texts (resolveWithin depth) before w = (.ok front, w₂))
    (hands : Hands w₂ depth c a inner)
    (children : texts (resolveWithin depth) (w.tree.children p) w = (.ok found, w₁))
    (joins : Rule.joined? ((w₁.seed p).site p found) = some outer) :
    let s := (w₁.seed p).site p found
    found[before.length]? = some inner.spelled ∧ inner.pasted = [a] ∧ inner.spelled ∈ outer.pasted
      ∧ (∃ o w', Rule.select s.tree s.node s = .ok o
        ∧ resolveWithin (depth + 1) p w = (.ok (s.written o), w')
        ∧ (s.written o = outer.spelled ∨ ∃ d, Effect.hoist p outer.spelled d ∈ o.effects))
      ∧ (inner.Read ∧ outer.Read ↔ Cpp.Tight 0 a ∧ outer.Fits) := by
  intro s
  obtain ⟨⟨w₃, here⟩, pasted, fits, kind⟩ := hands.resolve
  have place : found[before.length]? = some inner.spelled := by
    rw [kids] at children
    exact getElem?_of_texts children first here
  have category : s.node.category = w.tree.category p := category_of_texts children
  obtain ⟨block, function⟩ := Rule.isInline_of_joined joins
  obtain ⟨o, answer, emitted⟩ := Rule.emits_joined joins
  obtain ⟨w', run⟩ :=
    resolveWithin_of_answer (category ▸ block) (category ▸ function) children answer
  refine ⟨place, pasted, ?_, ⟨o, w', answer, run, emitted⟩, ?_⟩
  · have child : (w.tree.children p)[before.length]? = some c := by
      rw [kids]
      simp
    have stays : ((w₁.seed p).tree.node c).category ≠ .int := by
      have same : ((w₁.seed p).tree.node c).category = w₂.tree.category c :=
        congrFun (Tree.category_of_bare (((w₁.bare_seed p).trans (bare_of_texts children)).trans
          (bare_of_texts first).symm)) c
      rw [same]
      rcases kind with eq | eq | eq <;> rw [eq] <;> nofun
    exact Rule.pasted_joined joins _ (mem_operands children child place) stays
  · rw [Assembly.read_iff_fits, Assembly.read_iff_fits, fits, Assembly.tight_iff,
      and_iff_left (Nat.zero_le _)]

section Instances

/-- A product in brackets holds together in a product. -/
theorem handed_whole_product : ∃ t w₁, Tree.parse "y = [a*b]*c\n" = .ok t
    ∧ t.children 7 = [] ++ 5 :: [6] ∧ t.category 5 = .matrix
    ∧ Hands ⟨t, .ofConfig threeFloats⟩ 5 5 "a*b" (whole "a*b")
    ∧ texts (resolveWithin 5) (t.children 7) ⟨t, .ofConfig threeFloats⟩ = (.ok ["a*b", "c"], w₁)
    ∧ ∃ outer, Rule.joined? ((w₁.seed 7).site 7 ["a*b", "c"]) = some outer
      ∧ outer.spelled = "a*b*c" ∧ "a*b" ∈ outer.pasted ∧ outer.Read := by
  have visits : ∃ t w₁ w₂ w₃, Tree.parse "y = [a*b]*c\n" = .ok t
      ∧ (texts (resolveWithin 3) (t.children 4) ⟨t, .ofConfig threeFloats⟩ = (.ok ["a*b"], w₂)
        ∧ Rule.wrapping? ((w₂.seed 4).site 4 ["a*b"]) = some .bare)
      ∧ (t.category 5 = .matrix ∧ t.children 5 = [4]
        ∧ texts (resolveWithin 4) (t.children 5) ⟨t, .ofConfig threeFloats⟩ = (.ok ["a*b"], w₃)
        ∧ Rule.wrapping? ((w₃.seed 5).site 5 ["a*b"]) = some .bare)
      ∧ t.children 7 = [5, 6]
      ∧ texts (resolveWithin 5) (t.children 7) ⟨t, .ofConfig threeFloats⟩ = (.ok ["a*b", "c"], w₁)
      ∧ Rule.joined? ((w₁.seed 7).site 7 ["a*b", "c"])
        = some (.chain .mul (whole "a*b") [whole "c"]) :=
    ⟨_, _, _, _, by cbv, ⟨Prod.ext (by decide +kernel) rfl, by decide +kernel⟩,
      ⟨by decide, by decide, Prod.ext (by decide +kernel) rfl, by decide +kernel⟩, by decide,
      Prod.ext (by decide +kernel) rfl, rfl⟩
  obtain ⟨t, w₁, w₂, w₃, parses, ⟨element, bare⟩, ⟨matrix, row, rows, bare'⟩, kids, children,
    joins⟩ := visits
  have hands : Hands ⟨t, .ofConfig threeFloats⟩ 5 5 "a*b" (whole "a*b") :=
    .around (.one element bare) row rows bare'
  have first : texts (resolveWithin 5) [] ⟨t, .ofConfig threeFloats⟩
      = (.ok [], ⟨t, .ofConfig threeFloats⟩) := rfl
  have place : t.children 7 = [] ++ 5 :: [6] := kids
  obtain ⟨-, -, pasted, -, read⟩ :=
    handed_whole_iff (w := ⟨t, .ofConfig threeFloats⟩) place first hands children joins
  exact ⟨t, w₁, parses, kids, matrix, hands, children, _, joins, by decide, pasted,
    (read.mpr ⟨by decide, by decide⟩).2⟩

/-- A sum in brackets does not: the product takes `b` alone. -/
theorem handed_whole_sum : ∃ t w₁, Tree.parse "y = [a + b] * c\n" = .ok t
    ∧ t.children 7 = [] ++ 5 :: [6] ∧ t.category 5 = .matrix
    ∧ Hands ⟨t, .ofConfig threeFloats⟩ 5 5 "a+b" (whole "a+b")
    ∧ texts (resolveWithin 5) (t.children 7) ⟨t, .ofConfig threeFloats⟩ = (.ok ["a+b", "c"], w₁)
    ∧ ∃ outer, Rule.joined? ((w₁.seed 7).site 7 ["a+b", "c"]) = some outer
      ∧ (translateWith "y = [a + b] * c\n" threeFloats).toOption.map (·.statements)
        = some ["y = " ++ outer.spelled ++ " ;"]
      ∧ Cpp.group? outer.spelled = some (.binary .add (.operand ["a"])
        (.binary .mul (.operand ["b"]) (.operand ["c"])))
      ∧ ¬outer.Read := by
  have visits : ∃ t w₁ w₂ w₃, Tree.parse "y = [a + b] * c\n" = .ok t
      ∧ (texts (resolveWithin 3) (t.children 4) ⟨t, .ofConfig threeFloats⟩ = (.ok ["a+b"], w₂)
        ∧ Rule.wrapping? ((w₂.seed 4).site 4 ["a+b"]) = some .bare)
      ∧ (t.category 5 = .matrix ∧ t.children 5 = [4]
        ∧ texts (resolveWithin 4) (t.children 5) ⟨t, .ofConfig threeFloats⟩ = (.ok ["a+b"], w₃)
        ∧ Rule.wrapping? ((w₃.seed 5).site 5 ["a+b"]) = some .bare)
      ∧ t.children 7 = [5, 6]
      ∧ texts (resolveWithin 5) (t.children 7) ⟨t, .ofConfig threeFloats⟩ = (.ok ["a+b", "c"], w₁)
      ∧ Rule.joined? ((w₁.seed 7).site 7 ["a+b", "c"])
        = some (.chain .mul (whole "a+b") [whole "c"]) :=
    ⟨_, _, _, _, by cbv, ⟨Prod.ext (by decide +kernel) rfl, by decide +kernel⟩,
      ⟨by decide, by decide, Prod.ext (by decide +kernel) rfl, by decide +kernel⟩, by decide,
      Prod.ext (by decide +kernel) rfl, rfl⟩
  obtain ⟨t, w₁, w₂, w₃, parses, ⟨element, bare⟩, ⟨matrix, row, rows, bare'⟩, kids, children,
    joins⟩ := visits
  exact ⟨t, w₁, parses, kids, matrix, .around (.one element bare) row rows bare', children, _,
    joins, by decide +kernel, by decide, by decide⟩

end Instances

end Resolving

end MatrixScript
