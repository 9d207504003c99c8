/-
# `Proofs.Translation.Promotion` — types of chains and quotients

The parser reads `a op b op c` as one node with three operands and `(a op b) op c` as
nodes with two.  The rule of the first node goes through its operands on its own; the
second form is typed node by node, each from the join of two types, and by another path
of the rule where some part of it is a scalar.  Between numbers both have the type of the
chain (`Category.ofChain`), so that they are typed alike
(`Translator.typing_flat_eq_nested`).
-/
import MatrixScript.Proofs.Translation.Ruled
import MatrixScript.Proofs.Translation.Typing

namespace MatrixScript

namespace Tree

/-- Types of nodes. -/
def types (t : Tree) (ids : List NodeId) : List Datatype := ids.map fun c => (t.node c).datatype

/-- Operators of one category, each between the one before it in parentheses and one more
operand: `((a op b) op c) op d`. -/
inductive Nested (t : Tree) (op : Category) : NodeId → List NodeId → Prop
  | two {id a b : NodeId} : t.category id = op → t.children id = [a, b] → Nested t op id [a, b]
  | more {id paren inner c : NodeId} {operands : List NodeId} : t.category id = op →
      t.children id = [paren, c] → t.category paren = .paren → t.children paren = [inner] →
      Nested t op inner operands → Nested t op id (operands ++ [c])

theorem Nested.two_le_length {t : Tree} {op : Category} {id : NodeId} {operands : List NodeId}
    (h : t.Nested op id operands) : 2 ≤ operands.length := by
  induction h with
  | two => exact Nat.le_refl 2
  | more _ _ _ _ _ ih =>
    rw [List.length_append]
    omega

section Ruled

variable {t : Tree} (sound : t.Sound)
include sound

/-- If the operands are numbers, the rule saw them as numbers. -/
theorem Shows.numbers {s : Site} {o : Outcome} (h : t.Shows s o)
    (numeric : ∀ c ∈ t.children s.id, (t.node c).numeric) : s.Numbers where
  numeric x mem := by
    have number := numeric x.id (h.ids ▸ List.mem_map_of_mem mem)
    exact (congrArg Typing.numeric (h.typing_operand mem)).symm.trans number
  type := List.forall_mem_map.mpr fun x mem => by
    have number := sound x.id (numeric x.id (h.ids ▸ List.mem_map_of_mem mem))
    rwa [h.typing_operand mem] at number

omit sound in
theorem Shows.types_eq {s : Site} {o : Outcome} (h : t.Shows s o) :
    s.types = t.types (t.children s.id) := by
  rw [← h.ids, types, List.map_map]
  exact List.map_congr_left fun x mem => (congrArg Typing.datatype (h.typing_operand mem)).symm

/-- An operator between numbers was typed by its rule. -/
theorem Ruled.shows_of_numbers {id : NodeId} (h : t.Ruled id) (operator : (t.category id).isOperator)
    (numeric : ∀ c ∈ t.children id, (t.node c).numeric) :
    ∃ s o, s.id = id ∧ t.Shows s o ∧ s.Numbers := by
  rcases h operator with ⟨s, o, rfl, shows⟩ | ⟨-, c, mem, none⟩
  · exact ⟨s, o, rfl, shows, shows.numbers sound numeric⟩
  · exact absurd (none.symm.trans (numeric c mem)) nofun

/-- A chain of numbers has the type of the chain taken from the left. -/
theorem Ruled.typing_chain {id : NodeId} (h : t.Ruled id) (chained : (t.category id).isChained)
    (two : 2 ≤ (t.children id).length) (numeric : ∀ c ∈ t.children id, (t.node c).numeric) :
    (t.node id).typing = .of ((t.category id).ofChain (t.types (t.children id))) := by
  obtain ⟨s, o, rfl, shows, numbers⟩ :=
    h.shows_of_numbers sound (Category.isOperator_of_isChained chained) numeric
  have operands : 2 ≤ s.operands.length := by
    rw [← shows.ids, List.length_map] at two
    exact two
  obtain ⟨o', answer, typing⟩ :=
    Rule.select_infers numbers shows.seeded (shows.category ▸ chained) operands
  obtain rfl := Except.ok.inj (shows.answer.symm.trans answer)
  rw [shows.typing, typing, shows.category, shows.types_eq]

/-- A number in parentheses keeps its type. -/
theorem Ruled.typing_paren {id inner : NodeId} (h : t.Ruled id) (paren : t.category id = .paren)
    (child : t.children id = [inner]) (numeric : (t.node inner).numeric) :
    (t.node id).typing = .of (t.node inner).datatype := by
  have all : ∀ c ∈ t.children id, (t.node c).numeric := by
    rw [child]
    exact List.forall_mem_singleton.mpr numeric
  obtain ⟨s, o, rfl, shows, numbers⟩ := h.shows_of_numbers sound (by rw [paren]; rfl) all
  obtain ⟨o', answer, typing⟩ :=
    Rule.paren_infers shows.seeded (shows.category.symm.trans paren) numbers
  obtain rfl := Except.ok.inj (shows.answer.symm.trans answer)
  rw [shows.typing, typing, shows.types_eq, child]
  rfl

/-- Nested operators between numbers have the type of the chain of all operands. -/
theorem Nested.typing (ruled : ∀ i, t.Ruled i) {op : Category} (chained : op.isChained)
    {top : NodeId} {operands : List NodeId} (h : t.Nested op top operands)
    (numeric : ∀ c ∈ operands, (t.node c).numeric) :
    (t.node top).typing = .of (op.ofChain (t.types operands)) := by
  induction h with
  | @two id a b category children =>
    rw [← children] at numeric ⊢
    subst category
    exact (ruled id).typing_chain sound chained (children ▸ Nat.le_refl 2) numeric
  | @more id paren inner c operands category children parens child nested ih =>
    obtain ⟨before, last⟩ := List.forall_mem_append.mp numeric
    have some : t.types operands ≠ [] := fun none => by
      have two := nested.two_le_length
      rw [List.map_eq_nil_iff.mp none] at two
      cases two
    have numbers : ∀ d ∈ t.types operands, d.isNumeric := List.forall_mem_map.mpr fun c mem =>
      sound c (before c mem)
    have inside := ih before
    have number : (t.node inner).numeric := by
      rw [Node.numeric, inside]
      exact Category.isNumeric_ofChain some numbers
    have around : (t.node paren).typing = .of (op.ofChain (t.types operands)) := by
      rw [(ruled paren).typing_paren sound parens child number, Node.datatype, inside]
      rfl
    have both : ∀ x ∈ t.children id, (t.node x).numeric := by
      rw [children]
      refine List.forall_mem_cons.mpr ⟨?_, last⟩
      rw [Node.numeric, around]
      exact Category.isNumeric_ofChain some numbers
    subst category
    rw [(ruled id).typing_chain sound chained (children ▸ Nat.le_refl 2) both, children]
    refine congrArg Typing.of ?_
    show (t.category id).ofTwo (t.node paren).datatype (t.node c).datatype = _
    rw [types, List.map_append]
    refine Eq.trans ?_ (Category.ofChain_concat some (t.node c).datatype).symm
    rw [Node.datatype, around]
    rfl

end Ruled

end Tree

namespace Translator

/-- A chain of numbers and the same operators nested to the left in parentheses, of the
same program or of another, are given the same type after a translation, and both are
numbers or neither is. -/
theorem typing_flat_eq_nested {source source' : String} {t t' : Tree}
    (parsed : Tree.parse source = .ok t) (parsed' : Tree.parse source' = .ok t')
    (translator translator' : Translator) :
    let flat := (translator.translate t).2.1
    let nested := (translator'.translate t').2.1
    ∀ id top operands, (flat.category id).isChained →
      (∀ c ∈ flat.children id, (flat.node c).numeric) →
      nested.Nested (flat.category id) top operands →
      operands.map (fun c => (nested.node c).typing)
        = (flat.children id).map (fun c => (flat.node c).typing) →
      (nested.node top).typing = (flat.node id).typing := by
  intro flat nested id top operands chained numeric nests same
  have sound : flat.Sound :=
    (Tree.Handled.translated translator (.parsed parsed)).wellFormed_and_sound.2
  have sound' : nested.Sound :=
    (Tree.Handled.translated translator' (.parsed parsed')).wellFormed_and_sound.2
  have lengths : operands.length = (flat.children id).length := by
    simpa using congrArg List.length same
  have types : nested.types operands = flat.types (flat.children id) := by
    have data := congrArg (List.map (·.datatype)) same
    rw [List.map_map, List.map_map] at data
    exact data
  have numbers : ∀ c ∈ operands, (nested.node c).numeric := by
    intro c mem
    have there : (nested.node c).typing ∈ (flat.children id).map fun c => (flat.node c).typing :=
      same ▸ List.mem_map_of_mem mem
    obtain ⟨c', child, eq⟩ := List.mem_map.mp there
    exact (congrArg Typing.numeric eq).symm.trans (numeric c' child)
  calc (nested.node top).typing
      = .of ((flat.category id).ofChain (nested.types operands)) :=
        nests.typing sound' (ruled_translate parsed' translator') chained numbers
    _ = .of ((flat.category id).ofChain (flat.types (flat.children id))) := by rw [types]
    _ = (flat.node id).typing :=
        ((ruled_translate parsed translator id).typing_chain sound chained
          (lengths ▸ nests.two_le_length) numeric).symm

/-- Two integers are divided first, as scalars and so into a floating-point number; the
matrix and the vector after them solve systems. -/
theorem typing_flat_eq_nested_division :
    ∃ t, Tree.parse "y = a / b / M / v\nz = ((a / b) / M) / v\n" = .ok t ∧
      let after := ((⟨.ofConfig { declarations := ⟨[("a", ⟨.scalar, .int⟩), ("b", ⟨.scalar, .uword⟩),
        ("M", ⟨.matrix, .int⟩), ("v", ⟨.colvec, .float⟩)]⟩ }⟩ : Translator).translate t).2.1
      after.category 3 = .rightDiv ∧ after.children 3 = [1, 2, 4, 5]
        ∧ after.Nested .rightDiv 16 [8, 9, 12, 15]
        ∧ (∀ c ∈ after.children 3, (after.node c).numeric)
        ∧ (after.node 16).typing = (after.node 3).typing := by
  have parses : ∃ t, Tree.parse "y = a / b / M / v\nz = ((a / b) / M) / v\n" = .ok t ∧
      let after := ((⟨.ofConfig { declarations := ⟨[("a", ⟨.scalar, .int⟩), ("b", ⟨.scalar, .uword⟩),
        ("M", ⟨.matrix, .int⟩), ("v", ⟨.colvec, .float⟩)]⟩ }⟩ : Translator).translate t).2.1
      (after.category 3 = .rightDiv ∧ after.children 3 = [1, 2, 4, 5]
        ∧ ∀ c ∈ after.children 3, (after.node c).numeric)
      ∧ (after.category 10 = .rightDiv ∧ after.children 10 = [8, 9])
      ∧ (after.category 11 = .paren ∧ after.children 11 = [10])
      ∧ (after.category 13 = .rightDiv ∧ after.children 13 = [11, 12])
      ∧ (after.category 14 = .paren ∧ after.children 14 = [13])
      ∧ (after.category 16 = .rightDiv ∧ after.children 16 = [14, 15])
      ∧ [8, 9, 12, 15].map (fun c => (after.node c).typing)
        = (after.children 3).map (fun c => (after.node c).typing) :=
    ⟨_, by cbv, by decide +kernel⟩
  obtain ⟨t, run, ⟨flat, operands, numeric⟩, first, around, second, outside, third, same⟩ := parses
  have nested : Tree.Nested _ .rightDiv 16 ([8, 9] ++ [12] ++ [15]) :=
    .more third.1 third.2 outside.1 outside.2 <|
      .more second.1 second.2 around.1 around.2 <| .two first.1 first.2
  refine ⟨t, run, flat, operands, nested, numeric, ?_⟩
  exact typing_flat_eq_nested run run _ _ 3 16 [8, 9, 12, 15] (by rw [flat]; rfl) numeric
    (flat.symm ▸ nested) same

end Translator

/-! ## The storage class of a quotient

Two integers are not to be divided as such, and so a quotient is promised to be at least
of floating point.  A step that is taken element by element keeps the promise
(`Category.widens`); one that solves a linear system joins the classes of its two sides
and leaves it at that.  A division of integers each of whose steps solves a system is
therefore inferred to be of integers, and it is the only one
(`Translator.division_promotes`). -/

/-! ## The widest operand -/

namespace StorageClass

/-- Floating point is in the join of a number with it, unless the number is an integer. -/
theorem max_float_eq_iff (a : StorageClass) : max .float a = a ↔ ¬a.isIntegral := by
  cases a <;> decide

/-- The widest of a class and of the classes of some types. -/
def widest (c : StorageClass) (ds : List Datatype) : StorageClass :=
  ds.foldl (fun c d => max c d.cls) c

theorem isIntegral_widest {c : StorageClass} {ds : List Datatype} :
    (widest c ds).isIntegral ↔ c.isIntegral ∧ ∀ d ∈ ds, d.cls.isIntegral := by
  induction ds generalizing c with
  | nil => simp [widest]
  | cons d ds ih =>
    show (widest (max c d.cls) ds).isIntegral ↔ _
    rw [ih, isIntegral_max, List.forall_mem_cons, and_assoc]

theorem widest_max_float (c : StorageClass) (ds : List Datatype) :
    widest (max c .float) ds = max (widest c ds) .float := by
  induction ds generalizing c with
  | nil => rfl
  | cons d ds ih =>
    have swap : max (max c .float) d.cls = max (max c d.cls) .float :=
      precedence_injective (by simp only [precedence_max]; omega)
    show widest (max (max c .float) d.cls) ds = max (widest (max c d.cls) ds) .float
    rw [swap, ih]

end StorageClass

/-- The widest class among operands. -/
def Datatype.widestClass (ds : List Datatype) : StorageClass := StorageClass.widest .unresolved ds

theorem Datatype.widestClass_cons (d : Datatype) (ds : List Datatype) :
    widestClass (d :: ds) = StorageClass.widest d.cls ds := by
  have low : max .unresolved d.cls = d.cls := by cases d.cls <;> rfl
  show StorageClass.widest (max .unresolved d.cls) ds = _
  rw [low]

theorem Datatype.isIntegral_widestClass {ds : List Datatype} :
    (widestClass ds).isIntegral ↔ ∀ d ∈ ds, d.cls.isIntegral :=
  StorageClass.isIntegral_widest.trans (and_iff_right rfl)

/-! ## Chains -/

namespace Category

variable {op : Category} {d : Datatype} {ds : List Datatype}

/-- `/`, `\`, `./` and `.\`. -/
def isDivision : Category → Bool
  | .rightDiv | .leftDiv | .elRightDiv | .elLeftDiv => true
  | _ => false

theorem isChained_of_isDivision (division : op.isDivision) : op.isChained := by
  cases op <;> first | rfl | cases division

/-- All operands are of integers, and none of them is reached by a step that is taken
element by element. -/
def solvesIntegers (op : Category) (ds : List Datatype) : Bool :=
  ds.all (·.cls.isIntegral) && ds.tail.all fun d => !op.widens d.shape

/-- Steps that are taken element by element widen the join, the others leave it. -/
theorem cls_foldl_ofTwo : (ds.foldl op.ofTwo d).cls
    = if ds.any (fun e => op.widens e.shape) then max (StorageClass.widest d.cls ds) .float
      else StorageClass.widest d.cls ds := by
  induction ds generalizing d with
  | nil => rfl
  | cons e ds ih =>
    have first : (op.ofTwo d e).cls
        = if op.widens e.shape then max (max d.cls e.cls) .float else max d.cls e.cls := rfl
    rw [List.foldl_cons, ih, first, List.any_cons]
    show _ = if _ then max (StorageClass.widest (max d.cls e.cls) ds) .float
      else StorageClass.widest (max d.cls e.cls) ds
    cases op.widens e.shape with
    | false => simp only [Bool.false_eq_true, if_false, Bool.false_or]
    | true =>
      -- widening once more at a later step changes nothing
      have twice (c : StorageClass) : max (max c .float) .float = max c .float := by
        cases c <;> rfl
      simp only [if_true, Bool.true_or, StorageClass.widest_max_float, twice, ite_self]

/-- A chain of numbers is at least of floating point, or no step of it widens. -/
theorem cls_ofChain (some : ds ≠ []) : (op.ofChain ds).cls
    = if ds.tail.any (fun e => op.widens e.shape) then max .float (Datatype.widestClass ds)
      else Datatype.widestClass ds := by
  cases ds with
  | nil => exact absurd rfl some
  | cons d ds =>
    rw [Datatype.widestClass_cons, StorageClass.max_comm .float]
    exact cls_foldl_ofTwo

theorem cls_ofChain_of_solvesIntegers (some : ds ≠ []) (solves : op.solvesIntegers ds) :
    (op.ofChain ds).cls = Datatype.widestClass ds ∧ (Datatype.widestClass ds).isIntegral := by
  obtain ⟨integers, steps⟩ := Bool.and_eq_true _ _ |>.mp solves
  refine ⟨?_, Datatype.isIntegral_widestClass.mpr (List.all_eq_true.mp integers)⟩
  have none : ds.tail.any (fun e => op.widens e.shape) = false := by
    simpa using steps
  rw [cls_ofChain some, none]
  rfl

/-- The class of a chain is at least floating point exactly unless it solves for integers. -/
theorem cls_ofChain_eq_iff (some : ds ≠ []) :
    (op.ofChain ds).cls = max .float (Datatype.widestClass ds) ↔ ¬op.solvesIntegers ds := by
  constructor
  · intro promoted solves
    obtain ⟨kept, integral⟩ := cls_ofChain_of_solvesIntegers some solves
    exact (StorageClass.max_float_eq_iff _).mp (promoted.symm.trans kept) integral
  · intro other
    rw [cls_ofChain some]
    split
    case isTrue => rfl
    case isFalse none =>
      -- without such a step, some operand is not an integer
      refine ((StorageClass.max_float_eq_iff _).mpr fun integral => other ?_).symm
      have steps : ds.tail.all (fun d => !op.widens d.shape) := by simpa using none
      exact Bool.and_eq_true _ _ |>.mpr
        ⟨List.all_eq_true.mpr (Datatype.isIntegral_widestClass.mp integral), steps⟩

end Category

/-! ## Rules -/

namespace Rule

variable {s : Site}

/-- The rule of a division between numbers answers with floating point at least, unless
each step solves a system and all operands are integers. -/
theorem division_infers (n : s.Numbers) (h : s.Seeded) (division : s.node.category.isDivision)
    (two : 2 ≤ s.operands.length) : ∃ o, select s.tree s.node s = .ok o
      ∧ (o.typing.datatype.cls = max .float (Datatype.widestClass s.types)
        ↔ ¬s.node.category.solvesIntegers s.types) := by
  have some : s.types ≠ [] := fun none => by
    rw [List.map_eq_nil_iff.mp none] at two
    cases two
  obtain ⟨o, answer, typing⟩ := select_infers n h (Category.isChained_of_isDivision division) two
  refine ⟨o, answer, ?_⟩
  rw [typing]
  exact Category.cls_ofChain_eq_iff some

end Rule

/-! ## Translated programs -/

/-- Operators of a chain have two operands at least. -/
theorem Tree.WellFormed.two_le_children {t : Tree} (wf : t.WellFormed) {id : NodeId}
    (chained : (t.category id).isChained) : 2 ≤ (t.children id).length := by
  have reached := lt_size_of_isOperator (Category.isOperator_of_isChained chained)
  have admits := (wf.shaped id reached).children
  rw [Category.admits_of_isChained chained] at admits
  obtain ⟨⟨two, -⟩, -⟩ : (_ ∧ _) ∧ _ := by simpa using admits
  simpa using two

namespace Translator

/-- After the translation of a program, a division all of whose operands count as numbers
is of the widest class of the operands and floating point, unless they are integers each
of which is solved for; then it is of the widest class of the operands, an integer. -/
theorem division_promotes {source : String} {t : Tree} (parsed : Tree.parse source = .ok t)
    (translator : Translator) :
    let after := (translator.translate t).2.1
    ∀ id, (after.category id).isDivision →
      (∀ c ∈ after.children id, (after.node c).numeric) →
      let types := after.types (after.children id)
      let integers := (after.category id).solvesIntegers types
      ((after.node id).datatype.cls = max .float (Datatype.widestClass types) ↔ ¬integers)
        ∧ (integers → (after.node id).datatype.cls = Datatype.widestClass types
          ∧ (Datatype.widestClass types).isIntegral) := by
  intro after id division numeric types integers
  obtain ⟨wf, sound⟩ := (Tree.Handled.translated translator (.parsed parsed)).wellFormed_and_sound
  have chained := Category.isChained_of_isDivision division
  have two : 2 ≤ (after.children id).length := wf.two_le_children chained
  have some : types ≠ [] := fun none => by
    rw [List.map_eq_nil_iff.mp none] at two
    cases two
  have inferred : (after.node id).datatype = (after.category id).ofChain types :=
    congrArg Typing.datatype
      ((ruled_translate parsed translator id).typing_chain sound chained two numeric)
  rw [inferred]
  exact ⟨Category.cls_ofChain_eq_iff some, Category.cls_ofChain_of_solvesIntegers some⟩

/-- Two integers are divided as scalars before the matrix of integers is solved for, and
the quotient is of floating point. -/
theorem division_promotes_mixed :
    ∃ t, Tree.parse "y = a / b / M\n" = .ok t ∧
      let after := ((⟨.ofConfig { declarations := ⟨[("a", ⟨.scalar, .int⟩), ("b", ⟨.scalar, .uword⟩),
        ("M", ⟨.matrix, .int⟩)]⟩ }⟩ : Translator).translate t).2.1
      after.category 3 = .rightDiv ∧ after.children 3 = [1, 2, 4]
        ∧ (∀ c ∈ after.children 3, (after.node c).numeric)
        ∧ ¬(after.category 3).solvesIntegers (after.types (after.children 3))
        ∧ (after.node 3).datatype.cls
          = max .float (Datatype.widestClass (after.types (after.children 3))) := by
  have parses : ∃ t, Tree.parse "y = a / b / M\n" = .ok t ∧
      let after := ((⟨.ofConfig { declarations := ⟨[("a", ⟨.scalar, .int⟩), ("b", ⟨.scalar, .uword⟩),
        ("M", ⟨.matrix, .int⟩)]⟩ }⟩ : Translator).translate t).2.1
      after.category 3 = .rightDiv ∧ after.children 3 = [1, 2, 4]
        ∧ (∀ c ∈ after.children 3, (after.node c).numeric)
        ∧ ¬(after.category 3).solvesIntegers (after.types (after.children 3)) :=
    ⟨_, by cbv, by decide +kernel⟩
  obtain ⟨t, run, operator, operands, numeric, widens⟩ := parses
  refine ⟨t, run, operator, operands, numeric, widens, ?_⟩
  exact ((division_promotes run _ 3 (by rw [operator]; rfl) numeric).1).mpr widens

/-- A matrix of integers divided by another one is inferred to be one of integers. -/
theorem division_promotes_not :
    ∃ t, Tree.parse "y = A / B\n" = .ok t ∧
      let after := ((⟨.ofConfig { declarations := ⟨[("A", ⟨.matrix, .int⟩),
        ("B", ⟨.matrix, .int⟩)]⟩ }⟩ : Translator).translate t).2.1
      after.category 3 = .rightDiv ∧ (∀ c ∈ after.children 3, (after.node c).numeric)
        ∧ (after.node 3).datatype.cls = .int
        ∧ (after.node 3).datatype.cls
          ≠ max .float (Datatype.widestClass (after.types (after.children 3))) :=
  ⟨_, by cbv, by decide +kernel⟩

end Translator

end MatrixScript
