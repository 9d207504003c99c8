/-
# `Proofs.Translation.Commuted` — operands in another order

Most operations that do not depend on the order of their operands are typed by the join of those,
which does not depend on it either.  Minima and maxima of two arguments, one of them no scalar, are
typed by the first argument.  So other operands are typed alike in any order, and those as long as
both have the same type (`Resolving.typing_permuted`).
-/
import Mathlib.Data.List.Perm.Basic
import Mathlib.Data.List.Permutation
import MatrixScript.Proofs.Translation.Applied
import MatrixScript.Proofs.Translation.Ruled

namespace MatrixScript

/-! ## Joins in any order -/

theorem Shape.max_right_comm (a b c : Shape) : max (max a b) c = max (max a c) b :=
  width_injective (by simp only [width_max]; omega)

theorem Shape.max_comm (a b : Shape) : max a b = max b a :=
  width_injective (by simp only [width_max]; omega)

theorem StorageClass.max_right_comm (a b c : StorageClass) : max (max a b) c = max (max a c) b :=
  precedence_injective (by simp only [precedence_max]; omega)

namespace Datatype

theorem join_comm (a b : Datatype) : a.join b = b.join a := by
  rw [join, join, Bool.and_comm, Shape.max_comm, StorageClass.max_comm]

theorem join_of_known {a b : Datatype} (known : a.isKnown ∧ b.isKnown) :
    a.join b = ⟨max a.shape b.shape, max a.cls b.cls⟩ := if_pos (Bool.and_eq_true _ _ |>.mpr known)

theorem join_of_not_known {a b : Datatype} (other : ¬(a.isKnown ∧ b.isKnown)) : a.join b = unknown :=
  if_neg fun known => other (Bool.and_eq_true _ _ |>.mp known)

theorem join_right_comm (a b c : Datatype) : (a.join b).join c = (a.join c).join b := by
  by_cases known : a.isKnown ∧ b.isKnown ∧ c.isKnown
  case pos =>
    obtain ⟨first, second, third⟩ := known
    rw [join_of_known ⟨isKnown_join.mpr ⟨first, second⟩, third⟩,
      join_of_known ⟨isKnown_join.mpr ⟨first, third⟩, second⟩, join_of_known ⟨first, second⟩,
      join_of_known ⟨first, third⟩, Shape.max_right_comm, StorageClass.max_right_comm]
  case neg =>
    rw [join_of_not_known (by rw [isKnown_join]; tauto), join_of_not_known (by rw [isKnown_join]; tauto)]

instance : RightCommutative join := ⟨join_right_comm⟩

/-- The order of what is joined does not matter. -/
theorem joinAll_perm {ds ds' : List Datatype} (perm : ds.Perm ds') : joinAll ds = joinAll ds' := by
  induction perm with
  | nil => rfl
  | cons d perm => exact perm.foldl_eq d
  | swap d e ds => exact congrArg (ds.foldl join) (join_comm e d)
  | trans _ _ ih ih' => exact ih.trans ih'

end Datatype

/-! ## Typings in any order -/

namespace Typing

variable {a b : Typing} {ts ts' : List Typing}

/-- Types of typings. -/
def types (ts : List Typing) : List Datatype := ts.map (·.datatype)

/-- The join of typings, which is a number if all of them are. -/
def joined (ts : List Typing) : Typing :=
  ⟨.joinAll (types ts), (Datatype.joinAll (types ts)).isNumeric && ts.all (·.numeric)⟩

/-- What the smaller or larger of two numbers is typed by. -/
def extremum (a b : Typing) : Typing :=
  if a.datatype.shape = .scalar ∧ b.datatype.shape = .scalar then .of (.joinAll (types [a, b]))
  else .of a.datatype

/-- Of two operands in this order the first one has another type, and the two are not scalars. -/
def Uneven (ts : List Typing) : Prop :=
  ∃ a b, ts = [a, b] ∧ ¬(a.datatype.shape = .scalar ∧ b.datatype.shape = .scalar) ∧ a.datatype ≠ b.datatype

theorem joined_perm (perm : ts.Perm ts') : joined ts = joined ts' := by
  rw [joined, joined, types, types, Datatype.joinAll_perm (perm.map _), perm.all_eq]

theorem of_injective {d d' : Datatype} (h : of d = of d') : d = d' := congrArg Typing.datatype h

/-- The operands of an extremum may be exchanged exactly if they are scalars or of one type. -/
theorem extremum_swap : extremum b a = extremum a b ↔ ¬Uneven [a, b] := by
  unfold extremum
  by_cases scalars : a.datatype.shape = .scalar ∧ b.datatype.shape = .scalar
  case pos =>
    rw [if_pos scalars, if_pos scalars.symm]
    refine iff_of_true (congrArg of (Datatype.joinAll_perm (.swap _ _ _))) ?_
    rintro ⟨_, _, pair, arrays, -⟩
    cases pair
    exact arrays scalars
  case neg =>
    rw [if_neg scalars, if_neg fun swapped => scalars swapped.symm]
    constructor
    · rintro same ⟨_, _, pair, -, other⟩
      cases pair
      exact other (of_injective same).symm
    · intro even
      by_contra other
      exact even ⟨a, b, rfl, scalars, fun same => other (congrArg of same.symm)⟩

end Typing

/-! ## Typings that rules answer -/

namespace Site

variable {s : Site} {o : Outcome}

/-- Typings of the operands. -/
def typings (s : Site) : List Typing := s.operands.map (·.node.typing)

theorem types_typings : Typing.types s.typings = s.types := List.map_map

/-- Operators start from the join of their operands. -/
theorem Seeded.joined (h : s.Seeded) (operator : s.node.category.isOperator) : s.seed = .joined s.typings := by
  rw [h.eq, if_pos operator, Typing.joined, types_typings, typings, List.all_map]
  rfl

end Site

/-- Operators whose value does not depend on the order of their operands. -/
def Category.commutative : List Category := [.add, .elMul, .and, .andAnd, .or, .orOr, .eq, .ne]

namespace Rule

variable {s : Site} {o : Outcome}

/-- Operators that do not depend on the order of their operands keep what they start from. -/
theorem typing_of_operator {c : Category} (h : s.Seeded) (category : s.node.category = c)
    (operator : c ∈ Category.commutative) {rule : Rule}
    (own : ofCategory? c = some rule) (ok : rule s = .ok o) : o.typing = .joined s.typings := by
  have start : c.isOperator → s.seed = .joined s.typings := fun operator =>
    h.joined (category ▸ operator)
  simp only [Category.commutative, List.mem_cons, List.not_mem_nil, or_false] at operator
  rcases operator with rfl | rfl | rfl | rfl | rfl | rfl | rfl | rfl <;> cases own <;> cases ok <;> exact start rfl

end Rule

namespace BuiltinRule

variable {s : Site} {o : Outcome}

theorem typing_of_land (ok : land s = .ok o) : o.typing = .of (.joinAll (Typing.types s.typings)) := by
  cases ok
  rw [Site.types_typings]

theorem typing_of_lor (ok : lor s = .ok o) : o.typing = .of (.joinAll (Typing.types s.typings)) := by
  cases ok
  rw [Site.types_typings]

theorem typing_of_extremum {a b : Typing} (two : s.typings = [a, b]) (numeric : a.numeric ∧ b.numeric)
    (ok : extremum s = .ok o) : o.typing = .extremum a b := by
  obtain ⟨x, _, operands, rfl, rest⟩ := List.map_eq_cons_iff.mp two
  obtain ⟨y, _, rfl, rfl, last⟩ := List.map_eq_cons_iff.mp rest
  obtain rfl := List.map_eq_nil_iff.mp last
  have numbers : s.operands.all (fun o => o.isPlaceholder || o.numeric) = true := by
    rw [operands, List.all_cons, List.all_cons, show x.numeric = true from numeric.1,
      show y.numeric = true from numeric.2, Bool.or_true, Bool.or_true]
    rfl
  have scalars : s.operands.all (·.shape == .scalar) = true
      ↔ x.node.typing.datatype.shape = .scalar ∧ y.node.typing.datatype.shape = .scalar := by
    rw [operands]
    simp [Operand.shape, Node.shape]
  unfold extremum at ok
  rw [numbers, operands] at ok
  rw [operands] at scalars
  dsimp only at ok
  rw [if_neg (by decide)] at ok
  unfold Typing.extremum
  split at ok
  case isTrue all =>
    cases ok
    rw [if_pos (scalars.mp all), ← two, Site.types_typings]
  case isFalse arrays =>
    unfold extremumOfArrays at ok
    rw [operands] at ok
    cases ok
    rw [if_neg (mt scalars.mpr arrays)]
    rfl

end BuiltinRule

/-! ## Operations -/

namespace Tree

/-- Typings of nodes. -/
def typings (t : Tree) (ids : List NodeId) : List Typing := ids.map fun c => (t.node c).typing

/-- The node is a call of `min` or `max`. -/
def Extremal (t : Tree) (id : NodeId) : Prop := t.category id = .get ∧ (t.node id).name ∈ ["min", "max"]

instance (t : Tree) (id : NodeId) : Decidable (t.Extremal id) := inferInstanceAs (Decidable (_ ∧ _))

/-- The node is an operation whose value does not depend on the order of its operands. -/
inductive Commutes (t : Tree) (id : NodeId) : Prop
  | operator : t.category id ∈ Category.commutative → Commutes t id
  | call : t.category id = .get → (t.node id).name ∈ ["and", "or"] → Commutes t id
  | extremum : t.Extremal id → (t.children id).length = 2 → Commutes t id

theorem Commutes.isInline {t : Tree} {id : NodeId} (h : t.Commutes id) : (t.category id).isInline := by
  cases h with
  | operator operator =>
    generalize t.category id = c at operator
    revert c
    decide
  | call get => rw [get]; rfl
  | extremum extremal => rw [extremal.1]; rfl

end Tree

namespace Resolving

variable {t : Tree}

namespace Applied

variable {id : NodeId} {w w' : Workspace} {text : String} {s : Site} {o : Outcome}
  (h : Applied t id w text w' s o)
include h

/-- Unless the node is an assignment, its operands keep the typings that its rule saw. -/
theorem typings (wf : t.WellFormed) (assign : t.category id ≠ .assign) (assigns : t.category id ≠ .assigns) :
    w'.tree.typings (t.children id) = s.typings := by
  obtain rfl := h.here
  have settled := Rule.select_settles h.seeded
  rw [h.answer] at settled
  rw [Tree.typings, Site.typings, h.operands, List.map_map]
  refine List.map_congr_left fun c child => ?_
  have other : c ≠ s.id := fun eq => wf.not_below_child child (eq ▸ t.below_self s.id)
  rw [h.after, Workspace.commit, Workspace.modifyNode, Tree.node_modify_of_ne other]
  refine Workspace.typing_performAll settled.effects (fun x taken => ?_) _
  rcases taken.1 with kind | kind <;> rw [h.category] at kind
  · exact absurd kind assign
  · exact absurd kind assigns

section

variable (wf : t.WellFormed) (lt : id < t.size)
include wf lt

theorem typing_operator (operator : t.category id ∈ Category.commutative) :
    (w'.tree.node id).typing = .joined (w'.tree.typings (t.children id)) := by
  have kinds : ∀ c ∈ Category.commutative, c ∉ [Category.var, .get, .assigns] ∧ c ≠ .assign
      ∧ c ≠ .assigns ∧ (Rule.ofCategory? c).isSome := by decide
  obtain ⟨plain, assign, assigns, chosen⟩ := kinds _ operator
  obtain ⟨rule, own⟩ := Option.isSome_iff_exists.mp chosen
  rw [h.typing lt, h.typings wf assign assigns]
  exact Rule.typing_of_operator h.seeded h.category operator own (h.rule rfl plain (h.straight assign) own)

theorem typing_call (get : t.category id = .get) (named : (t.node id).name ∈ ["and", "or"]) :
    (w'.tree.node id).typing = .of (.joinAll (Typing.types (w'.tree.typings (t.children id)))) := by
  rw [h.typing lt, h.typings wf (by rw [get]; nofun) (by rw [get]; nofun)]
  rcases List.mem_pair.mp named with land | lor
  · exact BuiltinRule.typing_of_land (h.builtin get (by rw [land]; rfl) (b := .land) rfl)
  · exact BuiltinRule.typing_of_lor (h.builtin get (by rw [lor]; rfl) (b := .lor) rfl)

theorem typing_extremum (extremal : t.Extremal id) {a b : Typing}
    (two : w'.tree.typings (t.children id) = [a, b]) (numeric : a.numeric ∧ b.numeric) :
    (w'.tree.node id).typing = .extremum a b := by
  obtain ⟨get, named⟩ := extremal
  rw [h.typings wf (by rw [get]; nofun) (by rw [get]; nofun)] at two
  rw [h.typing lt]
  rcases List.mem_pair.mp named with min | max
  · exact BuiltinRule.typing_of_extremum two numeric (h.builtin get (by rw [min]; rfl) (b := .min) rfl)
  · exact BuiltinRule.typing_of_extremum two numeric (h.builtin get (by rw [max]; rfl) (b := .max) rfl)

end

end Applied

/-- Two operations of the same kind whose operands are typed alike, but in another order, are typed
alike.  Only a minimum or a maximum of two numbers of different types, not both of them scalars, is
typed by the first operand, and so in another way in the other order. -/
theorem typing_permuted {source source' : String} {t t' : Tree} (parsed : Tree.parse source = .ok t)
    (parsed' : Tree.parse source' = .ok t') {depth depth' : Nat} {id id' : NodeId} {w u : Workspace}
    (same : w.tree.bare = t.bare) (same' : u.tree.bare = t'.bare) (lawful : w.tree.Lawful)
    (lawful' : u.tree.Lawful) (enough : Enough t depth id) (enough' : Enough t' depth' id')
    (commutes : t.Commutes id) (category : t'.category id' = t.category id)
    (name : (t'.node id').name = (t.node id).name) : ∃ text w' text' u',
      resolveWithin depth id w = (.ok text, w') ∧ resolveWithin depth' id' u = (.ok text', u')
      ∧ (let operands := w'.tree.typings (t.children id)
        let others := u'.tree.typings (t'.children id')
        (t.Extremal id → ∀ a ∈ operands, a.numeric) → others.Perm operands →
          ((u'.tree.node id').typing = (w'.tree.node id).typing
            ↔ (t.Extremal id → Typing.Uneven operands → others = operands))) := by
  have wf := Tree.wellFormed_of_parsed parsed
  have wf' := Tree.wellFormed_of_parsed parsed'
  obtain ⟨inline, inline'⟩ : (t.category id).isInline ∧ (t'.category id').isInline := by
    rw [category, and_self]
    exact commutes.isInline
  obtain ⟨block, function⟩ := Category.ne_of_isInline inline
  obtain ⟨block', function'⟩ := Category.ne_of_isInline inline'
  have lt : id < t.size := Tree.lt_size_of_category rfl block
  have lt' : id' < t'.size := Tree.lt_size_of_category rfl block'
  obtain ⟨text, w', run⟩ := exists_text_of_enough wf inline enough same lawful
  obtain ⟨text', u', run'⟩ := exists_text_of_enough wf' inline' enough' same' lawful'
  obtain ⟨s, o, applied⟩ := exists_applied wf lt block function same lawful run
  obtain ⟨s', o', applied'⟩ := exists_applied wf' lt' block' function' same' lawful' run'
  refine ⟨text, w', text', u', run, run', fun numeric perm => ?_⟩
  cases commutes with
  | operator operator =>
    rw [applied.typing_operator wf lt operator, applied'.typing_operator wf' lt' (category ▸ operator)]
    refine iff_of_true (Typing.joined_perm perm) fun extremal => ?_
    rw [extremal.1] at operator
    exact absurd operator (by decide)
  | call get named =>
    rw [applied.typing_call wf lt get named, applied'.typing_call wf' lt' (category ▸ get) (name ▸ named)]
    refine iff_of_true (congrArg Typing.of (Datatype.joinAll_perm (perm.map _))) fun extremal => ?_
    rcases List.mem_pair.mp named with eq | eq <;> exact absurd (eq ▸ extremal.2) (by decide)
  | extremum extremal two =>
    have extremal' : t'.Extremal id' := ⟨category ▸ extremal.1, name ▸ extremal.2⟩
    obtain ⟨a, b, operands⟩ : ∃ a b, w'.tree.typings (t.children id) = [a, b] :=
      List.length_eq_two.mp ((List.length_map _).trans two)
    have numbers := numeric extremal
    rw [operands] at numbers perm ⊢
    obtain ⟨first, rest⟩ := List.forall_mem_cons.mp numbers
    have second := List.forall_mem_singleton.mp rest
    rw [applied.typing_extremum wf lt extremal operands ⟨first, second⟩]
    rcases List.perm_pair.mp perm with order | order
    · rw [applied'.typing_extremum wf' lt' extremal' order ⟨first, second⟩]
      exact iff_of_true rfl fun _ _ => order
    · rw [applied'.typing_extremum wf' lt' extremal' order ⟨second, first⟩, Typing.extremum_swap, order]
      refine ⟨fun even _ uneven => absurd uneven even, fun law uneven => ?_⟩
      have swapped := law extremal uneven
      obtain ⟨_, _, pair, -, other⟩ := uneven
      cases pair
      cases swapped
      exact other rfl

/-- A sum of a matrix and an integer is a matrix in both orders. -/
theorem typing_permuted_sum : ∃ t t', Tree.parse "y = A + 2\n" = .ok t ∧ Tree.parse "y = 2 + A\n" = .ok t'
    ∧ (let state : State := .ofConfig { declarations := ⟨[("A", ⟨.matrix, .float⟩)]⟩ }
      let after := (resolveWithin 7 3 ⟨t, state⟩).2.tree
      let after' := (resolveWithin 7 3 ⟨t', state⟩).2.tree
      after.typings (t.children 3) = [.of ⟨.matrix, .float⟩, .of ⟨.scalar, .int⟩]
        ∧ after'.typings (t'.children 3) = [.of ⟨.scalar, .int⟩, .of ⟨.matrix, .float⟩]
        ∧ (after'.node 3).typing = (after.node 3).typing) := by
  have visits : ∃ t t', Tree.parse "y = A + 2\n" = .ok t ∧ Tree.parse "y = 2 + A\n" = .ok t'
      ∧ t.size = 6 ∧ t'.size = 6 ∧ t.category 3 = .add ∧ t'.category 3 = .add
      ∧ (t'.node 3).name = (t.node 3).name
      ∧ (let state : State := .ofConfig { declarations := ⟨[("A", ⟨.matrix, .float⟩)]⟩ }
        (resolveWithin 7 3 ⟨t, state⟩).2.tree.typings (t.children 3)
            = [.of ⟨.matrix, .float⟩, .of ⟨.scalar, .int⟩]
          ∧ (resolveWithin 7 3 ⟨t', state⟩).2.tree.typings (t'.children 3)
            = [.of ⟨.scalar, .int⟩, .of ⟨.matrix, .float⟩]) := ⟨_, _, by cbv, by cbv, by decide +kernel⟩
  obtain ⟨t, t', parsed, parsed', size, size', add, add', name, operands, operands'⟩ := visits
  have enough : ∀ {t : Tree}, t.WellFormed → t.size = 6 → Enough t (6 + 1) 3 := fun wf size =>
    size ▸ enough_of_lt wf (size ▸ (by decide : 3 < 6))
  obtain ⟨text, w', text', u', run, run', law⟩ := typing_permuted parsed parsed'
    (w := ⟨t, .ofConfig { declarations := ⟨[("A", ⟨.matrix, .float⟩)]⟩ }⟩)
    (u := ⟨t', .ofConfig { declarations := ⟨[("A", ⟨.matrix, .float⟩)]⟩ }⟩) rfl rfl
    (Tree.raw_of_parse parsed).lawful (Tree.raw_of_parse parsed').lawful
    (enough (Tree.wellFormed_of_parsed parsed) size) (enough (Tree.wellFormed_of_parsed parsed') size')
    (.operator (by rw [add]; decide)) (add'.trans add.symm) name
  refine ⟨t, t', parsed, parsed', operands, operands', ?_⟩
  have other : ¬t.Extremal 3 := fun extremal => by
    have get := extremal.1
    rw [add] at get
    cases get
  rw [run] at operands ⊢
  rw [run'] at operands' ⊢
  refine (law (fun extremal => absurd extremal other) ?_).mpr fun extremal => absurd extremal other
  rw [operands, operands']
  exact .swap _ _ _

/-- The larger of a matrix and zero is a matrix in one order only. -/
theorem typing_permuted_not : ∃ t t', Tree.parse "y = max(A, 0)\n" = .ok t
    ∧ Tree.parse "y = max(0, A)\n" = .ok t' ∧ t.Extremal 1 ∧ t'.Extremal 1
    ∧ (let translator : Translator := ⟨.ofConfig { declarations := ⟨[("A", ⟨.matrix, .float⟩)]⟩ }⟩
      let after := (translator.translate t).2.1
      let after' := (translator.translate t').2.1
      after.typings (t.children 1) = [.of ⟨.matrix, .float⟩, .of ⟨.scalar, .int⟩]
        ∧ after'.typings (t'.children 1) = [.of ⟨.scalar, .int⟩, .of ⟨.matrix, .float⟩]
        ∧ (after.node 1).typing = .of ⟨.matrix, .float⟩ ∧ (after'.node 1).typing = .of ⟨.scalar, .int⟩) :=
  ⟨_, _, by cbv, by cbv, by decide +kernel⟩

end Resolving

end MatrixScript
