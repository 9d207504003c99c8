/-
# `Proofs.Rule.Settled` — how far an answer is to be trusted

What every answer of a rule keeps to (`Settled`), at a site that starts from its
operands (`Site.Seeded`):

* of the slots in the tree it asks only for those of the node, of a child or of a
  grandchild, and for the redirection of an assignment above the node;
* where everything that counts as a number has a type of numbers (`Typing.Sound`),
  the node counts as a number only if it has one too;
* where every type is known in both of its parts or in neither (`Datatype.Whole`),
  the type of the node is.

The last does not hold of an extremum along an axis whose first argument holds the
place of another (`Site.ReducesNothing`): it gives a shape to the unknown type.

The rules follow in the order of their modules.
-/
import MatrixScript.Proofs.Rule.Alike

namespace MatrixScript

/-! ## Types -/

namespace Shape

theorem max_ne_unknown {a b : Shape} (h : b ≠ .unknown) : max a b ≠ .unknown := by
  cases a <;> cases b <;> first | decide | exact absurd rfl h

theorem reduced_ne_unknown {s : Shape} (h : s ≠ .unknown) : s.reduced ≠ .unknown := by
  cases s <;> first | decide | exact absurd rfl h

theorem transposed_ne_unknown {s : Shape} (h : s ≠ .unknown) : s.transposed ≠ .unknown := by
  cases s <;> first | decide | exact absurd rfl h

theorem ne_unknown_of_mul {a b c : Shape} (ha : a ≠ .unknown) (hb : b ≠ .unknown)
    (eq : a.mul b = .ok c) : c ≠ .unknown := by
  cases a <;> cases b <;> first | exact absurd rfl ha | exact absurd rfl hb | cases eq <;> decide

theorem ne_unknown_of_div {a b c : Shape} (ha : a ≠ .unknown) (hb : b ≠ .unknown)
    (eq : a.div b = .ok c) : c ≠ .unknown := by
  cases a <;> cases b <;> first | exact absurd rfl ha | exact absurd rfl hb | cases eq <;> decide

end Shape

theorem StorageClass.max_ne_unresolved {a b : StorageClass} (h : b ≠ .unresolved) :
    max a b ≠ .unresolved := by
  cases a <;> cases b <;> first | decide | exact absurd rfl h

namespace Datatype

theorem isKnown_iff {d : Datatype} : d.isKnown ↔ d.shape ≠ .unknown ∧ d.cls ≠ .unresolved := by
  simp only [isKnown, Bool.and_eq_true, bne_iff_ne, and_comm]

/-- Both parts of the type are known, or neither is. -/
def Whole (d : Datatype) : Prop := d = unknown ∨ d.isKnown

variable {d d' : Datatype}

theorem whole_unknown : unknown.Whole := .inl rfl

theorem whole_scalar {c : StorageClass} (h : c ≠ .unresolved) : (scalar c).Whole :=
  .inr (isKnown_iff.mpr ⟨nofun, h⟩)

theorem isKnown_withShape (h : d.isKnown) {s : Shape} (shape : s ≠ .unknown) :
    (d.withShape s).isKnown :=
  isKnown_iff.mpr ⟨shape, (isKnown_iff.mp h).2⟩

theorem isKnown_withClass (h : d.isKnown) {c : StorageClass} (cls : c ≠ .unresolved) :
    (d.withClass c).isKnown :=
  isKnown_iff.mpr ⟨(isKnown_iff.mp h).1, cls⟩

theorem isKnown_of_numeric (h : d.isNumeric) : d.isKnown := (Bool.and_eq_true _ _ |>.mp h).1

theorem Whole.known_of_shape (h : d.Whole) (shape : d.shape ≠ .unknown) : d.isKnown :=
  h.resolve_left fun eq => shape (eq ▸ rfl)

/-! ### Joins -/

theorem isKnown_join : (d.join d').isKnown ↔ d.isKnown ∧ d'.isKnown := by
  unfold join
  split
  case isTrue both =>
    have both := Bool.and_eq_true _ _ |>.mp both
    refine iff_of_true (isKnown_iff.mpr ⟨?_, ?_⟩) both
    · exact Shape.max_ne_unknown (isKnown_iff.mp both.2).1
    · exact StorageClass.max_ne_unresolved (isKnown_iff.mp both.2).2
  case isFalse other =>
    exact iff_of_false nofun fun both => other (Bool.and_eq_true _ _ |>.mpr both)

theorem whole_join (d d' : Datatype) : (d.join d').Whole := by
  by_cases both : d.isKnown ∧ d'.isKnown
  · exact .inr (isKnown_join.mpr both)
  · exact .inl (if_neg fun known => both (Bool.and_eq_true _ _ |>.mp known))

theorem isKnown_foldl_join {ds : List Datatype} :
    (ds.foldl join d).isKnown ↔ d.isKnown ∧ ∀ e ∈ ds, e.isKnown := by
  induction ds generalizing d with
  | nil => exact ⟨fun h => ⟨h, nofun⟩, And.left⟩
  | cons e ds ih => rw [List.foldl_cons, ih, isKnown_join, List.forall_mem_cons, and_assoc]

/-- A join is known only if all that is joined is. -/
theorem isKnown_of_joinAll {ds : List Datatype} (h : (joinAll ds).isKnown) :
    ∀ d ∈ ds, d.isKnown := by
  cases ds with
  | nil => exact nofun
  | cons d ds => exact List.forall_mem_cons.mpr (isKnown_foldl_join.mp h)

theorem isKnown_joinAll {ds : List Datatype} (some : ds ≠ []) (h : ∀ d ∈ ds, d.isKnown) :
    (joinAll ds).isKnown := by
  cases ds with
  | nil => exact absurd rfl some
  | cons d ds => exact isKnown_foldl_join.mpr (List.forall_mem_cons.mp h)

theorem whole_joinAll {ds : List Datatype} (h : ∀ d ∈ ds, d.Whole) : (joinAll ds).Whole := by
  cases ds with
  | nil => exact whole_unknown
  | cons d ds =>
    obtain ⟨first, -⟩ := List.forall_mem_cons.mp h
    show (ds.foldl join d).Whole
    clear h
    induction ds generalizing d with
    | nil => exact first
    | cons e ds ih => exact ih (d.join e) (d.whole_join e)

end Datatype

namespace Typing

/-- What counts as a number has a type of numbers. -/
def Sound (t : Typing) : Prop := t.numeric → t.datatype.isNumeric

theorem sound_of (d : Datatype) : (of d).Sound := id

theorem sound_unknown : unknown.Sound := nofun

theorem Sound.isKnown {t : Typing} (h : t.Sound) (numeric : t.numeric) : t.datatype.isKnown :=
  Datatype.isKnown_of_numeric (h numeric)

end Typing

namespace Tree

/-- Everything that counts as a number has a type of numbers. -/
def Sound (t : Tree) : Prop := ∀ i, (t.node i).typing.Sound

/-- Every type is known in both of its parts or in neither. -/
def Whole (t : Tree) : Prop := ∀ i, (t.node i).datatype.Whole

end Tree

/-! ## Sites -/

/-- A literal one-based axis of a matrix. -/
def Node.isAxis (n : Node) : Prop := n.intValue? = some 1 ∨ n.intValue? = some 2

/-- The first argument holds the place of an array that is to be reduced along an axis. -/
def Site.ReducesNothing (s : Site) : Prop :=
  ∃ x y axis, s.operands = [x, y, axis] ∧ x.isPlaceholder ∧ axis.node.isAxis

/-- The operands are the children of the node, and its typing starts from them. -/
structure Site.Seeded (s : Site) : Prop where
  ids : s.operands.map (·.id) = s.tree.children s.id
  node : ∀ o ∈ s.operands, o.node = s.tree.node o.id
  seed : s.seed = Workspace.seedTyping s.tree s.node

/-- Types are known in both of their parts or in neither, and stay so. -/
structure Site.Whole (s : Site) : Prop where
  tree : s.tree.Whole
  lookup : ∀ x d, s.lookup x = some d → d.Whole
  reduces : s.node.category = .get → Rule.builtinOf? s.tree s.node = some .min
    ∨ Rule.builtinOf? s.tree s.node = some .max → ¬s.ReducesNothing

namespace Site

variable {s : Site}

theorem Seeded.mem_children (h : s.Seeded) {o : Operand} (mem : o ∈ s.operands) :
    o.id ∈ s.tree.children s.id :=
  h.ids ▸ List.mem_map_of_mem mem

theorem Seeded.sound (h : s.Seeded) (sound : s.tree.Sound) {o : Operand} (mem : o ∈ s.operands) :
    o.node.typing.Sound :=
  h.node o mem ▸ sound o.id

/-- An operand that counts as a number has a known type. -/
theorem Seeded.known (h : s.Seeded) (sound : s.tree.Sound) {o : Operand} (mem : o ∈ s.operands)
    (numeric : o.numeric) : o.datatype.isKnown :=
  (h.sound sound mem).isKnown numeric

theorem Seeded.whole (h : s.Seeded) (whole : s.Whole) {o : Operand} (mem : o ∈ s.operands) :
    o.datatype.Whole := by
  have there := whole.tree o.id
  rwa [← h.node o mem] at there

theorem Seeded.whole_types (h : s.Seeded) (whole : s.Whole) : (Datatype.joinAll s.types).Whole :=
  Datatype.whole_joinAll (List.forall_mem_map.mpr fun _ mem => h.whole whole mem)

/-- An operator starts from the join of its operands, everything else from nothing. -/
theorem Seeded.eq (h : s.Seeded) : s.seed
    = if s.node.category.isOperator then
        ⟨.joinAll s.types, (Datatype.joinAll s.types).isNumeric && s.operands.all (·.numeric)⟩
      else .unknown := by
  have nodes : s.node.children.map s.tree.node = s.operands.map (·.node) := by
    rw [show s.node.children = s.operands.map (·.id) from h.ids.symm, List.map_map]
    exact List.map_congr_left fun o mem => (h.node o mem).symm
  have types : (s.operands.map (·.node)).map (·.datatype) = s.types := by
    rw [List.map_map]
    rfl
  have numeric : (s.operands.map (·.node)).all (·.numeric) = s.operands.all (·.numeric) := by
    rw [List.all_map]
    rfl
  rw [h.seed, Workspace.seedTyping]
  dsimp only
  rw [nodes, types, numeric]

theorem Seeded.sound_seed (h : s.Seeded) : s.seed.Sound := by
  rw [h.eq]
  split
  · exact fun numeric => (Bool.and_eq_true _ _ |>.mp numeric).1
  · exact Typing.sound_unknown

theorem Seeded.whole_seed (h : s.Seeded) (whole : s.Whole) : s.seed.datatype.Whole := by
  rw [h.eq]
  split
  · exact h.whole_types whole
  · exact Datatype.whole_unknown

/-- If what the node starts from is known, so are its operands. -/
theorem Seeded.known_of_seed (h : s.Seeded) (known : s.seed.datatype.isKnown) :
    ∀ o ∈ s.operands, o.datatype.isKnown := by
  rw [h.eq] at known
  split at known
  · exact List.forall_mem_map.mp (Datatype.isKnown_of_joinAll known)
  · cases known

end Site

/-! ## Answers -/

/-- What the rule at a site may ask for. -/
inductive Effect.Modest (s : Site) : Effect → Prop
  | report {node : NodeId} {problem : Problem} {message : String} :
      Modest s (.report node problem message)
  | use {i : Include} : Modest s (.use i)
  | record {x : String} {d : Datatype} : Builtin.isReserved x = false → Modest s (.record x d)
  | tic : Modest s .tic
  | toc : Modest s .toc
  | redirect {b : Builtin} : s.parentCategory? = some .assign → Modest s (.redirect b)
  | hoist {node : NodeId} {text : String} {d : Datatype} : s.tree.Reaches s.id node →
      Modest s (.hoist node text d)
  | destination {o : Operand} {d : Datatype} : s.Takes o →
      (s.tree.Sound → s.Whole → d.Whole) → Builtin.isReserved o.node.name = false →
      Modest s (.destination o.id d)

/-- An outcome that keeps to what a rule may do. -/
structure Outcome.Settled (s : Site) (o : Outcome) : Prop where
  effects : ∀ e ∈ o.effects, e.Modest s
  sound : s.tree.Sound → o.typing.Sound
  whole : s.tree.Sound → s.Whole → o.typing.datatype.Whole

/-- An answer that keeps to what a rule may do. -/
def Settles (s : Site) : Except Error Outcome → Prop
  | .ok o => o.Settled s
  | .error _ => True

namespace Settles

variable {s : Site} {template : Template} {effects : List Effect}

theorem keep (h : s.Seeded) (modest : ∀ e ∈ effects, e.Modest s) :
    Settles s (s.keep template effects) :=
  ⟨modest, fun _ => h.sound_seed, fun _ => h.whole_seed⟩

theorem typed {d : Datatype} (modest : ∀ e ∈ effects, e.Modest s)
    (whole : s.tree.Sound → s.Whole → d.Whole) : Settles s (s.typed d template effects) :=
  ⟨modest, fun _ => Typing.sound_of d, whole⟩

/-- A type that is known whatever the site is. -/
theorem known {d : Datatype} (modest : ∀ e ∈ effects, e.Modest s)
    (known : d.isKnown) : Settles s (s.typed d template effects) :=
  typed modest fun _ _ => .inr known

/-- The typing of an operand. -/
theorem inherit (h : s.Seeded) {x : Operand} (mem : x ∈ s.operands)
    (modest : ∀ e ∈ effects, e.Modest s) :
    Settles s (s.withTyping x.node.typing template effects) :=
  ⟨modest, fun sound => h.sound sound mem, fun _ whole => h.whole whole mem⟩

/-- The type of an operand that does not count as a number. -/
theorem cleared (h : s.Seeded) {x : Operand} (mem : x ∈ s.operands)
    (modest : ∀ e ∈ effects, e.Modest s) :
    Settles s (s.withTyping ⟨x.datatype, false⟩ template effects) :=
  ⟨modest, nofun, fun _ whole => h.whole whole mem⟩

theorem nothing : ∀ e ∈ ([] : List Effect), e.Modest s := nofun

theorem single {e : Effect} (modest : e.Modest s) : ∀ e' ∈ [e], e'.Modest s :=
  List.forall_mem_singleton.mpr modest

theorem append {first second : List Effect} (h : ∀ e ∈ first, e.Modest s)
    (h' : ∀ e ∈ second, e.Modest s) : ∀ e ∈ first ++ second, e.Modest s :=
  List.forall_mem_append.mpr ⟨h, h'⟩

theorem refuse (h : s.Seeded) : Settles s s.refuse := keep h (single .report)

end Settles

namespace Rule

open Settles

variable {s : Site}

/-! ## Operators -/

theorem checkNumeric_modest (operation : String) : ∀ e ∈ checkNumeric operation s, e.Modest s := by
  unfold checkNumeric
  split
  · exact single .report
  · exact nothing

theorem add_settles (h : s.Seeded) : Settles s (add s) := keep h (checkNumeric_modest _)

theorem sub_settles (h : s.Seeded) : Settles s (sub s) := keep h (checkNumeric_modest _)

/-- Operands of a product are only reported, and known shapes have a known product. -/
theorem productShape_settled {operands : List Operand} {shape : Shape} :
    (∀ e ∈ (productShape shape operands).2, e.Modest s) ∧
    (shape ≠ .unknown → (∀ o ∈ operands, o.shape ≠ .unknown) →
      (productShape shape operands).1 ≠ .unknown) := by
  induction operands generalizing shape with
  | nil => exact ⟨nothing, fun known _ => known⟩
  | cons o rest ih =>
    unfold productShape
    split
    case h_1 next eq =>
      refine ⟨ih.1, fun known others => ?_⟩
      obtain ⟨first, others⟩ := List.forall_mem_cons.mp others
      exact ih.2 (Shape.ne_unknown_of_mul known first eq) others
    case h_2 =>
      refine ⟨List.forall_mem_cons.mpr ⟨.report, ih.1⟩, fun known others => ?_⟩
      exact ih.2 known (List.forall_mem_cons.mp others).2

theorem mul_settles (h : s.Seeded) : Settles s (mul s) := by
  unfold mul
  split
  · exact keep h nothing
  case isFalse unsettled =>
    have seed : s.seed.datatype.isKnown := by simpa using unsettled
    split
    · exact keep h (single .report)
    · split
      · trivial
      case h_2 first rest eq =>
        have shapes : ∀ o ∈ first :: rest, o.shape ≠ .unknown := by
          rw [← eq]
          exact fun o mem => (Datatype.isKnown_iff.mp (h.known_of_seed seed o mem)).1
        obtain ⟨shape, others⟩ := List.forall_mem_cons.mp shapes
        refine typed productShape_settled.1 fun _ _ => .inr (Datatype.isKnown_withShape seed ?_)
        exact (productShape_settled (s := s)).2 shape others

theorem elMul_settles (h : s.Seeded) : Settles s (elMul s) := keep h (checkNumeric_modest _)

theorem power_settles (h : s.Seeded) : Settles s (power s) := by
  unfold power
  split
  · trivial
  · exact keep h nothing

theorem comparison_settles (h : s.Seeded) (operator : String) :
    Settles s (comparison operator s) := by
  refine keep h ?_
  split
  · exact single .report
  · exact nothing

theorem logical_settles (h : s.Seeded) (operator : String) : Settles s (logical operator s) :=
  keep h nothing

theorem neg_settles (h : s.Seeded) : Settles s (neg s) := keep h nothing

theorem not_settles (h : s.Seeded) : Settles s (not s) := keep h nothing

/-- A typing that a transpose can start from: what counts as a number is the first operand. -/
structure Turns (s : Site) (typing : Typing) : Prop where
  sound : s.tree.Sound → typing.Sound
  whole : s.Whole → typing.datatype.Whole
  shape : s.tree.Sound → typing.numeric → ∀ o ∈ s.operands.head?, o.shape ≠ .unknown

theorem turns_seed (h : s.Seeded) : Turns s s.seed where
  sound _ := h.sound_seed
  whole := h.whole_seed
  shape _ numeric o mem :=
    (Datatype.isKnown_iff.mp (h.known_of_seed (h.sound_seed.isKnown numeric) o
      (List.mem_of_mem_head? mem))).1

theorem turned_settles {typing : Typing} (h : Turns s typing) (numeric : typing.numeric)
    (template : Datatype → Template) :
    Settles s (turned typing s >>= fun d => s.typed d (template d)) := by
  unfold turned
  cases eq : s.operands with
  | nil => trivial
  | cons o rest =>
    refine typed nothing fun sound _ => .inr (Datatype.isKnown_withShape ?_ ?_)
    · exact (h.sound sound).isKnown numeric
    · exact Shape.transposed_ne_unknown (h.shape sound numeric o (by rw [eq]; rfl))

theorem transposed_settles {typing : Typing} (h : Turns s typing) :
    Settles s (transposed typing s) := by
  unfold transposed
  split
  · exact ⟨nothing, h.sound, fun _ => h.whole⟩
  case isFalse numeric =>
    exact turned_settles h (by simpa using numeric) fun _ => .join "arma::strans(" "" ")"

theorem transpose_settles (h : s.Seeded) : Settles s (transpose s) :=
  transposed_settles (turns_seed h)

theorem conjugated_settles {typing : Typing} (h : Turns s typing) :
    Settles s (conjugated typing s) := by
  unfold conjugated
  split
  · exact ⟨nothing, h.sound, fun _ => h.whole⟩
  case isFalse numeric =>
    exact turned_settles h (by simpa using numeric) fun d =>
      if d.cls == .complex then .join "arma::trans(" "" ")" else .join "arma::strans(" "" ")"

theorem ctranspose_settles (h : s.Seeded) : Settles s (ctranspose s) :=
  conjugated_settles (turns_seed h)

theorem paren_settles (h : s.Seeded) : Settles s (paren s) := keep h nothing

/-! ## Divisions -/

theorem quotientTyping_settled (h : s.Seeded) : (quotientTyping s.seed).Sound
    ∧ (s.Whole → (quotientTyping s.seed).datatype.Whole) := by
  unfold quotientTyping
  split
  case isTrue numeric =>
    refine ⟨Typing.sound_of _, fun _ => .inr ?_⟩
    exact Datatype.isKnown_withClass (h.sound_seed.isKnown numeric)
      (StorageClass.max_ne_unresolved nofun)
  case isFalse => exact ⟨h.sound_seed, h.whole_seed⟩

theorem elRightDiv_settles (h : s.Seeded) : Settles s (elRightDiv s) := by
  unfold elRightDiv
  split
  · trivial
  · exact ⟨checkNumeric_modest _, fun _ => (quotientTyping_settled h).1,
      fun _ => (quotientTyping_settled h).2⟩

theorem elLeftDiv_settles (h : s.Seeded) : Settles s (elLeftDiv s) := by
  unfold elLeftDiv
  split
  · trivial
  · exact ⟨checkNumeric_modest _, fun _ => (quotientTyping_settled h).1,
      fun _ => (quotientTyping_settled h).2⟩

/-- A step of a quotient keeps a known class known. -/
def KeepsClass (step : Quotient → Operand → Quotient) : Prop :=
  ∀ q o, o.cls ≠ .unresolved → (step q o).cls ≠ .unresolved

theorem solveRight_keepsClass : KeepsClass solveRight := by
  intro q o known
  unfold solveRight
  split
  · exact StorageClass.max_ne_unresolved known
  · split
    · exact StorageClass.max_ne_unresolved known
    · exact StorageClass.max_ne_unresolved known

theorem solveLeft_keepsClass : KeepsClass solveLeft := by
  intro q o known
  unfold solveLeft
  split
  · exact StorageClass.max_ne_unresolved known
  · split
    · exact StorageClass.max_ne_unresolved known
    · exact StorageClass.max_ne_unresolved known

theorem quotientShape_settled {operator : String} {q : Quotient} {o : Operand} :
    (∀ e ∈ (quotientShape s operator q o).2, e.Modest s) ∧
    (q.shape ≠ .unknown → o.shape ≠ .unknown →
      (quotientShape s operator q o).1 ≠ .unknown) := by
  unfold quotientShape
  split
  case h_1 shape eq => exact ⟨nothing, fun known known' => Shape.ne_unknown_of_div known known' eq⟩
  case h_2 => exact ⟨single .report, fun known _ => known⟩

/-- Operands of a quotient are only reported, and known types have a known quotient. -/
theorem quotient_settled {step : Quotient → Operand → Quotient} (keeps : KeepsClass step)
    {operator : String} {operands : List Operand} {q : Quotient} :
    (∀ e ∈ (quotient s operator step q operands).2, e.Modest s) ∧
    (q.shape ≠ .unknown → q.cls ≠ .unresolved → (∀ o ∈ operands, o.datatype.isKnown) →
      (quotient s operator step q operands).1.shape ≠ .unknown
        ∧ (quotient s operator step q operands).1.cls ≠ .unresolved) := by
  induction operands generalizing q with
  | nil => exact ⟨nothing, fun shape cls _ => ⟨shape, cls⟩⟩
  | cons o rest ih =>
    refine ⟨append quotientShape_settled.1 ih.1, fun shape cls known => ?_⟩
    obtain ⟨first, others⟩ := List.forall_mem_cons.mp known
    obtain ⟨shape', cls'⟩ := Datatype.isKnown_iff.mp first
    exact ih.2 ((quotientShape_settled (s := s)).2 shape shape') (keeps q o cls') others

theorem structural_settles (h : s.Seeded) (operator : String)
    {step : Quotient → Operand → Quotient} (keeps : KeepsClass step) {scalars : Rule}
    (hs : Settles s (scalars s)) : Settles s (structural operator step scalars s) := by
  unfold structural
  split
  · exact keep h nothing
  case isFalse unsettled =>
    have seed : s.seed.datatype.isKnown := by simpa using unsettled
    split
    · exact hs
    · split
      · trivial
      case h_2 first rest eq =>
        have known := h.known_of_seed seed
        rw [eq] at known
        obtain ⟨here, others⟩ := List.forall_mem_cons.mp known
        obtain ⟨shape, cls⟩ := Datatype.isKnown_iff.mp here
        refine typed (append (checkNumeric_modest _) (quotient_settled keeps).1) fun _ _ => .inr ?_
        exact Datatype.isKnown_iff.mpr ((quotient_settled (s := s) keeps).2 shape cls others)

theorem rightDiv_settles (h : s.Seeded) : Settles s (rightDiv s) :=
  structural_settles h "/" solveRight_keepsClass (elRightDiv_settles h)

theorem leftDiv_settles (h : s.Seeded) : Settles s (leftDiv s) :=
  structural_settles h "\\" solveLeft_keepsClass (elLeftDiv_settles h)

/-! ## Ranges, axes, subscripts -/

theorem rangeOfPositions_settles : Settles s (rangeOfPositions s) := by
  unfold rangeOfPositions
  split
  · exact known nothing rfl
  · exact known (single .use) rfl
  · exact known nothing rfl

theorem rangeClass_ne_unresolved : rangeClass s ≠ .unresolved := by
  unfold rangeClass
  dsimp only
  split
  · nofun
  · split
    · nofun
    · split
      · nofun
      · nofun

theorem rangeOfValues_settles : Settles s (rangeOfValues s) := by
  have kind : Datatype.isKnown ⟨.colvec, rangeClass s⟩ :=
    Datatype.isKnown_iff.mpr ⟨nofun, rangeClass_ne_unresolved⟩
  unfold rangeOfValues
  split
  · exact known (single .use) kind
  · split
    · exact known (single .use) kind
    · exact known (single .use) kind
  · exact known nothing kind

theorem range_settles : Settles s (range s) := by
  unfold range
  split
  · exact rangeOfPositions_settles
  · exact rangeOfValues_settles

theorem all_settles : Settles s (all s) := by
  unfold all
  split
  · exact known (single .use) rfl
  · exact known nothing rfl

theorem last_settles (h : s.Seeded) : Settles s (last s) := by
  unfold last
  split
  · exact keep h (single .report)
  · split
    · exact known nothing rfl
    · exact known (single .report) rfl

theorem selectedShape_ne_unknown {whole : Shape} (h : whole ≠ .unknown) (points : List Bool) :
    selectedShape whole points ≠ .unknown := by
  unfold selectedShape
  split
  · nofun
  · split
    case h_6 => exact h
    all_goals nofun

theorem subscript_settles (h : s.Seeded) : Settles s (subscript s) := by
  unfold subscript
  split
  · exact keep h nothing
  case h_2 d _ =>
    dsimp only
    split
    case isTrue settled =>
      exact known nothing (Datatype.isKnown_withShape settled
        (selectedShape_ne_unknown (Datatype.isKnown_iff.mp settled).1 _))
    case isFalse => exact keep h nothing

/-! ## Assignments -/

theorem binding_modest {destination : Operand}
    (free : Builtin.isReserved destination.node.name = false) (d : Datatype) :
    ∀ e ∈ binding destination d, e.Modest s := by
  unfold binding
  split
  · exact single (.record free)
  · exact nothing

/-- Past the check no destination has a reserved name. -/
theorem checked_settles {destinations : List Operand} {answer : PUnit → Except Error Outcome}
    (h : (∀ o ∈ destinations, Builtin.isReserved o.node.name = false) →
      Settles s (answer ⟨⟩)) : Settles s (checkDestinations destinations >>= answer) := by
  unfold checkDestinations reservedDestination?
  split
  case h_1 => trivial
  case h_2 none =>
    refine h fun o mem => Bool.eq_false_iff.mpr ?_
    exact List.find?_eq_none.mp none _ (List.mem_map_of_mem mem)

theorem statement_settles (h : s.Seeded) : Settles s (statement s) := keep h nothing

theorem assign_settles (h : s.Seeded) : Settles s (assign s) := by
  unfold assign
  split
  · exact checked_settles fun free =>
      keep h (binding_modest (free _ (List.mem_singleton_self _)) _)
  · trivial

theorem assigns_settles (h : s.Seeded) : Settles s (assigns s) := by
  unfold assigns
  split
  · trivial
  · refine checked_settles fun _ => ?_
    dsimp only
    split
    · exact keep h nothing
    · exact keep h (single .report)

/-! ## Definitions -/

theorem function_settles (h : s.Seeded) : Settles s (function s) := by
  unfold function
  split
  · dsimp only
    split
    · exact keep h nothing
    · exact keep h nothing
  · trivial

theorem names_settles (h : s.Seeded) : Settles s (names s) := keep h nothing

theorem ret_settles (h : s.Seeded) : Settles s (ret s) := by
  unfold ret
  split
  · exact keep h nothing
  · exact keep h nothing

theorem brk_settles (h : s.Seeded) : Settles s (brk s) := keep h nothing

/-! ## Literals -/

theorem var_settles (h : s.Seeded) : Settles s (var s) := by
  unfold var
  split
  case h_1 d found => exact typed nothing fun _ whole => whole.lookup _ d found
  case h_2 => exact keep h nothing

theorem row_settles (h : s.Seeded) : Settles s (row s) := by
  unfold row
  split
  · exact keep h nothing
  case h_2 element eq => exact inherit h (by rw [eq]; exact List.mem_singleton_self _) nothing
  case h_3 first rest several =>
    dsimp only
    split
    case isTrue scalars =>
      -- scalars have a known type if their types are whole, so their join has one
      refine typed nothing fun _ whole => .inr (Datatype.isKnown_withShape ?_ nofun)
      refine Datatype.isKnown_joinAll ?_ (List.forall_mem_map.mpr fun o mem => ?_)
      · rw [Site.types, several]
        nofun
      · have scalar : o.datatype.shape = .scalar := eq_of_beq (List.all_eq_true.mp scalars o mem)
        exact (h.whole whole mem).known_of_shape (by rw [scalar]; nofun)
    case isFalse =>
      split
      case isTrue settled =>
        refine known nothing (Datatype.isKnown_withShape settled ?_)
        split
        · nofun
        · nofun
      case isFalse => exact keep h nothing

theorem plainMatrix_settles {d : Datatype} (settled : d.isKnown) : Settles s (plainMatrix d s) := by
  have reshaped : ∀ {shape}, shape ≠ .unknown → (d.withShape shape).isKnown :=
    Datatype.isKnown_withShape settled
  unfold plainMatrix
  split
  · trivial
  · split
    · exact known nothing (reshaped nofun)
    · exact known nothing (reshaped nofun)
  · split
    · exact known nothing (reshaped nofun)
    · refine known ?_ (reshaped nofun)
      split
      · exact single .report
      · exact nothing

theorem stackedShape_ne_unknown {rows : List Operand}
    (h : ∀ o ∈ rows, o.datatype.isKnown) : stackedShape rows ≠ .unknown := by
  unfold stackedShape
  split
  case h_1 only => exact (Datatype.isKnown_iff.mp (h only (List.mem_singleton_self _))).1
  case h_2 =>
    split
    · nofun
    · nofun

theorem stackedTyping_settled (h : s.Seeded) :
    (s.tree.Sound → (stackedTyping (.joinAll s.types) s).Sound)
      ∧ (s.Whole → (stackedTyping (.joinAll s.types) s).datatype.Whole) := by
  unfold stackedTyping
  split
  case isTrue settled =>
    refine ⟨fun _ => Typing.sound_of _, fun _ => .inr (Datatype.isKnown_withShape settled ?_)⟩
    exact stackedShape_ne_unknown (List.forall_mem_map.mp (Datatype.isKnown_of_joinAll settled))
  case isFalse unsettled =>
    split
    case h_1 only eq =>
      refine ⟨fun sound numeric => absurd ?_ unsettled, h.whole_seed⟩
      rw [Site.types, eq]
      exact h.known sound (by rw [eq]; exact List.mem_singleton_self _) numeric
    case h_2 => exact ⟨fun _ => h.sound_seed, h.whole_seed⟩

theorem matrix_settles (h : s.Seeded) : Settles s (matrix s) := by
  unfold matrix
  dsimp only
  split
  · exact keep h nothing
  · split
    · exact known nothing rfl
    · split
      · split
        case isTrue settled => exact plainMatrix_settles settled
        case isFalse => exact keep h nothing
      · unfold stackedMatrix
        split
        · trivial
        · exact ⟨nothing, (stackedTyping_settled h).1, fun _ => (stackedTyping_settled h).2⟩

/-! ## By category -/

theorem untranslated_settles (h : s.Seeded) : Settles s (untranslated s) := keep h (single .report)

theorem ofCategory?_settles (h : s.Seeded) {c : Category} {rule : Rule}
    (eq : ofCategory? c = some rule) : Settles s (rule s) := by
  cases c <;> first | cases eq; done | obtain rfl := Option.some.inj eq
  case statement => exact statement_settles h
  case assign => exact assign_settles h
  case assigns => exact assigns_settles h
  case function => exact function_settles h
  case params | returns => exact names_settles h
  case ret => exact ret_settles h
  case brk => exact brk_settles h
  case var => exact var_settles h
  case get | set => exact subscript_settles h
  case int | float | imag | str => exact known nothing rfl
  case matrix => exact matrix_settles h
  case row => exact row_settles h
  case add => exact add_settles h
  case sub => exact sub_settles h
  case mul => exact mul_settles h
  case elMul => exact elMul_settles h
  case rightDiv => exact rightDiv_settles h
  case leftDiv => exact leftDiv_settles h
  case elRightDiv => exact elRightDiv_settles h
  case elLeftDiv => exact elLeftDiv_settles h
  case pow | elPow => exact power_settles h
  case gt | ge | lt | le | ne | eq => exact comparison_settles h _
  case andAnd | and | orOr | or => exact logical_settles h _
  case neg => exact neg_settles h
  case not => exact not_settles h
  case transpose => exact transpose_settles h
  case ctranspose => exact ctranspose_settles h
  case paren => exact paren_settles h
  case range => exact range_settles
  case all => exact all_settles
  case last => exact last_settles h

end Rule

end MatrixScript
