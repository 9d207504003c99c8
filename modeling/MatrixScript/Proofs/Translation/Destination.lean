/-
# `Proofs.Translation.Destination` — where values are written

The arguments of a destination are counted from zero by three rules: the one of the subscript
shifts positions, the one of a range its bounds, and a colon runs from zero anyway.  Each of
them looks up the variable for itself, and all of them find what is known when the turn of the
statement comes (`Resolving.Turn.destination`).  So an argument is counted from zero exactly
if the variable is known by then, and to be numeric for a range: the first value that is written
into a variable that is nowhere declared goes to a place counted from one
(`Translator.destinations_count`).
-/
import MatrixScript.Proofs.Translation.Applied
import MatrixScript.Proofs.Translation.Subscript

namespace MatrixScript

open Cpp Resolving Workspace

variable {t : Tree}

/-! ## Counting from zero -/

namespace Tree

section

variable (t : Tree)

/-- A position counted from zero: a literal that fits is folded, and behind all else stands `-1`. -/
def shifted (a : NodeId) : String :=
  match (t.node a).intValue? with
  | some k => toString (k - 1)
  | none => (t.node a).text ++ "-1"

/-- An argument counted from zero: the bounds of a range are shifted, a colon is as it is. -/
def zeroBased (a : NodeId) : String :=
  match t.category a, t.children a with
  | .all, _ => (t.node a).text
  | .range, [first, last] => "arma::span(" ++ t.shifted first ++ ", " ++ t.shifted last ++ ")"
  | .range, [first, step, last] =>
      "m2cpp::uspan(" ++ t.shifted first ++ ", " ++ (t.node step).text ++ ", " ++ t.shifted last ++ ")"
  | _, _ => t.shifted a

/-- What is known of a variable is enough to count the argument from zero. -/
def Counts (known : Option Datatype) (a : NodeId) : Prop :=
  ∃ d ∈ known, t.category a = .range → d.isNumeric

instance (known : Option Datatype) (a : NodeId) : Decidable (t.Counts known a) :=
  inferInstanceAs (Decidable (∃ d ∈ known, t.category a = .range → d.isNumeric))

/-- An argument of a variable of which this is known. -/
def argument (known : Option Datatype) (a : NodeId) : String :=
  if t.Counts known a then t.zeroBased a else (t.node a).text

end

/-- A range has two bounds, and maybe a step between them. -/
theorem WellFormed.children_range (wf : t.WellFormed) {a : NodeId} (range : t.category a = .range) :
    (∃ first last, t.children a = [first, last]) ∨ ∃ first step last, t.children a = [first, step, last] := by
  have admits := (wf.shaped a (lt_size_of_category range nofun)).children
  rw [range] at admits
  have count := (Bool.and_eq_true _ _ |>.mp admits).1
  rw [List.length_map] at count
  match t.children a, count with
  | [first, last], _ => exact .inl ⟨first, last, rfl⟩
  | [first, step, last], _ => exact .inr ⟨first, step, last, rfl⟩

theorem zeroBased_of_ne {a : NodeId} (all : t.category a ≠ .all) (range : t.category a ≠ .range) :
    t.zeroBased a = t.shifted a := by
  unfold zeroBased
  split
  case h_1 _ category => exact absurd category all
  case h_2 category _ => exact absurd category range
  case h_3 category _ => exact absurd category range
  case h_4 => rfl

section Congruence

variable {u v : Tree} (same : v.bare = u.bare)
include same

theorem intValue?_of_bare (a : NodeId) : (v.node a).intValue? = (u.node a).intValue? :=
  field_of_bare same Node.intValue? (fun _ => rfl) a

theorem shifted_congr {a : NodeId} (text : (v.node a).text = (u.node a).text) :
    v.shifted a = u.shifted a := by
  rw [shifted, intValue?_of_bare same, text, shifted]

theorem zeroBased_congr (wf : u.WellFormed) {a : NodeId}
    (text : u.category a ≠ .range → (v.node a).text = (u.node a).text)
    (texts : ∀ c ∈ u.children a, (v.node c).text = (u.node c).text) : v.zeroBased a = u.zeroBased a := by
  have shifted : ∀ c ∈ u.children a, v.shifted c = u.shifted c := fun c mem =>
    shifted_congr same (texts c mem)
  unfold zeroBased
  rw [category_of_bare same, children_of_bare same]
  by_cases range : u.category a = .range
  · rw [range]
    rcases wf.children_range range with ⟨first, last, ids⟩ | ⟨first, step, last, ids⟩
    · rw [ids] at shifted ⊢
      dsimp only
      rw [shifted first (by simp), shifted last (by simp)]
    · rw [ids] at shifted texts ⊢
      dsimp only
      rw [shifted first (by simp), shifted last (by simp), texts step (by simp)]
  · rw [shifted_congr same (text range), text range]
    split
    case h_1 => rfl
    case h_2 category _ => exact absurd category range
    case h_3 category _ => exact absurd category range
    case h_4 => rfl

theorem counts_of_bare (known : Option Datatype) (a : NodeId) : v.Counts known a ↔ u.Counts known a := by
  rw [Counts, category_of_bare same, Counts]

/-- What a rule makes of a position. -/
theorem zeroBased_operand (wf : u.WellFormed) (a : NodeId) {n : Node}
    (value : n.intValue? = (u.node a).intValue?) :
    Rule.zeroBased ⟨a, n, (v.node a).text⟩ = v.shifted a := by
  rw [Rule.zeroBased, shifted, intValue?_of_bare same]
  dsimp only
  rw [value]
  cases found : (u.node a).intValue? with
  | none => rfl
  | some k =>
    obtain ⟨low, high⟩ := wf.literal_nonneg found
    exact congrArg toString (Node.predecessor_literal low high)

end Congruence

end Tree

/-- A position does not read as the one before it. -/
theorem Tree.ne_shifted (wf : t.WellFormed) {a : NodeId}
    (literal : ∀ v, t.category a = .int → (t.node a).value = some v → (t.node a).text = v) :
    (t.node a).text ≠ t.shifted a := by
  intro eq
  unfold shifted at eq
  split at eq
  case h_1 k found =>
    obtain ⟨low, -⟩ := wf.literal_nonneg found
    obtain ⟨n, rfl⟩ := Int.eq_ofNat_of_zero_le low
    unfold Node.intValue? at found
    split at found
    case h_2 => cases found
    case h_1 v int value =>
    rw [literal v int value] at eq
    have digits := IsInteger.digits wf ⟨int, value⟩
    have worth := Program.integer?_literal digits found
    rw [eq] at worth digits
    cases n with
    | zero => exact absurd digits.2 (by decide)
    | succ n =>
      have same : Text.digitsValue (Nat.toDigits 10 n) = n := Nat.ofDigitChars_ten_toDigits
      rw [Nat.cast_succ, add_sub_cancel_right, show toString (n : ℤ) = toString n from rfl,
        Program.toList_toString, same] at worth
      omega
  case h_2 =>
    have length := congrArg String.length eq
    simp at length

namespace Resolving

section

variable (wf : t.WellFormed) {id : NodeId} {w w' : Workspace} {text : String} {s : Site} {o : Outcome}
  (h : Applied t id w text w' s o)
include wf h

/-- What the rule makes of the position that a child is. -/
theorem Applied.zeroBased (c : NodeId) : Rule.zeroBased (s.operand c) = s.tree.shifted c :=
  Tree.zeroBased_operand h.bare wf c (Tree.intValue?_of_bare h.bare c)

/-- The rule of an assignment puts the destinations into its text. -/
theorem Applied.carries {c : NodeId} (taken : t.Takes id c) (set : t.category c = .set)
    {destinations : List NodeId} {k : NodeId} (ids : t.children id = destinations ++ [k]) :
    Rule.Carries s (destinations.map s.operand) (s.operand k) o
      ∧ (t.category id = .assign → Rule.Quiet o ∧ destinations = [c]
        ∧ text = (s.tree.node c).text ++ " = " ++ (s.tree.node k).text ++ " ;") := by
  have operands := h.operands
  rw [ids, List.map_append, List.map_singleton] at operands
  have there : c ∈ destinations := by
    have there := taken.2
    rwa [ids, List.dropLast_concat] at there
  rcases taken.1 with assign | assigns
  case inl =>
    obtain rfl : destinations = [c] := by
      have admits := (wf.shaped id (wf.parent_lt (wf.parent?_of_mem taken.mem))).children
      rw [assign, ids, List.map_append] at admits
      match destinations, there, admits with
      | [x], there, _ => rw [List.mem_singleton.mp there]
      | _ :: _ :: _, _, admits => simp [Category.admits] at admits
    -- only an assignment to a variable is redirected
    have straight : s.node.redirect = none := by
      refine Option.eq_none_iff_forall_ne_some.mpr fun b redirected => ?_
      have var := (h.lawful.redirected s.id b redirected).2.2
      rw [Tree.category_of_bare h.bare, Tree.children_of_bare h.bare, h.here, ids] at var
      have var : (t.category c == .var) = true := var
      rw [set] at var
      cases var
    have ok : Rule.assign s = .ok o := h.rule assign (by decide) straight rfl
    obtain ⟨carries, quiet, written⟩ := Rule.carries_assign operands ok
    exact ⟨carries, fun _ => ⟨quiet, rfl, h.text.trans written⟩⟩
  case inr =>
    refine ⟨Rule.carries_select (h.category.trans assigns) operands h.answer, fun assign => ?_⟩
    rw [assigns] at assign
    cases assign

end

/-! ## Destinations -/

section

variable (wf : t.WellFormed) {depth : Nat} {w w' : Workspace} (same : w.tree.bare = t.bare)
  (lawful : w.tree.Lawful) {text : String}
include wf same lawful

/-- A range is counted from zero exactly if the variable around it is known to be numeric. -/
theorem range_of_run {c a : NodeId} (mem : a ∈ t.children c) (subscript : (t.category c).isSubscript)
    (range : t.category a = .range) (run : resolveWithin depth a w = (.ok text, w')) :
    text = w'.tree.zeroBased a ↔ ∃ d ∈ w.state.lookup (t.node c).name, d.isNumeric := by
  obtain ⟨s, o, applied⟩ := exists_applied wf (wf.bound c a mem) (by rw [range]; nofun)
    (by rw [range]; nofun) same lawful run
  have ok : Rule.range s = .ok o := applied.rule range (by decide)
    (applied.straight (by rw [range]; nofun)) rfl
  have ne : ∀ c ∈ t.children a, c ≠ a := fun c child eq => wf.not_below_child child (eq ▸ t.below_self c)
  -- what is known is looked up by the name of the node around the range
  have known : Rule.indexesVariable s ↔ ∃ d ∈ w.state.lookup (t.node c).name, d.isNumeric := by
    have parent : s.parent? = some (s.tree.node c) := by
      rw [Site.parent?, applied.here, Tree.parent?_of_bare applied.bare, wf.parent?_of_mem mem]
      rfl
    have category : (s.tree.node c).category.isSubscript := by
      rw [show (s.tree.node c).category = t.category c from congrFun (Tree.category_of_bare applied.bare) c]
      exact subscript
    rw [Rule.indexesVariable, Rule.subscripted?, parent]
    dsimp only
    rw [if_pos category, Tree.name_of_bare applied.bare, Option.bind_some, applied.lookup, Option.any_eq_true]
    rfl
  have positions : Rule.positions? s.operands = some (s.tree.zeroBased a) := by
    unfold Tree.zeroBased
    rw [applied.operands, Tree.category_of_bare applied.bare, Tree.children_of_bare applied.bare, range]
    rcases wf.children_range range with ⟨first, last, ids⟩ | ⟨first, step, last, ids⟩
    · rw [ids, List.map_cons, List.map_singleton, Rule.positions?, Applied.zeroBased wf applied,
        Applied.zeroBased wf applied]
    · rw [ids, List.map_cons, List.map_cons, List.map_singleton, Rule.positions?, Applied.zeroBased wf applied,
        Applied.zeroBased wf applied]
      rfl
  obtain ⟨counts, quiet⟩ := Rule.range_counts positions ok
  have kept : w'.tree.zeroBased a = s.tree.zeroBased a := by
    refine Tree.zeroBased_congr (applied.left.trans applied.bare.symm) (wf.of_bare applied.bare) ?_ ?_
    · rw [Tree.category_of_bare applied.bare]
      exact absurd range
    · rw [Tree.children_of_bare applied.bare]
      exact fun c child => applied.kept quiet (ne c child)
  rw [kept, applied.text, counts, known]

/-- A literal reads as it is written. -/
theorem integer_of_run {a : NodeId} (int : t.category a = .int) {v : String}
    (value : (t.node a).value = some v) (run : resolveWithin depth a w = (.ok text, w')) : text = v := by
  have lt : a < t.size := Tree.lt_size_of_category int nofun
  obtain ⟨s, o, applied⟩ := exists_applied wf lt (by rw [int]; nofun) (by rw [int]; nofun) same lawful run
  have ok : Rule.int s = .ok o := applied.rule int (by decide) (applied.straight (by rw [int]; nofun)) rfl
  cases ok
  refine applied.text.trans (Template.render_value _ _ ?_)
  show (s.tree.node s.id).value = some v
  rw [applied.here, Tree.value_of_bare applied.bare, value]

end

section

variable (wf : t.WellFormed) {lookup : String → Option Datatype} {u : Tree}
include wf

/-- What an expression is resolved to is what it reads as. -/
theorem Turn.exists_text {a : NodeId} (lt : a < t.size) (block : t.category a ≠ .block)
    (function : t.category a ≠ .function) (turn : Turn t lookup u a) : ∃ depth w w',
      resolveWithin depth a w = (.ok (u.node a).text, w') ∧ w.tree.bare = t.bare ∧ w.tree.Lawful
      ∧ w.state.lookup = lookup ∧ w'.tree.bare = t.bare
      ∧ ∀ i, t.Below a i → (u.node i).text = (w'.tree.node i).text := by
  obtain @⟨depth, w, w', text, run, bare, lawful, known, reads⟩ := turn
  have leads := (steady_resolveWithin wf depth lt).leads w bare lawful
  rw [run] at leads
  obtain rfl := retains_resolveWithin wf lt block function w w' bare lawful text run
  exact ⟨depth, w, w', by rw [reads a (t.below_self a), run], bare, lawful, known, leads.bare.trans bare, reads⟩

variable (same : u.bare = t.bare)
include same

/-- An argument that is resolved by itself reads as if it were counted from zero exactly if it is a
range and enough is known of the variable. -/
theorem Turn.argument {c a : NodeId} (mem : a ∈ t.children c) (subscript : (t.category c).isSubscript)
    (all : t.category a ≠ .all) (turn : Turn t lookup u a) :
    (u.node a).text = u.zeroBased a ↔ t.category a = .range ∧ t.Counts (lookup (t.node c).name) a := by
  have block : t.category c ≠ .block := by rintro eq; rw [eq] at subscript; cases subscript
  have function : t.category c ≠ .function := by rintro eq; rw [eq] at subscript; cases subscript
  obtain ⟨block', function'⟩ := Category.ne_of_isInline (wf.isInline_child block function mem)
  obtain ⟨depth, w, w', run, bare, lawful, rfl, bare', reads⟩ := turn.exists_text wf (wf.bound c a mem) block'
    function'
  by_cases range : t.category a = .range
  case pos =>
    have zeroBased : u.zeroBased a = w'.tree.zeroBased a :=
      Tree.zeroBased_congr (same.trans bare'.symm) (wf.of_bare bare') (fun _ => reads a (t.below_self a))
        fun g child => reads g (wf.below_of_mem (by rwa [Tree.children_of_bare bare'] at child))
    rw [zeroBased, range_of_run wf bare lawful mem subscript range run, and_iff_right range]
    exact exists_congr fun d => and_congr_right fun _ => (imp_iff_right range).symm
  case neg =>
    have category := congrFun (Tree.category_of_bare same) a
    rw [Tree.zeroBased_of_ne (category ▸ all) (category ▸ range)]
    refine iff_of_false (Tree.ne_shifted (wf.of_bare same) fun v int value => ?_) fun both => range both.1
    exact integer_of_run wf bare lawful (category.symm.trans int)
      ((Tree.value_of_bare same a).symm.trans value) run

/-- The rule of a subscript of a known variable shifts all but ranges and colons, and those are
counted from zero by themselves. -/
theorem Turn.indexText {c a : NodeId} (mem : a ∈ t.children c) (subscript : (t.category c).isSubscript)
    (turn : Turn t lookup u a) {d : Datatype} (known : lookup (t.node c).name = some d) {n : Node}
    (category : n.category = t.category a) (value : n.intValue? = (t.node a).intValue?) :
    Rule.indexText ⟨a, n, (u.node a).text⟩ = u.argument (some d) a := by
  have here := congrFun (Tree.category_of_bare same) a
  rw [Rule.indexText, category]
  by_cases range : t.category a = .range
  case pos =>
    have resolved := turn.argument wf same mem subscript (by rw [range]; nofun)
    rw [range, if_pos (by rfl), Tree.argument]
    split
    case isTrue enough =>
      exact resolved.mpr ⟨range, by rwa [known, ← Tree.counts_of_bare same]⟩
    case isFalse => rfl
  case neg =>
    have enough : u.Counts (some d) a := ⟨d, rfl, fun there => absurd (here.symm.trans there) range⟩
    rw [Tree.argument, if_pos enough]
    by_cases all : t.category a = .all
    · rw [Tree.zeroBased, here.trans all, all]
      rfl
    · have other : (t.category a == .range || t.category a == .all) = false := by simp [all, range]
      rw [other, if_neg Bool.false_ne_true, Tree.zeroBased_operand same wf a value,
        Tree.zeroBased_of_ne (by rwa [here]) (by rwa [here])]

/-- An argument of a destination is counted from zero exactly if enough is known of the variable. -/
theorem Turn.destination {c : NodeId} (set : t.category c = .set) (turn : Turn t lookup u c) :
    let known := lookup (t.node c).name
    (u.node c).text = call (t.node c).name ((t.children c).map (u.argument known))
      ∧ ∀ a ∈ t.children c, t.category a ≠ .all →
        (u.argument known a = u.zeroBased a ↔ t.Counts known a) := by
  intro known
  have block : t.category c ≠ .block := by rw [set]; nofun
  have function : t.category c ≠ .function := by rw [set]; nofun
  have subscript : (t.category c).isSubscript := by rw [set]; rfl
  have lt : c < t.size := Tree.lt_size_of_category set nofun
  obtain ⟨depth, w, w', run, bare, lawful, rfl, bare', reads⟩ := turn.exists_text wf lt block function
  have eq : w.state.lookup (t.node c).name = known := rfl
  clear_value known
  obtain ⟨s, o, applied⟩ := exists_applied wf lt block function bare lawful run
  have ok : Rule.subscript s = .ok o := applied.rule set (by decide) (applied.straight (by rw [set]; nofun)) rfl
  obtain ⟨quiet, written⟩ := Rule.subscript_counts ok
  -- what is in the arguments reads as it did when they were resolved
  have kept : ∀ a ∈ t.children c, ∀ i, t.Below a i → (u.node i).text = (s.tree.node i).text := by
    intro a mem i below
    rw [reads i ((wf.below_of_mem mem).trans below)]
    exact applied.kept quiet fun eq => wf.not_below_child mem (eq ▸ below)
  have turns : ∀ a ∈ t.children c, Turn t w.state.lookup u a := fun a mem =>
    (applied.turns a mem).keep (kept a mem)
  have operands : s.operands.map Rule.indexText
      = (t.children c).map fun a => Rule.indexText ⟨a, s.tree.node a, (u.node a).text⟩ := by
    rw [applied.operands, List.map_map]
    refine List.map_congr_left fun a mem => ?_
    rw [kept a mem a (t.below_self a)]
    rfl
  have texts : s.texts = (t.children c).map fun a => (u.node a).text := by
    rw [Site.texts, applied.operands, List.map_map]
    exact List.map_congr_left fun a mem => (kept a mem a (t.below_self a)).symm
  refine ⟨?_, fun a mem all => ?_⟩
  · rw [applied.text, written, applied.name, applied.lookup, operands, texts, eq]
    refine congrArg (call _) ?_
    cases known with
    | some d =>
      exact List.map_congr_left fun a mem => (turns a mem).indexText wf same mem subscript eq
        (congrFun (Tree.category_of_bare applied.bare) a) (Tree.intValue?_of_bare applied.bare a)
    | none =>
      refine List.map_congr_left fun a _ => ?_
      rw [Tree.argument, if_neg (by rintro ⟨d, ⟨⟩, -⟩)]
  · have counts := Tree.counts_of_bare same known a
    by_cases enough : t.Counts known a
    · rw [Tree.argument, if_pos (counts.mpr enough)]
      exact iff_of_true rfl enough
    · rw [Tree.argument, if_neg fun there => enough (counts.mp there),
        (turns a mem).argument wf same mem subscript all, eq]
      exact iff_of_false (fun both => enough both.2) enough

end

section

variable (wf : t.WellFormed) {depth : Nat} {w w' : Workspace} (same : w.tree.bare = t.bare)
  (lawful : w.tree.Lawful) {text : String}
include wf same lawful

/-- An assignment writes its destinations as they are resolved. -/
theorem assignment_of_run {id c : NodeId} (taken : t.Takes id c) (set : t.category c = .set)
    (run : resolveWithin depth id w = (.ok text, w')) : Turn t w.state.lookup w'.tree c
      ∧ w'.tree.bare = t.bare ∧ Rule.Holds text (w'.tree.node c).text
      ∧ (t.category id = .assign → ∃ value, t.children id = [c, value]
        ∧ text = (w'.tree.node c).text ++ " = " ++ (w'.tree.node value).text ++ " ;") := by
  have mem := taken.mem
  have lt : id < t.size := wf.parent_lt (wf.parent?_of_mem mem)
  have block : t.category id ≠ .block := by rcases taken.1 with eq | eq <;> rw [eq] <;> nofun
  have function : t.category id ≠ .function := by rcases taken.1 with eq | eq <;> rw [eq] <;> nofun
  obtain ⟨s, o, applied⟩ := exists_applied wf lt block function same lawful run
  obtain ⟨destinations, k, ids⟩ : ∃ destinations k, t.children id = destinations ++ [k] :=
    (List.eq_nil_or_concat' _).resolve_left (List.ne_nil_of_mem mem)
  have there : c ∈ destinations := by
    have there := taken.2
    rwa [ids, List.dropLast_concat] at there
  have value : k ∈ t.children id := by rw [ids]; simp
  obtain ⟨carries, single⟩ := Applied.carries wf applied taken set ids
  -- what is moved into temporaries stands in the value, and that is another child
  have kept : ∀ i, t.Below c i → (w'.tree.node i).text = (s.tree.node i).text := by
    intro i below
    refine applied.others i (fun eq => wf.not_below_child mem (eq ▸ below)) fun node text d moved eq => ?_
    have inside : node ∈ t.children k := by
      have inside := carries.hoists node text d moved
      rwa [show (s.operand k).node.children = t.children k from
        congrFun (Tree.children_of_bare applied.bare) k] at inside
    obtain rfl := wf.apart (wf.parent?_of_mem mem) (wf.parent?_of_mem value) below
      (eq ▸ wf.below_of_mem inside)
    have nodup := wf.nodup_children id
    rw [ids, List.nodup_append] at nodup
    exact nodup.2.2 c there c (List.mem_singleton_self c) rfl
  have here := kept c (t.below_self c)
  refine ⟨(applied.turns c mem).keep kept, applied.left, ?_, fun assign => ?_⟩
  · rw [applied.text, here]
    exact carries.texts _ (List.mem_map_of_mem there)
  · obtain ⟨quiet, one, eq⟩ := single assign
    refine ⟨k, by rw [ids, one]; rfl, ?_⟩
    rw [eq, here, applied.kept quiet fun eq => wf.not_below_child value (eq ▸ t.below_self k)]

end

end Resolving

/-! ## Statements of a program -/

instance (t : Tree) (id child : NodeId) : Decidable (t.Takes id child) :=
  inferInstanceAs (Decidable (_ ∧ _))

namespace Translator

/-- An argument of a destination is counted from zero exactly if, when the turn of the statement
comes, the variable is known, and known to be numeric if the argument is a range; a colon always is.
The destination stands in the lines of the statement as it reads, and in front of the value if it
is the only one. -/
theorem destinations_count {source : String} (parsed : Tree.parse source = .ok t) {config : Config}
    {v : Visit} (mem : v ∈ Visit.all ⟨t, .ofConfig config⟩) {c : NodeId} (taken : t.Takes v.statement c)
    (set : t.category c = .set) (accepted : ¬t.Refused v.statement) :
    let x := (t.node c).name
    let known := v.found.state.lookup x
    let after := v.left.tree
    (after.node c).text = call x ((t.children c).map (after.argument known))
      ∧ (∀ a ∈ t.children c, t.category a ≠ .all →
        (after.argument known a = after.zeroBased a ↔ t.Counts known a))
      ∧ ∃ hoisted text, v.lines = hoisted ++ Text.lines text ∧ Rule.Holds text (after.node c).text
        ∧ (t.category v.statement = .assign → ∃ value, t.children v.statement = [c, value]
          ∧ text = (after.node c).text ++ " = " ++ (after.node value).text ++ " ;") := by
  intro x known after
  have wf := Tree.wellFormed_of_parsed parsed
  obtain ⟨block, begins⟩ := Visit.exists_begins parsed config v mem
  obtain ⟨text, w, run⟩ := begins.exists_text wf accepted
  obtain ⟨lines, tree⟩ := Visit.lines_of_run run
  obtain ⟨turn, bare, holds, single⟩ := assignment_of_run wf
    (w := { v.found with state := v.found.state.withPending [] }) begins.bare begins.lawful taken set run
  rw [← tree] at turn bare holds single
  obtain ⟨written, counts⟩ := turn.destination wf bare set
  exact ⟨written, counts, w.state.pending, text, lines, holds, single⟩

/-- An index and a range into a declared matrix. -/
theorem destinations_count_declared : ∃ t, Tree.parse "A(3, k:5) = 2\n" = .ok t
    ∧ ∃ v ∈ Visit.all ⟨t, .ofConfig { declarations := ⟨[("A", ⟨.matrix, .float⟩)]⟩ }⟩, t.Takes v.statement 0
      ∧ v.lines = ["A(2, arma::span(k-1, 4)) = 2 ;"]
      ∧ (v.left.tree.node 0).text = call "A" ((t.children 0).map v.left.tree.zeroBased) := by
  have visits : ∃ t, Tree.parse "A(3, k:5) = 2\n" = .ok t
      ∧ ∃ v ∈ Visit.all ⟨t, .ofConfig { declarations := ⟨[("A", ⟨.matrix, .float⟩)]⟩ }⟩,
        v.lines = ["A(2, arma::span(k-1, 4)) = 2 ;"] ∧ t.category v.statement = .assign
        ∧ t.children v.statement = [0, 5] ∧ t.category 0 = .set ∧ (t.node 0).name = "A"
        ∧ v.found.state.lookup "A" = some ⟨.matrix, .float⟩ ∧ ∀ a ∈ t.children 0, t.category a ≠ .all :=
    ⟨_, by cbv, by decide +kernel⟩
  obtain ⟨t, run, v, mem, lines, assign, ids, set, name, known, all⟩ := visits
  have taken : t.Takes v.statement 0 := ⟨.inl assign, by rw [ids]; exact List.mem_singleton_self 0⟩
  have accepted : ¬t.Refused v.statement := by
    rw [Tree.refused_assign_iff assign ids, name]
    decide
  obtain ⟨written, counts, -⟩ := destinations_count run mem taken set accepted
  rw [name, known] at written counts
  refine ⟨t, run, v, mem, taken, lines, written.trans (congrArg (call "A") ?_)⟩
  exact List.map_congr_left fun a child => (counts a child (all a child)).mpr ⟨_, rfl, fun _ => rfl⟩

/-- Of a variable that is written for the first time nothing is known: the index is left as it is,
and nothing is reported. -/
theorem destinations_count_not : ∃ t, Tree.parse "A(3) = 5\n" = .ok t
    ∧ ∃ v ∈ Visit.all ⟨t, .ofConfig {}⟩, t.Takes v.statement 0 ∧ t.category 0 = .set ∧ t.children 0 = [1]
      ∧ Builtin.isReserved (t.node 0).name = false ∧ t.IsInteger 1 "3"
      ∧ v.left.tree.zeroBased 1 = "2" ∧ (v.left.tree.node 0).text = "A(3)"
      ∧ ((⟨.ofConfig {}⟩ : Translator).translate t).1.statements = ["A(3) = 5 ;"]
      ∧ ((⟨.ofConfig {}⟩ : Translator).translate t).1.diagnostics = [] :=
  ⟨_, by cbv, by decide +kernel⟩

end Translator

end MatrixScript
