/-
# `Proofs.Rule.Refusal` — which statements have no translation

Only assignments fail, and whether one does can be told from the program alone
(`Tree.Refused`): a destination has a reserved name, or several destinations take apart
a built-in that is called with the wrong arguments or gives another number of values.
Four rules check this, each in an order of its own; the order matters for the error that
is reported, but not for whether there is one (`Rule.fails_select_assigns`).  A statement
that does not fail always has a text (`Rule.filled_select`).
-/
import MatrixScript.Proofs.Rule.BuiltinAnswer
import MatrixScript.Proofs.Rule.SelectAgrees

namespace MatrixScript

/-- The assignment cannot be translated. -/
inductive Tree.Refused (t : Tree) (id : NodeId) : Prop
  /-- the destination has a reserved name -/
  | reserved {destination value : NodeId} : t.category id = .assign →
      t.children id = [destination, value] → Builtin.isReserved (t.node destination).name →
      Refused t id
  /-- one of the destinations has a reserved name -/
  | someReserved {destinations : List NodeId} {value d : NodeId} : t.category id = .assigns →
      t.children id = destinations ++ [value] → d ∈ destinations →
      Builtin.isReserved (t.node d).name → Refused t id
  /-- a size of nothing, or one that is taken apart into other than two or three extents -/
  | size {destinations : List NodeId} {call : NodeId} : t.category id = .assigns →
      t.children id = destinations ++ [call] → t.category call = .get → (t.node call).name = "size" →
      t.children call = [] ∨ destinations.length ≠ 2 ∧ destinations.length ≠ 3 → Refused t id
  /-- an extremum of other than one array, or for other than a value and its place -/
  | extremum {destinations : List NodeId} {call : NodeId} : t.category id = .assigns →
      t.children id = destinations ++ [call] → t.category call = .get →
      (t.node call).name = "min" ∨ (t.node call).name = "max" →
      destinations.length ≠ 2 ∨ (t.children call).length ≠ 1 → Refused t id

namespace Tree

variable {t : Tree} {id : NodeId}

theorem Refused.category (h : t.Refused id) : t.category id = .assign ∨ t.category id = .assigns := by
  cases h with
  | reserved assign _ _ => exact .inl assign
  | someReserved assigns _ _ _ | size assigns _ _ _ _ | extremum assigns _ _ _ _ => exact .inr assigns

theorem refused_assign_iff (category : t.category id = .assign) {destination value : NodeId}
    (ids : t.children id = [destination, value]) :
    t.Refused id ↔ Builtin.isReserved (t.node destination).name := by
  refine ⟨fun refused => ?_, .reserved category ids⟩
  cases refused with
  | reserved _ ids' reserved =>
    rw [ids] at ids'
    cases ids'
    exact reserved
  | someReserved assigns | size assigns | extremum assigns =>
    rw [category] at assigns
    cases assigns

theorem refused_assigns_iff (category : t.category id = .assigns) {destinations : List NodeId}
    {call : NodeId} (ids : t.children id = destinations ++ [call]) :
    t.Refused id ↔ (∃ d ∈ destinations, Builtin.isReserved (t.node d).name)
      ∨ t.category call = .get ∧ ((t.node call).name = "size"
          ∧ (t.children call = [] ∨ destinations.length ≠ 2 ∧ destinations.length ≠ 3)
        ∨ ((t.node call).name = "min" ∨ (t.node call).name = "max")
          ∧ (destinations.length ≠ 2 ∨ (t.children call).length ≠ 1)) := by
  have unique : ∀ {ds : List NodeId} {v : NodeId}, t.children id = ds ++ [v] → ds = destinations ∧ v = call := by
    intro ds v ids'
    obtain ⟨rfl, last⟩ := List.append_inj' (ids'.symm.trans ids) rfl
    exact ⟨rfl, List.singleton_injective last⟩
  constructor
  · intro refused
    cases refused with
    | reserved assign =>
      rw [category] at assign
      cases assign
    | someReserved _ ids' mem reserved =>
      obtain ⟨rfl, rfl⟩ := unique ids'
      exact .inl ⟨_, mem, reserved⟩
    | size _ ids' get name wrong =>
      obtain ⟨rfl, rfl⟩ := unique ids'
      exact .inr ⟨get, .inl ⟨name, wrong⟩⟩
    | extremum _ ids' get name wrong =>
      obtain ⟨rfl, rfl⟩ := unique ids'
      exact .inr ⟨get, .inr ⟨name, wrong⟩⟩
  · rintro (⟨d, mem, reserved⟩ | ⟨get, ⟨name, wrong⟩ | ⟨name, wrong⟩⟩)
    · exact .someReserved category ids mem reserved
    · exact .size category ids get name wrong
    · exact .extremum category ids get name wrong

end Tree

/-- There is an error. -/
def Fails {α : Type} (answer : Except Error α) : Prop := ∃ e, answer = .error e

@[simp] theorem fails_error {α : Type} (e : Error) : Fails (.error e : Except Error α) := ⟨e, rfl⟩

@[simp] theorem not_fails_ok {α : Type} (a : α) : ¬Fails (.ok a : Except Error α) := nofun

/-- A built-in but for the two constants with a second spelling has one name. -/
theorem Builtin.ofName?_eq_iff {x : String} {b : Builtin} (inf : b ≠ .inf) (nan : b ≠ .nan) :
    ofName? x = some b ↔ x = b.name :=
  ⟨fun h => (eq_of_ofName? h).resolve_right fun constant => constant.elim inf nan,
    fun eq => eq ▸ ofName?_name b⟩

namespace Rule

variable {s : Site}

/-! ## The checks of the rules -/

/-- Some destination has a reserved name. -/
def SomeReserved (destinations : List Operand) : Prop :=
  ∃ o ∈ destinations, Builtin.isReserved o.node.name

theorem someReserved_singleton {o : Operand} :
    SomeReserved [o] ↔ Builtin.isReserved o.node.name := by
  simp [SomeReserved]

/-- The names are checked before anything else is done. -/
theorem fails_checked {α : Type} {destinations : List Operand} {rest : Except Error α} :
    Fails (checkDestinations destinations >>= fun _ => rest) ↔ SomeReserved destinations ∨ Fails rest := by
  unfold checkDestinations reservedDestination?
  cases found : (destinations.map (·.node.name)).find? Builtin.isReserved with
  | some name =>
    obtain ⟨o, mem, rfl⟩ := List.mem_map.mp (List.mem_of_find?_eq_some found)
    have reserved : SomeReserved destinations := ⟨o, mem, List.find?_some found⟩
    exact iff_of_true (fails_error _) (.inl reserved)
  | none =>
    have free : ¬SomeReserved destinations := by
      rintro ⟨o, mem, reserved⟩
      exact List.find?_eq_none.mp found _ (List.mem_map_of_mem mem) reserved
    exact (or_iff_right free).symm

theorem fails_assign {destination value : Operand} (two : s.operands = [destination, value]) :
    Fails (assign s) ↔ Builtin.isReserved destination.node.name := by
  unfold assign
  rw [two]
  exact (fails_checked.trans (or_iff_left (not_fails_ok _))).trans someReserved_singleton

theorem fails_assignSize {destination value : Operand} (two : s.operands = [destination, value]) :
    Fails (BuiltinRule.assignSize s) ↔ Builtin.isReserved destination.node.name := by
  unfold BuiltinRule.assignSize
  rw [two]
  exact (fails_checked.trans (or_iff_left (not_fails_ok _))).trans someReserved_singleton

section Several

variable {destinations : List Operand} {call : Operand} (eq : s.operands = destinations ++ [call])
include eq

theorem fails_assigns : Fails (assigns s) ↔ SomeReserved destinations := by
  unfold assigns
  rw [eq, splitLast?_append]
  refine fails_checked.trans (or_iff_left ?_)
  dsimp only
  split
  · exact not_fails_ok _
  · exact not_fails_ok _

theorem fails_assignsSize : Fails (BuiltinRule.assignsSize s) ↔ SomeReserved destinations
    ∨ call.node.children = [] ∨ destinations.length ≠ 2 ∧ destinations.length ≠ 3 := by
  unfold BuiltinRule.assignsSize
  rw [eq, splitLast?_append]
  dsimp only
  split
  case h_1 none => exact iff_of_true (fails_error _) (.inr (.inl none))
  case h_2 argument rest arguments =>
    split
    case isTrue many => exact iff_of_true (fails_error _) (.inr (.inr many))
    case isFalse few =>
      have le : destinations.length ≤ 3 := by omega
      refine fails_checked.trans (or_congr_right (iff_of_false ?_ ?_))
      · rw [BuiltinRule.extentsOf_eq le]
        exact not_fails_ok _
      · rintro (none | many)
        · rw [none] at arguments
          cases arguments
        · exact few many

theorem fails_assignsExtremum : Fails (BuiltinRule.assignsExtremum s) ↔ SomeReserved destinations
    ∨ destinations.length ≠ 2 ∨ call.node.children.length ≠ 1 := by
  unfold BuiltinRule.assignsExtremum
  rw [eq, splitLast?_append]
  dsimp only
  split
  case h_1 value index =>
    refine fails_checked.trans (or_congr_right ?_)
    split
    case h_1 none => exact iff_of_true (fails_error _) (.inr (by rw [none]; decide))
    case h_2 id one =>
      refine iff_of_false ?_ ?_
      · split
        · exact not_fails_ok _
        · exact not_fails_ok _
      · rw [one]
        simp
    case h_3 none one =>
      refine iff_of_true (fails_error _) (.inr fun length => ?_)
      obtain ⟨id, single⟩ := List.length_eq_one_iff.mp length
      exact one id single
  case h_2 other =>
    refine iff_of_true (fails_error _) (.inr (.inl fun length => ?_))
    obtain ⟨value, index, two⟩ := List.length_eq_two.mp length
    exact other value index two

end Several

/-! ## The rule that a node gets -/

section Select

variable (sound : s.Sound) (ids : s.operands.map (·.id) = s.tree.children s.id)
include sound ids

omit ids in
theorem someReserved_iff {destinations : List Operand} (sub : destinations ⊆ s.operands) :
    SomeReserved destinations
      ↔ ∃ d ∈ destinations.map (·.id), Builtin.isReserved (s.tree.node d).name := by
  constructor
  · rintro ⟨o, mem, reserved⟩
    exact ⟨o.id, List.mem_map_of_mem mem, sound.node o (sub mem) ▸ reserved⟩
  · rintro ⟨d, mem, reserved⟩
    obtain ⟨o, there, rfl⟩ := List.mem_map.mp mem
    exact ⟨o, there, (sound.node o (sub there)).symm ▸ reserved⟩

theorem fails_select_assign (category : s.node.category = .assign)
    (redirected : ∀ b, s.node.redirect = some b → b = .size) :
    Fails (select s.tree s.node s) ↔ s.tree.Refused s.id := by
  obtain ⟨destination, value, two⟩ := assign_operands sound category
  have node : destination.node = s.tree.node destination.id := sound.node _ (by simp [two])
  rw [two] at ids
  rw [Tree.refused_assign_iff category ids.symm, ← node]
  unfold select builtinOf?
  rw [category]
  cases redirect : s.node.redirect with
  | none => exact fails_assign two
  | some b =>
    obtain rfl := redirected b redirect
    exact fails_assignSize two

theorem fails_select_assigns (category : s.node.category = .assigns) (straight : s.node.redirect = none) :
    Fails (select s.tree s.node s) ↔ s.tree.Refused s.id := by
  obtain ⟨destinations, call, several⟩ := assigns_operands sound category
  have node : call.node = s.tree.node call.id := sound.node _ (by simp [several])
  have there : s.tree.children s.id = destinations.map (·.id) ++ [call.id] := by
    rw [← ids, several, List.map_append]
    rfl
  have taken : SomeReserved destinations ↔ _ :=
    someReserved_iff sound (several ▸ List.subset_append_left ..)
  have last : s.node.children.getLast? = some call.id := by
    rw [show s.node.children = _ from there, List.getLast?_concat]
  have kind : s.tree.category call.id = call.node.category := congrArg Node.category node.symm
  have arguments : s.tree.children call.id = call.node.children := congrArg Node.children node.symm
  rw [Tree.refused_assigns_iff category there, ← taken, List.length_map, ← node, kind, arguments]
  unfold select builtinOf?
  rw [straight, category, last]
  dsimp only
  rw [← node]
  by_cases get : call.node.category = .get
  case neg =>
    rw [if_neg (by simpa using get), or_iff_left fun wrong => get wrong.1]
    exact fails_assigns several
  case pos =>
    rw [if_pos (by simpa using get), and_iff_right get]
    have size := @Builtin.ofName?_eq_iff call.node.name .size nofun nofun
    have min := @Builtin.ofName?_eq_iff call.node.name .min nofun nofun
    have max := @Builtin.ofName?_eq_iff call.node.name .max nofun nofun
    rw [show call.node.name = "size" ↔ _ from size.symm, show call.node.name = "min" ↔ _ from min.symm,
      show call.node.name = "max" ↔ _ from max.symm]
    cases found : Builtin.ofName? call.node.name with
    | none => exact (fails_assigns several).trans (by simp)
    | some b =>
      cases b with
      | size => exact (fails_assignsSize several).trans (by simp)
      | min | max => exact (fails_assignsExtremum several).trans (by simp)
      | _ => exact (fails_assigns several).trans (by simp)

end Select

/-! ## Statements that are translated -/

/-- A text comes with the answer, if there is one. -/
def Filled (s : Site) (answer : Except Error Outcome) : Prop :=
  ∀ o, answer = .ok o → s.written o ≠ ""

theorem append_ne_empty {a b : String} (h : b ≠ "") : a ++ b ≠ "" :=
  fun none => h (String.append_eq_empty_iff.mp none).2

theorem joined_ne_empty {separator piece : String} (h : piece ≠ "") :
    ∀ rest : List String, Text.joined separator (piece :: rest) ≠ ""
  | [] => h
  | _ :: _ => fun none =>
    h (String.append_eq_empty_iff.mp (String.append_eq_empty_iff.mp none).1).1

theorem Filled.error (e : Error) : Filled s (.error e) := nofun

theorem Filled.keep {template : Template} {effects : List Effect}
    (h : ∀ n, template.render n s.texts ≠ "") : Filled s (s.keep template effects) := by
  intro o ok
  cases ok
  exact h _

theorem Filled.fixed {text : String} {effects : List Effect} (h : text ≠ "") :
    Filled s (s.keep (.fixed text) effects) := .keep fun _ => h

theorem Filled.checked {destinations : List Operand} {rest : Except Error Outcome}
    (h : Filled s rest) : Filled s (checkDestinations destinations >>= fun _ => rest) := by
  unfold checkDestinations
  split
  · exact .error _
  · exact h

theorem filled_statement (some : s.operands ≠ []) : Filled s (statement s) := by
  obtain ⟨o, os, eq⟩ := List.exists_cons_of_ne_nil some
  refine .keep fun n => ?_
  rw [Site.texts, eq, List.map_cons, Template.render_statement]
  exact append_ne_empty (by decide)

theorem filled_assign : Filled s (assign s) := by
  unfold assign
  split
  case h_1 eq =>
    refine .checked (.keep fun n => ?_)
    rw [Site.texts, eq, List.map_cons, List.map_cons, Template.render_assign]
    exact append_ne_empty (by decide)
  case h_2 => exact .error _

theorem filled_assignSize : Filled s (BuiltinRule.assignSize s) := by
  unfold BuiltinRule.assignSize
  split
  case h_1 => exact .checked (.fixed (append_ne_empty (by decide)))
  case h_2 => exact .error _

theorem filled_assigns : Filled s (assigns s) := by
  unfold assigns
  split
  case h_1 => exact .error _
  case h_2 =>
    refine .checked ?_
    dsimp only
    split
    · exact .fixed (append_ne_empty (by decide))
    · exact .fixed (append_ne_empty (by decide))

theorem filled_assignsSize : Filled s (BuiltinRule.assignsSize s) := by
  unfold BuiltinRule.assignsSize
  split
  case h_1 => exact .error _
  case h_2 destinations call _ =>
    split
    case h_1 => exact .error _
    case h_2 =>
      split
      case isTrue => exact .error _
      case isFalse few =>
        have some : ∃ d ds, destinations = d :: ds ∧ destinations.length ≤ 3 := by
          cases destinations with
          | nil => exact absurd (by decide) few
          | cons d ds => exact ⟨d, ds, rfl, by omega⟩
        obtain ⟨d, ds, rfl, le⟩ := some
        refine .checked ?_
        rw [BuiltinRule.extentsOf_eq le]
        exact .fixed (joined_ne_empty (append_ne_empty (by decide)) _)

theorem filled_assignsExtremum : Filled s (BuiltinRule.assignsExtremum s) := by
  unfold BuiltinRule.assignsExtremum
  split
  case h_1 => exact .error _
  case h_2 =>
    dsimp only
    split
    case h_2 => exact .error _
    case h_1 =>
      refine .checked ?_
      split
      case h_1 => exact .error _
      case h_3 => exact .error _
      case h_2 =>
        split
        · exact .fixed (append_ne_empty (by decide))
        · exact .fixed (append_ne_empty (by decide))

theorem filled_function : Filled s (function s) := by
  unfold function
  split
  case h_2 => exact .error _
  case h_1 =>
    dsimp only
    have definition_ne : ∀ (head : String) (body : List String), definition head body ≠ "" := by
      intro head body
      exact fun none => nomatch (String.append_eq_empty_iff.mp (String.append_eq_empty_iff.mp none).1).2
    split
    · exact .fixed (definition_ne _ _)
    · exact .fixed (definition_ne _ _)

theorem filled_ret : Filled s (ret s) := by
  unfold ret
  split
  · exact .fixed (append_ne_empty (by decide))
  · exact .fixed (by decide)

/-- A statement that is translated has a text. -/
theorem filled_select (sound : s.Sound) (statement : s.node.category.isStatement) :
    Filled s (select s.tree s.node s) := by
  unfold select
  cases named : (builtinOf? s.tree s.node).bind (ofBuiltin? s.node.category) with
  | some rule =>
    obtain ⟨b, -, found⟩ := Option.bind_eq_some_iff.mp named
    cases category : s.node.category <;> rw [category] at statement found <;>
      first | cases statement; done | skip
    case assign =>
      cases b <;> first | cases found; done | skip
      obtain rfl := Option.some.inj found
      exact filled_assignSize
    case assigns =>
      cases b <;> first | cases found; done | obtain rfl := Option.some.inj found
      case size => exact filled_assignsSize
      all_goals exact filled_assignsExtremum
    all_goals cases found
  | none =>
    cases category : s.node.category <;> rw [category] at statement <;>
      first | cases statement; done | skip
    case statement =>
      refine filled_statement fun none => ?_
      have admits := sound.admits
      rw [category, none] at admits
      cases admits
    case assign => exact filled_assign
    case assigns => exact filled_assigns
    case function => exact filled_function
    case ret => exact filled_ret
    case brk => exact .fixed (by decide)

end Rule

end MatrixScript
