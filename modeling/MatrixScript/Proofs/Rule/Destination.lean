/-
# `Proofs.Rule.Destination` — what is assigned to, and its arguments

The rule of a range decides by what is known of the variable around it whether the bounds are
shifted (`range_counts`), and the rule of a subscript whether the other arguments are
(`subscript_counts`).  The rules of statements put the texts of the destinations into theirs
as they are, and move nothing but arguments of the call behind them into temporaries
(`carries_assign`, `carries_assigns`).
-/
import MatrixScript.Proofs.Rule.Called

namespace MatrixScript

open Cpp (call)

namespace Template

/-- What stands in front of the first placeholder is emitted first. -/
theorem prefix_render {pattern : String} {before : List Char} (after : List Char)
    (opens : Text.splitAtPair '%' '(' pattern.toList = some (before, after)) (node : Node)
    (texts : List String) : before <+: (render node texts (.format pattern)).toList := by
  rw [render, String.toList_ofList]
  unfold substitute
  split
  case h_1 none => rw [opens] at none; cases none
  case h_2 before' after' found =>
    obtain ⟨rfl, rfl⟩ : before = before' ∧ after = after' := by simpa using opens.symm.trans found
    split
    · exact ⟨_, (Text.splitAtPair_eq_some opens).symm⟩
    · rw [List.append_assoc]
      exact List.prefix_append _ _

end Template

namespace Rule

variable {s : Site} {o : Outcome}

/-! ## Arguments -/

/-- The rule asks for no temporary. -/
def Quiet (o : Outcome) : Prop := ∀ node text d, Effect.hoist node text d ∉ o.effects

/-- A range of positions with both bounds shifted. -/
def positions? : List Operand → Option String
  | [first, last] => some ("arma::span(" ++ zeroBased first ++ ", " ++ zeroBased last ++ ")")
  | [first, step, last] =>
      some ("m2cpp::uspan(" ++ zeroBased first ++ ", " ++ step.text ++ ", " ++ zeroBased last ++ ")")
  | _ => none

/-- A text cannot start in two ways. -/
theorem ne_of_starts {a b : String} {p q : List Char} (ha : p <+: a.toList) (hb : q <+: b.toList)
    (apart : ¬p <+: q ∧ ¬q <+: p) : a ≠ b := by
  rintro rfl
  have heads := List.prefix_or_prefix_of_prefix ha hb
  exact heads.elim apart.1 apart.2

/-- A range of values does not read like one of positions. -/
theorem rangeOfValues_ne {text : String} (found : positions? s.operands = some text)
    (ok : rangeOfValues s = .ok o) : s.written o ≠ text ∧ Quiet o := by
  have starts : ∀ {name rest : String}, (name ++ rest).toList = name.toList ++ rest.toList :=
    String.toList_append
  unfold rangeOfValues at ok
  unfold positions? at found
  split at found
  case h_1 first last operands =>
    rw [operands] at ok
    cases found
    cases ok
    refine ⟨ne_of_starts (p := "m2cpp::span<".toList) (q := "arma::span(".toList)
      (Template.prefix_render "type)s>(%(0)s, %(1)s)".toList (by decide) _ _) ?_ (by decide),
      by simp [Quiet]⟩
    simp only [String.append_assoc]
    exact ⟨_, starts.symm⟩
  case h_2 first step last operands =>
    rw [operands] at ok
    cases found
    dsimp only at ok
    have text : "m2cpp::uspan(".toList <+: ("m2cpp::uspan(" ++ zeroBased first ++ ", " ++ step.text ++ ", "
        ++ zeroBased last ++ ")").toList := by
      simp only [String.append_assoc]
      exact ⟨_, starts.symm⟩
    split at ok
    · cases ok
      exact ⟨ne_of_starts (p := "m2cpp::uspan<".toList)
        (Template.prefix_render "type)s>(%(0)s, %(1)s, %(2)s)".toList (by decide) _ _) text
        (by decide), by simp [Quiet]⟩
    · cases ok
      exact ⟨ne_of_starts (p := "m2cpp::span<".toList)
        (Template.prefix_render "type)s>(%(0)s, %(1)s, %(2)s)".toList (by decide) _ _) text
        (by decide), by simp [Quiet]⟩
  case h_3 => cases found

/-- The bounds of a range are shifted exactly if it is an argument of a variable that is known to
be numeric. -/
theorem range_counts {text : String} (found : positions? s.operands = some text)
    (ok : range s = .ok o) : (s.written o = text ↔ indexesVariable s) ∧ Quiet o := by
  unfold range at ok
  split at ok
  case isTrue known =>
    unfold positions? at found
    unfold rangeOfPositions at ok
    split at found
    case h_1 operands | h_2 operands =>
      rw [operands] at ok
      cases found
      cases ok
      exact ⟨iff_of_true rfl known, by simp [Quiet]⟩
    case h_3 => cases found
  case isFalse unknown =>
    obtain ⟨other, quiet⟩ := rangeOfValues_ne found ok
    exact ⟨iff_of_false other unknown, quiet⟩

/-- Arguments are shifted exactly if something is known of the variable. -/
theorem subscript_counts (ok : subscript s = .ok o) : Quiet o
    ∧ s.written o = call s.name (if (s.lookup s.name).isSome then s.operands.map indexText else s.texts) := by
  unfold subscript at ok
  split at ok
  case h_1 unknown =>
    cases ok
    rw [unknown]
    exact ⟨by simp [Quiet], rfl⟩
  case h_2 known =>
    rw [known]
    dsimp only at ok
    split at ok
    · cases ok
      exact ⟨by simp [Quiet], rfl⟩
    · cases ok
      exact ⟨by simp [Quiet], rfl⟩

/-! ## Statements -/

/-- A text with another one in it. -/
def Holds (text part : String) : Prop := ∃ before behind, text = before ++ part ++ behind

section

variable {text part : String}

theorem holds_self (text : String) : Holds text text :=
  ⟨"", "", by rw [String.empty_append, String.append_empty]⟩

theorem Holds.behind (h : Holds text part) (before : String) : Holds (before ++ text) part := by
  obtain ⟨x, y, rfl⟩ := h
  exact ⟨before ++ x, y, by simp only [String.append_assoc]⟩

theorem Holds.before (h : Holds text part) (behind : String) : Holds (text ++ behind) part := by
  obtain ⟨x, y, rfl⟩ := h
  exact ⟨x, y ++ behind, by simp only [String.append_assoc]⟩

theorem Holds.joined {separator : String} (h : Holds text part) :
    ∀ {texts : List String}, text ∈ texts → Holds (Text.joined separator texts) part
  | [_], mem => List.mem_singleton.mp mem ▸ h
  | first :: next :: texts, mem => by
    rw [Text.joined_cons]
    rcases List.mem_cons.mp mem with rfl | mem
    · exact (h.before _).before _
    · exact (h.joined mem).behind _

end

/-- The text of a statement holds those of its destinations as they are, and nothing but
arguments of the value goes into temporaries. -/
structure Carries (s : Site) (destinations : List Operand) (value : Operand) (o : Outcome) : Prop where
  texts : ∀ d ∈ destinations, Holds (s.written o) d.text
  hoists : ∀ node text d, Effect.hoist node text d ∈ o.effects → node ∈ value.node.children

variable {ds : List Operand} {value : Operand}

theorem ok_of_checked {answer : Except Error Outcome}
    (ok : (do checkDestinations ds; answer) = .ok o) : answer = .ok o := by
  cases checked : checkDestinations ds with
  | error e =>
    rw [checked] at ok
    cases ok
  | ok =>
    rw [checked] at ok
    exact ok

theorem carries_assign {d : Operand} (eq : s.operands = [d, value]) (ok : assign s = .ok o) :
    Carries s [d] value o ∧ Quiet o ∧ s.written o = d.text ++ " = " ++ value.text ++ " ;" := by
  unfold assign at ok
  rw [eq] at ok
  have ok := ok_of_checked ok
  cases ok
  have written : Template.render s.node s.texts (.format "%(0)s = %(1)s ;")
      = d.text ++ " = " ++ value.text ++ " ;" := by
    rw [Site.texts, eq]
    exact Template.render_assign _ _ _ _
  have quiet : ∀ node text d', Effect.hoist node text d' ∉ binding d value.datatype := by
    intro node text d'
    unfold binding
    split <;> simp
  refine ⟨⟨List.forall_mem_singleton.mpr ?_, fun node text d' mem => absurd mem (quiet node text d')⟩, quiet,
    written⟩
  show Holds (Template.render s.node s.texts _) d.text
  rw [written]
  exact (((holds_self d.text).before _).before _).before _

theorem carries_assigns (eq : s.operands = ds ++ [value]) (ok : assigns s = .ok o) :
    Carries s ds value o := by
  unfold assigns at ok
  rw [eq, splitLast?_append] at ok
  dsimp only at ok
  have ok := ok_of_checked ok
  have output : ∀ d ∈ ds, d.text ∈ ds.map (·.text) := fun d mem => List.mem_map_of_mem mem
  split at ok
  case isTrue =>
    cases ok
    refine ⟨fun d mem => ?_, by simp⟩
    exact (((holds_self _).joined (List.mem_append_right _ (output d mem))).behind _).before _
  case isFalse =>
    cases ok
    refine ⟨fun d mem => ?_, by simp⟩
    exact (((((holds_self _).joined (output d mem)).behind _).before _).before _).before _

/-- What is read several times is moved, if at all, from where it is. -/
theorem eq_of_mem_readable {argument node : NodeId} {text : String} {d d' : Datatype}
    (mem : Effect.hoist node text d ∈ (BuiltinRule.readable s argument d').2) : node = argument := by
  unfold BuiltinRule.readable at mem
  dsimp only at mem
  split at mem
  · cases mem
  · cases List.mem_singleton.mp mem
    rfl

theorem carries_assignsSize (eq : s.operands = ds ++ [value]) (ok : BuiltinRule.assignsSize s = .ok o) :
    Carries s ds value o := by
  unfold BuiltinRule.assignsSize at ok
  rw [eq, splitLast?_append] at ok
  dsimp only at ok
  cases arguments : value.node.children with
  | nil =>
    rw [arguments] at ok
    cases ok
  | cons argument rest =>
  rw [arguments] at ok
  dsimp only at ok
  split at ok
  case isTrue => cases ok
  case isFalse =>
  have ok := ok_of_checked ok
  unfold BuiltinRule.extentsOf at ok
  split at ok
  case isFalse => cases ok
  case isTrue few =>
  cases ok
  refine ⟨fun d mem => ?_, fun node text d mem => ?_⟩
  · -- every destination has a line of its own
    have members : ds.length ≤ (BuiltinRule.extents.take ds.length).length := by
      rw [List.length_take, Nat.min_eq_left few]
    obtain ⟨pair, there, rfl⟩ : ∃ pair ∈ ds.zip (BuiltinRule.extents.take ds.length), pair.1 = d := by
      rw [← List.map_fst_zip members] at mem
      exact List.mem_map.mp mem
    have line := ((((holds_self pair.1.text).before " = ").before
      (BuiltinRule.readable s argument (s.tree.node argument).datatype).1).before ".").before pair.2
    exact (line.before " ;").joined (List.mem_map_of_mem there)
  · rcases List.mem_append.mp mem with moved | typed
    · rw [eq_of_mem_readable moved, arguments]
      exact List.mem_cons_self
    · obtain ⟨_, -, other⟩ := List.mem_map.mp typed
      cases other

theorem carries_extremumWithIndex {name : String} {d index argument : Operand}
    (mem : argument.id ∈ value.node.children)
    (ok : BuiltinRule.extremumWithIndex name d index argument s = .ok o) :
    Carries s [d, index] value o := by
  unfold BuiltinRule.extremumWithIndex at ok
  cases ok
  refine ⟨?_, fun node text d moves => ?_⟩
  · refine List.forall_mem_cons.mpr ⟨?_, List.forall_mem_singleton.mpr ?_⟩
    · exact (((((((holds_self d.text).before _).before _).before _).before _).before _).before _).before _
    · exact ((holds_self index.text).behind _).before _
  · rcases List.mem_append.mp moves with typed | moved
    · simp at typed
    · rwa [eq_of_mem_readable moved]

theorem carries_assignsExtremum (eq : s.operands = ds ++ [value])
    (ok : BuiltinRule.assignsExtremum s = .ok o) : Carries s ds value o := by
  unfold BuiltinRule.assignsExtremum at ok
  rw [eq, splitLast?_append] at ok
  dsimp only at ok
  split at ok
  case h_2 => cases ok
  case h_1 d index =>
  have ok := ok_of_checked ok
  split at ok
  case h_1 => cases ok
  case h_3 => cases ok
  case h_2 argument arguments =>
  split at ok
  case isTrue => exact carries_extremumWithIndex (by simp [arguments]) ok
  case isFalse =>
    cases ok
    refine ⟨List.forall_mem_cons.mpr ⟨?_, List.forall_mem_singleton.mpr ?_⟩, by simp⟩
    · exact ((((((holds_self d.text).behind "[").before ", ").before index.text).before "] = ").before
        value.text).before " ;"
    · exact ((((holds_self index.text).behind ("[" ++ d.text ++ ", ")).before "] = ").before
        value.text).before " ;"

/-- Whatever several destinations are assigned. -/
theorem carries_select {tree : Tree} {n : Node} (category : n.category = .assigns)
    (eq : s.operands = ds ++ [value]) (ok : select tree n s = .ok o) : Carries s ds value o := by
  have generic : ofCategory? .assigns = some assigns := rfl
  unfold select at ok
  rw [category, generic] at ok
  generalize builtinOf? tree n = about at ok
  cases about with
  | none => exact carries_assigns eq ok
  | some b =>
    cases b with
    | size => exact carries_assignsSize eq ok
    | min | max => exact carries_assignsExtremum eq ok
    | _ => exact carries_assigns eq ok

end Rule

end MatrixScript
