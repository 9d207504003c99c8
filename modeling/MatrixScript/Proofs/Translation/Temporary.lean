/-
# `Proofs.Translation.Temporary` — names and definitions of temporaries

The name of a temporary holds its type and its number, and both can be read off the
name (`numbered_inj`) and off the line that defines it (`definition_inj`), whatever
names start with.  Hence temporaries have different names, and different definitions
(`State.Numbered`): a temporary that is new is defined by a line that is new.
-/
import Mathlib.Data.List.Nodup
import MatrixScript.State

namespace MatrixScript

/-- Cutting before the first `c` is unique. -/
theorem Text.append_cons_inj {c : Char} {a a' b b' : List Char} (ha : c ∉ a) (ha' : c ∉ a')
    (eq : a ++ c :: b = a' ++ c :: b') : a = a' ∧ b = b' := by
  induction a generalizing a' with
  | nil =>
    cases a' with
    | nil => exact ⟨rfl, (List.cons.inj eq).2⟩
    | cons x a' => exact absurd (List.mem_cons.mpr (.inl (List.cons.inj eq).1)) ha'
  | cons x a ih =>
    cases a' with
    | nil => exact absurd (List.mem_cons.mpr (.inl (List.cons.inj eq).1.symm)) ha
    | cons y a' =>
      obtain ⟨rfl, rest⟩ := List.cons.inj eq
      obtain ⟨rfl, rfl⟩ := ih (fun mem => ha (List.mem_cons_of_mem x mem))
        (fun mem => ha' (List.mem_cons_of_mem x mem)) rest
      exact ⟨rfl, rfl⟩

theorem Text.isDigit_of_mem_toString {n : Nat} {c : Char} (mem : c ∈ (toString n).toList) :
    c.isDigit :=
  Nat.isDigit_of_mem_toDigits (b := 10) (n := n) (by decide) (by decide) (by simpa using mem)

/-- A number can be read off its digits. -/
theorem Text.toString_inj {n n' : Nat} (eq : (toString n).toList = (toString n').toList) :
    n = n' := by
  have digits : ∀ n : Nat, (toString n).toList = Nat.toDigits 10 n := fun n => by simp
  rw [digits, digits] at eq
  rw [← Nat.ofDigitChars_toDigits (b := 10) (n := n) (by decide) (by decide), eq,
    Nat.ofDigitChars_toDigits (by decide) (by decide)]

theorem Datatype.blank_not_mem_typeName (d : Datatype) : ' ' ∉ d.typeName.toList := by
  obtain ⟨s, c⟩ := d
  cases s <;> cases c <;> decide

namespace State

theorem mem_of_temporary? {s : State} {node : NodeId} {e : Temporary}
    (found : s.temporary? node = some e) : e ∈ s.temporaries ∧ e.node = node :=
  ⟨List.mem_of_find?_eq_some found, by simpa using List.find?_some found⟩

/-- A node that is hoisted for the first time gets a temporary. -/
theorem hoist_of_new {s : State} {i : NodeId} (new : s.temporary? i = none) (a : String)
    (d : Datatype) : s.hoist i a d = { s with
      pending := s.pending ++ [definition (s.nextName d) a d]
      suggestions := s.suggestions.insert (s.nextName d) d
      temporaries := s.temporaries ++ [⟨i, s.nextName d, definition (s.nextName d) a d⟩]
      counters := s.counters.insert d.typeName (s.nextNumber d) } := by
  rw [State.hoist, new]

/-- No other node gets one. -/
theorem temporary?_hoist_of_new {s : State} {i : NodeId} (new : s.temporary? i = none) (a : String)
    (d : Datatype) (j : NodeId) : (s.hoist i a d).temporary? j
      = if j = i then some ⟨i, s.nextName d, definition (s.nextName d) a d⟩ else s.temporary? j := by
  rw [hoist_of_new new, State.temporary?, List.find?_append]
  split
  case isTrue here =>
    rw [here, show s.temporaries.find? (·.node == i) = none from new]
    simp
  case isFalse other => simp [temporary?, Ne.symm other]

/-- Name of the temporary number `n` of a type. -/
def numbered (stem : String) (d : Datatype) (n : Nat) : String :=
  stem ++ "_" ++ d.typeName ++ "_" ++ toString n

theorem nextName_eq (s : State) (d : Datatype) :
    s.nextName d = numbered s.config.tempStem d (s.nextNumber d) := rfl

/-- Type and number can be read off a name, from its end. -/
theorem numbered_inj {stem : String} {d d' : Datatype} {n n' : Nat}
    (eq : numbered stem d n = numbered stem d' n') : d.typeName = d'.typeName ∧ n = n' := by
  have low : ∀ n : Nat, '_' ∉ (toString n).toList.reverse := by
    intro n mem
    cases Text.isDigit_of_mem_toString (List.mem_reverse.mp mem)
  have chars := congrArg (fun s : String => s.toList.reverse) eq
  simp only [numbered, String.toList_append, String.reduceToList, List.reverse_append,
    List.reverse_cons, List.nil_append, List.append_assoc, List.cons_append] at chars
  obtain ⟨numbers, rest⟩ := Text.append_cons_inj (low n) (low n') chars
  have types := List.append_cancel_right rest
  exact ⟨String.toList_injective (List.reverse_injective types),
    Text.toString_inj (List.reverse_injective numbers)⟩

/-- Type and number can be read off a definition, from its start. -/
theorem definition_inj {stem text text' : String} {d d' : Datatype} {n n' : Nat}
    (eq : definition (numbered stem d n) text d = definition (numbered stem d' n') text' d') :
    d.typeName = d'.typeName ∧ n = n' := by
  have blank : ∀ n : Nat, ' ' ∉ (toString n).toList := by
    intro n mem
    cases Text.isDigit_of_mem_toString mem
  have chars := congrArg String.toList eq
  simp only [definition, numbered, String.toList_append, String.reduceToList, List.append_assoc,
    List.cons_append, List.nil_append] at chars
  obtain ⟨types, rest⟩ := Text.append_cons_inj d.blank_not_mem_typeName d'.blank_not_mem_typeName
    chars
  rw [types] at rest
  have tails := List.append_cancel_left rest
  simp only [List.cons.injEq, true_and] at tails
  have numbers := List.append_cancel_left tails
  simp only [List.cons.injEq, true_and] at numbers
  exact ⟨String.toList_injective types,
    Text.toString_inj (Text.append_cons_inj (blank n) (blank n') numbers).1⟩

/-- Every temporary is numbered below its type's counter, and no two have a number, a
name or a node in common. -/
structure Numbered (s : State) : Prop where
  made : ∀ e ∈ s.temporaries, ∃ d n text, e.name = numbered s.config.tempStem d n
    ∧ e.definition = definition e.name text d ∧ n ≤ (s.counters.get? d.typeName).getD 0
  names : (s.temporaries.map (·.name)).Nodup
  nodes : (s.temporaries.map (·.node)).Nodup

theorem Numbered.congr {s s' : State} (h : s.Numbered) (config : s'.config = s.config)
    (temporaries : s'.temporaries = s.temporaries) (counters : s'.counters = s.counters) :
    s'.Numbered := by
  refine ⟨?_, ?_, ?_⟩
  · rw [temporaries, config, counters]
    exact h.made
  · rw [temporaries]
    exact h.names
  · rw [temporaries]
    exact h.nodes

theorem numbered_ofConfig (config : Config) : (ofConfig config).Numbered :=
  ⟨nofun, List.nodup_nil, List.nodup_nil⟩

section Numbered

variable {s : State} (h : s.Numbered)
include h

/-- The next name of a type is new. -/
theorem Numbered.nextName_ne {e : Temporary} (mem : e ∈ s.temporaries) (d : Datatype) :
    e.name ≠ s.nextName d := by
  intro eq
  obtain ⟨d', n, text, name, -, le⟩ := h.made e mem
  rw [name, nextName_eq] at eq
  obtain ⟨types, rfl⟩ := numbered_inj eq
  rw [nextNumber, types] at le
  omega

/-- The definition of the next temporary of a type is new. -/
theorem Numbered.definition_ne {e : Temporary} (mem : e ∈ s.temporaries) (text : String)
    (d : Datatype) : e.definition ≠ definition (s.nextName d) text d := by
  intro eq
  obtain ⟨d', n, text', name, line, le⟩ := h.made e mem
  rw [line, name, nextName_eq] at eq
  obtain ⟨types, rfl⟩ := definition_inj eq
  rw [nextNumber, types] at le
  omega

theorem Numbered.hoist (node : NodeId) (text : String) (d : Datatype) :
    (s.hoist node text d).Numbered := by
  unfold State.hoist
  split
  case h_1 =>
    split
    · exact h
    · exact h.congr rfl rfl rfl
  case h_2 none =>
    refine ⟨fun e mem => ?_, ?_, ?_⟩
    · rcases List.mem_append.mp mem with old | new
      · obtain ⟨d', n, text', name, line, le⟩ := h.made e old
        refine ⟨d', n, text', name, line, ?_⟩
        show n ≤ ((s.counters.insert d.typeName _).get? _).getD 0
        rw [NameTable.get?_insert]
        split
        case isTrue same =>
          rw [same] at le
          exact Nat.le_succ_of_le le
        case isFalse => exact le
      · obtain rfl := List.mem_singleton.mp new
        refine ⟨d, s.nextNumber d, text, rfl, rfl, ?_⟩
        show s.nextNumber d ≤ ((s.counters.insert d.typeName _).get? _).getD 0
        rw [NameTable.get?_insert, if_pos rfl]
        exact Nat.le_refl _
    · rw [List.map_append, List.nodup_append]
      refine ⟨h.names, List.nodup_singleton _, fun x old y new => ?_⟩
      obtain ⟨e, mem, rfl⟩ := List.mem_map.mp old
      obtain rfl := List.mem_singleton.mp new
      exact h.nextName_ne mem d
    · rw [List.map_append, List.nodup_append]
      refine ⟨h.nodes, List.nodup_singleton _, fun x old y new => ?_⟩
      obtain ⟨e, mem, rfl⟩ := List.mem_map.mp old
      obtain rfl := List.mem_singleton.mp new
      intro eq
      exact List.find?_eq_none.mp none e mem (beq_iff_eq.mpr eq)

end Numbered

end State

end MatrixScript
