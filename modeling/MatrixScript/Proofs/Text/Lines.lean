/-
# `Proofs.Text.Lines` — texts of several lines

Cutting a text at its newlines undoes joining lines by newlines, if no line is empty,
has a newline in it or ends with a carriage return (`lines_joined`).
-/
import MatrixScript.Text.Lines

namespace MatrixScript.Text

theorem joined_cons (separator piece next : String) (rest : List String) :
    joined separator (piece :: next :: rest)
      = piece ++ separator ++ joined separator (next :: rest) := rfl

/-- Characters before a newline go into the open line. -/
theorem linesFrom_append {u : List Char} (line : '\n' ∉ u) (front cs : List Char) :
    linesFrom front (u ++ cs) = linesFrom (u.reverse ++ front) cs := by
  induction u generalizing front with
  | nil => rfl
  | cons c u ih =>
    obtain ⟨here, there⟩ := not_or.mp fun mem => line (List.mem_cons.mpr mem)
    rw [List.cons_append, linesFrom, if_neg (Ne.symm here), ih there]
    simp

/-- A text that is one line. -/
theorem lines_eq {s : String} (some : s.toList ≠ []) (line : '\n' ∉ s.toList) :
    lines s = [s] := by
  have whole : linesFrom [] s.toList = [s.toList] := by
    have open' := linesFrom_append line [] []
    rw [List.append_nil, List.append_nil] at open'
    rw [open', linesFrom, List.reverse_reverse, List.isEmpty_reverse,
      if_neg (by simpa using some)]
  rw [lines, whole, List.map_singleton, String.ofList_toList]

theorem linesFrom_ne_nil {cs : List Char} : ∀ {line : List Char}, line ≠ [] ∨ cs ≠ [] →
    linesFrom line cs ≠ [] := by
  induction cs with
  | nil =>
    intro line some
    have open' : line.isEmpty = false := by simpa using some
    rw [linesFrom, open']
    nofun
  | cons c cs ih =>
    intro line _
    unfold linesFrom
    split
    · nofun
    · exact ih (.inl nofun)

/-- A text that is not empty has a line. -/
theorem lines_ne_nil {s : String} (some : s ≠ "") : lines s ≠ [] := by
  have some' : s.toList ≠ [] := fun none => some (String.toList_injective none)
  exact mt List.map_eq_nil_iff.mp (linesFrom_ne_nil (.inr some'))

/-- A line that is left as it is by cutting. -/
structure IsLine (s : String) : Prop where
  filled : s ≠ ""
  newline : '\n' ∉ s.toList
  carriage : s.toList.getLast? ≠ some '\r'

theorem withoutReturn_eq {cs : List Char} (h : cs.getLast? ≠ some '\r') :
    withoutReturn cs = cs := by
  rw [withoutReturn]
  split
  case h_2 => rfl
  case h_1 rest eq =>
    rw [List.getLast?_eq_head?_reverse, eq] at h
    exact absurd rfl h

theorem lines_joined {ls : List String} (h : ∀ l ∈ ls, IsLine l) :
    lines (joined "\n" ls) = ls := by
  induction ls with
  | nil => rfl
  | cons l ls ih =>
    obtain ⟨first, rest⟩ := List.forall_mem_cons.mp h
    cases ls with
    | nil =>
      refine lines_eq (fun none => first.filled ?_) first.newline
      exact String.toList_injective none
    | cons next more =>
      have cut : lines (l ++ "\n" ++ joined "\n" (next :: more))
          = l :: lines (joined "\n" (next :: more)) := by
        rw [lines, String.toList_append, String.toList_append, List.append_assoc,
          linesFrom_append first.newline]
        show (linesFrom _ ('\n' :: _)).map _ = _
        rw [linesFrom, if_pos rfl, List.append_nil, List.reverse_reverse,
          withoutReturn_eq first.carriage, List.map_cons, String.ofList_toList]
        rfl
      rw [joined_cons, cut, ih rest]

end MatrixScript.Text
