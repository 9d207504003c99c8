/-
# `Text.Lines` — texts made of lines and of pieces

`lines` cuts a text at its newlines: a carriage return right before a
newline goes with it, and a newline at the very end opens no further line.
`joined` is the other direction for any separator, `occupied` counts the
bytes of a text in UTF-8, which is the unit of every position.
-/

namespace MatrixScript.Text

/-- Pieces with `separator` between neighbours. -/
def joined (separator : String) : List String → String
  | [] => ""
  | [piece] => piece
  | piece :: next :: rest => piece ++ separator ++ joined separator (next :: rest)

/-- A line that a newline ends, without the carriage return before it. -/
def withoutReturn (line : List Char) : List Char :=
  match line.reverse with
  | '\r' :: rest => rest.reverse
  | _ => line

/-- Lines of a text, by characters; `line` holds the open line so far, last character first. -/
def linesFrom (line : List Char) : List Char → List (List Char)
  | [] => if line.isEmpty then [] else [line.reverse]
  | c :: rest =>
      if c = '\n' then withoutReturn line.reverse :: linesFrom [] rest
      else linesFrom (c :: line) rest

/-- Lines of a text. -/
def lines (s : String) : List String := (linesFrom [] s.toList).map String.ofList

/-- Bytes that the characters take in UTF-8. -/
def occupied : List Char → Nat
  | [] => 0
  | c :: cs => c.utf8Size + occupied cs

theorem occupied_append (a b : List Char) : occupied (a ++ b) = occupied a + occupied b := by
  induction a with
  | nil => exact (Nat.zero_add _).symm
  | cons c a ih =>
      show c.utf8Size + occupied (a ++ b) = c.utf8Size + occupied a + occupied b
      rw [ih, Nat.add_assoc]

/-- Splits at the first place where `a` stands right before `b`; the pair itself is dropped. -/
def splitAtPair (a b : Char) : List Char → Option (List Char × List Char)
  | [] => none
  | c :: rest =>
      match rest with
      | [] => none
      | d :: after =>
          if c = a ∧ d = b then some ([], after)
          else (splitAtPair a b rest).map fun (before, after) => (c :: before, after)

/-- The two halves and the pair between them are the whole text. -/
theorem splitAtPair_eq_some {a b : Char} {cs before after : List Char}
    (h : splitAtPair a b cs = some (before, after)) : cs = before ++ a :: b :: after := by
  induction cs generalizing before after with
  | nil => simp [splitAtPair] at h
  | cons c rest ih =>
      cases rest with
      | nil => simp [splitAtPair] at h
      | cons d tail =>
          unfold splitAtPair at h
          by_cases hc : c = a ∧ d = b
          · simp only [hc, and_self, if_true, Option.some.injEq, Prod.mk.injEq] at h
            simp [hc.1, hc.2, ← h.1, ← h.2]
          · simp only [hc, if_false, Option.map_eq_some_iff, Prod.exists, Prod.mk.injEq] at h
            obtain ⟨u, v, huv, rfl, rfl⟩ := h
            simp [ih huv]

end MatrixScript.Text
