/-
# `Proofs.Text.Slice` — cutting texts at byte positions

Texts are lists of characters here, and cutting them cannot fail.  On bytes it
can: a position may lie outside of the text or inside of a character.  `slice?`
cuts at byte positions and fails where it must.  Reading a pattern by slices
(`substituteSliced?`) and taking the quotes off a string (`unquote?`) never
fail, and give what the definitions on characters give.
-/
import MatrixScript.Template
import MatrixScript.Token.Lexer

namespace MatrixScript

namespace Text

/-! ## Slices -/

/-- The characters before and behind a byte position, if it lies between two of them. -/
def splitAtByte? : Nat → List Char → Option (List Char × List Char)
  | 0, cs => some ([], cs)
  | _ + 1, [] => none
  | n + 1, c :: cs =>
      if c.utf8Size ≤ n + 1 then
        (splitAtByte? (n + 1 - c.utf8Size) cs).map fun (before, after) => (c :: before, after)
      else none

/-- The characters from one byte position to another. -/
def slice? (cs : List Char) (start stop : Nat) : Option (List Char) :=
  if start ≤ stop then do
    let (_, rest) ← splitAtByte? start cs
    let (inner, _) ← splitAtByte? (stop - start) rest
    return inner
  else none

@[simp] theorem occupied_nil : occupied [] = 0 := rfl

@[simp] theorem occupied_cons (c : Char) (cs : List Char) :
    occupied (c :: cs) = c.utf8Size + occupied cs := rfl

theorem splitAtByte?_append (before after : List Char) :
    splitAtByte? (occupied before) (before ++ after) = some (before, after) := by
  induction before with
  | nil => cases after <;> rfl
  | cons c before ih =>
    obtain ⟨n, eq⟩ : ∃ n, occupied (c :: before) = n + 1 := by
      have pos := c.utf8Size_pos
      exact ⟨occupied (c :: before) - 1, by rw [occupied_cons]; omega⟩
    have le : c.utf8Size ≤ n + 1 := by
      rw [← eq, occupied_cons]
      exact Nat.le_add_right _ _
    have rest : n + 1 - c.utf8Size = occupied before := by
      rw [← eq, occupied_cons]
      exact Nat.add_sub_cancel_left _ _
    rw [eq, List.cons_append, splitAtByte?, if_pos le, rest, ih]
    rfl

/-- The positions around a part of a text cut it out. -/
theorem slice?_append (before inner after : List Char) :
    slice? (before ++ (inner ++ after)) (occupied before) (occupied before + occupied inner)
      = some inner := by
  have rest : occupied before + occupied inner - occupied before = occupied inner :=
    Nat.add_sub_cancel_left _ _
  rw [slice?, if_pos (Nat.le_add_right _ _), splitAtByte?_append, rest]
  show (splitAtByte? (occupied inner) (inner ++ after)).bind _ = _
  rw [splitAtByte?_append]
  rfl

theorem slice?_front (inner after : List Char) :
    slice? (inner ++ after) 0 (occupied inner) = some inner := by
  have h := slice?_append [] inner after
  rw [occupied_nil, Nat.zero_add] at h
  exact h

theorem slice?_back (before inner : List Char) :
    slice? (before ++ inner) (occupied before) (occupied (before ++ inner)) = some inner := by
  have h := slice?_append before inner []
  rw [List.append_nil, ← occupied_append] at h
  exact h

/-- Byte position of the first `a` right before a `b`. -/
def pairPosition? (a b : Char) (cs : List Char) : Option Nat :=
  (splitAtPair a b cs).map fun (before, _) => occupied before

section Pair

variable {a b : Char} (ha : a.utf8Size = 1) (hb : b.utf8Size = 1) {cs before after : List Char}
  (whole : cs = before ++ a :: b :: after)
include ha hb whole

/-- What stands behind a pair starts two bytes after it. -/
theorem slice?_behind_pair :
    slice? cs (occupied before + 2) (occupied cs) = some after := by
  have shifted : occupied (before ++ [a, b]) = occupied before + 2 := by
    simp [occupied_append, ha, hb]
  have split : cs = (before ++ [a, b]) ++ after := by simp [whole]
  have h := slice?_back (before ++ [a, b]) after
  rw [shifted, ← split] at h
  exact h

omit ha hb in
theorem slice?_before_pair : slice? cs 0 (occupied before) = some before := by
  rw [whole]
  exact slice?_front before _

end Pair

end Text

/-! ## Patterns -/

namespace Template

open Text

/-- A pattern with its placeholders replaced, read by byte positions; it fails where a
slice does, and after more than `n` placeholders. -/
def substituteSliced? (value : List Char → Option (List Char)) :
    Nat → List Char → Option (List Char)
  | 0, _ => none
  | n + 1, rest =>
      match pairPosition? '%' '(' rest with
      | none => some rest
      | some start => do
          let after ← slice? rest (start + 2) (occupied rest)
          match pairPosition? ')' 's' after with
          | none => return rest
          | some stop =>
              let before ← slice? rest 0 start
              let key ← slice? after 0 stop
              let shown ←
                match value key with
                | some shown => some shown
                | none => slice? rest start (start + stop + 4)
              let behind ← slice? after (stop + 2) (occupied after)
              return before ++ shown ++ (← substituteSliced? value n behind)

/-- The text of a template, with patterns read by byte positions. -/
def renderSliced? (node : Node) (texts : List String) : Template → Option String
  | .fixed text => some text
  | .join before between after => some (before ++ Text.joined between texts ++ after)
  | .format pattern =>
      (substituteSliced? (fun key => (valueOf? node texts key).map String.toList)
        (pattern.toList.length + 1) pattern.toList).map String.ofList

section Substitute

variable {value : List Char → Option (List Char)} {pattern before after key rest : List Char}

theorem substitute_plain (h : splitAtPair '%' '(' pattern = none) :
    substitute value pattern = pattern := by
  rw [substitute]
  split
  · rfl
  · simp_all

theorem substitute_open (h : splitAtPair '%' '(' pattern = some (before, after))
    (h' : splitAtPair ')' 's' after = none) : substitute value pattern = pattern := by
  rw [substitute]
  split
  · rfl
  · split
    · rfl
    · simp_all

theorem substitute_step (h : splitAtPair '%' '(' pattern = some (before, after))
    (h' : splitAtPair ')' 's' after = some (key, rest)) :
    substitute value pattern
      = before ++ (value key).getD (placeholder key) ++ substitute value rest := by
  rw [substitute]
  split
  · simp_all
  · split
    · simp_all
    · simp_all

/-- The placeholder as it is written lies between its own positions. -/
theorem slice?_placeholder (h : pattern = before ++ '%' :: '(' :: after)
    (h' : after = key ++ ')' :: 's' :: rest) :
    slice? pattern (occupied before) (occupied before + occupied key + 4)
      = some (placeholder key) := by
  have whole : pattern = before ++ (placeholder key ++ rest) := by
    simp [h, h', placeholder]
  have length : occupied before + occupied key + 4
      = occupied before + occupied (placeholder key) := by
    have marks : occupied (placeholder key) = occupied key + 4 := by
      show occupied (['%', '('] ++ (key ++ [')', 's'])) = _
      rw [occupied_append, occupied_append]
      show 2 + (occupied key + 2) = _
      omega
    omega
  rw [whole, length]
  exact slice?_append _ _ _

/-- No slice of a pattern fails. -/
theorem substituteSliced?_eq {n : Nat} (le : pattern.length < n) :
    substituteSliced? value n pattern = some (substitute value pattern) := by
  induction n generalizing pattern with
  | zero => exact absurd le (Nat.not_lt_zero _)
  | succ n ih =>
    cases opening : splitAtPair '%' '(' pattern with
    | none =>
      rw [substitute_plain opening]
      simp [substituteSliced?, pairPosition?, opening]
    | some halves =>
      obtain ⟨before, after⟩ := halves
      have whole := splitAtPair_eq_some opening
      have position : pairPosition? '%' '(' pattern = some (occupied before) := by
        simp [pairPosition?, opening]
      have behind := slice?_behind_pair (by decide) (by decide) whole
      cases closing : splitAtPair ')' 's' after with
      | none =>
        have position' : pairPosition? ')' 's' after = none := by
          simp [pairPosition?, closing]
        rw [substitute_open opening closing]
        simp [substituteSliced?, position, behind, position']
      | some halves =>
        obtain ⟨key, rest⟩ := halves
        have whole' := splitAtPair_eq_some closing
        have position' : pairPosition? ')' 's' after = some (occupied key) := by
          simp [pairPosition?, closing]
        have front := slice?_before_pair whole
        have inner := slice?_before_pair whole'
        have behind' := slice?_behind_pair (by decide) (by decide) whole'
        have written := slice?_placeholder whole whole'
        have shorter : rest.length < n := by
          have lengths := congrArg List.length whole
          have lengths' := congrArg List.length whole'
          simp only [List.length_append, List.length_cons] at lengths lengths'
          omega
        have next := ih shorter
        rw [substitute_step opening closing]
        cases found : value key with
        | none =>
          simp [substituteSliced?, position, behind, position', front, inner, found, written,
            behind', next]
        | some shown =>
          simp [substituteSliced?, position, behind, position', front, inner, found, behind', next]

end Substitute

theorem renderSliced?_eq (node : Node) (texts : List String) (template : Template) :
    template.renderSliced? node texts = some (template.render node texts) := by
  cases template with
  | fixed text => rfl
  | join before between after => rfl
  | format pattern =>
    rw [renderSliced?, substituteSliced?_eq (Nat.lt_succ_self _)]
    rfl

end Template

/-! ## Quotes -/

namespace Token

open Text

/-- Doubled quotes stand for one each. -/
def undoubled (quote : Char) : List Char → List Char
  | [] => []
  | [c] => [c]
  | c :: d :: rest =>
      if c = quote ∧ d = quote then quote :: undoubled quote rest
      else c :: undoubled quote (d :: rest)

/-- The contents of a string between its quotes, cut out by byte positions. -/
def unquote? (quote : Char) (token : List Char) : Option (List Char) :=
  (slice? token 1 (occupied token - 1)).map (undoubled quote)

theorem undoubled_cons {quote c : Char} (ne : c ≠ quote) (cs : List Char) :
    undoubled quote (c :: cs) = c :: undoubled quote cs := by
  cases cs with
  | nil => rfl
  | cons d rest => simp [undoubled, ne]

/-- A string ends with its closing quote, and its contents are what stands between. -/
theorem exists_body_of_quotedAt? (quote : Char) : ∀ {rest text : List Char} {n : Nat},
    quotedAt? quote rest = some (text, n) →
      ∃ body, rest.take n = body ++ [quote] ∧ undoubled quote body = text
  | [], _, _, h => by cases h
  | [c], text, n, h => by
    unfold quotedAt? at h
    split at h
    case isTrue eq =>
      cases h
      exact ⟨[], by simp [eq], rfl⟩
    case isFalse => cases h
  | c :: d :: rest, text, n, h => by
    unfold quotedAt? at h
    split at h
    case isTrue eq =>
      split at h
      case isTrue eq' =>
        obtain ⟨⟨text', m⟩, found, h⟩ := Option.map_eq_some_iff.mp h
        cases h
        obtain ⟨body, ends, contents⟩ := exists_body_of_quotedAt? quote found
        refine ⟨quote :: quote :: body, ?_, ?_⟩
        · rw [List.take_succ_cons, List.take_succ_cons, ends, eq, eq']
          rfl
        · simp [undoubled, contents]
      case isFalse =>
        cases h
        exact ⟨[], by simp [eq], rfl⟩
    case isFalse ne =>
      split at h
      case isTrue => cases h
      case isFalse =>
        obtain ⟨⟨text', m⟩, found, h⟩ := Option.map_eq_some_iff.mp h
        cases h
        obtain ⟨body, ends, contents⟩ := exists_body_of_quotedAt? quote found
        refine ⟨c :: body, ?_, ?_⟩
        · rw [List.take_succ_cons, ends]
          rfl
        · rw [undoubled_cons ne, contents]

/-- No slice of a string fails. -/
theorem unquote?_of_quotedAt? {quote : Char} (ascii : quote.utf8Size = 1) {rest text : List Char}
    {n : Nat} (h : quotedAt? quote rest = some (text, n)) :
    unquote? quote (quote :: rest.take n) = some text := by
  obtain ⟨body, ends, contents⟩ := exists_body_of_quotedAt? quote h
  have stop : occupied (quote :: (body ++ [quote])) - 1 = occupied [quote] + occupied body := by
    simp [occupied_append, ascii]
    omega
  have start : occupied [quote] = 1 := by simp [ascii]
  have cut := slice?_append [quote] body [quote]
  rw [ends, unquote?, stop, ← start]
  show (slice? ([quote] ++ (body ++ [quote])) _ _).map _ = _
  rw [cut, Option.map_some, contents]

end Token

end MatrixScript
