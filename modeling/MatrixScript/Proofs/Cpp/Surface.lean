/-
# `Proofs.Cpp.Surface` — what an emitted text shows without being parsed

A text of the target language is read character by character, with no more in mind than
whether a string literal is open (`Quoting`).  What stands outside of literals
(`Quoting.bare`) has delimiters, which should be nested (`Balanced`), and names of
helpers (`helpers`).  As in C++, a quote outside of a literal always opens one, and a
backslash means something inside of a literal only.

Each reader is a fold, so a text that is put together is read piece by piece.
-/
import MatrixScript.Proofs.Text.Likeness

namespace MatrixScript.Cpp

/-! ## String literals -/

/-- Where reading has come to with string literals. -/
inductive Quoting where
  | outside
  | inside
  /-- inside, right behind a backslash -/
  | escaped
deriving DecidableEq, Repr

namespace Quoting

/-- Reads a character. -/
def step : Quoting → Char → Quoting
  | outside, c => if c = '\x22' then inside else outside
  | inside, c => if c = '\x22' then outside else if c = '\\' then escaped else inside
  | escaped, _ => inside

/-- Reads characters. -/
def after (q : Quoting) (cs : List Char) : Quoting := cs.foldl step q

/-- The characters that stand outside of literals; of a literal its two quotes stay. -/
def bare : Quoting → List Char → List Char
  | _, [] => []
  | q, c :: cs => if q = outside ∨ q.step c = outside then c :: bare (q.step c) cs
      else bare (q.step c) cs

theorem after_append (q : Quoting) (a b : List Char) : q.after (a ++ b) = (q.after a).after b :=
  List.foldl_append

theorem bare_append (q : Quoting) (a b : List Char) :
    q.bare (a ++ b) = q.bare a ++ (q.after a).bare b := by
  induction a generalizing q with
  | nil => rfl
  | cons c a ih =>
    rw [List.cons_append, bare, bare, ih]
    split
    · rfl
    · rfl

/-- Without quotes no literal is opened. -/
theorem after_plain {cs : List Char} (plain : '\x22' ∉ cs) : outside.after cs = outside := by
  induction cs with
  | nil => rfl
  | cons c cs ih =>
    obtain ⟨here, there⟩ := not_or.mp fun mem => plain (List.mem_cons.mpr mem)
    have step : outside.step c = outside := if_neg (Ne.symm here)
    rw [after, List.foldl_cons, step]
    exact ih there

theorem bare_plain {cs : List Char} (plain : '\x22' ∉ cs) : outside.bare cs = cs := by
  induction cs with
  | nil => rfl
  | cons c cs ih =>
    obtain ⟨here, there⟩ := not_or.mp fun mem => plain (List.mem_cons.mpr mem)
    have step : outside.step c = outside := if_neg (Ne.symm here)
    rw [bare, if_pos (.inl rfl), step, ih there]

/-- Escaped characters neither close a literal nor leave a backslash open. -/
theorem inside_escaped (cs rest : List Char) :
    inside.after (Rule.escaped cs ++ rest) = inside.after rest
      ∧ inside.bare (Rule.escaped cs ++ rest) = inside.bare rest := by
  induction cs with
  | nil => exact ⟨rfl, rfl⟩
  | cons c cs ih =>
    rw [Rule.escaped]
    split
    case isTrue special =>
      refine ⟨ih.1, ?_⟩
      show inside.bare ('\\' :: c :: (Rule.escaped cs ++ rest)) = _
      rw [bare, if_neg (by decide), show inside.step '\\' = escaped from rfl, bare,
        if_neg (by simp [step]), show escaped.step c = inside from rfl]
      exact ih.2
    case isFalse plain =>
      obtain ⟨backslash, quote⟩ := not_or.mp plain
      have step : inside.step c = inside := by rw [step, if_neg quote, if_neg backslash]
      refine ⟨?_, ?_⟩
      · rw [List.cons_append, after, List.foldl_cons, step]
        exact ih.1
      · rw [List.cons_append, bare, step, if_neg (by decide)]
        exact ih.2

/-- A string literal is closed, and only its quotes stand outside. -/
theorem quoted (cs : List Char) : outside.after (Text.quoted cs).toList = outside
    ∧ outside.bare (Text.quoted cs).toList = ['\x22', '\x22'] := by
  have letters : (Text.quoted cs).toList = '\x22' :: (Rule.escaped cs ++ ['\x22']) := by
    rw [Text.quoted, String.toList_ofList, List.cons_append]
  obtain ⟨after, bare⟩ := inside_escaped cs ['\x22']
  rw [letters]
  exact ⟨after, congrArg ('\x22' :: ·) bare⟩

end Quoting

/-- A text without the contents of its string literals. -/
def bare (s : String) : List Char := Quoting.outside.bare s.toList

/-- Every string literal of the text is closed. -/
def Closed (s : String) : Prop := Quoting.outside.after s.toList = .outside

instance (s : String) : Decidable (Closed s) := inferInstanceAs (Decidable (_ = _))

section

variable {a b : String}

theorem Closed.append (ha : Closed a) (hb : Closed b) : Closed (a ++ b) := by
  unfold Closed at *
  rw [String.toList_append, Quoting.after_append, ha, hb]

theorem bare_append (ha : Closed a) : bare (a ++ b) = bare a ++ bare b := by
  rw [bare, String.toList_append, Quoting.bare_append, ha, bare, bare]

theorem closed_quoted (cs : List Char) : Closed (Text.quoted cs) := (Quoting.quoted cs).1

theorem bare_quoted (cs : List Char) : bare (Text.quoted cs) = ['\x22', '\x22'] :=
  (Quoting.quoted cs).2

theorem closed_of_plain (plain : '\x22' ∉ a.toList) : Closed a := Quoting.after_plain plain

theorem bare_of_plain (plain : '\x22' ∉ a.toList) : bare a = a.toList := Quoting.bare_plain plain

end

/-! ## Delimiters -/

/-- What closes an opening delimiter. -/
def closer? : Char → Option Char
  | '(' => some ')'
  | '[' => some ']'
  | '\x7b' => some '\x7d'
  | _ => none

/-- A closing delimiter. -/
def isCloser (c : Char) : Bool := c == ')' || c == ']' || c == '\x7d'

/-- Reads a character where the delimiters of `closers` are still to come, innermost first. -/
def delimit (closers : List Char) (c : Char) : Option (List Char) :=
  match closer? c with
  | some d => some (d :: closers)
  | none =>
      if isCloser c then
        match closers with
        | d :: rest => if c = d then some rest else none
        | [] => none
      else some closers

/-- Reads characters; fails at a closing delimiter that is not the one to come. -/
def closersAfter (closers : List Char) : List Char → Option (List Char)
  | [] => some closers
  | c :: cs => (delimit closers c).bind fun closers => closersAfter closers cs

theorem closersAfter_append (closers a b : List Char) :
    closersAfter closers (a ++ b) = (closersAfter closers a).bind (closersAfter · b) := by
  induction a generalizing closers with
  | nil => rfl
  | cons c a ih =>
    rw [List.cons_append, closersAfter, closersAfter]
    cases delimit closers c with
    | none => rfl
    | some next => exact ih next

/-- Delimiters around a text do not matter to what is nested inside. -/
theorem delimit_frame {closers next : List Char} {c : Char} (h : delimit closers c = some next)
    (outer : List Char) : delimit (closers ++ outer) c = some (next ++ outer) := by
  unfold delimit at h ⊢
  split at h
  · cases h
    rfl
  · split at h
    case isFalse other =>
      cases h
      exact if_neg other
    case isTrue closing =>
      rw [if_pos closing]
      split at h
      case h_2 => cases h
      case h_1 d rest =>
        split at h
        case isFalse => cases h
        case isTrue here =>
          cases h
          exact if_pos here

theorem closersAfter_frame {closers next cs : List Char} (h : closersAfter closers cs = some next)
    (outer : List Char) : closersAfter (closers ++ outer) cs = some (next ++ outer) := by
  induction cs generalizing closers with
  | nil =>
    cases h
    rfl
  | cons c cs ih =>
    obtain ⟨between, first, rest⟩ := Option.bind_eq_some_iff.mp h
    rw [closersAfter, delimit_frame first outer]
    exact ih rest

/-- Every string literal is closed, and outside of them every delimiter is closed by its
own kind, in the order in which nested ones must be. -/
structure Balanced (s : String) : Prop where
  closed : Closed s
  nested : closersAfter [] (bare s) = some []

instance (s : String) : Decidable (Balanced s) :=
  decidable_of_iff (Closed s ∧ closersAfter [] (bare s) = some [])
    ⟨fun ⟨closed, nested⟩ => ⟨closed, nested⟩, fun h => ⟨h.closed, h.nested⟩⟩

example : Balanced "f([1, \"(\"], \x7b2\x7d)" ∧ ¬Balanced "([)]" ∧ ¬Balanced "f(\"a)" := by decide

theorem Balanced.append {a b : String} (ha : Balanced a) (hb : Balanced b) : Balanced (a ++ b) := by
  refine ⟨ha.closed.append hb.closed, ?_⟩
  rw [bare_append ha.closed, closersAfter_append, ha.nested]
  exact hb.nested

/-! ## Helpers -/

/-- What a helper's name begins with. -/
def helperScope : List Char := ['m', '2', 'c', 'p', 'p', ':', ':']

/-- Names of helpers in bare characters, in order. -/
def helpersIn : List Char → List (List Char)
  | [] => []
  | c :: cs =>
      if helperScope.isPrefixOf (c :: cs) then
        (helperScope ++ ((c :: cs).drop helperScope.length).takeWhile Token.isWordRest) :: helpersIn cs
      else helpersIn cs

/-- Names of helpers in a text, outside of string literals. -/
def helpers (s : String) : List String := (helpersIn (bare s)).map String.ofList

example : helpers "y = m2cpp::uspan(0, m2cpp::length(x)) + \"m2cpp::fft\" ;"
    = ["m2cpp::uspan", "m2cpp::length"] := by decide

/-- A name of a helper stands at some place, behind which it goes on as far as a word does. -/
theorem mem_helpersIn {name cs : List Char} : name ∈ helpersIn cs
    ↔ ∃ before rest, cs = before ++ (helperScope ++ rest)
      ∧ name = helperScope ++ rest.takeWhile Token.isWordRest := by
  induction cs with
  | nil =>
    refine iff_of_false List.not_mem_nil ?_
    rintro ⟨before, rest, eq, -⟩
    have length := congrArg List.length eq
    simp [helperScope] at length
  | cons c cs ih =>
    have shift : (∃ before rest, c :: cs = before ++ (helperScope ++ rest)
          ∧ name = helperScope ++ rest.takeWhile Token.isWordRest)
        ↔ (∃ rest, c :: cs = helperScope ++ rest
          ∧ name = helperScope ++ rest.takeWhile Token.isWordRest) ∨ name ∈ helpersIn cs := by
      rw [ih]
      constructor
      · rintro ⟨before, rest, eq, rfl⟩
        cases before with
        | nil => exact .inl ⟨rest, eq, rfl⟩
        | cons d before =>
          obtain ⟨rfl, rfl⟩ := List.cons.inj eq
          exact .inr ⟨before, rest, rfl, rfl⟩
      · rintro (⟨rest, eq, rfl⟩ | ⟨before, rest, rfl, rfl⟩)
        · exact ⟨[], rest, eq, rfl⟩
        · exact ⟨c :: before, rest, rfl, rfl⟩
    rw [shift, helpersIn]
    split
    case isTrue opens =>
      obtain ⟨rest, eq⟩ := List.isPrefixOf_iff_prefix.mp opens
      rw [List.mem_cons, ← eq, List.drop_left]
      refine or_congr_left ⟨fun name => ⟨rest, rfl, name⟩, ?_⟩
      rintro ⟨rest', same, rfl⟩
      rw [List.append_cancel_left same]
    case isFalse other =>
      refine (or_iff_right ?_).symm
      rintro ⟨rest, eq, -⟩
      exact other (List.isPrefixOf_iff_prefix.mpr ⟨rest, eq.symm⟩)

end MatrixScript.Cpp
