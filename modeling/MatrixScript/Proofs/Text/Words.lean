/-
# `Proofs.Text.Words` — the words of emitted texts

Emitted code is read from left to right: words (letters, digits and underscores),
the characters between them, and string literals, which are passed over
(`Place.read`).  `identifiers` are the words outside of string literals.

A relation between words gives a likeness of texts (`Wording.likeness`): the same
pieces in the same order, with words that are related.  It has to relate every word
to itself that fixed pieces are made of, and these have no underscore right before a
digit (`isUnnumbered`); so it may be anything on the names of temporaries.
-/
import MatrixScript.Proofs.Program.Grammar
import MatrixScript.Proofs.Text.Likeness
import MatrixScript.Proofs.Text.Lines

namespace MatrixScript

namespace Text

/-! ## Reading emitted code -/

/-- A piece of emitted code. -/
inductive Piece where
  /-- a word; whether it stands behind another one, with one blank between them -/
  | word (gap : Bool) (letters : List Char)
  /-- a character between words -/
  | mark (c : Char)
  /-- a character of a string literal behind its opening quote -/
  | quoted (c : Char)
  /-- the end of the text, in a string literal that is not closed -/
  | torn
deriving DecidableEq, Repr

/-- Where reading has come to. -/
inductive Place where
  | outside (gap : Bool)
  /-- in a word, of which these are the letters so far, last one first -/
  | inside (gap : Bool) (letters : List Char)
  | quoted
  /-- in a string literal, behind a backslash -/
  | escaped
deriving DecidableEq, Repr

/-- Characters of a piece. -/
def Piece.chars : Piece → List Char
  | word _ letters => letters
  | mark c | quoted c => [c]
  | torn => []

namespace Place

/-- Where a character leads that is in no word. -/
def behind (c : Char) (gap : Bool) : Place := if c = '\x22' then quoted else outside gap

/-- Reads a character: the pieces that it completes, and the place behind it. -/
def step : Place → Char → List Piece × Place
  | outside gap, c =>
      if Token.isWordRest c then ([], inside gap [c]) else ([.mark c], behind c false)
  | inside gap letters, c =>
      if Token.isWordRest c then ([], inside gap (c :: letters))
      else ([.word gap letters.reverse, .mark c], behind c (c == ' '))
  | quoted, c =>
      ([.quoted c], if c = '\\' then escaped else if c = '\x22' then outside false else quoted)
  | escaped, c => ([.quoted c], quoted)

/-- Reads characters. -/
def read : Place → List Char → List Piece × Place
  | p, [] => ([], p)
  | p, c :: cs =>
      let (pieces, p) := p.step c
      let (more, p) := p.read cs
      (pieces ++ more, p)

/-- What is left to complete at the end of the text. -/
def close : Place → List Piece
  | outside _ => []
  | inside gap letters => [.word gap letters.reverse]
  | quoted | escaped => [.torn]

/-- All pieces from a place to the end of the text. -/
def toEnd (p : Place) (cs : List Char) : List Piece := (p.read cs).1 ++ (p.read cs).2.close

section

variable {c : Char} {gap : Bool} {letters : List Char}

theorem step_outside (word : Token.isWordRest c) : (outside gap).step c = ([], inside gap [c]) :=
  if_pos word

theorem step_outside_other (other : ¬Token.isWordRest c) :
    (outside gap).step c = ([.mark c], behind c false) := if_neg other

theorem step_inside (word : Token.isWordRest c) :
    (inside gap letters).step c = ([], inside gap (c :: letters)) := if_pos word

theorem step_inside_other (other : ¬Token.isWordRest c) : (inside gap letters).step c
    = ([.word gap letters.reverse, .mark c], behind c (c == ' ')) := if_neg other

end

theorem read_append (p : Place) (cs ds : List Char) : p.read (cs ++ ds)
    = ((p.read cs).1 ++ ((p.read cs).2.read ds).1, ((p.read cs).2.read ds).2) := by
  induction cs generalizing p with
  | nil => rfl
  | cons c cs ih =>
    simp only [List.cons_append, read, ih, List.append_assoc]

theorem toEnd_append (p : Place) (cs ds : List Char) :
    p.toEnd (cs ++ ds) = (p.read cs).1 ++ (p.read cs).2.toEnd ds := by
  simp only [toEnd, read_append, List.append_assoc]

theorem toEnd_cons (p : Place) (c : Char) (cs : List Char) :
    p.toEnd (c :: cs) = (p.step c).1 ++ (p.step c).2.toEnd cs := by
  simp only [toEnd, read, List.append_assoc]

/-- In a word, the rest of the word comes first. -/
theorem toEnd_inside (gap : Bool) (letters cs : List Char) : ∃ rest,
    (inside gap letters).toEnd cs
      = .word gap (letters.reverse ++ cs.takeWhile Token.isWordRest) :: rest := by
  induction cs generalizing letters with
  | nil => exact ⟨[], by simp [toEnd, read, close]⟩
  | cons c cs ih =>
    rw [toEnd_cons]
    by_cases word : Token.isWordRest c
    · obtain ⟨rest, eq⟩ := ih (c :: letters)
      refine ⟨rest, ?_⟩
      rw [step_inside word, List.nil_append, eq, List.takeWhile_cons_of_pos word]
      simp
    · rw [step_inside_other word, List.takeWhile_cons_of_neg word, List.append_nil]
      exact ⟨_, rfl⟩

/-- A word comes first. -/
theorem toEnd_outside (gap : Bool) {w : List Char} (some : w ≠ [])
    (letters : ∀ c ∈ w, Token.isWordRest c) (cs : List Char) : ∃ rest,
    (outside gap).toEnd (w ++ cs) = .word gap (w ++ cs.takeWhile Token.isWordRest) :: rest := by
  obtain ⟨c, w, rfl⟩ := List.exists_cons_of_ne_nil some
  obtain ⟨first, others⟩ := List.forall_mem_cons.mp letters
  obtain ⟨rest, read⟩ := toEnd_inside gap [c] (w ++ cs)
  refine ⟨rest, ?_⟩
  rw [List.cons_append, toEnd_cons, step_outside first, List.nil_append, read,
    List.takeWhile_append_of_pos others]
  rfl

/-- The letters that are read but not yet in a piece. -/
def held : Place → List Char
  | inside _ letters => letters.reverse
  | _ => []

/-- A character is not lost: it goes into a piece, or into the word that is read. -/
theorem chars_step (p : Place) (c : Char) :
    (p.step c).1.flatMap Piece.chars ++ (p.step c).2.held = p.held ++ [c] := by
  have outside : ∀ gap, (behind c gap).held = [] := by
    intro gap
    unfold behind
    split <;> rfl
  cases p with
  | outside gap =>
    by_cases word : Token.isWordRest c
    · rw [step_outside word]
      rfl
    · rw [step_outside_other word, outside]
      rfl
  | inside gap letters =>
    by_cases word : Token.isWordRest c
    · simp [step_inside word, held]
    · rw [step_inside_other word, outside]
      simp [Piece.chars, held]
  | quoted =>
    unfold step
    dsimp only
    split
    · rfl
    · split <;> rfl
  | escaped => rfl

/-- Nothing is lost in reading. -/
theorem chars_toEnd (p : Place) (cs : List Char) :
    (p.toEnd cs).flatMap Piece.chars = p.held ++ cs := by
  induction cs generalizing p with
  | nil => cases p <;> simp [toEnd, read, close, held, Piece.chars]
  | cons c cs ih =>
    rw [toEnd_cons, List.flatMap_append, ih, ← List.append_assoc, chars_step, List.append_assoc]
    rfl

end Place

/-- Pieces of a text. -/
def pieces (s : String) : List Piece := (Place.outside false).toEnd s.toList

/-- Words of a text outside of its string literals. -/
def identifiers (s : String) : List String :=
  (pieces s).filterMap fun
    | .word _ letters => some (String.ofList letters)
    | _ => none

theorem mem_identifiers {x s : String} :
    x ∈ identifiers s ↔ ∃ gap, Piece.word gap x.toList ∈ pieces s := by
  refine List.mem_filterMap.trans ⟨?_, ?_⟩
  · rintro ⟨piece, mem, eq⟩
    cases piece with
    | word gap letters =>
      obtain rfl := Option.some.inj eq
      exact ⟨gap, by rwa [String.toList_ofList]⟩
    | mark | quoted | torn => cases eq
  · rintro ⟨gap, mem⟩
    exact ⟨_, mem, congrArg some x.ofList_toList⟩

theorem chars_pieces (s : String) : (pieces s).flatMap Piece.chars = s.toList :=
  Place.chars_toEnd _ _

/-- A text that starts with a word has it in its first piece. -/
theorem pieces_of_prefix {w rest : List Char} {s : String} (eq : s.toList = w ++ rest)
    (some : w ≠ []) (letters : ∀ c ∈ w, Token.isWordRest c) : ∃ more ps,
    pieces s = .word false (w ++ more) :: ps := by
  obtain ⟨ps, read⟩ := Place.toEnd_outside false some letters rest
  exact ⟨_, ps, by rw [pieces, eq, read]⟩

end Text

open Text

/-! ## Wordings -/

/-- No digit stands right behind an underscore; `low` says that one stands in front. -/
def Text.isUnnumbered (low : Bool) : List Char → Bool
  | [] => true
  | c :: cs => !(low && c.isDigit) && isUnnumbered (c == '_') cs

/-- What words may stand for each other. -/
structure Wording where
  /-- relates words; `gap` says that they stand behind another word -/
  word (gap : Bool) (w w' : List Char) : Prop
  /-- names that the script may use -/
  plain : String → Prop
  fixed {gap : Bool} {w : List Char} : isUnnumbered false w → word gap w w
  named {g : Bool} {x : String} : plain x → isName x ∧ word g x.toList x.toList
    ∧ word g ('_' :: x.toList) ('_' :: x.toList)
  /-- no word that starts with `return` stands for one that does not -/
  returns {gap : Bool} {w w' : List Char} : word gap w w' →
    ("return".toList <+: w ↔ "return".toList <+: w')

namespace Wording

variable (R : Wording)

/-- The same piece up to the word that it is; none is a line end. -/
inductive Same : Piece → Piece → Prop
  | word {gap : Bool} {w w' : List Char} : R.word gap w w' → Same (.word gap w) (.word gap w')
  | mark {c : Char} : c ≠ '\n' → c ≠ '\r' → Same (.mark c) (.mark c)
  | quoted {c : Char} : c ≠ '\n' → Same (.quoted c) (.quoted c)

/-- Two places of which one stands for the other, while fixed pieces are read. -/
inductive Meets : Reading → Place → Place → Prop
  | free : Meets (.outside .free) (.outside false) (.outside false)
  | gap {gap : Bool} : Meets (.outside .gap) (.outside gap) (.outside gap)
  | bare : Meets (.outside .word) (.outside false) (.outside false)
  | word {gap : Bool} {ls ls' : List Char} : R.word gap ls.reverse ls'.reverse →
      Meets (.outside .word) (.inside gap ls) (.inside gap ls')
  | inside {gap low : Bool} {ls : List Char} : isUnnumbered false ls.reverse →
      low = (ls.head? == some '_') → Meets (.inside low) (.inside gap ls) (.inside gap ls)

variable {R} {r : Reading} {p p' : Place}

/-- Behind a fixed piece only the mark matters. -/
theorem Meets.outside (h : R.Meets r p p') : R.Meets (.outside r.mark) p p' := by
  cases h with
  | inside unnumbered => exact .word (R.fixed unnumbered)
  | free => exact .free
  | gap => exact .gap
  | bare => exact .bare
  | word same => exact .word same

theorem Meets.weaken (h : R.Meets (.outside .free) p p') : R.Meets (.outside .word) p p' := by
  cases h
  exact .bare

theorem Meets.close (h : R.Meets r p p') : List.Forall₂ R.Same p.close p'.close := by
  cases h with
  | free | gap | bare => exact .nil
  | word same => exact .cons (.word same) .nil
  | inside unnumbered => exact .cons (.word (R.fixed unnumbered)) .nil

/-- One more letter leaves the word unnumbered if it is no digit behind an underscore. -/
theorem isUnnumbered_concat {ls : List Char} {c : Char} (h : isUnnumbered false ls.reverse)
    (apart : ((ls.head? == some '_') && c.isDigit) = false) :
    isUnnumbered false (c :: ls).reverse := by
  have concat : ∀ (cs : List Char) (low : Bool), isUnnumbered low cs →
      ((if cs = [] then low else cs.getLast? == some '_') && c.isDigit) = false →
      isUnnumbered low (cs ++ [c]) := by
    intro cs
    induction cs with
    | nil =>
      intro low _ last
      rw [if_pos rfl] at last
      simp only [List.nil_append, isUnnumbered, last, Bool.not_false, Bool.and_self]
    | cons d cs ih =>
      intro low all last
      obtain ⟨first, rest⟩ := Bool.and_eq_true _ _ |>.mp all
      refine Bool.and_eq_true _ _ |>.mpr ⟨first, ih (d == '_') rest ?_⟩
      cases cs with
      | nil => simpa using last
      | cons => simpa [List.getLast?_cons_cons] using last
  rw [List.reverse_cons]
  refine concat _ _ h ?_
  cases ls with
  | nil => simp
  | cons => simpa using apart

theorem Same.marks {c : Char} (allowed : ¬(c = '\x22' ∨ c = '\n' ∨ c = '\r')) :
    R.Same (.mark c) (.mark c) := by
  obtain ⟨-, line, carriage⟩ := not_or.mp allowed |>.imp_right not_or.mp
  exact .mark line carriage

/-- Fixed pieces keep two places together. -/
theorem Meets.step (h : R.Meets r p p') {c : Char} {r' : Reading} (read : r.step c = some r') :
    List.Forall₂ R.Same (p.step c).1 (p'.step c).1 ∧ R.Meets r' (p.step c).2 (p'.step c).2 := by
  have start : ∀ gap, R.Meets (.inside (c == '_')) (.inside gap [c]) (.inside gap [c]) := by
    intro gap
    exact .inside (by simp [isUnnumbered]) (by simp)
  unfold Reading.step at read
  split at read
  case isTrue word =>
    cases h with
    | free | gap =>
      obtain rfl := Option.some.inj read
      rw [Place.step_outside word]
      exact ⟨.nil, start _⟩
    | bare | word => cases read
    | @inside gap low ls unnumbered eq =>
      dsimp only at read
      split at read
      case isTrue => cases read
      case isFalse apart =>
        obtain rfl := Option.some.inj read
        rw [Place.step_inside word]
        refine ⟨.nil, .inside (isUnnumbered_concat unnumbered ?_) (by simp)⟩
        rw [← eq]
        exact Bool.eq_false_iff.mpr apart
  case isFalse word =>
    split at read
    case isTrue => cases read
    case isFalse allowed =>
      obtain rfl := Option.some.inj read
      have plain : ∀ gap, Place.behind c gap = .outside gap := fun gap =>
        if_neg fun quote => allowed (.inl quote)
      -- behind a word, a blank leaves a gap
      have behind : ∀ gap : Bool, (gap → c = ' ') → R.Meets (.outside (if c = ' ' then .gap else .free))
          (.outside gap) (.outside gap) := by
        intro gap blank
        split
        case isTrue => exact .gap
        case isFalse other =>
          obtain rfl : gap = false := Bool.eq_false_iff.mpr fun gap => other (blank gap)
          exact .free
      cases h with
      | free =>
        rw [Place.step_outside_other word, plain, if_neg fun both => nomatch both.2]
        exact ⟨.cons (.marks allowed) .nil, .free⟩
      | gap =>
        rw [Place.step_outside_other word, plain, if_neg fun both => nomatch both.2]
        exact ⟨.cons (.marks allowed) .nil, .free⟩
      | bare =>
        rw [Place.step_outside_other word, plain]
        simp only [Reading.mark, and_true]
        exact ⟨.cons (.marks allowed) .nil, behind false nofun⟩
      | word same =>
        rw [Place.step_inside_other word, Place.step_inside_other word, plain]
        simp only [Reading.mark, and_true]
        exact ⟨.cons (.word same) (.cons (.marks allowed) .nil), behind _ eq_of_beq⟩
      | inside unnumbered =>
        rw [Place.step_inside_other word, plain]
        simp only [Reading.mark, and_true]
        exact ⟨.cons (.word (R.fixed unnumbered)) (.cons (.marks allowed) .nil), behind _ eq_of_beq⟩

theorem Meets.run (h : R.Meets r p p') {cs : List Char} {r' : Reading} (ran : r.run cs = some r') :
    List.Forall₂ R.Same (p.read cs).1 (p'.read cs).1 ∧ R.Meets r' (p.read cs).2 (p'.read cs).2 := by
  induction cs generalizing r p p' with
  | nil =>
    obtain rfl := Option.some.inj ran
    exact ⟨.nil, h⟩
  | cons c cs ih =>
    obtain ⟨next, read, rest⟩ := Option.bind_eq_some_iff.mp ran
    obtain ⟨pieces, meets⟩ := h.step read
    obtain ⟨pieces', meets'⟩ := ih meets rest
    exact ⟨List.rel_append pieces pieces', meets'⟩

/-! ## The likeness of a wording -/

/-- Texts that are put together alike, behind places that go together. -/
def Like (R : Wording) (m : Mark) (a a' : String) (e : Mark) : Prop :=
  ∀ p p', R.Meets (.outside m) p p' → List.Forall₂ R.Same (p.read a.toList).1 (p'.read a'.toList).1
    ∧ R.Meets (.outside e) (p.read a.toList).2 (p'.read a'.toList).2

/-- Lines of the same pieces. -/
def Line (R : Wording) (a a' : String) : Prop :=
  a ≠ "" ∧ a' ≠ "" ∧ List.Forall₂ R.Same (pieces a) (pieces a')

theorem Like.append {m n e : Mark} {a b a' b' : String} (h : R.Like m a a' n)
    (k : R.Like n b b' e) : R.Like m (a ++ b) (a' ++ b') e := by
  intro p p' meets
  obtain ⟨first, between⟩ := h p p' meets
  obtain ⟨second, behind⟩ := k _ _ between
  rw [String.toList_append, String.toList_append, Place.read_append, Place.read_append]
  exact ⟨List.rel_append first second, behind⟩

theorem like_of_scan {m e : Mark} {a : String} (scanned : scan m a.toList = some e) :
    R.Like m a a e := by
  intro p p' meets
  obtain ⟨r, ran, rfl⟩ := Option.map_eq_some_iff.mp scanned
  obtain ⟨same, meets⟩ := meets.run ran
  exact ⟨same, meets.outside⟩

/-- Words can stand for each other where no word stands in front. -/
theorem like_words {m : Mark} (apart : m ≠ .word) {w w' : List Char} (some : w ≠ []) (some' : w' ≠ [])
    (letters : ∀ c ∈ w, Token.isWordRest c) (letters' : ∀ c ∈ w', Token.isWordRest c)
    (word : ∀ gap : Bool, (gap → m = .gap) → R.word gap w w') :
    R.Like m (String.ofList w) (String.ofList w') .word := by
  have read : ∀ (cs ls : List Char) (gap : Bool), (∀ c ∈ cs, Token.isWordRest c) →
      (Place.inside gap ls).read cs = ([], .inside gap (cs.reverse ++ ls)) := by
    intro cs
    induction cs with
    | nil => exact fun _ _ _ => rfl
    | cons c cs ih =>
      intro ls gap all
      obtain ⟨first, rest⟩ := List.forall_mem_cons.mp all
      rw [Place.read, Place.step_inside first]
      dsimp only
      rw [ih (c :: ls) gap rest]
      simp
  have whole : ∀ (cs : List Char) (gap : Bool), cs ≠ [] → (∀ c ∈ cs, Token.isWordRest c) →
      (Place.outside gap).read cs = ([], .inside gap cs.reverse) := by
    intro cs gap some all
    obtain ⟨c, cs, rfl⟩ := List.exists_cons_of_ne_nil some
    obtain ⟨first, rest⟩ := List.forall_mem_cons.mp all
    rw [Place.read, Place.step_outside first]
    dsimp only
    rw [read cs [c] gap rest]
    simp
  intro p p' meets
  obtain ⟨gap, rfl, rfl, here⟩ : ∃ gap : Bool, p = .outside gap ∧ p' = .outside gap ∧ (gap → m = .gap) := by
    cases meets with
    | free => exact ⟨false, rfl, rfl, nofun⟩
    | gap => exact ⟨_, rfl, rfl, fun _ => rfl⟩
    | bare | word => exact absurd rfl apart
  rw [String.toList_ofList, String.toList_ofList, whole w gap some letters,
    whole w' gap some' letters']
  refine ⟨.nil, .word ?_⟩
  rw [List.reverse_reverse, List.reverse_reverse]
  exact word gap here

theorem read_escaped {cs : List Char} (line : '\n' ∉ cs) : ∃ ps,
    Place.quoted.read (Rule.escaped cs) = (ps, .quoted) ∧ List.Forall₂ R.Same ps ps := by
  induction cs with
  | nil => exact ⟨[], rfl, .nil⟩
  | cons c cs ih =>
    obtain ⟨here, there⟩ := not_or.mp fun mem => line (List.mem_cons.mpr mem)
    obtain ⟨ps, read, same⟩ := ih there
    rw [Rule.escaped]
    split
    case isTrue =>
      refine ⟨.quoted '\\' :: .quoted c :: ps, ?_, .cons (.quoted (by decide))
        (.cons (.quoted (Ne.symm here)) same)⟩
      simp only [Place.read, Place.step, if_true, read, List.cons_append, List.nil_append]
    case isFalse plain =>
      obtain ⟨slash, quote⟩ := not_or.mp plain
      refine ⟨.quoted c :: ps, ?_, .cons (.quoted (Ne.symm here)) same⟩
      simp only [Place.read, Place.step, if_neg slash, if_neg quote, read, List.cons_append,
        List.nil_append]

/-- A string literal is passed over. -/
theorem like_quoted {m : Mark} {cs : List Char} (line : '\n' ∉ cs) :
    R.Like m (quoted cs) (quoted cs) .free := by
  have opens : ∀ p p', R.Meets (.outside m) p p' → ∃ ps ps', p.step '\x22' = (ps, .quoted)
      ∧ p'.step '\x22' = (ps', .quoted) ∧ List.Forall₂ R.Same ps ps' := by
    have mark : R.Same (.mark '\x22') (.mark '\x22') := .mark (by decide) (by decide)
    intro p p' meets
    cases meets with
    | free | gap | bare => exact ⟨_, _, rfl, rfl, .cons mark .nil⟩
    | word same => exact ⟨_, _, rfl, rfl, .cons (.word same) (.cons mark .nil)⟩
  intro p p' meets
  obtain ⟨ps, ps', first, first', same⟩ := opens p p' meets
  obtain ⟨inner, read, same'⟩ := read_escaped (R := R) line
  have letters : (quoted cs).toList = '\x22' :: (Rule.escaped cs ++ ['\x22']) := by
    rw [quoted, String.toList_ofList]
    rfl
  have closes : Place.quoted.read ['\x22'] = ([.quoted '\x22'], .outside false) := rfl
  rw [letters, Place.read, Place.read, first, first']
  dsimp only
  rw [Place.read_append, read, closes]
  have last : List.Forall₂ R.Same [.quoted '\x22'] [.quoted '\x22'] :=
    .cons (.quoted (by decide)) .nil
  exact ⟨List.rel_append same (List.rel_append same' last), .free⟩

/-! ### Lines -/

theorem line_of_like {m : Mark} {a a' : String} (h : R.Like .free a a' m) (some : a ≠ "") :
    R.Line a a' := by
  obtain ⟨same, meets⟩ := h _ _ .free
  have all : List.Forall₂ R.Same (pieces a) (pieces a') := List.rel_append same meets.close
  refine ⟨some, fun none => some ?_, all⟩
  -- without pieces there are no characters
  have empty : pieces a = [] := by
    rw [none] at all
    exact List.forall₂_nil_right_iff.mp all
  have chars := chars_pieces a
  rw [empty] at chars
  exact String.toList_injective chars.symm

/-- A piece that can stand in a line. -/
def Allowed : Piece → Prop
  | .word _ _ => True
  | .mark c => c ≠ '\n' ∧ c ≠ '\r'
  | .quoted c => c ≠ '\n'
  | .torn => False

theorem allowed_of_same {ps ps' : List Piece} (h : List.Forall₂ R.Same ps ps') :
    (∀ p ∈ ps, Allowed p) ∧ ∀ p ∈ ps', Allowed p := by
  induction h with
  | nil => exact ⟨nofun, nofun⟩
  | cons first _ ih =>
    obtain ⟨here, there⟩ := ih
    cases first with
    | word => exact ⟨List.forall_mem_cons.mpr ⟨trivial, here⟩, List.forall_mem_cons.mpr ⟨trivial, there⟩⟩
    | mark line carriage =>
      exact ⟨List.forall_mem_cons.mpr ⟨⟨line, carriage⟩, here⟩,
        List.forall_mem_cons.mpr ⟨⟨line, carriage⟩, there⟩⟩
    | quoted line =>
      exact ⟨List.forall_mem_cons.mpr ⟨line, here⟩, List.forall_mem_cons.mpr ⟨line, there⟩⟩

/-- A text of such pieces is one line. -/
theorem isLine_of_allowed {s : String} (filled : s ≠ "") (h : ∀ p ∈ pieces s, Allowed p) :
    IsLine s := by
  refine ⟨filled, fun newline => ?_, fun carriage => ?_⟩
  · obtain ⟨u, v, eq⟩ := List.append_of_mem newline
    rw [pieces, eq, Place.toEnd_append, Place.toEnd_cons] at h
    have found : Piece.mark '\n' ∈ (((Place.outside false).read u).2.step '\n').1
        ∨ Piece.quoted '\n' ∈ (((Place.outside false).read u).2.step '\n').1 := by
      cases ((Place.outside false).read u).2 with
      | outside | inside => exact .inl (by simp [Place.step, Token.isWordRest])
      | quoted | escaped => exact .inr (by simp [Place.step])
    rcases found with mark | quoted
    · exact (h _ (List.mem_append_right _ (List.mem_append_left _ mark))).1 rfl
    · exact h _ (List.mem_append_right _ (List.mem_append_left _ quoted)) rfl
  · obtain ⟨u, eq⟩ := List.getLast?_eq_some_iff.mp carriage
    rw [pieces, eq, Place.toEnd_append] at h
    have found : Piece.mark '\r' ∈ ((Place.outside false).read u).2.toEnd ['\r']
        ∨ Piece.torn ∈ ((Place.outside false).read u).2.toEnd ['\r'] := by
      cases ((Place.outside false).read u).2 with
      | outside | inside => exact .inl (by simp [Place.toEnd, Place.read, Place.step, Token.isWordRest])
      | quoted | escaped => exact .inr (by simp [Place.toEnd, Place.read, Place.step, Place.close])
    rcases found with mark | torn
    · exact (h _ (List.mem_append_right _ mark)).2 rfl
    · exact h _ (List.mem_append_right _ torn)

theorem Line.isLine {a a' : String} (h : R.Line a a') : IsLine a ∧ IsLine a' :=
  ⟨isLine_of_allowed h.1 (allowed_of_same h.2.2).1, isLine_of_allowed h.2.1 (allowed_of_same h.2.2).2⟩

/-- A text starts with `return` if its first word does. -/
theorem startsWith_return {s : String} : s.startsWith "return"
    ↔ ∃ gap w ps, pieces s = .word gap w :: ps ∧ "return".toList <+: w := by
  rw [String.startsWith_string_iff]
  constructor
  · rintro ⟨rest, eq⟩
    obtain ⟨more, ps, read⟩ := pieces_of_prefix eq.symm (by decide) (List.all_eq_true.mp (by decide))
    exact ⟨false, _, ps, read, List.prefix_append _ _⟩
  · rintro ⟨gap, w, ps, read, more, eq⟩
    have chars := chars_pieces s
    rw [read, List.flatMap_cons, Piece.chars, ← eq, List.append_assoc] at chars
    exact ⟨_, chars⟩

theorem Line.returns {a a' : String} (h : R.Line a a') :
    a.startsWith "return" = a'.startsWith "return" := by
  rw [Bool.eq_iff_iff, startsWith_return, startsWith_return]
  obtain ⟨-, -, same⟩ := h
  generalize pieces a = ps at same
  generalize pieces a' = ps' at same
  cases same with
  | nil => exact ⟨nofun, nofun⟩
  | cons first rest =>
    cases first with
    | word same =>
      constructor
      · rintro ⟨_, _, _, eq, starts⟩
        cases eq
        exact ⟨_, _, _, rfl, (R.returns same).mp starts⟩
      · rintro ⟨_, _, _, eq, starts⟩
        cases eq
        exact ⟨_, _, _, rfl, (R.returns same).mpr starts⟩
    | mark | quoted => exact ⟨nofun, nofun⟩

/-- Texts of several lines. -/
def Prints (R : Wording) (a a' : String) : Prop := ∃ ls ls', List.Forall₂ R.Line ls ls'
  ∧ a = Text.joined "\n" ls ∧ a' = Text.joined "\n" ls'

theorem Prints.lines {a a' : String} (h : R.Prints a a') :
    List.Forall₂ R.Line (Text.lines a) (Text.lines a') := by
  obtain ⟨ls, ls', same, rfl, rfl⟩ := h
  have all : (∀ l ∈ ls, IsLine l) ∧ ∀ l ∈ ls', IsLine l := by
    induction same with
    | nil => exact ⟨nofun, nofun⟩
    | cons first _ ih =>
      exact ⟨List.forall_mem_cons.mpr ⟨first.isLine.1, ih.1⟩,
        List.forall_mem_cons.mpr ⟨first.isLine.2, ih.2⟩⟩
  rw [lines_joined all.1, lines_joined all.2]
  exact same

theorem letters_of_isName {x : String} (h : isName x) :
    x.toList ≠ [] ∧ ∀ c ∈ x.toList, Token.isWordRest c := by
  unfold isName at h
  split at h
  · cases h
  · rename_i c rest letters
    simp only [Bool.and_eq_true, List.all_eq_true] at h
    rw [letters]
    refine ⟨List.cons_ne_nil _ _, List.forall_mem_cons.mpr ⟨?_, h.1.2⟩⟩
    have start := h.1.1
    simp only [Token.isWordStart, Bool.or_eq_true] at start
    rcases start with alpha | low
    · simp [Token.isWordRest, Char.isAlphanum, alpha]
    · simp [Token.isWordRest, low]

/-- The likeness of texts that a wording gives. -/
def likeness (R : Wording) : Likeness where
  like := R.Like
  line := R.Line
  prints := R.Prints
  plain := R.plain
  quotable x := '\n' ∉ x.toList
  append := Like.append
  fixed := like_of_scan
  weaken h p p' meets := by
    obtain ⟨same, behind⟩ := h p p' meets
    exact ⟨same, behind.weaken⟩
  named {m x} plain apart := by
    obtain ⟨filled, letters⟩ := letters_of_isName (R.named (g := false) plain).1
    have like := like_words (R := R) apart filled filled letters letters
      fun gap _ => (R.named plain).2.1
    rwa [String.ofList_toList] at like
  hidden {m x} plain apart := by
    obtain ⟨-, letters⟩ := letters_of_isName (R.named (g := false) plain).1
    have all : ∀ c ∈ '_' :: x.toList, Token.isWordRest c :=
      List.forall_mem_cons.mpr ⟨rfl, letters⟩
    have like := like_words (R := R) apart (List.cons_ne_nil _ _) (List.cons_ne_nil _ _) all all
      fun gap _ => (R.named plain).2.2
    have eq : String.ofList ('_' :: x.toList) = "_" ++ x := by
      apply String.toList_injective
      simp
    rwa [eq] at like
  elapsed := elapsed_on_one_line
  string line := like_quoted line
  line_of_like h some := line_of_like h some
  joined h := ⟨_, _, h, rfl, rfl⟩
  lines h := h.lines
  returns h := h.returns

end Wording

end MatrixScript
