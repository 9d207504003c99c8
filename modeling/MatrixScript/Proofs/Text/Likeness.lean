/-
# `Proofs.Text.Likeness` — relations between emitted texts

Emitted code is put together from fixed pieces, from names and literals of the
script, and from texts that are emitted already.  A `Likeness` relates two
texts that are put together in the same way; what it says of the pieces is
left open.  Equality is one, and so is being equal up to the numbers of
temporaries.

Pieces must not run into each other: a `Mark` says whether a word ends right
before a place, and `scan` how a fixed piece leads from one mark to another.
It refuses what no fixed piece has, quotes, line ends and an underscore right
before a digit in a word, and a piece that would go on with the word before
it.
-/
import Mathlib.Data.List.Forall2
import MatrixScript.Proofs.Text.Slice
import MatrixScript.Proofs.Token.Decimal
import MatrixScript.Rule.Literal

namespace MatrixScript

namespace Text

/-! ## Marks -/

/-- What stands right before a place. -/
inductive Mark where
  /-- no word -/
  | free
  /-- a word -/
  | word
  /-- a word and one blank -/
  | gap
deriving DecidableEq, Repr

/-- Where reading a fixed piece has come to; inside of a word, whether an
underscore was read last. -/
inductive Reading where
  | outside (m : Mark)
  | inside (low : Bool)
deriving DecidableEq, Repr

namespace Reading

/-- The mark of a place. -/
def mark : Reading → Mark
  | outside m => m
  | inside _ => .word

/-- Reads one character of a fixed piece. -/
def step (r : Reading) (c : Char) : Option Reading :=
  if Token.isWordRest c then
    match r with
    | outside .word => none
    | outside _ => some (inside (c == '_'))
    | inside low => if low && c.isDigit then none else some (inside (c == '_'))
  else if c = '\x22' ∨ c = '\n' ∨ c = '\r' then none
  else some (outside (if c = ' ' ∧ r.mark = .word then .gap else .free))

/-- Reads the characters of a fixed piece. -/
def run (r : Reading) : List Char → Option Reading
  | [] => some r
  | c :: cs => (r.step c).bind fun r => r.run cs

end Reading

/-- The mark behind a fixed piece, if it can stand behind the mark `m`. -/
def scan (m : Mark) (cs : List Char) : Option Mark := ((Reading.outside m).run cs).map (·.mark)

/-- A literal is scanned without being decoded. -/
theorem scan_literal {m e : Mark} {cs : List Char} {a : String} (eq : a = String.ofList cs)
    (h : scan m cs = some e) : scan m a.toList = some e := by
  rw [eq, String.toList_ofList, h]

namespace Reading

/-- A digit can start a word, and go on with one if no underscore stands before it. -/
theorem step_digit {r : Reading} (apart : r ≠ outside .word) (high : r ≠ inside true) {c : Char}
    (digit : c.isDigit) : r.step c = some (inside false) := by
  have word : Token.isWordRest c := by simp [Token.isWordRest, Char.isAlphanum, digit]
  have low : (c == '_') = false := by
    cases eq : c == '_' with
    | false => rfl
    | true =>
      rw [eq_of_beq eq] at digit
      cases digit
  unfold step
  rw [if_pos word, low]
  cases r with
  | outside between =>
    cases between with
    | word => exact absurd rfl apart
    | free | gap => rfl
  | inside name =>
    cases name with
    | true => exact absurd rfl high
    | false => rfl

theorem run_digits {cs : List Char} (digits : ∀ c ∈ cs, c.isDigit) :
    (inside false).run cs = some (inside false) := by
  induction cs with
  | nil => rfl
  | cons c cs ih =>
    obtain ⟨first, rest⟩ := List.forall_mem_cons.mp digits
    rw [run, step_digit (r := inside false) nofun nofun first]
    exact ih rest

/-- Not behind a word, and not right behind an underscore. -/
def Open (r : Reading) : Prop := r = outside .free ∨ r = inside false

theorem Open.step {r : Reading} (h : r.Open) {c : Char} (numeral : Token.isNumeral c) :
    ∃ r', r.step c = some r' ∧ r'.Open := by
  rcases Bool.or_eq_true _ _ |>.mp numeral with digit | sign
  · refine ⟨inside false, step_digit ?_ ?_ digit, .inr rfl⟩
    · rintro rfl
      rcases h with eq | eq <;> cases eq
    · rintro rfl
      rcases h with eq | eq <;> cases eq
  · simp only [List.contains_cons, List.contains_nil, Bool.or_false, Bool.or_eq_true,
      beq_iff_eq] at sign
    rcases sign with rfl | rfl | rfl | rfl | rfl <;> rcases h with rfl | rfl <;>
      first | exact ⟨_, rfl, .inl rfl⟩ | exact ⟨_, rfl, .inr rfl⟩

theorem Open.run {r : Reading} (h : r.Open) {cs : List Char}
    (numerals : ∀ c ∈ cs, Token.isNumeral c) : ∃ r', r.run cs = some r' ∧ r'.Open := by
  induction cs generalizing r with
  | nil => exact ⟨r, rfl, h⟩
  | cons c cs ih =>
    obtain ⟨first, rest⟩ := List.forall_mem_cons.mp numerals
    obtain ⟨next, stepped, opened⟩ := h.step first
    obtain ⟨last, ran, opened⟩ := ih opened rest
    exact ⟨last, by rw [Reading.run, stepped, Option.bind_some, ran], opened⟩

end Reading

/-- Numerals can stand wherever no word stands. -/
theorem scan_numerals {cs : List Char} (numerals : ∀ c ∈ cs, Token.isNumeral c) :
    scan .free cs = some .free ∨ scan .free cs = some .word := by
  obtain ⟨r, ran, opened⟩ := Reading.Open.run (.inl rfl) numerals
  rw [scan, ran]
  rcases opened with rfl | rfl
  · exact .inl rfl
  · exact .inr rfl

/-- A number can stand wherever no word stands. -/
theorem scan_digits {m : Mark} (ne : m ≠ .word) {cs : List Char} (some : cs ≠ [])
    (digits : ∀ c ∈ cs, c.isDigit) : scan m cs = .some .word := by
  obtain ⟨c, cs, rfl⟩ := List.exists_cons_of_ne_nil some
  obtain ⟨first, rest⟩ := List.forall_mem_cons.mp digits
  have apart : Reading.outside m ≠ .outside .word := fun eq => ne (Reading.outside.inj eq)
  rw [scan, Reading.run, Reading.step_digit apart nofun first, Option.bind_some,
    Reading.run_digits rest]
  rfl

/-- A string literal of the target language. -/
def quoted (cs : List Char) : String := String.ofList ('\x22' :: Rule.escaped cs ++ ['\x22'])

theorem elapsed_on_one_line : '\n' ∉ "Elapsed time = ".toList := by decide

end Text

open Text

/-! ## Likeness -/

/-- A relation between texts that are put together in the same way.  `like m a b e`
relates texts that stand behind the mark `m` and lead to the mark `e`. -/
structure Likeness where
  like : Mark → String → String → Mark → Prop
  /-- relates lines -/
  line : String → String → Prop
  /-- relates the texts of statements, which may have several lines -/
  prints : String → String → Prop
  /-- names that the script may use -/
  plain : String → Prop
  /-- contents that string literals may have -/
  quotable : String → Prop
  append {m n e : Mark} {a b a' b' : String} :
    like m a a' n → like n b b' e → like m (a ++ b) (a' ++ b') e
  fixed {m e : Mark} {a : String} : scan m a.toList = some e → like m a a e
  weaken {m : Mark} {a a' : String} : like m a a' .free → like m a a' .word
  named {m : Mark} {x : String} : plain x → m ≠ .word → like m x x .word
  hidden {m : Mark} {x : String} : plain x → m ≠ .word → like m ("_" ++ x) ("_" ++ x) .word
  elapsed : quotable "Elapsed time = "
  string {m : Mark} {x : String} : quotable x → like m (quoted x.toList) (quoted x.toList) .free
  line_of_like {m : Mark} {a a' : String} : like .free a a' m → a ≠ "" → line a a'
  joined {ls ls' : List String} :
    List.Forall₂ line ls ls' → prints (Text.joined "\n" ls) (Text.joined "\n" ls')
  lines {a a' : String} : prints a a' → List.Forall₂ line (Text.lines a) (Text.lines a')
  /-- whether a function returns a value is told by the start of its last line -/
  returns {a a' : String} : line a a' → a.startsWith "return" = a'.startsWith "return"

namespace Likeness

/-- Relates the texts of expressions. -/
def Shows (L : Likeness) (a a' : String) : Prop := L.like .free a a' .word

variable {L : Likeness} {m n e : Mark} {a b a' b' : String}

theorem empty : L.like m "" "" m := L.fixed rfl

/-- A fixed piece at the start. -/
theorem opening (L : Likeness) (a : String) (h : scan .free a.toList = some .free) :
    L.like .free a a .free := L.fixed h

/-- One text behind another. -/
theorem like.append (h : L.like m a a' n) (h' : L.like n b b' e) :
    L.like m (a ++ b) (a' ++ b') e := L.append h h'

/-- A fixed piece behind a text, up to a place where a word may begin. -/
theorem like.put (h : L.like m a a' n) (b : String)
    (h' : scan n b.toList = some .free) : L.like m (a ++ b) (a' ++ b) .free :=
  h.append (L.fixed h')

/-- A fixed piece behind a text that ends with a word. -/
theorem like.putWord (h : L.like m a a' n) (b : String)
    (h' : scan n b.toList = some .word) : L.like m (a ++ b) (a' ++ b) .word :=
  h.append (L.fixed h')

theorem like.shows (h : L.like .free a a' .free) : L.Shows a a' := L.weaken h

/-- A fixed word. -/
theorem Shows.word (L : Likeness) (a : String)
    (h : scan .free a.toList = some .word) : L.Shows a a := L.fixed h

/-- A name of the script. -/
theorem Shows.name {x : String} (h : L.plain x) : L.Shows x x := L.named h nofun

/-- A single line. -/
theorem prints_line (h : L.line a a') : L.prints a a' := L.joined (.cons h .nil)

/-- A statement on one line: something fixed stands at its end. -/
theorem like.ends (h : L.like .free a a' n) (b : String)
    (h' : scan n b.toList = some .free) (some : b ≠ "") :
    L.prints (a ++ b) (a' ++ b) := by
  refine prints_line (L.line_of_like (h.put b h') fun none => some ?_)
  exact (String.append_eq_empty_iff.mp none).2

theorem prints_fixed (L : Likeness) (a : String)
    (h : scan .free a.toList = some .free) (some : a ≠ "") :
    L.prints a a := prints_line (L.line_of_like (L.fixed h) some)

/-! ## Numbers and types -/

theorem shows_numerals {s : String} (numerals : ∀ c ∈ s.toList, Token.isNumeral c) :
    L.Shows s s := by
  rcases scan_numerals numerals with free | word
  · exact L.weaken (L.fixed free)
  · exact L.fixed word

theorem like_nat (ne : m ≠ .word) (n : Nat) : L.like m (toString n) (toString n) .word := by
  have digits : (toString n).toList = Nat.toDigits 10 n := by
    simp
  refine L.fixed (scan_digits ne ?_ ?_)
  · rw [digits]
    exact Nat.toDigits_ne_nil
  · intro c mem
    rw [digits] at mem
    exact Nat.isDigit_of_mem_toDigits (b := 10) (by decide) (by decide) mem

theorem shows_nat (n : Nat) : L.Shows (toString n) (toString n) := like_nat (by decide) n

theorem shows_int (v : Int) : L.Shows (toString v) (toString v) := by
  cases v with
  | ofNat n => exact shows_nat n
  | negSucc n => exact (L.opening "-" rfl).append (shows_nat (n + 1))

theorem shows_typeName (d : Datatype) : L.Shows d.typeName d.typeName := by
  obtain ⟨s, c⟩ := d
  cases s <;> cases c <;> exact .word L _ (by decide)

theorem shows_categoryName (c : Category) : L.Shows c.name c.name := by
  cases c <;> exact .word L _ (by decide)

/-! ## Lists of texts -/

theorem shows_joined {j : String} (separates : scan .word j.toList = some .free)
    {ts ts' : List String} (h : List.Forall₂ L.Shows ts ts') :
    L.Shows (Text.joined j ts) (Text.joined j ts') := by
  induction h with
  | nil => exact L.weaken empty
  | @cons t t' ts ts' first rest ih =>
    cases rest with
    | nil => exact first
    | cons => exact (first.put j separates).append ih

/-- Calls nested to the left. -/
theorem shows_nested {f : String} (opens : scan .free (f ++ "(").toList = some .free)
    {ts ts' : List String} (h : List.Forall₂ L.Shows ts ts') (first : L.Shows a a') :
    L.Shows (ts.foldl (fun acc t => f ++ "(" ++ acc ++ ", " ++ t ++ ")") a)
      (ts'.foldl (fun acc t => f ++ "(" ++ acc ++ ", " ++ t ++ ")") a') := by
  induction h generalizing a a' with
  | nil => exact first
  | @cons t t' ts ts' next rest ih =>
    have called := ((L.opening _ opens).append first).put ", " rfl
    exact ih ((called.append next).put ")" rfl).shows

/-- The finest likeness: being the same text. -/
def same : Likeness where
  like _ a a' _ := a = a'
  line a a' := a = a'
  prints a a' := a = a'
  plain _ := True
  quotable _ := True
  append h h' := congrArg₂ (· ++ ·) h h'
  fixed _ := rfl
  weaken h := h
  named _ _ := rfl
  hidden _ _ := rfl
  elapsed := trivial
  string _ := rfl
  line_of_like h _ := h
  joined h := congrArg _ (List.forall₂_eq_eq_eq ▸ h)
  lines h := by
    subst h
    exact List.forall₂_same.mpr fun _ _ => rfl
  returns h := congrArg (·.startsWith "return") h

end Likeness

/-! ## Patterns -/

namespace Template

/-- The mark behind what a pattern gives, if it has no more than `n` placeholders, all
of them of these keys, and every value may stand in its place. -/
def scan (keys : List (List Char)) : Nat → Mark → List Char → Option Mark
  | 0, m, pattern => if splitAtPair '%' '(' pattern = none then Text.scan m pattern else none
  | n + 1, m, pattern =>
      match splitAtPair '%' '(' pattern with
      | none => Text.scan m pattern
      | some (before, after) =>
          match splitAtPair ')' 's' after with
          | none => none
          | some (key, rest) =>
              if Text.scan m before = some .free ∧ key ∈ keys then scan keys n .word rest else none

theorem scan_literal {keys : List (List Char)} {k : Nat} {m e : Mark} {cs : List Char} {a : String}
    (eq : a = String.ofList cs) (h : scan keys k m cs = some e) : scan keys k m a.toList = some e := by
  rw [eq, String.toList_ofList, h]

/-- Both values of a key are there, and they are alike. -/
def Alike (L : Likeness) (value value' : List Char → Option (List Char)) (key : List Char) : Prop :=
  ∃ v v', value key = some v ∧ value' key = some v' ∧ L.Shows (String.ofList v) (String.ofList v')

theorem like_substitute {L : Likeness} {value value' : List Char → Option (List Char)}
    {keys : List (List Char)} (values : ∀ key ∈ keys, Alike L value value' key) {n : Nat}
    {m e : Mark} {pattern : List Char} (h : scan keys n m pattern = some e) :
    L.like m (String.ofList (substitute value pattern)) (String.ofList (substitute value' pattern))
      e := by
  have plain : ∀ {m : Mark} {cs : List Char}, splitAtPair '%' '(' cs = none →
      Text.scan m cs = some e →
      L.like m (String.ofList (substitute value cs)) (String.ofList (substitute value' cs)) e := by
    intro m cs none scanned
    rw [substitute_plain none, substitute_plain none]
    exact L.fixed (by rwa [String.toList_ofList])
  induction n generalizing m pattern with
  | zero =>
    unfold scan at h
    split at h
    · exact plain ‹_› h
    · cases h
  | succ n ih =>
    unfold scan at h
    split at h
    case h_1 none => exact plain none h
    case h_2 before after opens =>
      split at h
      case h_1 => cases h
      case h_2 key rest closes =>
        split at h
        case isFalse => cases h
        case isTrue fits =>
          obtain ⟨v, v', eq, eq', shows⟩ := values key fits.2
          rw [substitute_step opens closes, substitute_step opens closes, eq, eq',
            Option.getD_some, Option.getD_some]
          simp only [String.ofList_append]
          have front : L.like m (String.ofList before) (String.ofList before) .free :=
            L.fixed (by rw [String.toList_ofList]; exact fits.1)
          exact L.append (L.append front shows) (ih h)

/-- The values of a key at two nodes. -/
def KeyAlike (L : Likeness) (n n' : Node) (ts ts' : List String) (key : List Char) : Prop :=
  ∃ v v', valueOf? n ts key = some v ∧ valueOf? n' ts' key = some v' ∧ L.Shows v v'

/-- A pattern gives texts that are alike where the values of its keys are. -/
theorem like_format {L : Likeness} {n n' : Node} {ts ts' : List String} {keys : List (List Char)}
    (values : ∀ key ∈ keys, KeyAlike L n n' ts ts' key) {k : Nat} {m e : Mark}
    {pattern : String} (h : scan keys k m pattern.toList = some e) :
    L.like m ((format pattern).render n ts) ((format pattern).render n' ts') e := by
  refine like_substitute (fun key mem => ?_) h
  obtain ⟨v, v', eq, eq', shows⟩ := values key mem
  refine ⟨v.toList, v'.toList, ?_, ?_, ?_⟩
  · exact congrArg (Option.map String.toList) eq
  · exact congrArg (Option.map String.toList) eq'
  · rwa [String.ofList_toList, String.ofList_toList]

theorem splitAtPair_append {a b : Char} {front : List Char} (plain : a ∉ front) (rest : List Char) :
    splitAtPair a b (front ++ rest)
      = (splitAtPair a b rest).map fun (before, after) => (front ++ before, after) := by
  induction front with
  | nil => simp
  | cons c front ih =>
    obtain ⟨here, there⟩ := not_or.mp fun mem => plain (List.mem_cons.mpr mem)
    cases more : front ++ rest with
    | nil =>
      obtain ⟨-, rfl⟩ := List.append_eq_nil_iff.mp more
      rw [List.cons_append, more]
      rfl
    | cons d after =>
      have rest := ih there
      rw [more] at rest
      rw [List.cons_append, more, splitAtPair, if_neg fun pair => here pair.1.symm, rest,
        Option.map_map]
      rfl

theorem substitute_append {value : List Char → Option (List Char)} {front rest : List Char}
    (plain : '%' ∉ front) : substitute value (front ++ rest) = front ++ substitute value rest := by
  have split := splitAtPair_append (b := '(') plain rest
  cases opens : splitAtPair '%' '(' rest with
  | none =>
    rw [opens] at split
    rw [substitute_plain split, substitute_plain opens]
  | some halves =>
    obtain ⟨before, after⟩ := halves
    rw [opens] at split
    cases closes : splitAtPair ')' 's' after with
    | none => rw [substitute_open split closes, substitute_open opens closes]
    | some halves =>
      obtain ⟨key, rest⟩ := halves
      rw [substitute_step split closes, substitute_step opens closes]
      simp

/-- What stands in front of the first placeholder stays. -/
theorem render_format_append {front pattern : String} (plain : '%' ∉ front.toList) (n : Node)
    (ts : List String) :
    (format (front ++ pattern)).render n ts = front ++ (format pattern).render n ts := by
  apply String.toList_injective
  simp only [render, String.toList_append, String.toList_ofList, substitute_append plain]

/-- A pattern behind a piece without placeholders. -/
theorem like_format_append {L : Likeness} {n n' : Node} {ts ts' : List String}
    {keys : List (List Char)} (values : ∀ key ∈ keys, KeyAlike L n n' ts ts' key) {k : Nat}
    {m i e : Mark} {front pattern : String} (plain : '%' ∉ front.toList)
    (first : L.like m front front i) (h : scan keys k i pattern.toList = some e) :
    L.like m ((format (front ++ pattern)).render n ts) ((format (front ++ pattern)).render n' ts')
      e := by
  rw [render_format_append plain, render_format_append plain]
  exact L.append first (like_format values h)

end Template

end MatrixScript
