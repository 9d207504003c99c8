/-
# `Proofs.Config.Grammar` — JSON as it is written, and the scanner on it

What JSON is, without a reader: blanks, the spellings of a string (`Json.Spells`), numbers,
and values in any nesting (`Json.Value`), where elements and members are pieces with commas
and blanks between them (`Json.Joined`).  On what is written so the scanner stops exactly
behind the piece that it was to read, whatever stands there.

The scanner is not asked about anything else here: what it does with a text that is no JSON
is another matter.
-/
import Mathlib.Data.List.Basic
import MatrixScript.Json.Scanner
import MatrixScript.Proofs.Text.Slice

namespace MatrixScript

namespace Json

/-! ## Blanks -/

/-- Blanks of JSON, any number of them. -/
def Blank (ws : List Char) : Prop := ∀ c ∈ ws, c = ' ' ∨ c = '\t' ∨ c = '\n' ∨ c = '\r'

/-! ## Strings -/

/-- The digit has this value, in either case. -/
def HexDigit (c : Char) (v : Nat) : Prop :=
  "0123456789abcdef".toList[v]? = some c ∨ "0123456789ABCDEF".toList[v]? = some c

/-- Four hexadecimal digits of a number. -/
def FourDigits (n : Nat) (ds : List Char) : Prop :=
  ∃ a b c d, ds = [a, b, c, d] ∧ HexDigit a (n / 4096) ∧ HexDigit b (n / 256 % 16)
    ∧ HexDigit c (n / 16 % 16) ∧ HexDigit d (n % 16)

theorem FourDigits.length {n : Nat} {ds : List Char} (h : FourDigits n ds) : ds.length = 4 := by
  obtain ⟨a, b, c, d, rfl, -⟩ := h
  rfl

/-- Characters with a short escape, and the letter behind its backslash. -/
def shortEscapes : List (Char × Char) :=
  [('\x22', '\x22'), ('\\', '\\'), ('/', '/'), ('\x08', 'b'), ('\x0c', 'f'), ('\n', 'n'),
    ('\r', 'r'), ('\t', 't')]

/-- The characters can be written so between the quotes of a string: any character may be
escaped, those beyond the first plane by a pair of surrogates, and quotes, backslashes and
control characters have to be. -/
inductive Spells : List Char → List Char → Prop
  | nil : Spells [] []
  | plain {c : Char} {cs text : List Char} : c ≠ '\x22' → c ≠ '\\' → 0x20 ≤ c.toNat →
      Spells cs text → Spells (c :: cs) (c :: text)
  | short {c letter : Char} {cs text : List Char} : (c, letter) ∈ shortEscapes →
      Spells cs text → Spells (c :: cs) ('\\' :: letter :: text)
  | numeric {c : Char} {cs ds text : List Char} : FourDigits c.toNat ds → Spells cs text →
      Spells (c :: cs) ('\\' :: 'u' :: (ds ++ text))
  | pair {c : Char} {cs ds ds' text : List Char} : 0x10000 ≤ c.toNat →
      FourDigits (0xD800 + (c.toNat - 0x10000) / 0x400) ds →
      FourDigits (0xDC00 + (c.toNat - 0x10000) % 0x400) ds' → Spells cs text →
      Spells (c :: cs) ('\\' :: 'u' :: (ds ++ '\\' :: 'u' :: (ds' ++ text)))

theorem Spells.append {cs text cs' text' : List Char} (h : Spells cs text) (h' : Spells cs' text') :
    Spells (cs ++ cs') (text ++ text') := by
  induction h with
  | nil => exact h'
  | plain quote backslash printing _ ih => exact .plain quote backslash printing ih
  | short mem _ ih => exact .short mem ih
  | numeric digits _ ih =>
    simp only [List.cons_append, List.append_assoc]
    exact .numeric digits ih
  | pair far digits digits' _ ih =>
    simp only [List.cons_append, List.append_assoc]
    exact .pair far digits digits' ih

/-- Most texts spell themselves. -/
theorem spells_self {cs : List Char}
    (h : cs.all fun c => c != '\x22' && c != '\\' && decide (0x20 ≤ c.toNat)) : Spells cs cs := by
  induction cs with
  | nil => exact .nil
  | cons c cs ih =>
    simp only [List.all_cons, Bool.and_eq_true, bne_iff_ne, decide_eq_true_eq] at h
    obtain ⟨⟨⟨quote, backslash⟩, printing⟩, later⟩ := h
    exact .plain quote backslash printing (ih later)

/-- Anything that JSON allows between the quotes of a string, halves of pairs included. -/
inductive Quotable : List Char → Prop
  | nil : Quotable []
  | plain {c : Char} {text : List Char} : c ≠ '\x22' → c ≠ '\\' → 0x20 ≤ c.toNat →
      Quotable text → Quotable (c :: text)
  | short {c letter : Char} {text : List Char} : (c, letter) ∈ shortEscapes → Quotable text →
      Quotable ('\\' :: letter :: text)
  | numeric {n : Nat} {ds text : List Char} : FourDigits n ds → Quotable text →
      Quotable ('\\' :: 'u' :: (ds ++ text))

/-- Between quotes. -/
def quote (text : List Char) : List Char := '\x22' :: (text ++ ['\x22'])

/-! ## Numbers -/

/-- At least one digit. -/
def Digits (ds : List Char) : Prop := ds ≠ [] ∧ ∀ d ∈ ds, d.isDigit

/-- Digits before the point: a zero only alone. -/
def Whole (ds : List Char) : Prop := Digits ds ∧ (ds.head? = some '0' → ds = ['0'])

/-- Nothing, or a point with digits. -/
def Places (text : List Char) : Prop := text = [] ∨ ∃ ds, text = '.' :: ds ∧ Digits ds

/-- Nothing, or a letter with digits, which may have a sign. -/
def Exponent (text : List Char) : Prop :=
  text = [] ∨ ∃ e sign ds, text = e :: (sign ++ ds) ∧ e ∈ ['e', 'E']
    ∧ sign ∈ [[], ['+'], ['-']] ∧ Digits ds

/-! ## Values -/

/-- Pieces with commas between them and blanks around them; the flag says that no piece
stands before. -/
inductive Joined : Bool → List (List Char) → List Char → Prop
  | done {first : Bool} {ws : List Char} : Blank ws → Joined first [] ws
  | first {ws piece text : List Char} {pieces : List (List Char)} : Blank ws →
      Joined false pieces text → Joined true (piece :: pieces) (ws ++ (piece ++ text))
  | next {ws ws' piece text : List Char} {pieces : List (List Char)} : Blank ws → Blank ws' →
      Joined false pieces text →
      Joined false (piece :: pieces) (ws ++ ',' :: (ws' ++ (piece ++ text)))

/-- A member of an object: what stands between the quotes of its name, the blanks around its
colon, and its value. -/
structure Member where
  name : List Char
  before : List Char
  after : List Char
  value : List Char

namespace Member

/-- Text of a member. -/
def text (m : Member) : List Char := quote m.name ++ (m.before ++ ':' :: (m.after ++ m.value))

/-- There are only blanks around the colon. -/
def Spaced (m : Member) : Prop := Blank m.before ∧ Blank m.after

end Member

/-- The text of a value. -/
inductive Value : List Char → Prop
  | word {w : String} : w ∈ ["null", "true", "false"] → Value w.toList
  | string {text : List Char} : Quotable text → Value (quote text)
  | number {sign whole places exponent : List Char} : sign ∈ [[], ['-']] → Whole whole →
      Places places → Exponent exponent → Value (sign ++ (whole ++ (places ++ exponent)))
  | array {pieces : List (List Char)} {text : List Char} : Joined true pieces text →
      (∀ piece ∈ pieces, Value piece) → Value ('[' :: (text ++ [']']))
  | object {members : List Member} {text : List Char} :
      Joined true (members.map Member.text) text →
      (∀ m ∈ members, Quotable m.name ∧ m.Spaced) → (∀ m ∈ members, Value m.value) →
      Value ('\x7b' :: (text ++ ['\x7d']))

/-! ## Runs of the scanner -/

namespace Reader

variable {α β : Type} {cs rest ws ws' : List Char}

theorem bind_run {p : Reader α} {f : α → Reader β} {a : α} (h : p cs = .ok (a, rest)) :
    (p >>= f) cs = f a rest := by
  show (p cs).bind (fun r => f r.1 r.2) = _
  rw [h]
  rfl

theorem get_bind_run (f : List Char → Reader β) : (get >>= f) cs = f cs cs := rfl

theorem bind_error {p : Reader α} {f : α → Reader β} {e : DocumentFault} (h : p cs = .error e) :
    (p >>= f) cs = .error e := by
  show (p cs).bind (fun r => f r.1 r.2) = _
  rw [h]
  rfl

/-- The next character is no blank, if there is one. -/
def Solid (cs : List Char) : Prop := ∀ c ∈ cs.head?, isSpace c = false

theorem isSpace_of_blank (h : Blank ws) {c : Char} (mem : c ∈ ws) : isSpace c := by
  rcases h c mem with rfl | rfl | rfl | rfl <;> rfl

theorem ahead?_blank (h : Blank ws) (solid : Solid rest) :
    ahead? (ws ++ rest) = .ok (rest.head?, rest) := by
  have skips : (ws ++ rest).dropWhile isSpace = rest := by
    rw [List.dropWhile_append_of_pos fun c mem => isSpace_of_blank h mem]
    cases rest with
    | nil => rfl
    | cons c rest =>
      exact List.dropWhile_cons_of_neg (by rw [solid c rfl]; exact Bool.false_ne_true)
  show Except.ok (((ws ++ rest).dropWhile isSpace).head?, (ws ++ rest).dropWhile isSpace) = _
  rw [skips]

theorem ahead?_blank_bind {f : Option Char → Reader α} (h : Blank ws) (solid : Solid rest) :
    (ahead? >>= f) (ws ++ rest) = f rest.head? rest := bind_run (ahead?_blank h solid)

/-! ### Strings -/

theorem hexValue?_of_hexDigit {c : Char} {v : Nat} (h : HexDigit c v) : hexValue? c = some v := by
  have lower : ∀ v < 16, ("0123456789abcdef".toList[v]?).bind hexValue? = some v := by decide
  have upper : ∀ v < 16, ("0123456789ABCDEF".toList[v]?).bind hexValue? = some v := by decide
  have short : v < 16 := by
    rcases h with h | h <;> exact (List.getElem?_eq_some_iff.mp h).1
  rcases h with h | h
  · have value := lower v short
    rwa [h] at value
  · have value := upper v short
    rwa [h] at value

theorem hexFour_of_fourDigits {n : Nat} {ds : List Char} (h : FourDigits n ds)
    (rest : List Char) : hexFour (ds ++ rest) = .ok n := by
  obtain ⟨a, b, c, d, rfl, ha, hb, hc, hd⟩ := h
  have enough : ¬ Text.occupied ([a, b, c, d] ++ rest) < 4 := by
    have sizes := And.intro (And.intro a.utf8Size_pos b.utf8Size_pos)
      (And.intro c.utf8Size_pos d.utf8Size_pos)
    rw [Text.occupied_append]
    simp only [Text.occupied]
    omega
  have values : [a, b, c, d].mapM hexValue?
      = some [n / 4096, n / 256 % 16, n / 16 % 16, n % 16] := by
    simp only [List.mapM_cons, List.mapM_nil, hexValue?_of_hexDigit ha, hexValue?_of_hexDigit hb,
      hexValue?_of_hexDigit hc, hexValue?_of_hexDigit hd]
    rfl
  unfold hexFour
  rw [if_neg enough, show ([a, b, c, d] ++ rest).take 4 = [a, b, c, d] from rfl, values]
  refine congrArg Except.ok ?_
  omega

/-- Behind its escapes a string goes on. -/
theorem stringFrom_escape {escape : List Char → Except DocumentFault (Char × Nat)} {c : Char}
    (written : List Char) {text : List Char} (h : escape (written ++ text) = .ok (c, written.length)) :
    stringFrom escape ('\\' :: (written ++ text))
      = (stringFrom escape text).map fun r => (c :: r.1, r.2) := by
  rw [stringFrom, if_neg (by decide), if_pos rfl, h]
  show (stringFrom escape ((written ++ text).drop written.length)).map _ = _
  rw [List.drop_left]

theorem stringFrom_plain (escape : List Char → Except DocumentFault (Char × Nat)) {c : Char}
    {text : List Char} (quote : c ≠ '\x22') (backslash : c ≠ '\\') (printing : 0x20 ≤ c.toNat) :
    stringFrom escape (c :: text) = (stringFrom escape text).map fun r => (c :: r.1, r.2) := by
  rw [stringFrom, if_neg quote, if_neg backslash, if_neg (Nat.not_lt.mpr printing)]

theorem shortEscape?_of_mem {c letter : Char} (h : (c, letter) ∈ shortEscapes) :
    letter ≠ 'u' ∧ shortEscape? letter = some c := by
  have all : ∀ p ∈ shortEscapes, p.2 ≠ 'u' ∧ shortEscape? p.2 = some p.1 := by decide
  exact all _ h

theorem escapeAt_short {c letter : Char} (h : (c, letter) ∈ shortEscapes) (text : List Char) :
    escapeAt ([letter] ++ text) = .ok (c, 1) := by
  obtain ⟨other, found⟩ := shortEscape?_of_mem h
  rw [List.singleton_append, escapeAt, if_neg other, found]

theorem skippedEscapeAt_short {c letter : Char} (h : (c, letter) ∈ shortEscapes) (text : List Char) :
    skippedEscapeAt ([letter] ++ text) = .ok (c, 1) := by
  obtain ⟨other, found⟩ := shortEscape?_of_mem h
  rw [List.singleton_append, skippedEscapeAt, if_neg other, found]

/-- No character is half of a pair. -/
theorem not_surrogate (c : Char) : isTrailing c.toNat = false ∧ isLeading c.toNat = false := by
  have valid : c.toNat < 0xD800 ∨ 0xDFFF < c.toNat ∧ c.toNat < 0x110000 := c.valid
  unfold isTrailing isLeading
  refine ⟨Bool.eq_false_iff.mpr fun both => ?_, Bool.eq_false_iff.mpr fun both => ?_⟩
  all_goals
    obtain ⟨low, high⟩ := (Bool.and_eq_true _ _).mp both
    have low := of_decide_eq_true low
    have high := of_decide_eq_true high
    omega

theorem escapeAt_numeric {c : Char} {ds : List Char} (h : FourDigits c.toNat ds)
    (text : List Char) : escapeAt ('u' :: (ds ++ text)) = .ok (c, ds.length + 1) := by
  obtain ⟨trailing, leading⟩ := not_surrogate c
  have four : numericEscapeAt (ds ++ text) = .ok (c, 4) := by
    unfold numericEscapeAt
    rw [hexFour_of_fourDigits h]
    dsimp only
    rw [trailing, leading, Char.ofNat_toNat]
    rfl
  show (numericEscapeAt (ds ++ text)).map _ = _
  rw [four, h.length]
  rfl

theorem escapeAt_pair {c : Char} {ds ds' : List Char} (far : 0x10000 ≤ c.toNat)
    (h : FourDigits (0xD800 + (c.toNat - 0x10000) / 0x400) ds)
    (h' : FourDigits (0xDC00 + (c.toNat - 0x10000) % 0x400) ds') (text : List Char) :
    escapeAt ('u' :: (ds ++ '\\' :: 'u' :: (ds' ++ text))) = .ok (c, 11) := by
  have valid : c.toNat < 0xD800 ∨ 0xDFFF < c.toNat ∧ c.toNat < 0x110000 := c.valid
  have second : isTrailing (0xD800 + (c.toNat - 0x10000) / 0x400) = false :=
    Bool.eq_false_iff.mpr fun both => by
      have low := of_decide_eq_true ((Bool.and_eq_true _ _).mp both).1
      omega
  have first : isLeading (0xD800 + (c.toNat - 0x10000) / 0x400) := by
    unfold isLeading
    rw [Bool.and_eq_true, decide_eq_true_iff, decide_eq_true_iff]
    omega
  have other : isTrailing (0xDC00 + (c.toNat - 0x10000) % 0x400) := by
    unfold isTrailing
    rw [Bool.and_eq_true, decide_eq_true_iff, decide_eq_true_iff]
    omega
  have value : (0xD800 + (c.toNat - 0x10000) / 0x400 - 0xD800) * 0x400
      + (0xDC00 + (c.toNat - 0x10000) % 0x400 - 0xDC00) + 0x10000 = c.toNat := by omega
  have behind : trailingAt (0xD800 + (c.toNat - 0x10000) / 0x400) ('\\' :: 'u' :: (ds' ++ text))
      = .ok (c, 10) := by
    rw [trailingAt, hexFour_of_fourDigits h']
    dsimp only
    rw [if_pos other, value, Char.ofNat_toNat]
  have both : numericEscapeAt (ds ++ '\\' :: 'u' :: (ds' ++ text)) = .ok (c, 10) := by
    unfold numericEscapeAt
    rw [hexFour_of_fourDigits h]
    dsimp only
    rw [if_neg (Bool.eq_false_iff.mp second), if_pos first,
      show (ds ++ '\\' :: 'u' :: (ds' ++ text)).drop 4 = '\\' :: 'u' :: (ds' ++ text) by
        rw [← h.length, List.drop_left]]
    exact behind
  show (numericEscapeAt (ds ++ '\\' :: 'u' :: (ds' ++ text))).map _ = _
  rw [both]
  rfl

/-- A spelled string is read as what it spells. -/
theorem stringFrom_spells {contents text : List Char} (h : Spells contents text)
    (rest : List Char) : stringFrom escapeAt (text ++ '\x22' :: rest) = .ok (contents, rest) := by
  induction h with
  | nil =>
    show stringFrom escapeAt ('\x22' :: rest) = _
    rw [stringFrom, if_pos rfl]
  | plain quote backslash printing _ ih =>
    rw [List.cons_append, stringFrom_plain _ quote backslash printing, ih]
    rfl
  | @short c letter cs text mem _ ih =>
    have passed := stringFrom_escape _ (escapeAt_short mem (text ++ '\x22' :: rest))
    rw [ih] at passed
    exact passed
  | @numeric c cs ds text digits _ ih =>
    have passed := stringFrom_escape ('u' :: ds)
      (escapeAt_numeric digits (text ++ '\x22' :: rest))
    rw [ih] at passed
    rw [List.cons_append, List.cons_append, List.append_assoc]
    exact passed
  | @pair c cs ds ds' text far digits digits' _ ih =>
    let written := 'u' :: (ds ++ '\\' :: 'u' :: ds')
    have found : escapeAt (written ++ (text ++ '\x22' :: rest)) = .ok (c, written.length) := by
      have found := escapeAt_pair far digits digits' (text ++ '\x22' :: rest)
      simpa [written, digits.length, digits'.length] using found
    have passed := stringFrom_escape written found
    rw [ih] at passed
    simp only [written, List.cons_append, List.append_assoc] at passed ⊢
    exact passed

/-- A string that nobody wants is passed. -/
theorem stringFrom_quotable {text : List Char} (h : Quotable text) (rest : List Char) :
    ∃ contents, stringFrom skippedEscapeAt (text ++ '\x22' :: rest) = .ok (contents, rest) := by
  induction h with
  | nil =>
    refine ⟨[], ?_⟩
    show stringFrom skippedEscapeAt ('\x22' :: rest) = _
    rw [stringFrom, if_pos rfl]
  | @plain c text quote backslash printing _ ih =>
    obtain ⟨contents, run⟩ := ih
    refine ⟨c :: contents, ?_⟩
    rw [List.cons_append, stringFrom_plain _ quote backslash printing, run]
    rfl
  | @short c letter text mem _ ih =>
    obtain ⟨contents, run⟩ := ih
    have passed := stringFrom_escape _ (skippedEscapeAt_short mem (text ++ '\x22' :: rest))
    rw [run] at passed
    exact ⟨_, passed⟩
  | @numeric n ds text digits _ ih =>
    obtain ⟨contents, run⟩ := ih
    have escape : skippedEscapeAt (('u' :: ds) ++ (text ++ '\x22' :: rest))
        = .ok ('u', ('u' :: ds).length) := by
      show (hexFour (ds ++ (text ++ '\x22' :: rest))).map _ = _
      rw [hexFour_of_fourDigits digits, List.length_cons, digits.length]
      rfl
    have passed := stringFrom_escape _ escape
    rw [run] at passed
    refine ⟨'u' :: contents, ?_⟩
    rw [List.cons_append, List.cons_append, List.append_assoc]
    exact passed

theorem string_quote {contents text : List Char} (h : Spells contents text) (rest : List Char) :
    string (quote text ++ rest) = .ok (String.ofList contents, rest) := by
  have run := stringFrom_spells h rest
  unfold string quote
  rw [List.cons_append, List.drop_one, List.tail_cons, List.append_assoc]
  show (stringFrom escapeAt (text ++ '\x22' :: rest)).map _ = _
  rw [run]
  rfl

theorem skipString_quote {text : List Char} (h : Quotable text) (rest : List Char) :
    skipString (quote text ++ rest) = .ok (⟨⟩, rest) := by
  obtain ⟨contents, run⟩ := stringFrom_quotable h rest
  unfold skipString quote
  rw [List.cons_append, List.drop_one, List.tail_cons, List.append_assoc]
  show (stringFrom skippedEscapeAt (text ++ '\x22' :: rest)).map _ = _
  rw [run]
  rfl

/-! ### Numbers -/

/-- A number does not go on. -/
def Apart (rest : List Char) : Prop := ∀ c ∈ rest.head?, c.isDigit = false ∧ c ∉ ['.', 'e', 'E']

/-- No digit is ahead. -/
def Digitless (rest : List Char) : Prop := ∀ c ∈ rest.head?, c.isDigit = false

theorem Apart.digitless (h : Apart rest) : Digitless rest := fun c here => (h c here).1

theorem digits_run {ds : List Char} (h : ∀ d ∈ ds, d.isDigit)
    (apart : Digitless rest) : digits (ds ++ rest) = .ok (ds, rest) := by
  have stops : rest.takeWhile Char.isDigit = [] ∧ rest.dropWhile Char.isDigit = rest := by
    cases rest with
    | nil => exact ⟨rfl, rfl⟩
    | cons c rest =>
      have other : ¬ c.isDigit := by
        rw [apart c rfl]
        exact Bool.false_ne_true
      exact ⟨List.takeWhile_cons_of_neg other, List.dropWhile_cons_of_neg other⟩
  show Except.ok ((ds ++ rest).takeWhile Char.isDigit, (ds ++ rest).dropWhile Char.isDigit) = _
  rw [List.takeWhile_append_of_pos h, List.dropWhile_append_of_pos h, stops.1, stops.2,
    List.append_nil]

theorem someDigits_run (ending : DocumentFault) {ds : List Char} (h : Digits ds)
    (apart : Digitless rest) :
    someDigits ending (ds ++ rest) = .ok (ds, rest) := by
  have some : ds.isEmpty = false := by
    rw [List.isEmpty_eq_false_iff]
    exact h.1
  have some' : (ds ++ rest).isEmpty = false := by
    rw [List.isEmpty_eq_false_iff]
    exact List.append_ne_nil_of_left_ne_nil h.1 rest
  show (if (ds ++ rest).isEmpty then fault ending else
    (do let ds ← digits; if ds.isEmpty then fault .malformed else return ds : Reader (List Char)))
    (ds ++ rest) = _
  rw [if_neg (Bool.eq_false_iff.mp some'), bind_run (digits_run h.2 apart),
    if_neg (Bool.eq_false_iff.mp some)]
  rfl

theorem wholeDigits_run (ending : DocumentFault) {ds : List Char} (h : Whole ds)
    (apart : Digitless rest) :
    wholeDigits ending (ds ++ rest) = .ok (ds, rest) := by
  have fine : (ds.head? == some '0' && decide (1 < ds.length)) = false := by
    refine Bool.eq_false_iff.mpr fun both => ?_
    obtain ⟨zero, long⟩ := (Bool.and_eq_true _ _).mp both
    rw [h.2 (beq_iff_eq.mp zero)] at long
    exact absurd long (by decide)
  rw [wholeDigits, bind_run (someDigits_run ending h.1 apart), if_neg (Bool.eq_false_iff.mp fine)]
  rfl

theorem digitless_places {text : List Char} (h : Places text) (apart : Digitless rest) :
    Digitless (text ++ rest) := by
  rcases h with rfl | ⟨ds, rfl, -⟩
  · exact apart
  · rintro c ⟨⟩
    rfl

theorem digitless_exponent {text : List Char} (h : Exponent text) (apart : Apart rest) :
    Digitless (text ++ rest) ∧ (text ++ rest).head? ≠ some '.' := by
  rcases h with rfl | ⟨e, sign, ds, rfl, letter, -, -⟩
  · exact ⟨apart.digitless, fun dot => (apart '.' dot).2 (by decide)⟩
  · rcases List.mem_pair.mp letter with rfl | rfl
    all_goals exact ⟨by rintro c ⟨⟩; rfl, by rintro ⟨⟩⟩

theorem placeDigits_run (ending : DocumentFault) {text : List Char} (h : Places text)
    (apart : Digitless rest) (other : rest.head? ≠ some '.') :
    ∃ ds, placeDigits ending (text ++ rest) = .ok (ds, rest) := by
  rcases h with rfl | ⟨ds, rfl, digits⟩
  · refine ⟨[], ?_⟩
    rw [List.nil_append, placeDigits, get_bind_run]
    generalize rest.head? = ahead at other
    split
    case h_1 => exact absurd rfl other
    case h_2 => rfl
  · exact ⟨ds, someDigits_run ending digits apart⟩

theorem exponentSign_run {sign : List Char} (h : sign ∈ [[], ['+'], ['-']])
    (digit : ∀ c ∈ rest.head?, c.isDigit) : ∃ b, exponentSign (sign ++ rest) = .ok (b, rest) := by
  simp only [List.mem_cons, List.not_mem_nil, or_false] at h
  rcases h with rfl | rfl | rfl
  · refine ⟨false, ?_⟩
    rw [List.nil_append, exponentSign, get_bind_run]
    generalize rest.head? = ahead at digit
    split
    case h_1 => exact absurd (digit '+' rfl) (by decide)
    case h_2 => exact absurd (digit '-' rfl) (by decide)
    case h_3 => rfl
  · exact ⟨false, rfl⟩
  · exact ⟨true, rfl⟩

/-- What stands behind the letter of an exponent. -/
def exponentDigits (ending : DocumentFault) : Reader Int := do
  let negative ← exponentSign
  let size : Int := Text.digitsValue (← someDigits ending)
  return if negative then -size else size

theorem exponentDigits_run (ending : DocumentFault) {sign ds : List Char}
    (signs : sign ∈ [[], ['+'], ['-']]) (h : Digits ds) (apart : Digitless rest) :
    ∃ n, exponentDigits ending (sign ++ (ds ++ rest)) = .ok (n, rest) := by
  have digit : ∀ c ∈ (ds ++ rest).head?, c.isDigit := by
    obtain ⟨d, ds, rfl⟩ := List.exists_cons_of_ne_nil h.1
    rintro c ⟨⟩
    exact h.2 d List.mem_cons_self
  obtain ⟨negative, run⟩ := exponentSign_run signs digit
  refine ⟨if negative then -(Text.digitsValue ds : Int) else Text.digitsValue ds, ?_⟩
  rw [exponentDigits, bind_run run, bind_run (someDigits_run ending h apart)]
  rfl

theorem exponent_run (ending : DocumentFault) {text : List Char} (h : Exponent text)
    (apart : Apart rest) : ∃ n, exponent ending (text ++ rest) = .ok (n, rest) := by
  rcases h with rfl | ⟨e, sign, ds, rfl, letter, signs, digits⟩
  · refine ⟨0, ?_⟩
    rw [List.nil_append, exponent, get_bind_run]
    unfold Apart at apart
    generalize rest.head? = ahead at apart
    split
    case h_1 => exact absurd (by decide) (apart 'e' rfl).2
    case h_2 => exact absurd (by decide) (apart 'E' rfl).2
    case h_3 => rfl
  · obtain ⟨n, run⟩ := exponentDigits_run ending signs digits apart.digitless
    rw [← List.append_assoc] at run
    refine ⟨n, ?_⟩
    rcases List.mem_pair.mp letter with rfl | rfl
    all_goals exact run

theorem skipNumber_run {whole places exponent : List Char} (h : Whole whole) (h' : Places places)
    (h'' : Exponent exponent) (apart : Apart rest) :
    skipNumber (whole ++ (places ++ (exponent ++ rest))) = .ok (⟨⟩, rest) := by
  obtain ⟨digitless, other⟩ := digitless_exponent h'' apart
  obtain ⟨ds, run⟩ := placeDigits_run .malformed h' digitless other
  obtain ⟨n, run'⟩ := exponent_run .malformed h'' apart
  rw [skipNumber, bind_run (wholeDigits_run .malformed h (digitless_places h' digitless)),
    bind_run run, bind_run run']
  rfl

/-! ### Between pieces -/

theorem solid_cons {c : Char} (h : isSpace c = false) (rest : List Char) : Solid (c :: rest) := by
  rintro d ⟨⟩
  exact h

theorem closing_run {bracket : Char} (solid : isSpace bracket = false) (h : Blank ws) :
    closing bracket (ws ++ bracket :: rest) = .ok (⟨⟩, rest) := by
  rw [closing, ahead?_blank_bind h (solid_cons solid rest)]
  show (if bracket = bracket then pass 1 else fault .malformed : Reader PUnit) _ = _
  rw [if_pos rfl]
  rfl

theorem colon_run (h : Blank ws) : colon (ws ++ ':' :: rest) = .ok (⟨⟩, rest) := by
  rw [colon, ahead?_blank_bind h (solid_cons rfl rest)]
  rfl

/-- Behind a piece stands a comma, or the pieces end. -/
theorem apart_of_joined {pieces : List (List Char)} {text : List Char} (h : Joined false pieces text)
    {bracket : Char} (closes : bracket ∈ [']', '\x7d']) : Apart (text ++ bracket :: rest) := by
  have blank : ∀ (ws : List Char) (c : Char) (more : List Char), Blank ws →
      c ∈ [',', ']', '\x7d'] → Apart (ws ++ c :: more) := by
    rintro (_ | ⟨d, ws⟩) c more h mem e ⟨⟩
    · simp only [List.mem_cons, List.not_mem_nil, or_false] at mem
      rcases mem with rfl | rfl | rfl <;> decide
    · rcases h d List.mem_cons_self with rfl | rfl | rfl | rfl <;> decide
  cases h with
  | done h => exact blank _ bracket rest h (List.mem_cons_of_mem _ closes)
  | next h _ _ =>
    rw [List.append_assoc]
    exact blank _ ',' _ h List.mem_cons_self

/-- Something is ahead that is neither a blank nor the end of an array. -/
def Opens (cs : List Char) : Prop := ∃ c rest, cs = c :: rest ∧ isSpace c = false ∧ c ≠ ']'

theorem Opens.solid (h : Opens cs) : Solid cs := by
  obtain ⟨c, rest, rfl, solid, -⟩ := h
  exact solid_cons solid rest

theorem Opens.append (h : Opens cs) (more : List Char) : Opens (cs ++ more) := by
  obtain ⟨c, rest, rfl, solid, other⟩ := h
  exact ⟨c, rest ++ more, rfl, solid, other⟩

theorem nextElement_done (first : Bool) (h : Blank ws) :
    nextElement first (ws ++ ']' :: rest) = .ok (false, ']' :: rest) := by
  rw [nextElement, ahead?_blank_bind h (solid_cons rfl rest)]
  rfl

theorem nextElement_first (h : Blank ws) (opens : Opens rest) :
    nextElement true (ws ++ rest) = .ok (true, rest) := by
  rw [nextElement, ahead?_blank_bind h opens.solid]
  obtain ⟨c, rest, rfl, -, other⟩ := opens
  refine congrFun (g := (pure true : Reader Bool)) ?_ (c :: rest)
  rw [List.head?_cons]
  split
  case h_1 none => cases none
  case h_2 same => exact absurd (Option.some.inj same) other
  case h_3 => rfl

/-- Behind a comma another element has to stand. -/
def elementBehind : Reader Bool := do
  match ← ahead? with
  | none => fault .truncated
  | some ']' => fault .malformed
  | some _ => return true

theorem nextElement_next (h : Blank ws) (h' : Blank ws') (opens : Opens rest) :
    nextElement false (ws ++ ',' :: (ws' ++ rest)) = .ok (true, rest) := by
  rw [nextElement, ahead?_blank_bind h (solid_cons rfl _)]
  show elementBehind (ws' ++ rest) = _
  rw [elementBehind, ahead?_blank_bind h' opens.solid]
  obtain ⟨c, rest, rfl, -, other⟩ := opens
  refine congrFun (g := (pure true : Reader Bool)) ?_ (c :: rest)
  rw [List.head?_cons]
  split
  case h_1 none => cases none
  case h_2 same => exact absurd (Option.some.inj same) other
  case h_3 => rfl

theorem opens_quote (text : List Char) : Opens (quote text) := ⟨_, _, rfl, rfl, by decide⟩

theorem solid_quote (text rest : List Char) : Solid (quote text ++ rest) :=
  ((opens_quote text).append rest).solid

theorem nextMember_done (first : Bool) (h : Blank ws) :
    nextMember first (ws ++ '\x7d' :: rest) = .ok (false, '\x7d' :: rest) := by
  rw [nextMember, ahead?_blank_bind h (solid_cons rfl rest)]
  rfl

theorem nextMember_first (h : Blank ws) (text : List Char) :
    nextMember true (ws ++ (quote text ++ rest)) = .ok (true, quote text ++ rest) := by
  rw [nextMember, ahead?_blank_bind h (solid_quote text rest)]
  rfl

/-- Behind a comma another name has to stand. -/
def memberBehind : Reader Bool := do
  match ← ahead? with
  | none => fault .truncated
  | some '\x22' => return true
  | some _ => fault .malformed

theorem nextMember_next (h : Blank ws) (h' : Blank ws') (text : List Char) :
    nextMember false (ws ++ ',' :: (ws' ++ (quote text ++ rest))) = .ok (true, quote text ++ rest) := by
  rw [nextMember, ahead?_blank_bind h (solid_cons rfl _)]
  show memberBehind (ws' ++ (quote text ++ rest)) = _
  rw [memberBehind, ahead?_blank_bind h' (solid_quote text rest)]
  rfl

/-! ### Values that nobody wants -/

/-- The value is passed with any bound that is not below its length. -/
structure Passed (v : List Char) : Prop where
  opens : Opens v
  run : ∀ ws n rest, Blank ws → v.length ≤ n + 1 → Apart rest →
    skipValueWithin (n + 1) (ws ++ (v ++ rest)) = .ok (⟨⟩, rest)

theorem opens_word {w : String} (h : w ∈ ["null", "true", "false"]) : Opens w.toList := by
  simp only [List.mem_cons, List.not_mem_nil, or_false] at h
  rcases h with rfl | rfl | rfl <;> exact ⟨_, _, rfl, rfl, by decide⟩

theorem passed_word {w : String} (h : w ∈ ["null", "true", "false"]) : Passed w.toList := by
  refine ⟨opens_word h, fun ws n rest blank _ _ => ?_⟩
  rw [skipValueWithin, ahead?_blank_bind blank ((opens_word h).append rest).solid]
  simp only [List.mem_cons, List.not_mem_nil, or_false] at h
  rcases h with rfl | rfl | rfl <;> rfl

theorem passed_string {text : List Char} (h : Quotable text) : Passed (quote text) := by
  refine ⟨opens_quote text, fun ws n rest blank _ _ => ?_⟩
  rw [skipValueWithin, ahead?_blank_bind blank (solid_quote text rest)]
  exact skipString_quote h rest

theorem opens_digit {d : Char} (h : d.isDigit) (rest : List Char) : Opens (d :: rest) := by
  have other : ∀ c : Char, c.isDigit = false → d ≠ c := by
    rintro c no rfl
    rw [no] at h
    cases h
  refine ⟨d, rest, rfl, ?_, other ']' rfl⟩
  unfold isSpace
  rw [beq_eq_false_iff_ne.mpr (other ' ' rfl), beq_eq_false_iff_ne.mpr (other '\t' rfl),
    beq_eq_false_iff_ne.mpr (other '\n' rfl), beq_eq_false_iff_ne.mpr (other '\r' rfl)]
  rfl

theorem passed_number {sign whole places exponent : List Char} (signs : sign ∈ [[], ['-']])
    (h : Whole whole) (h' : Places places) (h'' : Exponent exponent) :
    Passed (sign ++ (whole ++ (places ++ exponent))) := by
  have run : ∀ {rest}, Apart rest →
      skipNumber (whole ++ (places ++ exponent) ++ rest) = .ok (⟨⟩, rest) := by
    intro rest apart
    rw [List.append_assoc, List.append_assoc]
    exact skipNumber_run h h' h'' apart
  rcases List.mem_pair.mp signs with rfl | rfl
  · obtain ⟨d, ds, rfl⟩ := List.exists_cons_of_ne_nil h.1.1
    have digit : d.isDigit := h.1.2 d List.mem_cons_self
    have opens := opens_digit digit (ds ++ (places ++ exponent))
    refine ⟨opens, fun ws n rest blank _ apart => ?_⟩
    rw [← run apart, List.nil_append, skipValueWithin, List.cons_append, List.cons_append,
      ahead?_blank_bind blank (opens_digit digit _).solid]
    refine congrFun (g := skipNumber) ?_ (d :: ds ++ (places ++ exponent) ++ rest)
    rw [List.head?_cons]
    split
    case h_9 same =>
      rw [← Option.some.inj same, if_pos digit]
    case h_1 none => cases none
    all_goals
      rename_i same
      rw [Option.some.inj same] at digit
      cases digit
  · have opens : Opens (['-'] ++ (whole ++ (places ++ exponent))) := ⟨_, _, rfl, rfl, by decide⟩
    refine ⟨opens, fun ws n rest blank _ apart => ?_⟩
    rw [skipValueWithin, ahead?_blank_bind blank (opens.append rest).solid]
    exact run apart

theorem blank_nil : Blank [] := fun _ mem => absurd mem List.not_mem_nil

theorem closing_here {bracket : Char} (solid : isSpace bracket = false) (rest : List Char) :
    closing bracket (bracket :: rest) = .ok (⟨⟩, rest) := closing_run solid blank_nil

theorem Passed.length_pos {v : List Char} (h : Passed v) : 0 < v.length := by
  obtain ⟨c, more, rfl, -⟩ := h.opens
  exact Nat.succ_pos _

/-- An element and what stands behind it. -/
theorem exists_of_element {first : Bool} {piece text : List Char} {pieces : List (List Char)}
    (h : Joined first (piece :: pieces) text) (opens : Opens piece) :
    ∃ more, Joined false pieces more ∧ piece.length + more.length ≤ text.length
      ∧ ∀ rest, nextElement first (text ++ rest) = .ok (true, piece ++ (more ++ rest)) := by
  cases h with
  | @first ws _ more _ blank joined =>
    refine ⟨more, joined, ?_, fun rest => ?_⟩
    · simp only [List.length_append]
      omega
    · rw [List.append_assoc, List.append_assoc]
      exact nextElement_first blank (opens.append _)
  | @next ws ws' _ more _ blank blank' joined =>
    refine ⟨more, joined, ?_, fun rest => ?_⟩
    · simp only [List.length_append, List.length_cons]
      omega
    · rw [List.append_assoc, List.cons_append, List.append_assoc, List.append_assoc]
      exact nextElement_next blank blank' (opens.append _)

/-- A member and what stands behind it. -/
theorem exists_of_member {first : Bool} {m : Member} {text : List Char} {pieces : List (List Char)}
    (h : Joined first (m.text :: pieces) text) :
    ∃ more, Joined false pieces more ∧ m.text.length + more.length ≤ text.length
      ∧ ∀ rest, nextMember first (text ++ rest) = .ok (true, m.text ++ (more ++ rest)) := by
  cases h with
  | @first ws _ more _ blank joined =>
    refine ⟨more, joined, ?_, fun rest => ?_⟩
    · simp only [List.length_append]
      omega
    · rw [List.append_assoc, Member.text, List.append_assoc, List.append_assoc]
      exact nextMember_first blank _
  | @next ws ws' _ more _ blank blank' joined =>
    refine ⟨more, joined, ?_, fun rest => ?_⟩
    · simp only [List.length_append, List.length_cons]
      omega
    · rw [List.append_assoc, List.cons_append, Member.text, List.append_assoc, List.append_assoc,
        List.append_assoc]
      exact nextMember_next blank blank' _

theorem blank_of_joined {first : Bool} {text : List Char} (h : Joined first [] text) : Blank text := by
  cases h with
  | done blank => exact blank

/-- All elements up to the end of their array. -/
theorem skipElements_run : ∀ {pieces : List (List Char)} {first : Bool} {text : List Char} {n : Nat},
    Joined first pieces text → (∀ piece ∈ pieces, Passed piece) → text.length ≤ n → ∀ rest,
      skipElements (n + 1) first (text ++ ']' :: rest) = .ok (⟨⟩, rest)
  | [], first, text, n, h, _, _, rest => by
    rw [skipElements, bind_run (nextElement_done first (blank_of_joined h))]
    exact closing_here rfl rest
  | piece :: pieces, first, text, n, h, passed, le, rest => by
    have here := passed piece List.mem_cons_self
    have some := here.length_pos
    obtain ⟨more, joined, short, next⟩ := exists_of_element h here.opens
    obtain ⟨n, rfl⟩ : ∃ k, n = k + 1 := ⟨n - 1, by omega⟩
    have value := here.run [] n (more ++ ']' :: rest) blank_nil (by omega)
      (apart_of_joined joined List.mem_cons_self)
    rw [List.nil_append] at value
    rw [skipElements, bind_run (next _), if_pos rfl, bind_run value]
    exact skipElements_run joined (fun p mem => passed p (List.mem_cons_of_mem _ mem)) (by omega) rest

theorem passed_array {pieces : List (List Char)} {text : List Char} (h : Joined true pieces text)
    (passed : ∀ piece ∈ pieces, Passed piece) : Passed ('[' :: (text ++ [']'])) := by
  have opens : Opens ('[' :: (text ++ [']'])) := ⟨_, _, rfl, rfl, by decide⟩
  refine ⟨opens, fun ws n rest blank le _ => ?_⟩
  simp only [List.length_cons, List.length_append, List.length_nil] at le
  obtain ⟨n, rfl⟩ : ∃ k, n = k + 1 := ⟨n - 1, by omega⟩
  rw [skipValueWithin, ahead?_blank_bind blank (opens.append rest).solid]
  show skipElements (n + 1) true (text ++ [']'] ++ rest) = _
  rw [List.append_assoc]
  exact skipElements_run h passed (by omega) rest

theorem length_text (m : Member) : m.value.length + 3 ≤ m.text.length := by
  simp only [Member.text, quote, List.length_append, List.length_cons, List.length_nil]
  omega

/-- A member in front of others is its name, the colon and the value. -/
theorem text_append (m : Member) (rest : List Char) : m.text ++ rest
    = quote m.name ++ (m.before ++ ':' :: (m.after ++ (m.value ++ rest))) := by
  simp only [Member.text, List.append_assoc, List.cons_append]

/-- All members up to the end of their object. -/
theorem skipMembers_run : ∀ {members : List Member} {first : Bool} {text : List Char} {n : Nat},
    Joined first (members.map Member.text) text →
    (∀ m ∈ members, Quotable m.name ∧ m.Spaced ∧ Passed m.value) → text.length ≤ n → ∀ rest,
      skipMembers (n + 1) first (text ++ '\x7d' :: rest) = .ok (⟨⟩, rest)
  | [], first, text, n, h, _, _, rest => by
    rw [skipMembers, bind_run (nextMember_done first (blank_of_joined h))]
    exact closing_here rfl rest
  | m :: members, first, text, n, h, passed, le, rest => by
    obtain ⟨quotable, ⟨before, after⟩, value⟩ := passed m List.mem_cons_self
    have long := length_text m
    obtain ⟨more, joined, short, next⟩ := exists_of_member h
    obtain ⟨n, rfl⟩ : ∃ k, n = k + 1 := ⟨n - 1, by omega⟩
    have run := value.run m.after n (more ++ '\x7d' :: rest) after (by omega)
      (apart_of_joined joined (List.mem_cons_of_mem _ List.mem_cons_self))
    rw [skipMembers, bind_run (next _), if_pos rfl, text_append,
      bind_run (skipString_quote quotable _), bind_run (colon_run before), bind_run run]
    exact skipMembers_run joined (fun m mem => passed m (List.mem_cons_of_mem _ mem)) (by omega) rest

theorem passed_object {members : List Member} {text : List Char}
    (h : Joined true (members.map Member.text) text)
    (passed : ∀ m ∈ members, Quotable m.name ∧ m.Spaced ∧ Passed m.value) :
    Passed ('\x7b' :: (text ++ ['\x7d'])) := by
  have opens : Opens ('\x7b' :: (text ++ ['\x7d'])) := ⟨_, _, rfl, rfl, by decide⟩
  refine ⟨opens, fun ws n rest blank le _ => ?_⟩
  simp only [List.length_cons, List.length_append, List.length_nil] at le
  obtain ⟨n, rfl⟩ : ∃ k, n = k + 1 := ⟨n - 1, by omega⟩
  rw [skipValueWithin, ahead?_blank_bind blank (opens.append rest).solid]
  show skipMembers (n + 1) true (text ++ ['\x7d'] ++ rest) = _
  rw [List.append_assoc]
  exact skipMembers_run h passed (by omega) rest

/-- Every value can be passed. -/
theorem passed_value {v : List Char} (h : Value v) : Passed v := by
  induction h with
  | word mem => exact passed_word mem
  | string quotable => exact passed_string quotable
  | number signs whole places exponent => exact passed_number signs whole places exponent
  | array joined _ ih => exact passed_array joined ih
  | object joined names _ ih =>
    exact passed_object joined fun m mem => ⟨(names m mem).1, (names m mem).2, ih m mem⟩

/-- A value that nobody wants is passed, and nothing behind it. -/
theorem skipValue_run {v : List Char} (h : Value v) (blank : Blank ws) (apart : Apart rest) :
    skipValue (ws ++ (v ++ rest)) = .ok (⟨⟩, rest) := by
  show skipValueWithin (2 * (ws ++ (v ++ rest)).length + 2) _ = _
  refine (passed_value h).run ws _ rest blank ?_ apart
  simp only [List.length_append]
  omega

end Reader

end Json

end MatrixScript
