/-
# `Proofs.Cpp.Phrase` — the pieces that emitted texts are put together from

A text of the target language is made of fixed pieces, names, string literals, names of
temporaries and names of helpers.  A `Piece` leads from one place of a line to another:
a place knows which closing delimiters are still to come and what word stands right
before it (`Place`).  A `Phrase` is a text that opens and closes its own delimiters, so
it can stand wherever no word stands (`Phrase.within`).

What the start of the names of temporaries looks like is left open here: everything
said of it is a hypothesis of the readings that follow (`Piece.balanced`,
`Piece.lists`, `Piece.isLine`, `Piece.single`).
-/
import MatrixScript.Proofs.Cpp.Surface
import MatrixScript.Proofs.Text.Lines

namespace MatrixScript.Cpp

/-! ## Places -/

/-- What texts may mention. -/
structure Idiom where
  /-- start of the names of temporaries -/
  stem : String
  /-- helpers in use -/
  used : List Include

/-- What stands right before a place. -/
inductive Before where
  /-- no word -/
  | apart
  /-- a word with these letters, last one first -/
  | word (back : List Char)
  /-- possibly a word -/
  | unknown
deriving DecidableEq

/-- A place in a line. -/
structure Place where
  /-- closing delimiters that are to come, innermost first -/
  closers : List Char
  before : Before
deriving DecidableEq

/-- Letters of what a helper's name begins with, last one first. -/
def scopeBack : List Char := ['p', 'p', 'c', '2', 'm']

namespace Before

/-- Behind it a colon does not begin the scope of helpers. -/
def colon : Before → Bool
  | apart => true
  | word back => !scopeBack.isPrefixOf back
  | unknown => false

/-- Behind it a word begins or goes on with a letter that is known. -/
def letter (c : Char) : Before → Option Before
  | apart => some (word [c])
  | word back => some (word (c :: back))
  | unknown => none

end Before

namespace Place

/-- Reads a character of a fixed piece.  No fixed piece has quotes or line ends, or
names a helper; a comma that stands between no delimiters separates the items of a list. -/
def step (list : Bool) (p : Place) (c : Char) : Option Place :=
  if Token.isWordRest c then (p.before.letter c).map (⟨p.closers, ·⟩)
  else if c = '\x22' ∨ c = '\n' ∨ c = '\r' then none
  else if c = ':' ∧ p.before.colon = false then none
  else if c = ',' ∧ p.closers = [] ∧ list = false then none
  else (delimit p.closers c).map (⟨·, .apart⟩)

/-- Reads the characters of a fixed piece. -/
def read (list : Bool) (p : Place) : List Char → Option Place
  | [] => some p
  | c :: cs => (p.step list c).bind fun p => p.read list cs

variable {list list' : Bool} {p q : Place} {outer : List Char}

/-- Delimiters around a place do not matter to what is read there, but they allow commas. -/
theorem step_frame (fits : list = true → list' = true ∨ outer ≠ []) {c : Char}
    (h : p.step list c = some q) :
    Place.step list' ⟨p.closers ++ outer, p.before⟩ c = some ⟨q.closers ++ outer, q.before⟩ := by
  unfold step at h ⊢
  dsimp only
  split at h
  case isTrue word =>
    obtain ⟨before, eq, rfl⟩ := Option.map_eq_some_iff.mp h
    rw [if_pos word, eq]
    rfl
  case isFalse word =>
    rw [if_neg word]
    split at h
    · cases h
    case isFalse ends =>
      rw [if_neg ends]
      split at h
      · cases h
      case isFalse colon =>
        rw [if_neg colon]
        split at h
        · cases h
        case isFalse comma =>
          obtain ⟨closers, eq, rfl⟩ := Option.map_eq_some_iff.mp h
          rw [if_neg, delimit_frame eq outer]
          · rfl
          · rintro ⟨here, none, alone⟩
            obtain ⟨inner, rfl⟩ := List.append_eq_nil_iff.mp none
            cases list with
            | false => exact comma ⟨here, inner, rfl⟩
            | true =>
              rcases fits rfl with many | some
              · rw [many] at alone
                cases alone
              · exact some rfl

theorem read_frame (fits : list = true → list' = true ∨ outer ≠ []) {cs : List Char}
    (h : p.read list cs = some q) :
    Place.read list' ⟨p.closers ++ outer, p.before⟩ cs = some ⟨q.closers ++ outer, q.before⟩ := by
  induction cs generalizing p with
  | nil =>
    cases h
    rfl
  | cons c cs ih =>
    obtain ⟨r, first, rest⟩ := Option.bind_eq_some_iff.mp h
    rw [read, step_frame fits first]
    exact ih rest

end Place

/-! ## Pieces -/

/-- A text that leads from one place to another.  Where `list` is true it may be the items
of a list, with commas that stand between no delimiters. -/
inductive Piece (I : Idiom) (list : Bool) : Place → String → Place → Prop
  | fixed {p q : Place} {a : String} : p.read list a.toList = some q → Piece I list p a q
  | name {p : Place} {a : String} : (∀ c ∈ a.toList, Token.isWordRest c) →
      Piece I list p a ⟨p.closers, .unknown⟩
  | literal {p : Place} {cs : List Char} : '\n' ∉ cs →
      Piece I list p (Text.quoted cs) ⟨p.closers, .apart⟩
  /-- a helper, and what opens its arguments -/
  | helper {closers closers' : List Char} {i : Include} {c : Char} : i ∈ I.used → i ≠ .math →
      c = '(' ∨ c = '<' → delimit closers c = some closers' →
      Piece I list ⟨closers, .apart⟩ (i.helper ++ String.ofList [c]) ⟨closers', .apart⟩
  | temporary {closers : List Char} {suffix : String} : suffix ≠ "" →
      (∀ c ∈ suffix.toList, Token.isWordRest c) →
      Piece I list ⟨closers, .apart⟩ (I.stem ++ suffix) ⟨closers, .unknown⟩
  | loosen {p q : Place} {a : String} : Piece I list p a q → Piece I list p a ⟨q.closers, .unknown⟩
  | append {p q r : Place} {a b : String} : Piece I list p a q → Piece I list q b r →
      Piece I list p (a ++ b) r

/-- A text that opens what it closes and closes what it opens. -/
def Phrase (I : Idiom) (list : Bool) (a : String) : Prop :=
  Piece I list ⟨[], .apart⟩ a ⟨[], .unknown⟩

section

variable {I : Idiom} {list list' : Bool} {p q r : Place} {a b : String} {closers : List Char}

/-- With more helpers in use everything stays a piece. -/
theorem Piece.mono {used : List Include} (more : I.used ⊆ used) (h : Piece I list p a q) :
    Piece ⟨I.stem, used⟩ list p a q := by
  induction h with
  | fixed read => exact .fixed read
  | name word => exact .name word
  | literal line => exact .literal line
  | helper mem scope opens next => exact .helper (more mem) scope opens next
  | temporary some word => exact .temporary some word
  | loosen _ ih => exact ih.loosen
  | append _ _ ih ih' => exact ih.append ih'

theorem Phrase.mono {used : List Include} (more : I.used ⊆ used) (h : Phrase I list a) :
    Phrase ⟨I.stem, used⟩ list a := Piece.mono more h

/-- Delimiters around a piece do not matter, but they allow commas. -/
theorem Piece.frame {outer : List Char} (fits : list = true → list' = true ∨ outer ≠ [])
    (h : Piece I list p a q) :
    Piece I list' ⟨p.closers ++ outer, p.before⟩ a ⟨q.closers ++ outer, q.before⟩ := by
  induction h with
  | fixed read => exact .fixed (Place.read_frame fits read)
  | name word => exact .name word
  | literal line => exact .literal line
  | helper mem scope opens next => exact .helper mem scope opens (delimit_frame next outer)
  | temporary some word => exact .temporary some word
  | loosen _ ih => exact ih.loosen
  | append _ _ ih ih' => exact ih.append ih'

/-- A phrase stands wherever no word stands; the items of a list only between delimiters
or among other items. -/
theorem Phrase.within (h : Phrase I list a) (fits : list = true → list' = true ∨ closers ≠ []) :
    Piece I list' ⟨closers, .apart⟩ a ⟨closers, .unknown⟩ := Piece.frame fits h

theorem Phrase.weaken (h : Phrase I false a) (list : Bool) : Phrase I list a := h.within nofun

theorem Piece.weaken (h : Piece I false p a q) (list : Bool) : Piece I list p a q := by
  have framed : Piece I list ⟨p.closers ++ [], p.before⟩ a ⟨q.closers ++ [], q.before⟩ := by
    refine Piece.frame ?_ h
    exact nofun
  simpa using framed

theorem Piece.phrase (h : Piece I list ⟨[], .apart⟩ a ⟨[], q.before⟩) : Phrase I list a := h.loosen

/-- A fixed piece behind a piece. -/
theorem Piece.put (h : Piece I list p a q) (b : String) (h' : q.read list b.toList = some r) :
    Piece I list p (a ++ b) r := h.append (.fixed h')

/-- A phrase behind a piece. -/
theorem Piece.say (h : Piece I list p a ⟨closers, .apart⟩) (h' : Phrase I false b) :
    Piece I list p (a ++ b) ⟨closers, .unknown⟩ := h.append (h'.within nofun)

/-- The items of a list behind an opening delimiter. -/
theorem Piece.enumerate {c : Char} (h : Piece I list p a ⟨c :: closers, .apart⟩)
    (h' : Phrase I list' b) : Piece I list p (a ++ b) ⟨c :: closers, .unknown⟩ :=
  h.append (h'.within fun _ => .inr (List.cons_ne_nil c closers))

/-- A fixed piece at the start. -/
theorem opening (I : Idiom) (a : String) (h : Place.read false ⟨[], .apart⟩ a.toList = some q) :
    Piece I false ⟨[], .apart⟩ a q := .fixed h

theorem phrase_fixed (I : Idiom) (a : String) {before : Before}
    (h : Place.read list ⟨[], .apart⟩ a.toList = some ⟨[], before⟩) : Phrase I list a :=
  .loosen (.fixed h)

/-- A helper and the parenthesis that opens its arguments. -/
theorem piece_helper {i : Include} (mem : i ∈ I.used) (scope : i ≠ .math)
    (eq : a = i.helper ++ "(") : Piece I list ⟨closers, .apart⟩ a ⟨ ')' :: closers, .apart⟩ :=
  eq ▸ .helper mem scope (.inl rfl) rfl

/-- A helper and the angle bracket in front of a type. -/
theorem piece_helper_typed {i : Include} (mem : i ∈ I.used) (scope : i ≠ .math)
    (eq : a = i.helper ++ "<") : Piece I list ⟨closers, .apart⟩ a ⟨closers, .apart⟩ :=
  eq ▸ .helper mem scope (.inr rfl) rfl

theorem phrase_empty : Phrase I list "" := Piece.loosen (.fixed (q := ⟨[], .apart⟩) rfl)

/-- A name of the script. -/
theorem phrase_name (word : ∀ c ∈ a.toList, Token.isWordRest c) : Phrase I list a := .name word

theorem phrase_literal {cs : List Char} (line : '\n' ∉ cs) : Phrase I list (Text.quoted cs) :=
  .loosen (.literal line)

/-! ### Numbers and types -/

theorem isWordRest_of_isDigit {c : Char} (digit : c.isDigit) : Token.isWordRest c := by
  simp [Token.isWordRest, Char.isAlphanum, digit]

theorem word_nat (n : Nat) : ∀ c ∈ (toString n).toList, Token.isWordRest c := by
  intro c mem
  have digits : (toString n).toList = Nat.toDigits 10 n := by simp
  rw [digits] at mem
  exact isWordRest_of_isDigit (Nat.isDigit_of_mem_toDigits (b := 10) (by decide) (by decide) mem)

theorem phrase_nat (n : Nat) : Phrase I list (toString n) := phrase_name (word_nat n)

theorem phrase_int (v : Int) : Phrase I list (toString v) := by
  cases v with
  | ofNat n => exact phrase_nat n
  | negSucc n =>
    exact Piece.append (.fixed (a := "-") (q := ⟨[], .apart⟩) rfl) (.name (word_nat (n + 1)))

theorem word_typeName (d : Datatype) : ∀ c ∈ d.typeName.toList, Token.isWordRest c := by
  obtain ⟨s, c⟩ := d
  refine List.all_eq_true.mp ?_
  cases s <;> cases c <;> rfl

theorem phrase_categoryName (c : Category) : Phrase I list c.name := by
  refine phrase_name (List.all_eq_true.mp ?_)
  cases c <;> rfl

/-- Numerals go on from one to the next. -/
theorem read_numerals {cs : List Char} (numerals : ∀ c ∈ cs, Token.isNumeral c) {p : Place}
    (known : p.before ≠ .unknown) : ∃ before, p.read list cs = some ⟨p.closers, before⟩ := by
  induction cs generalizing p with
  | nil => exact ⟨p.before, rfl⟩
  | cons c cs ih =>
    obtain ⟨first, rest⟩ := List.forall_mem_cons.mp numerals
    have stepped : ∃ before, p.step list c = some ⟨p.closers, before⟩ ∧ before ≠ .unknown := by
      by_cases word : Token.isWordRest c
      · obtain ⟨closers, before⟩ := p
        unfold Place.step
        rw [if_pos word]
        cases before with
        | apart => exact ⟨_, rfl, nofun⟩
        | word back => exact ⟨_, rfl, nofun⟩
        | unknown => exact absurd rfl known
      · have sign : c = '.' ∨ c = '+' ∨ c = '-' := by
          rcases Bool.or_eq_true _ _ |>.mp first with digit | sign
          · exact absurd (isWordRest_of_isDigit digit) word
          · simp only [List.contains_cons, List.contains_nil, Bool.or_false, Bool.or_eq_true,
              beq_iff_eq] at sign
            rcases sign with dot | rfl | rfl | plus | minus
            · exact .inl dot
            · exact absurd rfl word
            · exact absurd rfl word
            · exact .inr (.inl plus)
            · exact .inr (.inr minus)
        rcases sign with rfl | rfl | rfl <;> exact ⟨.apart, rfl, nofun⟩
    obtain ⟨before, step, known⟩ := stepped
    rw [Place.read, step]
    exact ih rest known

theorem phrase_numerals (numerals : ∀ c ∈ a.toList, Token.isNumeral c) : Phrase I list a := by
  obtain ⟨before, read⟩ := read_numerals (p := ⟨[], .apart⟩) numerals nofun
  exact .loosen (.fixed read)

/-! ### Lists of texts -/

/-- Phrases with a fixed piece between neighbours. -/
theorem piece_joined {j : String} {ts : List String}
    (separates : Place.read list ⟨closers, .unknown⟩ j.toList = some ⟨closers, .apart⟩)
    (phrases : ∀ t ∈ ts, Piece I list ⟨closers, .apart⟩ t ⟨closers, .unknown⟩) :
    Piece I list ⟨closers, .apart⟩ (Text.joined j ts) ⟨closers, .unknown⟩ := by
  induction ts with
  | nil => exact .loosen (.fixed (q := ⟨closers, .apart⟩) rfl)
  | cons t ts ih =>
    obtain ⟨first, rest⟩ := List.forall_mem_cons.mp phrases
    cases ts with
    | nil => exact first
    | cons => exact (first.put j separates).append (ih rest)

/-- Calls nested to the left. -/
theorem phrase_nested {f : String} {ts : List String}
    (opens : Place.read false ⟨[], .apart⟩ (f ++ "(").toList = some ⟨[')'], .apart⟩)
    (first : Phrase I false a) (rest : ∀ t ∈ ts, Phrase I false t) :
    Phrase I false (ts.foldl (fun acc t => f ++ "(" ++ acc ++ ", " ++ t ++ ")") a) := by
  induction ts generalizing a with
  | nil => exact first
  | cons t ts ih =>
    obtain ⟨next, rest⟩ := List.forall_mem_cons.mp rest
    have called := ((opening I _ opens).say first).put ", " (r := ⟨[')'], .apart⟩) rfl
    exact ih ((called.say next).put ")" (r := ⟨[], .apart⟩) rfl).loosen rest

end

end MatrixScript.Cpp

/-! ## Patterns -/

namespace MatrixScript.Template

open Cpp

-- named, because equations of `read` would quote the proof by another name
local instance lawfulBEq_letters : LawfulBEq (List Char) := inferInstance

/-- Where a pattern leads to, if it has no more than `n` placeholders, all of them of these
keys, and a phrase may stand in the place of each. -/
def read (keys : List (List Char)) : Nat → Place → List Char → Option Place
  | 0, p, pattern =>
      if Text.splitAtPair '%' '(' pattern = none then p.read false pattern else none
  | n + 1, p, pattern =>
      match Text.splitAtPair '%' '(' pattern with
      | none => p.read false pattern
      | some (before, after) =>
          match Text.splitAtPair ')' 's' after with
          | none => none
          | some (key, rest) =>
              if key ∈ keys then
                match p.read false before with
                | some ⟨closers, .apart⟩ => read keys n ⟨closers, .unknown⟩ rest
                | _ => none
              else none

section

variable {I : Idiom} {p q r : Place} {keys : List (List Char)}

/-- A pattern gives a piece where the values of its keys are phrases. -/
theorem piece_substitute {value : List Char → Option (List Char)}
    (values : ∀ key ∈ keys, ∃ v, value key = some v ∧ Phrase I false (String.ofList v)) {n : Nat}
    {pattern : List Char} (h : read keys n p pattern = some q) :
    Piece I false p (String.ofList (substitute value pattern)) q := by
  have plain : ∀ {p : Place} {cs : List Char}, Text.splitAtPair '%' '(' cs = none →
      p.read false cs = some q → Piece I false p (String.ofList (substitute value cs)) q := by
    intro p cs none read
    rw [substitute_plain none]
    exact .fixed (by rwa [String.toList_ofList])
  induction n generalizing p pattern with
  | zero =>
    unfold read at h
    split at h
    · exact plain ‹_› h
    · cases h
  | succ n ih =>
    unfold read at h
    split at h
    case h_1 none => exact plain none h
    case h_2 before after opens =>
      split at h
      case h_1 => cases h
      case h_2 key rest closes =>
        split at h
        case isFalse => cases h
        case isTrue mem =>
          split at h
          case h_2 => cases h
          case h_1 closers front =>
            obtain ⟨v, eq, phrase⟩ := values key mem
            rw [substitute_step opens closes, eq, Option.getD_some, String.ofList_append,
              String.ofList_append]
            have first : Piece I false p (String.ofList before) ⟨closers, .apart⟩ :=
              .fixed (by rwa [String.toList_ofList])
            exact (first.say phrase).append (ih h)

/-- The value of a key at a node is a phrase. -/
def Says (I : Idiom) (n : Node) (ts : List String) (key : List Char) : Prop :=
  ∃ v, valueOf? n ts key = some v ∧ Phrase I false v

theorem piece_format {node : Node} {ts : List String} (values : ∀ key ∈ keys, Says I node ts key)
    {n : Nat} {pattern : String} (h : read keys n p pattern.toList = some q) :
    Piece I false p ((format pattern).render node ts) q := by
  refine piece_substitute (fun key mem => ?_) h
  obtain ⟨v, eq, phrase⟩ := values key mem
  exact ⟨v.toList, congrArg (Option.map String.toList) eq, by rwa [String.ofList_toList]⟩

/-- A pattern behind a piece without placeholders. -/
theorem piece_format_append {node : Node} {ts : List String}
    (values : ∀ key ∈ keys, Says I node ts key) {n : Nat} (front pattern : String)
    (plain : '%' ∉ front.toList) (first : Piece I false p front q)
    (h : read keys n q pattern.toList = some r) :
    Piece I false p ((format (front ++ pattern)).render node ts) r := by
  rw [render_format_append plain]
  exact first.append (piece_format values h)

variable {node : Node} {a b c : String} {ts : List String}

theorem says_one (first : Phrase I false a) : ∀ key ∈ [['0']], Says I node (a :: ts) key :=
  List.forall_mem_singleton.mpr ⟨a, rfl, first⟩

theorem says_two (first : Phrase I false a) (second : Phrase I false b) :
    ∀ key ∈ [['0'], ['1']], Says I node (a :: b :: ts) key :=
  List.forall_mem_cons.mpr ⟨⟨a, rfl, first⟩, List.forall_mem_singleton.mpr ⟨b, rfl, second⟩⟩

theorem says_three (first : Phrase I false a) (second : Phrase I false b)
    (third : Phrase I false c) :
    ∀ key ∈ [['0'], ['1'], ['2']], Says I node (a :: b :: c :: ts) key :=
  List.forall_mem_cons.mpr ⟨⟨a, rfl, first⟩, List.forall_mem_cons.mpr
    ⟨⟨b, rfl, second⟩, List.forall_mem_singleton.mpr ⟨c, rfl, third⟩⟩⟩

end

end MatrixScript.Template
