/-
# `Proofs.Cpp.Call` — reading calls in the target language

A call is a name and a list of items in parentheses.  It is read character by character:
commas separate items where no string literal and no delimiter is open (`Spot`), and in
the text of one item there is no such comma (`Single`).  So of a call that is printed the
name and the items are read back, whatever the items are (`readCall?_call`); a phrase is
one item (`Phrase.single`).
-/
import MatrixScript.Proofs.Cpp.PhraseReading

namespace MatrixScript.Cpp

/-! ## Where items end -/

/-- Where reading a list of items has come to. -/
structure Spot where
  quoting : Quoting
  /-- closing delimiters that are to come, innermost first -/
  closers : List Char
deriving DecidableEq

namespace Spot

/-- Between items. -/
def start : Spot := ⟨.outside, []⟩

/-- Reads a character of an item: not the comma that ends it, and no delimiter that closes
something else than what was opened last. -/
def step (s : Spot) (c : Char) : Option Spot :=
  match s.quoting with
  | .outside =>
      if c = ',' ∧ s.closers = [] then none
      else (delimit s.closers c).map fun closers => ⟨Quoting.outside.step c, closers⟩
  | q => some ⟨q.step c, s.closers⟩

/-- Reads characters of an item. -/
def run (s : Spot) : List Char → Option Spot
  | [] => some s
  | c :: cs => (s.step c).bind fun s => s.run cs

variable {s s' : Spot} {closers outer a b : List Char}

theorem run_append (s : Spot) (a b : List Char) : s.run (a ++ b) = (s.run a).bind (·.run b) := by
  induction a generalizing s with
  | nil => rfl
  | cons c a ih =>
    rw [List.cons_append, run, run]
    cases s.step c with
    | none => rfl
    | some next => exact ih next

/-- Delimiters around an item do not matter. -/
theorem step_frame {c : Char} (h : s.step c = some s') (outer : List Char) :
    step ⟨s.quoting, s.closers ++ outer⟩ c = some ⟨s'.quoting, s'.closers ++ outer⟩ := by
  unfold step at h ⊢
  split at h
  case h_2 outside =>
    cases h
    dsimp only
  case h_1 outside =>
    dsimp only
    rw [outside]
    dsimp only
    split at h
    case isTrue => cases h
    case isFalse item =>
      obtain ⟨closers, eq, rfl⟩ := Option.map_eq_some_iff.mp h
      rw [if_neg fun comma => item ⟨comma.1, (List.append_eq_nil_iff.mp comma.2).1⟩,
        delimit_frame eq outer]
      rfl

theorem run_frame {cs : List Char} (h : s.run cs = some s') (outer : List Char) :
    run ⟨s.quoting, s.closers ++ outer⟩ cs = some ⟨s'.quoting, s'.closers ++ outer⟩ := by
  induction cs generalizing s with
  | nil =>
    cases h
    rfl
  | cons c cs ih =>
    obtain ⟨next, first, rest⟩ := Option.bind_eq_some_iff.mp h
    rw [run, step_frame first outer]
    exact ih rest

/-- A character that is neither a quote nor a comma is read for its delimiter only. -/
theorem step_outside {c : Char} (quote : c ≠ '\x22') (comma : c ≠ ',') :
    step ⟨.outside, closers⟩ c = (delimit closers c).map (⟨.outside, ·⟩) := by
  have same : Quoting.outside.step c = .outside := if_neg quote
  unfold step
  dsimp only
  rw [if_neg fun here => comma here.1, same]

theorem step_word {c : Char} (word : Token.isWordRest c) :
    step ⟨.outside, closers⟩ c = some ⟨.outside, closers⟩ := by
  have apart : ∀ d : Char, Token.isWordRest d = false → c ≠ d := by
    rintro d none rfl
    rw [none] at word
    cases word
  rw [step_outside (apart _ (by decide)) (apart _ (by decide)), delimit_word closers word]
  rfl

theorem run_word {cs : List Char} (word : ∀ c ∈ cs, Token.isWordRest c) :
    run ⟨.outside, closers⟩ cs = some ⟨.outside, closers⟩ := by
  induction cs with
  | nil => rfl
  | cons c cs ih =>
    obtain ⟨first, rest⟩ := List.forall_mem_cons.mp word
    rw [run, step_word first]
    exact ih rest

/-- Inside of a literal nothing ends an item. -/
theorem run_escaped (cs : List Char) :
    run ⟨.inside, closers⟩ (Rule.escaped cs ++ ['\x22']) = some ⟨.outside, closers⟩ := by
  induction cs with
  | nil => rfl
  | cons c cs ih =>
    rw [Rule.escaped]
    split
    case isTrue => exact ih
    case isFalse plain =>
      obtain ⟨backslash, quote⟩ := not_or.mp plain
      have step : Quoting.inside.step c = .inside := by
        rw [Quoting.step, if_neg quote, if_neg backslash]
      rw [List.cons_append, run]
      show run ⟨Quoting.inside.step c, closers⟩ _ = _
      rw [step]
      exact ih

theorem run_quoted (cs : List Char) :
    run ⟨.outside, closers⟩ (Text.quoted cs).toList = some ⟨.outside, closers⟩ := by
  have letters : (Text.quoted cs).toList = '\x22' :: (Rule.escaped cs ++ ['\x22']) := by
    rw [Text.quoted, String.toList_ofList, List.cons_append]
  rw [letters]
  exact run_escaped cs

end Spot

/-- One item: no comma stands outside of its literals and delimiters, and it closes what it
opens. -/
def Single (a : String) : Prop := Spot.start.run a.toList = some .start

instance (a : String) : Decidable (Single a) := inferInstanceAs (Decidable (_ = _))

example : Single "f(x, \x7b1, 2\x7d)" ∧ Single "\", (\"" ∧ ¬Single "x, y" := by decide

/-! ## Phrases -/

variable {I : Idiom} {p q : Place} {a : String}

/-- A fixed piece that is no list. -/
theorem Place.read_spot {cs : List Char} (h : p.read false cs = some q) :
    Spot.run ⟨.outside, p.closers⟩ cs = some ⟨.outside, q.closers⟩ := by
  induction cs generalizing p with
  | nil =>
    cases h
    rfl
  | cons c cs ih =>
    obtain ⟨next, first, rest⟩ := Option.bind_eq_some_iff.mp h
    have step : Spot.step ⟨.outside, p.closers⟩ c = some ⟨.outside, next.closers⟩ := by
      unfold Place.step at first
      split at first
      case isTrue word =>
        obtain ⟨before, -, rfl⟩ := Option.map_eq_some_iff.mp first
        exact Spot.step_word word
      case isFalse =>
        split at first
        · cases first
        case isFalse ends =>
          split at first
          · cases first
          · split at first
            · cases first
            case isFalse item =>
              obtain ⟨closers, eq, rfl⟩ := Option.map_eq_some_iff.mp first
              have quote : c ≠ '\x22' := fun here => ends (.inl here)
              have same : Quoting.outside.step c = .outside := if_neg quote
              unfold Spot.step
              dsimp only
              rw [if_neg fun comma => item ⟨comma.1, comma.2, rfl⟩, eq, same]
              rfl
    rw [Spot.run, step]
    exact ih rest

theorem Piece.spot (stem : Single I.stem) (h : Piece I false p a q) :
    Spot.run ⟨.outside, p.closers⟩ a.toList = some ⟨.outside, q.closers⟩ := by
  induction h with
  | fixed read => exact Place.read_spot read
  | name word => exact Spot.run_word word
  | literal => exact Spot.run_quoted _
  | @helper closers closers' i c _ scope opens next =>
    obtain ⟨w, eq, -, word⟩ := helper_eq scope
    have scope' : Spot.run ⟨.outside, closers⟩ helperScope = some ⟨.outside, closers⟩ :=
      Spot.run_frame (s := .start) (by decide : Spot.start.run helperScope = some .start) closers
    rw [toList_helper eq, Spot.run_append, scope', Option.bind_some, Spot.run_append,
      Spot.run_word word, Option.bind_some, Spot.run, Spot.step_outside, next]
    · rfl
    · rcases opens with rfl | rfl <;> decide
    · rcases opens with rfl | rfl <;> decide
  | @temporary closers suffix _ word =>
    have stem' : Spot.run ⟨.outside, closers⟩ I.stem.toList = some ⟨.outside, closers⟩ :=
      Spot.run_frame stem closers
    rw [String.toList_append, Spot.run_append, stem']
    exact Spot.run_word word
  | loosen _ ih => exact ih
  | append _ _ ih ih' =>
    rw [String.toList_append, Spot.run_append, ih]
    exact ih'

/-- A phrase is one item. -/
theorem Phrase.single (stem : Single I.stem) (h : Phrase I false a) : Single a := Piece.spot stem h

/-! ## Calls -/

/-- Something other than blanks stands in the text. -/
def Solid (a : String) : Prop := ∃ c ∈ a.toList, c ≠ ' '

theorem solid_fixed {a : String} (h : a.toList.any (· != ' ')) : Solid a := by
  obtain ⟨c, mem, dark⟩ := List.any_eq_true.mp h
  exact ⟨c, mem, by simpa using dark⟩

/-- Reads items with a comma and a blank between neighbours; `front` holds what is read of the
open one, last character first. -/
def itemsFrom (s : Spot) (front : List Char) : List Char → Option (List (List Char))
  | [] => if s = .start then some [front.reverse] else none
  | c :: cs =>
      match s.step c with
      | some s => itemsFrom s (c :: front) cs
      | none =>
          match c, cs with
          | ',', ' ' :: cs =>
              if s = .start then (itemsFrom .start [] cs).map (front.reverse :: ·) else none
          | _, _ => none

/-- The items of a list; blanks alone are none. -/
def items? (text : List Char) : Option (List String) :=
  if text.all (· = ' ') then some [] else (itemsFrom .start [] text).map (·.map String.ofList)

/-- The name and the items of a call. -/
def readCall? (text : String) : Option (String × List String) :=
  let name := text.toList.takeWhile Token.isWordRest
  match name, (text.toList.drop name.length) with
  | _ :: _, '(' :: rest =>
      match rest.getLast? with
      | some ')' => (items? rest.dropLast).map (String.ofList name, ·)
      | _ => none
  | _, _ => none

/-- A call of a function. -/
def call (f : String) (items : List String) : String := f ++ "(" ++ Text.joined ", " items ++ ")"

theorem itemsFrom_run {s s' : Spot} {cs : List Char} (h : s.run cs = some s')
    (front rest : List Char) :
    itemsFrom s front (cs ++ rest) = itemsFrom s' (cs.reverse ++ front) rest := by
  induction cs generalizing s front with
  | nil =>
    cases h
    rfl
  | cons c cs ih =>
    obtain ⟨next, first, later⟩ := Option.bind_eq_some_iff.mp h
    rw [List.cons_append]
    conv_lhs => unfold itemsFrom
    rw [first]
    dsimp only
    rw [ih later, List.reverse_cons, List.append_assoc]
    rfl

theorem itemsFrom_joined {as : List String} (some : as ≠ []) (single : ∀ a ∈ as, Single a) :
    itemsFrom .start [] (Text.joined ", " as).toList = .some (as.map String.toList) := by
  induction as with
  | nil => exact absurd rfl some
  | cons a as ih =>
    obtain ⟨first, rest⟩ := List.forall_mem_cons.mp single
    cases as with
    | nil =>
      have read := itemsFrom_run first [] []
      rw [List.append_nil, List.append_nil] at read
      rw [Text.joined, read, itemsFrom, if_pos rfl, List.reverse_reverse]
      rfl
    | cons b as =>
      rw [Text.joined_cons, String.toList_append, String.toList_append, List.append_assoc,
        itemsFrom_run first, List.append_nil]
      show itemsFrom .start a.toList.reverse (',' :: ' ' :: (Text.joined ", " (b :: as)).toList) = _
      rw [itemsFrom, show Spot.start.step ',' = none from rfl]
      dsimp only
      rw [if_pos rfl, ih (List.cons_ne_nil b as) rest, List.reverse_reverse]
      rfl

theorem Solid.append_left (h : Solid a) (b : String) : Solid (a ++ b) := by
  obtain ⟨c, mem, dark⟩ := h
  exact ⟨c, by rw [String.toList_append]; exact List.mem_append_left _ mem, dark⟩

theorem Solid.append_right (a : String) {b : String} (h : Solid b) : Solid (a ++ b) := by
  obtain ⟨c, mem, dark⟩ := h
  exact ⟨c, by rw [String.toList_append]; exact List.mem_append_right _ mem, dark⟩

theorem solid_joined (separator : String) {as : List String} (some : as ≠ [])
    (solid : ∀ a ∈ as, Solid a) : Solid (Text.joined separator as) := by
  cases as with
  | nil => exact absurd rfl some
  | cons a as =>
    have first := solid a List.mem_cons_self
    cases as with
    | nil => exact first
    | cons b as =>
      rw [Text.joined_cons]
      exact (first.append_left _).append_left _

theorem items?_joined {as : List String} (single : ∀ a ∈ as, Single a) (solid : ∀ a ∈ as, Solid a) :
    items? (Text.joined ", " as).toList = some as := by
  unfold items?
  cases as with
  | nil => rfl
  | cons a as =>
    obtain ⟨c, mem, dark⟩ := solid_joined ", " (List.cons_ne_nil a as) solid
    rw [if_neg fun blank => dark (of_decide_eq_true (List.all_eq_true.mp blank c mem)),
      itemsFrom_joined (List.cons_ne_nil a as) single, Option.map_some, List.map_map]
    simp

/-- A call is read as it was put together. -/
theorem readCall?_call {f : String} {as : List String} (some : f ≠ "")
    (word : ∀ c ∈ f.toList, Token.isWordRest c) (single : ∀ a ∈ as, Single a)
    (solid : ∀ a ∈ as, Solid a) : readCall? (call f as) = .some (f, as) := by
  have letters : (call f as).toList
      = f.toList ++ '(' :: ((Text.joined ", " as).toList ++ [')']) := by
    simp [call]
  have name : (call f as).toList.takeWhile Token.isWordRest = f.toList := by
    rw [letters, List.takeWhile_append_of_pos word]
    simp [show Token.isWordRest '(' = false from rfl]
  unfold readCall?
  rw [name, letters]
  dsimp only
  rw [List.drop_left]
  have filled : f.toList ≠ [] := fun none => some (String.toList_injective none)
  obtain ⟨c, cs, eq⟩ := List.exists_cons_of_ne_nil filled
  have same : String.ofList (c :: cs) = f := eq ▸ String.ofList_toList
  rw [eq]
  show (match ((Text.joined ", " as).toList ++ [')']).getLast? with
    | .some ')' => _
    | _ => none) = _
  rw [List.getLast?_concat, List.dropLast_concat]
  rw [items?_joined single solid, same]
  rfl

example : readCall? "f(x, g(\", \"), \x7b1, 2\x7d)" = some ("f", ["x", "g(\", \")", "\x7b1, 2\x7d"]) := by
  decide

/-! ## Lines with calls -/

/-- The first line of a function definition. -/
structure Signature where
  result : String
  name : String
  parameters : List String
deriving DecidableEq

/-- Reads a type, a blank, and then what looks like a call. -/
def readSignature? (line : String) : Option Signature :=
  let result := line.toList.takeWhile Token.isWordRest
  match line.toList.drop result.length with
  | ' ' :: rest => (readCall? (String.ofList rest)).map fun (f, parameters) =>
      ⟨String.ofList result, f, parameters⟩
  | _ => none

/-- A definition is read as it was put together. -/
theorem readSignature?_call {result f : String} {parameters : List String}
    (type : ∀ c ∈ result.toList, Token.isWordRest c) (some : f ≠ "")
    (word : ∀ c ∈ f.toList, Token.isWordRest c) (single : ∀ a ∈ parameters, Single a)
    (solid : ∀ a ∈ parameters, Solid a) :
    readSignature? (result ++ " " ++ call f parameters) = .some ⟨result, f, parameters⟩ := by
  have letters : (result ++ " " ++ call f parameters).toList
      = result.toList ++ ' ' :: (call f parameters).toList := by simp
  have read : (result ++ " " ++ call f parameters).toList.takeWhile Token.isWordRest = result.toList := by
    rw [letters, List.takeWhile_append_of_pos type]
    simp [show Token.isWordRest ' ' = false from rfl]
  unfold readSignature?
  rw [read, letters]
  dsimp only
  rw [List.drop_left, String.ofList_toList]
  show (readCall? (String.ofList (call f parameters).toList)).map _ = _
  rw [String.ofList_toList, readCall?_call some word single solid]
  rfl

/-- A statement that calls a function, and what takes the value of the call. -/
structure CallLine where
  taker : Option String
  name : String
  arguments : List String
deriving DecidableEq

/-- Splits at the first ` = ` that stands outside of literals and delimiters; `front` holds what
is read, last character first. -/
def takerFrom (s : Spot) (front : List Char) : List Char → Option (List Char × List Char)
  | [] => none
  | c :: cs =>
      if s = .start ∧ c = ' ' ∧ cs.take 2 = ['=', ' '] then some (front.reverse, cs.drop 2)
      else (s.step c).bind fun s => takerFrom s (c :: front) cs

/-- Reads a statement that is a call, or that assigns the value of one. -/
def readLine? (line : String) : Option CallLine :=
  match line.toList.reverse with
  | ';' :: ' ' :: rest =>
      match takerFrom .start [] rest.reverse with
      | some (x, value) => (readCall? (String.ofList value)).map fun (f, arguments) =>
          ⟨some (String.ofList x), f, arguments⟩
      | none => (readCall? (String.ofList rest.reverse)).map fun (f, arguments) => ⟨none, f, arguments⟩
  | _ => none

example : readLine? "x(g(\" = \"), 2) = f(y) ;" = some ⟨some "x(g(\" = \"), 2)", "f", ["y"]⟩ := by decide

theorem takerFrom_word {cs : List Char} (word : ∀ c ∈ cs, Token.isWordRest c) (front rest : List Char) :
    takerFrom .start front (cs ++ rest) = takerFrom .start (cs.reverse ++ front) rest := by
  induction cs generalizing front with
  | nil => rfl
  | cons c cs ih =>
    obtain ⟨first, others⟩ := List.forall_mem_cons.mp word
    have blank : c ≠ ' ' := by
      rintro rfl
      cases first
    rw [List.cons_append, takerFrom, if_neg fun here => blank here.2.1, show Spot.start.step c = _ from
      Spot.step_word first, Option.bind_some]
    show takerFrom .start (c :: front) (cs ++ rest) = _
    rw [ih others, List.reverse_cons, List.append_assoc]
    rfl

/-- Nothing is split inside of delimiters. -/
theorem takerFrom_within {s s' : Spot} {cs : List Char} (h : s.run cs = some s') {outer : List Char}
    (some : outer ≠ []) (front rest : List Char) :
    takerFrom ⟨s.quoting, s.closers ++ outer⟩ front (cs ++ rest)
      = takerFrom ⟨s'.quoting, s'.closers ++ outer⟩ (cs.reverse ++ front) rest := by
  induction cs generalizing s front with
  | nil =>
    cases h
    rfl
  | cons c cs ih =>
    obtain ⟨next, first, later⟩ := Option.bind_eq_some_iff.mp h
    have inside : (⟨s.quoting, s.closers ++ outer⟩ : Spot) ≠ .start := fun start =>
      some (List.append_eq_nil_iff.mp (congrArg Spot.closers start)).2
    rw [List.cons_append, takerFrom, if_neg fun here => inside here.1, Spot.step_frame first outer,
      Option.bind_some, ih later, List.reverse_cons, List.append_assoc]
    rfl

theorem takerFrom_joined {as : List String} (single : ∀ a ∈ as, Single a) (front rest : List Char) :
    takerFrom ⟨.outside, [')']⟩ front ((Text.joined ", " as).toList ++ rest)
      = takerFrom ⟨.outside, [')']⟩ ((Text.joined ", " as).toList.reverse ++ front) rest := by
  induction as generalizing front with
  | nil => rfl
  | cons a as ih =>
    obtain ⟨first, others⟩ := List.forall_mem_cons.mp single
    have here := fun rest => takerFrom_within first (List.cons_ne_nil ')' []) front rest
    cases as with
    | nil => exact here rest
    | cons b as =>
      rw [Text.joined_cons, String.toList_append, String.toList_append, List.append_assoc,
        List.append_assoc]
      refine (here _).trans ?_
      show takerFrom ⟨.outside, [')']⟩ (' ' :: ',' :: (a.toList.reverse ++ front))
        ((Text.joined ", " (b :: as)).toList ++ rest) = _
      rw [ih others]
      simp

theorem takerFrom_call {f : String} {as : List String} (word : ∀ c ∈ f.toList, Token.isWordRest c)
    (single : ∀ a ∈ as, Single a) (front rest : List Char) :
    takerFrom .start front ((call f as).toList ++ rest)
      = takerFrom .start ((call f as).toList.reverse ++ front) rest := by
  have letters : (call f as).toList = f.toList ++ '(' :: ((Text.joined ", " as).toList ++ [')']) := by
    simp [call]
  rw [letters, List.append_assoc, takerFrom_word word]
  show takerFrom ⟨.outside, [')']⟩ ('(' :: (f.toList.reverse ++ front))
    (((Text.joined ", " as).toList ++ [')']) ++ rest) = _
  rw [List.append_assoc, takerFrom_joined single]
  show takerFrom .start (')' :: ((Text.joined ", " as).toList.reverse
    ++ '(' :: (f.toList.reverse ++ front))) rest = _
  simp

section

variable {f : String} {as : List String} (some : f ≠ "") (word : ∀ c ∈ f.toList, Token.isWordRest c)
  (single : ∀ a ∈ as, Single a) (solid : ∀ a ∈ as, Solid a)
include some word single solid

/-- A call alone takes no value. -/
theorem readLine?_call : readLine? (call f as ++ " ;") = .some ⟨none, f, as⟩ := by
  have letters : (call f as ++ " ;").toList.reverse = ';' :: ' ' :: (call f as).toList.reverse := by simp
  have none : takerFrom .start [] (call f as).toList = .none := by
    have whole := takerFrom_call word single [] []
    rw [List.append_nil, List.append_nil] at whole
    exact whole
  unfold readLine?
  rw [letters]
  show (match takerFrom .start [] (call f as).toList.reverse.reverse with
    | .some (_, _) => _
    | .none => (readCall? (String.ofList (call f as).toList.reverse.reverse)).map _) = _
  rw [List.reverse_reverse, none, String.ofList_toList, readCall?_call some word single solid]
  rfl

/-- A variable, or an element of one, takes the value of a call. -/
theorem readLine?_assign {x : String} (taker : (∀ c ∈ x.toList, Token.isWordRest c)
    ∨ ∃ g bs, x = call g bs ∧ (∀ c ∈ g.toList, Token.isWordRest c) ∧ ∀ b ∈ bs, Single b) :
    readLine? (x ++ " = " ++ call f as ++ " ;") = .some ⟨.some x, f, as⟩ := by
  have letters : (x ++ " = " ++ call f as ++ " ;").toList.reverse
      = ';' :: ' ' :: (x.toList ++ ' ' :: '=' :: ' ' :: (call f as).toList).reverse := by simp
  have split : takerFrom .start [] (x.toList ++ ' ' :: '=' :: ' ' :: (call f as).toList)
      = .some (x.toList, (call f as).toList) := by
    have read : takerFrom .start [] (x.toList ++ ' ' :: '=' :: ' ' :: (call f as).toList)
        = takerFrom .start (x.toList.reverse ++ []) (' ' :: '=' :: ' ' :: (call f as).toList) := by
      rcases taker with word' | ⟨g, bs, rfl, word', single'⟩
      · exact takerFrom_word word' [] _
      · exact takerFrom_call word' single' [] _
    rw [read, takerFrom, if_pos ⟨rfl, rfl, rfl⟩, List.append_nil, List.reverse_reverse]
    rfl
  unfold readLine?
  rw [letters]
  show (match takerFrom .start [] (x.toList ++ ' ' :: '=' :: ' ' :: (call f as).toList).reverse.reverse with
    | .some (_, _) => _
    | .none => _) = _
  rw [List.reverse_reverse, split]
  show (readCall? (String.ofList (call f as).toList)).map _ = _
  rw [String.ofList_toList, String.ofList_toList, readCall?_call some word single solid]
  rfl

end

end MatrixScript.Cpp
