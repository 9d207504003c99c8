/-
# `Proofs.Cpp.Subscript` — emitted subscripts, read as C++

Subscripts of the target language whose arguments are sums of integer literals and
extents, `arma::span` or `m2cpp::uspan` of such sums.  `readSubscript?` reads a text as
C++ does, a literal with a zero in front as an octal one; `Selector.positions?` gives
the zero-based positions that an argument stands for.  A subscript is read back from
its text if its literals and names are single tokens (`readSubscript?_spelled`).

What such a subscript is to select is said of the source first: `Argument.positions` gives
the one-based positions along an axis in the order in which they are selected.
-/
import Mathlib.Data.List.Basic
import Mathlib.Tactic.Ring
import MatrixScript.Proofs.Cpp.Reading
import MatrixScript.Text.Digits

namespace MatrixScript

/-! ## Progressions -/

/-- How many steps lead from `start` to a last position not behind `stop`. -/
def progressionLength (start step stop : ℤ) : Nat :=
  if 0 < step then ((stop - start) / step + 1).toNat
  else if step < 0 then ((start - stop) / -step + 1).toNat
  else 0

/-- `start`, `start + step`, and so on up to `stop`, or down to it if the step is negative;
nothing if the step is zero. -/
def progression (start step stop : ℤ) : List ℤ :=
  (List.range (progressionLength start step stop)).map fun k => start + k * step

example : progression 1 2 6 = [1, 3, 5] ∧ progression 3 (-1) 1 = [3, 2, 1]
    ∧ progression 3 1 1 = [] := by decide

/-- Counting from zero moves all positions. -/
theorem progression_pred (start step stop : ℤ) :
    progression (start - 1) step (stop - 1) = (progression start step stop).map (· - 1) := by
  have length : progressionLength (start - 1) step (stop - 1) = progressionLength start step stop := by
    unfold progressionLength
    rw [sub_sub_sub_cancel_right, sub_sub_sub_cancel_right]
  rw [progression, progression, length, List.map_map]
  refine List.map_congr_left fun k _ => ?_
  show start - 1 + k * step = start + k * step - 1
  ring

namespace Program

/-! ## Bounds -/

/-- A literal is added or taken off. -/
inductive Shift where
  | plus
  | minus
deriving DecidableEq, Repr

namespace Shift

/-- Character of the operator. -/
def symbol : Shift → Char
  | .plus => '+'
  | .minus => '-'

/-- What becomes of a number. -/
def apply : Shift → ℤ → ℤ → ℤ
  | .plus, a, b => a + b
  | .minus, a, b => a - b

end Shift

/-- A position along an axis: a literal, or `end` with literals added and taken off. -/
inductive Bound where
  | literal (digits : String)
  | last
  | shifted (op : Shift) (bound : Bound) (digits : String)
deriving DecidableEq, Repr

namespace Bound

/-- The literals of one chain, added or taken off one after the other. -/
def chain (op : Shift) (b : Bound) (literals : List String) : Bound :=
  literals.foldl (shifted op) b

/-- One-based position along an axis with `extent` positions. -/
def position (extent : ℤ) : Bound → ℤ
  | .literal s => Text.digitsValue s.toList
  | .last => extent
  | .shifted op b s => op.apply (b.position extent) (Text.digitsValue s.toList)

end Bound

/-! ## Arguments -/

/-- An argument of a subscript. -/
inductive Argument where
  | bound (b : Bound)
  /-- a colon -/
  | all
  | range (start stop : Bound)
  /-- the step is a literal, or a negated one -/
  | stepped (start : Bound) (negated : Bool) (step : String) (stop : Bound)
deriving DecidableEq, Repr

/-- Number of a literal step. -/
def stepValue (negated : Bool) (digits : String) : ℤ :=
  if negated then -(Text.digitsValue digits.toList : ℤ) else Text.digitsValue digits.toList

/-- One-based positions that an argument selects along an axis with `extent` positions. -/
def Argument.positions (extent : ℤ) : Argument → List ℤ
  | .bound b => [b.position extent]
  | .all => progression 1 1 extent
  | .range start stop => progression (start.position extent) 1 (stop.position extent)
  | .stepped start negated step stop =>
      progression (start.position extent) (stepValue negated step) (stop.position extent)

/-- `end:-2:end-4` of five positions. -/
example : (Argument.stepped .last true "2" (.shifted .minus .last "4")).positions 5 = [5, 3, 1] := by
  decide

end Program

end MatrixScript

namespace MatrixScript.Cpp

open Program (Shift)

/-! ## Subscripts -/

/-- Operands of a sum. -/
inductive Term where
  | numeral (digits : List Char)
  /-- a sign right before the digits -/
  | negative (digits : List Char)
  /-- a sign before digits in parentheses -/
  | negated (digits : List Char)
  /-- extent of a variable along an axis -/
  | extent (x : String) (axis : Nat)
deriving DecidableEq, Repr

/-- Sums, grouped from the left. -/
inductive Sum where
  | term (t : Term)
  | shifted (op : Shift) (left : Sum) (right : Term)
deriving DecidableEq, Repr

/-- Arguments of a subscript. -/
inductive Selector where
  | point (position : Sum)
  /-- `arma::span` -/
  | span (first last : Sum)
  /-- `m2cpp::uspan` without a step -/
  | uspan (first last : Sum)
  /-- `m2cpp::uspan` with a step in the middle -/
  | stepped (first step last : Sum)
deriving DecidableEq, Repr

/-- Members with the extents of a variable. -/
def members : List String := ["n_rows", "n_cols", "n_slices"]

/-! ## Texts -/

def Term.spelled : Term → List Char
  | .numeral digits => digits
  | .negative digits => '-' :: digits
  | .negated digits => '-' :: '(' :: (digits ++ [')'])
  | .extent x axis => x.toList ++ '.' :: (members.getD axis "").toList

def Sum.spelled : Sum → List Char
  | .term t => t.spelled
  | .shifted op left right => left.spelled ++ op.symbol :: right.spelled

/-- What stands behind the namespace in a call of `arma::span`. -/
def spanTail : List Char := "::span(".toList

/-- What stands behind the namespace in a call of `m2cpp::uspan`. -/
def uspanTail : List Char := "::uspan(".toList

def Selector.spelled : Selector → List Char
  | .point s => s.spelled
  | .span p q => "arma".toList ++ (spanTail ++ (p.spelled ++ (comma ++ (q.spelled ++ [')']))))
  | .uspan p q => "m2cpp".toList ++ (uspanTail ++ (p.spelled ++ (comma ++ (q.spelled ++ [')']))))
  | .stepped p s q =>
      "m2cpp".toList ++ (uspanTail ++ (p.spelled ++ (comma ++ (s.spelled ++ (comma ++ (q.spelled
        ++ [')']))))))

/-- Arguments up to the parenthesis behind them. -/
def spelledArguments : List Selector → List Char
  | [] => [')']
  | [a] => a.spelled ++ [')']
  | a :: b :: as => a.spelled ++ (comma ++ spelledArguments (b :: as))

/-! ## Reading -/

def readDigits : Reader (List Char) := fun text =>
  let digits := text.takeWhile Char.isDigit
  if digits = [] then none else some (digits, text.dropWhile Char.isDigit)

/-- A variable and one of its members. -/
def readExtent : Reader Term := fun text => do
  let rest ← behind? ['.'] (text.dropWhile Token.isWordRest)
  let axis ← members.idxOf? (String.ofList (rest.takeWhile Token.isWordRest))
  return (.extent (String.ofList (text.takeWhile Token.isWordRest)) axis, rest.dropWhile Token.isWordRest)

/-- A sign is in front of digits, which may stand in parentheses. -/
def readNegated : Reader Term := fun text =>
  match behind? ['('] text with
  | some text => do
      let (digits, text) ← readDigits text
      let text ← behind? [')'] text
      return (.negated digits, text)
  | none => do
      let (digits, text) ← readDigits text
      return (.negative digits, text)

def readTerm : Reader Term
  | [] => none
  | c :: text =>
      if c = '-' then readNegated text
      else if Token.isWordStart c then readExtent (c :: text)
      else do
        let (digits, text) ← readDigits (c :: text)
        return (.numeral digits, text)

/-- Operators with an operand behind each, applied to `left`. -/
def readShifts : Nat → Sum → Reader Sum
  | 0, left, text => some (left, text)
  | n + 1, left, '+' :: text => do
      let (right, text) ← readTerm text
      readShifts n (.shifted .plus left right) text
  | n + 1, left, '-' :: text => do
      let (right, text) ← readTerm text
      readShifts n (.shifted .minus left right) text
  | _ + 1, left, text => some (left, text)

/-- Sums; every operator takes a character. -/
def readSum : Reader Sum := fun text => do
  let (first, rest) ← readTerm text
  readShifts text.length (.term first) rest

/-- Both ends of a span. -/
def readSpan : Reader Selector := fun text => do
  let (p, text) ← readSum text
  let text ← behind? comma text
  let (q, text) ← readSum text
  let text ← behind? [')'] text
  return (.span p q, text)

/-- Both ends of a span, with or without a step between them. -/
def readUspan : Reader Selector := fun text => do
  let (p, text) ← readSum text
  let text ← behind? comma text
  let (q, text) ← readSum text
  match behind? comma text with
  | none => do
      let text ← behind? [')'] text
      return (.uspan p q, text)
  | some text => do
      let (last, text) ← readSum text
      let text ← behind? [')'] text
      return (.stepped p q last, text)

def readSelector : Reader Selector := fun text =>
  let word := text.takeWhile Token.isWordRest
  let rest := text.dropWhile Token.isWordRest
  match behind? spanTail rest with
  | some text => if word = "arma".toList then readSpan text else none
  | none =>
      match behind? uspanTail rest with
      | some text => if word = "m2cpp".toList then readUspan text else none
      | none => do
          let (s, text) ← readSum text
          return (.point s, text)

/-- Arguments up to the parenthesis at the end of the text, and fewer than `n`. -/
def readSelectors : Nat → List Char → Option (List Selector)
  | 0, _ => none
  | n + 1, text => do
      let (a, text) ← readSelector text
      match behind? comma text with
      | some text => do
          let as ← readSelectors n text
          return a :: as
      | none => if text = [')'] then some [a] else none

/-- The variable and the arguments of the subscript that a text is, from end to end. -/
def readSubscript? (text : String) : Option (String × List Selector) := do
  let rest ← behind? ['('] (text.toList.dropWhile Token.isWordRest)
  let arguments ← readSelectors rest.length rest
  return (String.ofList (text.toList.takeWhile Token.isWordRest), arguments)

example : readSubscript? "A(m2cpp::uspan(A.n_rows-1, -(2), 0), 10-1)" = some ("A",
    [.stepped (.shifted .minus (.term (.extent "A" 0)) (.numeral ['1']))
      (.term (.negated ['2'])) (.term (.numeral ['0'])),
      .point (.shifted .minus (.term (.numeral ['1', '0'])) (.numeral ['1']))]) := by
  decide +kernel

/-! ## Values -/

/-- Number of an integer literal; with a zero in front its digits are octal ones. -/
def integer? (digits : List Char) : Option ℤ :=
  if Token.hasLeadingZero digits then
    if digits.all fun c => decide (c < '8') then some (Nat.ofDigitChars 8 digits 0) else none
  else some (Nat.ofDigitChars 10 digits 0)

/-- Number of an operand, given the extents of all variables. -/
def Term.value? (extents : String → Nat → ℤ) : Term → Option ℤ
  | .numeral digits => integer? digits
  | .negative digits | .negated digits => (integer? digits).map (- ·)
  | .extent x axis => some (extents x axis)

def Sum.value? (extents : String → Nat → ℤ) : Sum → Option ℤ
  | .term t => t.value? extents
  | .shifted op left right => do return op.apply (← left.value? extents) (← right.value? extents)

/-- Positions that an argument stands for, counted from zero. -/
def Selector.positions? (extents : String → Nat → ℤ) : Selector → Option (List ℤ)
  | .point s => do return [← s.value? extents]
  | .span p q | .uspan p q => do return progression (← p.value? extents) 1 (← q.value? extents)
  | .stepped p s q => do
      return progression (← p.value? extents) (← s.value? extents) (← q.value? extents)

/-! ## Texts are read back -/

/-- Literals and names are single tokens. -/
def Term.Canonical : Term → Prop
  | .numeral digits | .negative digits | .negated digits => digits ≠ [] ∧ digits.all Char.isDigit
  | .extent x axis => isName x ∧ axis < members.length

def Sum.Canonical : Sum → Prop
  | .term t => t.Canonical
  | .shifted _ left right => left.Canonical ∧ right.Canonical

def Selector.Canonical : Selector → Prop
  | .point s => s.Canonical
  | .span p q | .uspan p q => p.Canonical ∧ q.Canonical
  | .stepped p s q => p.Canonical ∧ s.Canonical ∧ q.Canonical

/-- What can stand behind an operand. -/
def Stops (text : List Char) : Prop := ∀ c ∈ text.head?, c ∈ ['+', '-', ',', ')']

/-- What can stand behind a sum. -/
def Closes (text : List Char) : Prop := ∀ c ∈ text.head?, c ∈ [',', ')']

theorem Closes.stops {text : List Char} (h : Closes text) : Stops text :=
  fun c mem => List.mem_cons_of_mem _ (List.mem_cons_of_mem _ (h c mem))

theorem stops_symbol (op : Shift) (text : List Char) : Stops (op.symbol :: text) := by
  intro c mem
  obtain rfl : op.symbol = c := Option.some.inj mem
  cases op <;> decide

theorem closes_comma (text : List Char) : Closes (comma ++ text) := by
  intro c mem
  obtain rfl : ',' = c := Option.some.inj mem
  decide

theorem closes_close (text : List Char) : Closes ([')'] ++ text) := by
  intro c mem
  obtain rfl : ')' = c := Option.some.inj mem
  decide

theorem exists_cons_of_isName {x : String} (h : isName x) :
    ∃ c cs, x.toList = c :: cs ∧ Token.isWordStart c ∧ x.toList.all Token.isWordRest := by
  unfold isName at h
  cases letters : x.toList with
  | nil => simp [letters] at h
  | cons c cs =>
    rw [letters] at h
    simp only [Bool.and_eq_true] at h
    obtain ⟨⟨start, rest⟩, -⟩ := h
    refine ⟨c, cs, rfl, start, ?_⟩
    rw [List.all_cons, rest, isWordRest_of_isWordStart start]
    rfl

section Operands

variable {text : List Char} (stops : Stops text)
include stops

theorem isWordRest_of_stops : ∀ c ∈ text.head?, Token.isWordRest c = false := by
  intro c mem
  have found := stops c mem
  simp only [List.mem_cons, List.not_mem_nil, or_false] at found
  rcases found with rfl | rfl | rfl | rfl <;> rfl

theorem isDigit_of_stops : ∀ c ∈ text.head?, c.isDigit = false := by
  intro c mem
  have found := stops c mem
  simp only [List.mem_cons, List.not_mem_nil, or_false] at found
  rcases found with rfl | rfl | rfl | rfl <;> rfl

theorem readDigits_append {digits : List Char} (some : digits ≠ []) (all : digits.all Char.isDigit) :
    readDigits (digits ++ text) = .some (digits, text) := by
  have taken := Token.takeWhile_append_of_stop all (isDigit_of_stops stops)
  have dropped := Token.dropWhile_append_of_stop all (isDigit_of_stops stops)
  rw [readDigits, taken, dropped, if_neg some]

theorem readNegated_negative {digits : List Char} (some : digits ≠ [])
    (all : digits.all Char.isDigit) :
    readNegated (digits ++ text) = .some (.negative digits, text) := by
  obtain ⟨c, cs, rfl⟩ := List.exists_cons_of_ne_nil some
  have open_ : behind? ['('] (c :: cs ++ text) = none := by
    refine if_neg fun opens => ?_
    obtain ⟨rest, eq⟩ := List.isPrefixOf_iff_prefix.mp opens
    obtain rfl := (List.cons.inj eq).1
    cases (Bool.and_eq_true _ _ |>.mp all).1
  rw [readNegated, open_]
  dsimp only
  rw [readDigits_append stops some all]
  rfl

omit stops in
theorem readNegated_negated {digits : List Char} (some : digits ≠ [])
    (all : digits.all Char.isDigit) :
    readNegated ('(' :: (digits ++ [')']) ++ text) = .some (.negated digits, text) := by
  have open_ := behind?_append ['('] (digits ++ ([')'] ++ text))
  have close := behind?_append [')'] text
  have spelled : '(' :: (digits ++ [')']) ++ text = ['('] ++ (digits ++ ([')'] ++ text)) := by simp
  rw [spelled, readNegated, open_]
  dsimp only
  rw [readDigits_append (closes_close text).stops some all]
  simp only [Option.bind_eq_bind, Option.bind_some, close]
  rfl

theorem readExtent_append {x : String} (word : x.toList.all Token.isWordRest) {axis : Nat}
    (bound : axis < members.length) :
    readExtent (x.toList ++ '.' :: ((members.getD axis "").toList ++ text))
      = some (.extent x axis, text) := by
  have point : ∀ c ∈ ('.' :: ((members.getD axis "").toList ++ text)).head?,
      Token.isWordRest c = false := by
    intro c mem
    obtain rfl : '.' = c := Option.some.inj mem
    rfl
  have letters : ∀ m ∈ members, m.toList.all Token.isWordRest := by decide
  have member : ∀ i < members.length, members.getD i "" ∈ members := by decide
  have axes : ∀ i < members.length, members.idxOf? (members.getD i "") = some i := by decide
  have taken := Token.takeWhile_append_of_stop (letters _ (member axis bound)) (isWordRest_of_stops stops)
  have dropped := Token.dropWhile_append_of_stop (letters _ (member axis bound)) (isWordRest_of_stops stops)
  have behind := behind?_append ['.'] ((members.getD axis "").toList ++ text)
  rw [List.cons_append, List.nil_append] at behind
  rw [readExtent, Token.takeWhile_append_of_stop word point, Token.dropWhile_append_of_stop word point,
    behind]
  simp only [Option.bind_eq_bind, Option.bind_some, taken, dropped, String.ofList_toList,
    axes axis bound]
  rfl

theorem readTerm_spelled {t : Term} (h : t.Canonical) :
    readTerm (t.spelled ++ text) = some (t, text) := by
  cases t with
  | numeral digits =>
    obtain ⟨c, cs, rfl⟩ := List.exists_cons_of_ne_nil h.1
    have digit := (Bool.and_eq_true _ _ |>.mp h.2).1
    have sign : c ≠ '-' := by
      rintro rfl
      cases digit
    have start : ¬Token.isWordStart c := by
      rw [Token.isWordStart_of_number (.inl digit)]
      exact Bool.false_ne_true
    show readTerm (c :: (cs ++ text)) = _
    rw [readTerm, if_neg sign, if_neg start, ← List.cons_append, readDigits_append stops h.1 h.2]
    rfl
  | negative digits => exact readNegated_negative stops h.1 h.2
  | negated digits =>
    show readTerm ('-' :: ('(' :: (digits ++ [')']) ++ text)) = _
    rw [readTerm, if_pos rfl]
    exact readNegated_negated h.1 h.2
  | extent x axis =>
    obtain ⟨c, cs, letters, start, word⟩ := exists_cons_of_isName h.1
    have sign : c ≠ '-' := by
      rintro rfl
      cases start
    have whole := readExtent_append stops word h.2
    rw [letters] at whole
    show readTerm ((x.toList ++ '.' :: (members.getD axis "").toList) ++ text) = _
    rw [List.append_assoc, letters, List.cons_append, readTerm, if_neg sign, if_pos start]
    exact whole

end Operands

/-! ### Sums -/

/-- Operators of a sum. -/
def Sum.shifts : Sum → Nat
  | .term _ => 0
  | .shifted _ left _ => left.shifts + 1

theorem Sum.shifts_le (s : Sum) : s.shifts ≤ s.spelled.length := by
  induction s with
  | term t => exact Nat.zero_le _
  | shifted op left right ih =>
    rw [shifts, spelled, List.length_append, List.length_cons]
    omega

theorem readShifts_symbol (n : Nat) (left : Sum) (op : Shift) {t : Term} (h : t.Canonical)
    {text : List Char} (stops : Stops text) :
    readShifts (n + 1) left (op.symbol :: (t.spelled ++ text))
      = readShifts n (.shifted op left t) text := by
  have read := readTerm_spelled stops h
  cases op with
  | plus =>
    show (do let (right, text) ← readTerm (t.spelled ++ text)
             readShifts n (.shifted .plus left right) text) = _
    rw [read]
    rfl
  | minus =>
    show (do let (right, text) ← readTerm (t.spelled ++ text)
             readShifts n (.shifted .minus left right) text) = _
    rw [read]
    rfl

theorem readShifts_closes (n : Nat) (s : Sum) {text : List Char} (closes : Closes text) :
    readShifts n s text = some (s, text) := by
  cases n with
  | zero => rfl
  | succ n =>
    cases text with
    | nil => rfl
    | cons c text =>
      have found := closes c rfl
      simp only [List.mem_cons, List.not_mem_nil, or_false] at found
      rcases found with rfl | rfl
      · rfl
      · rfl

/-- Reading a sum comes to it on the way, whatever goes on behind it. -/
theorem readShifts_spelled {s : Sum} (h : s.Canonical) (n : Nat) {text : List Char}
    (stops : Stops text) :
    (readTerm (s.spelled ++ text)).bind
        (fun (first, rest) => readShifts (n + s.shifts) (.term first) rest)
      = readShifts n s text := by
  induction s generalizing n text with
  | term t =>
    show (readTerm (t.spelled ++ text)).bind _ = _
    rw [readTerm_spelled stops h]
    rfl
  | shifted op left right ih =>
    have spelled : (Sum.shifted op left right).spelled ++ text
        = left.spelled ++ op.symbol :: (right.spelled ++ text) := by
      rw [Sum.spelled, List.append_assoc, List.cons_append]
    have step := ih h.1 (n + 1) (stops_symbol op (right.spelled ++ text))
    rw [readShifts_symbol n left op h.2 stops] at step
    rw [spelled, Sum.shifts, show n + (left.shifts + 1) = n + 1 + left.shifts by omega]
    exact step

theorem readSum_spelled {s : Sum} (h : s.Canonical) {text : List Char} (closes : Closes text) :
    readSum (s.spelled ++ text) = some (s, text) := by
  obtain ⟨n, enough⟩ := Nat.exists_eq_add_of_le' (Nat.le_trans s.shifts_le
    (List.length_append ▸ Nat.le_add_right s.spelled.length text.length :
      s.spelled.length ≤ (s.spelled ++ text).length))
  have run := readShifts_spelled h n closes.stops
  rw [readShifts_closes n s closes, ← enough] at run
  exact run

/-! ### Arguments -/

/-- No namespace stands in front of a sum. -/
theorem head?_of_sum {s : Sum} (h : s.Canonical) {text : List Char} (stops : Stops text) :
    ((s.spelled ++ text).dropWhile Token.isWordRest).head? ≠ some ':' := by
  have behind : ∀ (word : List Char) {rest : List Char} {c : Char}, word.all Token.isWordRest →
      Token.isWordRest c = false → c ≠ ':' →
      ((word ++ c :: rest).dropWhile Token.isWordRest).head? ≠ some ':' := by
    intro word rest c all stop ne
    have dropped : (word ++ c :: rest).dropWhile Token.isWordRest = c :: rest :=
      Token.dropWhile_append_of_stop all fun d mem => Option.some.inj mem ▸ stop
    rw [dropped]
    exact fun eq => ne (Option.some.inj eq)
  induction s generalizing text with
  | shifted op left right ih =>
    rw [Sum.spelled, List.append_assoc, List.cons_append]
    exact ih h.1 (stops_symbol op _)
  | term t =>
    cases t with
    | numeral digits =>
      have word : digits.all Token.isWordRest := by
        refine List.all_eq_true.mpr fun c mem => ?_
        have digit := List.all_eq_true.mp h.2 c mem
        simp [Token.isWordRest, Char.isAlphanum, digit]
      have dropped := Token.dropWhile_append_of_stop word (isWordRest_of_stops stops)
      show ((digits ++ text).dropWhile Token.isWordRest).head? ≠ some ':'
      rw [dropped]
      intro eq
      exact absurd (stops ':' eq) (by decide)
    | negative digits | negated digits =>
      exact behind [] rfl rfl (by decide)
    | extent x axis =>
      obtain ⟨c, cs, letters, start, word⟩ := exists_cons_of_isName h.1
      show ((x.toList ++ '.' :: (members.getD axis "").toList ++ text).dropWhile _).head? ≠ _
      rw [List.append_assoc, List.cons_append]
      exact behind _ word rfl (by decide)

theorem behind?_of_head? {word text : List Char} {c : Char} (head : word.head? = some c)
    (other : text.head? ≠ some c) : behind? word text = none := by
  refine if_neg fun opens => other ?_
  obtain ⟨rest, rfl⟩ := List.isPrefixOf_iff_prefix.mp opens
  cases word with
  | nil => cases head
  | cons d word => exact head

section Arguments

variable {text : List Char}

theorem readSpan_spelled {p q : Sum} (hp : p.Canonical) (hq : q.Canonical) :
    readSpan (p.spelled ++ (comma ++ (q.spelled ++ ([')'] ++ text)))) = some (.span p q, text) := by
  have between := behind?_append comma (q.spelled ++ ([')'] ++ text))
  have close := behind?_append [')'] text
  rw [readSpan, readSum_spelled hp (closes_comma _)]
  simp only [Option.bind_eq_bind, Option.bind_some, between, readSum_spelled hq (closes_close text),
    close]
  rfl

theorem readUspan_spelled {p q : Sum} (hp : p.Canonical) (hq : q.Canonical) :
    readUspan (p.spelled ++ (comma ++ (q.spelled ++ ([')'] ++ text)))) = some (.uspan p q, text) := by
  have between := behind?_append comma (q.spelled ++ ([')'] ++ text))
  have close := behind?_append [')'] text
  have noStep : behind? comma ([')'] ++ text) = none := rfl
  rw [readUspan, readSum_spelled hp (closes_comma _)]
  simp only [Option.bind_eq_bind, Option.bind_some, between, readSum_spelled hq (closes_close text),
    noStep, close]
  rfl

theorem readUspan_stepped {p s q : Sum} (hp : p.Canonical) (hs : s.Canonical) (hq : q.Canonical) :
    readUspan (p.spelled ++ (comma ++ (s.spelled ++ (comma ++ (q.spelled ++ ([')'] ++ text))))))
      = some (.stepped p s q, text) := by
  have first := behind?_append comma (s.spelled ++ (comma ++ (q.spelled ++ ([')'] ++ text))))
  have second := behind?_append comma (q.spelled ++ ([')'] ++ text))
  have close := behind?_append [')'] text
  rw [readUspan, readSum_spelled hp (closes_comma _)]
  simp only [Option.bind_eq_bind, Option.bind_some, first, readSum_spelled hs (closes_comma _),
    second, readSum_spelled hq (closes_close text), close]
  rfl

/-- The word in front of a colon. -/
theorem word_before_colon (word tail : List Char) (all : word.all Token.isWordRest)
    (colon : tail.head? = some ':') (rest : List Char) :
    (word ++ (tail ++ rest)).takeWhile Token.isWordRest = word
      ∧ (word ++ (tail ++ rest)).dropWhile Token.isWordRest = tail ++ rest := by
  have stop : ∀ c ∈ (tail ++ rest).head?, Token.isWordRest c = false := by
    intro c mem
    cases tail with
    | nil => cases colon
    | cons d tail =>
      obtain rfl : ':' = c := (Option.some.inj colon).symm.trans (Option.some.inj mem)
      rfl
  exact ⟨Token.takeWhile_append_of_stop all stop, Token.dropWhile_append_of_stop all stop⟩

theorem readSelector_span (text : List Char) :
    readSelector ("arma".toList ++ (spanTail ++ text)) = readSpan text := by
  obtain ⟨taken, dropped⟩ := word_before_colon "arma".toList spanTail (by decide) rfl text
  rw [readSelector]
  dsimp only
  rw [taken, dropped, behind?_append]
  exact if_pos rfl

theorem readSelector_uspan (text : List Char) :
    readSelector ("m2cpp".toList ++ (uspanTail ++ text)) = readUspan text := by
  obtain ⟨taken, dropped⟩ := word_before_colon "m2cpp".toList uspanTail (by decide) rfl text
  have other : behind? spanTail (uspanTail ++ text) = none := rfl
  rw [readSelector]
  dsimp only
  rw [taken, dropped, other]
  dsimp only
  rw [behind?_append]
  exact if_pos rfl

theorem readSelector_spelled {a : Selector} (h : a.Canonical) (closes : Closes text) :
    readSelector (a.spelled ++ text) = some (a, text) := by
  cases a with
  | point s =>
    have none : ∀ {tail : List Char}, tail.head? = some ':' →
        behind? tail ((s.spelled ++ text).dropWhile Token.isWordRest) = .none :=
      fun colon => behind?_of_head? colon (head?_of_sum h closes.stops)
    show readSelector (s.spelled ++ text) = _
    rw [readSelector]
    dsimp only
    rw [none rfl]
    dsimp only
    rw [none rfl]
    dsimp only
    rw [readSum_spelled h closes]
    rfl
  | span p q =>
    have spelled : (Selector.span p q).spelled ++ text
        = "arma".toList ++ (spanTail ++ (p.spelled ++ (comma ++ (q.spelled ++ ([')'] ++ text))))) := by
      simp only [Selector.spelled, List.append_assoc]
    rw [spelled, readSelector_span, readSpan_spelled h.1 h.2]
  | uspan p q =>
    have spelled : (Selector.uspan p q).spelled ++ text
        = "m2cpp".toList ++ (uspanTail ++ (p.spelled ++ (comma ++ (q.spelled ++ ([')'] ++ text))))) := by
      simp only [Selector.spelled, List.append_assoc]
    rw [spelled, readSelector_uspan, readUspan_spelled h.1 h.2]
  | stepped p s q =>
    have spelled : (Selector.stepped p s q).spelled ++ text
        = "m2cpp".toList ++ (uspanTail ++ (p.spelled ++ (comma ++ (s.spelled ++ (comma ++ (q.spelled
          ++ ([')'] ++ text))))))) := by
      simp only [Selector.spelled, List.append_assoc]
    rw [spelled, readSelector_uspan, readUspan_stepped h.1 h.2.1 h.2.2]

theorem readSelectors_spelled : ∀ {as : List Selector}, as ≠ [] → (∀ a ∈ as, a.Canonical) →
    ∀ {n : Nat}, as.length ≤ n → readSelectors n (spelledArguments as) = some as
  | [], ne, _, _, _ => absurd rfl ne
  | [a], _, canonical, n, enough => by
    obtain ⟨n, rfl⟩ := Nat.exists_eq_add_of_le' enough
    have read := readSelector_spelled (canonical a List.mem_cons_self) (closes_close [])
    rw [List.append_nil] at read
    show readSelectors (n + 1) (a.spelled ++ [')']) = _
    rw [readSelectors, read]
    rfl
  | a :: b :: rest, _, canonical, n, enough => by
    obtain ⟨n, rfl⟩ := Nat.exists_eq_add_of_le' enough
    obtain ⟨first, others⟩ := List.forall_mem_cons.mp canonical
    have behind := behind?_append comma (spelledArguments (b :: rest))
    have read := readSelector_spelled first (closes_comma (spelledArguments (b :: rest)))
    have more := readSelectors_spelled (List.cons_ne_nil b rest) others (n := n + (rest.length + 1))
      (Nat.le_add_left _ n)
    show readSelectors (n + (rest.length + 1) + 1) (a.spelled ++ (comma ++ spelledArguments (b :: rest))) = _
    rw [readSelectors, read]
    simp only [Option.bind_eq_bind, Option.bind_some, behind, more]
    rfl

theorem length_spelledArguments : ∀ as : List Selector, as.length ≤ (spelledArguments as).length
  | [] => Nat.zero_le _
  | [a] => by
    rw [spelledArguments, List.length_append]
    exact Nat.le_add_left 1 _
  | a :: b :: rest => by
    have more := length_spelledArguments (b :: rest)
    rw [spelledArguments, List.length_append, List.length_append, List.length_cons]
    have two : comma.length = 2 := rfl
    omega

end Arguments

/-- A subscript is read back from its text. -/
theorem readSubscript?_spelled {x : String} (name : isName x) {as : List Selector} (some : as ≠ [])
    (canonical : ∀ a ∈ as, a.Canonical) {text : String}
    (spelled : text.toList = x.toList ++ '(' :: spelledArguments as) :
    readSubscript? text = .some (x, as) := by
  obtain ⟨c, cs, -, -, word⟩ := exists_cons_of_isName name
  have stop : ∀ c ∈ ('(' :: spelledArguments as).head?, Token.isWordRest c = false := by
    intro c mem
    obtain rfl : '(' = c := Option.some.inj mem
    rfl
  have open_ := behind?_append ['('] (spelledArguments as)
  rw [List.cons_append, List.nil_append] at open_
  have read := readSelectors_spelled some canonical (length_spelledArguments as)
  rw [readSubscript?, spelled, Token.takeWhile_append_of_stop word stop,
    Token.dropWhile_append_of_stop word stop, open_]
  simp only [Option.bind_eq_bind, Option.bind_some, read, String.ofList_toList]
  rfl

end MatrixScript.Cpp
