/-
# `Proofs.Token.Decimal` — the number that a literal stands for

`decimal` reads a number literal as a rational: the digits of the mantissa
without the point, over a power of ten for the places behind the point, times
the power of ten of the exponent.  An integer literal is worth the same with
a point and a zero behind it, and is then a floating-point one.
-/
import Mathlib.Algebra.Field.Rat
import Mathlib.Tactic.NormNum
import MatrixScript.Proofs.Token.Lexeme
import MatrixScript.Text.Digits

namespace MatrixScript.Token

/-! ## Values -/

/-- Exponent of the characters behind its letter. -/
def exponentValue : List Char → Int
  | '-' :: digits => -(Text.digitsValue digits : Int)
  | '+' :: digits => Text.digitsValue digits
  | digits => Text.digitsValue digits

/-- Factor of the exponent behind a mantissa. -/
def scale : List Char → ℚ
  | [] => 1
  | _ :: exponent => 10 ^ exponentValue exponent

/-- Number of a literal. -/
def decimal (cs : List Char) : ℚ :=
  let whole := cs.takeWhile Char.isDigit
  match cs.dropWhile Char.isDigit with
  | '.' :: rest =>
      let places := rest.takeWhile Char.isDigit
      Text.digitsValue (whole ++ places) / 10 ^ places.length * scale (rest.dropWhile Char.isDigit)
  | rest => Text.digitsValue whole * scale rest

example : decimal "12.50e-1".toList = 5 / 4 := by decide +kernel

/-! ## Integers -/

/-- A zero stands in front of further characters. -/
def hasLeadingZero : List Char → Bool
  | '0' :: _ :: _ => true
  | _ => false

theorem kind_of_numberAt? {cs : List Char} {kind : NumberKind} {n m : Nat} {point : Bool}
    (h : numberAt? cs = some (kind, n)) (mantissa : mantissaAt? cs = some (point, m))
    (real : kind ≠ .imag) :
    n = m + exponentLength (cs.drop m)
      ∧ (kind = .int → point = false ∧ exponentLength (cs.drop m) = 0) := by
  have parts := numberAt?_parts h mantissa
  unfold numberAt? at h
  rw [mantissa] at h
  dsimp only at h
  split at h
  case isTrue =>
    cases h
    exact absurd rfl real
  case isFalse plain =>
    rw [if_neg plain] at parts
    refine ⟨parts, fun int => ?_⟩
    subst int
    split at h
    · cases h
    · rename_i none
      simp only [Bool.or_eq_true, decide_eq_true_eq, not_or] at none
      exact ⟨by simpa using none.1, by omega⟩

/-- An integer literal has nothing but digits. -/
theorem all_isDigit_of_int {cs : List Char} (h : numberAt? cs = some (.int, cs.length)) :
    cs ≠ [] ∧ cs.all Char.isDigit := by
  cases mantissa : mantissaAt? cs with
  | none => simp [numberAt?, mantissa] at h
  | some parts =>
    obtain ⟨point, m⟩ := parts
    obtain ⟨length, int⟩ := kind_of_numberAt? h mantissa (by decide)
    obtain ⟨rfl, none⟩ := int rfl
    obtain ⟨_, -, point, -⟩ | ⟨-, some, -, digits⟩ := mantissaAt?_cases mantissa
    · cases point
    · have count : digitCount cs = cs.length := by omega
      refine ⟨?_, ?_⟩
      · rintro rfl
        exact some rfl
      · have whole : cs.takeWhile Char.isDigit = cs :=
          (List.takeWhile_prefix _).eq_of_length count
        rw [← whole]
        exact List.all_takeWhile

theorem digitCount_of_all {cs tail : List Char} (digits : cs.all Char.isDigit)
    (stop : ∀ c ∈ tail.head?, c.isDigit = false) : digitCount (cs ++ tail) = cs.length := by
  rw [digitCount, takeWhile_append_of_stop digits stop]

theorem dropWhile_append_of_stop {p : Char → Bool} {cs tail : List Char} (all : cs.all p)
    (stop : ∀ c ∈ tail.head?, p c = false) : (cs ++ tail).dropWhile p = tail := by
  rw [List.dropWhile_append_of_pos (List.all_eq_true.mp all)]
  cases tail with
  | nil => rfl
  | cons c tail => rw [List.dropWhile_cons, stop c rfl, if_neg Bool.false_ne_true]

/-- Digits are an integer literal. -/
theorem numberAt?_digits {cs : List Char} (some : cs ≠ []) (digits : cs.all Char.isDigit) :
    numberAt? cs = .some (.int, cs.length) := by
  have count : digitCount cs = cs.length := by
    rw [digitCount, List.takeWhile_eq_self_iff.mpr (List.all_eq_true.mp digits)]
  have rest : cs.drop (digitCount cs) = [] := List.drop_of_length_le count.ge
  have mantissa : mantissaAt? cs = .some (false, cs.length) := by
    rw [mantissaAt?_plain (by simp [rest]), count]
    simp [List.length_eq_zero_iff, some]
  simp [numberAt?, mantissa, exponentLength, startsImaginary]

/-- With a point and a zero an integer literal is a floating-point one. -/
theorem numberAt?_tenths {cs : List Char} (some : cs ≠ []) (digits : cs.all Char.isDigit) :
    numberAt? (cs ++ ['.', '0']) = .some (.float, (cs ++ ['.', '0']).length) := by
  have count : digitCount (cs ++ ['.', '0']) = cs.length := digitCount_of_all digits (by simp)
  have behind : (cs ++ ['.', '0']).drop (digitCount (cs ++ ['.', '0'])) = ['.', '0'] := by
    rw [count, List.drop_left]
  have mantissa : mantissaAt? (cs ++ ['.', '0']) = .some (true, cs.length + 2) := by
    rw [mantissaAt?_point behind, count]
    simp [digitCount, List.length_eq_zero_iff, some]
  have rest : (cs ++ ['.', '0']).drop (cs.length + 2) = [] :=
    List.drop_of_length_le (by simp)
  simp [numberAt?, mantissa, rest, exponentLength, startsImaginary]

/-- The point and the zero do not change the value. -/
theorem decimal_tenths {cs : List Char} (digits : cs.all Char.isDigit) :
    decimal (cs ++ ['.', '0']) = decimal cs := by
  have ends : ∀ c ∈ ([] : List Char).head?, c.isDigit = false := nofun
  have whole : cs.takeWhile Char.isDigit = cs := by
    simpa using takeWhile_append_of_stop digits ends
  have behind : cs.dropWhile Char.isDigit = [] := by
    simpa using dropWhile_append_of_stop digits ends
  have whole' : (cs ++ ['.', '0']).takeWhile Char.isDigit = cs :=
    takeWhile_append_of_stop digits (by simp)
  have behind' : (cs ++ ['.', '0']).dropWhile Char.isDigit = ['.', '0'] :=
    dropWhile_append_of_stop digits (by simp)
  have more : Text.digitsValue (cs ++ ['0']) = 10 * Text.digitsValue cs := by
    simp [Text.digitsValue, Text.digitsFrom, Text.digit]
  have places : ['0'].takeWhile Char.isDigit = ['0'] := by decide
  have none : ['0'].dropWhile Char.isDigit = [] := by decide
  simp only [decimal, whole, behind, whole', behind', places, none, more, scale, mul_one,
    List.length_singleton, pow_one]
  push_cast
  exact mul_div_cancel_left₀ _ (by norm_num)

/-! ## Characters -/

/-- A character of number literals that are not imaginary. -/
def isNumeral (c : Char) : Bool := c.isDigit || ['.', 'e', 'E', '+', '-'].contains c

theorem isNumeral_of_isDigit {c : Char} (h : c.isDigit) : isNumeral c := by simp [isNumeral, h]

theorem all_take_digitCount {p : Char → Bool} (digits : ∀ {c : Char}, c.isDigit → p c)
    (cs : List Char) : (cs.take (digitCount cs)).all p := by
  have same : cs.take (digitCount cs) = cs.takeWhile Char.isDigit :=
    List.prefix_iff_eq_take.mp (List.takeWhile_prefix _) |>.symm
  rw [same, List.all_eq_true]
  exact fun c mem => digits (List.all_eq_true.mp List.all_takeWhile c mem)

/-- Numerals up to a place and numerals from there on. -/
theorem all_take_add {p : Char → Bool} {cs : List Char} {m n : Nat} (first : (cs.take m).all p)
    (rest : ((cs.drop m).take n).all p) : (cs.take (m + n)).all p := by
  rw [List.take_add, List.all_append, first, rest]
  rfl

/-- A mantissa has nothing but digits and a point. -/
theorem all_take_mantissa {p : Char → Bool} (digits : ∀ {c : Char}, c.isDigit → p c) (mark : p '.')
    {cs : List Char} {m : Nat} {point : Bool} (h : mantissaAt? cs = some (point, m)) :
    (cs.take m).all p := by
  obtain ⟨rest, behind, -, rfl⟩ | ⟨-, -, -, rfl⟩ := mantissaAt?_cases h
  · refine all_take_add (all_take_add (all_take_digitCount digits cs) ?_) ?_
    · rw [behind]
      simp [mark]
    · rw [← List.drop_drop, behind]
      exact all_take_digitCount digits rest
  · exact all_take_digitCount digits cs

theorem all_take_exponent (cs : List Char) : (cs.take (exponentLength cs)).all isNumeral := by
  cases cs with
  | nil => rfl
  | cons c rest =>
    dsimp only [exponentLength]
    split
    case isFalse => rfl
    case isTrue letter =>
      split
      · rfl
      · have sign : (rest.take (signLength rest)).all isNumeral := by
          unfold signLength
          split <;> rfl
        have first : isNumeral c := by
          rcases letter with rfl | rfl <;> rfl
        rw [Nat.add_assoc, Nat.add_comm 1, List.take_succ_cons, List.all_cons, first,
          all_take_add sign (all_take_digitCount isNumeral_of_isDigit _)]
        rfl

/-- An exponent is a letter, perhaps a sign, and digits. -/
theorem exponent_chars {c : Char} {rest : List Char}
    (whole : exponentLength (c :: rest) = (c :: rest).length) : (c = 'e' ∨ c = 'E')
      ∧ ∃ sign digits, rest = sign ++ digits ∧ sign ∈ [[], ['+'], ['-']] ∧ ∀ d ∈ digits, d.isDigit := by
  rw [exponentLength] at whole
  split at whole
  case isFalse => cases whole
  case isTrue letter =>
    dsimp only at whole
    split at whole
    · cases whole
    · refine ⟨letter, rest.take (signLength rest), rest.drop (signLength rest),
        (List.take_append_drop _ _).symm, ?_, ?_⟩
      · unfold signLength
        split <;> simp
      · have length : digitCount (rest.drop (signLength rest)) = (rest.drop (signLength rest)).length := by
          rw [List.length_drop]
          simp only [List.length_cons] at whole
          omega
        have all : ((rest.drop (signLength rest)).take _).all Char.isDigit := all_take_digitCount id _
        rw [length, List.take_length] at all
        exact List.all_eq_true.mp all

theorem all_isNumeral {cs : List Char} {kind : NumberKind}
    (h : numberAt? cs = some (kind, cs.length)) (real : kind ≠ .imag) : cs.all isNumeral := by
  cases mantissa : mantissaAt? cs with
  | none => simp [numberAt?, mantissa] at h
  | some parts =>
    obtain ⟨point, m⟩ := parts
    have length := (kind_of_numberAt? h mantissa real).1
    have all := all_take_add (all_take_mantissa isNumeral_of_isDigit rfl mantissa) (all_take_exponent (cs.drop m))
    rwa [← length, List.take_length] at all

theorem last_of_drop (cs : List Char) (n : Nat) (digits : digitCount (cs.drop n) = (cs.drop n).length)
    (some : n < cs.length) : ∃ d, cs.getLast? = .some d ∧ d.isDigit := by
  have whole : (cs.drop n).takeWhile Char.isDigit = cs.drop n :=
    (List.takeWhile_prefix _).eq_of_length digits
  have last : (cs.drop n).getLast? = cs.getLast? := by
    rw [List.getLast?_drop, if_neg (by omega)]
  have filled : cs.drop n ≠ [] := fun none => by
    have := congrArg List.length none
    rw [List.length_drop, List.length_nil] at this
    omega
  refine ⟨(cs.drop n).getLast filled, by rw [← last, List.getLast?_eq_some_getLast], ?_⟩
  have all : ∀ c ∈ cs.drop n, c.isDigit := by
    rw [← whole]
    exact List.all_eq_true.mp List.all_takeWhile
  exact all _ (List.getLast_mem filled)

/-- A number that is not imaginary ends in a digit or a point. -/
theorem last_of_numberAt? {cs : List Char} {kind : NumberKind}
    (h : numberAt? cs = some (kind, cs.length)) (real : kind ≠ .imag) :
    ∃ d, cs.getLast? = some d ∧ (d.isDigit ∨ d = '.') := by
  cases mantissa : mantissaAt? cs with
  | none => simp [numberAt?, mantissa] at h
  | some parts =>
    obtain ⟨point, m⟩ := parts
    have length := (kind_of_numberAt? h mantissa real).1
    by_cases exponent : exponentLength (cs.drop m) = 0
    · rw [exponent, Nat.add_zero] at length
      obtain ⟨rest, behind, -, rfl⟩ | ⟨-, digits, -, rfl⟩ := mantissaAt?_cases mantissa
      · have size := congrArg List.length behind
        rw [List.length_drop, List.length_cons] at size
        have tail : cs.drop (digitCount cs + 1) = rest := by
          rw [← List.drop_drop, behind]
          rfl
        cases rest with
        | nil =>
          refine ⟨'.', ?_, .inr rfl⟩
          rw [← List.take_append_drop (digitCount cs) cs, behind, List.getLast?_append]
          rfl
        | cons c rest =>
          obtain ⟨d, last, digit⟩ := last_of_drop cs (digitCount cs + 1)
            (by rw [tail]; simp at size ⊢; omega) (by simp at size; omega)
          exact ⟨d, last, .inl digit⟩
      · obtain ⟨d, last, digit⟩ := last_of_drop cs 0 length.symm (by omega)
        exact ⟨d, last, .inl digit⟩
    · cases behind : cs.drop m with
      | nil =>
        rw [behind] at exponent
        exact absurd rfl exponent
      | cons c rest =>
        rw [behind, exponentLength] at exponent length
        split at length
        case isFalse plain => exact absurd (if_neg plain) exponent
        case isTrue letter =>
          rw [if_pos letter] at exponent
          dsimp only at length exponent
          split at length
          case isTrue none => exact absurd (if_pos none) exponent
          case isFalse some =>
            have size := congrArg List.length behind
            rw [List.length_drop, List.length_cons] at size
            have tail : cs.drop (m + (1 + signLength rest)) = rest.drop (signLength rest) := by
              rw [← List.drop_drop, behind, Nat.add_comm, List.drop_succ_cons]
            obtain ⟨d, last, digit⟩ := last_of_drop cs (m + (1 + signLength rest))
              (by rw [tail, List.length_drop]; omega) (by omega)
            exact ⟨d, last, .inl digit⟩

/-- An imaginary number is one that is not, with a mark behind it. -/
theorem exists_mark_of_imag {cs : List Char} (h : numberAt? cs = some (.imag, cs.length)) :
    ∃ front mark, cs = front ++ [mark] ∧ front.all isNumeral ∧ (mark = 'i' ∨ mark = 'j') := by
  cases mantissa : mantissaAt? cs with
  | none => simp [numberAt?, mantissa] at h
  | some parts =>
    obtain ⟨point, m⟩ := parts
    have numerals := all_take_add (all_take_mantissa isNumeral_of_isDigit rfl mantissa) (all_take_exponent (cs.drop m))
    have length := numberAt?_parts h mantissa
    unfold numberAt? at h
    rw [mantissa] at h
    dsimp only at h
    generalize m + exponentLength (cs.drop m) = n at h numerals length
    split at h
    case isFalse => split at h <;> cases h
    case isTrue imaginary =>
      rw [if_pos imaginary] at length
      have one : (cs.drop n).length = 1 := by rw [List.length_drop]; omega
      obtain ⟨mark, last⟩ := List.length_eq_one_iff.mp one
      refine ⟨cs.take n, mark, ?_, numerals, ?_⟩
      · rw [← last, List.take_append_drop]
      · rw [last] at imaginary
        unfold startsImaginary at imaginary
        split at imaginary
        · next eq => exact .inl (List.cons.inj eq).1
        · next eq => exact .inr (List.cons.inj eq).1
        · cases imaginary

end MatrixScript.Token
