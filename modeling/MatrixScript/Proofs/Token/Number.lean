/-
# `Proofs.Token.Number` — a number is found again in a longer text

`numberAt?` looks at a character behind the number only to see whether the
number goes on.  So a text that is a number from end to end is found again in
front of anything that does not start with a letter, a digit, an underscore or
a point (`numberAt?_append`), and a number that is found at the head of a text
is a number from end to end (`numberAt?_take`).
-/
import MatrixScript.Token.Lexer

namespace MatrixScript.Token

/-- The text ends a word: it starts with no character of a word and no point. -/
def EndsWord (tail : List Char) : Prop := ∀ c ∈ tail.head?, isWordRest c = false ∧ c ≠ '.'

theorem isDigit_of_endsWord {tail : List Char} (h : EndsWord tail) :
    ∀ c ∈ tail.head?, c.isDigit = false := by
  intro c hc
  have noWord := (h c hc).1
  simp only [isWordRest, Char.isAlphanum, Bool.or_eq_false_iff] at noWord
  exact noWord.1.2

/-- The head of a text that ends a word is no given character of words. -/
theorem ne_of_endsWord {tail : List Char} (h : EndsWord tail) {d : Char} (word : isWordRest d) :
    ∀ c ∈ tail.head?, c ≠ d := by
  rintro c hc rfl
  rw [(h c hc).1] at word
  cases word

/-! ## Digits -/

theorem digitCount_le (cs : List Char) : digitCount cs ≤ cs.length :=
  (List.takeWhile_prefix _).length_le

theorem digitCount_append {cs tail : List Char} (h : ∀ c ∈ tail.head?, c.isDigit = false) :
    digitCount (cs ++ tail) = digitCount cs := by
  have stop : tail.takeWhile Char.isDigit = [] := by
    cases tail with
    | nil => rfl
    | cons c tail => simp [h c rfl]
  unfold digitCount
  rw [List.takeWhile_append, stop]
  split
  case isTrue all => rw [List.append_nil, ← all]
  case isFalse => rfl

/-! ## The parts of a number -/

theorem mantissaAt?_point {cs rest : List Char} (behind : cs.drop (digitCount cs) = '.' :: rest) :
    mantissaAt? cs = if digitCount cs = 0 ∧ digitCount rest = 0 then none
      else some (true, digitCount cs + 1 + digitCount rest) := by
  simp [mantissaAt?, behind]

theorem mantissaAt?_plain {cs : List Char}
    (behind : ∀ rest, cs.drop (digitCount cs) ≠ '.' :: rest) :
    mantissaAt? cs = if digitCount cs = 0 then none else some (false, digitCount cs) := by
  unfold mantissaAt?
  dsimp only
  split
  case h_1 rest found => exact absurd found (behind rest)
  case h_2 => rfl

/-- A mantissa is digits with a point and digits behind them, or digits alone. -/
theorem mantissaAt?_cases {cs : List Char} {m : Nat} {point : Bool}
    (h : mantissaAt? cs = some (point, m)) :
    (∃ rest, cs.drop (digitCount cs) = '.' :: rest ∧ point = true
        ∧ m = digitCount cs + 1 + digitCount rest)
      ∨ ((∀ rest, cs.drop (digitCount cs) ≠ '.' :: rest) ∧ digitCount cs ≠ 0 ∧ point = false
        ∧ m = digitCount cs) := by
  by_cases isPoint : ∃ rest, cs.drop (digitCount cs) = '.' :: rest
  case pos =>
    obtain ⟨rest, behind⟩ := isPoint
    rw [mantissaAt?_point behind] at h
    split at h
    · cases h
    · cases h
      exact .inl ⟨rest, behind, rfl, rfl⟩
  case neg =>
    have behind : ∀ rest, cs.drop (digitCount cs) ≠ '.' :: rest := fun rest found =>
      isPoint ⟨rest, found⟩
    rw [mantissaAt?_plain behind] at h
    split at h
    · cases h
    case isFalse some =>
      cases h
      exact .inr ⟨behind, some, rfl, rfl⟩

theorem mantissaAt?_append (cs : List Char) {tail : List Char} (h : EndsWord tail) :
    mantissaAt? (cs ++ tail) = mantissaAt? cs := by
  have noDigit := isDigit_of_endsWord h
  have count : digitCount (cs ++ tail) = digitCount cs := digitCount_append noDigit
  have drop : (cs ++ tail).drop (digitCount (cs ++ tail)) = cs.drop (digitCount cs) ++ tail := by
    rw [count, List.drop_append_of_le_length (digitCount_le cs)]
  by_cases point : ∃ rest, cs.drop (digitCount cs) = '.' :: rest
  case pos =>
    obtain ⟨rest, behind⟩ := point
    rw [behind, List.cons_append] at drop
    rw [mantissaAt?_point behind, mantissaAt?_point drop, count, digitCount_append noDigit]
  case neg =>
    have behind : ∀ rest, cs.drop (digitCount cs) ≠ '.' :: rest := fun rest found =>
      point ⟨rest, found⟩
    rw [mantissaAt?_plain behind, mantissaAt?_plain, count]
    intro rest found
    rw [drop] at found
    cases cut : cs.drop (digitCount cs) with
    | nil =>
      rw [cut, List.nil_append] at found
      exact (h '.' (by rw [found]; rfl)).2 rfl
    | cons c ds =>
      rw [cut] at found
      exact behind ds (by rw [cut, (List.cons.inj found).1])

theorem signLength_le (cs : List Char) : signLength cs ≤ cs.length := by
  unfold signLength
  split <;> simp

theorem signLength_le_one (cs : List Char) : signLength cs ≤ 1 := by
  unfold signLength
  split <;> omega

theorem signLength_append {cs : List Char} (h : cs ≠ []) (tail : List Char) :
    signLength (cs ++ tail) = signLength cs := by
  cases cs with
  | nil => exact absurd rfl h
  | cons c cs => unfold signLength; split <;> simp_all

/-- An exponent that has digits, or a text with none at its head, stays what it is. -/
theorem exponentLength_append {cs tail : List Char} (h : EndsWord tail)
    (complete : cs = [] ∨ exponentLength cs ≠ 0 ∨ ∀ c ∈ cs.head?, ¬ (c = 'e' ∨ c = 'E')) :
    exponentLength (cs ++ tail) = exponentLength cs := by
  cases cs with
  | nil =>
    cases tail with
    | nil => rfl
    | cons c tail =>
      have noMark : ¬ (c = 'e' ∨ c = 'E') := by
        rintro (rfl | rfl)
        · exact ne_of_endsWord h (d := 'e') (by decide) _ rfl rfl
        · exact ne_of_endsWord h (d := 'E') (by decide) _ rfl rfl
      simp [exponentLength, noMark]
  | cons c rest =>
    rw [List.cons_append, exponentLength, exponentLength]
    by_cases mark : c = 'e' ∨ c = 'E'
    case neg => rw [if_neg mark, if_neg mark]
    case pos =>
      have digits : exponentLength (c :: rest) ≠ 0 := by
        rcases complete with empty | digits | noMark
        · cases empty
        · exact digits
        · exact absurd mark (noMark c rfl)
      have filled : rest ≠ [] := by
        rintro rfl
        simp [exponentLength, digitCount] at digits
      have within : signLength rest ≤ rest.length := signLength_le rest
      rw [if_pos mark, if_pos mark, signLength_append filled,
        List.drop_append_of_le_length within, digitCount_append (isDigit_of_endsWord h)]

theorem startsImaginary_append {cs tail : List Char} (h : EndsWord tail) :
    startsImaginary (cs ++ tail) = startsImaginary cs := by
  cases cs with
  | cons c cs => unfold startsImaginary; split <;> simp_all
  | nil =>
    cases tail with
    | nil => rfl
    | cons c tail =>
      have noI := ne_of_endsWord h (d := 'i') (by decide) c rfl
      have noJ := ne_of_endsWord h (d := 'j') (by decide) c rfl
      rw [List.nil_append]
      unfold startsImaginary
      split <;> simp_all

/-! ## The whole number -/

/-- A text that is a number from end to end has a complete exponent or none. -/
theorem exponent_complete (cs : List Char) (m : Nat)
    (h : cs.length ≤ m + exponentLength (cs.drop m)
      ∨ startsImaginary (cs.drop (m + exponentLength (cs.drop m)))) :
    cs.drop m = [] ∨ exponentLength (cs.drop m) ≠ 0
      ∨ ∀ c ∈ (cs.drop m).head?, ¬ (c = 'e' ∨ c = 'E') := by
  by_cases digits : exponentLength (cs.drop m) = 0
  case neg => exact .inr (.inl digits)
  case pos =>
    rw [digits, Nat.add_zero] at h
    rcases h with short | imaginary
    · exact .inl (List.drop_eq_nil_of_le short)
    · refine .inr (.inr ?_)
      intro c hc mark
      cases rest : cs.drop m with
      | nil => simp [rest] at hc
      | cons d ds =>
        rw [rest] at hc imaginary
        obtain rfl : d = c := by simpa using hc
        rcases mark with rfl | rfl <;> cases imaginary

/-- The length of a number is that of its parts. -/
theorem numberAt?_parts {cs : List Char} {kind : NumberKind} {n m : Nat} {point : Bool}
    (h : numberAt? cs = some (kind, n)) (mantissa : mantissaAt? cs = some (point, m)) :
    n = m + exponentLength (cs.drop m)
      + if startsImaginary (cs.drop (m + exponentLength (cs.drop m))) then 1 else 0 := by
  unfold numberAt? at h
  rw [mantissa] at h
  dsimp only at h
  split at h
  case isTrue imaginary =>
    rw [if_pos imaginary]
    exact (Prod.mk.inj (Option.some.inj h)).2.symm
  case isFalse imaginary =>
    rw [if_neg imaginary, Nat.add_zero]
    split at h
    case isTrue => exact (Prod.mk.inj (Option.some.inj h)).2.symm
    case isFalse plain =>
      have none : exponentLength (cs.drop m) = 0 := by
        simp only [Bool.or_eq_true, decide_eq_true_eq, not_or] at plain
        omega
      rw [none]
      exact (Prod.mk.inj (Option.some.inj h)).2.symm

/-- A number from end to end is the longest number in front of the end of a word. -/
theorem numberAt?_append {cs tail : List Char} {kind : NumberKind}
    (h : numberAt? cs = some (kind, cs.length)) (ends : EndsWord tail) :
    numberAt? (cs ++ tail) = some (kind, cs.length) := by
  cases found : mantissaAt? cs with
  | none => simp [numberAt?, found] at h
  | some parts =>
    obtain ⟨point, m⟩ := parts
    have consumed := numberAt?_parts h found
    unfold numberAt? at h ⊢
    rw [mantissaAt?_append cs ends, found]
    rw [found] at h
    dsimp only at h ⊢
    have complete := exponent_complete cs m (by
      by_cases imaginary : startsImaginary (cs.drop (m + exponentLength (cs.drop m)))
      case pos => exact .inr imaginary
      case neg =>
        rw [if_neg imaginary] at consumed
        exact .inl (Nat.le_of_eq consumed))
    have mantissa : (cs ++ tail).drop m = cs.drop m ++ tail :=
      List.drop_append_of_le_length (by omega)
    have exponent : (cs ++ tail).drop (m + exponentLength (cs.drop m))
        = cs.drop (m + exponentLength (cs.drop m)) ++ tail :=
      List.drop_append_of_le_length (by omega)
    rw [mantissa, exponentLength_append ends complete, exponent, startsImaginary_append ends]
    exact h

theorem mantissaAt?_eq_none {cs : List Char} :
    mantissaAt? cs = none
      ↔ digitCount cs = 0 ∧ ∀ places, cs = '.' :: places → digitCount places = 0 := by
  by_cases digits : digitCount cs = 0
  case neg =>
    refine iff_of_false ?_ fun h => digits h.1
    intro none
    unfold mantissaAt? at none
    simp only [digits, false_and, if_false] at none
    split at none <;> cases none
  case pos =>
    by_cases point : ∃ places, cs = '.' :: places
    case pos =>
      obtain ⟨places, rfl⟩ := point
      have behind : ('.' :: places).drop (digitCount ('.' :: places)) = '.' :: places := by
        rw [digits, List.drop_zero]
      rw [mantissaAt?_point behind]
      simp [digits]
    case neg =>
      have behind : ∀ places, cs.drop (digitCount cs) ≠ '.' :: places := by
        rw [digits, List.drop_zero]
        exact fun places found => point ⟨places, found⟩
      rw [mantissaAt?_plain behind, if_pos digits]
      exact iff_of_true rfl ⟨digits, fun places found => absurd ⟨places, found⟩ point⟩

/-- A text starts with no number exactly if it starts with no digit, also not behind a point. -/
theorem numberAt?_eq_none {cs : List Char} :
    numberAt? cs = none
      ↔ digitCount cs = 0 ∧ ∀ places, cs = '.' :: places → digitCount places = 0 := by
  rw [← mantissaAt?_eq_none]
  unfold numberAt?
  cases mantissaAt? cs with
  | none => exact iff_of_true rfl rfl
  | some parts =>
    dsimp only
    refine iff_of_false ?_ (by simp)
    split
    · simp
    · split <;> simp

/-- A number starts with a digit or a point. -/
theorem numberAt?_head {c : Char} {cs : List Char} {found : NumberKind × Nat}
    (h : numberAt? (c :: cs) = some found) : c.isDigit ∨ c = '.' := by
  by_cases digit : c.isDigit
  case pos => exact .inl digit
  case neg =>
    by_cases point : c = '.'
    case pos => exact .inr point
    case neg =>
      have none : mantissaAt? (c :: cs) = none := by
        simp only [mantissaAt?, digitCount, List.takeWhile_cons, digit, Bool.false_eq_true,
          if_false, List.length_nil, List.drop_zero]
        split
        case h_1 found => exact absurd (List.cons.inj found).1 point
        case h_2 => rfl
      simp [numberAt?, none] at h

/-! ## A number on its own -/

theorem digitCount_take : {cs : List Char} → {n : Nat} → digitCount cs ≤ n →
    digitCount (cs.take n) = digitCount cs
  | [], _, _ => by rw [List.take_nil]
  | c :: cs, n, h => by
      by_cases digit : c.isDigit
      case neg => cases n <;> simp [digitCount, digit]
      case pos =>
        have count : ∀ ds, digitCount (c :: ds) = digitCount ds + 1 := by
          intro ds
          simp [digitCount, digit]
        rw [count] at h
        obtain ⟨n, rfl⟩ := Nat.exists_eq_add_one_of_ne_zero (n := n) (by omega)
        rw [List.take_succ_cons, count, count, digitCount_take (Nat.le_of_succ_le_succ h)]

theorem digitCount_le_mantissa {cs : List Char} {m : Nat} {point : Bool}
    (h : mantissaAt? cs = some (point, m)) : digitCount cs ≤ m := by
  obtain ⟨rest, -, -, rfl⟩ | ⟨-, -, -, rfl⟩ := mantissaAt?_cases h
  · omega
  · exact Nat.le_refl _

theorem mantissaAt?_take {cs : List Char} {n m : Nat} {point : Bool}
    (h : mantissaAt? cs = some (point, m)) (le : m ≤ n) :
    mantissaAt? (cs.take n) = some (point, m) := by
  have count : digitCount (cs.take n) = digitCount cs :=
    digitCount_take (Nat.le_trans (digitCount_le_mantissa h) le)
  have drop : (cs.take n).drop (digitCount (cs.take n))
      = (cs.drop (digitCount cs)).take (n - digitCount cs) := by rw [count, List.drop_take]
  obtain ⟨rest, behind, rfl, rfl⟩ | ⟨behind, -, rfl, rfl⟩ := mantissaAt?_cases h
  · have room : n - digitCount cs = (n - digitCount cs - 1) + 1 := by omega
    rw [behind, room, List.take_succ_cons] at drop
    rw [mantissaAt?_point drop, count, digitCount_take (by omega), ← mantissaAt?_point behind]
    exact h
  · rw [mantissaAt?_plain behind] at h
    rw [mantissaAt?_plain, count]
    · exact h
    · intro rest found
      rw [drop] at found
      cases cut : cs.drop (digitCount cs) with
      | nil => rw [cut, List.take_nil] at found; cases found
      | cons c ds =>
        rw [cut] at found
        cases room : n - digitCount cs with
        | zero => rw [room, List.take_zero] at found; cases found
        | succ k =>
          rw [room, List.take_succ_cons] at found
          exact behind ds (by rw [cut, (List.cons.inj found).1])

theorem signLength_take {cs : List Char} {n : Nat} (h : signLength cs ≤ n) :
    signLength (cs.take n) = signLength cs := by
  cases cs with
  | nil => rw [List.take_nil]
  | cons c cs =>
    cases n with
    | zero =>
      have none : signLength (c :: cs) = 0 := by omega
      rw [List.take_zero, none]
      rfl
    | succ n =>
      rw [List.take_succ_cons]
      unfold signLength
      split <;> simp_all

theorem exponentLength_take {cs : List Char} {n : Nat} (h : exponentLength cs ≤ n) :
    exponentLength (cs.take n) = exponentLength cs := by
  cases cs with
  | nil => rw [List.take_nil]
  | cons c rest =>
    cases n with
    | zero => exact (Nat.le_zero.mp h).symm
    | succ n =>
      rw [List.take_succ_cons]
      simp only [exponentLength] at h ⊢
      by_cases mark : c = 'e' ∨ c = 'E'
      case neg => rw [if_neg mark, if_neg mark]
      case pos =>
        rw [if_pos mark] at h
        rw [if_pos mark, if_pos mark]
        cases n with
        | zero =>
          -- the exponent has no digits: not even its mark and one digit fit
          split at h
          case isTrue none =>
            rw [if_pos none]
            simp [digitCount]
          case isFalse => omega
        | succ n =>
          have sign : signLength (rest.take (n + 1)) = signLength rest :=
            signLength_take (Nat.le_trans (signLength_le_one rest) (by omega))
          have digits : digitCount (rest.drop (signLength rest)) ≤ n + 1 - signLength rest := by
            split at h <;> omega
          rw [sign, List.drop_take, digitCount_take digits]

theorem mantissaAt?_le {cs : List Char} {m : Nat} {point : Bool}
    (h : mantissaAt? cs = some (point, m)) : m ≤ cs.length := by
  obtain ⟨rest, behind, -, rfl⟩ | ⟨-, -, -, rfl⟩ := mantissaAt?_cases h
  · have length := congrArg List.length behind
    rw [List.length_drop, List.length_cons] at length
    have places := digitCount_le rest
    omega
  · exact digitCount_le cs

theorem exponentLength_le (cs : List Char) : exponentLength cs ≤ cs.length := by
  cases cs with
  | nil => exact Nat.le_refl _
  | cons c rest =>
    simp only [exponentLength, List.length_cons]
    have sign := signLength_le rest
    have digits := digitCount_le (rest.drop (signLength rest))
    rw [List.length_drop] at digits
    split
    · split <;> omega
    · omega

theorem numberAt?_le {cs : List Char} {kind : NumberKind} {n : Nat}
    (h : numberAt? cs = some (kind, n)) : n ≤ cs.length := by
  cases found : mantissaAt? cs with
  | none => simp [numberAt?, found] at h
  | some parts =>
    obtain ⟨point, m⟩ := parts
    have length := numberAt?_parts h found
    have mantissa := mantissaAt?_le found
    have exponent := exponentLength_le (cs.drop m)
    rw [List.length_drop] at exponent
    split at length
    case isFalse => omega
    case isTrue mark =>
      have inside : m + exponentLength (cs.drop m) < cs.length := by
        refine Nat.lt_of_not_le fun beyond => ?_
        rw [List.drop_eq_nil_of_le beyond] at mark
        cases mark
      omega

theorem startsImaginary_take {cs : List Char} {n : Nat} (h : n ≠ 0) :
    startsImaginary (cs.take n) = startsImaginary cs := by
  obtain ⟨n, rfl⟩ := Nat.exists_eq_add_one_of_ne_zero h
  cases cs with
  | nil => rfl
  | cons c cs =>
    rw [List.take_succ_cons]
    unfold startsImaginary
    split <;> simp_all

/-- A number that is found at the head of a text is found in any part that holds it. -/
theorem numberAt?_take_of_le {cs : List Char} {kind : NumberKind} {n k : Nat}
    (h : numberAt? cs = some (kind, n)) (le : n ≤ k) :
    numberAt? (cs.take k) = some (kind, n) := by
  cases found : mantissaAt? cs with
  | none => simp [numberAt?, found] at h
  | some parts =>
    obtain ⟨point, m⟩ := parts
    have length := numberAt?_parts h found
    have mantissa : mantissaAt? (cs.take k) = some (point, m) := mantissaAt?_take found (by omega)
    have exponent : exponentLength ((cs.take k).drop m) = exponentLength (cs.drop m) := by
      rw [List.drop_take, exponentLength_take (by omega)]
    have imaginary : startsImaginary ((cs.take k).drop (m + exponentLength (cs.drop m)))
        = startsImaginary (cs.drop (m + exponentLength (cs.drop m))) := by
      rw [List.drop_take]
      by_cases inside : k - (m + exponentLength (cs.drop m)) = 0
      case neg => exact startsImaginary_take inside
      case pos =>
        cases mark : startsImaginary (cs.drop (m + exponentLength (cs.drop m))) with
        | false =>
          rw [inside]
          rfl
        | true =>
          rw [if_pos mark] at length
          omega
    unfold numberAt? at h ⊢
    rw [mantissa]
    rw [found] at h
    dsimp only at h ⊢
    rw [exponent, imaginary]
    exact h

/-- A number that is found at the head of a text is a number from end to end. -/
theorem numberAt?_take {cs : List Char} {kind : NumberKind} {n : Nat}
    (h : numberAt? cs = some (kind, n)) : numberAt? (cs.take n) = some (kind, n) :=
  numberAt?_take_of_le h (Nat.le_refl n)

end MatrixScript.Token
