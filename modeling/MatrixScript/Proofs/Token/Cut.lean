/-
# `Proofs.Token.Cut` — a lexeme is found again in another text

The lexer looks behind a lexeme only to see whether it goes on there.  So what
it finds at the head of a text it finds in every part of that text which holds
the lexeme (`lexemeAt_take`), and a token also where a blank, a newline, a comma or
a closing bracket is put behind the part (`lexemeAt_append_blank`).
-/
import MatrixScript.Proofs.Token.Lexeme

namespace MatrixScript.Token

/-! ## Parts of a text -/

theorem takeWhile_take {p : Char → Bool} :
    {cs : List Char} → {n : Nat} → (cs.takeWhile p).length ≤ n →
      (cs.take n).takeWhile p = cs.takeWhile p
  | [], _, _ => by rw [List.take_nil]
  | c :: cs, n, h => by
      by_cases hc : p c
      case neg => cases n <;> simp [hc]
      case pos =>
        rw [List.takeWhile_cons_of_pos hc, List.length_cons] at h
        obtain ⟨n, rfl⟩ := Nat.exists_eq_add_one_of_ne_zero (n := n) (by omega)
        rw [List.take_succ_cons, List.takeWhile_cons_of_pos hc, List.takeWhile_cons_of_pos hc,
          takeWhile_take (Nat.le_of_succ_le_succ h)]

theorem quotedAt?_pos {quote : Char} {cs text : List Char} {n : Nat}
    (h : quotedAt? quote cs = some (text, n)) : 0 < n := by
  unfold quotedAt? at h
  split at h
  case h_1 => cases h
  case h_2 =>
    split at h <;> cases h
    exact Nat.one_pos
  case h_3 =>
    split at h
    · split at h
      · obtain ⟨_, _, same⟩ := Option.map_eq_some_iff.mp h
        cases same
        exact Nat.succ_pos _
      · cases h
        exact Nat.one_pos
    · split at h
      · cases h
      · obtain ⟨_, _, same⟩ := Option.map_eq_some_iff.mp h
        cases same
        exact Nat.succ_pos _

theorem quotedAt?_take {quote : Char} :
    {cs text : List Char} → {n k : Nat} → quotedAt? quote cs = some (text, n) → n ≤ k →
      quotedAt? quote (cs.take k) = some (text, n)
  | [], _, _, _, h, _ => by cases h
  | [c], text, n, k, h, le => by
      have pos := quotedAt?_pos h
      rw [List.take_of_length_le (by simp; omega)]
      exact h
  | c :: d :: rest, text, n, k, h, le => by
      have pos := quotedAt?_pos h
      obtain ⟨k, rfl⟩ := Nat.exists_eq_add_one_of_ne_zero (n := k) (by omega)
      unfold quotedAt? at h
      split at h
      case isTrue closes =>
        split at h
        case isTrue doubled =>
          obtain ⟨⟨later, m⟩, read, same⟩ := Option.map_eq_some_iff.mp h
          cases same
          obtain ⟨k, rfl⟩ := Nat.exists_eq_add_one_of_ne_zero (n := k) (by omega)
          rw [List.take_succ_cons, List.take_succ_cons, quotedAt?, if_pos closes, if_pos doubled,
            quotedAt?_take read (by omega)]
          rfl
        case isFalse single =>
          cases h
          cases k with
          | zero => simp [quotedAt?, closes]
          | succ k => simp [quotedAt?, closes, single]
      case isFalse inner =>
        split at h
        case isTrue => cases h
        case isFalse line =>
          obtain ⟨⟨later, m⟩, read, same⟩ := Option.map_eq_some_iff.mp h
          cases same
          have some := quotedAt?_pos read
          have part := quotedAt?_take read (k := k) (by omega)
          obtain ⟨k, rfl⟩ := Nat.exists_eq_add_one_of_ne_zero (n := k) (by omega)
          rw [List.take_succ_cons] at part
          rw [List.take_succ_cons, List.take_succ_cons, quotedAt?, if_neg inner, if_neg line, part]
          rfl

theorem continuationAt?_take {cs : List Char} {more k : Nat}
    (h : continuationAt? cs = some more) (le : more ≤ k) :
    continuationAt? (cs.take k) = some more := by
  unfold continuationAt? at h
  split at h
  case h_2 => cases h
  case h_1 rest =>
    have length := Option.some.inj h
    obtain ⟨k, rfl⟩ := Nat.exists_eq_add_of_le (m := 2) (n := k) (by omega)
    have line : restOfLine (rest.take k) = restOfLine rest :=
      takeWhile_take (by unfold restOfLine at length; omega)
    rw [Nat.add_comm, List.take_succ_cons, List.take_succ_cons, continuationAt?, line,
      List.length_take, ← length]
    split at length
    case isTrue inside => rw [if_pos inside, if_pos (by omega)]
    case isFalse outside => rw [if_neg outside, if_neg (by omega)]

/-! ## What the lexer finds in a part -/

/-- The lexeme takes `more` characters behind the first. -/
def Lexeme.Takes (more : Nat) : Lexeme → Prop
  | .gap n | .token _ n => n = more
  | .invalid _ | .unterminated => False

theorem doubleQuotedAt_take {rest : List Char} {more k : Nat}
    (takes : (doubleQuotedAt rest).Takes more) (le : more ≤ k) :
    doubleQuotedAt (rest.take k) = doubleQuotedAt rest := by
  unfold doubleQuotedAt at takes ⊢
  cases read : quotedAt? '\x22' rest with
  | none =>
    rw [read] at takes
    cases takes
  | some found =>
    rw [read] at takes
    cases takes
    rw [quotedAt?_take read le]

theorem quoteAt_take {after : Bool} {rest : List Char} {more k : Nat}
    (takes : (quoteAt after rest).Takes more) (le : more ≤ k) :
    quoteAt after (rest.take k) = quoteAt after rest := by
  unfold quoteAt at takes ⊢
  cases after with
  | true => rfl
  | false =>
    cases read : quotedAt? '\x27' rest with
    | none =>
      rw [read] at takes
      cases takes
    | some found =>
      rw [read] at takes
      cases takes
      rw [quotedAt?_take read le]

theorem pairOr_take {d : Char} {double single : Token} {rest : List Char} {more k : Nat}
    (takes : (pairOr d double single rest).Takes more) (le : more ≤ k) :
    pairOr d double single (rest.take k) = pairOr d double single rest := by
  cases rest with
  | nil => rw [List.take_nil]
  | cons c rest =>
    cases k with
    | succ k => rfl
    | zero =>
      by_cases same : c = d
      case pos =>
        rw [pairOr, if_pos same] at takes
        cases takes
        cases le
      case neg => rw [List.take_zero, pairOr, pairOr, if_neg same]

theorem symbolAt_take {c : Char} {rest : List Char} {more k : Nat}
    (takes : (symbolAt c rest).Takes more) (le : more ≤ k) :
    symbolAt c (rest.take k) = symbolAt c rest := by
  unfold symbolAt at takes ⊢
  split <;> first | rfl | exact pairOr_take takes le

/-- A point that starts no operator starts a continuation or nothing. -/
theorem dottedAt_plain {d : Char} (h : ¬ (d = '*' ∨ d = '/' ∨ d = '\\' ∨ d = '^' ∨ d = '\x27'))
    (rest : List Char) :
    dottedAt (d :: rest) = match continuationAt? (d :: rest) with
      | some more => .gap more
      | none => .invalid 0 := by
  simp only [not_or] at h
  unfold dottedAt
  split
  case h_6 => rfl
  all_goals simp_all

theorem dottedAt_take {rest : List Char} {more k : Nat}
    (takes : (dottedAt rest).Takes more) (le : more ≤ k) :
    dottedAt (rest.take k) = dottedAt rest := by
  cases rest with
  | nil => rw [List.take_nil]
  | cons d rest =>
    by_cases operator : d = '*' ∨ d = '/' ∨ d = '\\' ∨ d = '^' ∨ d = '\x27'
    case pos =>
      rcases operator with rfl | rfl | rfl | rfl | rfl <;> cases takes <;>
        (obtain ⟨k, rfl⟩ := Nat.exists_eq_add_one_of_ne_zero (n := k) (by omega); rfl)
    case neg =>
      rw [dottedAt_plain operator] at takes
      cases found : continuationAt? (d :: rest) with
      | none =>
        rw [found] at takes
        cases takes
      | some n =>
        rw [found] at takes
        cases takes
        have part := continuationAt?_take found le
        cases k with
        | zero => cases part
        | succ k =>
          rw [List.take_succ_cons] at part ⊢
          rw [dottedAt_plain operator, dottedAt_plain operator, found, part]

/-- Without a number at its head the text has none in any part either. -/
theorem numberAt?_take_none {cs : List Char} (h : numberAt? cs = none) (k : Nat) :
    numberAt? (cs.take k) = none := by
  obtain ⟨count, point⟩ := numberAt?_eq_none.mp h
  refine numberAt?_eq_none.mpr ⟨?_, ?_⟩
  · rw [digitCount_take (by omega), count]
  · intro places found
    cases cs with
    | nil =>
      rw [List.take_nil] at found
      cases found
    | cons c rest =>
      cases k with
      | zero => cases found
      | succ k =>
        rw [List.take_succ_cons] at found
        obtain ⟨rfl, rfl⟩ := List.cons.inj found
        have none := point rest rfl
        rw [digitCount_take (by omega), none]

/-- A number, or else a symbol. -/
def numberOr (c : Char) (rest : List Char) : Lexeme :=
  match numberAt? (c :: rest) with
  | some (kind, n) => .token (ofNumber kind (String.ofList ((c :: rest).take n))) (n - 1)
  | none => if c = '.' then dottedAt rest else symbolAt c rest

/-- What the head of a text can be, by its first character. -/
theorem lexemeAt_cases (after : Bool) (c : Char) :
    (isGap c ∧ ∀ rest, lexemeAt after c rest = .gap 0)
      ∨ (c = '%' ∧ ∀ rest, lexemeAt after c rest = .gap (restOfLine rest).length)
      ∨ (isWordStart c ∧ ∀ rest, lexemeAt after c rest = wordAt c rest)
      ∨ (c = '\x22' ∧ ∀ rest, lexemeAt after c rest = doubleQuotedAt rest)
      ∨ (c = '\x27' ∧ ∀ rest, lexemeAt after c rest = quoteAt after rest)
      ∨ (isGap c = false ∧ c ≠ '%' ∧ ∀ rest, lexemeAt after c rest = numberOr c rest) := by
  by_cases gap : isGap c
  · exact .inl ⟨gap, fun rest => by simp only [lexemeAt, gap, if_true]⟩
  have gap : isGap c = false := Bool.eq_false_iff.mpr gap
  by_cases comment : c = '%'
  · refine .inr (.inl ⟨comment, fun rest => ?_⟩)
    subst comment
    rfl
  by_cases start : isWordStart c
  · refine .inr (.inr (.inl ⟨start, fun rest => ?_⟩))
    simp only [lexemeAt, gap, comment, start, if_true, Bool.false_eq_true, if_false]
  by_cases double : c = '\x22'
  · refine .inr (.inr (.inr (.inl ⟨double, fun rest => ?_⟩)))
    subst double
    rfl
  by_cases single : c = '\x27'
  · refine .inr (.inr (.inr (.inr (.inl ⟨single, fun rest => ?_⟩))))
    subst single
    rfl
  refine .inr (.inr (.inr (.inr (.inr ⟨gap, comment, fun rest => ?_⟩))))
  simp only [lexemeAt, gap, comment, start, double, single, Bool.false_eq_true, if_false]
  rfl

theorem numberOr_take {c : Char} {rest : List Char} {more k : Nat}
    (takes : (numberOr c rest).Takes more) (le : more ≤ k) :
    numberOr c (rest.take k) = numberOr c rest := by
  unfold numberOr at takes ⊢
  rw [← List.take_succ_cons]
  cases found : numberAt? (c :: rest) with
  | some number =>
    obtain ⟨kind, n⟩ := number
    rw [found] at takes
    cases takes
    rw [numberAt?_take_of_le found (by omega)]
    dsimp only
    rw [List.take_take, Nat.min_eq_left (by omega)]
  | none =>
    rw [found] at takes
    rw [numberAt?_take_none found]
    dsimp only at takes ⊢
    split
    case isTrue point =>
      rw [if_pos point] at takes
      exact dottedAt_take takes le
    case isFalse point =>
      rw [if_neg point] at takes
      exact symbolAt_take takes le

/-- What is found at the head of a text is found in any part that holds it. -/
theorem lexemeAt_take {after : Bool} {c : Char} {rest : List Char} {more k : Nat}
    (takes : (lexemeAt after c rest).Takes more) (le : more ≤ k) :
    lexemeAt after c (rest.take k) = lexemeAt after c rest := by
  obtain ⟨-, head⟩ | ⟨-, head⟩ | ⟨-, head⟩ | ⟨-, head⟩ | ⟨-, head⟩ | ⟨-, -, head⟩ :=
    lexemeAt_cases after c <;> rw [head] at takes <;> rw [head, head]
  case inr.inl =>
    cases takes
    unfold restOfLine at le ⊢
    rw [takeWhile_take le]
  case inr.inr.inl =>
    cases takes
    unfold wordAt
    rw [takeWhile_take le]
  case inr.inr.inr.inl => exact doubleQuotedAt_take takes le
  case inr.inr.inr.inr.inl => exact quoteAt_take takes le
  case inr.inr.inr.inr.inr => exact numberOr_take takes le

/-! ## A blank, a newline, a comma or a closing bracket behind the text -/

/-- The text is empty or starts with a character that no token in front of it goes on with. -/
def Quiet (tail : List Char) : Prop := ∀ c ∈ tail.head?, c = ' ' ∨ c = '\n' ∨ c = ',' ∨ c = ']'

theorem quiet_nil : Quiet [] := by simp [Quiet]

theorem quiet_blank (tail : List Char) : Quiet (' ' :: tail) := by simp [Quiet]

theorem quiet_line (tail : List Char) : Quiet ('\n' :: tail) := by simp [Quiet]

theorem quiet_comma (tail : List Char) : Quiet (',' :: tail) := by simp [Quiet]

theorem quiet_bracket (tail : List Char) : Quiet (']' :: tail) := by simp [Quiet]

section Quiet

variable {tail : List Char} (quiet : Quiet tail)
include quiet

theorem Quiet.endsWord : EndsWord tail := by
  intro c hc
  rcases quiet c hc with rfl | rfl | rfl | rfl <;> decide

theorem Quiet.noHead {d : Char} (h : ¬(d = ' ' ∨ d = '\n' ∨ d = ',' ∨ d = ']')) :
    NoHead d tail := by
  rintro c hc rfl
  exact h (quiet c hc)

theorem takeWhile_append_quiet {p : Char → Bool}
    (h : p ' ' = false ∧ p '\n' = false ∧ p ',' = false ∧ p ']' = false)
    (cs : List Char) : (cs ++ tail).takeWhile p = cs.takeWhile p := by
  have none : tail.takeWhile p = [] := by
    cases tail with
    | nil => rfl
    | cons c tail =>
      rcases quiet c rfl with rfl | rfl | rfl | rfl <;> simp [h]
  rw [List.takeWhile_append, none]
  split
  case isTrue all =>
    rw [List.append_nil]
    exact ((List.takeWhile_prefix p).eq_of_length all).symm
  case isFalse => rfl

theorem exponentLength_append_quiet (cs : List Char) :
    exponentLength (cs ++ tail) = exponentLength cs := by
  cases cs with
  | nil => exact exponentLength_append quiet.endsWord (.inl rfl)
  | cons c rest =>
    rw [List.cons_append, exponentLength, exponentLength]
    cases rest with
    | nil =>
      have sign : signLength tail = 0 := by
        unfold signLength
        split <;> first | rfl | exact absurd (quiet _ rfl) (by decide)
      have digits : digitCount tail = 0 := by
        have none : digitCount ([] ++ tail) = digitCount [] :=
          digitCount_append (isDigit_of_endsWord quiet.endsWord)
        exact none
      simp only [List.nil_append, sign, List.drop_zero, digits, if_true]
      rfl
    | cons d rest =>
      rw [signLength_append (List.cons_ne_nil d rest),
        List.drop_append_of_le_length (signLength_le _),
        digitCount_append (isDigit_of_endsWord quiet.endsWord)]

theorem numberAt?_append_quiet (cs : List Char) : numberAt? (cs ++ tail) = numberAt? cs := by
  unfold numberAt?
  rw [mantissaAt?_append cs quiet.endsWord]
  cases found : mantissaAt? cs with
  | none => rfl
  | some parts =>
    obtain ⟨point, m⟩ := parts
    have mantissa : m ≤ cs.length := mantissaAt?_le found
    have exponent := exponentLength_le (cs.drop m)
    rw [List.length_drop] at exponent
    dsimp only
    rw [List.drop_append_of_le_length mantissa, exponentLength_append_quiet quiet,
      List.drop_append_of_le_length (by omega), startsImaginary_append quiet.endsWord]

theorem quotedAt?_append_quiet {quote : Char}
    (h : ¬(quote = ' ' ∨ quote = '\n' ∨ quote = ',' ∨ quote = ']')) :
    {cs text : List Char} → {n : Nat} → quotedAt? quote cs = some (text, n) →
      quotedAt? quote (cs ++ tail) = some (text, n)
  | [], _, _, found => by cases found
  | [c], text, n, found => by
      unfold quotedAt? at found
      split at found
      case isFalse => cases found
      case isTrue closes =>
        cases tail with
        | nil => simpa [quotedAt?, closes] using found
        | cons d tail =>
          have other : d ≠ quote := quiet.noHead h d rfl
          simpa [quotedAt?, closes, other] using found
  | c :: d :: rest, text, n, found => by
      unfold quotedAt? at found
      rw [List.cons_append, List.cons_append, quotedAt?]
      split at found
      case isTrue closes =>
        rw [if_pos closes]
        split at found
        case isTrue doubled =>
          obtain ⟨⟨later, m⟩, read, same⟩ := Option.map_eq_some_iff.mp found
          cases same
          rw [if_pos doubled, quotedAt?_append_quiet h read]
          rfl
        case isFalse single => rw [if_neg single, found]
      case isFalse inner =>
        rw [if_neg inner]
        split at found
        case isTrue => cases found
        case isFalse line =>
          obtain ⟨⟨later, m⟩, read, same⟩ := Option.map_eq_some_iff.mp found
          cases same
          have whole := quotedAt?_append_quiet h read
          rw [List.cons_append] at whole
          rw [if_neg line, whole]
          rfl

theorem doubleQuotedAt_append_quiet {rest : List Char} {t : Token} {more : Nat}
    (found : doubleQuotedAt rest = .token t more) :
    doubleQuotedAt (rest ++ tail) = .token t more := by
  unfold doubleQuotedAt at found ⊢
  split at found
  case h_1 text n read =>
    rw [quotedAt?_append_quiet quiet (by decide) read]
    exact found
  case h_2 => cases found

theorem quoteAt_append_quiet {after : Bool} {rest : List Char} {t : Token} {more : Nat}
    (found : quoteAt after rest = .token t more) :
    quoteAt after (rest ++ tail) = .token t more := by
  unfold quoteAt at found ⊢
  split at found
  case isTrue transposes => rw [if_pos transposes, found]
  case isFalse opens =>
    rw [if_neg opens]
    split at found
    case h_1 text n read =>
      rw [quotedAt?_append_quiet quiet (by decide) read]
      exact found
    case h_2 => cases found

theorem symbolAt_append_quiet (c : Char) (rest : List Char) :
    symbolAt c (rest ++ tail) = symbolAt c rest := by
  have pair : ∀ d double single, ¬(d = ' ' ∨ d = '\n' ∨ d = ',' ∨ d = ']') →
      pairOr d double single (rest ++ tail) = pairOr d double single rest := by
    intro d double single other
    cases rest with
    | nil => exact pairOr_of_noHead (quiet.noHead other)
    | cons => rfl
  unfold symbolAt
  split <;> first | rfl | exact pair _ _ _ (by decide)

omit quiet in
theorem dottedAt_append {rest : List Char} {t : Token} {more : Nat}
    (found : dottedAt rest = .token t more) : dottedAt (rest ++ tail) = .token t more := by
  cases rest with
  | nil => cases found
  | cons d rest =>
    by_cases operator : d = '*' ∨ d = '/' ∨ d = '\\' ∨ d = '^' ∨ d = '\x27'
    case pos =>
      rcases operator with rfl | rfl | rfl | rfl | rfl <;> exact found
    case neg =>
      rw [dottedAt_plain operator] at found
      split at found <;> cases found

theorem numberOr_append_quiet {c : Char} {rest : List Char} {t : Token} {more : Nat}
    (found : numberOr c rest = .token t more) : numberOr c (rest ++ tail) = .token t more := by
  unfold numberOr at found ⊢
  rw [← List.cons_append, numberAt?_append_quiet quiet]
  cases number : numberAt? (c :: rest) with
  | some parts =>
    obtain ⟨kind, n⟩ := parts
    rw [number] at found
    dsimp only at found ⊢
    rw [List.take_append_of_le_length (numberAt?_le number)]
    exact found
  | none =>
    rw [number] at found
    dsimp only at found ⊢
    split at found
    case isTrue point =>
      rw [if_pos point]
      exact dottedAt_append found
    case isFalse point =>
      rw [if_neg point, symbolAt_append_quiet quiet]
      exact found

/-- A token that is found in a text is found in front of what ends it behind that text. -/
theorem lexemeAt_append_blank {after : Bool} {c : Char} {rest : List Char} {t : Token}
    {more : Nat} (found : lexemeAt after c rest = .token t more) :
    lexemeAt after c (rest ++ tail) = .token t more := by
  obtain ⟨-, head⟩ | ⟨-, head⟩ | ⟨-, head⟩ | ⟨-, head⟩ | ⟨-, head⟩ | ⟨-, -, head⟩ :=
    lexemeAt_cases after c <;> rw [head] at found <;> rw [head]
  case inl => cases found
  case inr.inl => cases found
  case inr.inr.inl =>
    unfold wordAt at found ⊢
    rw [takeWhile_append_quiet quiet (by decide)]
    exact found
  case inr.inr.inr.inl => exact doubleQuotedAt_append_quiet quiet found
  case inr.inr.inr.inr.inl => exact quoteAt_append_quiet quiet found
  case inr.inr.inr.inr.inr => exact numberOr_append_quiet quiet found

end Quiet

end MatrixScript.Token
