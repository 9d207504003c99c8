/-
# `Proofs.Token.Lexeme` — the lexer finds a token that is spelled out

`Token.Stops` says what may stand right behind a token so that the lexer ends
it there, `Token.Spelled` that the text a token carries is a token of its kind.
Under these two the head of the text is that token (`lexes`).
-/
import Mathlib
import MatrixScript.Proofs.Program.Printer
import MatrixScript.Proofs.Token.Number

namespace MatrixScript

/-- The text that the token carries is a token of its kind. -/
def Token.Spelled : Token → Prop
  | .ident x => isName x
  | .int s => LiteralKind.int.spells s
  | .float s => LiteralKind.float.spells s
  | .imag s => LiteralKind.imag.spells s
  | .str s => LiteralKind.str.spells s
  | _ => True

namespace Token

/-- The text does not start with the character `d`. -/
def NoHead (d : Char) (tail : List Char) : Prop := ∀ c ∈ tail.head?, c ≠ d

/-- The lexer ends the token in front of this text. -/
def Stops : Token → List Char → Prop
  | .ident _, tail | .int _, tail | .float _, tail | .imag _, tail => EndsWord tail
  | .function, tail | .last, tail | .ret, tail | .brk, tail => EndsWord tail
  | .str _, tail => NoHead '\x22' tail
  | .equals, tail | .less, tail | .greater, tail | .tilde, tail => NoHead '=' tail
  | .amp, tail => NoHead '&' tail
  | .pipe, tail => NoHead '|' tail
  | _, _ => True

/-- Spelled out in front of `tail`, the token is what the lexer finds; `after` says
that a value ends right before it. -/
def Lexes (t : Token) (after : Bool) (tail : List Char) : Prop :=
  ∃ c cs, t.spelling = c :: cs ∧ lexemeAt after c (cs ++ tail) = .token t cs.length

/-! ## Words -/

theorem isGap_of_isWordStart {c : Char} (h : isWordStart c) : isGap c = false := by
  cases gap : isGap c with
  | false => rfl
  | true =>
    simp only [isGap, Bool.or_eq_true, beq_iff_eq] at gap
    rcases gap with (rfl | rfl) | rfl <;> cases h

theorem ne_percent_of_isWordStart {c : Char} (h : isWordStart c) : c ≠ '%' := by
  rintro rfl
  cases h

theorem takeWhile_append_of_stop {p : Char → Bool} {cs tail : List Char} (all : cs.all p)
    (stop : ∀ c ∈ tail.head?, p c = false) : (cs ++ tail).takeWhile p = cs := by
  have none : tail.takeWhile p = [] := by
    cases tail with
    | nil => rfl
    | cons c tail => simp [stop c rfl]
  rw [List.takeWhile_append_of_pos (by simpa using all), none, List.append_nil]

theorem lexemeAt_word {c : Char} {cs tail : List Char} (after : Bool) (start : isWordStart c)
    (rest : cs.all isWordRest) (ends : EndsWord tail) :
    lexemeAt after c (cs ++ tail) = .token (ofWord (String.ofList (c :: cs))) cs.length := by
  have more : (cs ++ tail).takeWhile isWordRest = cs :=
    takeWhile_append_of_stop rest fun d hd => (ends d hd).1
  rw [lexemeAt, isGap_of_isWordStart start, if_neg Bool.false_ne_true,
    if_neg (ne_percent_of_isWordStart start), if_pos start, wordAt, more]

theorem lexes_ident {x : String} (name : isName x) (after : Bool) {tail : List Char}
    (ends : EndsWord tail) : Lexes (.ident x) after tail := by
  unfold isName at name
  cases letters : x.toList with
  | nil => simp [letters] at name
  | cons c cs =>
    rw [letters] at name
    simp only [Bool.and_eq_true, beq_iff_eq] at name
    obtain ⟨⟨start, rest⟩, word⟩ := name
    refine ⟨c, cs, letters, ?_⟩
    rw [lexemeAt_word after start rest ends, ← letters, String.ofList_toList, word]

theorem lexes_keyword {t : Token} (c : Char) (cs : List Char) (spelling : t.spelling = c :: cs)
    (start : isWordStart c) (rest : cs.all isWordRest)
    (word : ofWord (String.ofList (c :: cs)) = t) (after : Bool) {tail : List Char}
    (ends : EndsWord tail) : Lexes t after tail :=
  ⟨c, cs, spelling, by rw [lexemeAt_word after start rest ends, word]⟩

/-! ## Numbers and strings -/

theorem isAlpha_of_isDigit {c : Char} (h : c.isDigit) : c.isAlpha = false := by
  simp only [Char.isAlpha, Char.isUpper, Char.isLower, Char.isDigit, ge_iff_le,
    Bool.or_eq_false_iff, Bool.and_eq_false_iff, Bool.and_eq_true, decide_eq_true_eq,
    decide_eq_false_iff_not, UInt32.le_iff_toNat_le] at *
  simp at *
  omega

/-- No word starts where a number starts. -/
theorem isWordStart_of_number {c : Char} (h : c.isDigit ∨ c = '.') : isWordStart c = false := by
  rcases h with digit | rfl
  · have noLine : c ≠ '_' := by
      rintro rfl
      cases digit
    simp [isWordStart, isAlpha_of_isDigit digit, noLine]
  · rfl

theorem lexemeAt_number {c : Char} {cs tail : List Char} {kind : NumberKind} (after : Bool)
    (number : numberAt? (c :: cs) = some (kind, (c :: cs).length)) (ends : EndsWord tail) :
    lexemeAt after c (cs ++ tail) = .token (ofNumber kind (String.ofList (c :: cs))) cs.length := by
  have found : numberAt? (c :: (cs ++ tail)) = some (kind, (c :: cs).length) :=
    numberAt?_append number ends
  have head : c.isDigit ∨ c = '.' := numberAt?_head number
  have noGap : isGap c = false := by
    cases gap : isGap c with
    | false => rfl
    | true =>
      simp only [isGap, Bool.or_eq_true, beq_iff_eq] at gap
      rcases gap with (rfl | rfl) | rfl <;> rcases head with head | head <;> cases head
  have others : c ≠ '%' ∧ c ≠ '\x22' ∧ c ≠ '\x27' := by
    refine ⟨?_, ?_, ?_⟩ <;> rintro rfl <;> rcases head with head | head <;> cases head
  have taken : (c :: (cs ++ tail)).take (cs.length + 1) = c :: cs := by
    rw [← List.cons_append, ← List.length_cons, List.take_left]
  simp only [lexemeAt, noGap, isWordStart_of_number head, others, found, taken, Bool.false_eq_true,
    if_false, List.length_cons, Nat.add_sub_cancel]

/-- The kind of a number and the kind of its literal. -/
theorem lexes_number {s : String} {kind : NumberKind}
    (number : numberAt? s.toList = some (kind, s.toList.length)) {t : Token}
    (spelling : t.spelling = s.toList) (same : ofNumber kind s = t) (after : Bool)
    {tail : List Char} (ends : EndsWord tail) : Lexes t after tail := by
  cases letters : s.toList with
  | nil =>
    rw [letters] at number
    cases number
  | cons c cs =>
    rw [letters] at number
    refine ⟨c, cs, by rw [spelling, letters], ?_⟩
    rw [lexemeAt_number after number ends, ← letters, String.ofList_toList, same]

/-- A string in double quotes is read back without them. -/
theorem quotedAt?_doubled {tail : List Char} (stop : NoHead '\x22' tail) :
    (cs : List Char) → cs.all (· != '\n') →
      quotedAt? '\x22' (doubled cs ++ '\x22' :: tail) = some (cs, (doubled cs).length + 1)
  | [], _ => by
      cases tail with
      | nil => rfl
      | cons d tail =>
        have noQuote : d ≠ '\x22' := stop d rfl
        simp [doubled, quotedAt?, noQuote]
  | c :: cs, line => by
      have line' : c ≠ '\n' ∧ cs.all (· != '\n') := by simpa using line
      have later := quotedAt?_doubled stop cs line'.2
      by_cases quote : c = '\x22'
      case pos =>
        subst quote
        simp only [doubled, if_true, List.cons_append, quotedAt?, later, Option.map_some,
          List.length_cons]
      case neg =>
        simp only [doubled, quote, if_false, List.cons_append, List.length_cons]
        cases behind : doubled cs ++ '\x22' :: tail with
        | nil => simp at behind
        | cons d rest =>
          rw [behind] at later
          simp only [quotedAt?, quote, line'.1, if_false, later, Option.map_some]

theorem lexes_str {s : String} (line : LiteralKind.str.spells s) (after : Bool)
    {tail : List Char} (stop : NoHead '\x22' tail) : Lexes (.str s) after tail := by
  refine ⟨'\x22', doubled s.toList ++ ['\x22'], rfl, ?_⟩
  have read := quotedAt?_doubled stop s.toList line
  rw [List.append_assoc, List.singleton_append]
  show doubleQuotedAt _ = _
  simp [doubleQuotedAt, read]

/-! ## Symbols -/

/-- No gap, word, string or number starts with the character. -/
def isSymbol (c : Char) : Bool :=
  !isGap c && c != '%' && !isWordStart c && c != '\x22' && c != '\x27' && !c.isDigit && c != '.'

theorem numberAt?_of_no_head {c : Char} {cs : List Char} (digit : c.isDigit = false)
    (point : c ≠ '.') : numberAt? (c :: cs) = none := by
  cases found : numberAt? (c :: cs) with
  | none => rfl
  | some number =>
    rcases numberAt?_head found with head | head
    · rw [digit] at head
      cases head
    · exact absurd head point

theorem lexemeAt_symbol {c : Char} (h : isSymbol c) (after : Bool) (rest : List Char) :
    lexemeAt after c rest = symbolAt c rest := by
  simp only [isSymbol, Bool.and_eq_true, Bool.not_eq_true', bne_iff_ne] at h
  obtain ⟨⟨⟨⟨⟨⟨gap, percent⟩, word⟩, double⟩, single⟩, digit⟩, point⟩ := h
  simp only [lexemeAt, gap, percent, word, double, single, numberAt?_of_no_head digit point, point,
    Bool.false_eq_true, if_false]

theorem pairOr_of_noHead {d : Char} {double single : Token} {tail : List Char}
    (h : NoHead d tail) : pairOr d double single tail = .token single 0 := by
  cases tail with
  | nil => rfl
  | cons c tail => simp [pairOr, h c rfl]

/-- A symbol of one character. -/
theorem lexes_single {t : Token} {c : Char} (spelling : t.spelling = [c]) (symbol : isSymbol c)
    (after : Bool) {tail : List Char} (found : symbolAt c tail = .token t 0) :
    Lexes t after tail :=
  ⟨c, [], spelling, by rw [List.nil_append, lexemeAt_symbol symbol, found]; rfl⟩

/-- A symbol of two characters. -/
theorem lexes_double {t : Token} {c d : Char} (spelling : t.spelling = [c, d])
    (symbol : isSymbol c) (after : Bool) {tail : List Char}
    (found : symbolAt c (d :: tail) = .token t 1) : Lexes t after tail :=
  ⟨c, [d], spelling, by rw [List.singleton_append, lexemeAt_symbol symbol, found]; rfl⟩

/-- A point starts a number or an element-wise operator. -/
theorem lexemeAt_point (after : Bool) (rest : List Char) : lexemeAt after '.' rest
    = match numberAt? ('.' :: rest) with
      | some (kind, n) => .token (ofNumber kind (String.ofList (('.' :: rest).take n))) (n - 1)
      | none => dottedAt rest := rfl

/-- An operator that starts with a point. -/
theorem lexes_dotted {t : Token} {d : Char} (spelling : t.spelling = ['.', d])
    (digit : d.isDigit = false) (after : Bool) {tail : List Char}
    (found : dottedAt (d :: tail) = .token t 1) : Lexes t after tail := by
  have noNumber : numberAt? ('.' :: d :: tail) = none := by
    simp [numberAt?, mantissaAt?, digitCount, digit]
  refine ⟨'.', [d], spelling, ?_⟩
  rw [lexemeAt_point, List.cons_append, List.nil_append, noNumber]
  exact found

theorem lexes {t : Token} (spelled : t.Spelled) {after : Bool}
    (transposes : t = .apostrophe → after = true) {tail : List Char} (stops : t.Stops tail) :
    Lexes t after tail := by
  cases t with
  | ident x => exact lexes_ident spelled after stops
  | int s => exact lexes_number (by simpa [Spelled, LiteralKind.spells] using spelled) rfl rfl after stops
  | float s => exact lexes_number (by simpa [Spelled, LiteralKind.spells] using spelled) rfl rfl after stops
  | imag s => exact lexes_number (by simpa [Spelled, LiteralKind.spells] using spelled) rfl rfl after stops
  | str s => exact lexes_str spelled after stops
  | function => exact lexes_keyword 'f' ['u', 'n', 'c', 't', 'i', 'o', 'n'] rfl rfl rfl rfl after stops
  | last => exact lexes_keyword 'e' ['n', 'd'] rfl rfl rfl rfl after stops
  | ret => exact lexes_keyword 'r' ['e', 't', 'u', 'r', 'n'] rfl rfl rfl rfl after stops
  | brk => exact lexes_keyword 'b' ['r', 'e', 'a', 'k'] rfl rfl rfl rfl after stops
  | equals => exact lexes_single (c := '=') rfl rfl after (pairOr_of_noHead stops)
  | less => exact lexes_single (c := '<') rfl rfl after (pairOr_of_noHead stops)
  | greater => exact lexes_single (c := '>') rfl rfl after (pairOr_of_noHead stops)
  | tilde => exact lexes_single (c := '~') rfl rfl after (pairOr_of_noHead stops)
  | amp => exact lexes_single (c := '&') rfl rfl after (pairOr_of_noHead stops)
  | pipe => exact lexes_single (c := '|') rfl rfl after (pairOr_of_noHead stops)
  | eqEq => exact lexes_double (c := '=') rfl rfl after rfl
  | notEq => exact lexes_double (c := '~') rfl rfl after rfl
  | lessEq => exact lexes_double (c := '<') rfl rfl after rfl
  | greaterEq => exact lexes_double (c := '>') rfl rfl after rfl
  | ampAmp => exact lexes_double (c := '&') rfl rfl after rfl
  | pipePipe => exact lexes_double (c := '|') rfl rfl after rfl
  | dotStar | dotSlash | dotBackslash | dotCaret | dotApostrophe =>
    exact lexes_dotted rfl rfl after rfl
  | apostrophe =>
    refine ⟨'\x27', [], rfl, ?_⟩
    rw [transposes rfl]
    rfl
  | plus | minus | star | slash | backslash | caret | leftParen | rightParen | leftBracket
  | rightBracket | leftBrace | rightBrace | comma | semicolon | colon | newline =>
    exact lexes_single rfl rfl after rfl

end Token

end MatrixScript
