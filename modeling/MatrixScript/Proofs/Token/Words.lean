/-
# `Proofs.Token.Words` — the lexer reads words back

A list of words is lexical if each token is spelled as its kind demands and
stands so that the one in front of it ends: behind a blank, or as a token that
cuts any other (a bracket, a comma, a newline), or right behind one that lets
anything follow.  The tokens of a lexical list's text are its words
(`tokensFrom_words`).
-/
import MatrixScript.Proofs.Token.Lexeme

namespace MatrixScript

namespace Token

/-- No token goes on with the first character of this one. -/
def cuts : Token → Bool
  | .leftParen | .rightParen | .leftBracket | .rightBracket | .leftBrace | .rightBrace
  | .comma | .semicolon | .apostrophe | .newline => true
  | _ => false

/-- Whatever follows this token, unless an equals sign, is no part of it. -/
def loose : Token → Bool
  | .leftParen | .leftBracket | .leftBrace | .comma | .semicolon | .minus | .tilde
  | .newline => true
  | _ => false

end Token

/-- A token and whether a blank stands in front of it. -/
def Spanned.look (w : Spanned) : Token × Bool := (w.token, w.spaced)

/-- The word can stand behind the token `previous`, or at the start of a text. -/
def Spanned.Follows (previous : Option Token) (w : Spanned) : Prop :=
  if w.spaced then w.token ≠ .apostrophe
  else (w.token = .apostrophe → previous.any Token.endsValue) ∧
    (w.token.cuts ∨ previous.all Token.loose ∧ w.token ≠ .equals ∧ w.token ≠ .eqEq)

/-- Every word is spelled as its kind demands and can stand where it does. -/
def Lexical : Option Token → List Spanned → Prop
  | _, [] => True
  | previous, w :: ws => w.token.Spelled ∧ w.Follows previous ∧ Lexical (some w.token) ws

namespace Token

/-! ## Where a token ends -/

/-- A blank, or the first character of a token that cuts. -/
def isCut (c : Char) : Bool :=
  [' ', '(', ')', '[', ']', '\x7b', '\x7d', ',', ';', '\x27', '\n'].contains c

theorem stops_of_isCut (t : Token) {c : Char} (h : isCut c) (rest : List Char) :
    t.Stops (c :: rest) := by
  have cases : ∀ d, isCut d → isWordRest d = false ∧ d ≠ '.' ∧ d ≠ '\x22' ∧ d ≠ '=' ∧ d ≠ '&'
      ∧ d ≠ '|' := by
    intro d hd
    simp only [isCut, List.contains_cons, List.contains_nil, Bool.or_false, Bool.or_eq_true,
      beq_iff_eq] at hd
    rcases hd with rfl | rfl | rfl | rfl | rfl | rfl | rfl | rfl | rfl | rfl | rfl <;> decide
  obtain ⟨word, point, quote, equals, amp, pipe⟩ := cases c h
  cases t <;> simp [Stops, EndsWord, NoHead, word, point, quote, equals, amp, pipe]

theorem stops_nil (t : Token) : t.Stops [] := by
  cases t <;> simp [Stops, EndsWord, NoHead]

theorem stops_of_loose {t : Token} (h : t.loose) {tail : List Char} (noEquals : NoHead '=' tail) :
    t.Stops tail := by
  cases t <;> first | exact noEquals | trivial

theorem isCut_of_cuts {t : Token} (h : t.cuts) : ∃ c cs, t.spelling = c :: cs ∧ isCut c := by
  cases t <;> first | exact ⟨_, _, rfl, rfl⟩ | cases h

/-- Only `=` and `==` are spelled with an equals sign in front. -/
theorem noHead_equals {t : Token} (spelled : t.Spelled) (single : t ≠ .equals)
    (double : t ≠ .eqEq) (rest : List Char) : NoHead '=' (t.spelling ++ rest) := by
  have number : ∀ s : String, ∀ kind, numberAt? s.toList = some (kind, s.toList.length) →
      NoHead '=' (s.toList ++ rest) := by
    intro s kind number c hc
    cases letters : s.toList with
    | nil => rw [letters] at number; cases number
    | cons d ds =>
      rw [letters] at number hc
      obtain rfl : d = c := by simpa using hc
      rintro rfl
      rcases numberAt?_head number with head | head <;> cases head
  cases t with
  | ident x =>
    intro c hc
    cases letters : x.toList with
    | nil => simp [Spelled, isName, letters] at spelled
    | cons d ds =>
      have start : isWordStart d := by
        simp only [Spelled, isName, letters, Bool.and_eq_true] at spelled
        exact spelled.1.1
      obtain rfl : d = c := by simpa [spelling, text, letters] using hc
      rintro rfl
      cases start
  | int s => exact number s .int (by simpa [Spelled, LiteralKind.spells] using spelled)
  | float s => exact number s .float (by simpa [Spelled, LiteralKind.spells] using spelled)
  | imag s => exact number s .imag (by simpa [Spelled, LiteralKind.spells] using spelled)
  | equals => exact absurd rfl single
  | eqEq => exact absurd rfl double
  | _ => simp [NoHead, spelling, text]

/-- Where words stand as they may, the lexer ends the token in front of them. -/
theorem stops_of_lexical {t : Token} {ws : List Spanned} (h : Lexical (some t) ws) :
    t.Stops (spelled ws) := by
  cases ws with
  | nil => exact stops_nil t
  | cons w ws =>
    obtain ⟨spelling, follows, -⟩ := h
    unfold Spanned.Follows at follows
    have text : spelled (w :: ws) = w.spelling ++ spelled ws := by simp [spelled]
    rw [text]
    by_cases spaced : w.spaced
    case pos =>
      rw [Spanned.spelling, if_pos spaced]
      exact stops_of_isCut t rfl _
    case neg =>
      rw [if_neg spaced] at follows
      rw [Spanned.spelling, if_neg spaced]
      rcases follows.2 with cut | ⟨loose, single, double⟩
      · obtain ⟨c, cs, shape, isCut⟩ := isCut_of_cuts cut
        rw [shape]
        exact stops_of_isCut t isCut _
      · exact stops_of_loose loose (noHead_equals spelling single double _)

/-! ## From texts to words -/

/-- The lexer goes on behind a token that it finds. -/
theorem tokensFrom_found {c : Char} {cs tail : List Char} {t : Token} {position previousEnd : Nat}
    {previous : Option Token}
    (found : lexemeAt (quoteTransposes previous previousEnd position) c (cs ++ tail)
      = .token t cs.length) :
    tokensFrom (c :: (cs ++ tail)) position previousEnd previous
      = (tokensFrom tail (position + Text.occupied (c :: cs)) (position + Text.occupied (c :: cs))
          (some t)).map
        (⟨t, position, position + Text.occupied (c :: cs), previousEnd < position⟩ :: ·) := by
  rw [tokensFrom, found]
  simp only [List.drop_left, List.take_left]
  cases tokensFrom tail _ _ (some t) <;> rfl

/-- The lexer goes on behind a token of one character. -/
theorem tokensFrom_single {c : Char} {tail : List Char} {t : Token} {position previousEnd : Nat}
    {previous : Option Token}
    (found : lexemeAt (quoteTransposes previous previousEnd position) c tail = .token t 0) :
    tokensFrom (c :: tail) position previousEnd previous
      = (tokensFrom tail (position + Text.occupied [c]) (position + Text.occupied [c])
          (some t)).map (⟨t, position, position + Text.occupied [c], previousEnd < position⟩ :: ·) :=
  @tokensFrom_found c [] tail t position previousEnd previous found

theorem tokensFrom_lexeme {c : Char} {cs tail : List Char} {t : Token} {position previousEnd : Nat}
    {previous : Option Token}
    (found : lexemeAt (quoteTransposes previous previousEnd position) c (cs ++ tail)
      = .token t cs.length) :
    ∃ stop, tokensFrom (c :: (cs ++ tail)) position previousEnd previous
      = (tokensFrom tail stop stop (some t)).map
          (⟨t, position, stop, previousEnd < position⟩ :: ·) :=
  ⟨_, tokensFrom_found found⟩

/-- Behind a token that is spelled out the lexer goes on with what stands there. -/
theorem tokensFrom_spelling {t : Token} {tail : List Char} {position previousEnd : Nat}
    {previous : Option Token} (h : t.Lexes (quoteTransposes previous previousEnd position) tail) :
    tokensFrom (t.spelling ++ tail) position previousEnd previous
      = (tokensFrom tail (position + Text.occupied t.spelling)
          (position + Text.occupied t.spelling) (some t)).map
        (⟨t, position, position + Text.occupied t.spelling, previousEnd < position⟩ :: ·) := by
  obtain ⟨c, cs, shape, found⟩ := h
  rw [shape]
  exact tokensFrom_found found

theorem tokensFrom_token {t : Token} {tail : List Char} (position previousEnd : Nat)
    (previous : Option Token)
    (h : t.Lexes (quoteTransposes previous previousEnd position) tail) :
    ∃ stop, tokensFrom (t.spelling ++ tail) position previousEnd previous
      = (tokensFrom tail stop stop (some t)).map
          (⟨t, position, stop, previousEnd < position⟩ :: ·) :=
  ⟨_, tokensFrom_spelling h⟩

theorem tokensFrom_blank (tail : List Char) (position previousEnd : Nat)
    (previous : Option Token) :
    tokensFrom (' ' :: tail) position previousEnd previous
      = tokensFrom tail (position + 1) previousEnd previous := by
  rw [tokensFrom]
  rfl

/-- The tokens of the text of lexical words are these words. -/
theorem tokensFrom_words :
    (ws : List Spanned) → (previous : Option Token) → (position : Nat) → Lexical previous ws →
      ∃ ts, tokensFrom (spelled ws) position position previous = .ok ts
        ∧ ts.map Spanned.look = ws.map Spanned.look
  | [], _, _, _ => ⟨[], by rw [spelled, List.flatMap_nil, tokensFrom], rfl⟩
  | w :: ws, previous, position, ⟨spelling, follows, lexical⟩ => by
      have stops : w.token.Stops (spelled ws) := stops_of_lexical lexical
      have text : spelled (w :: ws) = w.spelling ++ spelled ws := by simp [spelled]
      unfold Spanned.Follows at follows
      by_cases spaced : w.spaced
      case pos =>
        rw [if_pos spaced] at follows
        obtain ⟨stop, run⟩ := tokensFrom_token (position + 1) position previous
          (lexes spelling (fun found => absurd found follows) stops)
        obtain ⟨ts, later, looks⟩ := tokensFrom_words ws (some w.token) stop lexical
        refine ⟨⟨w.token, position + 1, stop, position < position + 1⟩ :: ts, ?_, ?_⟩
        · rw [text, Spanned.spelling, if_pos spaced, List.cons_append, tokensFrom_blank, run, later]
          rfl
        · simp [Spanned.look, spaced] at looks ⊢
          exact looks
      case neg =>
        rw [if_neg spaced] at follows
        obtain ⟨stop, run⟩ := tokensFrom_token position position previous
          (lexes spelling (fun found => by simp [quoteTransposes, follows.1 found]) stops)
        obtain ⟨ts, later, looks⟩ := tokensFrom_words ws (some w.token) stop lexical
        refine ⟨⟨w.token, position, stop, position < position⟩ :: ts, ?_, ?_⟩
        · rw [text, Spanned.spelling, if_neg spaced, run, later]
          rfl
        · simp [Spanned.look, spaced] at looks ⊢
          exact looks

end Token

end MatrixScript
