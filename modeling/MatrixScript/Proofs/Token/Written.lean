/-
# `Proofs.Token.Written` — the ways to write a token

`Written slice t` says that the text `slice` is one way to write the token `t`:
a number or a word is its own text, a string stands between two quotes of
either kind and every quote inside is doubled, an inequality and a negation
have two spellings.  A text is a way to write one token only
(`written_unique`), and what the lexer cuts off the head of a text is a way to
write the token that it finds (`startsWith_of_lexemeAt`).
-/
import MatrixScript.Proofs.Token.Cut
import MatrixScript.Proofs.Token.Sound
import MatrixScript.Proofs.Token.Words

namespace MatrixScript.Token

/-! ## Quotes inside of strings -/

/-- Every quote stands right before another, in pairs. -/
def paired (quote : Char) : List Char → Bool
  | [] => true
  | [c] => c != quote
  | c :: d :: rest =>
      if c = quote then d == quote && paired quote rest else paired quote (d :: rest)

/-- One quote in place of two. -/
def halved (quote : Char) : List Char → List Char
  | [] => []
  | [c] => [c]
  | c :: d :: rest =>
      if c = quote ∧ d = quote then quote :: halved quote rest
      else c :: halved quote (d :: rest)

section Inner

variable {quote c : Char} (inner : c ≠ quote)
include inner

theorem paired_cons (body : List Char) : paired quote (c :: body) = paired quote body := by
  cases body with
  | nil => simp [paired, inner]
  | cons d body => simp [paired, inner]

theorem halved_cons (body : List Char) : halved quote (c :: body) = c :: halved quote body := by
  cases body with
  | nil => rfl
  | cons d body => simp [halved, inner]

end Inner

/-- The lexer reads a string up to its closing quote. -/
theorem body_of_quotedAt? {quote : Char} (noNewline : quote ≠ '\n') :
    {cs text : List Char} → {n : Nat} → quotedAt? quote cs = some (text, n) →
      ∃ body tail, cs = body ++ quote :: tail ∧ n = body.length + 1 ∧ paired quote body
        ∧ body.all (· != '\n') ∧ halved quote body = text
  | [], _, _, h => by cases h
  | [c], text, n, h => by
      unfold quotedAt? at h
      split at h
      case isTrue closes =>
        cases h
        exact ⟨[], [], by simp [closes], rfl, rfl, rfl, rfl⟩
      case isFalse => cases h
  | c :: d :: rest, text, n, h => by
      unfold quotedAt? at h
      split at h
      case isTrue closes =>
        split at h
        case isTrue doubled =>
          obtain ⟨⟨later, m⟩, read, same⟩ := Option.map_eq_some_iff.mp h
          cases same
          obtain ⟨body, tail, rfl, rfl, pairs, line, half⟩ := body_of_quotedAt? noNewline read
          refine ⟨quote :: quote :: body, tail, ?_, rfl, ?_, ?_, ?_⟩
          · rw [closes, doubled]
            rfl
          · simp [paired, pairs]
          · simpa [noNewline] using line
          · simp [halved, half]
        case isFalse single =>
          cases h
          exact ⟨[], d :: rest, by simp [closes], rfl, rfl, rfl, rfl⟩
      case isFalse inner =>
        split at h
        case isTrue => cases h
        case isFalse notEnd =>
          obtain ⟨⟨later, m⟩, read, same⟩ := Option.map_eq_some_iff.mp h
          cases same
          obtain ⟨body, tail, whole, rfl, pairs, line, half⟩ := body_of_quotedAt? noNewline read
          refine ⟨c :: body, tail, ?_, rfl, ?_, ?_, ?_⟩
          · rw [whole]
            rfl
          · rw [paired_cons inner, pairs]
          · simpa [notEnd] using line
          · rw [halved_cons inner, half]

/-- A string that ends with the text is read to the end. -/
theorem quotedAt?_of_paired {quote : Char} :
    (body : List Char) → paired quote body → body.all (· != '\n') →
      quotedAt? quote (body ++ [quote]) = some (halved quote body, body.length + 1)
  | [], _, _ => by simp [quotedAt?, halved]
  | [c], pairs, line => by
      have inner : c ≠ quote := by simpa [paired] using pairs
      have notEnd : c ≠ '\n' := by simpa using line
      simp [quotedAt?, halved, inner, notEnd]
  | c :: d :: rest, pairs, line => by
      have notEnd : c ≠ '\n' ∧ d ≠ '\n' ∧ rest.all (· != '\n') := by simpa using line
      rw [List.cons_append, List.cons_append, quotedAt?]
      by_cases closes : c = quote
      case pos =>
        have doubled : d = quote ∧ paired quote rest := by simpa [paired, closes] using pairs
        rw [if_pos closes, if_pos doubled.1, quotedAt?_of_paired rest doubled.2 notEnd.2.2]
        simp [halved, closes, doubled.1]
      case neg =>
        rw [paired_cons closes] at pairs
        have later := quotedAt?_of_paired (d :: rest) pairs (by simpa using notEnd.2)
        rw [List.cons_append] at later
        rw [if_neg closes, if_neg notEnd.1, later, halved_cons closes]
        rfl

/-! ## Ways to write a token -/

/-- The ways to write a token that is no string. -/
def spellings : Token → List (List Char)
  | .int s | .float s | .imag s | .ident s => [s.toList]
  | .notEq => [['~', '='], ['!', '=']]
  | .tilde => [['~'], ['!']]
  | t => [t.spelling]

/-- The text is a way to write the token. -/
def Written (slice : List Char) : Token → Prop
  | .str s => ∃ quote body, (quote = '\x22' ∨ quote = '\x27') ∧ slice = quote :: (body ++ [quote])
      ∧ paired quote body ∧ body.all (· != '\n') ∧ halved quote body = s.toList
  | t => t.Spelled ∧ slice ∈ t.spellings

/-- What the lexer finds on a way to write a token, if a quote on its own is a transpose. -/
theorem lexemeAt_of_written {t : Token} {slice : List Char} (h : Written slice t) :
    ∃ c rest, slice = c :: rest ∧ lexemeAt rest.isEmpty c rest = .token t rest.length := by
  have standard : t.Spelled → t ≠ .apostrophe → slice = t.spelling →
      ∃ c rest, slice = c :: rest ∧ lexemeAt rest.isEmpty c rest = .token t rest.length := by
    rintro spelled other rfl
    have noQuote : ∀ after : Bool, t = .apostrophe → after = true :=
      fun _ same => absurd same other
    obtain ⟨c, rest, shape, -⟩ := lexes spelled (noQuote true) (stops_nil t)
    obtain ⟨c', rest', shape', found⟩ := lexes spelled (noQuote rest.isEmpty) (stops_nil t)
    obtain ⟨rfl, rfl⟩ := List.cons.inj (shape.symm.trans shape')
    rw [List.append_nil] at found
    exact ⟨c, rest, shape, found⟩
  cases t
  case str s =>
    obtain ⟨quote, body, either, rfl, pairs, line, half⟩ := h
    have read := quotedAt?_of_paired body pairs line
    have text : String.ofList (halved quote body) = s := by rw [half, String.ofList_toList]
    refine ⟨quote, body ++ [quote], rfl, ?_⟩
    have filled : (body ++ [quote]).isEmpty = false := by simp
    rw [filled, List.length_append, List.length_singleton]
    rcases either with rfl | rfl
    · show doubleQuotedAt _ = _
      rw [doubleQuotedAt, read, ← text]
    · show quoteAt false _ = _
      rw [quoteAt, if_neg Bool.false_ne_true, read, ← text]
  case notEq =>
    have either : slice = ['~', '='] ∨ slice = ['!', '='] := by
      simpa [Written, spellings] using h.2
    rcases either with rfl | rfl <;> exact ⟨_, _, rfl, rfl⟩
  case tilde =>
    have either : slice = ['~'] ∨ slice = ['!'] := by simpa [Written, spellings] using h.2
    rcases either with rfl | rfl <;> exact ⟨_, _, rfl, rfl⟩
  case apostrophe => exact ⟨'\x27', [], List.mem_singleton.mp h.2, rfl⟩
  all_goals exact standard h.1 (by rintro ⟨⟩) (List.mem_singleton.mp h.2)

/-- A text is a way to write one token only. -/
theorem written_unique {t u : Token} {slice : List Char} (h : Written slice t)
    (h' : Written slice u) : t = u := by
  obtain ⟨c, rest, shape, found⟩ := lexemeAt_of_written h
  obtain ⟨c', rest', shape', found'⟩ := lexemeAt_of_written h'
  obtain ⟨rfl, rfl⟩ := List.cons.inj (shape.symm.trans shape')
  exact (Lexeme.token.inj (found.symm.trans found')).1

/-! ## What the lexer cuts off -/

/-- The first character of a text and `more` behind it are a way to write the token. -/
def StartsWith (c : Char) (rest : List Char) (t : Token) (more : Nat) : Prop :=
  more ≤ rest.length ∧ Written (c :: rest.take more) t

theorem written_of_ofWord {word : String} (h : (ofWord word).Spelled) :
    Written word.toList (ofWord word) := by
  by_cases function : word = "function"
  · subst function
    exact ⟨trivial, List.mem_singleton.mpr rfl⟩
  by_cases last : word = "end"
  · subst last
    exact ⟨trivial, List.mem_singleton.mpr rfl⟩
  by_cases ret : word = "return"
  · subst ret
    exact ⟨trivial, List.mem_singleton.mpr rfl⟩
  by_cases brk : word = "break"
  · subst brk
    exact ⟨trivial, List.mem_singleton.mpr rfl⟩
  have ident : ofWord word = .ident word := by
    rw [ofWord, if_neg function, if_neg last, if_neg ret, if_neg brk]
  rw [ident] at h ⊢
  exact ⟨h, List.mem_singleton.mpr rfl⟩

theorem startsWith_of_quotedAt? {quote : Char} (either : quote = '\x22' ∨ quote = '\x27')
    {rest text : List Char} {n : Nat} (read : quotedAt? quote rest = some (text, n)) :
    StartsWith quote rest (.str (String.ofList text)) n := by
  have noNewline : quote ≠ '\n' := by rcases either with rfl | rfl <;> decide
  obtain ⟨body, tail, rfl, rfl, pairs, line, half⟩ := body_of_quotedAt? noNewline read
  have whole : body ++ quote :: tail = (body ++ [quote]) ++ tail := by simp
  have length : (body ++ [quote]).length = body.length + 1 := by simp
  refine ⟨by simp, quote, body, either, ?_, pairs, line, by rw [half, String.toList_ofList]⟩
  rw [whole, List.take_left' length]

theorem startsWith_of_pairOr {c d : Char} {double single t : Token} {rest : List Char} {more : Nat}
    (h : pairOr d double single rest = .token t more) (two : Written [c, d] double)
    (one : Written [c] single) : StartsWith c rest t more := by
  cases rest with
  | nil =>
    cases h
    exact ⟨Nat.zero_le _, one⟩
  | cons e rest =>
    by_cases same : e = d
    case pos =>
      rw [pairOr, if_pos same] at h
      cases h
      exact ⟨Nat.succ_pos _, by rw [same]; exact two⟩
    case neg =>
      rw [pairOr, if_neg same] at h
      cases h
      exact ⟨Nat.zero_le _, one⟩

theorem startsWith_of_symbolAt {c : Char} {rest : List Char} {t : Token} {more : Nat}
    (h : symbolAt c rest = .token t more) : StartsWith c rest t more := by
  unfold symbolAt at h
  split at h
  case h_7 | h_8 | h_9 | h_10 | h_11 | h_12 | h_13 =>
    exact startsWith_of_pairOr h ⟨trivial, by decide⟩ ⟨trivial, by decide⟩
  all_goals
    cases h <;> exact ⟨Nat.zero_le _, trivial, List.mem_singleton.mpr rfl⟩

theorem startsWith_of_dottedAt {rest : List Char} {t : Token} {more : Nat}
    (h : dottedAt rest = .token t more) : StartsWith '.' rest t more := by
  unfold dottedAt at h
  split at h
  case h_6 => split at h <;> cases h
  all_goals
    cases h
    exact ⟨Nat.succ_pos _, trivial, List.mem_singleton.mpr rfl⟩

theorem written_of_number {cs : List Char} {kind : NumberKind} {n : Nat}
    (h : numberAt? cs = some (kind, n)) :
    Written (cs.take n) (ofNumber kind (String.ofList (cs.take n))) := by
  have spelled := spelled_of_number h
  cases kind <;> exact ⟨spelled, by simp [ofNumber, spellings]⟩

theorem numberAt?_pos {cs : List Char} {kind : NumberKind} {n : Nat}
    (h : numberAt? cs = some (kind, n)) : 0 < n := by
  refine Nat.pos_of_ne_zero ?_
  rintro rfl
  have none := numberAt?_take h
  cases none

theorem startsWith_of_numberOr {c : Char} {rest : List Char} {t : Token} {more : Nat}
    (h : numberOr c rest = .token t more) : StartsWith c rest t more := by
  unfold numberOr at h
  split at h
  case h_1 kind n number =>
    have some := numberAt?_pos number
    have le := numberAt?_le number
    rw [List.length_cons] at le
    cases h
    refine ⟨by omega, ?_⟩
    rw [← List.take_succ_cons, Nat.sub_add_cancel some]
    exact written_of_number number
  case h_2 =>
    split at h
    case isTrue point =>
      rw [point]
      exact startsWith_of_dottedAt h
    case isFalse => exact startsWith_of_symbolAt h

/-- The text of a token is a way to write it. -/
theorem startsWith_of_lexemeAt {after : Bool} {c : Char} {rest : List Char} {t : Token} {more : Nat}
    (h : lexemeAt after c rest = .token t more) : StartsWith c rest t more := by
  have spelled := spelled_of_lexemeAt h
  obtain ⟨-, head⟩ | ⟨-, head⟩ | ⟨-, head⟩ | ⟨same, head⟩ | ⟨same, head⟩ | ⟨-, -, head⟩ :=
    lexemeAt_cases after c <;> rw [head] at h
  case inl => cases h
  case inr.inl => cases h
  case inr.inr.inl =>
    have front : rest.takeWhile isWordRest <+: rest := List.takeWhile_prefix isWordRest
    cases h
    have word := written_of_ofWord spelled
    rw [String.toList_ofList] at word
    exact ⟨front.length_le, by rwa [← List.prefix_iff_eq_take.mp front]⟩
  case inr.inr.inr.inl =>
    unfold doubleQuotedAt at h
    split at h
    case h_1 text n read =>
      cases h
      rw [same]
      exact startsWith_of_quotedAt? (.inl rfl) read
    case h_2 => cases h
  case inr.inr.inr.inr.inl =>
    unfold quoteAt at h
    rw [same]
    split at h
    case isTrue =>
      cases h
      exact ⟨Nat.zero_le _, trivial, List.mem_singleton.mpr rfl⟩
    case isFalse =>
      split at h
      case h_1 text n read =>
        cases h
        exact startsWith_of_quotedAt? (.inr rfl) read
      case h_2 => cases h
  case inr.inr.inr.inr.inr => exact startsWith_of_numberOr h

end MatrixScript.Token
