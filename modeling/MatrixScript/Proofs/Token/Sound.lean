/-
# `Proofs.Token.Sound` — the lexer spells its tokens

Every token that carries a text carries one of its kind: identifiers are names
and no keywords, numbers are numbers from end to end, and no string holds the
end of a line.
-/
import MatrixScript.Proofs.Token.Lexeme

namespace MatrixScript.Token

/-- The token carries no text. -/
def isBare : Token → Bool
  | .int _ | .float _ | .imag _ | .str _ | .ident _ => false
  | _ => true

theorem spelled_of_isBare {t : Token} (h : t.isBare) : t.Spelled := by
  cases t <;> trivial

theorem ofWord_eq (word : String) : (ofWord word).isBare ∨ ofWord word = .ident word := by
  unfold ofWord
  split
  · exact .inl rfl
  split
  · exact .inl rfl
  split
  · exact .inl rfl
  split
  · exact .inl rfl
  · exact .inr rfl

theorem spelled_of_wordAt {c : Char} {rest : List Char} {t : Token} {more : Nat}
    (start : isWordStart c) (h : wordAt c rest = .token t more) : t.Spelled := by
  have word : ofWord (String.ofList (c :: rest.takeWhile isWordRest)) = t := by
    cases h
    rfl
  rw [← word]
  rcases ofWord_eq (String.ofList (c :: rest.takeWhile isWordRest)) with bare | ident
  · exact spelled_of_isBare bare
  · have letters : (rest.takeWhile isWordRest).all isWordRest := List.all_takeWhile
    rw [ident]
    show isName _
    unfold isName
    rw [String.toList_ofList, ident]
    simp only [start, letters, beq_self_eq_true, Bool.and_self]

theorem no_newline_of_quotedAt? {quote : Char} (noNewline : quote ≠ '\n') :
    {cs text : List Char} → {n : Nat} → quotedAt? quote cs = some (text, n) →
      text.all (· != '\n')
  | [], _, _, h => by cases h
  | [c], text, n, h => by
      unfold quotedAt? at h
      split at h
      · cases h
        rfl
      · cases h
  | c :: d :: rest, text, n, h => by
      unfold quotedAt? at h
      split at h
      · split at h
        · obtain ⟨⟨later, k⟩, read, same⟩ := Option.map_eq_some_iff.mp h
          cases same
          simpa [noNewline] using no_newline_of_quotedAt? noNewline read
        · cases h
          rfl
      · split at h
        · cases h
        · rename_i other
          obtain ⟨⟨later, k⟩, read, same⟩ := Option.map_eq_some_iff.mp h
          cases same
          simpa [other] using no_newline_of_quotedAt? noNewline read

theorem spelled_of_number {cs : List Char} {kind : NumberKind} {n : Nat}
    (h : numberAt? cs = some (kind, n)) :
    (ofNumber kind (String.ofList (cs.take n))).Spelled := by
  have number : numberAt? (cs.take n) = some (kind, n) := numberAt?_take h
  have length : (cs.take n).length = n := List.length_take_of_le (numberAt?_le h)
  cases kind <;> simp [ofNumber, Spelled, LiteralKind.spells, number, length]

theorem spelled_of_symbolAt {c : Char} {rest : List Char} {t : Token} {more : Nat}
    (h : symbolAt c rest = .token t more) : t.Spelled := by
  refine spelled_of_isBare ?_
  unfold symbolAt pairOr at h
  split at h <;> first | (cases h; rfl) | (split at h <;> first | (cases h; rfl) | (split at h <;> cases h <;> rfl)) | cases h

theorem spelled_of_dottedAt {rest : List Char} {t : Token} {more : Nat}
    (h : dottedAt rest = .token t more) : t.Spelled := by
  refine spelled_of_isBare ?_
  unfold dottedAt at h
  split at h <;> first | (cases h; rfl) | (split at h <;> cases h)

theorem spelled_of_lexemeAt {after : Bool} {c : Char} {rest : List Char} {t : Token} {more : Nat}
    (h : lexemeAt after c rest = .token t more) : t.Spelled := by
  unfold lexemeAt at h
  split at h
  · cases h
  split at h
  · cases h
  split at h
  case isTrue start => exact spelled_of_wordAt start h
  split at h
  · unfold doubleQuotedAt at h
    split at h
    case h_1 text n read =>
      cases h
      simpa [Spelled, LiteralKind.spells] using no_newline_of_quotedAt? (by decide) read
    case h_2 => cases h
  split at h
  · unfold quoteAt at h
    split at h
    · cases h
      trivial
    · split at h
      case h_1 text n read =>
        cases h
        simpa [Spelled, LiteralKind.spells] using no_newline_of_quotedAt? (by decide) read
      case h_2 => cases h
  split at h
  case h_1 kind n number =>
    cases h
    exact spelled_of_number number
  case h_2 =>
    split at h
    · exact spelled_of_dottedAt h
    · exact spelled_of_symbolAt h

theorem spelled_of_tokensFrom {cs : List Char} {position previousEnd : Nat}
    {previous : Option Token} {ts : List Spanned}
    (h : tokensFrom cs position previousEnd previous = .ok ts) :
    ∀ w ∈ ts, w.token.Spelled := by
  fun_induction tokensFrom cs position previousEnd previous generalizing ts with
  | case1 => 
    cases h
    simp
  | case2 position previousEnd previous c rest more found ih => exact ih h
  | case3 position previousEnd previous c rest t more found stop us later =>
    rename_i ih
    cases h
    intro w mem
    rcases List.mem_cons.mp mem with rfl | inside
    · exact spelled_of_lexemeAt found
    · exact ih later w inside
  | case4 => cases h
  | case5 => cases h
  | case6 => cases h

/-- Every token of a source text is spelled as its kind demands. -/
theorem spelled_of_tokenize {source : String} {ts : List Spanned}
    (h : tokenize source = .ok ts) : ∀ w ∈ ts, w.token.Spelled :=
  spelled_of_tokensFrom h

end MatrixScript.Token
