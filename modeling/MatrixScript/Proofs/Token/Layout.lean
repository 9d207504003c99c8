/-
# `Proofs.Token.Layout` — what stands between the tokens does not matter

`normalForm` puts one blank in place of every gap of a text.  The tokens stay
the same, with the same flags (`tokenize_normalForm`), and so does the tree
that the text is read as (`normalForm_keeps`).  A token is found again because
the text behind it and its normal form agree up to a place where the normal
form ends or has a blank (`Scans.normal_alike`), and no token that the lexer ended there goes on
with a blank.
-/
import MatrixScript.Proofs.Program.Position
import MatrixScript.Proofs.Token.Partition
import MatrixScript.Tree.OfProgram

namespace MatrixScript

open Text

/-- The characters of a word in the text that it comes from. -/
def Spanned.slice (source : List Char) (w : Spanned) : List Char :=
  (slice? source w.start w.stop).getD []

/-- The words of a text with a blank in front of those that are spaced. -/
def normalChars (source : List Char) (ws : List Spanned) : List Char :=
  ws.flatMap fun w => if w.spaced then ' ' :: w.slice source else w.slice source

/-- The text with one blank in place of every gap in front of a word, and none at its end. -/
def normalForm (source : String) (ws : List Spanned) : String :=
  String.ofList (normalChars source.toList ws)

namespace Token

/-- The words of a text in its normal form, the first of them with its gap. -/
theorem normalChars_word {before gap slice rest : List Char} {t : Token} {start stop : Nat}
    (starts : start = occupied before + occupied gap) (stops : stop = start + occupied slice)
    (ws : List Spanned) :
    normalChars (before ++ (gap ++ (slice ++ rest))) (⟨t, start, stop, !gap.isEmpty⟩ :: ws)
      = (if gap.isEmpty then slice else ' ' :: slice)
        ++ normalChars (before ++ (gap ++ (slice ++ rest))) ws := by
  have cut : Spanned.slice (before ++ (gap ++ (slice ++ rest))) ⟨t, start, stop, !gap.isEmpty⟩
      = slice := by
    have whole : before ++ (gap ++ (slice ++ rest)) = (before ++ gap) ++ (slice ++ rest) := by
      simp
    rw [Spanned.slice, whole, stops, starts, ← occupied_append, slice?_append]
    rfl
  rw [normalChars, List.flatMap_cons, cut]
  cases gap.isEmpty <;> rfl

/-- A text and its normal form agree up to a place where the normal form ends or has a blank. -/
theorem Scans.normal_alike {previous : Option Token} {position : Nat} {cs : List Char}
    {ws : List Spanned} (h : Scans previous position cs ws) (before : List Char)
    (at_ : position = occupied before) :
    ∃ same tail tail', cs = same ++ tail ∧ normalChars (before ++ cs) ws = same ++ tail'
      ∧ Quiet tail' := by
  induction h generalizing before with
  | @nil _ _ gap _ => exact ⟨[], gap, [], rfl, rfl, quiet_nil⟩
  | @word previous position start stop gap cs rest c t ws _ _ starts stops _ ih =>
    rw [normalChars_word (at_ ▸ starts) stops]
    cases gap with
    | cons d gap => exact ⟨[], _, _, rfl, rfl, quiet_blank _⟩
    | nil =>
      have behind : stop = occupied (before ++ c :: cs) := by
        rw [occupied_append, stops, starts, at_]
        rfl
      obtain ⟨same, tail, tail', cut, normal, quiet⟩ := ih _ behind
      have whole : before ++ ([] ++ (c :: cs ++ rest)) = (before ++ c :: cs) ++ rest := by simp
      refine ⟨c :: cs ++ same, tail, tail', ?_, ?_, quiet⟩
      · rw [cut, List.nil_append, List.append_assoc]
      · rw [whole, normal, List.append_assoc]
        rfl

/-- The lexer finds the words of a text in its normal form. -/
theorem Scans.tokensFrom_normal {previous : Option Token} {position : Nat} {cs : List Char}
    {ws : List Spanned} (h : Scans previous position cs ws) (before : List Char)
    (at_ : position = occupied before) (position' : Nat) :
    ∃ us, tokensFrom (normalChars (before ++ cs) ws) position' position' previous = .ok us
      ∧ us.map Spanned.look = ws.map Spanned.look := by
  induction h generalizing before position' with
  | nil => exact ⟨[], by rw [normalChars, List.flatMap_nil, tokensFrom], rfl⟩
  | @word previous position start stop gap cs rest c t ws _ found starts stops later ih =>
    have behind : stop = occupied (before ++ gap ++ c :: cs) := by
      rw [occupied_append, occupied_append, stops, starts, at_]
    have whole : before ++ (gap ++ (c :: cs ++ rest)) = (before ++ gap ++ c :: cs) ++ rest := by
      simp
    obtain ⟨same, tail, tail', cut, normal, quiet⟩ := later.normal_alike _ behind
    have later_run := ih _ behind
    rw [← whole] at normal later_run
    rw [normalChars_word (at_ ▸ starts) stops]
    generalize normalChars (before ++ (gap ++ (c :: cs ++ rest))) ws = text at normal later_run ⊢
    have lexeme : lexemeAt (previous.any endsValue && gap.isEmpty) c (cs ++ text)
        = .token t cs.length := by
      have part : lexemeAt (previous.any endsValue && gap.isEmpty) c
            ((cs ++ rest).take cs.length ++ same)
          = lexemeAt (previous.any endsValue && gap.isEmpty) c (cs ++ rest) :=
        lexemeAt_part (by rw [found]; rfl) (by rw [List.drop_left, cut])
      rw [List.take_left, found] at part
      rw [normal, ← List.append_assoc]
      exact lexemeAt_append_blank quiet part
    cases gap with
    | nil =>
      have flag : quoteTransposes previous position' position'
          = (previous.any endsValue && List.isEmpty ([] : List Char)) := by
        simp [quoteTransposes]
      rw [← flag] at lexeme
      obtain ⟨stop', run⟩ := tokensFrom_lexeme lexeme
      obtain ⟨us, tokens, looks⟩ := later_run stop'
      refine ⟨⟨t, position', stop', position' < position'⟩ :: us, ?_, ?_⟩
      · rw [List.isEmpty_nil, if_pos rfl, List.cons_append, run, tokens]
        rfl
      · simp [Spanned.look] at looks ⊢
        exact looks
    | cons d gap =>
      have flag : quoteTransposes previous position' (position' + 1)
          = (previous.any endsValue && (d :: gap).isEmpty) := by
        simp [quoteTransposes]
      rw [← flag] at lexeme
      obtain ⟨stop', run⟩ := tokensFrom_lexeme lexeme
      obtain ⟨us, tokens, looks⟩ := later_run stop'
      refine ⟨⟨t, position' + 1, stop', position' < position' + 1⟩ :: us, ?_, ?_⟩
      · rw [List.isEmpty_cons, if_neg Bool.false_ne_true, List.cons_append, List.cons_append,
          tokensFrom_blank, run, tokens]
        rfl
      · simp [Spanned.look] at looks ⊢
        exact looks

/-- The normal form of a text has the same tokens with the same blanks in front of them. -/
theorem tokenize_normalForm {source : String} {ts : List Spanned}
    (h : tokenize source = .ok ts) :
    ∃ us, tokenize (normalForm source ts) = .ok us
      ∧ us.map Spanned.look = ts.map Spanned.look := by
  have scans : Scans none 0 source.toList ts :=
    scans_of_tokensFrom h [] rfl fun _ _ _ isGap => isGap
  rw [tokenize, normalForm, String.toList_ofList]
  exact scans.tokensFrom_normal [] rfl 0

end Token

/-- Texts whose tokens look the same are read as the same tree. -/
theorem Tree.parse_alike {source source' : String} {ts us : List Spanned}
    (h : Token.tokenize source = .ok ts) (h' : Token.tokenize source' = .ok us)
    (looks : us.map Spanned.look = ts.map Spanned.look) {tree : Tree}
    (parsed : Tree.parse source = .ok tree) : Tree.parse source' = .ok tree := by
  unfold Tree.parse Program.parse at parsed ⊢
  rw [h] at parsed
  rw [h']
  dsimp only at parsed ⊢
  cases program : Program.ofTokens ts with
  | error e =>
    rw [program] at parsed
    cases parsed
  | ok p =>
    rw [program] at parsed
    rw [Program.ofTokens_alike looks program]
    exact parsed

/-- One blank in place of every gap leaves the tokens, the blanks between them and the tree. -/
theorem normalForm_keeps {source : String} {ts : List Spanned}
    (h : Token.tokenize source = .ok ts) :
    (∃ us, Token.tokenize (normalForm source ts) = .ok us
        ∧ us.map Spanned.look = ts.map Spanned.look)
      ∧ ∀ tree, Tree.parse (normalForm source ts) = .ok tree ↔ Tree.parse source = .ok tree := by
  obtain ⟨us, tokens, looks⟩ := Token.tokenize_normalForm h
  refine ⟨⟨us, tokens, looks⟩, fun tree => ⟨?_, ?_⟩⟩
  · exact Tree.parse_alike tokens h looks.symm
  · exact Tree.parse_alike h tokens looks

/-- A continuation and a comment go, the transpose and the string stay. -/
theorem normalForm_keeps_comparison :
    ∃ ts, Token.tokenize "x=a'...\n!='b' % c" = .ok ts
      ∧ ts.map Spanned.look = [(.ident "x", false), (.equals, false), (.ident "a", false),
          (.apostrophe, false), (.notEq, true), (.str "b", false)]
      ∧ normalForm "x=a'...\n!='b' % c" ts = "x=a' !='b'"
      ∧ (∃ us, Token.tokenize "x=a' !='b'" = .ok us
          ∧ us.map Spanned.look = ts.map Spanned.look)
      ∧ ∀ tree, Tree.parse "x=a' !='b'" = .ok tree
          ↔ Tree.parse "x=a'...\n!='b' % c" = .ok tree := by
  have run : Token.tokenize "x=a'...\n!='b' % c" = .ok [⟨.ident "x", 0, 1, false⟩,
      ⟨.equals, 1, 2, false⟩, ⟨.ident "a", 2, 3, false⟩, ⟨.apostrophe, 3, 4, false⟩,
      ⟨.notEq, 8, 10, true⟩, ⟨.str "b", 10, 13, false⟩] := by cbv
  have keeps := normalForm_keeps run
  have form : normalForm "x=a'...\n!='b' % c" [⟨.ident "x", 0, 1, false⟩,
      ⟨.equals, 1, 2, false⟩, ⟨.ident "a", 2, 3, false⟩, ⟨.apostrophe, 3, 4, false⟩,
      ⟨.notEq, 8, 10, true⟩, ⟨.str "b", 10, 13, false⟩] = "x=a' !='b'" := by cbv
  rw [form] at keeps
  exact ⟨_, run, rfl, form, keeps⟩

end MatrixScript
