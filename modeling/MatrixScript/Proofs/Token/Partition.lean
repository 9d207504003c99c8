/-
# `Proofs.Token.Partition` — the tokens and the gaps between them are the text

`Tiles position cs ws` says that the text `cs` is made of gaps and of the words
`ws`, one after the other, and that these take the bytes from `position` on
that they say.  The lexer cuts every text that it accepts into such pieces, and
where it rejects one it has accepted everything in front of the place that it
names (`tokenize_partition`).  `Scans` is the same together with what the lexer
saw at each word.
-/
import MatrixScript.Proofs.Text.Slice
import MatrixScript.Proofs.Token.Written

namespace MatrixScript.Token

open Text

/-! ## Gaps -/

/-- A text that the lexer skips in front of the text `rest`: blanks, comments up
to the end of their line, and continuations with theirs. -/
inductive Gap : List Char → List Char → Prop
  | nil {rest : List Char} : Gap [] rest
  | blanks {run gap rest : List Char} : run ≠ [] → run.all isGap → Gap gap rest →
      Gap (run ++ gap) rest
  | comment {line gap rest : List Char} : line.all (· != '\n') →
      (∀ c ∈ (gap ++ rest).head?, c = '\n') → Gap gap rest → Gap ('%' :: (line ++ gap)) rest
  | continuation {line gap rest : List Char} : line.all (· != '\n') → Gap gap rest →
      Gap ('.' :: '.' :: '.' :: (line ++ '\n' :: gap)) rest
  | last {line : List Char} : line.all (· != '\n') → Gap ('.' :: '.' :: '.' :: line) []

/-- A text is its first line and what stands behind it. -/
theorem restOfLine_split (cs : List Char) :
    ∃ tail, cs = restOfLine cs ++ tail ∧ (restOfLine cs).all (· != '\n')
      ∧ ∀ c ∈ tail.head?, c = '\n' := by
  refine ⟨cs.dropWhile (· != '\n'), List.takeWhile_append_dropWhile.symm, List.all_takeWhile, ?_⟩
  intro c hc
  have stop := List.head?_dropWhile_not (· != '\n') cs
  rw [hc] at stop
  simpa using stop

theorem gap_of_dottedAt {cs gap rest : List Char} {more : Nat} (h : dottedAt cs = .gap more)
    (behind : cs.drop more = gap ++ rest) (later : Gap gap rest) :
    Gap ('.' :: (cs.take more ++ gap)) rest := by
  have continues : continuationAt? cs = some more := by
    unfold dottedAt at h
    split at h <;> try cases h
    split at h <;> cases h
    assumption
  unfold continuationAt? at continues
  split at continues
  case h_2 => cases continues
  case h_1 line =>
    have length := Option.some.inj continues
    obtain ⟨tail, whole, plain, newline⟩ := restOfLine_split line
    generalize restOfLine line = front at length whole plain
    subst whole
    cases tail with
    | nil =>
      simp only [List.append_nil, Nat.lt_irrefl, if_false, Nat.add_zero] at length
      rw [← length, Nat.add_comm] at behind ⊢
      simp only [List.append_nil, List.drop_succ_cons, List.drop_length] at behind
      obtain ⟨rfl, rfl⟩ := List.append_eq_nil_iff.mp behind.symm
      simpa using Gap.last plain
    | cons c tail =>
      obtain rfl : c = '\n' := newline c rfl
      have inside : front.length < (front ++ '\n' :: tail).length := by simp
      rw [if_pos inside] at length
      have taken : ('.' :: '.' :: (front ++ '\n' :: tail)).take more
          = '.' :: '.' :: (front ++ ['\n']) := by
        have size : ('.' :: '.' :: (front ++ ['\n'])).length = more := by
          simp only [List.length_cons, List.length_append, List.length_nil]
          omega
        have whole : '.' :: '.' :: (front ++ '\n' :: tail)
            = ('.' :: '.' :: (front ++ ['\n'])) ++ tail := by simp
        rw [whole, List.take_left' size]
      rw [taken]
      simpa using Gap.continuation plain later

/-- What the lexer skips, put in front of a gap. -/
theorem gap_of_lexemeAt {after : Bool} {c : Char} {cs gap rest : List Char} {more : Nat}
    (h : lexemeAt after c cs = .gap more) (behind : cs.drop more = gap ++ rest)
    (later : Gap gap rest) : Gap (c :: (cs.take more ++ gap)) rest := by
  obtain ⟨blank, head⟩ | ⟨same, head⟩ | ⟨-, head⟩ | ⟨-, head⟩ | ⟨-, head⟩ | ⟨-, -, head⟩ :=
    lexemeAt_cases after c <;> rw [head] at h
  case inl =>
    cases h
    show Gap ([c] ++ gap) rest
    exact .blanks (by simp) (by simpa using blank) later
  case inr.inl =>
    cases h
    subst same
    obtain ⟨tail, whole, plain, newline⟩ := restOfLine_split cs
    generalize restOfLine cs = line at whole plain behind
    subst whole
    rw [List.take_left]
    rw [List.drop_left] at behind
    exact .comment plain (by rwa [← behind]) later
  case inr.inr.inl => cases h
  case inr.inr.inr.inl =>
    unfold doubleQuotedAt at h
    split at h <;> cases h
  case inr.inr.inr.inr.inl =>
    unfold quoteAt at h
    split at h
    · cases h
    · split at h <;> cases h
  case inr.inr.inr.inr.inr =>
    unfold numberOr at h
    split at h
    · cases h
    · split at h
      case isTrue point =>
        subst point
        exact gap_of_dottedAt h behind later
      case isFalse =>
        unfold symbolAt pairOr at h
        split at h <;> first | cases h | (split at h <;> first | cases h | (split at h <;> cases h))

/-! ## Words and gaps -/

/-- The text behind the token `previous`, which ends at the byte `position`, is made of gaps
and of the words, each of which is what the lexer finds there. -/
inductive Scans : Option Token → Nat → List Char → List Spanned → Prop
  | nil {previous : Option Token} {position : Nat} {gap : List Char} : Gap gap [] →
      Scans previous position gap []
  | word {previous : Option Token} {position start stop : Nat} {gap cs rest : List Char}
      {c : Char} {t : Token} {ws : List Spanned} : Gap gap (c :: cs ++ rest) →
      lexemeAt (previous.any endsValue && gap.isEmpty) c (cs ++ rest) = .token t cs.length →
      start = position + occupied gap → stop = start + occupied (c :: cs) →
      Scans (some t) stop rest ws →
      Scans previous position (gap ++ (c :: cs ++ rest)) (⟨t, start, stop, !gap.isEmpty⟩ :: ws)

theorem isEmpty_iff_occupied {cs : List Char} : cs.isEmpty ↔ occupied cs = 0 := by
  cases cs with
  | nil => simp
  | cons c cs =>
    have pos := c.utf8Size_pos
    simp only [List.isEmpty_cons, Bool.false_eq_true, occupied_cons, false_iff]
    omega

/-- The lexer skips gaps and finds words; `skipped` is what it skipped already. -/
theorem scans_of_tokensFrom {cs : List Char} {position previousEnd : Nat}
    {previous : Option Token} {ts : List Spanned}
    (h : tokensFrom cs position previousEnd previous = .ok ts) (skipped : List Char)
    (behind : position = previousEnd + occupied skipped)
    (skips : ∀ gap rest, cs = gap ++ rest → Gap gap rest → Gap (skipped ++ gap) rest) :
    Scans previous previousEnd (skipped ++ cs) ts := by
  fun_induction tokensFrom cs position previousEnd previous generalizing ts skipped with
  | case1 position previousEnd previous =>
    cases h
    rw [List.append_nil]
    have all := skips [] [] rfl .nil
    rw [List.append_nil] at all
    exact .nil all
  | case2 position previousEnd previous c rest more found ih =>
    have whole : skipped ++ c :: rest = (skipped ++ c :: rest.take more) ++ rest.drop more := by
      rw [List.append_assoc, List.cons_append, List.take_append_drop]
    rw [whole]
    refine ih h _ ?_ ?_
    · rw [occupied_append, behind, Nat.add_assoc]
    · intro gap later cut isGap
      have front : c :: rest = (c :: (rest.take more ++ gap)) ++ later := by
        rw [List.cons_append, List.append_assoc, ← cut, List.take_append_drop]
      have all := skips _ later front (gap_of_lexemeAt found cut isGap)
      rwa [List.append_assoc]
  | case3 position previousEnd previous c rest t more found stop us later =>
    rename_i ih
    cases h
    have le : more ≤ rest.length := (startsWith_of_lexemeAt found).1
    have isGap := skips [] (c :: rest) rfl .nil
    rw [List.append_nil] at isGap
    have flag : quoteTransposes previous previousEnd position
        = (previous.any endsValue && skipped.isEmpty) := by
      unfold quoteTransposes
      congr 1
      rw [Bool.eq_iff_iff, isEmpty_iff_occupied, beq_iff_eq]
      omega
    have spaced : decide (previousEnd < position) = !skipped.isEmpty := by
      rw [Bool.eq_iff_iff, Bool.not_eq_true', ← Bool.not_eq_true, isEmpty_iff_occupied,
        decide_eq_true_iff]
      omega
    have part : rest = rest.take more ++ rest.drop more := (List.take_append_drop _ _).symm
    have length : (rest.take more).length = more := List.length_take_of_le le
    rw [spaced, part]
    show Scans previous previousEnd (skipped ++ (c :: rest.take more ++ rest.drop more)) _
    refine .word ?_ ?_ behind rfl ?_
    · rwa [List.cons_append, ← part]
    · rw [← part, ← flag, found, length]
    · exact ih later [] rfl fun _ _ _ isGap => isGap
  | case4 => cases h
  | case5 => cases h
  | case6 => cases h

/-- The text, whose first byte is `position`, is made of gaps and of the words. -/
inductive Tiles : Nat → List Char → List Spanned → Prop
  | nil {position : Nat} {gap : List Char} : Gap gap [] → Tiles position gap []
  | word {position : Nat} {gap slice rest : List Char} {w : Spanned} {ws : List Spanned} :
      Gap gap (slice ++ rest) → slice ≠ [] → w.start = position + occupied gap →
      w.stop = w.start + occupied slice → (w.spaced = true ↔ gap ≠ []) →
      Written slice w.token → Tiles w.stop rest ws →
      Tiles position (gap ++ (slice ++ rest)) (w :: ws)

theorem Scans.tiles {previous : Option Token} {position : Nat} {cs : List Char}
    {ws : List Spanned} (h : Scans previous position cs ws) : Tiles position cs ws := by
  induction h with
  | nil gap => exact .nil gap
  | @word previous position start stop gap cs rest c t ws isGap found starts stops _ ih =>
    have written := (startsWith_of_lexemeAt found).2
    rw [List.take_left] at written
    exact .word isGap (by simp) starts stops (by cases gap <;> simp) written ih

namespace Tiles

variable {position : Nat} {cs : List Char} {ws : List Spanned}

theorem start_le (h : Tiles position cs ws) :
    ∀ w ∈ ws, position ≤ w.start ∧ w.start < w.stop := by
  induction h with
  | nil => simp
  | @word position gap slice rest w ws _ filled starts stops _ _ _ ih =>
    have wide : occupied slice ≠ 0 := fun empty =>
      filled (List.isEmpty_iff.mp (isEmpty_iff_occupied.mpr empty))
    intro v mem
    rcases List.mem_cons.mp mem with rfl | later
    · omega
    · have := ih v later
      omega

/-- Every word ends where the next one starts, or before. -/
theorem ordered (h : Tiles position cs ws) : ws.Pairwise fun v w => v.stop ≤ w.start := by
  induction h with
  | nil => exact .nil
  | word _ _ _ _ _ _ later ih => exact .cons (fun w mem => (later.start_le w mem).1) ih

/-- The bytes of a word are a way to write its token. -/
theorem slices (h : Tiles position cs ws) (before : List Char) (at_ : position = occupied before) :
    ∀ w ∈ ws, ∃ slice, slice? (before ++ cs) w.start w.stop = some slice
      ∧ Written slice w.token := by
  induction h generalizing before with
  | nil => simp
  | @word position gap slice rest w ws _ _ starts stops _ written _ ih =>
    intro v mem
    have whole : before ++ (gap ++ (slice ++ rest)) = (before ++ gap) ++ (slice ++ rest) := by simp
    have start : w.start = occupied (before ++ gap) := by rw [occupied_append, starts, at_]
    rcases List.mem_cons.mp mem with rfl | later
    · refine ⟨slice, ?_, written⟩
      rw [whole, stops, start]
      exact slice?_append _ _ _
    · rw [whole, ← List.append_assoc]
      exact ih _ (by rw [occupied_append, ← start, stops]) v later

end Tiles

/-! ## Up to the place of an error -/

/-- What the lexer finds at the head of a text it finds in every part that goes on behind it. -/
theorem lexemeAt_part {after : Bool} {c : Char} {rest before tail : List Char} {more : Nat}
    (takes : (lexemeAt after c rest).Takes more) (cut : rest.drop more = before ++ tail) :
    lexemeAt after c (rest.take more ++ before) = lexemeAt after c rest := by
  have part : rest.take more ++ before = rest.take (more + before.length) := by
    rw [List.take_add, cut, List.take_left]
  rw [part, lexemeAt_take takes (Nat.le_add_right _ _)]

/-- A lexeme that something stands behind is as long as it says. -/
theorem length_take_of_drop {rest before tail : List Char} {more : Nat}
    (cut : rest.drop more = before ++ tail) (filled : tail ≠ []) :
    (rest.take more).length = more := by
  refine List.length_take_of_le (Nat.le_of_not_lt fun short => filled ?_)
  rw [List.drop_eq_nil_of_le (Nat.le_of_lt short)] at cut
  exact (List.append_eq_nil_iff.mp cut.symm).2

/-- The lexer accepts the text in front of the place of its error. -/
theorem tokensFrom_before_error {cs : List Char} {position previousEnd : Nat}
    {previous : Option Token} {e : Error}
    (h : tokensFrom cs position previousEnd previous = .error e) :
    ∃ reason before tail ts, e = .lexer (position + occupied before) reason
      ∧ cs = before ++ tail ∧ tail ≠ []
      ∧ tokensFrom before position previousEnd previous = .ok ts := by
  fun_induction tokensFrom cs position previousEnd previous with
  | case1 => cases h
  | case2 position previousEnd previous c rest more found ih =>
    obtain ⟨reason, before, tail, ts, rfl, cut, filled, run⟩ := ih h
    have length := length_take_of_drop cut filled
    have part := lexemeAt_part (by rw [found]; rfl) cut
    refine ⟨reason, c :: (rest.take more ++ before), tail, ts, ?_, ?_, filled, ?_⟩
    · rw [← List.cons_append, occupied_append, Nat.add_assoc]
    · rw [List.cons_append, List.append_assoc, ← cut, List.take_append_drop]
    · rw [tokensFrom, part, found]
      dsimp only
      rw [List.drop_left' length, List.take_left' length, run]
  | case3 => cases h
  | case4 position previousEnd previous c rest t more found stop e' later =>
    rename_i ih
    cases h
    obtain ⟨reason, before, tail, ts, rfl, cut, filled, run⟩ := ih later
    have length := length_take_of_drop cut filled
    have part := lexemeAt_part (by rw [found]; rfl) cut
    refine ⟨reason, c :: (rest.take more ++ before), tail,
      ⟨t, position, stop, previousEnd < position⟩ :: ts, ?_, ?_, filled, ?_⟩
    · rw [← List.cons_append, occupied_append, Nat.add_assoc]
    · rw [List.cons_append, List.append_assoc, ← cut, List.take_append_drop]
    · rw [tokensFrom, part, found]
      dsimp only
      rw [List.drop_left' length, List.take_left' length, run]
  | case5 position previousEnd previous c rest more found =>
    cases h
    exact ⟨_, [], c :: rest, [], rfl, rfl, List.cons_ne_nil _ _, by rw [tokensFrom]⟩
  | case6 position previousEnd previous c rest found =>
    cases h
    exact ⟨_, [], c :: rest, [], rfl, rfl, List.cons_ne_nil _ _, by rw [tokensFrom]⟩

/-- The tokens of a text and the gaps between them are the whole text: every token takes the
bytes that it says, these are a way to write it and no other token, and it is called
spaced exactly if a gap stands in front of it.  An error of the lexer is at a place up to which
the text has tokens. -/
theorem tokenize_partition (source : String) :
    match tokenize source with
    | .ok ts =>
        Tiles 0 source.toList ts ∧ (ts.Pairwise fun v w => v.stop ≤ w.start)
          ∧ ∀ w ∈ ts, w.start < w.stop
            ∧ ∃ slice, slice? source.toList w.start w.stop = some slice
              ∧ Written slice w.token ∧ ∀ t, Written slice t → t = w.token
    | .error e =>
        ∃ reason before tail ts, e = .lexer (occupied before) reason
          ∧ source.toList = before ++ tail ∧ tail ≠ []
          ∧ tokenize (String.ofList before) = .ok ts := by
  cases run : tokenize source with
  | ok ts =>
    have tiles : Tiles 0 source.toList ts :=
      (scans_of_tokensFrom run [] rfl fun _ _ _ isGap => isGap).tiles
    refine ⟨tiles, tiles.ordered, fun w mem => ⟨(tiles.start_le w mem).2, ?_⟩⟩
    obtain ⟨slice, cut, written⟩ := tiles.slices [] rfl w mem
    exact ⟨slice, cut, written, fun t other => written_unique other written⟩
  | error e =>
    obtain ⟨reason, before, tail, ts, rfl, cut, filled, accepted⟩ := tokensFrom_before_error run
    refine ⟨reason, before, tail, ts, by rw [Nat.zero_add], cut, filled, ?_⟩
    rw [tokenize, String.toList_ofList, accepted]

end MatrixScript.Token
