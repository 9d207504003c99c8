/-
# `Proofs.Token.Dotted` — an element-wise operator right behind an integer

A number may end with a point, and the longest number wins: in `1.*x` the point belongs to
the number and the operator is `*`, while in `1 .*x` the operator is `.*`.  That is so for
every integer, every operator that is written with a point, and whatever stands around them
(`tokenize_point`): the blank never leaves the tokens as they are.

What stands in front is read alike in both texts (`tokensFrom_front`), since no lexeme looks
further than the digits behind it (`lexemeAt_digits`).
-/
import MatrixScript.Proofs.Token.Append
import MatrixScript.Proofs.Token.Decimal
import MatrixScript.Proofs.Token.Words

namespace MatrixScript.Token

open Text

/-! ## What stands in front of digits -/

section

variable {rest tail : List Char} {d : Char} {more : Nat}

/-- A text that stays on its line reaches the end of the line in all of the text behind. -/
theorem length_lt_restOfLine (tail : List Char) (line : '\n' ∉ rest) (digit : d.isDigit) :
    rest.length < (restOfLine (rest ++ d :: tail)).length := by
  have plain : ∀ c ∈ rest, (c != '\n') = true := by
    intro c mem
    rw [bne_iff_ne]
    rintro rfl
    exact line mem
  have other : (d != '\n') = true := by
    rw [bne_iff_ne]
    rintro rfl
    cases digit
  rw [restOfLine, List.takeWhile_append_of_pos plain, List.takeWhile_cons, if_pos other,
    List.length_append, List.length_cons]
  omega

/-- A continuation in front of a digit ends with a line. -/
theorem newline_of_continuationAt? (digit : d.isDigit)
    (found : continuationAt? (rest ++ d :: tail) = some more) (short : more ≤ rest.length) :
    '\n' ∈ rest := by
  by_contra line
  have other : d ≠ '.' := by
    rintro rfl
    cases digit
  match rest with
  | [] => simp [continuationAt?, other] at found
  | [c] =>
    unfold continuationAt? at found
    split at found
    case h_1 same => exact other (List.cons.inj (List.cons.inj same).2).1
    case h_2 => cases found
  | a :: b :: rest =>
    unfold continuationAt? at found
    split at found
    case h_2 => cases found
    case h_1 behind same =>
      obtain ⟨-, same⟩ := List.cons.inj same
      obtain ⟨-, same⟩ := List.cons.inj same
      have long := length_lt_restOfLine tail
        (fun mem => line (List.mem_cons_of_mem a (List.mem_cons_of_mem b mem))) digit
      rw [show rest ++ d :: tail = behind from same] at long
      have size := Option.some.inj found
      rw [List.length_cons, List.length_cons] at short
      omega

theorem continuationAt?_of_gap {cs : List Char} (h : dottedAt cs = .gap more) :
    continuationAt? cs = some more := by
  unfold dottedAt at h
  split at h <;> try cases h
  split at h <;> cases h
  assumption

theorem symbolAt_ne_gap (c : Char) (cs : List Char) (more : Nat) : symbolAt c cs ≠ .gap more := by
  have pair : ∀ d double single, pairOr d double single cs ≠ .gap more := by
    intro d double single
    unfold pairOr
    split
    · exact fun same => by cases same
    · split <;> exact fun same => by cases same
  unfold symbolAt
  split <;> first | exact pair _ _ _ | exact fun same => by cases same

/-- What is skipped in front of a digit is a blank or ends with a line. -/
theorem newline_of_gap {after : Bool} {c : Char} (digit : d.isDigit)
    (found : lexemeAt after c (rest ++ d :: tail) = .gap more) (short : more ≤ rest.length) :
    isGap c ∨ '\n' ∈ rest := by
  obtain ⟨gap, -⟩ | ⟨-, head⟩ | ⟨-, head⟩ | ⟨-, head⟩ | ⟨-, head⟩ | ⟨-, -, head⟩ :=
    lexemeAt_cases after c
  case inl => exact .inl gap
  all_goals rw [head] at found
  case inr.inl =>
    refine .inr (by_contra fun line => ?_)
    have long := length_lt_restOfLine tail line digit
    cases found
    omega
  case inr.inr.inl => cases found
  case inr.inr.inr.inl =>
    unfold doubleQuotedAt at found
    split at found <;> cases found
  case inr.inr.inr.inr.inl =>
    unfold quoteAt at found
    split at found
    · cases found
    · split at found <;> cases found
  case inr.inr.inr.inr.inr =>
    unfold numberOr at found
    split at found
    · cases found
    · split at found
      · exact .inr (newline_of_continuationAt? digit (continuationAt?_of_gap found) short)
      · exact absurd found (symbolAt_ne_gap c _ more)

/-- A lexeme that ends in front of digits is the same whatever stands behind them, if that
starts with a blank. -/
theorem lexemeAt_digits {after : Bool} {c : Char} {rest digits tail tail' : List Char}
    {more : Nat} (some : digits ≠ []) (all : digits.all Char.isDigit)
    (takes : (lexemeAt after c (rest ++ (digits ++ tail))).Takes more)
    (short : more ≤ rest.length) (other : tail' = tail ∨ Quiet tail') :
    lexemeAt after c (rest ++ (digits ++ tail')) = lexemeAt after c (rest ++ (digits ++ tail)) := by
  rcases other with rfl | quiet
  · rfl
  cases found : lexemeAt after c (rest ++ (digits ++ tail)) with
  | token t n =>
    have part := lexemeAt_take takes (Nat.le_trans short (Nat.le_add_right _ digits.length))
    rw [found, ← List.append_assoc, List.take_left' List.length_append] at part
    rw [← List.append_assoc]
    exact lexemeAt_append_blank quiet part
  | gap n =>
    obtain rfl : n = more := by
      rw [found] at takes
      exact takes
    cases digits with
    | nil => exact absurd rfl some
    | cons d digits =>
      have digit : d.isDigit := (Bool.and_eq_true_iff.mp all).1
      rcases newline_of_gap digit found short with blank | newline
      · have head : ∀ cs, lexemeAt after c cs = .gap 0 := fun cs => by
          rw [lexemeAt, if_pos blank]
        rw [← found, head, head]
      · obtain ⟨body, behind, rfl⟩ := List.append_of_mem newline
        have line : ∀ behind', lexemeAt after c (body ++ '\n' :: behind ++ behind')
            = lexemeAt after c (body ++ ['\n']) := fun behind' => by
          rw [List.append_assoc, List.cons_append, lexemeAt_line]
        rw [← found, line, line]
  | invalid | unterminated =>
    rw [found] at takes
    cases takes

end

/-! ## The same front -/

/-- The words of a text stand behind its first byte. -/
theorem start_of_tokensFrom {cs : List Char} {position previousEnd : Nat}
    {previous : Option Token} {ts : List Spanned}
    (h : tokensFrom cs position previousEnd previous = .ok ts) :
    ∀ w ∈ ts, position ≤ w.start := by
  fun_induction tokensFrom cs position previousEnd previous generalizing ts with
  | case1 =>
    cases h
    exact fun _ mem => absurd mem List.not_mem_nil
  | case2 position previousEnd previous c rest more found ih =>
    exact fun w mem => Nat.le_trans (Nat.le_add_right _ _) (ih h w mem)
  | case3 position previousEnd previous c rest t more found stop us later =>
    rename_i ih
    cases h
    intro w mem
    rcases List.mem_cons.mp mem with rfl | mem
    · exact Nat.le_refl _
    · exact Nat.le_trans (Nat.le_add_right _ _) (ih later w mem)
  | case4 => cases h
  | case5 => cases h
  | case6 => cases h

/-- A lexeme that ends before a character of the text takes no more than stands in front. -/
theorem short_of_occupied {c d : Char} {rest behind : List Char} {more : Nat}
    (le : occupied (c :: (rest ++ d :: behind).take more) ≤ occupied (c :: rest)) :
    more ≤ rest.length := by
  by_contra long
  have part : rest ++ [d] <+: (rest ++ d :: behind).take more := by
    rw [List.prefix_take_iff]
    refine ⟨⟨behind, by simp⟩, ?_⟩
    rw [List.length_append, List.length_singleton]
    omega
  obtain ⟨more, whole⟩ := part
  have pos := d.utf8Size_pos
  rw [← whole, occupied_cons, occupied_cons, occupied_append, occupied_append, occupied_cons] at le
  omega

/-- Up to a word that starts with digits a text is read alike, whatever stands behind the
digits, if that starts with a blank. -/
theorem tokensFrom_front {digits tail : List Char} (some : digits ≠ [])
    (all : digits.all Char.isDigit) (front : List Char) {position previousEnd : Nat}
    {previous : Option Token} {ts : List Spanned}
    (h : tokensFrom (front ++ (digits ++ tail)) position previousEnd previous = .ok ts)
    {w : Spanned} (mem : w ∈ ts) (start : w.start = position + occupied front) :
    ∃ (before : List Spanned) (stop : Nat) (last : Option Token),
      ∀ tail', tail' = tail ∨ Quiet tail' →
        tokensFrom (front ++ (digits ++ tail')) position previousEnd previous
          = (tokensFrom (digits ++ tail') w.start stop last).map (before ++ ·) := by
  match front with
  | [] =>
    refine ⟨[], previousEnd, previous, fun tail' _ => ?_⟩
    rw [start, occupied, Nat.add_zero, List.nil_append]
    cases tokensFrom (digits ++ tail') position previousEnd previous <;> rfl
  | c :: rest =>
    obtain ⟨d, digits', rfl⟩ := List.exists_cons_of_ne_nil some
    have short : ∀ {more}, position + occupied (c :: (rest ++ (d :: digits' ++ tail)).take more)
        ≤ w.start → more ≤ rest.length := fun le =>
      short_of_occupied (Nat.le_of_add_le_add_left (start ▸ le))
    have later : ∀ more, w.start
        = position + occupied (c :: rest.take more) + occupied (rest.drop more) := fun more => by
      rw [start, Nat.add_assoc, ← occupied_append, List.cons_append, List.take_append_drop]
    rw [List.cons_append, tokensFrom] at h
    cases found : lexemeAt (quoteTransposes previous previousEnd position) c
        (rest ++ (d :: digits' ++ tail)) with
    | invalid | unterminated =>
      rw [found] at h
      cases h
    | gap more =>
      rw [found] at h
      dsimp only at h
      have short := short (start_of_tokensFrom h w mem)
      rw [List.drop_append_of_le_length short, List.take_append_of_le_length short] at h
      obtain ⟨before, stop, last, run⟩ :=
        tokensFrom_front some all (rest.drop more) h mem (later more)
      refine ⟨before, stop, last, fun tail' other => ?_⟩
      have same := lexemeAt_digits some all (by rw [found]; rfl) short other
      rw [List.cons_append, tokensFrom, same, found]
      dsimp only
      rw [List.drop_append_of_le_length short, List.take_append_of_le_length short]
      exact run tail' other
    | token t more =>
      rw [found] at h
      dsimp only at h
      split at h <;> cases h
      rename_i us h
      have mem : w ∈ us := by
        refine (List.mem_cons.mp mem).resolve_left fun first => ?_
        have pos := c.utf8Size_pos
        have here : w.start = position := congrArg Spanned.start first
        rw [occupied_cons] at start
        omega
      have short := short (start_of_tokensFrom h w mem)
      rw [List.drop_append_of_le_length short, List.take_append_of_le_length short] at h
      obtain ⟨before, stop, last, run⟩ :=
        tokensFrom_front some all (rest.drop more) h mem (later more)
      refine ⟨⟨t, position, position + occupied (c :: rest.take more), previousEnd < position⟩
        :: before, stop, last, fun tail' other => ?_⟩
      have same := lexemeAt_digits some all (by rw [found]; rfl) short other
      rw [List.cons_append, tokensFrom, same, found]
      dsimp only
      rw [List.drop_append_of_le_length short, List.take_append_of_le_length short,
        run tail' other]
      cases tokensFrom (d :: digits' ++ tail') w.start stop last <;> rfl
termination_by front.length
decreasing_by all_goals simp

/-! ## Operators that are written with a point -/

/-- Operators that a point makes element-wise, and the transpose that it makes plain. -/
inductive PointOp where
  | mul
  | rightDiv
  | leftDiv
  | pow
  | transpose
deriving DecidableEq, Repr

namespace PointOp

/-- What stands behind the point. -/
def symbol : PointOp → Char
  | mul => '*'
  | rightDiv => '/'
  | leftDiv => '\\'
  | pow => '^'
  | transpose => '\x27'

/-- The operator as it is written with its point. -/
def text (op : PointOp) : String := String.ofList ['.', op.symbol]

/-- The operator with its point. -/
def dotted : PointOp → Token
  | mul => .dotStar
  | rightDiv => .dotSlash
  | leftDiv => .dotBackslash
  | pow => .dotCaret
  | transpose => .dotApostrophe

/-- The operator without its point. -/
def plain : PointOp → Token
  | mul => .star
  | rightDiv => .slash
  | leftDiv => .backslash
  | pow => .caret
  | transpose => .apostrophe

theorem endsValue_plain (op : PointOp) : op.plain.endsValue = op.dotted.endsValue := by
  cases op <;> rfl

theorem spelling_plain (op : PointOp) (rest : List Char) :
    op.plain.spelling ++ rest = op.symbol :: rest := by cases op <;> rfl

theorem spelling_dotted (op : PointOp) (rest : List Char) :
    op.dotted.spelling ++ rest = '.' :: op.symbol :: rest := by cases op <;> rfl

theorem occupied_plain (op : PointOp) : occupied op.plain.spelling = 1 := by cases op <;> rfl

theorem occupied_dotted (op : PointOp) : occupied op.dotted.spelling = 2 := by cases op <;> rfl

theorem endsWord_symbol (op : PointOp) (r : List Char) : EndsWord (op.symbol :: r) := by
  intro c mem
  obtain rfl : op.symbol = c := Option.some.inj mem
  cases op <;> decide

theorem lexes_plain (op : PointOp) (r : List Char) : op.plain.Lexes true r := by
  refine lexes ?_ (fun _ => rfl) ?_
  · cases op <;> trivial
  · cases op <;> trivial

theorem lexes_dotted (op : PointOp) (after : Bool) (r : List Char) : op.dotted.Lexes after r := by
  refine lexes ?_ ?_ ?_
  · cases op <;> trivial
  · cases op <;> nofun
  · cases op <;> trivial

end PointOp

/-- With a point behind it an integer is a floating-point number. -/
theorem spells_point {s : String} (some : s ≠ "") (digits : s.toList.all Char.isDigit) :
    LiteralKind.float.spells (s ++ ".") := by
  have letters : (s ++ ".").toList = s.toList ++ ['.'] := String.toList_append ..
  have some : s.toList ≠ [] := by simpa using some
  rw [LiteralKind.spells, letters]
  generalize s.toList = d at some digits ⊢
  have count : digitCount (d ++ ['.']) = d.length := digitCount_of_all digits (by simp)
  have behind : (d ++ ['.']).drop (digitCount (d ++ ['.'])) = ['.'] := by
    rw [count, List.drop_left]
  have mantissa : mantissaAt? (d ++ ['.']) = .some (true, d.length + 1) := by
    rw [mantissaAt?_point behind, count]
    simp [digitCount, List.length_eq_zero_iff, some]
  have rest : (d ++ ['.']).drop (d.length + 1) = [] := List.drop_of_length_le (by simp)
  simp [numberAt?, mantissa, rest, exponentLength, startsImaginary]

theorem spells_digits {s : String} (some : s ≠ "") (digits : s.toList.all Char.isDigit) :
    LiteralKind.int.spells s := by
  have some : s.toList ≠ [] := by simpa using some
  rw [LiteralKind.spells]
  generalize s.toList = d at some digits ⊢
  have count : digitCount d = d.length := by
    simpa using digitCount_of_all digits (show ∀ c ∈ ([] : List Char).head?, _ from fun _ mem => by cases mem)
  have behind : ∀ rest, d.drop (digitCount d) ≠ '.' :: rest := by simp [count]
  have mantissa : mantissaAt? d = .some (false, d.length) := by
    rw [mantissaAt?_plain behind, count, if_neg (by simp [some])]
  simp [numberAt?, mantissa, exponentLength, startsImaginary]

theorem tokensFrom_word {t : Token} {tail : List Char} (position : Nat) {previousEnd : Nat}
    {previous : Option Token} (h : t.Lexes (quoteTransposes previous previousEnd position) tail) :
    ∃ v : Spanned, v.token = t ∧ tokensFrom (t.spelling ++ tail) position previousEnd previous
      = (tokensFrom tail (position + occupied t.spelling) (position + occupied t.spelling)
          (some t)).map (v :: ·) :=
  ⟨_, rfl, tokensFrom_spelling h⟩

section

variable {digits : String} (op : PointOp) (rest : List Char) (position previousEnd : Nat)
  (previous : Option Token)

/-- The lexer finds an integer with the point behind it, and the operator without it. -/
theorem tokensFrom_point (some : digits ≠ "") (all : digits.toList.all Char.isDigit) :
    ∃ v w, v.token = .float (digits ++ ".") ∧ w.token = op.plain
      ∧ tokensFrom (digits.toList ++ '.' :: op.symbol :: rest) position previousEnd previous
        = (tokensFrom rest (position + occupied digits.toList + 2)
            (position + occupied digits.toList + 2) (.some op.plain)).map ([v, w] ++ ·) := by
  generalize number : Token.float (digits ++ ".") = t
  have spelling : t.spelling = digits.toList ++ ['.'] := by
    rw [← number]
    exact String.toList_append ..
  have lexes : t.Lexes (quoteTransposes previous previousEnd position) (op.symbol :: rest) := by
    subst number
    refine lexes ?_ ?_ ?_
    · exact spells_point some all
    · nofun
    · exact op.endsWord_symbol rest
  have transposes : ∀ n, quoteTransposes (.some t) n n = true := by
    subst number
    simp [quoteTransposes, endsValue]
  obtain ⟨v, token, first⟩ := tokensFrom_word position lexes
  obtain ⟨w, operator, second⟩ := tokensFrom_word (position + occupied t.spelling)
    (transposes _ ▸ op.lexes_plain rest)
  rw [op.spelling_plain, op.occupied_plain] at second
  rw [second, spelling, List.append_assoc, List.singleton_append, occupied_append,
    show position + (occupied digits.toList + occupied ['.']) + 1
      = position + occupied digits.toList + 2 from rfl] at first
  refine ⟨v, w, token, operator, ?_⟩
  rw [first]
  cases tokensFrom rest _ _ (.some op.plain) <;> rfl

/-- In front of a blank the lexer finds the integer, and behind it the operator with its
point. -/
theorem tokensFrom_blank_point (some : digits ≠ "") (all : digits.toList.all Char.isDigit) :
    ∃ v w, v.token = .int digits ∧ w.token = op.dotted
      ∧ tokensFrom (digits.toList ++ ' ' :: '.' :: op.symbol :: rest) position previousEnd previous
        = (tokensFrom rest (position + occupied digits.toList + 3)
            (position + occupied digits.toList + 3) (.some op.dotted)).map ([v, w] ++ ·) := by
  generalize number : Token.int digits = t
  have spelling : t.spelling = digits.toList := by
    rw [← number]
    rfl
  have lexes : t.Lexes (quoteTransposes previous previousEnd position)
      (' ' :: '.' :: op.symbol :: rest) := by
    subst number
    refine lexes ?_ ?_ ?_
    · exact spells_digits some all
    · nofun
    · exact (quiet_blank _).endsWord
  obtain ⟨v, token, first⟩ := tokensFrom_word position lexes
  obtain ⟨w, operator, second⟩ := tokensFrom_word (position + occupied t.spelling + 1)
    (op.lexes_dotted
      (quoteTransposes (.some t) (position + occupied t.spelling) (position + occupied t.spelling + 1))
      rest)
  rw [op.spelling_dotted, op.occupied_dotted] at second
  rw [tokensFrom_blank, second, spelling] at first
  refine ⟨v, w, token, operator, ?_⟩
  rw [first]
  cases tokensFrom rest _ _ (.some op.dotted) <;> rfl

end

/-- A point right behind an integer belongs to the integer, and leaves the operator without
it; behind a blank it belongs to the operator.  All other words are the same. -/
theorem tokenize_point (front digits rest : String) (op : PointOp) (some : digits ≠ "")
    (all : digits.toList.all Char.isDigit) {ts : List Spanned}
    (h : tokenize (front ++ digits ++ op.text ++ rest) = .ok ts) {w : Spanned} (mem : w ∈ ts)
    (start : w.start = occupied front.toList) :
    ∃ us before after,
      tokenize (front ++ digits ++ " " ++ op.text ++ rest) = .ok us
      ∧ ts.map (·.token) = before ++ .float (digits ++ ".") :: op.plain :: after
      ∧ us.map (·.token) = before ++ .int digits :: op.dotted :: after := by
  have some' : digits.toList ≠ [] := by simpa using some
  have joined : (front ++ digits ++ op.text ++ rest).toList
      = front.toList ++ (digits.toList ++ '.' :: op.symbol :: rest.toList) := by
    simp [PointOp.text]
  have apart : (front ++ digits ++ " " ++ op.text ++ rest).toList
      = front.toList ++ (digits.toList ++ ' ' :: '.' :: op.symbol :: rest.toList) := by
    simp [PointOp.text]
  rw [tokenize, joined] at h
  rw [tokenize, apart]
  obtain ⟨before, stop, last, front⟩ :=
    tokensFrom_front some' all front.toList h mem ((Nat.zero_add _).symm ▸ start)
  obtain ⟨v, w', float, plain, run⟩ :=
    tokensFrom_point op rest.toList w.start stop last some all
  obtain ⟨v', w'', int, dotted, run'⟩ :=
    tokensFrom_blank_point op rest.toList w.start stop last some all
  rw [front _ (.inl rfl), run] at h
  rw [front _ (.inr (quiet_blank _)), run']
  cases later : tokensFrom rest.toList (w.start + occupied digits.toList + 2)
      (w.start + occupied digits.toList + 2) (.some op.plain) with
  | error e =>
    rw [later] at h
    cases h
  | ok vs =>
    rw [later] at h
    cases h
    have shifted := tokensFrom_shift later 1
      (show (Option.some op.dotted).any endsValue = _ from op.endsValue_plain.symm)
    rw [show w.start + occupied digits.toList + 3 = 1 + (w.start + occupied digits.toList + 2) by
      omega, shifted]
    refine ⟨_, before.map (·.token), vs.map (·.token), rfl, ?_, ?_⟩
    · simp [float, plain]
    · simp [int, dotted, Spanned.shift, Function.comp_def]

/-- In `1.*x` the point belongs to the number. -/
theorem tokenize_point_times :
    ∃ us before after,
      tokenize "y = 1 .*x" = .ok us
      ∧ [.ident "y", .equals, .float "1.", .star, .ident "x"]
        = before ++ Token.float "1." :: .star :: after
      ∧ us.map (·.token) = before ++ Token.int "1" :: .dotStar :: after := by
  have run : tokenize ("y = " ++ "1" ++ PointOp.mul.text ++ "x")
      = .ok [⟨.ident "y", 0, 1, false⟩, ⟨.equals, 2, 3, true⟩, ⟨.float "1.", 4, 6, true⟩,
        ⟨.star, 6, 7, false⟩, ⟨.ident "x", 7, 8, false⟩] := by decide +kernel
  exact tokenize_point "y = " "1" "x" .mul (by decide) (by decide) run
    (.tail _ (.tail _ (.head _))) (by decide)

/-- The blank makes a difference: without it the product is no element-wise one. -/
theorem tokenize_point_not :
    (tokenize "1.*x").map (List.map (·.token))
      ≠ (tokenize "1 .*x").map (List.map (·.token)) := by decide +kernel

end MatrixScript.Token
