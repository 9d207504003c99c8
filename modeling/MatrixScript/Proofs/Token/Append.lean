/-
# `Proofs.Token.Append` — the tokens of one text behind another

A text whose last token is the newline that it ends with (`EndsLine`) has the same
tokens whatever stands behind it, and what stands there has the tokens that it has
alone, some bytes further on (`tokenize_append`).  The lexer never looks past the end
of a line to see what it has in front of it (`lexemeAt_line`).  That the newline is a
token is needed: one that a continuation swallows joins the lines.
-/
import MatrixScript.Proofs.Token.Partition

namespace MatrixScript

/-- The word so many bytes further on. -/
def Spanned.shift (n : Nat) (w : Spanned) : Spanned :=
  { w with start := n + w.start, stop := n + w.stop }

@[simp] theorem Spanned.look_shift (n : Nat) (w : Spanned) : (w.shift n).look = w.look := rfl

theorem Spanned.map_look_shift (n : Nat) (ts : List Spanned) :
    (ts.map (Spanned.shift n)).map Spanned.look = ts.map Spanned.look := by
  rw [List.map_map]
  rfl

theorem Spanned.shift_shift (n m : Nat) (w : Spanned) : (w.shift n).shift m = w.shift (m + n) := by
  simp [Spanned.shift, Nat.add_assoc]

theorem Spanned.shift_zero : Spanned.shift 0 = id := funext fun w => by simp [Spanned.shift]

namespace Token

open Text

/-- The last of the tokens is the newline that the text ends with. -/
def EndsLine (source : String) (ts : List Spanned) : Prop :=
  ∃ w, ts.getLast? = some w ∧ w.token = .newline ∧ w.stop = occupied source.toList

/-! ## Up to the end of the line -/

theorem restOfLine_line (body tail : List Char) :
    restOfLine (body ++ '\n' :: tail) = restOfLine body := by
  unfold restOfLine
  rw [List.takeWhile_append]
  split
  case isTrue all =>
    rw [(List.takeWhile_prefix _).eq_of_length all]
    simp
  case isFalse => rfl

/-- A string closes on its line or nowhere. -/
theorem quotedAt?_line {quote : Char} (ne : quote ≠ '\n') (tail : List Char) :
    (body : List Char) →
      quotedAt? quote (body ++ '\n' :: tail) = quotedAt? quote (body ++ ['\n'])
  | [] => by
      have none : ∀ tail, quotedAt? quote ('\n' :: tail) = none := by
        intro tail
        cases tail with
        | nil => simp [quotedAt?, Ne.symm ne]
        | cons => simp [quotedAt?, Ne.symm ne]
      rw [List.nil_append, List.nil_append, none, none]
  | [c] => by
      have rest := quotedAt?_line ne tail []
      rw [List.nil_append, List.nil_append] at rest
      rw [List.cons_append, List.cons_append, List.nil_append, List.nil_append, quotedAt?,
        quotedAt?, rest, if_neg (Ne.symm ne), if_neg (Ne.symm ne)]
  | c :: d :: rest => by
      have behind := quotedAt?_line ne tail rest
      have later := quotedAt?_line ne tail (d :: rest)
      rw [List.cons_append, List.cons_append] at later
      rw [List.cons_append, List.cons_append, List.cons_append, List.cons_append, quotedAt?,
        quotedAt?, behind, later]

theorem continuationAt?_line (body tail : List Char) :
    continuationAt? (body ++ '\n' :: tail) = continuationAt? (body ++ ['\n']) := by
  match body with
  | [] => rfl
  | [c] =>
    unfold continuationAt?
    simp
  | c :: d :: rest =>
    have inside : ∀ tail : List Char,
        (restOfLine (rest ++ '\n' :: tail)).length < (rest ++ '\n' :: tail).length := by
      intro tail
      rw [restOfLine_line, List.length_append, List.length_cons]
      have part : (restOfLine rest).length ≤ rest.length :=
        (List.takeWhile_sublist _).length_le
      omega
    by_cases dots : c = '.' ∧ d = '.'
    case pos =>
      obtain ⟨rfl, rfl⟩ := dots
      rw [List.cons_append, List.cons_append, List.cons_append, List.cons_append, continuationAt?,
        continuationAt?, if_pos (inside tail), if_pos (inside []), restOfLine_line,
        restOfLine_line]
    case neg =>
      have other : ∀ tail : List Char, continuationAt? (c :: d :: rest ++ tail) = none := by
        intro tail
        unfold continuationAt?
        simp only [List.cons_append]
        split
        case h_1 same =>
          obtain ⟨rfl, more⟩ := List.cons.inj same
          obtain ⟨rfl, -⟩ := List.cons.inj more
          exact absurd ⟨rfl, rfl⟩ dots
        case h_2 => rfl
      rw [other, other]

theorem dottedAt_line (body tail : List Char) :
    dottedAt (body ++ '\n' :: tail) = dottedAt (body ++ ['\n']) := by
  have continues := continuationAt?_line body tail
  cases body with
  | nil => rfl
  | cons d rest =>
    by_cases operator : d = '*' ∨ d = '/' ∨ d = '\\' ∨ d = '^' ∨ d = '\x27'
    case pos => rcases operator with rfl | rfl | rfl | rfl | rfl <;> rfl
    case neg =>
      rw [List.cons_append, List.cons_append] at continues ⊢
      rw [dottedAt_plain operator, dottedAt_plain operator, continues]

theorem numberOr_line (c : Char) (body tail : List Char) :
    numberOr c (body ++ '\n' :: tail) = numberOr c (body ++ ['\n']) := by
  unfold numberOr
  rw [← List.cons_append, ← List.cons_append, numberAt?_append_quiet (quiet_line tail),
    numberAt?_append_quiet (quiet_line [])]
  cases number : numberAt? (c :: body) with
  | some parts =>
    obtain ⟨kind, n⟩ := parts
    dsimp only
    rw [List.take_append_of_le_length (numberAt?_le number),
      List.take_append_of_le_length (numberAt?_le number)]
  | none =>
    dsimp only
    rw [dottedAt_line, symbolAt_append_quiet (quiet_line tail),
      symbolAt_append_quiet (quiet_line [])]

/-- What the lexer has in front of it is decided on the line. -/
theorem lexemeAt_line (after : Bool) (c : Char) (body tail : List Char) :
    lexemeAt after c (body ++ '\n' :: tail) = lexemeAt after c (body ++ ['\n']) := by
  obtain ⟨-, head⟩ | ⟨-, head⟩ | ⟨-, head⟩ | ⟨-, head⟩ | ⟨-, head⟩ | ⟨-, -, head⟩ :=
    lexemeAt_cases after c <;> rw [head, head]
  case inr.inl => rw [restOfLine_line, restOfLine_line]
  case inr.inr.inl =>
    unfold wordAt
    rw [takeWhile_append_quiet (quiet_line tail) (by decide),
      takeWhile_append_quiet (quiet_line []) (by decide)]
  case inr.inr.inr.inl =>
    unfold doubleQuotedAt
    rw [quotedAt?_line (by decide), restOfLine_line, restOfLine_line]
  case inr.inr.inr.inr.inl =>
    unfold quoteAt
    rw [quotedAt?_line (by decide)]
  case inr.inr.inr.inr.inr => exact numberOr_line c body tail

/-- Where the text ends with its line, nothing behind it is looked at. -/
theorem lexemeAt_append_line {c : Char} {rest body : List Char} (ends : c :: rest = body ++ ['\n'])
    (after : Bool) (tail : List Char) :
    lexemeAt after c (rest ++ tail) = lexemeAt after c rest := by
  cases body with
  | nil =>
    obtain ⟨rfl, rfl⟩ := List.cons.inj ends
    rfl
  | cons d body =>
    obtain ⟨rfl, rest⟩ := List.cons.inj ends
    rw [show _ = body ++ ['\n'] from rest, List.append_assoc]
    exact lexemeAt_line after c body tail

/-! ## One text behind another -/

section

variable {cs : List Char} {position previousEnd : Nat} {previous : Option Token}
  {ts : List Spanned} {w : Spanned}

theorem occupied_eq_zero {cs : List Char} (h : occupied cs = 0) : cs = [] :=
  List.isEmpty_iff.mp (isEmpty_iff_occupied.mpr h)

/-- A text that ends with a newline as its last token ends with that character. -/
theorem exists_line (h : tokensFrom cs position previousEnd previous = .ok ts)
    (last : ts.getLast? = some w) (newline : w.token = .newline)
    (stops : w.stop = position + occupied cs) : ∃ body, cs = body ++ ['\n'] := by
  fun_induction tokensFrom cs position previousEnd previous generalizing ts with
  | case1 =>
    cases h
    cases last
  | case2 position previousEnd previous c rest more found ih =>
    have whole : c :: rest = (c :: rest.take more) ++ rest.drop more := by simp
    rw [whole, occupied_append, ← Nat.add_assoc] at stops
    obtain ⟨body, eq⟩ := ih h last stops
    exact ⟨c :: rest.take more ++ body, by rw [List.append_assoc, ← eq, ← whole]⟩
  | case3 position previousEnd previous c rest t more found stop us later =>
    rename_i ih
    cases h
    have whole : c :: rest = (c :: rest.take more) ++ rest.drop more := by simp
    rw [whole, occupied_append, ← Nat.add_assoc] at stops
    cases us with
    | nil =>
      obtain rfl := Option.some.inj last
      have nothing : rest.drop more = [] := occupied_eq_zero (Nat.left_eq_add.mp stops)
      have written := (startsWith_of_lexemeAt found).2
      rw [show t = .newline from newline] at written
      have line : c :: rest.take more = ['\n'] := List.mem_singleton.mp written.2
      exact ⟨[], by rw [whole, nothing, line]; rfl⟩
    | cons u us =>
      rw [List.getLast?_cons_cons] at last
      obtain ⟨body, eq⟩ := ih later last stops
      exact ⟨c :: rest.take more ++ body, by rw [List.append_assoc, ← eq, ← whole]⟩
  | case4 => cases h
  | case5 => cases h
  | case6 => cases h

/-- Behind a text that ends with its line the lexer goes on as behind a newline. -/
theorem tokensFrom_append (h : tokensFrom cs position previousEnd previous = .ok ts)
    (last : ts.getLast? = some w) (newline : w.token = .newline)
    (stops : w.stop = position + occupied cs) {more : List Char} {us : List Spanned}
    (behind : tokensFrom more w.stop w.stop (some .newline) = .ok us) :
    tokensFrom (cs ++ more) position previousEnd previous = .ok (ts ++ us) := by
  obtain ⟨body, ends⟩ := exists_line h last newline stops
  fun_induction tokensFrom cs position previousEnd previous generalizing ts body with
  | case1 =>
    cases h
    cases last
  | case2 position previousEnd previous c rest size found ih =>
    have front : size ≤ rest.length := by
      -- else nothing is left for the newline
      refine Nat.le_of_not_lt fun short => ?_
      rw [List.drop_eq_nil_of_le (Nat.le_of_lt short), tokensFrom] at h
      cases h
      cases last
    have whole : c :: rest = (c :: rest.take size) ++ rest.drop size := by simp
    rw [whole, occupied_append, ← Nat.add_assoc] at stops
    obtain ⟨body', ends'⟩ := exists_line h last newline stops
    rw [List.cons_append, tokensFrom, lexemeAt_append_line ends, found]
    dsimp only
    rw [List.drop_append_of_le_length front, List.take_append_of_le_length front]
    exact ih h last stops body' ends'
  | case3 position previousEnd previous c rest t size found stop us' later =>
    rename_i ih
    cases h
    have front : size ≤ rest.length := (startsWith_of_lexemeAt found).1
    have whole : c :: rest = (c :: rest.take size) ++ rest.drop size := by simp
    rw [whole, occupied_append, ← Nat.add_assoc] at stops
    rw [List.cons_append, tokensFrom, lexemeAt_append_line ends, found]
    dsimp only
    rw [List.drop_append_of_le_length front, List.take_append_of_le_length front]
    cases us' with
    | nil =>
      obtain rfl := Option.some.inj last
      have nothing : rest.drop size = [] := occupied_eq_zero (Nat.left_eq_add.mp stops)
      obtain rfl : t = .newline := newline
      have run : tokensFrom more stop stop (some .newline) = .ok us := behind
      rw [nothing, List.nil_append, run]
      rfl
    | cons u us' =>
      rw [List.getLast?_cons_cons] at last
      obtain ⟨body', ends'⟩ := exists_line later last newline stops
      rw [ih later last stops body' ends']
      rfl
  | case4 => cases h
  | case5 => cases h
  | case6 => cases h

/-- Some bytes further on, and behind another token that ends a value exactly if the one
before did, the tokens are the same. -/
theorem tokensFrom_shift (h : tokensFrom cs position previousEnd previous = .ok ts) (n : Nat)
    {previous' : Option Token} (same : previous'.any endsValue = previous.any endsValue) :
    tokensFrom cs (n + position) (n + previousEnd) previous' = .ok (ts.map (Spanned.shift n)) := by
  have flag : ∀ previousEnd position : Nat,
      quoteTransposes previous' (n + previousEnd) (n + position)
        = quoteTransposes previous previousEnd position := by
    intro previousEnd position
    unfold quoteTransposes
    rw [same]
    congr 1
    rw [Bool.eq_iff_iff, beq_iff_eq, beq_iff_eq]
    omega
  fun_induction tokensFrom cs position previousEnd previous generalizing ts previous' with
  | case1 =>
    cases h
    rw [tokensFrom]
    rfl
  | case2 position previousEnd previous c rest size found ih =>
    rw [tokensFrom, flag, found]
    dsimp only
    rw [Nat.add_assoc]
    exact ih h same flag
  | case3 position previousEnd previous c rest t size found stop us later =>
    rename_i ih
    cases h
    have after : ∀ previousEnd position : Nat,
        quoteTransposes (some t) (n + previousEnd) (n + position)
          = quoteTransposes (some t) previousEnd position := by
      intro previousEnd position
      unfold quoteTransposes
      congr 1
      rw [Bool.eq_iff_iff, beq_iff_eq, beq_iff_eq]
      omega
    have spaced : decide (n + previousEnd < n + position) = decide (previousEnd < position) := by
      rw [decide_eq_decide]
      omega
    rw [tokensFrom, flag, found]
    dsimp only
    rw [Nat.add_assoc, show n + (position + occupied (c :: rest.take size)) = n + stop from rfl,
      ih later rfl after, spaced]
    rfl
  | case4 => cases h
  | case5 => cases h
  | case6 => cases h

end

/-- Behind a text that ends with its line another one has its own tokens. -/
theorem tokenize_append {source more : String} {ts us : List Spanned}
    (h : tokenize source = .ok ts) (ends : EndsLine source ts) (h' : tokenize more = .ok us) :
    tokenize (source ++ more) = .ok (ts ++ us.map (Spanned.shift (occupied source.toList))) := by
  obtain ⟨w, last, newline, stops⟩ := ends
  rw [tokenize, String.toList_append]
  refine tokensFrom_append h last newline (by rw [stops, Nat.zero_add]) ?_
  rw [stops]
  exact tokensFrom_shift h' (occupied source.toList) rfl

end Token

end MatrixScript
