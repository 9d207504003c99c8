/-
# `Proofs.Cpp.Fragments` — tokens of texts that are put together

`tokens` splits a text into names, numbers and operators of C++, where the longest token wins.
So whether texts that are put side by side keep their tokens depends on the last token of the
one and the first character of the other (`Parts`): if that token ends there, the tokens are
those of both texts (`split_append`), and else those of the first text are not even found
again at the head (`not_prefix_split`).

A text that is put together from fragments has the tokens of the fragments exactly if every fragment
parts from the next one (`tokens_spelled_iff`).  Where operands alternate with operators
(`Alternates`), that is so unless a minus meets a minus or a number meets a point
(`tokens_of_alternates`); and then the text can be an operand in its turn
(`Pasteable.of_alternates`).
-/
import Mathlib.Data.List.Chain
import MatrixScript.Proofs.Cpp.Subscript
import MatrixScript.Proofs.Token.Lexeme
import MatrixScript.Token.Lexer

namespace MatrixScript.Cpp

/-! ## Tokens -/

/-- Operators of two characters, and the openings of comments. -/
def pairs : List (Char × Char) :=
  [('-', '-'), ('+', '+'), ('/', '/'), ('/', '*'), ('&', '&'), ('|', '|'), ('=', '='), ('<', '='),
    ('>', '='), ('!', '='), (':', ':'), ('-', '>'), ('<', '<'), ('>', '>'), ('+', '='), ('-', '='),
    ('*', '='), ('/', '='), ('%', '='), ('&', '='), ('|', '='), ('^', '=')]

/-- The token is a number: it starts with a digit, which a point may stand in front of. -/
def isNumber : List Char → Bool
  | '.' :: d :: _ => d.isDigit
  | c :: _ => c.isDigit
  | [] => false

/-- The token goes on with the character; a number with a sign right behind the letter of an
exponent. -/
def goesOn (token : List Char) (c : Char) : Bool :=
  match token with
  | [] => true
  | p :: rest =>
      if Token.isWordStart p then Token.isWordRest c
      else if isNumber token then
        Token.isWordRest c || c == '.'
          || ((c == '+' || c == '-') && token.getLast?.any fun e => e == 'e' || e == 'E')
      else rest.isEmpty && (pairs.contains (p, c) || (p == '.' && c.isDigit))

/-- The token that is being read, if any is. -/
def flush (token : List Char) : List (List Char) := if token = [] then [] else [token]

/-- Tokens of a text behind the start of one. -/
def split (token : List Char) : List Char → List (List Char)
  | [] => flush token
  | c :: cs =>
      if c = ' ' then flush token ++ split [] cs
      else if goesOn token c then split (token ++ [c]) cs
      else token :: split [c] cs

/-- Tokens of a text. -/
def tokens (text : String) : List String := (split [] text.toList).map String.ofList

example : tokens "a--(b)<=1e-5" = ["a", "--", "(", "b", ")", "<=", "1e-5"] := by decide

/-- The token that reading a text behind the start of one ends in; none behind a blank. -/
def pending (token : List Char) : List Char → List Char
  | [] => token
  | c :: cs => pending (if c = ' ' then [] else if goesOn token c then token ++ [c] else [c]) cs

/-- The token that a text ends in. -/
def lastToken (text : String) : List Char := pending [] text.toList

/-- The token ends in front of the text. -/
def Parts (token text : List Char) : Prop :=
  token = [] ∨ ∀ c ∈ text.head?, c = ' ' ∨ goesOn token c = false

/-! ## Splitting side by side -/

variable {token a b : List Char}

theorem pending_append (token a b : List Char) :
    pending token (a ++ b) = pending (pending token a) b := by
  induction a generalizing token with
  | nil => rfl
  | cons c a ih => rw [List.cons_append, pending, pending, ih]

/-- The start of a token is found again at the head of the tokens. -/
theorem exists_split (some : token ≠ []) (a : List Char) :
    ∃ more rest, split token a = (token ++ more) :: rest := by
  induction a generalizing token with
  | nil => exact ⟨[], [], by rw [split, flush, if_neg some, List.append_nil]⟩
  | cons c a ih =>
    rw [split]
    split
    · exact ⟨[], split [] a, by rw [flush, if_neg some, List.append_nil, List.singleton_append]⟩
    · split
      · obtain ⟨more, rest, eq⟩ := ih (show token ++ [c] ≠ [] by simp)
        exact ⟨c :: more, rest, by rw [eq, List.append_assoc, List.singleton_append]⟩
      · exact ⟨[], split [c] a, by rw [List.append_nil]⟩

theorem split_of_parts (parts : Parts token b) : split token b = flush token ++ split [] b := by
  rcases parts with rfl | parts
  · rw [flush, if_pos rfl, List.nil_append]
  · by_cases some : token = []
    · rw [some, flush, if_pos rfl, List.nil_append]
    cases b with
    | nil => rw [split, split, flush, flush, if_pos rfl, List.append_nil]
    | cons c b =>
      rcases parts c rfl with rfl | stop
      · simp [split, flush]
      · by_cases blank : c = ' '
        · simp [split, flush, blank]
        · rw [split, split, if_neg blank, if_neg blank, stop, if_neg Bool.false_ne_true,
            if_pos (show goesOn [] c from rfl), flush, if_neg some]
          rfl

/-- A text that a token ends in front of is split on its own. -/
theorem split_append (parts : Parts (pending token a) b) :
    split token (a ++ b) = split token a ++ split [] b := by
  induction a generalizing token with
  | nil => exact split_of_parts parts
  | cons c a ih =>
    rw [List.cons_append, split, split]
    rw [pending] at parts
    split
    case isTrue blank =>
      rw [if_pos blank] at parts
      rw [ih parts, List.append_assoc]
    case isFalse blank =>
      rw [if_neg blank] at parts
      split
      case isTrue more =>
        rw [if_pos more] at parts
        exact ih parts
      case isFalse stop =>
        rw [if_neg stop] at parts
        rw [ih parts, List.cons_append]

/-- If it does not end there, the tokens of the first text are not found again. -/
theorem not_prefix_split (parts : ¬Parts (pending token a) b) :
    ¬split token a <+: split token (a ++ b) := by
  induction a generalizing token with
  | nil =>
    rw [pending, Parts, not_or, Classical.not_forall] at parts
    obtain ⟨some, c, first⟩ := parts
    obtain ⟨here, more⟩ := Classical.not_imp.mp first
    obtain ⟨blank, more⟩ := not_or.mp more
    obtain ⟨b, rfl⟩ := List.head?_eq_some_iff.mp here
    rw [Bool.not_eq_false] at more
    obtain ⟨behind, rest, eq⟩ := exists_split (show token ++ [c] ≠ [] by simp) b
    rw [List.nil_append, split, split, if_neg blank, if_pos more, eq, flush, if_neg some,
      List.cons_prefix_cons]
    rintro ⟨same, -⟩
    have length := congrArg List.length same
    simp at length
  | cons c a ih =>
    rw [List.cons_append, split, split]
    rw [pending] at parts
    split
    case isTrue blank =>
      rw [if_pos blank] at parts
      rw [List.prefix_append_right_inj]
      exact ih parts
    case isFalse blank =>
      rw [if_neg blank] at parts
      split
      case isTrue more =>
        rw [if_pos more] at parts
        exact ih parts
      case isFalse stop =>
        rw [if_neg stop] at parts
        rw [List.cons_prefix_cons]
        exact fun same => ih parts same.2

/-! ## Fragments -/

/-- What texts are put together from. -/
inductive Fragment where
  /-- a text that is pasted -/
  | whole (text : String)
  /-- what stands in front of an operand -/
  | opening (text : String)
  /-- what stands between two operands -/
  | between (text : String)
  /-- what stands behind an operand -/
  | closing (text : String)
deriving DecidableEq, Repr

namespace Fragment

def text : Fragment → String
  | whole a | opening a | between a | closing a => a

/-- The text that is put together from fragments. -/
def spelled : List Fragment → String
  | [] => ""
  | p :: ps => p.text ++ spelled ps

theorem spelled_append (ps qs : List Fragment) : spelled (ps ++ qs) = spelled ps ++ spelled qs := by
  induction ps with
  | nil => rw [List.nil_append, spelled, String.empty_append]
  | cons p ps ih => rw [List.cons_append, spelled, spelled, ih, String.append_assoc]

/-- The last token of a fragment ends in front of the next fragment. -/
def Parted (p q : Fragment) : Prop := Parts (lastToken p.text) q.text.toList

/-- A minus would stand right in front of a minus, or a point behind a number. -/
def Fuses (p q : Fragment) : Prop :=
  lastToken p.text = ['-'] ∧ q.text.toList.head? = some '-'
    ∨ isNumber (lastToken p.text) ∧ q.text.toList.head? = some '.'

instance (p q : Fragment) : Decidable (p.Fuses q) := inferInstanceAs (Decidable (_ ∨ _))

end Fragment

/-- What is put together from fragments has their tokens exactly if every fragment parts from the
next one. -/
theorem tokens_spelled_iff {ps : List Fragment} (some : ∀ p ∈ ps, p.text ≠ "") :
    tokens (Fragment.spelled ps) = ps.flatMap (tokens ·.text) ↔ ps.IsChain Fragment.Parted := by
  have letters : tokens (Fragment.spelled ps) = ps.flatMap (tokens ·.text)
      ↔ split [] (Fragment.spelled ps).toList = ps.flatMap fun p => split [] p.text.toList := by
    have inj : Function.Injective String.ofList := fun cs ds eq => by
      rw [← String.toList_ofList (l := cs), eq, String.toList_ofList]
    unfold tokens
    rw [← List.map_flatMap]
    exact (List.map_injective_iff.mpr inj).eq_iff
  rw [letters]
  clear letters
  induction ps with
  | nil => exact iff_of_true rfl .nil
  | cons p ps ih =>
    obtain ⟨-, others⟩ := List.forall_mem_cons.mp some
    cases ps with
    | nil => simp [Fragment.spelled]
    | cons q qs =>
      obtain ⟨first, -⟩ := List.forall_mem_cons.mp others
      obtain ⟨c, cs, letters⟩ := List.exists_cons_of_ne_nil fun none =>
        first (String.toList_eq_nil_iff.mp none)
      have head : (Fragment.spelled (q :: qs)).toList.head? = q.text.toList.head? := by
        rw [Fragment.spelled, String.toList_append, letters]
        rfl
      have parts : Parts (pending [] p.text.toList) (Fragment.spelled (q :: qs)).toList ↔ p.Parted q := by
        rw [Fragment.Parted, Parts, Parts, head, lastToken]
      rw [Fragment.spelled, String.toList_append, List.flatMap_cons, List.isChain_cons_cons]
      by_cases parted : p.Parted q
      · rw [split_append (parts.mpr parted), List.append_cancel_left_eq, and_iff_right parted]
        exact ih others
      · refine iff_of_false (fun same => ?_) fun both => parted both.1
        exact not_prefix_split (mt parts.mp parted) (same ▸ List.prefix_append _ _)

/-! ## Operands and operators -/

/-- Characters that operands start with. -/
def startsOperand (c : Char) : Bool :=
  Token.isWordStart c || c.isDigit || c == '.' || c == '(' || c == '-'

/-- Characters of operators and delimiters. -/
def marks : List Char :=
  ['+', '-', '*', '/', '%', '=', '!', '<', '>', '&', '|', '\\', ',', '(', ')']

/-- The token is none that a name or a number would go on with. -/
def Opens (token : List Char) : Prop :=
  ∀ c ∈ token.head?, Token.isWordStart c = false ∧ c.isDigit = false ∧ c ≠ '.'

/-- The token ends in front of operators and delimiters. -/
def Settled (token : List Char) : Prop := ∀ c ∈ marks, goesOn token c = false

instance (token : List Char) : Decidable (Opens token) :=
  match token with
  | [] => isTrue nofun
  | c :: _ =>
      decidable_of_iff (Token.isWordStart c = false ∧ c.isDigit = false ∧ c ≠ '.') (by simp [Opens])

instance (token : List Char) : Decidable (Settled token) :=
  List.decidableBAll (fun c => goesOn token c = false) marks

/-- The text is an operand, as far as tokens are concerned. -/
structure Pasteable (a : String) : Prop where
  start : ∃ c, a.toList.head? = some c ∧ startsOperand c
  settles : ∀ token, Opens token → Settled (pending token a.toList)

/-- Fragments in front of operands, between them, and behind them. -/
def openings : List String := ["(", "-", "arma::solve(", "pow(", "std::pow(", "arma::pow("]

def betweens : List String :=
  ["+", "-", "*", "/", "%", "==", "!=", "<", "<=", ">", ">=", "&", "&&", "|", "||", "\\", ", "]

def closings : List String := [")", "()", ".t"]

/-- Operands with operators between them, in delimiters. -/
inductive Alternates (P : String → Prop) : List Fragment → Prop
  | whole {a : String} : P a → Alternates P [.whole a]
  | front {q : String} {ps : List Fragment} : q ∈ openings → Alternates P ps →
      Alternates P (.opening q :: ps)
  | behind {q : String} {ps : List Fragment} : Alternates P ps → q ∈ closings →
      Alternates P (ps ++ [.closing q])
  | between {q : String} {ps qs : List Fragment} : Alternates P ps → q ∈ betweens → Alternates P qs →
      Alternates P (ps ++ .between q :: qs)

/-! ### Where tokens end -/

section

variable {token : List Char} {c : Char}

theorem isNumber_cons {p : Char} (other : p ≠ '.') (rest : List Char) :
    isNumber (p :: rest) = p.isDigit := by
  unfold isNumber
  split
  case h_1 same => exact absurd (List.cons.inj same).1 other
  case h_2 same =>
    cases same
    rfl
  case h_3 same => cases same

/-- In front of an operand only a minus goes on, with a minus. -/
theorem goesOn_of_opens (opens : Opens token) (start : startsOperand c) :
    goesOn token c ↔ token = [] ∨ token = ['-'] ∧ c = '-' := by
  cases token with
  | nil => exact iff_of_true rfl (.inl rfl)
  | cons p rest =>
    obtain ⟨word, digit, point⟩ := opens p rfl
    have pair : pairs.contains (p, c) ↔ p = '-' ∧ c = '-' := by
      have only : ∀ q ∈ pairs, startsOperand q.2 → q = ('-', '-') := by decide
      constructor
      · intro mem
        exact Prod.mk.inj (only (p, c) (List.contains_iff_mem.mp mem) start)
      · rintro ⟨rfl, rfl⟩
        rfl
    rw [goesOn, word, isNumber_cons point, digit, if_neg Bool.false_ne_true,
      if_neg Bool.false_ne_true, beq_eq_false_iff_ne.mpr point, Bool.false_and, Bool.or_false,
      Bool.and_eq_true, pair, List.isEmpty_iff]
    simp [and_left_comm, and_assoc]

/-- Behind an operand only a number goes on, with a point. -/
theorem goesOn_of_settled (settled : Settled token) (mark : c ∈ '.' :: marks) :
    goesOn token c ↔ isNumber token ∧ c = '.' := by
  rcases List.mem_cons.mp mark with rfl | mark
  · rw [and_iff_left rfl]
    cases token with
    | nil => exact absurd (settled '+' (by decide)) nofun
    | cons p rest =>
      have pair : pairs.contains (p, '.') = false := by
        have none : ∀ q ∈ pairs, q.2 ≠ '.' := by decide
        refine Bool.eq_false_iff.mpr fun mem => ?_
        exact none _ (List.contains_iff_mem.mp mem) rfl
      rw [goesOn, pair]
      by_cases word : Token.isWordStart p
      · have other : p ≠ '.' ∧ p.isDigit = false := by
          constructor
          · rintro rfl
            cases word
          · refine Bool.eq_false_iff.mpr fun digit => ?_
            rw [Token.isWordStart_of_number (.inl digit)] at word
            cases word
        rw [if_pos word, isNumber_cons other.1, other.2]
        exact iff_of_false (by decide) Bool.false_ne_true
      · rw [if_neg word]
        cases number : isNumber (p :: rest) with
        | true => simp
        | false => simp [show '.'.isDigit = false from rfl]
  · have other : c ≠ '.' := by
      rintro rfl
      exact absurd mark (by decide)
    rw [settled c mark]
    exact iff_of_false Bool.false_ne_true fun both => other both.2

theorem isNumber_append (number : isNumber token) (cs : List Char) : isNumber (token ++ cs) := by
  unfold isNumber at number
  split at number
  case h_1 => exact number
  case h_2 c rest _ =>
    have other : c ≠ '.' := by
      rintro rfl
      cases number
    rw [List.cons_append, isNumber_cons other]
    exact number
  case h_3 => cases number

theorem isWordStart_of_isNumber {p : Char} {rest : List Char} (number : isNumber (p :: rest)) :
    Token.isWordStart p = false := by
  refine Token.isWordStart_of_number ?_
  by_cases point : p = '.'
  · exact .inr point
  · rw [isNumber_cons point] at number
    exact .inl number

/-- Letters and digits go on with a number. -/
theorem goesOn_of_isNumber (number : isNumber token) (word : Token.isWordRest c) : goesOn token c := by
  cases token with
  | nil => cases number
  | cons p rest => simp [goesOn, isWordStart_of_isNumber number, number, word]

/-- A number that ends in no letter of an exponent is complete. -/
theorem settled_of_isNumber (number : isNumber token)
    (last : ∀ e ∈ token.getLast?, e ≠ 'e' ∧ e ≠ 'E') : Settled token := by
  intro c mark
  cases token with
  | nil => cases number
  | cons p rest =>
    have word := isWordStart_of_isNumber number
    have plain : marks.all fun d => !Token.isWordRest d && d != '.' := by decide
    have plain := List.all_eq_true.mp plain c mark
    simp only [Bool.and_eq_true, Bool.not_eq_true', bne_iff_ne] at plain
    have exponent : ((p :: rest).getLast?.any fun e => e == 'e' || e == 'E') = false := by
      refine Bool.eq_false_iff.mpr fun found => ?_
      obtain ⟨e, ends, letter⟩ := (Option.any_eq_true _ _).mp found
      obtain ⟨lower, upper⟩ := last e ends
      simp [lower, upper] at letter
    rw [goesOn, word, number, if_neg Bool.false_ne_true, if_pos rfl, exponent, plain.1]
    simp [plain.2]

/-- Parentheses are tokens of their own. -/
theorem pending_paren (token cs : List Char) (paren : c = '(' ∨ c = ')') :
    pending token (cs ++ [c]) = [c] := by
  have alone : ∀ token, token ≠ [] → goesOn token c = false := by
    intro token some
    obtain ⟨p, rest, rfl⟩ := List.exists_cons_of_ne_nil some
    have none : ∀ q ∈ pairs, q.2 ≠ '(' ∧ q.2 ≠ ')' := by decide
    have pair : pairs.contains (p, c) = false := by
      refine Bool.eq_false_iff.mpr fun mem => ?_
      obtain ⟨left, right⟩ := none _ (List.contains_iff_mem.mp mem)
      exact paren.elim left right
    have plain : Token.isWordRest c = false ∧ c.isDigit = false ∧ (c == '.') = false
        ∧ (c == '+') = false ∧ (c == '-') = false := by
      rcases paren with rfl | rfl <;> decide
    rw [goesOn, pair]
    simp [plain]
  have blank : c ≠ ' ' := by
    rcases paren with rfl | rfl <;> decide
  rw [pending_append, pending, pending, if_neg blank]
  by_cases none : pending token cs = []
  · rw [none]
    rfl
  · rw [alone _ none, if_neg Bool.false_ne_true]

theorem pending_opening (opens : Opens token) {q : String} (mem : q ∈ openings) :
    Opens (pending token q.toList) := by
  have ends : ∀ q ∈ openings, q = "-" ∨ q.toList.getLast? = some '(' := by decide
  rcases ends q mem with rfl | last
  · show Opens (if goesOn token '-' then token ++ ['-'] else ['-'])
    split
    · cases token with
      | nil => decide
      | cons p rest => exact opens
    · decide
  · obtain ⟨cs, eq⟩ := List.getLast?_eq_some_iff.mp last
    rw [eq, pending_paren token cs (.inl rfl)]
    decide

theorem pending_closing (settled : Settled token) {q : String} (mem : q ∈ closings) :
    Settled (pending token q.toList) := by
  have ends : ∀ q ∈ closings, q = ".t" ∨ q.toList.getLast? = some ')' := by decide
  rcases ends q mem with rfl | last
  · have point := goesOn_of_settled settled (c := '.') List.mem_cons_self
    rw [and_iff_left rfl] at point
    have letters : (".t" : String).toList = ['.', 't'] := rfl
    rw [letters, pending, if_neg (by decide)]
    split
    case isTrue more =>
      have number : isNumber (token ++ ['.']) := isNumber_append (point.mp more) _
      have more : goesOn (token ++ ['.']) 't' := goesOn_of_isNumber number (by decide)
      rw [pending, if_neg (by decide), if_pos more, pending]
      refine settled_of_isNumber (isNumber_append number _) ?_
      rw [List.getLast?_concat]
      rintro _ ⟨⟩
      decide
    case isFalse => decide
  · obtain ⟨cs, eq⟩ := List.getLast?_eq_some_iff.mp last
    rw [eq, pending_paren token cs (.inr rfl)]
    decide

theorem pending_between (settled : Settled token) {q : String} (mem : q ∈ betweens) :
    Opens (pending token q.toList) := by
  have starts : ∀ q ∈ betweens, q.toList.head?.any marks.contains ∧ Opens (lastToken q) := by decide
  obtain ⟨first, opens⟩ := starts q mem
  obtain ⟨c, head, mark⟩ := (Option.any_eq_true _ _).mp first
  obtain ⟨cs, letters⟩ := List.head?_eq_some_iff.mp head
  have mark := List.contains_iff_mem.mp mark
  have blank : c ≠ ' ' := by
    rintro rfl
    exact absurd mark (by decide)
  rw [lastToken, letters, pending, if_neg blank, if_pos (show goesOn [] c from rfl)] at opens
  rw [letters, pending, if_neg blank, settled c mark, if_neg Bool.false_ne_true]
  exact opens

end

/-! ### Operands again -/

variable {ps : List Fragment}

/-- What is put together from operands is an operand. -/
theorem Pasteable.of_alternates (h : Alternates Pasteable ps) : Pasteable (Fragment.spelled ps) := by
  induction h with
  | whole paste =>
    rw [Fragment.spelled, Fragment.spelled, String.append_empty]
    exact paste
  | @front q ps mem _ ih =>
    have starts : ∀ q ∈ openings, q.toList.head?.any startsOperand := by decide
    obtain ⟨c, head, start⟩ := (Option.any_eq_true _ _).mp (starts q mem)
    constructor
    · exact ⟨c, by rw [Fragment.spelled, String.toList_append, List.head?_append, Fragment.text, head]; rfl,
        start⟩
    · intro token opens
      rw [Fragment.spelled, String.toList_append, pending_append]
      exact ih.settles _ (pending_opening opens mem)
  | @behind q ps _ mem ih =>
    obtain ⟨c, head, start⟩ := ih.start
    rw [Fragment.spelled_append, Fragment.spelled, Fragment.spelled, String.append_empty]
    constructor
    · exact ⟨c, by rw [String.toList_append, List.head?_append, head]; rfl, start⟩
    · intro token opens
      rw [String.toList_append, pending_append]
      exact pending_closing (ih.settles token opens) mem
  | @between q ps qs _ mem _ ih ih' =>
    obtain ⟨c, head, start⟩ := ih.start
    rw [Fragment.spelled_append, Fragment.spelled]
    constructor
    · exact ⟨c, by rw [String.toList_append, List.head?_append, head]; rfl, start⟩
    · intro token opens
      rw [String.toList_append, String.toList_append, pending_append, pending_append]
      exact ih'.settles _ (pending_between (ih.settles token opens) mem)

/-- The first fragment is in front of an operand or starts one. -/
theorem Alternates.head (h : Alternates Pasteable ps) :
    ∃ p, ps.head? = some p ∧ ∃ c, p.text.toList.head? = some c ∧ startsOperand c := by
  induction h with
  | whole paste => exact ⟨_, rfl, paste.start⟩
  | @front q ps mem _ ih =>
    have starts : ∀ q ∈ openings, q.toList.head?.any startsOperand := by decide
    exact ⟨_, rfl, (Option.any_eq_true _ _).mp (starts q mem)⟩
  | behind _ _ ih | between _ _ _ ih _ =>
    obtain ⟨p, head, start⟩ := ih
    exact ⟨p, by rw [List.head?_append, head]; rfl, start⟩

/-- The last fragment is behind an operand or ends one. -/
theorem Alternates.last (h : Alternates Pasteable ps) :
    ∃ p, ps.getLast? = some p ∧ Settled (lastToken p.text) := by
  have opens : Opens [] := nofun
  induction h with
  | whole paste => exact ⟨_, rfl, paste.settles [] opens⟩
  | front _ _ ih =>
    obtain ⟨p, last, settled⟩ := ih
    exact ⟨p, by rw [List.getLast?_cons, last]; rfl, settled⟩
  | @behind q ps _ mem ih =>
    have settles : ∀ q ∈ closings, Settled (lastToken q) := by decide
    exact ⟨.closing q, by rw [List.getLast?_append]; rfl, settles q mem⟩
  | between _ _ _ _ ih =>
    obtain ⟨p, last, settled⟩ := ih
    exact ⟨p, by rw [List.getLast?_append, List.getLast?_cons, last]; rfl, settled⟩

namespace Fragment

variable {p q : Fragment} {c : Char}

theorem parted_iff (head : q.text.toList.head? = some c) (plain : c ≠ ' ') :
    p.Parted q ↔ lastToken p.text = [] ∨ goesOn (lastToken p.text) c = false := by
  rw [Parted, Parts, head]
  simp [plain]

/-- In front of an operand only a minus fuses. -/
theorem parted_iff_of_opens (opens : Opens (lastToken p.text)) (head : q.text.toList.head? = some c)
    (start : startsOperand c) : p.Parted q ↔ ¬p.Fuses q := by
  have plain : c ≠ ' ' := by
    rintro rfl
    cases start
  have number : isNumber (lastToken p.text) = false := by
    generalize lastToken p.text = token at opens
    cases token with
    | nil => rfl
    | cons d rest =>
      obtain ⟨-, digit, point⟩ := opens d rfl
      rw [isNumber_cons point, digit]
  rw [parted_iff head plain, ← Bool.not_eq_true, goesOn_of_opens opens start, Fuses, head, number]
  by_cases none : lastToken p.text = []
  · simp [none]
  · simp [none]

/-- Behind an operand only a number fuses. -/
theorem parted_iff_of_settled (settled : Settled (lastToken p.text))
    (head : q.text.toList.head? = some c) (mark : c ∈ '.' :: marks) : p.Parted q ↔ ¬p.Fuses q := by
  have plain : c ≠ ' ' := by
    rintro rfl
    exact absurd mark (by decide)
  have some : lastToken p.text ≠ [] := by
    intro none
    rw [none] at settled
    exact absurd (settled '+' (by decide)) nofun
  have minus : lastToken p.text ≠ ['-'] := by
    intro minus
    rw [minus] at settled
    exact absurd (settled '-' (by decide)) (by decide)
  rw [parted_iff head plain, ← Bool.not_eq_true, goesOn_of_settled settled mark, Fuses, head]
  simp [some, minus]

end Fragment

/-- Neighbours part from each other unless they fuse. -/
theorem Alternates.parted (h : Alternates Pasteable ps) :
    ps.IsChain fun p q => p.Parted q ↔ ¬p.Fuses q := by
  induction h with
  | whole => exact .singleton _
  | @front q ps mem h ih =>
    refine List.isChain_cons.mpr ⟨fun p first => ?_, ih⟩
    obtain ⟨p', head, c, letters, start⟩ := h.head
    cases head.symm.trans first
    have opens : ∀ q ∈ openings, Opens (lastToken q) := by decide
    exact Fragment.parted_iff_of_opens (opens q mem) letters start
  | @behind q ps h mem ih =>
    refine List.isChain_append.mpr ⟨ih, .singleton _, fun p final r first => ?_⟩
    cases first
    obtain ⟨p', last, settled⟩ := h.last
    cases last.symm.trans final
    have starts : ∀ q ∈ closings, q.toList.head?.any ('.' :: marks).contains := by decide
    obtain ⟨c, letters, mark⟩ := (Option.any_eq_true _ _).mp (starts q mem)
    exact Fragment.parted_iff_of_settled settled letters (List.contains_iff_mem.mp mark)
  | @between q ps qs h mem h' ih ih' =>
    have starts : ∀ q ∈ betweens, q.toList.head?.any marks.contains ∧ Opens (lastToken q) := by
      decide
    obtain ⟨mark, opens⟩ := starts q mem
    refine List.isChain_append.mpr
      ⟨ih, List.isChain_cons.mpr ⟨fun p first => ?_, ih'⟩, fun p final r first => ?_⟩
    · obtain ⟨p', head, c, letters, start⟩ := h'.head
      cases head.symm.trans first
      exact Fragment.parted_iff_of_opens opens letters start
    · cases first
      obtain ⟨p', last, settled⟩ := h.last
      cases last.symm.trans final
      obtain ⟨c, letters, mark⟩ := (Option.any_eq_true _ _).mp mark
      exact Fragment.parted_iff_of_settled settled letters
        (List.mem_cons_of_mem _ (List.contains_iff_mem.mp mark))

theorem Alternates.filled (h : Alternates Pasteable ps) : ∀ p ∈ ps, p.text ≠ "" := by
  have filled : ∀ q ∈ openings ++ betweens ++ closings, q ≠ "" := by decide
  induction h with
  | @whole a paste =>
    refine List.forall_mem_singleton.mpr fun none => ?_
    obtain ⟨c, head, -⟩ := paste.start
    change a = "" at none
    rw [none] at head
    cases head
  | @front q _ mem _ ih => exact List.forall_mem_cons.mpr ⟨filled q (by simp [mem]), ih⟩
  | @behind q _ _ mem ih =>
    exact List.forall_mem_append.mpr ⟨ih, List.forall_mem_singleton.mpr (filled q (by simp [mem]))⟩
  | @between q _ _ _ mem _ ih ih' =>
    exact List.forall_mem_append.mpr
      ⟨ih, List.forall_mem_cons.mpr ⟨filled q (by simp [mem]), ih'⟩⟩

/-- Relations that agree on neighbours hold along the same lists. -/
theorem isChain_congr {α : Type} {R S : α → α → Prop} {l : List α}
    (h : l.IsChain fun a b => R a b ↔ S a b) : l.IsChain R ↔ l.IsChain S := by
  induction h with
  | nil => exact iff_of_true .nil .nil
  | singleton a => exact iff_of_true (.singleton a) (.singleton a)
  | cons_cons same _ ih => rw [List.isChain_cons_cons, List.isChain_cons_cons, same, ih]


/-- The tokens are those of the fragments, unless a minus meets a minus or a number a point. -/
theorem tokens_of_alternates (h : Alternates Pasteable ps) :
    tokens (Fragment.spelled ps) = ps.flatMap (tokens ·.text) ↔ ps.IsChain (¬Fragment.Fuses · ·) := by
  rw [tokens_spelled_iff h.filled]
  exact isChain_congr h.parted

/-! ### Names and numbers -/

section

variable {token : List Char} {a : String}

/-- The first character of an operand starts a token, or goes on with a minus. -/
theorem pending_of_opens (opens : Opens token) {c : Char} (start : startsOperand c)
    (other : c ≠ '-') (cs : List Char) : pending token (c :: cs) = pending [c] cs := by
  have plain : c ≠ ' ' := by
    rintro rfl
    cases start
  rw [pending, if_neg plain]
  split
  case isTrue more =>
    rcases (goesOn_of_opens opens start).mp more with rfl | ⟨-, rfl⟩
    · rfl
    · exact absurd rfl other
  case isFalse => rfl

theorem settled_of_word {p : Char} {rest : List Char} (start : Token.isWordStart p) :
    Settled (p :: rest) := by
  intro c mark
  have plain : marks.all fun d => !Token.isWordRest d := by decide
  have plain := List.all_eq_true.mp plain c mark
  rw [goesOn, if_pos start]
  simpa using plain

theorem pending_word {p : Char} (start : Token.isWordStart p) {cs : List Char}
    (word : ∀ c ∈ cs, Token.isWordRest c) (rest : List Char) :
    pending (p :: rest) cs = p :: rest ++ cs := by
  induction cs generalizing rest with
  | nil => rw [pending, List.append_nil]
  | cons c cs ih =>
    obtain ⟨first, others⟩ := List.forall_mem_cons.mp word
    have plain : c ≠ ' ' := by
      rintro rfl
      cases first
    have more : goesOn (p :: rest) c := by
      rw [goesOn, if_pos start]
      exact first
    rw [pending, if_neg plain, if_pos more, List.cons_append, ih others]
    simp

/-- A name is an operand. -/
theorem pasteable_name (name : isName a) : Pasteable a := by
  obtain ⟨c, cs, letters, start, word⟩ := exists_cons_of_isName name
  rw [letters, List.all_cons, Bool.and_eq_true, List.all_eq_true] at word
  have starts : startsOperand c := by simp [startsOperand, start]
  have other : c ≠ '-' := by
    rintro rfl
    cases start
  constructor
  · exact ⟨c, by rw [letters]; rfl, starts⟩
  · intro token opens
    rw [letters, pending_of_opens opens starts other, pending_word start word.2]
    exact settled_of_word start

/-- A token that ends in a digit or a point is complete. -/
theorem settled_of_last {d : Char} (last : token.getLast? = some d) (ends : d.isDigit ∨ d = '.') :
    Settled token := by
  cases token with
  | nil => cases last
  | cons p rest =>
    by_cases start : Token.isWordStart p
    · exact settled_of_word start
    by_cases number : isNumber (p :: rest)
    · refine settled_of_isNumber number fun e here => ?_
      cases last.symm.trans here
      constructor
      all_goals
        rintro rfl
        rcases ends with digit | point
        · cases digit
        · cases point
    · intro c mark
      rw [goesOn, if_neg start, if_neg number]
      cases rest with
      | cons => rfl
      | nil =>
        cases last
        rcases ends with digit | rfl
        · refine absurd ?_ number
          rw [isNumber_cons (by rintro rfl; cases digit)]
          exact digit
        · have plain : marks.all fun d => !(pairs.contains ('.', d) || d.isDigit) := by decide
          simpa using List.all_eq_true.mp plain c mark

theorem getLast?_pending {cs : List Char} (plain : ' ' ∉ cs) (token : List Char) :
    (pending token cs).getLast? = (token ++ cs).getLast? := by
  induction cs generalizing token with
  | nil => rw [pending, List.append_nil]
  | cons c cs ih =>
    obtain ⟨first, rest⟩ := not_or.mp (mt List.mem_cons.mpr plain)
    rw [pending, if_neg (Ne.symm first)]
    split
    · rw [ih rest, List.append_assoc, List.singleton_append]
    · rw [ih rest, List.singleton_append, List.getLast?_append_of_ne_nil _ (List.cons_ne_nil c cs)]

/-- A numeral is an operand. -/
theorem pasteable_numeral {c d : Char} (plain : ' ' ∉ a.toList) (head : a.toList.head? = some c)
    (start : c.isDigit ∨ c = '.') (last : a.toList.getLast? = some d) (ends : d.isDigit ∨ d = '.') :
    Pasteable a := by
  obtain ⟨cs, letters⟩ := List.head?_eq_some_iff.mp head
  have starts : startsOperand c := by
    rcases start with digit | rfl
    · simp [startsOperand, digit]
    · rfl
  have other : c ≠ '-' := by
    rintro rfl
    rcases start with digit | point
    · cases digit
    · cases point
  rw [letters] at plain last
  constructor
  · exact ⟨c, head, starts⟩
  · intro token opens
    rw [letters, pending_of_opens opens starts other]
    refine settled_of_last (d := d) ?_ ends
    rw [getLast?_pending (List.not_mem_of_not_mem_cons plain)]
    exact last

/-- What ends in a parenthesis is an operand, if it starts like one. -/
theorem pasteable_call {c : Char} (head : a.toList.head? = some c) (start : startsOperand c) :
    Pasteable (a ++ ")") := by
  constructor
  · exact ⟨c, by rw [String.toList_append, List.head?_append, head]; rfl, start⟩
  · intro token _
    have letters : (a ++ ")").toList = a.toList ++ [')'] := String.toList_append
    rw [letters, pending_paren token _ (.inr rfl)]
    decide

end

end MatrixScript.Cpp
