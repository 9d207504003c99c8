/-
# `Proofs.Program.Unclosed` — functions without an `end`

A function that stands last in a text is read alike with and without its `end`.  One that is
followed by another function is not read without it: the body takes the separators up to the next
`function` and stops there, but the program goes on only behind a separator.  So every definition
of a source but the last one needs its `end` (`Tree.parse_definitions`).
-/
import MatrixScript.Proofs.Program.Detached
import MatrixScript.Proofs.Program.Position
import MatrixScript.Tree.OfProgram

namespace MatrixScript

namespace Parser

open Cursor (EndsLine)

variable {β : Type} {ts us : List Spanned} {c : Cursor} {f : Function}

/-- The tokens ahead are the function `f`, which nothing closes before the text ends. -/
inductive Unclosed (c : Cursor) : Function → Prop
  | intro {h : Heading} {d e : Cursor} {body : List Statement} : heading c = .ok (h, d) →
      d.EndsLine → Rounds stopsBody statement (d.rest.length + 1) d body e → e.rest = [] →
      Unclosed c (h.function body)

theorem Unclosed.ahead (h : Unclosed c f) : c.peek? = some .function := by
  obtain ⟨run, -, -, -⟩ := h
  obtain ⟨_, d, first, -⟩ := exists_of_bind_run run
  rw [expect, isAt_bind_run] at first
  split at first
  case isTrue there => exact beq_iff_eq.mp there
  case isFalse => cases first

/-- In front of a token that stops its body, the function is read up to there. -/
theorem Unclosed.run_followedBy (h : Unclosed c f) (ends : c.EndsLine) {t : Token}
    (ahead : (Cursor.skipSeparators ⟨us, c.groups⟩).peek? = some t) (stop : stopsBody t)
    (k : Function → Parser β) :
    (do let h ← heading; let body ← sequence stopsBody statement; k (h.function body))
      (c.followedBy us) = k f (Cursor.skipSeparators ⟨us, c.groups⟩) := by
  obtain @⟨h, d, e, body, run, line, rounds, done⟩ := h
  obtain ⟨-, groups, -, same⟩ := carried_heading c (.inr ends) h d run
  rw [bind_run same]
  have filled : us ≠ [] := by
    rintro rfl
    cases ahead
  have long : d.skipSeparators.rest.length + us.length < (d.followedBy us).rest.length + 1 := by
    have := (skipSeparators_suffix d).length_le
    rw [Cursor.length_followedBy]
    omega
  have rest : ∀ n, us.length < n → sequenceFrom stopsBody statement n ⟨us, d.groups⟩
      = .ok ([], Cursor.skipSeparators ⟨us, d.groups⟩) := by
    intro n lt
    obtain ⟨n, rfl⟩ := Nat.exists_eq_add_one.mpr (Nat.zero_lt_of_lt lt)
    rw [show d.groups = c.groups from groups]
    exact (Rounds.stop ahead stop).sequenceFrom_eq
  have whole := rounds.append carried_statement (.inl done) filled (fun _ => line)
    (lasts_length stopsBody d) long rest
  rw [show d.groups = c.groups from groups] at whole
  have whole : sequence stopsBody statement (d.followedBy us)
      = .ok (body ++ [], Cursor.skipSeparators ⟨us, c.groups⟩) := whole
  rw [List.append_nil] at whole
  rw [bind_run whole]

/-- Where nothing follows, the function is what is left of the text. -/
theorem Unclosed.function_end (h : Unclosed c f) : ∃ e, function c = .ok (f, e) ∧ e.peek? = none := by
  obtain @⟨h, d, e, body, run, line, rounds, done⟩ := h
  have none : e.peek? = none := by
    unfold Cursor.peek?
    rw [done]
    rfl
  refine ⟨e, ?_, none⟩
  have read : sequence stopsBody statement d = .ok (body, e) := rounds.sequenceFrom_eq
  rw [function_eq, bind_run run, bind_run read, isAt_bind_run, none]
  rfl

/-! ## What is read without the `end` and with it -/

/-- Behind the only item of a program there are only separators. -/
theorem exists_item_of_single {a : Item} {e : Cursor} (run : program (Cursor.start ts) = .ok ([a], e)) :
    ∃ t d, (Cursor.start ts).skipSeparators.peek? = some t ∧ t ≠ .last
      ∧ item (Cursor.start ts).skipSeparators = .ok (a, d) ∧ ∀ w ∈ d.rest, w.token.isSeparator := by
  cases rounds_of_sequenceFrom (n := ts.length + 1) run with
  | one ahead _ closing first behind =>
    refine ⟨_, _, ahead, closing, first, ?_⟩
    rw [rest_of_peek?_none behind]
    nofun
  | more ahead _ closing first _ _ later =>
    refine ⟨_, _, ahead, closing, first, ?_⟩
    generalize bound : ts.length = n at later
    cases later with
    | bound =>
      rw [List.length_eq_zero_iff.mp bound] at ahead
      cases ahead
    | last none => exact List.dropWhile_eq_nil_iff.mp (rest_of_peek?_none none)
    | stop _ stop => cases stop

theorem function_of_item {d : Cursor} (run : item c = .ok (.function f, d)) :
    function c = .ok (f, d) := by
  rw [item, isAt_bind_run] at run
  split at run
  · obtain ⟨g, e, first, later⟩ := exists_of_bind_run run
    cases later
    exact first
  · obtain ⟨s, e, first, later⟩ := exists_of_bind_run run
    cases later

theorem item_of_function {d : Cursor} (ahead : c.peek? = some .function)
    (run : function c = .ok (f, d)) : item c = .ok (.function f, d) := by
  rw [item, isAt_bind_run, ahead, beq_self_eq_true, if_pos rfl, bind_run run]
  rfl

theorem closedItem_of_function {d : Cursor} (ahead : c.peek? = some .function)
    (run : closedFunction c = .ok (f, d)) : closedItem c = .ok (.function f, d) := by
  rw [closedItem, isAt_bind_run, ahead, beq_self_eq_true, if_pos rfl, bind_run run]
  rfl

/-- In front of more tokens the function is ahead behind the same separators. -/
theorem Unclosed.ahead_append (h : Unclosed (Cursor.start ts).skipSeparators f)
    (ends : (Cursor.start ts).EndsLine) (us : List Spanned) :
    (Cursor.start (ts ++ us)).skipSeparators = (Cursor.start ts).skipSeparators.followedBy us
      ∧ (Cursor.start ts).skipSeparators.EndsLine
      ∧ ((Cursor.start ts).skipSeparators.followedBy us).peek? = some .function := by
  have some := ne_nil_of_peek? h.ahead
  have ends' := ends.of_suffix (skipSeparators_suffix _) some
  refine ⟨skipSeparators_followedBy (c := Cursor.start ts) (.inr some), ends', ?_⟩
  rw [ends'.peek?_followedBy, h.ahead]

section

variable {w v : Spanned} (last : w.token = .last) (newline : v.token = .newline)
  (ends : (Cursor.start ts).EndsLine)
include last newline ends

/-- A function that a line with `end` makes a program is one that nothing else closes. -/
theorem unclosed_of_program {e : Cursor}
    (run : program (Cursor.start (ts ++ [w, v])) = .ok ([.function f], e)) :
    Unclosed (Cursor.start ts).skipSeparators f := by
  obtain ⟨t, d, ahead, closing, first, separators⟩ := exists_item_of_single run
  have other : w.token.isSeparator = false := by rw [last]; rfl
  have unclosed : ∀ u ∈ [w, v], isClosing u.token = false := by
    intro u mem
    rcases List.mem_pair.mp mem with rfl | rfl
    · rw [last]
      rfl
    · rw [newline]
      rfl
  have whole : Cursor.start (ts ++ [w, v]) = (Cursor.start ts).followedBy [w, v] := rfl
  rw [whole] at ahead first
  have some := ne_nil_of_last_followedBy last ahead closing
  rw [skipSeparators_followedBy_cons other] at first
  have ends' := ends.of_suffix (skipSeparators_suffix _) some
  have read := function_of_item first
  rw [function_eq] at read
  obtain ⟨h, e₁, front, read⟩ := exists_of_bind_run read
  obtain ⟨d₁, rfl, -, line, heads⟩ := detaches_heading ends' h e₁ front
  obtain ⟨body, e₂, statements, read⟩ := exists_of_bind_run read
  have lasts : Lasts stopsBody ((d₁.followedBy [w, v]).rest.length + 1) d₁ := by
    have := (skipSeparators_suffix d₁).length_le
    rw [Cursor.length_followedBy]
    exact .inl (by omega)
  obtain ⟨d₂, rfl, part, rounds⟩ := (rounds_of_sequenceFrom statements).detached last unclosed line
    lasts (lasts_length stopsBody d₁)
  have done : d₂.rest = [] := by
    by_contra some
    have line' := line.of_suffix part some
    have there : w ∈ d.rest := by
      rw [isAt_bind_run] at read
      split at read
      · cases read
        rw [line'.step_followedBy]
        exact List.mem_append_right _ List.mem_cons_self
      · cases read
        exact List.mem_append_right _ List.mem_cons_self
    exact Bool.eq_false_iff.mp other (separators w there)
  have whole : f = h.function body := by
    rw [isAt_bind_run] at read
    split at read <;> cases read <;> rfl
  exact whole ▸ .intro heads line rounds done

/-- A line with `end` behind an unclosed function makes it a closed program. -/
theorem Unclosed.exists_closedProgram (h : Unclosed (Cursor.start ts).skipSeparators f) :
    ∃ e, closedProgram (Cursor.start (ts ++ [w, v])) = .ok ([.function f], e) := by
  obtain ⟨skips, ends', ahead⟩ := h.ahead_append ends [w, v]
  have stays : (Cursor.start [w, v]).skipSeparators = Cursor.start [w, v] :=
    skipSeparators_of_not (t := .last) (congrArg some last) rfl
  have stop : (Cursor.start [w, v]).skipSeparators.peek? = some .last := by
    rw [stays]
    exact congrArg some last
  have closes : expect .last (Cursor.start [w, v]) = .ok (⟨⟩, Cursor.start [v]) := by
    rw [expect, isAt_bind_run, ← stays, stop, beq_self_eq_true, if_pos rfl, stays]
    rfl
  have function : closedFunction ((Cursor.start ts).skipSeparators.followedBy [w, v])
      = .ok (f, Cursor.start [v]) := by
    rw [closedFunction_eq]
    refine (h.run_followedBy ends' stop rfl fun f => do expect .last; return f).trans ?_
    rw [show Cursor.mk [w, v] (Cursor.start ts).skipSeparators.groups = Cursor.start [w, v] from rfl,
      stays, bind_run closes]
    rfl
  have behind : (Cursor.start [v]).skipSeparators.peek? = none := by
    have passed : [v].dropWhile (·.token.isSeparator) = [] :=
      List.dropWhile_eq_nil_iff.mpr fun u mem => by
        rw [List.mem_singleton.mp mem, newline]
        rfl
    show (([v].dropWhile (·.token.isSeparator)).head?.map _) = none
    rw [passed]
    rfl
  have rounds : Rounds (fun _ => false) closedItem ((ts ++ [w, v]).length + 1)
      (Cursor.start (ts ++ [w, v])) [.function f] (Cursor.start [v]).skipSeparators := by
    rw [List.length_append]
    have separator : (Cursor.start [v]).peek? = some .newline := congrArg some newline
    refine .more (t := .function) (u := .newline) ?_ rfl (by rintro ⟨⟩) ?_ separator (.inl rfl) (.last behind)
    · rw [skips, ahead]
    · rw [skips, closedItem_of_function ahead function]
  exact ⟨_, rounds.sequenceFrom_eq⟩

end

/-- Without the line an unclosed function is a program by itself. -/
theorem Unclosed.exists_program (h : Unclosed (Cursor.start ts).skipSeparators f) :
    ∃ e, program (Cursor.start ts) = .ok ([.function f], e) := by
  obtain ⟨e, function, none⟩ := h.function_end
  exact ⟨e, (Rounds.one h.ahead rfl (by rintro ⟨⟩) (item_of_function h.ahead function) none).sequenceFrom_eq⟩

/-- Another function behind an unclosed one is not separated from it. -/
theorem Unclosed.answers (h : Unclosed (Cursor.start ts).skipSeparators f)
    (ends : (Cursor.start ts).EndsLine) {w : Spanned}
    (first : (Cursor.start us).skipSeparators.rest.head? = some w) (token : w.token = .function) :
    Answers (ts ++ us) (.error (.parser
      ("Expected end of statement, found 'function' at position " ++ toString w.start))) := by
  obtain ⟨skips, ends', ahead⟩ := h.ahead_append ends us
  have stop : (Cursor.start us).skipSeparators.peek? = some .function := by
    unfold Cursor.peek?
    rw [first, Option.map_some, token]
  have function : function ((Cursor.start ts).skipSeparators.followedBy us)
      = .ok (f, (Cursor.start us).skipSeparators) := by
    rw [function_eq]
    refine (h.run_followedBy ends' stop rfl fun f => do
      if ← isAt .last then advance
      return f).trans ?_
    rw [show Cursor.mk us (Cursor.start ts).skipSeparators.groups = Cursor.start us from rfl,
      isAt_bind_run, stop]
    rfl
  intro k lt
  obtain ⟨k, rfl⟩ := Nat.exists_eq_add_one.mpr (Nat.zero_lt_of_lt lt)
  rw [sequenceFrom, modify_bind_run, peek?_bind_run, skips, ahead]
  dsimp only
  rw [if_neg Bool.false_ne_true, if_neg (by rintro ⟨⟩), bind_run (item_of_function ahead function),
    peek?_bind_run, stop]
  dsimp only
  rw [if_neg (by simp [Token.isSeparator])]
  refine congrArg (fun text => Except.error (Error.parser text)) ?_
  have found : (Cursor.start us).skipSeparators.found
      = "'function' at position " ++ toString w.start := by
    unfold Cursor.found
    cases rest : (Cursor.start us).skipSeparators.rest with
    | nil =>
      rw [rest] at first
      cases first
    | cons u vs =>
      rw [rest] at first
      obtain rfl : u = w := Option.some.inj first
      show "'" ++ u.token.text ++ "' at position " ++ toString u.start = _
      rw [token]
      rfl
  rw [found, ← String.append_assoc]
  rfl

end Parser

/-! ## Definitions -/

open Text (occupied)

/-- A function definition in a source, without the line that closes it. -/
structure Definition where
  text : String
  value : Function
  tokens : List Spanned
  lexed : Token.tokenize text = .ok tokens
  line : Token.EndsLine text tokens
  parsed : Program.parse (text ++ "end\n") = .ok [.function value]

namespace Definition

/-- Where its keyword stands: the first of its words that is not a separator. -/
def keyword (d : Definition) : Nat :=
  ((d.tokens.dropWhile (·.token.isSeparator)).head?.map (·.start)).getD 0

/-- The text with or without the closing line. -/
def source (d : Definition) (closed : Bool) : String :=
  if closed then d.text ++ "end\n" else d.text

/-- The words of the closing line. -/
def closing : List Spanned := [⟨.last, 0, 3, false⟩, ⟨.newline, 3, 4, false⟩]

theorem tokenize_closing : Token.tokenize "end\n" = .ok closing := by cbv

/-- The words of the text. -/
def words (d : Definition) (closed : Bool) : List Spanned :=
  if closed then d.tokens ++ closing.map (Spanned.shift (occupied d.text.toList)) else d.tokens

theorem tokenize_source (d : Definition) (closed : Bool) :
    Token.tokenize (d.source closed) = .ok (d.words closed) := by
  cases closed with
  | false => exact d.lexed
  | true => exact Token.tokenize_append d.lexed d.line tokenize_closing

theorem endsLine_source (d : Definition) (closed : Bool) :
    Token.EndsLine (d.source closed) (d.words closed) := by
  cases closed with
  | false => exact d.line
  | true =>
    refine ⟨_, List.getLast?_append, rfl, ?_⟩
    show _ = occupied (d.text ++ "end\n").toList
    rw [String.toList_append, Text.occupied_append]
    rfl

/-- Words that look like those of a definition end with their line. -/
theorem endsLine (d : Definition) (closed : Bool) {ts : List Spanned}
    (looks : ts.map Spanned.look = (d.words closed).map Spanned.look) :
    (Cursor.start ts).EndsLine := by
  have tokens : ts.map (·.token) = (d.words closed).map (·.token) := by
    have := congrArg (List.map (·.1)) looks
    rwa [List.map_map, List.map_map] at this
  show ts.getLast?.map _ = _
  rw [← List.getLast?_map, tokens, List.getLast?_map]
  exact (d.endsLine_source closed).start

/-- They are the definition, which nothing else closes. -/
theorem unclosed (d : Definition) {ts : List Spanned}
    (looks : ts.map Spanned.look = d.tokens.map Spanned.look) :
    Parser.Unclosed (Cursor.start ts).skipSeparators d.value := by
  have parsed := d.parsed
  rw [Program.parse, show Token.tokenize (d.text ++ "end\n") = .ok (d.words true) from
    d.tokenize_source true] at parsed
  have alike : (ts ++ closing).map Spanned.look = (d.words true).map Spanned.look := by
    show _ = (d.tokens ++ closing.map _).map Spanned.look
    rw [List.map_append, List.map_append, looks, List.map_map]
    rfl
  have whole := Program.ofTokens_alike alike parsed
  unfold Program.ofTokens at whole
  split at whole
  case h_2 => cases whole
  case h_1 run =>
    cases whole
    exact Parser.unclosed_of_program rfl rfl (d.endsLine false looks) run

/-- Closed by its line the definition is a closed program, wherever it stands. -/
theorem exists_closedProgram (d : Definition) (n : Nat) :
    ∃ e, Parser.closedProgram (Cursor.start ((d.words true).map (Spanned.shift n)))
      = .ok ([.function d.value], e) := by
  have looks := Spanned.map_look_shift n d.tokens
  have words : (d.words true).map (Spanned.shift n)
      = d.tokens.map (Spanned.shift n)
        ++ [(Spanned.mk .last 0 3 false).shift (n + occupied d.text.toList),
          (Spanned.mk .newline 3 4 false).shift (n + occupied d.text.toList)] := by
    show (d.tokens ++ closing.map _).map _ = _
    rw [List.map_append, List.map_map]
    simp [closing, Spanned.shift_shift]
  rw [words]
  exact (d.unclosed looks).exists_closedProgram rfl rfl (d.endsLine false looks)

/-- The keyword is the first word that is not a separator. -/
theorem exists_keyword (d : Definition) : ∃ w ws,
    d.tokens.dropWhile (·.token.isSeparator) = w :: ws ∧ w.token = .function
      ∧ w.start = d.keyword := by
  have ahead := (d.unclosed rfl).ahead
  obtain ⟨w, ws, shape, token⟩ := Cursor.exists_of_peek? ahead
  have shape : d.tokens.dropWhile (·.token.isSeparator) = w :: ws := shape
  refine ⟨w, ws, shape, token, ?_⟩
  rw [keyword, shape]
  rfl

/-! ### One after the other -/

/-- The source of definitions, each of which is closed or not. -/
def sources : List (Definition × Bool) → String
  | [] => ""
  | (d, closed) :: ds => d.source closed ++ sources ds

/-- Its words. -/
def wordsOf : List (Definition × Bool) → List Spanned
  | [] => []
  | (d, closed) :: ds =>
      d.words closed ++ (wordsOf ds).map (Spanned.shift (occupied (d.source closed).toList))

/-- The program of the definitions. -/
def program (ds : List (Definition × Bool)) : Program := ds.map fun d => .function d.1.value

theorem tokenize_sources (ds : List (Definition × Bool)) :
    Token.tokenize (sources ds) = .ok (wordsOf ds) := by
  induction ds with
  | nil => cbv
  | cons d ds ih => exact Token.tokenize_append (d.1.tokenize_source d.2) (d.1.endsLine_source d.2) ih

theorem wordsOf_shift (d : Definition) (closed : Bool) (ds : List (Definition × Bool)) (n : Nat) :
    (wordsOf ((d, closed) :: ds)).map (Spanned.shift n)
      = (d.words closed).map (Spanned.shift n)
        ++ (wordsOf ds).map (Spanned.shift (n + occupied (d.source closed).toList)) := by
  show (d.words closed ++ (wordsOf ds).map _).map _ = _
  rw [List.map_append, List.map_map]
  congr 1
  exact List.map_congr_left fun w _ => Spanned.shift_shift _ n w

/-- The words of a list that is not empty are not none. -/
theorem wordsOf_ne_nil (d : Definition × Bool) (ds : List (Definition × Bool)) :
    wordsOf (d :: ds) ≠ [] := by
  obtain ⟨w, last, -⟩ := d.1.endsLine_source d.2
  refine List.append_ne_nil_of_left_ne_nil (fun none => ?_) _
  rw [none] at last
  cases last

/-- The definition stands in front of others, and is closed. -/
theorem answers_cons (d : Definition) {ds : List (Definition × Bool)} (some : ds ≠ []) {n : Nat}
    {r : Except Error (Program × Cursor)}
    (h : Parser.Answers
      ((wordsOf ds).map (Spanned.shift (n + occupied (d.source true).toList))) r) :
    Parser.Answers ((wordsOf ((d, true) :: ds)).map (Spanned.shift n))
      (r.map fun b => (.function d.value :: b.1, b.2)) := by
  obtain ⟨e, run⟩ := d.exists_closedProgram n
  have ends := d.endsLine true (Spanned.map_look_shift n (d.words true))
  have filled : (wordsOf ds).map (Spanned.shift (n + occupied (d.source true).toList)) ≠ [] := by
    obtain ⟨x, xs, rfl⟩ := List.exists_cons_of_ne_nil some
    exact fun none => wordsOf_ne_nil x xs (List.map_eq_nil_iff.mp none)
  rw [wordsOf_shift]
  exact h.behind filled ends run

theorem occupied_sources (d : Definition) (closed : Bool) (ds : List (Definition × Bool)) :
    occupied (sources ((d, closed) :: ds)).toList
      = occupied (d.source closed).toList + occupied (sources ds).toList := by
  show occupied (d.source closed ++ sources ds).toList = _
  rw [String.toList_append, Text.occupied_append]

/-- If all but the last definition are closed, the source is read as the definitions. -/
theorem exists_answers {ds : List (Definition × Bool)} (closed : ∀ d ∈ ds.dropLast, d.2) (n : Nat) :
    ∃ e, Parser.Answers ((wordsOf ds).map (Spanned.shift n)) (.ok (program ds, e)) := by
  induction ds generalizing n with
  | nil => exact ⟨Cursor.start [], Parser.answers_of_program rfl⟩
  | cons d ds ih =>
    obtain ⟨d, b⟩ := d
    cases ds with
    | nil =>
      rw [wordsOf_shift, wordsOf, List.map_nil, List.append_nil]
      cases b with
      | true =>
        obtain ⟨e, run⟩ := d.exists_closedProgram n
        exact ⟨e, Parser.answers_of_program (Parser.program_of_closedProgram run)⟩
      | false =>
        obtain ⟨e, run⟩ := (d.unclosed (Spanned.map_look_shift n d.tokens)).exists_program
        exact ⟨e, Parser.answers_of_program run⟩
    | cons next rest =>
      obtain rfl : b = true := closed _ List.mem_cons_self
      obtain ⟨e, h⟩ := ih (fun x mem => closed x (List.mem_cons_of_mem _ mem)) _
      exact ⟨e, d.answers_cons (List.cons_ne_nil _ _) h⟩

/-- The first word of definitions that is not a separator is the keyword of the first one. -/
theorem exists_keyword_wordsOf (d : Definition × Bool) (ds : List (Definition × Bool)) (n : Nat) :
    ∃ w, (Cursor.start ((wordsOf (d :: ds)).map (Spanned.shift n))).skipSeparators.rest.head? = some w
      ∧ w.token = .function ∧ w.start = n + d.1.keyword := by
  obtain ⟨w, ws, shape, token, start⟩ := d.1.exists_keyword
  refine ⟨w.shift n, ?_, token, congrArg (n + ·) start⟩
  obtain ⟨more, words⟩ : ∃ more, wordsOf (d :: ds) = d.1.tokens ++ more := by
    obtain ⟨d, closed⟩ := d
    cases closed with
    | false => exact ⟨_, rfl⟩
    | true => exact ⟨_, List.append_assoc ..⟩
  show (((wordsOf (d :: ds)).map (Spanned.shift n)).dropWhile (·.token.isSeparator)).head? = _
  have behind : (d.1.tokens ++ more).dropWhile (·.token.isSeparator) = w :: (ws ++ more) := by
    rw [List.dropWhile_append, shape]
    rfl
  rw [List.dropWhile_map, words]
  exact congrArg (fun l => (l.map (Spanned.shift n)).head?) behind

/-- Behind a definition that is left open the keyword of the next one is out of place. -/
theorem answers_open {front : List (Definition × Bool)} (closed : ∀ x ∈ front, x.2) (d : Definition)
    (next : Definition × Bool) (rest : List (Definition × Bool)) (n : Nat) :
    Parser.Answers ((wordsOf (front ++ (d, false) :: next :: rest)).map (Spanned.shift n))
      (.error (.parser ("Expected end of statement, found 'function' at position "
        ++ toString (n + (occupied (sources (front ++ [(d, false)])).toList + next.1.keyword))))) := by
  induction front generalizing n with
  | nil =>
    obtain ⟨w, first, token, start⟩ := exists_keyword_wordsOf next rest (n + occupied d.text.toList)
    have looks := Spanned.map_look_shift n d.tokens
    have h := (d.unclosed looks).answers (d.endsLine false looks) first token
    rw [List.nil_append, List.nil_append, wordsOf_shift, occupied_sources, ← Nat.add_assoc,
      show n + (occupied (d.source false).toList + occupied (sources []).toList)
        = n + occupied d.text.toList from rfl, ← start]
    exact h
  | cons x front ih =>
    obtain ⟨x, b⟩ := x
    obtain rfl : b = true := closed _ List.mem_cons_self
    have h := ih (fun y mem => closed y (List.mem_cons_of_mem _ mem)) (n + occupied (x.source true).toList)
    have whole := x.answers_cons (List.append_ne_nil_of_right_ne_nil _ (List.cons_ne_nil _ _)) h
    rw [List.cons_append, List.cons_append, occupied_sources, Nat.add_assoc, ← Nat.add_assoc n]
    exact whole

/-- All but the last are closed, or there is a first one that is not, with another one behind. -/
theorem exists_open (ds : List (Definition × Bool)) : (∀ d ∈ ds.dropLast, d.2)
    ∨ ∃ front d next rest, ds = front ++ (d, false) :: next :: rest ∧ ∀ x ∈ front, x.2 := by
  induction ds with
  | nil => exact .inl nofun
  | cons d ds ih =>
    obtain ⟨d, closed⟩ := d
    cases ds with
    | nil => exact .inl nofun
    | cons next rest =>
      cases closed with
      | false => exact .inr ⟨[], d, next, rest, rfl, nofun⟩
      | true =>
        rcases ih with closed | ⟨front, d', next', rest', shape, closed⟩
        · exact .inl (List.forall_mem_cons.mpr ⟨rfl, closed⟩)
        · exact .inr ⟨(d, true) :: front, d', next', rest', congrArg (_ :: ·) shape,
            List.forall_mem_cons.mpr ⟨rfl, closed⟩⟩

theorem parse_sources {ds : List (Definition × Bool)} {r : Except Error (Program × Cursor)}
    (h : Parser.Answers ((wordsOf ds).map (Spanned.shift 0)) r) :
    Tree.parse (sources ds) = r.map fun b => Tree.ofProgram b.1 := by
  rw [Spanned.shift_zero, List.map_id] at h
  rw [Tree.parse, Program.parse, tokenize_sources]
  dsimp only
  rw [Program.ofTokens, h.program]
  cases r <;> rfl

theorem parse_open {front : List (Definition × Bool)} (closed : ∀ x ∈ front, x.2) (d : Definition)
    (next : Definition × Bool) (rest : List (Definition × Bool)) :
    Tree.parse (sources (front ++ (d, false) :: next :: rest)) = .error (.parser
      ("Expected end of statement, found 'function' at position "
        ++ toString (occupied (sources (front ++ [(d, false)])).toList + next.1.keyword))) := by
  have h := answers_open closed d next rest 0
  rw [Nat.zero_add] at h
  exact parse_sources h

end Definition

/-- The line that closes a definition may be left out where the definition is the last one of the
source, and only there: otherwise the keyword of the next one is out of place. -/
theorem Tree.parse_definitions (ds : List (Definition × Bool)) :
    (Tree.parse (Definition.sources ds) = .ok (Tree.ofProgram (Definition.program ds))
      ↔ ∀ d ∈ ds.dropLast, d.2)
    ∧ ∀ front d next rest, ds = front ++ (d, false) :: next :: rest → (∀ x ∈ front, x.2) →
      Tree.parse (Definition.sources ds) = .error (.parser
        ("Expected end of statement, found 'function' at position "
          ++ toString (occupied (Definition.sources (front ++ [(d, false)])).toList
            + next.1.keyword))) := by
  refine ⟨⟨fun parsed => ?_, fun closed => ?_⟩, ?_⟩
  · refine (Definition.exists_open ds).resolve_right ?_
    rintro ⟨front, d, next, rest, rfl, closed⟩
    rw [Definition.parse_open closed] at parsed
    cases parsed
  · obtain ⟨e, h⟩ := Definition.exists_answers closed 0
    exact Definition.parse_sources h
  · rintro front d next rest rfl closed
    exact Definition.parse_open closed d next rest

theorem Tree.parse_definitions_two : ∃ f g : Definition,
    f.text = "function f()\nx = 1\n" ∧ g.text = "function y = g(x)\ny = x\n"
      ∧ Tree.parse (Definition.sources [(f, true), (g, false)])
        = .ok (Tree.ofProgram [.function f.value, .function g.value])
      ∧ Tree.parse (Definition.sources [(f, false), (g, true)]) = .error (.parser
        "Expected end of statement, found 'function' at position 19") := by
  obtain ⟨f, hf⟩ : ∃ f : Definition, f.text = "function f()\nx = 1\n" :=
    ⟨⟨_, _, _, by cbv, ⟨_, rfl, rfl, rfl⟩, by cbv⟩, rfl⟩
  obtain ⟨g, hg, keyword⟩ : ∃ g : Definition, g.text = "function y = g(x)\ny = x\n" ∧ g.keyword = 0 :=
    ⟨⟨_, _, _, by cbv, ⟨_, rfl, rfl, rfl⟩, by cbv⟩, rfl, rfl⟩
  refine ⟨f, g, hf, hg, ?_, ?_⟩
  · exact (Tree.parse_definitions [(f, true), (g, false)]).1.mpr
      (List.forall_mem_singleton.mpr rfl)
  · refine ((Tree.parse_definitions [(f, false), (g, true)]).2 [] f (g, true) [] rfl (List.forall_mem_nil _)).trans ?_
    rw [keyword]
    show Except.error (Error.parser (_ ++ toString (occupied (f.text ++ "").toList + 0))) = _
    rw [hf]
    rfl

/-- Two definitions without their closing lines are no program, though they are one with them. -/
theorem Tree.parse_definitions_not :
    Tree.parse "function f()\nx = 1\nfunction g()\ny = 2\n"
      ≠ Tree.parse "function f()\nx = 1\nend\nfunction g()\ny = 2\nend\n" := by
  have opened : ∃ e, Program.parse "function f()\nx = 1\nfunction g()\ny = 2\n" = .error e :=
    ⟨_, by cbv⟩
  have closed : ∃ p, Program.parse "function f()\nx = 1\nend\nfunction g()\ny = 2\nend\n" = .ok p :=
    ⟨_, by cbv⟩
  obtain ⟨e, opened⟩ := opened
  obtain ⟨p, closed⟩ := closed
  intro same
  rw [Tree.parse, opened, Tree.parse, closed] at same
  cases same

end MatrixScript
