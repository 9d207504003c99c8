/-
# `Proofs.Cpp.PhraseReading` — what phrases show when they are read

By induction on how a text is put together: it is balanced (`Phrase.balanced`), it
names only helpers that are in use (`Phrase.helpers`), and it stays on one line
(`Piece.line`), as long as the start of the names of temporaries does.

A name of a helper could also come about where two pieces meet.  So that reading is about
a text behind another one: no piece goes on with what the text before it begins
(`Before.Ends`), and the name of a helper ends inside of its piece (`Lists`).
-/
import MatrixScript.Proofs.Cpp.Phrase

namespace MatrixScript.Cpp

variable {I : Idiom} {list : Bool} {p q : Place} {a : String} {closers : List Char}

/-! ## Delimiters -/

theorem delimit_word (closers : List Char) {c : Char} (word : Token.isWordRest c) :
    delimit closers c = some closers := by
  have other : closer? c = none ∧ isCloser c = false := by
    have apart : ∀ d : Char, Token.isWordRest d = false → c ≠ d := by
      rintro d none rfl
      rw [none] at word
      cases word
    refine ⟨?_, ?_⟩
    · unfold closer?
      split
      · exact absurd rfl (apart _ (by decide))
      · exact absurd rfl (apart _ (by decide))
      · exact absurd rfl (apart _ (by decide))
      · rfl
    · simp [isCloser, apart ')' (by decide), apart ']' (by decide), apart '\x7d' (by decide)]
  unfold delimit
  rw [other.1, other.2]
  rfl

theorem closersAfter_word (closers : List Char) {cs : List Char}
    (word : ∀ c ∈ cs, Token.isWordRest c) : closersAfter closers cs = some closers := by
  induction cs with
  | nil => rfl
  | cons c cs ih =>
    obtain ⟨first, rest⟩ := List.forall_mem_cons.mp word
    rw [closersAfter, delimit_word closers first]
    exact ih rest

/-- No letter of a word is one of the characters that are special. -/
theorem not_mem_of_word {cs : List Char} (word : ∀ c ∈ cs, Token.isWordRest c) {d : Char}
    (special : Token.isWordRest d = false) : d ∉ cs := by
  intro mem
  rw [word d mem] at special
  cases special

namespace Place

theorem step_delimit {c : Char} (h : p.step list c = some q) :
    c ≠ '\x22' ∧ c ≠ '\n' ∧ c ≠ '\r' ∧ delimit p.closers c = some q.closers := by
  unfold step at h
  split at h
  case isTrue word =>
    obtain ⟨before, -, rfl⟩ := Option.map_eq_some_iff.mp h
    refine ⟨?_, ?_, ?_, delimit_word p.closers word⟩ <;> rintro rfl <;> cases word
  case isFalse =>
    split at h
    · cases h
    case isFalse ends =>
      obtain ⟨quote, newline, carriage⟩ : c ≠ '\x22' ∧ c ≠ '\n' ∧ c ≠ '\r' :=
        ⟨fun eq => ends (.inl eq), fun eq => ends (.inr (.inl eq)), fun eq => ends (.inr (.inr eq))⟩
      split at h
      · cases h
      · split at h
        · cases h
        · obtain ⟨closers, eq, rfl⟩ := Option.map_eq_some_iff.mp h
          exact ⟨quote, newline, carriage, eq⟩

theorem read_delimit {cs : List Char} (h : p.read list cs = some q) :
    (∀ c ∈ cs, c ≠ '\x22' ∧ c ≠ '\n' ∧ c ≠ '\r') ∧ closersAfter p.closers cs = some q.closers := by
  induction cs generalizing p with
  | nil =>
    cases h
    exact ⟨nofun, rfl⟩
  | cons c cs ih =>
    obtain ⟨r, first, rest⟩ := Option.bind_eq_some_iff.mp h
    obtain ⟨quote, newline, carriage, next⟩ := step_delimit first
    obtain ⟨plain, nested⟩ := ih rest
    refine ⟨List.forall_mem_cons.mpr ⟨⟨quote, newline, carriage⟩, plain⟩, ?_⟩
    rw [closersAfter, next]
    exact nested

end Place

/-- A helper's name is a word in a scope. -/
theorem helper_eq {i : Include} (scope : i ≠ .math) : ∃ w : List Char,
    i.helper.toList = helperScope ++ w ∧ w ≠ [] ∧ ∀ c ∈ w, Token.isWordRest c := by
  cases i with
  | math => exact absurd rfl scope
  | length => exact ⟨"length".toList, rfl, nofun, List.all_eq_true.mp rfl⟩
  | span => exact ⟨"span".toList, rfl, nofun, List.all_eq_true.mp rfl⟩
  | uspan => exact ⟨"uspan".toList, rfl, nofun, List.all_eq_true.mp rfl⟩
  | hankel => exact ⟨"hankel".toList, rfl, nofun, List.all_eq_true.mp rfl⟩
  | fft => exact ⟨"fft".toList, rfl, nofun, List.all_eq_true.mp rfl⟩
  | fftn => exact ⟨"fftn".toList, rfl, nofun, List.all_eq_true.mp rfl⟩
  | ifft => exact ⟨"ifft".toList, rfl, nofun, List.all_eq_true.mp rfl⟩
  | ifftn => exact ⟨"ifftn".toList, rfl, nofun, List.all_eq_true.mp rfl⟩
  | nextpow2 => exact ⟨"nextpow2".toList, rfl, nofun, List.all_eq_true.mp rfl⟩

/-! ## String literals -/

/-- The text of a helper's name and what opens its arguments. -/
theorem toList_helper {i : Include} {c : Char} {w : List Char}
    (eq : i.helper.toList = helperScope ++ w) :
    (i.helper ++ String.ofList [c]).toList = helperScope ++ (w ++ [c]) := by
  rw [String.toList_append, eq, String.toList_ofList, List.append_assoc]

theorem plain_helper {i : Include} {c : Char} (scope : i ≠ .math) (opens : c = '(' ∨ c = '<')
    {d : Char} (special : Token.isWordRest d = false) (ne : d ≠ ':' ∧ d ≠ '(' ∧ d ≠ '<') :
    d ∉ (i.helper ++ String.ofList [c]).toList := by
  obtain ⟨w, eq, -, word⟩ := helper_eq scope
  obtain ⟨colon, paren, angle⟩ := ne
  rw [toList_helper eq, List.mem_append, List.mem_append, List.mem_singleton]
  rintro (mem | mem | rfl)
  · rcases List.mem_append.mp (show d ∈ ['m', '2', 'c', 'p', 'p'] ++ [':', ':'] from mem)
      with mem | mem
    · exact not_mem_of_word (List.all_eq_true.mp rfl) special mem
    · rcases List.mem_pair.mp mem with rfl | rfl <;> exact colon rfl
  · exact not_mem_of_word word special mem
  · exact opens.elim paren angle

theorem Piece.closed (stem : Closed I.stem) (h : Piece I list p a q) : Closed a := by
  induction h with
  | fixed read => exact closed_of_plain fun mem => (Place.read_delimit read).1 _ mem |>.1 rfl
  | name word => exact closed_of_plain (not_mem_of_word word (by decide))
  | literal => exact closed_quoted _
  | helper _ scope opens => exact closed_of_plain (plain_helper scope opens (by decide) (by decide))
  | temporary _ word => exact stem.append (closed_of_plain (not_mem_of_word word (by decide)))
  | loosen _ ih => exact ih
  | append _ _ ih ih' => exact ih.append ih'

/-! ## Nesting -/

theorem Piece.nested (stem : Balanced I.stem) (h : Piece I list p a q) :
    closersAfter p.closers (bare a) = some q.closers := by
  induction h with
  | fixed read =>
    obtain ⟨plain, nested⟩ := Place.read_delimit read
    rw [bare_of_plain fun mem => (plain _ mem).1 rfl]
    exact nested
  | @name p a word =>
    rw [bare_of_plain (not_mem_of_word word (by decide))]
    exact closersAfter_word p.closers word
  | literal =>
    rw [bare_quoted]
    rfl
  | @helper closers closers' i c _ scope opens next =>
    obtain ⟨w, eq, -, word⟩ := helper_eq scope
    rw [bare_of_plain (plain_helper scope opens (by decide) (by decide)), toList_helper eq]
    show closersAfter closers (w ++ [c]) = some closers'
    rw [closersAfter_append, closersAfter_word closers word, Option.bind_some, closersAfter, next]
    rfl
  | @temporary closers suffix _ word =>
    have inside : closersAfter closers (bare I.stem) = some closers :=
      closersAfter_frame stem.nested closers
    rw [bare_append stem.closed, bare_of_plain (not_mem_of_word word (by decide)),
      closersAfter_append, inside]
    exact closersAfter_word closers word
  | loosen _ ih => exact ih
  | append first _ ih ih' =>
    rw [bare_append (first.closed stem.closed), closersAfter_append, ih]
    exact ih'

theorem Phrase.balanced (stem : Balanced I.stem) (h : Phrase I list a) : Balanced a :=
  ⟨Piece.closed stem.closed h, Piece.nested stem h⟩

/-! ## Lines -/

theorem not_mem_escaped {cs : List Char} (line : '\n' ∉ cs) : '\n' ∉ Rule.escaped cs := by
  induction cs with
  | nil => exact List.not_mem_nil
  | cons c cs ih =>
    obtain ⟨here, there⟩ := not_or.mp fun mem => line (List.mem_cons.mpr mem)
    unfold Rule.escaped
    split
    · simp [here, ih there]
    · simp [here, ih there]

/-- A piece has no newline, and ends with no carriage return. -/
theorem Piece.line (stem : '\n' ∉ I.stem.toList) (h : Piece I list p a q) :
    '\n' ∉ a.toList ∧ a.toList.getLast? ≠ some '\r' := by
  induction h with
  | fixed read =>
    have plain := (Place.read_delimit read).1
    exact ⟨fun mem => (plain _ mem).2.1 rfl, fun last =>
      (plain _ (List.mem_of_getLast? last)).2.2 rfl⟩
  | name word =>
    exact ⟨not_mem_of_word word (by decide), fun last =>
      not_mem_of_word word (by decide) (List.mem_of_getLast? last)⟩
  | @literal p cs line =>
    have last : ('\x22' :: (Rule.escaped cs ++ ['\x22'])).getLast? = some '\x22' := by
      rw [← List.cons_append, List.getLast?_concat]
    rw [Text.quoted, String.toList_ofList]
    refine ⟨?_, by rw [List.cons_append, last]; decide⟩
    simp [not_mem_escaped line]
  | helper _ scope opens =>
    exact ⟨plain_helper scope opens (by decide) (by decide), fun last =>
      plain_helper scope opens (by decide) (by decide) (List.mem_of_getLast? last)⟩
  | @temporary closers suffix some word =>
    have filled : suffix.toList ≠ [] := fun none => some (String.toList_injective none)
    rw [String.toList_append]
    refine ⟨List.not_mem_append stem (not_mem_of_word word (by decide)), fun last => ?_⟩
    rw [List.getLast?_append_of_ne_nil _ filled] at last
    exact not_mem_of_word word (by decide) (List.mem_of_getLast? last)
  | loosen _ ih => exact ih
  | @append p q r a b _ _ ih ih' =>
    rw [String.toList_append]
    refine ⟨List.not_mem_append ih.1 ih'.1, fun last => ?_⟩
    rw [List.getLast?_append] at last
    cases eq : b.toList.getLast? with
    | none =>
      rw [eq] at last
      exact ih.2 last
    | some c =>
      rw [eq] at last ih'
      exact ih'.2 last

theorem Piece.isLine (stem : '\n' ∉ I.stem.toList) (h : Piece I list p a q) (some : a ≠ "") :
    Text.IsLine a := ⟨some, (h.line stem).1, (h.line stem).2⟩

/-! ## Helpers -/

/-- What stands behind the scope of helpers is the name of one in use, and something
behind that which is no letter. -/
structure Named (used : List Include) (rest : List Char) : Prop where
  used : ∃ i ∈ used, i.helper.toList = helperScope ++ rest.takeWhile Token.isWordRest
  ends : rest.takeWhile Token.isWordRest ≠ rest

theorem Named.append {used : List Include} {rest : List Char} (h : Named used rest)
    (more : List Char) : Named used (rest ++ more) := by
  have same : (rest ++ more).takeWhile Token.isWordRest = rest.takeWhile Token.isWordRest := by
    rw [List.takeWhile_append, if_neg]
    intro eq
    exact h.ends (List.takeWhile_prefix _ |>.eq_of_length eq)
  refine ⟨by rw [same]; exact h.used, ?_⟩
  rw [same]
  intro eq
  have length := congrArg List.length eq
  have short : (rest.takeWhile Token.isWordRest).length ≤ rest.length :=
    (List.takeWhile_prefix _).length_le
  rw [List.length_append] at length
  exact h.ends (List.takeWhile_prefix _ |>.eq_of_length (by omega))

/-- Behind the characters `back`, last one first, every scope of helpers that ends in `cs`
is that of a helper in use. -/
def Lists (used : List Include) (back cs : List Char) : Prop :=
  ∀ before rest, back.reverse ++ cs = before ++ (helperScope ++ rest) → rest.length < cs.length →
    Named used rest

/-- The characters in front of a place, last one first, are what is known of them. -/
def Before.Ends (back : List Char) : Before → Prop
  | .apart => (∀ c ∈ back.head?, Token.isWordRest c = false) ∧ ¬ ':' :: scopeBack <+: back
  | .word letters => letters ≠ [] ∧ (∀ c ∈ letters, Token.isWordRest c)
      ∧ ∃ rest, back = letters ++ rest ∧ ∀ c ∈ rest.head?, Token.isWordRest c = false
  | .unknown => True

variable {used : List Include} {back cs ds : List Char}

theorem lists_append (h : Lists used back cs) (h' : Lists used (cs.reverse ++ back) ds) :
    Lists used back (cs ++ ds) := by
  intro before rest eq length
  rcases Nat.lt_or_ge rest.length ds.length with short | long
  · refine h' before rest ?_ short
    rw [List.reverse_append, List.reverse_reverse, List.append_assoc]
    exact eq
  · -- the rest of the first part is followed by the whole second one
    obtain ⟨inner, rfl⟩ : ∃ inner, rest = inner ++ ds := by
      have whole : ds <:+ before ++ helperScope ++ rest := by
        rw [List.append_assoc, ← eq, ← List.append_assoc]
        exact List.suffix_append _ _
      obtain ⟨inner, eq⟩ := List.suffix_of_suffix_length_le whole (List.suffix_append _ _) long
      exact ⟨inner, eq.symm⟩
    refine (h before inner ?_ ?_).append ds
    · have cut : (back.reverse ++ cs) ++ ds = (before ++ (helperScope ++ inner)) ++ ds := by
        simpa using eq
      exact List.append_cancel_right cut
    · simpa using length

theorem lists_cons {c : Char} (other : ¬helperScope.reverse <+: c :: back)
    (h : Lists used (c :: back) cs) : Lists used back (c :: cs) := by
  have first : Lists used back [c] := by
    intro before rest eq length
    obtain rfl : rest = [] := List.length_eq_zero_iff.mp (by simpa using length)
    refine absurd ⟨before.reverse, ?_⟩ other
    have reversed := congrArg List.reverse eq
    simpa using reversed.symm
  exact lists_append first h

/-- Without a colon there is no scope. -/
theorem lists_plain (plain : ':' ∉ cs) : Lists used back cs := by
  induction cs generalizing back with
  | nil => exact fun _ _ _ length => absurd length (Nat.not_lt_zero _)
  | cons c cs ih =>
    obtain ⟨here, there⟩ := not_or.mp fun mem => plain (List.mem_cons.mpr mem)
    refine lists_cons (fun opens => here ?_) (ih there)
    exact (List.cons_prefix_cons.mp opens).1

/-! ### Fixed pieces -/

/-- A word of known letters, behind which there is none, ends with letters of a scope only
if it has them itself. -/
theorem prefix_of_prefix_append {letters rest : List Char} :
    ∀ {ws : List Char}, (∀ c ∈ ws, Token.isWordRest c) →
      (∀ c ∈ rest.head?, Token.isWordRest c = false) → ws <+: letters ++ rest → ws <+: letters := by
  induction letters with
  | nil =>
    intro ws word apart opens
    cases ws with
    | nil => exact List.nil_prefix
    | cons w ws =>
      obtain ⟨tail, eq⟩ := opens
      have head : rest.head? = some w := by
        rw [List.nil_append] at eq
        rw [← eq]
        rfl
      have letter := word w List.mem_cons_self
      rw [apart w head] at letter
      cases letter
  | cons l letters ih =>
    intro ws word apart opens
    cases ws with
    | nil => exact List.nil_prefix
    | cons w ws =>
      rw [List.cons_append] at opens
      obtain ⟨rfl, inside⟩ := List.cons_prefix_cons.mp opens
      exact List.cons_prefix_cons.mpr
        ⟨rfl, ih (fun c mem => word c (List.mem_cons_of_mem _ mem)) apart inside⟩

theorem word_scopeBack : ∀ c ∈ scopeBack, Token.isWordRest c := List.all_eq_true.mp rfl

theorem Place.step_ends {c : Char} (h : p.step list c = some q) (ends : p.before.Ends back) :
    ¬helperScope.reverse <+: c :: back ∧ q.before.Ends (c :: back) := by
  unfold step at h
  split at h
  case isTrue word =>
    obtain ⟨before, letter, rfl⟩ := Option.map_eq_some_iff.mp h
    refine ⟨fun opens => ?_, ?_⟩
    · obtain ⟨rfl, -⟩ := List.cons_prefix_cons.mp opens
      cases word
    · cases known : p.before with
      | apart =>
        rw [known] at letter ends
        obtain rfl := Option.some.inj letter
        exact ⟨nofun, List.forall_mem_singleton.mpr word, back, rfl, ends.1⟩
      | word letters =>
        rw [known] at letter ends
        obtain rfl := Option.some.inj letter
        obtain ⟨-, words, rest, rfl, apart⟩ := ends
        exact ⟨nofun, List.forall_mem_cons.mpr ⟨word, words⟩, rest, rfl, apart⟩
      | unknown =>
        rw [known] at letter
        cases letter
  case isFalse word =>
    split at h
    · cases h
    · split at h
      · cases h
      case isFalse colon =>
        split at h
        · cases h
        · obtain ⟨closers, -, rfl⟩ := Option.map_eq_some_iff.mp h
          have special : Token.isWordRest c = false := by simpa using word
          -- a colon is read only behind what is known not to be the scope of helpers
          have behind : c = ':' → ¬scopeBack <+: back ∧ ¬ ':' :: scopeBack <+: back := by
            intro here
            cases known : p.before with
            | apart =>
              rw [known] at ends
              refine ⟨fun opens => ?_, ends.2⟩
              obtain ⟨tail, rfl⟩ := opens
              cases ends.1 'p' rfl
            | word letters =>
              rw [known] at ends colon
              obtain ⟨some, words, rest, rfl, apart⟩ := ends
              refine ⟨fun opens => ?_, fun opens => ?_⟩
              · have inside := prefix_of_prefix_append word_scopeBack apart opens
                refine colon ⟨here, ?_⟩
                simp [Before.colon, inside]
              · obtain ⟨l, letters, rfl⟩ := List.exists_cons_of_ne_nil some
                obtain ⟨rfl, -⟩ := List.cons_prefix_cons.mp opens
                cases words ':' List.mem_cons_self
            | unknown =>
              rw [known] at colon
              exact absurd ⟨here, rfl⟩ colon
          refine ⟨fun opens => ?_, ?_, fun opens => ?_⟩
          · obtain ⟨eq, opens⟩ := List.cons_prefix_cons.mp opens
            exact (behind eq.symm).2 opens
          · exact fun d mem => Option.some.inj mem ▸ special
          · obtain ⟨eq, opens⟩ := List.cons_prefix_cons.mp opens
            exact (behind eq.symm).1 opens

theorem Place.read_lists (h : p.read list cs = some q) (ends : p.before.Ends back) :
    Lists used back cs ∧ q.before.Ends (cs.reverse ++ back) := by
  induction cs generalizing p back with
  | nil =>
    cases h
    exact ⟨lists_plain List.not_mem_nil, ends⟩
  | cons c cs ih =>
    obtain ⟨r, first, rest⟩ := Option.bind_eq_some_iff.mp h
    obtain ⟨other, next⟩ := step_ends first ends
    obtain ⟨lists, last⟩ := ih rest next
    refine ⟨lists_cons other lists, ?_⟩
    rwa [List.reverse_cons, List.append_assoc]

/-! ### Helpers and temporaries -/

/-- Where no word and no half of a scope ends, a scope begins inside of what follows. -/
theorem exists_inside (ends : Before.Ends back .apart) {before rest : List Char}
    (eq : back.reverse ++ cs = before ++ (helperScope ++ rest)) (length : rest.length < cs.length) :
    ∃ inner, cs = inner ++ (helperScope ++ rest) := by
  rcases List.append_eq_append_iff.mp eq with ⟨inner, -, eq⟩ | ⟨half, front, eq⟩
  · exact ⟨inner, eq⟩
  · -- a part of the scope would stand in front
    have short : half.length < 7 := by
      have lengths := congrArg List.length eq
      simp only [List.length_append] at lengths
      have seven : helperScope.length = 7 := rfl
      omega
    have part : half = helperScope.take half.length := by
      have taken := congrArg (List.take half.length) eq
      rw [List.take_append_of_le_length (by show half.length ≤ 7; omega), List.take_left] at taken
      exact taken.symm
    have reversed : back = half.reverse ++ before.reverse := by
      rw [← List.reverse_append, ← front, List.reverse_reverse]
    obtain ⟨apart, scope⟩ := ends
    generalize half.length = k at short part
    subst part
    rw [reversed] at apart scope
    match k, short with
    | 0, _ => exact ⟨[], eq.symm⟩
    | 1, _ | 2, _ | 3, _ | 4, _ | 5, _ => exact absurd (apart _ rfl) (by decide)
    | 6, _ => exact absurd (List.prefix_append _ before.reverse) scope

theorem lists_helper {i : Include} {c : Char} (mem : i ∈ used) (scope : i ≠ .math)
    (opens : c = '(' ∨ c = '<') (ends : Before.Ends back .apart) :
    Lists used back (i.helper ++ String.ofList [c]).toList := by
  obtain ⟨w, eq, some, word⟩ := helper_eq scope
  have special : Token.isWordRest c = false := by rcases opens with rfl | rfl <;> rfl
  rw [toList_helper eq]
  intro before rest whole length
  obtain ⟨inner, inside⟩ := exists_inside ends whole length
  -- behind the scope of the helper there is no other
  have only : inner = [] := by
    have plain : ':' ∉ w ++ [c] := by
      refine List.not_mem_append (not_mem_of_word word (by decide)) ?_
      rcases opens with rfl | rfl <;> decide
    have long : helperScope.length ≤ inner.length → False := by
      intro long
      obtain ⟨more, rfl⟩ : ∃ more, inner = helperScope ++ more := by
        have first : inner <+: helperScope ++ (w ++ [c]) := inside ▸ List.prefix_append _ _
        obtain ⟨more, eq⟩ := List.prefix_of_prefix_length_le (List.prefix_append _ _) first long
        exact ⟨more, eq.symm⟩
      rw [List.append_assoc] at inside
      rw [List.append_cancel_left inside] at plain
      exact plain (by simp [helperScope])
    rcases inner with _ | ⟨_, _ | ⟨_, _ | ⟨_, _ | ⟨_, _ | ⟨_, _ | ⟨_, _ | ⟨_, _⟩⟩⟩⟩⟩⟩⟩
    case nil => rfl
    case cons.cons.cons.cons.cons.cons.cons => exact (long (by simp [helperScope])).elim
    all_goals
      exfalso
      simp [helperScope] at inside
  subst only
  obtain rfl : w ++ [c] = rest := List.append_cancel_left inside
  have taken : (w ++ [c]).takeWhile Token.isWordRest = w := by
    rw [List.takeWhile_append_of_pos word, List.takeWhile_cons, special]
    simp
  refine ⟨⟨i, mem, by rw [taken, eq]⟩, ?_⟩
  rw [taken]
  simp

/-- The start of the names of temporaries names no helper. -/
theorem lists_stem (none : helpersIn cs = []) (ends : Before.Ends back .apart) :
    Lists used back cs := by
  intro before rest eq length
  obtain ⟨inner, rfl⟩ := exists_inside ends eq length
  have mem : helperScope ++ rest.takeWhile Token.isWordRest ∈ helpersIn (inner ++ (helperScope ++ rest)) :=
    mem_helpersIn.mpr ⟨inner, rest, rfl, rfl⟩
  rw [none] at mem
  cases mem

theorem Piece.lists (stem : Closed I.stem) (none : helpers I.stem = []) (h : Piece I list p a q) :
    ∀ {back}, p.before.Ends back →
      Lists I.used back (bare a) ∧ q.before.Ends ((bare a).reverse ++ back) := by
  have silent : helpersIn (bare I.stem) = [] := List.map_eq_nil_iff.mp none
  induction h with
  | fixed read =>
    intro back ends
    rw [bare_of_plain fun mem => ((Place.read_delimit read).1 _ mem).1 rfl]
    exact Place.read_lists read ends
  | name word =>
    intro back ends
    rw [bare_of_plain (not_mem_of_word word (by decide))]
    exact ⟨lists_plain (not_mem_of_word word (by decide)), trivial⟩
  | literal =>
    intro back ends
    rw [bare_quoted]
    refine ⟨lists_plain (by decide), ⟨?_, fun opens => ?_⟩⟩
    · exact fun c mem => Option.some.inj mem ▸ rfl
    · exact nomatch (List.cons_prefix_cons.mp opens).1
  | @helper closers closers' i c mem scope opens =>
    intro back ends
    rw [bare_of_plain (plain_helper scope opens (by decide) (by decide))]
    refine ⟨lists_helper mem scope opens ends, ?_⟩
    rw [String.toList_append, String.toList_ofList, List.reverse_append, List.append_assoc]
    rcases opens with rfl | rfl
    · exact ⟨fun c mem => Option.some.inj mem ▸ rfl, fun opens =>
        nomatch (List.cons_prefix_cons.mp opens).1⟩
    · exact ⟨fun c mem => Option.some.inj mem ▸ rfl, fun opens =>
        nomatch (List.cons_prefix_cons.mp opens).1⟩
  | temporary _ word =>
    intro back ends
    rw [bare_append stem, bare_of_plain (not_mem_of_word word (by decide))]
    exact ⟨lists_append (lists_stem silent ends) (lists_plain (not_mem_of_word word (by decide))),
      trivial⟩
  | loosen _ ih => exact fun ends => ⟨(ih ends).1, trivial⟩
  | append first _ ih ih' =>
    intro back ends
    obtain ⟨lists, between⟩ := ih ends
    obtain ⟨lists', last⟩ := ih' between
    rw [bare_append (first.closed stem)]
    refine ⟨lists_append lists lists', ?_⟩
    rwa [List.reverse_append, List.append_assoc]

/-- A phrase names only helpers that are in use. -/
theorem Phrase.helpers (stem : Closed I.stem) (none : helpers I.stem = []) (h : Phrase I list a) :
    ∀ x ∈ Cpp.helpers a, ∃ i ∈ I.used, i.helper = x := by
  intro x mem
  obtain ⟨name, there, rfl⟩ := List.mem_map.mp mem
  obtain ⟨before, rest, eq, rfl⟩ := mem_helpersIn.mp there
  have start : Before.Ends [] .apart := ⟨by simp, fun opens => by simp at opens⟩
  have short : rest.length < (bare a).length := by
    rw [eq]
    simp only [List.length_append]
    have seven : helperScope.length = 7 := rfl
    omega
  obtain ⟨⟨i, mem, eq⟩, -⟩ := (Piece.lists stem none h start).1 before rest eq short
  exact ⟨i, mem, String.toList_injective (by rw [eq, String.toList_ofList])⟩

end MatrixScript.Cpp
