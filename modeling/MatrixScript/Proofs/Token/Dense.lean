/-
# `Proofs.Token.Dense` — texts of elements, and rows of them

`Dense source ts` says that a text is nothing but the tokens `ts`: no blank, comment or
continuation stands in it, and it does not go on to another line.  In front of anything that
ends a token such a text has these tokens wherever it stands (`tokensFrom_dense`); only the
flag of the first one says whether a blank is in front.  So a row of such texts, with blanks
or commas in between, has the tokens of its elements and of its commas (`looks_row`).
-/
import MatrixScript.Proofs.Text.Lines
import MatrixScript.Proofs.Token.Append

namespace MatrixScript

/-- The words with the flag of the first one set. -/
def respaced (spaced : Bool) : List Spanned → List Spanned
  | [] => []
  | w :: ws => { w with spaced } :: ws

namespace Token

open Text

/-- The text is nothing but tokens, one right behind the other on one line. -/
structure Dense (source : String) (ts : List Spanned) : Prop where
  tokens : tokenize source = .ok ts
  tight : ∀ w ∈ ts, w.spaced = false
  line : ∀ w ∈ ts, w.token ≠ .newline
  whole : ts.getLast?.map (·.stop) = some (occupied source.toList)

section

variable {previous : Option Token} {position : Nat} {cs tail : List Char} {ts : List Spanned}

/-- Up to its last token a text without gaps is read as it is alone. -/
theorem Scans.tokensFrom_append (h : Scans previous position cs ts)
    (tight : ∀ w ∈ ts, w.spaced = false)
    (whole : ts.getLast?.map (·.stop) = some (position + occupied cs)) (quiet : Quiet tail)
    {start previousEnd : Nat} {previous' : Option Token}
    (same : quoteTransposes previous' previousEnd start = previous.any endsValue) :
    ∃ us t, us.map Spanned.look = (respaced (previousEnd < start) ts).map Spanned.look
      ∧ tokensFrom (cs ++ tail) start previousEnd previous'
        = (tokensFrom tail (start + occupied cs) (start + occupied cs) (some t)).map (us ++ ·) := by
  induction h generalizing start previousEnd previous' with
  | nil => cases whole
  | @word previous position first stop gap body rest c t ws gaps found starts stops later ih =>
    obtain ⟨here, there⟩ := List.forall_mem_cons.mp tight
    obtain rfl : gap = [] := by simpa using here
    have place : first = position := starts
    have read : lexemeAt (quoteTransposes previous' previousEnd start) c (body ++ (rest ++ tail))
        = .token t body.length := by
      rw [same, ← List.append_assoc]
      exact lexemeAt_append_blank quiet (by simpa using found)
    have head := tokensFrom_found read
    have shape : [] ++ (c :: body ++ rest) ++ tail = c :: (body ++ (rest ++ tail)) := by simp
    rw [shape, head]
    have length : occupied ([] ++ (c :: body ++ rest)) = occupied (c :: body) + occupied rest := by
      rw [List.nil_append, occupied_append]
    rw [length, ← Nat.add_assoc]
    generalize start + occupied (c :: body) = behind
    rw [length, ← Nat.add_assoc] at whole
    cases ws with
    | nil =>
      -- the last token ends with the text
      have nothing : occupied rest = 0 := by
        have ends : stop = position + occupied (c :: body) + occupied rest := Option.some.inj whole
        omega
      obtain rfl := occupied_eq_zero nothing
      exact ⟨[⟨t, start, behind, previousEnd < start⟩], t, rfl, rfl⟩
    | cons w ws =>
      have ends : (w :: ws).getLast?.map (·.stop) = some (stop + occupied rest) := by
        rw [stops, place]
        simpa using whole
      have adjacent : quoteTransposes (some t) behind behind = (some t).any endsValue := by
        simp [quoteTransposes]
      obtain ⟨us, u, looks, run⟩ := ih there ends adjacent
      refine ⟨⟨t, start, behind, previousEnd < start⟩ :: us, u, ?_, ?_⟩
      · have flag : w.spaced = false := there w List.mem_cons_self
        have plain : respaced (behind < behind) (w :: ws) = w :: ws := by
          simp [respaced, ← flag]
        rw [plain] at looks
        rw [List.map_cons, looks]
        rfl
      · rw [run]
        cases tokensFrom tail _ _ (some u) <;> rfl

end

/-- A text of tokens has them in front of anything that ends a token, if nothing stands in front
that a quote could transpose. -/
theorem tokensFrom_dense {source : String} {ts : List Spanned} (h : Dense source ts)
    {tail : List Char} (quiet : Quiet tail) {start previousEnd : Nat} {previous : Option Token}
    (opens : quoteTransposes previous previousEnd start = false) :
    ∃ us t, us.map Spanned.look = (respaced (previousEnd < start) ts).map Spanned.look
      ∧ tokensFrom (source.toList ++ tail) start previousEnd previous
        = (tokensFrom tail (start + occupied source.toList) (start + occupied source.toList)
            (some t)).map (us ++ ·) := by
  have scans : Scans none 0 source.toList ts :=
    scans_of_tokensFrom h.tokens [] rfl fun _ _ _ gap => gap
  exact scans.tokensFrom_append h.tight (by rw [Nat.zero_add]; exact h.whole) quiet opens

/-! ## Rows -/

/-- Text between two elements of a row. -/
def separation (commas : Bool) : String := if commas then ", " else " "

/-- Words of elements with a blank in front of each, and a comma in front of that. -/
def laterDenseWords (commas : Bool) : List (List Spanned) → List Spanned
  | [] => []
  | ts :: rest =>
      (if commas then [tight .comma] else []) ++ (respaced true ts ++ laterDenseWords commas rest)

/-- Words of the elements of a row. -/
def denseWords (commas : Bool) : List (List Spanned) → List Spanned
  | [] => []
  | ts :: rest => ts ++ laterDenseWords commas rest

theorem tokensFrom_bracket (position : Nat) (t : Token) :
    ∃ w, w.look = (tight .rightBracket).look
      ∧ tokensFrom [']'] position position (some t) = .ok [w] := by
  refine ⟨⟨.rightBracket, position, position + occupied [']'], position < position⟩, ?_, ?_⟩
  · simp [Spanned.look, tight]
  · rw [tokensFrom_single (t := .rightBracket) rfl, tokensFrom]
    rfl

/-- Behind what separates two elements a quote transposes nothing. -/
theorem tokensFrom_separation (commas : Bool) (position : Nat) (t : Token) (tail : List Char) :
    ∃ us start previousEnd previous, previousEnd < start
      ∧ quoteTransposes previous previousEnd start = false
      ∧ us.map Spanned.look = (if commas then [tight .comma] else []).map Spanned.look
      ∧ tokensFrom ((separation commas).toList ++ tail) position position (some t)
        = (tokensFrom tail start previousEnd previous).map (us ++ ·) := by
  have apart : ∀ (t : Token) (n : Nat), quoteTransposes (some t) n (n + 1) = false := by
    simp [quoteTransposes]
  cases commas with
  | false =>
    refine ⟨[], position + 1, position, some t, Nat.lt_succ_self _, apart t position, rfl, ?_⟩
    show tokensFrom (' ' :: tail) position position (some t) = _
    rw [tokensFrom_blank]
    cases tokensFrom tail _ _ (some t) <;> rfl
  | true =>
    refine ⟨[⟨.comma, position, position + 1, position < position⟩], position + 1 + 1,
      position + 1, some .comma, Nat.lt_succ_self _, apart .comma _, ?_, ?_⟩
    · simp [Spanned.look, tight]
    · show tokensFrom (',' :: ' ' :: tail) position position (some t) = _
      rw [tokensFrom_single (t := .comma) rfl, tokensFrom_blank]
      rfl

theorem looks_row (commas : Bool) {e : String} {ts : List Spanned} :
    {es : List String} → {tss : List (List Spanned)} → Dense e ts → List.Forall₂ Dense es tss →
      ∀ {start previousEnd : Nat} {previous : Option Token},
        quoteTransposes previous previousEnd start = false →
        ∃ us, us.map Spanned.look = (respaced (previousEnd < start) ts
            ++ (laterDenseWords commas tss ++ [tight .rightBracket])).map Spanned.look
          ∧ tokensFrom ((joined (separation commas) (e :: es)).toList ++ [']'])
            start previousEnd previous = .ok us
  | [], [], dense, .nil, start, previousEnd, previous, opens => by
      obtain ⟨us, t, looks, run⟩ := tokensFrom_dense dense (quiet_bracket []) opens
      obtain ⟨w, look, closes⟩ := tokensFrom_bracket (start + occupied e.toList) t
      refine ⟨us ++ [w], ?_, ?_⟩
      · rw [List.map_append, List.map_append, looks, List.map_singleton, look]
        rfl
      · rw [show joined (separation commas) [e] = e from rfl, run, closes]
        rfl
  | e' :: es, ts' :: tss, dense, .cons dense' all, start, previousEnd, previous, opens => by
      have text : (joined (separation commas) (e :: e' :: es)).toList ++ [']']
          = e.toList ++ ((separation commas).toList
            ++ ((joined (separation commas) (e' :: es)).toList ++ [']'])) := by
        rw [joined_cons, String.toList_append, String.toList_append]
        simp only [List.append_assoc]
      have quiet : ∀ tail, Quiet ((separation commas).toList ++ tail) := by
        cases commas with
        | false => exact quiet_blank
        | true => exact fun tail => quiet_comma (' ' :: tail)
      obtain ⟨us, t, looks, run⟩ := tokensFrom_dense dense (quiet _) opens
      obtain ⟨vs, start', previousEnd', previous', lt, opens', looks', run'⟩ :=
        tokensFrom_separation commas (start + occupied e.toList) t
          ((joined (separation commas) (e' :: es)).toList ++ [']'])
      obtain ⟨ws, looks'', run''⟩ := looks_row commas dense' all opens'
      refine ⟨us ++ (vs ++ ws), ?_, ?_⟩
      · rw [decide_eq_true lt] at looks''
        simp only [List.map_append, looks, looks', looks'', laterDenseWords, List.append_assoc]
      · rw [text, run, run', run'']
        rfl

/-- An assignment of a matrix with one row has the tokens of its elements. -/
theorem looks_assigned (commas : Bool) {e : String} {ts : List Spanned} {es : List String}
    {tss : List (List Spanned)} (dense : Dense e ts) (all : List.Forall₂ Dense es tss) :
    ∃ us, us.map Spanned.look
        = (tight (.ident "x") :: apart .equals :: apart .leftBracket ::
            (denseWords commas (ts :: tss) ++ [tight .rightBracket])).map Spanned.look
      ∧ tokenize ("x = [" ++ joined (separation commas) (e :: es) ++ "]") = .ok us := by
  have opens : quoteTransposes (some .leftBracket) 5 5 = false := rfl
  obtain ⟨us, looks, run⟩ := looks_row commas dense all opens
  have text : ("x = [" ++ joined (separation commas) (e :: es) ++ "]").toList
      = 'x' :: ' ' :: '=' :: ' ' :: '[' :: ((joined (separation commas) (e :: es)).toList ++ [']']) := by
    rw [String.toList_append, String.toList_append]
    rfl
  refine ⟨⟨.ident "x", 0, 1, false⟩ :: ⟨.equals, 2, 3, true⟩ :: ⟨.leftBracket, 4, 5, true⟩ :: us, ?_, ?_⟩
  · have plain : respaced (5 < 5) ts = ts := by
      cases ts with
      | nil => rfl
      | cons w ws =>
        have flag : w.spaced = false := dense.tight w List.mem_cons_self
        simp [respaced, ← flag]
    rw [plain] at looks
    simp only [List.map_cons, looks, denseWords, List.append_assoc]
    rfl
  · rw [tokenize, text, tokensFrom_single (t := .ident "x") rfl, tokensFrom_blank,
      tokensFrom_single (t := .equals) rfl, tokensFrom_blank,
      tokensFrom_single (t := .leftBracket) rfl]
    show (((tokensFrom _ 5 5 (some .leftBracket)).map _).map _).map _ = _
    rw [run]
    rfl

end Token

end MatrixScript
