/-
# `Proofs.Translation.Literal` — a string literal keeps its text

A text on one line is written in a script between two quotes of either kind, with every quote
of that kind doubled (`Text.between`).  The lexer halves them again (`quotedAt?_twice`), so the
token holds the text itself; the rule of strings puts a backslash in front of every quote and
backslash, and taking those away gives the text back (`Text.unescaped?_escaped`).  Nothing in
the text is read as a comment, a continuation or a place of a template on the way
(`translateWith_literal`).
-/
import MatrixScript.Proofs.Token.Words
import MatrixScript.Proofs.Token.Written
import MatrixScript.Proofs.Translation.Formula

namespace MatrixScript

namespace Text

/-- A text with every quote of one kind doubled. -/
def twice (quote : Char) : List Char → List Char
  | [] => []
  | c :: rest => if c = quote then c :: c :: twice quote rest else c :: twice quote rest

/-- A text as a literal of a script. -/
def between (quote : Char) (text : String) : String :=
  String.ofList (quote :: (twice quote text.toList ++ [quote]))

/-- What stands between the double quotes of a C++ literal, with the backslashes in front of
quotes and backslashes taken away; nothing if a quote stands there without one, which would
end the literal, or if any other character has one. -/
def unescaped? : List Char → Option (List Char)
  | [] => some []
  | [c] => if c = '\\' ∨ c = '\x22' then none else some [c]
  | c :: d :: rest =>
      if c = '\x22' then none
      else if c = '\\' then
        if d = '\\' ∨ d = '\x22' then (unescaped? rest).map (d :: ·) else none
      else (unescaped? (d :: rest)).map (c :: ·)

theorem unescaped?_cons {c : Char} (plain : ¬(c = '\\' ∨ c = '\x22')) (cs : List Char) :
    unescaped? (c :: cs) = (unescaped? cs).map (c :: ·) := by
  cases cs with
  | nil => simp [unescaped?, plain]
  | cons d cs =>
    obtain ⟨noBackslash, noQuote⟩ := not_or.mp plain
    rw [unescaped?, if_neg noQuote, if_neg noBackslash]

/-- Taking the backslashes away undoes putting them in. -/
theorem unescaped?_escaped (cs : List Char) : unescaped? (Rule.escaped cs) = some cs := by
  induction cs with
  | nil => rfl
  | cons c cs ih =>
    rw [Rule.escaped]
    by_cases special : c = '\\' ∨ c = '\x22'
    case pos =>
      rw [if_pos special, unescaped?, if_neg (by decide), if_pos rfl, if_pos special, ih,
        Option.map_some]
    case neg => rw [if_neg special, unescaped?_cons special, ih, Option.map_some]

theorem no_newline_of_escaped {cs : List Char} (line : '\n' ∉ cs) : '\n' ∉ Rule.escaped cs := by
  induction cs with
  | nil => exact line
  | cons c cs ih =>
    have here := List.ne_of_not_mem_cons line
    have there := ih (List.not_mem_of_not_mem_cons line)
    rw [Rule.escaped]
    split
    · exact List.not_mem_cons_of_ne_of_not_mem (by decide)
        (List.not_mem_cons_of_ne_of_not_mem here there)
    · exact List.not_mem_cons_of_ne_of_not_mem here there

end Text

namespace Token

open Text (twice between occupied)

/-! ## The token of a literal -/

theorem paired_twice (quote : Char) (cs : List Char) : paired quote (twice quote cs) := by
  induction cs with
  | nil => rfl
  | cons c cs ih =>
    rw [twice]
    split
    case isTrue same => simp [paired, same, ih]
    case isFalse inner => rw [paired_cons inner, ih]

theorem halved_twice (quote : Char) (cs : List Char) : halved quote (twice quote cs) = cs := by
  induction cs with
  | nil => rfl
  | cons c cs ih =>
    rw [twice]
    split
    case isTrue same => simp [halved, same, ih]
    case isFalse inner => rw [halved_cons inner, ih]

theorem mem_of_mem_twice {quote c : Char} {cs : List Char} (h : c ∈ twice quote cs) : c ∈ cs := by
  induction cs with
  | nil => exact h
  | cons d cs ih =>
    rw [twice] at h
    split at h <;> simp only [List.mem_cons] at h ⊢ <;> tauto

/-- The lexer reads a literal to its end and has the text. -/
theorem quotedAt?_twice (quote : Char) {cs : List Char} (line : '\n' ∉ cs) :
    quotedAt? quote (twice quote cs ++ [quote]) = some (cs, (twice quote cs).length + 1) := by
  have plain : (twice quote cs).all (· != '\n') := by
    rw [List.all_eq_true]
    intro c mem
    exact bne_iff_ne.mpr fun newline => line (newline ▸ mem_of_mem_twice mem)
  rw [quotedAt?_of_paired _ (paired_twice quote cs) plain, halved_twice]

/-- Where no value stands right in front, a quote of either kind opens a literal. -/
theorem lexemeAt_twice {quote : Char} (either : quote = '\x22' ∨ quote = '\x27') {cs : List Char}
    (line : '\n' ∉ cs) :
    lexemeAt false quote (twice quote cs ++ [quote])
      = .token (.str (String.ofList cs)) (twice quote cs ++ [quote]).length := by
  have read := quotedAt?_twice quote line
  rw [List.length_append, List.length_singleton]
  rcases either with rfl | rfl
  · show doubleQuotedAt _ = _
    rw [doubleQuotedAt, read]
  · show quoteAt false _ = _
    rw [quoteAt, if_neg Bool.false_ne_true, read]

theorem tokenize_literal {quote : Char} (either : quote = '\x22' ∨ quote = '\x27') {text : String}
    (line : '\n' ∉ text.toList) : ∃ stop, tokenize ("x = " ++ between quote text)
      = .ok [⟨.ident "x", 0, 1, false⟩, ⟨.equals, 2, 3, true⟩, ⟨.str text, 4, stop, true⟩] := by
  have letters : ("x = " ++ between quote text).toList
      = 'x' :: ' ' :: '=' :: ' ' :: quote :: (twice quote text.toList ++ [quote]) := by
    rw [String.toList_append, between, String.toList_ofList, String.toList_ofList]
    rfl
  have literal := lexemeAt_twice either line
  rw [String.ofList_toList] at literal
  generalize twice quote text.toList ++ [quote] = body at letters literal
  -- behind the equals sign stands no value that a quote could transpose
  have last : tokensFrom (quote :: (body ++ [])) 4 3 (some .equals) = _ :=
    tokensFrom_found (by rw [List.append_nil]; exact literal)
  rw [List.append_nil, tokensFrom] at last
  refine ⟨4 + occupied (quote :: body), ?_⟩
  rw [tokenize, letters, tokensFrom_single rfl, tokensFrom_blank, tokensFrom_single rfl,
    tokensFrom_blank]
  show ((tokensFrom (quote :: body) 4 3 (some .equals)).map _).map _ = _
  rw [last]
  rfl

end Token

/-! ## The statement -/

theorem Program.parse_literal {quote : Char} (either : quote = '\x22' ∨ quote = '\x27')
    {text : String} (line : '\n' ∉ text.toList) :
    Program.parse ("x = " ++ Text.between quote text)
      = .ok [.statement (.assign (.variable "x") (.literal .str text))] := by
  obtain ⟨stop, tokens⟩ := Token.tokenize_literal either line
  rw [Program.parse, tokens]
  rfl

/-- A text in quotes of either kind is emitted as one line, and what the line has between its
double quotes is the text, with quotes and backslashes escaped. -/
theorem translateWith_literal {text : String} (line : '\n' ∉ text.toList) {quote : Char}
    (either : quote = '\x22' ∨ quote = '\x27') {config : Config} (valid : config.validate = .ok config) :
    ∃ translation inner, translateWith ("x = " ++ Text.between quote text) config = .ok translation
      ∧ translation.statements = ["x = \"" ++ inner ++ "\" ;"]
      ∧ Text.unescaped? inner.toList = some text.toList := by
  have delivers : ∀ (t : Tree) (id : NodeId) (depth : Nat), t.WellFormed →
      t.Bears id (.literal .str text) → Resolving.Enough t depth id →
      Resolving.Delivers t config id (fun _ emitted => emitted = LiteralKind.emitted .str text)
        (Resolving.resolveWithin depth id) := by
    intro t id depth _ bears enough
    obtain ⟨depth, rfl⟩ := enough.exists_succ
    cases bears with
    | literal written => exact (Resolving.delivers_literal written).imp fun _ _ h => h.1
    | operator operator => cases operator
  have single : ∀ emitted : String, emitted = LiteralKind.emitted .str text →
      '\n' ∉ emitted.toList := by
    rintro _ rfl
    simp [LiteralKind.emitted, Text.no_newline_of_escaped line]
  obtain ⟨translation, emitted, run, statements, rfl⟩ :=
    translateWith_of_delivers (Program.parse_literal either line) rfl
      (Tree.numbered_literal .str text) delivers single valid
  refine ⟨translation, String.ofList (Rule.escaped text.toList), run, ?_, ?_⟩
  · rw [statements, LiteralKind.emitted]
    refine congrArg (fun s => [s]) (String.toList_inj.mp ?_)
    simp [String.toList_append]
  · rw [String.toList_ofList, Text.unescaped?_escaped]

theorem translateWith_literal_mixed :
    ∃ translation inner,
      translateWith ("x = " ++ Text.between '\x27' "it's \"é\" \\ 100% ... %(0)s") {} = .ok translation
      ∧ translation.statements = ["x = \"" ++ inner ++ "\" ;"]
      ∧ Text.unescaped? inner.toList = some "it's \"é\" \\ 100% ... %(0)s".toList :=
  translateWith_literal (by decide) (.inr rfl) rfl

end MatrixScript
