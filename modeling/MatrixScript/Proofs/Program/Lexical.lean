/-
# `Proofs.Program.Lexical` — printed programs are lexical

The words of a canonical program stand so that the lexer reads them back
(`lexical_program`).  Nearly every word can stand behind any other, since a
blank or a bracket is in between; only the first word of an expression without
a blank needs a loose token in front of it, and a conjugate transpose the end
of a value, which every canonical expression has (`Neat`).
-/
import MatrixScript.Proofs.Token.Words
import MatrixScript.Proofs.Program.Level

namespace MatrixScript

open Token

/-! ## Lists of words -/

/-- The token in front of what follows the words. -/
def lastToken : Option Token → List Spanned → Option Token
  | previous, [] => previous
  | _, w :: ws => lastToken (some w.token) ws

theorem lastToken_append (previous : Option Token) (vs ws : List Spanned) :
    lastToken previous (vs ++ ws) = lastToken (lastToken previous vs) ws := by
  induction vs generalizing previous with
  | nil => rfl
  | cons v vs ih => exact ih (some v.token)

theorem lexical_append {previous : Option Token} {vs ws : List Spanned} :
    Lexical previous (vs ++ ws)
      ↔ Lexical previous vs ∧ Lexical (lastToken previous vs) ws := by
  induction vs generalizing previous with
  | nil => simp [Lexical, lastToken]
  | cons v vs ih => simp [Lexical, lastToken, ih, and_assoc]

/-- The words can stand behind any token. -/
def LexicalAnywhere (ws : List Spanned) : Prop := ∀ previous, Lexical previous ws

theorem lexicalAnywhere_nil : LexicalAnywhere [] := fun _ => trivial

theorem Lexical.append {previous : Option Token} {vs ws : List Spanned}
    (hv : Lexical previous vs) (hw : LexicalAnywhere ws) : Lexical previous (vs ++ ws) :=
  lexical_append.mpr ⟨hv, hw _⟩

theorem LexicalAnywhere.append {vs ws : List Spanned} (hv : LexicalAnywhere vs)
    (hw : LexicalAnywhere ws) : LexicalAnywhere (vs ++ ws) :=
  fun previous => (hv previous).append hw

theorem lexicalAnywhere_apart (t : Token) (spelled : t.Spelled) (other : t ≠ .apostrophe)
    {ws : List Spanned} (h : Lexical (some t) ws) : LexicalAnywhere (apart t :: ws) := by
  intro previous
  exact ⟨spelled, other, h⟩

theorem lexicalAnywhere_cut (t : Token) (spelled : t.Spelled) (cut : t.cuts)
    (other : t ≠ .apostrophe) {ws : List Spanned} (h : Lexical (some t) ws) :
    LexicalAnywhere (tight t :: ws) := by
  intro previous
  exact ⟨spelled, ⟨fun found => absurd found other, .inl cut⟩, h⟩

/-- The words end with the end of a value. -/
def EndsWithValue (ws : List Spanned) : Prop := ∀ previous, (lastToken previous ws).any endsValue

theorem endsWithValue_single {w : Spanned} (h : w.token.endsValue) : EndsWithValue [w] :=
  fun _ => h

theorem EndsWithValue.cons {ws : List Spanned} (h : EndsWithValue ws) (w : Spanned) :
    EndsWithValue (w :: ws) :=
  fun _ => h (some w.token)

theorem EndsWithValue.after {ws : List Spanned} (h : EndsWithValue ws) (vs : List Spanned) :
    EndsWithValue (vs ++ ws) := by
  intro previous
  rw [lastToken_append]
  exact h _

/-- A word with or without a blank can stand behind the token `previous`. -/
def Ready (previous : Option Token) (b : Bool) : Prop := b = true ∨ previous.all loose

theorem follows_word {t : Token} (h : t.starts ∨ t = .colon) {previous : Option Token} {b : Bool}
    (ready : Ready previous b) : (word b t).Follows previous := by
  have noApostrophe : t ≠ .apostrophe := by
    rintro rfl
    rcases h with h | h <;> cases h
  have noEquals : t ≠ .equals := by
    rintro rfl
    rcases h with h | h <;> cases h
  have noEqEq : t ≠ .eqEq := by
    rintro rfl
    rcases h with h | h <;> cases h
  unfold Spanned.Follows
  cases b with
  | true => exact noApostrophe
  | false =>
    have looseBefore : previous.all loose := by simpa [Ready] using ready
    exact ⟨fun found => absurd found noApostrophe, .inr ⟨looseBefore, noEquals, noEqEq⟩⟩

/-- A closing bracket can stand behind anything, and ends a value. -/
theorem lexicalAnywhere_closing (t : Token) (spelled : t.Spelled) (cut : t.cuts)
    (other : t ≠ .apostrophe) : LexicalAnywhere [tight t] :=
  lexicalAnywhere_cut t spelled cut other trivial

/-- The words can start a line. -/
def LexicalLine (ws : List Spanned) : Prop := ∀ previous, previous.all loose → Lexical previous ws

/-- Lines in a row, with words behind them that can start a line. -/
theorem lexicalLine_lines {α : Type} {words : α → List Spanned} {rest : List Spanned}
    (later : LexicalLine rest) :
    (xs : List α) → (∀ x ∈ xs, LexicalLine (words x)) →
      LexicalLine ((xs.flatMap fun x => words x ++ [tight .newline]) ++ rest)
  | [], _ => later
  | x :: xs, lines => by
      intro previous start
      have tail := lexicalLine_lines later xs fun x' mem => lines x' (List.mem_cons_of_mem x mem)
      rw [List.flatMap_cons, List.append_assoc, List.append_assoc, List.singleton_append]
      exact (lines x List.mem_cons_self previous start).append
        (lexicalAnywhere_cut .newline trivial rfl (by simp) (tail _ rfl))

variable [Layout]

/-! ## Expressions -/

/-- The words of the expression are lexical and end with the end of a value. -/
structure Neat (e : Expr) : Prop where
  lexical : ∀ previous b, Ready previous b → Lexical previous (e.words b)
  value : ∀ b, EndsWithValue (e.words b)

theorem Neat.anywhere {e : Expr} (h : Neat e) : LexicalAnywhere (e.words true) :=
  fun previous => h.lexical previous true (.inl rfl)

/-- A whole expression that is a single word. -/
theorem neat_single {e : Expr} (t : Token) (words : ∀ b, e.words b = [word b t])
    (starts : t.starts) (spelled : t.Spelled) (value : t.endsValue) : Neat e where
  lexical previous b ready := by
    rw [words]
    exact ⟨spelled, follows_word (.inl starts) ready, trivial⟩
  value b := by
    rw [words]
    exact endsWithValue_single value

theorem neat_name {x : String} (h : isName x) : Neat (.name x) :=
  neat_single (.ident x) (fun _ => by rw [Expr.words]) rfl h rfl

/-- An argument, which may be a colon. -/
def NeatArgument (e : Expr) : Prop := e ≠ .all → Neat e

theorem NeatArgument.lexical {e : Expr} (h : NeatArgument e) {previous : Option Token} {b : Bool}
    (ready : Ready previous b) : Lexical previous (e.words b) := by
  by_cases whole : e = .all
  case pos =>
    subst whole
    exact ⟨trivial, follows_word (.inr rfl) ready, trivial⟩
  case neg => exact (h whole).lexical previous b ready

theorem lexicalAnywhere_laterElementWords :
    (es : List Expr) → (∀ e ∈ es, NeatArgument e) → LexicalAnywhere (laterElementWords es)
  | [], _ => lexicalAnywhere_nil
  | e :: es, neat => by
      have first : Lexical (some .comma) (e.words Layout.gap) :=
        (neat e List.mem_cons_self).lexical (.inr rfl)
      have later := lexicalAnywhere_laterElementWords es
        fun e' mem => neat e' (List.mem_cons_of_mem e mem)
      rw [laterElementWords]
      exact lexicalAnywhere_cut .comma trivial rfl (by simp) (first.append later)

theorem lexical_elementWords {es : List Expr} (neat : ∀ e ∈ es, NeatArgument e)
    {previous : Option Token} {b : Bool} (ready : Ready previous b) :
    Lexical previous (elementWords b es) := by
  cases es with
  | nil => exact trivial
  | cons e es =>
    rw [elementWords]
    exact ((neat e List.mem_cons_self).lexical ready).append
      (lexicalAnywhere_laterElementWords es fun e' mem => neat e' (List.mem_cons_of_mem e mem))

theorem lexicalAnywhere_laterRowWords :
    (rows : List (List Expr)) → (∀ row ∈ rows, ∀ e ∈ row, NeatArgument e) →
      LexicalAnywhere (laterRowWords rows)
  | [], _ => lexicalAnywhere_nil
  | row :: rows, neat => by
      have first : Lexical (some .semicolon) (elementWords Layout.gap row) :=
        lexical_elementWords (neat row List.mem_cons_self) (.inr rfl)
      have later := lexicalAnywhere_laterRowWords rows
        fun row' mem => neat row' (List.mem_cons_of_mem row mem)
      rw [laterRowWords]
      exact lexicalAnywhere_cut .semicolon trivial rfl (by simp) (first.append later)

theorem lexical_rowWords {rows : List (List Expr)}
    (neat : ∀ row ∈ rows, ∀ e ∈ row, NeatArgument e) {previous : Option Token}
    (looseBefore : previous.all loose) : Lexical previous (rowWords rows) := by
  cases rows with
  | nil => exact trivial
  | cons row rows =>
    rw [rowWords]
    exact (lexical_elementWords (neat row List.mem_cons_self) (.inr looseBefore)).append
      (lexicalAnywhere_laterRowWords rows fun row' mem => neat row' (List.mem_cons_of_mem row mem))

/-- Something in brackets. -/
theorem neat_brackets {e : Expr} (opening closing : Token) {inner : List Spanned}
    (words : ∀ b, e.words b = word b opening :: (inner ++ [tight closing]))
    (starts : opening.starts) (opened : opening.Spelled) (h : Lexical (some opening) inner)
    (closes : LexicalAnywhere [tight closing]) (value : closing.endsValue) : Neat e where
  lexical previous b ready := by
    rw [words]
    exact ⟨opened, follows_word (.inl starts) ready, h.append closes⟩
  value b := by
    rw [words]
    exact ((endsWithValue_single value).after inner).cons _

/-- A name with something in brackets behind it. -/
theorem neat_subscript {e : Expr} {f : String} {opening closing : Token} {inner : List Spanned}
    (words : ∀ b, e.words b
      = word b (.ident f) :: tight opening :: (inner ++ [tight closing]))
    (name : isName f) (opened : LexicalAnywhere (tight opening :: inner))
    (closes : LexicalAnywhere [tight closing]) (value : closing.endsValue) : Neat e where
  lexical previous b ready := by
    rw [words]
    exact ⟨name, follows_word (.inl rfl) ready, (opened.append closes) _⟩
  value b := by
    rw [words]
    exact (((endsWithValue_single value).after inner).cons _).cons _

theorem lexicalAnywhere_operandWords (op : ChainOp) :
    (es : List Expr) → (∀ e ∈ es, Neat e) → LexicalAnywhere (operandWords op es)
  | [], _ => lexicalAnywhere_nil
  | e :: es, neat => by
      have first : Lexical (some op.token) (e.words true) :=
        (neat e List.mem_cons_self).anywhere _
      have later := lexicalAnywhere_operandWords op es
        fun e' mem => neat e' (List.mem_cons_of_mem e mem)
      rw [operandWords]
      exact lexicalAnywhere_apart _ (by cases op <;> trivial) (by cases op <;> simp [ChainOp.token])
        (first.append later)

/-- The last operand ends with the end of a value. -/
theorem endsWithValue_operands (op : ChainOp) :
    (es : List Expr) → (∀ e ∈ es, Neat e) → {ws : List Spanned} → EndsWithValue ws →
      EndsWithValue (ws ++ operandWords op es)
  | [], _, ws, value => by
      rw [operandWords, List.append_nil]
      exact value
  | e :: es, neat, ws, _ => by
      have last := endsWithValue_operands op es
        (fun e' mem => neat e' (List.mem_cons_of_mem e mem))
        ((neat e List.mem_cons_self).value true)
      rw [operandWords]
      exact (last.cons _).after ws

/-- An operator between two operands. -/
theorem neat_infix {e left : Expr} (t : Token) {ws : List Spanned}
    (words : ∀ b, e.words b = left.words b ++ apart t :: ws) (neat : Neat left)
    (spelled : t.Spelled) (other : t ≠ .apostrophe) (h : LexicalAnywhere ws)
    (value : EndsWithValue ws) : Neat e where
  lexical previous b ready := by
    rw [words]
    exact (neat.lexical previous b ready).append (lexicalAnywhere_apart t spelled other (h _))
  value b := by
    rw [words]
    exact (value.cons _).after _

theorem neat_transpose {e : Expr} (neat : Neat e) : (op : TransposeOp) → Neat (.transpose op e)
  | .plain =>
      { lexical := fun previous b ready =>
          (neat.lexical previous b ready).append (lexicalAnywhere_apart .dotApostrophe trivial (by simp) trivial)
        value := fun _ => (endsWithValue_single rfl).after _ }
  | .conjugate =>
      { lexical := fun previous b ready =>
          -- the quote stands right behind the end of a value
          lexical_append.mpr ⟨neat.lexical previous b ready,
            trivial, ⟨fun _ => neat.value b previous, .inl rfl⟩, trivial⟩
        value := fun _ => (endsWithValue_single rfl).after _ }

theorem neat_sign {e : Expr} (neat : Neat e) (op : SignOp) : Neat (.sign op e) where
  lexical previous b ready := by
    have sign : op.token.starts ∧ op.token.Spelled ∧ op.token.loose := by
      cases op <;> exact ⟨rfl, trivial, rfl⟩
    rw [Expr.words]
    exact ⟨sign.2.1, follows_word (.inl sign.1) ready, neat.lexical _ false (.inr sign.2.2)⟩
  value b := (neat.value false).cons _

theorem neat_of_canonical {e : Expr} (h : e.Canonical) : Neat e := by
  induction h with
  | name spelled => exact neat_name spelled
  | @call f es spelled _ ih =>
    exact neat_subscript (fun _ => by rw [Expr.words]) spelled
      (lexicalAnywhere_cut .leftParen trivial rfl (by simp) (lexical_elementWords ih (.inr rfl)))
      (lexicalAnywhere_closing .rightParen trivial rfl (by simp)) rfl
  | @cellCall f es spelled _ ih =>
    exact neat_subscript (fun _ => by rw [Expr.words]) spelled
      (lexicalAnywhere_cut .leftBrace trivial rfl (by simp) (lexical_elementWords ih (.inr rfl)))
      (lexicalAnywhere_closing .rightBrace trivial rfl (by simp)) rfl
  | @literal kind text spelled =>
    have single : ∀ b, (Expr.literal kind text).words b = [word b (kind.token text)] :=
      fun _ => by rw [Expr.words]
    cases kind <;> exact neat_single _ single rfl spelled rfl
  | last => exact neat_single .last (fun _ => by rw [Expr.words]) rfl trivial rfl
  | @paren e _ ih =>
    exact neat_brackets .leftParen .rightParen (fun _ => by rw [Expr.words]) rfl trivial
      (ih.lexical _ false (.inr rfl)) (lexicalAnywhere_closing .rightParen trivial rfl (by simp)) rfl
  | @matrix rows _ _ ih =>
    exact neat_brackets .leftBracket .rightBracket (fun _ => by rw [Expr.words]) rfl trivial
      (lexical_rowWords (fun row memRow e mem _ => ih row memRow e mem) rfl)
      (lexicalAnywhere_closing .rightBracket trivial rfl (by simp)) rfl
  | @cell es _ ih =>
    exact neat_brackets .leftBrace .rightBrace (fun _ => by rw [Expr.words]) rfl trivial
      (lexical_elementWords (fun e mem _ => ih e mem) (.inr rfl))
      (lexicalAnywhere_closing .rightBrace trivial rfl (by simp)) rfl
  | @sign op _ _ _ ih => exact neat_sign ih op
  | @transpose op _ _ _ ih => exact neat_transpose ih op
  | @chain op first second more _ _ _ _ _ ih ihs =>
    have more' : ∀ e ∈ more, Neat e := fun e mem => ihs e (List.mem_cons_of_mem second mem)
    have second' : Neat second := ihs second List.mem_cons_self
    exact neat_infix op.token (fun _ => by rw [Expr.words]) ih (by cases op <;> trivial)
      (by cases op <;> simp [ChainOp.token])
      (second'.anywhere.append (lexicalAnywhere_operandWords op more more'))
      (endsWithValue_operands op more more' (second'.value true))
  | @compare op left right _ _ _ _ ih ih' =>
    exact neat_infix op.token (fun _ => by rw [Expr.words]) ih (by cases op <;> trivial)
      (by cases op <;> simp [Comparison.token]) ih'.anywhere (ih'.value true)
  | range _ _ _ _ ih ih' =>
    exact neat_infix .colon (fun _ => by rw [Expr.words]) ih trivial (by simp) ih'.anywhere
      (ih'.value true)
  | stepped _ _ _ _ _ _ ih ih' ih'' =>
    exact neat_infix .colon (fun _ => by rw [Expr.words]) ih trivial (by simp)
      (ih'.anywhere.append (lexicalAnywhere_apart .colon trivial (by simp) (ih''.anywhere _)))
      (((ih''.value true).cons _).after _)

/-! ## Statements and programs -/

theorem neat_target {t : Target} (h : t.Canonical) : Neat t.expr := by
  cases t with
  | «variable» x => exact neat_name h
  | element x es => exact neat_of_canonical (.call h.1 h.2)

theorem lexicalLine_statement {s : Statement} (canonical : s.Canonical) :
    LexicalLine s.words := by
  intro previous start
  cases s with
  | expression e => exact (neat_of_canonical canonical).lexical _ _ (.inr start)
  | assign t value =>
    have value' : Neat value := neat_of_canonical canonical.2
    exact ((neat_target canonical.1).lexical _ _ (.inr start)).append
      (lexicalAnywhere_apart .equals trivial (by simp) (value'.anywhere _))
  | assigns ts value =>
    have value' : Neat value := neat_of_canonical canonical.2
    have targets : ∀ e ∈ ts.map Target.expr, NeatArgument e := by
      intro e mem _
      obtain ⟨t, memT, rfl⟩ := List.mem_map.mp mem
      exact neat_target (canonical.1 t memT)
    refine lexicalAnywhere_cut .leftBracket trivial rfl (by simp) ?_ previous
    exact (lexical_elementWords targets (.inr rfl)).append
      (lexicalAnywhere_cut .rightBracket trivial rfl (by simp)
        (lexicalAnywhere_apart .equals trivial (by simp) (value'.anywhere _) _))
  | ret => exact ⟨trivial, ⟨by simp [tight], .inr ⟨start, by simp [tight], by simp [tight]⟩⟩, trivial⟩
  | brk => exact ⟨trivial, ⟨by simp [tight], .inr ⟨start, by simp [tight], by simp [tight]⟩⟩, trivial⟩
  | command name words => exact absurd canonical (by simp [Statement.Canonical])

theorem lexical_nameWords {xs : List String} (names : ∀ x ∈ xs, isName x)
    {previous : Option Token} (start : previous.all loose) : Lexical previous (nameWords xs) := by
  refine lexical_elementWords (fun e mem _ => ?_) (.inr start)
  obtain ⟨x, memX, rfl⟩ := List.mem_map.mp mem
  exact neat_name (names x memX)

theorem lexicalLine_function {f : Function} (canonical : f.Spelled Statement.Canonical) :
    LexicalLine f.words := by
  intro previous start
  have last : LexicalLine [tight .last] := fun _ start =>
    ⟨trivial, ⟨by simp [tight], .inr ⟨start, by simp [tight], by simp [tight]⟩⟩, trivial⟩
  have body : LexicalLine (f.body.flatMap Statement.line ++ [tight .last]) :=
    lexicalLine_lines last f.body fun s mem => lexicalLine_statement (canonical.body s mem)
  have params : Lexical (some .leftParen) (nameWords f.params ++ tight .rightParen ::
      tight .newline :: (f.body.flatMap Statement.line ++ [tight .last])) :=
    (lexical_nameWords canonical.params rfl).append
      (lexicalAnywhere_cut .rightParen trivial rfl (by simp)
        (lexicalAnywhere_cut .newline trivial rfl (by simp) (body _ rfl) _))
  have outputs : Lexical (some .leftBracket) (nameWords f.outputs ++ tight .rightBracket ::
      apart .equals :: apart (.ident f.name) :: tight .leftParen ::
        (nameWords f.params ++ tight .rightParen ::
          tight .newline :: (f.body.flatMap Statement.line ++ [tight .last]))) :=
    (lexical_nameWords canonical.outputs rfl).append
      (lexicalAnywhere_cut .rightBracket trivial rfl (by simp)
        (lexicalAnywhere_apart .equals trivial (by simp)
          (lexicalAnywhere_apart (.ident f.name) canonical.name (by simp)
            (lexicalAnywhere_cut .leftParen trivial rfl (by simp) params _) _) _))
  exact ⟨trivial, ⟨by simp [tight], .inr ⟨start, by simp [tight], by simp [tight]⟩⟩,
    lexicalAnywhere_apart .leftBracket trivial (by simp) outputs _⟩

/-- The words of a canonical program are read back by the lexer. -/
theorem lexical_program {p : Program} (canonical : p.Canonical) : Lexical none p.words := by
  have lines : ∀ i ∈ p, LexicalLine i.words := by
    intro i mem
    have canonical : i.Spelled Statement.Canonical := canonical i mem
    cases i with
    | statement s => exact lexicalLine_statement canonical
    | function f => exact lexicalLine_function canonical
  have nothing : LexicalLine [] := fun _ _ => trivial
  have all := lexicalLine_lines nothing p lines none rfl
  rw [List.append_nil] at all
  exact all

end MatrixScript
