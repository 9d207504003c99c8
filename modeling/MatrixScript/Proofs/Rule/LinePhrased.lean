/-
# `Proofs.Rule.LinePhrased` — statements, definitions and literals put phrases together

The rest of the rules of categories.  Statements give lines that are phrases, and a
definition its first line and the lines of its body in braces.
-/
import MatrixScript.Proofs.Rule.Phrased
import MatrixScript.Proofs.Rule.Refusal

namespace MatrixScript

open Cpp

namespace Rule

open Site.Tells

variable {I : Idiom} {s : Site}

/-! ## Assignments -/

/-- A single line. -/
theorem prints_line {l : String} (phrase : Phrase I true l) (some : l ≠ "") : Prints I l :=
  ⟨[l], rfl, List.forall_mem_singleton.mpr ⟨phrase, some⟩⟩

/-- A statement on one line: something fixed stands at its end. -/
theorem prints_ends {a : String} {p q : Place} (h : Piece I false ⟨[], .apart⟩ a p) (b : String)
    (h' : p.read false b.toList = some q) (closed : q.closers = []) (some : b ≠ "") :
    Prints I (a ++ b) := by
  obtain ⟨closers, before⟩ := q
  obtain rfl : closers = [] := closed
  exact prints_line (Phrase.weaken (h.put b h').loosen true) (append_ne_empty some)

/-- A reserved destination is named in the failure. -/
theorem checked_tells {R : String → Prop} {ds : List Operand}
    (names : ∀ d ∈ ds, ∀ c ∈ d.node.name.toList, Token.isWordRest c)
    {answer : PUnit → Except Error Outcome}
    (tells : (∀ d ∈ ds, Builtin.isReserved d.node.name = false) → s.Tells I R (answer ⟨⟩)) :
    s.Tells I R (checkDestinations ds >>= answer) := by
  unfold checkDestinations reservedDestination?
  cases found : (ds.map (·.node.name)).find? Builtin.isReserved with
  | some name =>
    obtain ⟨d, mem, rfl⟩ := List.mem_map.mp (List.mem_of_find?_eq_some found)
    have named := (opening I "Variable name '" (q := ⟨[], .apart⟩) rfl).say
      (phrase_name (names d mem))
    exact ((named.weaken true).put "' is reserved, please rename the variable"
      (r := ⟨[], .word "elbairav".toList⟩) rfl).loosen
  | none =>
    refine tells fun d mem => Bool.eq_false_iff.mpr ?_
    exact List.find?_eq_none.mp found _ (List.mem_map_of_mem mem)

theorem binding_tells (d : Operand) (type : Datatype) : ∀ e ∈ binding d type, e.Tells I := by
  unfold binding
  split
  · exact List.forall_mem_singleton.mpr trivial
  · exact nothing

section

variable (h : s.Phrased I) (texts : ∀ o ∈ s.operands, Phrase I false o.text)
include h texts

omit texts in
theorem word_of_mem {o : Operand} (mem : o ∈ s.operands) (named : o.node.category.isNamed) :
    ∀ c ∈ o.node.name.toList, Token.isWordRest c := plain_of_mem h.self mem named

theorem assign_tells (category : s.node.category = .assign) :
    s.Tells I (Prints I) (assign s) := by
  obtain ⟨d, v, -, -, eq, -, -, -, destination⟩ := two h.self category
  have word := word_of_mem h (o := d) (by simp [eq]) (isNamed_of_isDestination destination)
  rw [assign, eq]
  refine checked_tells (List.forall_mem_singleton.mpr word) fun _ => ?_
  refine keep (binding_tells _ _) fun _ => ?_
  rw [Site.texts, eq]
  simp only [List.map_cons, Template.render_assign]
  have target : Phrase I false d.text := texts d (by simp [eq])
  exact prints_ends ((Piece.put target " = " (r := ⟨[], .apart⟩) rfl).say (texts v (by simp [eq])))
    " ;" (q := ⟨[], .apart⟩) rfl rfl (by decide)

theorem statement_tells (category : s.node.category = .statement) :
    s.Tells I (Prints I) (statement s) := by
  have some : s.operands ≠ [] := by
    intro none
    have admits := h.self.sound.admits
    rw [category, none] at admits
    cases admits
  obtain ⟨o, os, eq⟩ := List.exists_cons_of_ne_nil some
  refine keep nothing fun _ => ?_
  rw [Site.texts, eq]
  simp only [List.map_cons, Template.render_statement]
  have text : Phrase I false o.text := texts o (by simp [eq])
  exact prints_ends text " ;" (q := ⟨[], .apart⟩) rfl rfl (by decide)

omit h texts in
/-- A call with its arguments; the text of each is a phrase. -/
theorem piece_call {name : String} (word : ∀ c ∈ name.toList, Token.isWordRest c)
    {arguments : List String} (phrases : ∀ t ∈ arguments, Phrase I false t) :
    Piece I false ⟨[], .apart⟩ (name ++ "(" ++ Text.joined ", " arguments) ⟨[')'], .unknown⟩ := by
  have opened : Piece I false ⟨[], .apart⟩ (name ++ "(") ⟨[')'], .apart⟩ :=
    Piece.put (.name word) "(" rfl
  exact opened.append (piece_joined rfl fun t mem => (phrases t mem).within nofun)

omit texts in
/-- A call in a multi-value assignment has arguments, which are no lists. -/
theorem phrase_argument {call : Operand} (mem : call ∈ s.operands)
    (named : call.node.category.isNamed) (value : call.node.category ≠ .function) :
    ∀ a ∈ call.node.children, Phrase I false (s.tree.node a).text := by
  intro a child
  have node := h.self.sound.node call mem
  have admits := (h.self.wellFormed.shaped call.id (h.self.sound.operand call mem)).children
  rw [node] at child named value
  have there : s.tree.category a ∈ (s.tree.children call.id).map s.tree.category :=
    List.mem_map_of_mem child
  have single : (s.tree.category a).isListing = false := by
    have argument : ∀ {cs : List Category}, cs.all Category.isArgument → s.tree.category a ∈ cs →
        (s.tree.category a).isListing = false := by
      intro cs all mem
      have argument := List.all_eq_true.mp all _ mem
      cases category : s.tree.category a <;> rw [category] at argument <;>
        first | rfl | cases argument
    cases category : s.tree.category call.id with
    | get | set | cget =>
      rw [category] at admits
      exact argument admits there
    | var =>
      rw [category] at admits
      rw [List.isEmpty_iff.mp admits] at there
      cases there
    | function => exact absurd category value
    | _ =>
      rw [show (s.tree.node call.id).category = _ from category] at named
      cases named
  have phrase := h.reach call mem a (by rw [node]; exact child)
  rwa [single] at phrase

theorem assigns_tells (category : s.node.category = .assigns) :
    s.Tells I (Prints I) (assigns s) := by
  obtain ⟨ds, v, -, -, eq, -, -, -, names, -⟩ := several h.self category
  have outputs : ∀ t ∈ ds.map (·.text), Phrase I false t :=
    List.forall_mem_map.mpr fun d mem => texts d (by simp [eq, mem])
  have words : ∀ d ∈ ds, ∀ c ∈ d.node.name.toList, Token.isWordRest c := fun d mem =>
    h.self.spelt.of_names (names d mem)
  unfold assigns
  rw [eq, splitLast?_append]
  refine checked_tells words fun _ => ?_
  dsimp only
  split
  case isTrue foreign =>
    refine keep nothing fun _ => ?_
    have call := (Bool.and_eq_true _ _ |>.mp (Bool.and_eq_true _ _ |>.mp foreign).1).1
    have named : v.node.category.isNamed ∧ v.node.category ≠ .function := by
      rcases Bool.or_eq_true _ _ |>.mp call with get | var
      · rw [eq_of_beq get]
        exact ⟨rfl, nofun⟩
      · rw [eq_of_beq var]
        exact ⟨rfl, nofun⟩
    have there : v ∈ s.operands := by simp [eq]
    have arguments : ∀ t ∈ v.node.children.map (fun a => (s.tree.node a).text),
        Phrase I false t :=
      List.forall_mem_map.mpr (phrase_argument h there named.1 named.2)
    exact prints_ends (piece_call (word_of_mem h there named.1)
      (List.forall_mem_append.mpr ⟨arguments, outputs⟩)) ") ;" (q := ⟨[], .apart⟩) rfl rfl
      (by decide)
  case isFalse =>
    refine keep report fun _ => ?_
    have targets : Piece I false ⟨[']'], .apart⟩ (Text.joined ", " (ds.map (·.text)))
        ⟨[']'], .unknown⟩ := piece_joined rfl fun t mem => (outputs t mem).within nofun
    have opened := (opening I "[" (q := ⟨[']'], .apart⟩) rfl).append targets
    have value : Phrase I false v.text := texts v (by simp [eq])
    exact prints_ends ((opened.put "] = " (r := ⟨[], .apart⟩) rfl).say value) " ;"
      (q := ⟨[], .apart⟩) rfl rfl (by decide)

end

/-! ## Definitions -/

/-- The first line of a function of these parameters and outputs. -/
def signature (s : Site) (inputs : List String) : List String → String
  | [output] => declaredType s output ++ " " ++ s.name ++ "("
      ++ Text.joined ", " (inputs.map (parameter s)) ++ ")"
  | outputs => "void " ++ s.name ++ "("
      ++ Text.joined ", " (inputs.map (parameter s) ++ outputs.map (reference s)) ++ ")"

/-- Lines that a function has behind those of its body. -/
def closing (outputs body : List String) : List String :=
  match outputs with
  | [output] => (returning output body).drop body.length
  | _ => []

theorem returning_eq (output : String) (body : List String) :
    returning output body = body ++ closing [output] body := by
  unfold closing returning
  dsimp only
  split
  · rw [List.drop_length, List.append_nil]
  · rw [List.drop_left]

theorem phrase_parameter {x : String} (word : ∀ c ∈ x.toList, Token.isWordRest c) :
    Phrase I false (parameter s x) :=
  (Piece.put (q := ⟨[], .unknown⟩) (.name (word_typeName _)) " " (r := ⟨[], .apart⟩) rfl).say
    (phrase_name word)

theorem phrase_reference {x : String} (word : ∀ c ∈ x.toList, Token.isWordRest c) :
    Phrase I false (reference s x) :=
  (Piece.put (q := ⟨[], .unknown⟩) (.name (word_typeName _)) "& " (r := ⟨[], .apart⟩) rfl).say
    (phrase_name word)

theorem phrase_signature (name : ∀ c ∈ s.name.toList, Token.isWordRest c)
    {inputs outputs : List String} (words : ∀ x ∈ inputs, ∀ c ∈ x.toList, Token.isWordRest c)
    (words' : ∀ x ∈ outputs, ∀ c ∈ x.toList, Token.isWordRest c) :
    Phrase I false (signature s inputs outputs) ∧ signature s inputs outputs ≠ "" := by
  have parameters : ∀ t ∈ inputs.map (parameter s), Phrase I false t :=
    List.forall_mem_map.mpr fun x mem => phrase_parameter (words x mem)
  have references : ∀ t ∈ outputs.map (reference s), Phrase I false t :=
    List.forall_mem_map.mpr fun x mem => phrase_reference (words' x mem)
  have whole : ∀ {type : String} {ts : List String}, Piece I false ⟨[], .apart⟩ type ⟨[], .apart⟩ →
      (∀ t ∈ ts, Phrase I false t) →
      Phrase I false (type ++ s.name ++ "(" ++ Text.joined ", " ts ++ ")")
        ∧ type ++ s.name ++ "(" ++ Text.joined ", " ts ++ ")" ≠ "" := by
    intro type ts typed phrases
    have opened := (typed.say (phrase_name name)).put "(" (r := ⟨[')'], .apart⟩) rfl
    have arguments : Piece I false ⟨[')'], .apart⟩ (Text.joined ", " ts) ⟨[')'], .unknown⟩ :=
      piece_joined rfl fun t mem => (phrases t mem).within nofun
    exact ⟨((opened.append arguments).put ")" (r := ⟨[], .apart⟩) rfl).loosen,
      append_ne_empty (by decide)⟩
  have void := whole (opening I "void " (q := ⟨[], .apart⟩) rfl)
    (List.forall_mem_append.mpr ⟨parameters, references⟩)
  match outputs with
  | [output] =>
    exact whole (Piece.put (q := ⟨[], .unknown⟩) (.name (word_typeName _)) " "
      (r := ⟨[], .apart⟩) rfl) parameters
  | [] => exact void
  | _ :: _ :: _ => exact void

theorem phrase_return {output : String} (word : ∀ c ∈ output.toList, Token.isWordRest c) :
    Phrase I false ("return " ++ output ++ " ;") :=
  (((opening I "return " (q := ⟨[], .apart⟩) rfl).say (phrase_name word)).put " ;"
    (r := ⟨[], .apart⟩) rfl).loosen

theorem phrase_closing {outputs body : List String}
    (words : ∀ x ∈ outputs, ∀ c ∈ x.toList, Token.isWordRest c) :
    ∀ l ∈ closing outputs body, Phrase I false l ∧ l ≠ "" := by
  unfold closing
  split
  case h_1 output =>
    unfold returning
    split
    · rw [List.drop_length]
      exact nofun
    · rw [List.drop_left]
      exact List.forall_mem_singleton.mpr
        ⟨phrase_return (words output (by simp)), append_ne_empty (by decide)⟩
  case h_2 => exact nofun

/-- The text of a function: its first line, and the lines of its body in braces, at most one
of them added. -/
theorem function_eq {p r b : Operand} (eq : s.operands = [p, r, b]) : ∃ o, function s = .ok o
    ∧ o.effects = [] ∧ s.written o = Text.joined "\n" (signature s (namesOf s p) (namesOf s r)
      :: "\x7b" :: (Text.lines b.text ++ closing (namesOf s r) (Text.lines b.text)) ++ ["\x7d"]) := by
  unfold function
  rw [eq]
  dsimp only
  split
  case h_1 output names =>
    rw [returning_eq, names]
    exact ⟨_, rfl, rfl, rfl⟩
  case h_2 several =>
    have none : closing (namesOf s r) (Text.lines b.text) = [] := by
      unfold closing
      split
      · exact absurd ‹_› (several _)
      · rfl
    have void : signature s (namesOf s p) (namesOf s r) = "void " ++ s.name ++ "("
        ++ Text.joined ", " ((namesOf s p).map (parameter s) ++ (namesOf s r).map (reference s))
        ++ ")" := by
      unfold signature
      split
      · exact absurd ‹_› (several _)
      · rfl
    rw [none, void, List.append_nil]
    exact ⟨_, rfl, rfl, rfl⟩

section

variable (h : s.Phrased I)

theorem names_tells (texts : ∀ o ∈ s.operands, Phrase I false o.text) :
    s.Tells I (Phrase I true) (names s) := by
  refine keep nothing fun _ => ?_
  have inner : Phrase I true (Text.joined ", " s.texts) :=
    piece_joined rfl fun t mem => (Site.phrases_texts texts t mem).weaken true
  have front : Piece I true ⟨[], .apart⟩ "" ⟨[], .apart⟩ := .fixed rfl
  exact (front.append inner).put "" rfl

include h

theorem ret_tells : s.Tells I (Prints I) (ret s) := by
  unfold ret
  split
  case h_1 output found =>
    have word := plain_of_outputsAround? h.self found output (List.mem_singleton_self output)
    exact keep nothing fun _ =>
      prints_line ((phrase_return word).weaken true) (append_ne_empty (by decide))
  case h_2 =>
    exact keep nothing fun _ => prints_line (l := "return ;") (phrase_fixed I _ rfl) (by decide)

omit h in
theorem brk_tells : s.Tells I (Prints I) (brk s) :=
  keep nothing fun _ => prints_line (l := "break ;") (phrase_fixed I _ rfl) (by decide)

/-! ## Literals -/

theorem value_tells {d : Datatype} (literal : s.node.category = .int ∨ s.node.category = .float) :
    s.Tells I (Phrase I false) (s.typed d (.format "%(value)s")) := by
  obtain ⟨v, eq, spells⟩ := exists_value h.self (by rcases literal with eq | eq <;> rw [eq] <;> rfl)
  refine typed nothing fun _ => ?_
  rw [Template.render_value { s.node with typing := .of d } s.texts eq]
  refine phrase_numerals (List.all_eq_true.mp ?_)
  rcases literal with category | category <;> rw [category] at spells
  · exact Token.all_isNumeral (eq_of_beq spells) nofun
  · exact Token.all_isNumeral (eq_of_beq spells) nofun

theorem imag_tells (category : s.node.category = .imag) :
    s.Tells I (Phrase I false) (imag s) := by
  obtain ⟨v, eq, spells⟩ := exists_value h.self (by rw [category]; rfl)
  rw [category] at spells
  unfold imag
  rw [eq]
  refine typed nothing fun _ => ?_
  have numerals := isNumeral_of_magnitude (eq_of_beq spells)
  exact (((opening I "cx_double(0, " (q := ⟨[')'], .apart⟩) rfl).say
    (phrase_numerals numerals)).put ")" (r := ⟨[], .apart⟩) rfl).loosen

theorem string_tells (category : s.node.category = .str) :
    s.Tells I (Phrase I false) (string s) := by
  obtain ⟨v, eq, -⟩ := exists_value h.self (by rw [category]; rfl)
  unfold string
  rw [eq]
  exact typed nothing fun _ => phrase_literal (h.self.spelt.quotable s.id v category eq)

theorem var_tells (category : s.node.category = .var) : s.Tells I (Phrase I false) (var s) := by
  have word := h.name (by rw [category]; rfl)
  unfold var
  split
  · refine typed nothing fun _ => ?_
    rw [Template.render_name]
    exact phrase_name word
  · refine keep nothing fun _ => ?_
    rw [Template.render_name]
    exact phrase_name word

/-! ### Matrices -/

/-- The text of a row is a list only if all its elements are scalars, and there are several. -/
theorem row_tells (texts : ∀ o ∈ s.operands, Phrase I false o.text) :
    s.Tells I (fun a => Phrase I true a ∧ (Phrase I false a
      ∨ ((∀ o ∈ s.operands, o.shape = .scalar ∧ o.node.category ≠ .range) ∧ 1 < s.operands.length)))
      (row s) := by
  have single : ∀ {a : String}, Phrase I false a → Phrase I true a ∧ (Phrase I false a
      ∨ ((∀ o ∈ s.operands, o.shape = .scalar ∧ o.node.category ≠ .range)
        ∧ 1 < s.operands.length)) := fun phrase => ⟨phrase.weaken true, .inl phrase⟩
  unfold row
  split
  case h_1 => exact keep nothing fun _ => single phrase_empty
  case h_2 element eq =>
    refine withTyping nothing fun _ => single ?_
    exact Template.piece_format (Site.says_one texts eq) (n := 1) rfl
  case h_3 first rest several eq =>
    dsimp only
    split
    case isTrue scalars =>
      refine typed nothing fun _ => ⟨?_, .inr ⟨fun o mem => ?_, ?_⟩⟩
      · have inner : Phrase I true (Text.joined ", " s.texts) :=
          piece_joined rfl fun t mem => (Site.phrases_texts texts t mem).weaken true
        have front : Piece I true ⟨[], .apart⟩ "" ⟨[], .apart⟩ := .fixed rfl
        exact (front.append inner).put "" rfl
      · have scalar := eq_of_beq (List.all_eq_true.mp scalars o mem)
        exact ⟨scalar, fun range => h.ranges o mem range scalar⟩
      · rw [eq]
        cases rest with
        | nil => exact absurd rfl several
        | cons => simp
    case isFalse =>
      rw [eq] at texts
      obtain ⟨here, there⟩ := List.forall_mem_cons.mp texts
      have joined : Phrase I false (joins "arma::join_rows" first.text (rest.map (·.text))) :=
        phrase_nested (f := "arma::join_rows") (by decide) here (List.forall_mem_map.mpr there)
      split
      · exact typed nothing fun _ => single joined
      · exact keep nothing fun _ => single joined

omit h in
/-- Items of a list in braces. -/
theorem phrase_braced {list : Bool} {a : String} (ha : Phrase I list a) :
    Phrase I false (braced a) :=
  (((opening I "\x7b" (q := ⟨['\x7d'], .apart⟩) rfl).enumerate ha).put "\x7d"
    (r := ⟨[], .apart⟩) rfl).loosen

omit h in
theorem phrase_initialiser (d : Datatype) {list : Bool} {a : String} (ha : Phrase I list a) :
    Phrase I false (initialiser d a) := by
  have type := ((opening I "arma::" (q := ⟨[], .apart⟩) rfl).say
    (phrase_name (word_typeName d))).put "(" (r := ⟨[')'], .apart⟩) rfl
  exact ((type.say (phrase_braced ha)).put ")" (r := ⟨[], .apart⟩) rfl).loosen

section

variable (rows : ∀ o ∈ s.operands, Phrase I true o.text)
include rows

omit h in
theorem phrase_bracedRows : Phrase I true (Text.joined ", " (s.texts.map braced)) := by
  refine piece_joined rfl fun t mem => ?_
  obtain ⟨a, there, rfl⟩ := List.mem_map.mp mem
  exact (phrase_braced (Site.phrases_texts rows a there)).weaken true

theorem plainMatrix_tells (d : Datatype) : s.Tells I (Phrase I false) (plainMatrix d s) := by
  unfold plainMatrix
  split
  case h_1 => exact malformed
  case h_2 only eq =>
    split
    case isTrue single =>
      refine typed nothing fun _ => ?_
      have element : Phrase I false only.text :=
        (h.rows only (by simp [eq])).resolve_right fun several => by omega
      refine Template.piece_format (Site.says_one (fun o mem => ?_) eq) (n := 1) rfl
      rw [eq] at mem
      rwa [List.mem_singleton.mp mem]
    case isFalse =>
      exact typed nothing fun _ => phrase_initialiser _ (rows only (by simp [eq]))
  case h_3 =>
    split
    · have joined : Phrase I true (Text.joined ", " s.texts) :=
        piece_joined rfl (Site.phrases_texts rows)
      exact typed nothing fun _ => phrase_initialiser _ joined
    · refine typed ?_ fun _ => phrase_initialiser _ (phrase_bracedRows rows)
      split
      · exact report
      · exact nothing

theorem phrase_stackedRow {o : Operand} (mem : o ∈ s.operands) :
    Phrase I false (stackedRow s o) := by
  unfold stackedRow
  split
  case isTrue => exact phrase_initialiser _ (rows o mem)
  case isFalse other =>
    refine (h.rows o mem).resolve_right fun ⟨plain, several⟩ => other ?_
    rw [plain, Bool.true_and]
    exact decide_eq_true several

theorem stackedMatrix_tells (d : Datatype) : s.Tells I (Phrase I false) (stackedMatrix d s) := by
  unfold stackedMatrix
  split
  case h_1 => exact malformed
  case h_2 first rest eq =>
    refine withTyping nothing fun _ => ?_
    have others : ∀ t ∈ rest.map (stackedRow s), Phrase I false t :=
      List.forall_mem_map.mpr fun o mem => phrase_stackedRow h rows (by simp [eq, mem])
    exact phrase_nested (f := "arma::join_cols") (by decide)
      (phrase_stackedRow h rows (by simp [eq])) others

omit h in
theorem phrase_untypedInitialiser : Phrase I false (untypedInitialiser s.texts) := by
  unfold untypedInitialiser
  split
  case h_1 single eq =>
    exact phrase_braced (Site.phrases_texts rows single (by rw [eq]; exact List.mem_singleton_self _))
  case h_2 => exact phrase_braced (phrase_bracedRows rows)

theorem matrix_tells : s.Tells I (Phrase I false) (matrix s) := by
  unfold matrix
  dsimp only
  split
  · exact keep nothing fun _ => phrase_braced (phrase_empty : Phrase I false "")
  · split
    · refine typed nothing fun _ => ?_
      have sum : Piece I false ⟨[')'], .apart⟩ (Text.joined " + " s.texts) ⟨[')'], .unknown⟩ :=
        piece_joined rfl fun t mem => (Site.phrases_texts rows t mem).within fun _ => .inr nofun
      exact (((opening I "std::string(" (q := ⟨[')'], .apart⟩) rfl).append sum).put ")"
        (r := ⟨[], .apart⟩) rfl).loosen
    · split
      · split
        · exact plainMatrix_tells h rows _
        · exact keep nothing fun _ => phrase_untypedInitialiser rows
      · exact stackedMatrix_tells h rows _

end

end

end Rule

end MatrixScript
