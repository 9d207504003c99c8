/-
# `Proofs.Translation.Mentions` — texts that mention temporaries

What it means that a text mentions no temporaries but some, as a likeness of the text
to itself: every word outside of its string literals that is the name of a temporary is
among `names` (`mentions`).  In lines other than definitions no such name stands right
behind another word, as it does in `type name = text ;`; so a line that only mentions
temporaries defines none (`ne_definition_of_line`).
-/
import MatrixScript.Proofs.Text.Words
import MatrixScript.Proofs.Translation.Temporary

namespace MatrixScript

open Text

/-- The text is an identifier, be it a keyword or not. -/
def isIdentifier (x : String) : Bool :=
  match x.toList with
  | [] => false
  | c :: rest => Token.isWordStart c && rest.all Token.isWordRest

theorem isWordRest_of_isIdentifier {x : String} (h : isIdentifier x) :
    ∀ c ∈ x.toList, Token.isWordRest c := by
  unfold isIdentifier at h
  split at h
  case h_1 => cases h
  case h_2 first rest letters =>
    obtain ⟨start, others⟩ := Bool.and_eq_true _ _ |>.mp h
    rw [letters]
    refine List.forall_mem_cons.mpr ⟨?_, List.all_eq_true.mp others⟩
    rcases Bool.or_eq_true _ _ |>.mp start with alpha | low
    · simp [Token.isWordRest, Char.isAlphanum, alpha]
    · simp [Token.isWordRest, low]

/-- Neither the name nor what stands for it when it is hidden starts like a temporary. -/
structure Apart (stem x : String) : Prop where
  plain : ¬(stem ++ "_").toList <+: x.toList
  hidden : ¬(stem ++ "_").toList <+: '_' :: x.toList

instance (stem x : String) : Decidable (Apart stem x) :=
  decidable_of_iff
    (¬(stem ++ "_").toList <+: x.toList ∧ ¬(stem ++ "_").toList <+: '_' :: x.toList)
    ⟨fun h => ⟨h.1, h.2⟩, fun h => ⟨h.plain, h.hidden⟩⟩

namespace State

variable {stem : String}

theorem prefix_numbered (stem : String) (d : Datatype) (n : Nat) :
    (stem ++ "_").toList <+: (numbered stem d n).toList := by
  refine ⟨(d.typeName ++ "_" ++ toString n).toList, ?_⟩
  simp [numbered]

/-- The name of a temporary is one word. -/
theorem isWordRest_numbered (h : isIdentifier stem) (d : Datatype) (n : Nat) :
    ∀ c ∈ (numbered stem d n).toList, Token.isWordRest c := by
  have types : ∀ c ∈ d.typeName.toList, Token.isWordRest c := by
    obtain ⟨s, c⟩ := d
    refine List.all_eq_true.mp ?_
    cases s <;> cases c <;> decide
  have digits : ∀ c ∈ (toString n).toList, Token.isWordRest c := by
    intro c mem
    simp [Token.isWordRest, Char.isAlphanum, isDigit_of_mem_toString mem]
  have low : ∀ c ∈ "_".toList, Token.isWordRest c := List.all_eq_true.mp (by decide)
  simp only [numbered, String.toList_append, List.mem_append]
  rintro c ((((mem | mem) | mem) | mem) | mem)
  · exact isWordRest_of_isIdentifier h c mem
  · exact low c mem
  · exact types c mem
  · exact low c mem
  · exact digits c mem

theorem numbered_ne_nil (stem : String) (d : Datatype) (n : Nat) : (numbered stem d n).toList ≠ [] := by
  simp [numbered]

/-- The number of a temporary stands behind an underscore. -/
theorem not_isUnnumbered (d : Datatype) (n : Nat) :
    ¬isUnnumbered false (numbered stem d n).toList := by
  have never : ∀ (a b : List Char) (c : Char) (low : Bool), c.isDigit →
      isUnnumbered low (a ++ '_' :: c :: b) = false := by
    intro a b c low digit
    induction a generalizing low with
    | nil => simp [isUnnumbered, digit]
    | cons x a ih => rw [List.cons_append, isUnnumbered, ih, Bool.and_false]
  have some : (toString n).toList ≠ [] := by
    have digits : (toString n).toList = Nat.toDigits 10 n := by simp
    rw [digits]
    exact Nat.toDigits_ne_nil
  obtain ⟨c, rest, eq⟩ := List.exists_cons_of_ne_nil some
  have digit : c.isDigit := isDigit_of_mem_toString (n := n) (by rw [eq]; exact List.mem_cons_self)
  have split : (numbered stem d n).toList
      = (stem ++ "_" ++ d.typeName).toList ++ '_' :: c :: rest := by
    rw [← eq]
    simp [numbered]
  rw [split, never _ _ _ _ digit]
  exact Bool.false_ne_true

end State

/-! ## Mentions -/

/-- Neither the name nor what stands for it when it is hidden is the name of a temporary. -/
structure Distinct (stem x : String) : Prop where
  plain : ∀ d n, x.toList ≠ (State.numbered stem d n).toList
  hidden : ∀ d n, '_' :: x.toList ≠ (State.numbered stem d n).toList

theorem Apart.distinct {stem x : String} (h : Apart stem x) : Distinct stem x :=
  ⟨fun d n eq => h.plain (eq ▸ State.prefix_numbered stem d n),
    fun d n eq => h.hidden (eq ▸ State.prefix_numbered stem d n)⟩

/-- Words as they are; names of temporaries are among `names` and, if `strict`, behind
no other word. -/
def Wording.mentioning (strict : Bool) (stem : String) (names : List String) : Wording where
  word gap w w' := w' = w ∧ ∀ d n, w = (State.numbered stem d n).toList →
    (strict → gap = false) ∧ State.numbered stem d n ∈ names
  plain x := isName x ∧ Distinct stem x
  fixed unnumbered := ⟨rfl, fun d n eq => absurd (eq ▸ unnumbered) (State.not_isUnnumbered d n)⟩
  named plain :=
    ⟨plain.1, ⟨rfl, fun d n eq => absurd eq (plain.2.plain d n)⟩,
      ⟨rfl, fun d n eq => absurd eq (plain.2.hidden d n)⟩⟩
  returns same := by rw [same.1]

/-- Texts that mention no temporaries but those of these names. -/
def mentions (stem : String) (names : List String) : Likeness :=
  (Wording.mentioning true stem names).likeness

namespace Mentions

variable {stem : String} {strict : Bool} {names names' : List String}

theorem same_mono (le : ∀ x ∈ names, x ∈ names') {strict' : Bool} (weaker : strict' → strict)
    {p p' : Piece} (h : (Wording.mentioning strict stem names).Same p p') :
    (Wording.mentioning strict' stem names').Same p p' := by
  cases h with
  | word same =>
    exact .word ⟨same.1, fun d n eq => ⟨fun s => (same.2 d n eq).1 (weaker s), le _ (same.2 d n eq).2⟩⟩
  | mark line carriage => exact .mark line carriage
  | quoted line => exact .quoted line

theorem meets_mono (le : ∀ x ∈ names, x ∈ names') {strict' : Bool} (weaker : strict' → strict)
    {r : Reading} {p p' : Place} (h : (Wording.mentioning strict stem names).Meets r p p') :
    (Wording.mentioning strict' stem names').Meets r p p' := by
  cases h with
  | free => exact .free
  | gap => exact .gap
  | bare => exact .bare
  | inside unnumbered low => exact .inside unnumbered low
  | word same =>
    exact .word ⟨same.1, fun d n eq => ⟨fun s => (same.2 d n eq).1 (weaker s), le _ (same.2 d n eq).2⟩⟩

/-- More may be mentioned. -/
theorem like_mono (le : ∀ x ∈ names, x ∈ names') {strict' : Bool} (weaker : strict' → strict)
    {a a' : String} {e : Mark} (h : (Wording.mentioning strict stem names).Like .free a a' e) :
    (Wording.mentioning strict' stem names').Like .free a a' e := by
  intro p p' meets
  cases meets
  obtain ⟨same, behind⟩ := h _ _ .free
  exact ⟨same.imp fun _ _ => same_mono le weaker, meets_mono le weaker behind⟩

theorem shows_mono (le : ∀ x ∈ names, x ∈ names') {a a' : String}
    (h : (mentions stem names).Shows a a') : (mentions stem names').Shows a a' :=
  like_mono le id h

theorem line_mono (le : ∀ x ∈ names, x ∈ names') {strict' : Bool} (weaker : strict' → strict)
    {a a' : String} (h : (Wording.mentioning strict stem names).Line a a') :
    (Wording.mentioning strict' stem names').Line a a' :=
  ⟨h.1, h.2.1, h.2.2.imp fun _ _ => same_mono le weaker⟩

theorem same_of_line {line line' : String} (h : (Wording.mentioning strict stem names).Line line line')
    {p : Piece} (mem : p ∈ pieces line) : ∃ p', (Wording.mentioning strict stem names).Same p p' := by
  have all := h.2.2
  generalize pieces line = ps at all mem
  generalize pieces line' = ps' at all
  induction all with
  | nil => cases mem
  | cons first _ ih =>
    rcases List.mem_cons.mp mem with rfl | mem
    · exact ⟨_, first⟩
    · exact ih mem

/-- What a line mentions is among the names. -/
theorem mem_of_line {line line' : String} (h : (Wording.mentioning strict stem names).Line line line')
    {d : Datatype} {n : Nat} (mem : State.numbered stem d n ∈ identifiers line) :
    State.numbered stem d n ∈ names := by
  obtain ⟨gap, there⟩ := mem_identifiers.mp mem
  obtain ⟨p', same⟩ := same_of_line h there
  cases same with
  | word same => exact (same.2 d n rfl).2

section

variable (identifier : isIdentifier stem)
include identifier

/-- The name of a temporary, where it may stand. -/
theorem like_numbered {m : Mark} (apart : m ≠ .word) (free : strict → m = .free) {d : Datatype} {n : Nat}
    (mem : State.numbered stem d n ∈ names) : (Wording.mentioning strict stem names).Like m
      (State.numbered stem d n) (State.numbered stem d n) .word := by
  have letters := State.isWordRest_numbered identifier d n
  have filled := State.numbered_ne_nil stem d n
  have word : (Wording.mentioning strict stem names).Like m
      (String.ofList (State.numbered stem d n).toList)
      (String.ofList (State.numbered stem d n).toList) .word := by
    refine Wording.like_words apart filled filled letters letters fun gap here => ⟨rfl, fun d' n' eq =>
      ⟨fun s => Bool.eq_false_iff.mpr fun behind => ?_, ?_⟩⟩
    · rw [free s] at here
      cases here behind
    · rwa [← String.toList_injective eq]
  rwa [String.ofList_toList] at word

/-- A temporary of one of the names is mentioned by its name. -/
theorem shows_numbered {d : Datatype} {n : Nat} (mem : State.numbered stem d n ∈ names) :
    (mentions stem names).Shows (State.numbered stem d n) (State.numbered stem d n) :=
  like_numbered identifier (by decide) (by simp) mem

/-- The definition of a temporary mentions it and what its text mentions. -/
theorem line_definition {d : Datatype} {n : Nat} {text : String}
    (shows : (mentions stem names).Shows text text) :
    (Wording.mentioning false stem (State.numbered stem d n :: names)).Line
      (State.definition (State.numbered stem d n) text d)
      (State.definition (State.numbered stem d n) text d) := by
  let L := (Wording.mentioning false stem (State.numbered stem d n :: names)).likeness
  have name : (Wording.mentioning false stem (State.numbered stem d n :: names)).Like .gap
      (State.numbered stem d n) (State.numbered stem d n) .word :=
    like_numbered identifier (by decide) (by simp) List.mem_cons_self
  have value : (Wording.mentioning false stem (State.numbered stem d n :: names)).Like .free
      text text .word := like_mono (fun _ => List.mem_cons_of_mem _) (fun _ => rfl) shows
  have type : L.like .free d.typeName d.typeName .word := Likeness.shows_typeName d
  have front := ((type.append (L.fixed (a := " ") (e := .gap) rfl)).append name).put " = " rfl
  exact L.line_of_like ((front.append value).put " ;" rfl) (by simp [State.definition])

/-- A definition has the name of its temporary behind its type. -/
theorem word_mem_definition (d d' : Datatype) (n : Nat)
    (text : String) : Piece.word true (State.numbered stem d n).toList
      ∈ pieces (State.definition (State.numbered stem d n) text d') := by
  have type : ((Place.outside false).read (d'.typeName ++ " ").toList).2 = .outside true := by
    obtain ⟨s, c⟩ := d'
    cases s <;> cases c <;> rfl
  have rest : (State.definition (State.numbered stem d n) text d').toList
      = (d'.typeName ++ " ").toList
        ++ ((State.numbered stem d n).toList ++ (' ' :: ("= " ++ text ++ " ;").toList)) := by
    simp [State.definition]
  obtain ⟨ps, read⟩ := Place.toEnd_outside true (State.numbered_ne_nil stem d n)
    (State.isWordRest_numbered identifier d n) (' ' :: ("= " ++ text ++ " ;").toList)
  rw [pieces, rest, Place.toEnd_append, type, read, List.takeWhile_cons_of_neg (by decide),
    List.append_nil]
  exact List.mem_append_right _ List.mem_cons_self

theorem mem_identifiers_definition (d d' : Datatype) (n : Nat) (text : String) :
    State.numbered stem d n ∈ identifiers (State.definition (State.numbered stem d n) text d') :=
  mem_identifiers.mpr ⟨true, word_mem_definition identifier d d' n text⟩

/-- A line defines one temporary at most. -/
theorem name_of_definition {d d' e e' : Datatype} {n n' : Nat} {text text' : String}
    (eq : State.definition (State.numbered stem d n) text e
      = State.definition (State.numbered stem d' n') text' e') :
    State.numbered stem d n = State.numbered stem d' n' := by
  have blank : ∀ d n, ' ' ∉ (State.numbered stem d n).toList := fun d n mem =>
    absurd (State.isWordRest_numbered identifier d n _ mem) (by decide)
  have chars := congrArg String.toList eq
  simp only [State.definition, String.toList_append, String.reduceToList, List.append_assoc,
    List.cons_append, List.nil_append] at chars
  obtain ⟨-, rest⟩ := append_cons_inj e.blank_not_mem_typeName e'.blank_not_mem_typeName chars
  exact String.toList_injective (append_cons_inj (blank d n) (blank d' n') rest).1

/-- A line that mentions temporaries is the definition of none. -/
theorem ne_definition_of_line {line line' : String}
    (h : (Wording.mentioning true stem names).Line line line') (d d' : Datatype) (n : Nat)
    (text : String) : line ≠ State.definition (State.numbered stem d n) text d' := by
  rintro rfl
  obtain ⟨p', same⟩ := same_of_line h (word_mem_definition identifier d d' n text)
  cases same with
  | word same => cases (same.2 d n rfl).1 rfl

end

end Mentions

/-! ## Definitions in order -/

/-- Temporaries in the order in which they are made; the text of each mentions only
those before it. -/
inductive Chained (stem : String) : List Temporary → Prop
  | nil : Chained stem []
  | snoc {made : List Temporary} {e : Temporary} {d : Datatype} {n : Nat} {text : String} :
      Chained stem made → e.name = State.numbered stem d n →
      e.definition = State.definition e.name text d →
      (mentions stem (made.map (·.name))).Shows text text → Chained stem (made ++ [e])

namespace Chained

variable {stem : String} {made : List Temporary}

theorem exists_numbered (h : Chained stem made) {e : Temporary} (mem : e ∈ made) :
    ∃ d n, e.name = State.numbered stem d n := by
  induction h with
  | nil => cases mem
  | snoc _ name _ _ ih =>
    rcases List.mem_append.mp mem with old | new
    · exact ih old
    · obtain rfl := List.mem_singleton.mp new
      exact ⟨_, _, name⟩

end Chained

end MatrixScript
