/-
# `Proofs.Text.Pattern` — patterns, piece by piece

A pattern is written as literal pieces and placeholders (`Pattern.Piece`).  What a
placeholder stands for is said without the reader (`Pattern.Stands`), and rendering shows
every piece where it is written (`Pattern.render_written`): a placeholder is read once, and
what is shown for it is not read at all.  The literal pieces must not open a placeholder of
their own, nor may neighbours do so together; so the condition is about the text between one
placeholder and the next (`Pattern.between`).
-/
import Mathlib.Data.List.Forall2
import MatrixScript.Proofs.Text.Slice

namespace MatrixScript

namespace Text

/-! ## The first place of a pair -/

variable {a b : Char} {front rest : List Char}

theorem splitAtPair_eq_none (h : ¬[a, b] <:+: front) : splitAtPair a b front = none := by
  cases found : splitAtPair a b front with
  | none => rfl
  | some halves =>
    obtain ⟨before, after⟩ := halves
    exact absurd ⟨before, after, by simp [splitAtPair_eq_some found]⟩ h

/-- A text without the pair goes in front of it, also one that ends with half of it. -/
theorem splitAtPair_front (other : a ≠ b) (h : ¬[a, b] <:+: front) (rest : List Char) :
    splitAtPair a b (front ++ a :: b :: rest) = some (front, rest) := by
  induction front with
  | nil => simp [splitAtPair]
  | cons c front ih =>
    have later : ¬[a, b] <:+: front := fun found => h (found.trans (List.suffix_cons c front).isInfix)
    have here : ∀ d tail, front ++ a :: b :: rest = d :: tail → ¬(c = a ∧ d = b) := by
      rintro d tail eq ⟨rfl, rfl⟩
      cases front with
      | nil => exact other (List.cons.inj eq).1
      | cons e front =>
        obtain rfl := (List.cons.inj eq).1
        exact h ⟨[], front, rfl⟩
    rw [List.cons_append]
    cases eq : front ++ a :: b :: rest with
    | nil => simp at eq
    | cons d tail => rw [splitAtPair, if_neg (here d tail eq), ← eq, ih later]; rfl

/-! ## Numbers -/

theorem natural?_eq_some_iff {digits : List Char} {k : Nat} : natural? digits = some k
    ↔ digits ≠ [] ∧ (∀ c ∈ digits, c.isDigit) ∧ digitsValue digits = k := by
  rw [natural?, Option.ite_none_left_eq_some]
  simp [and_assoc]

end Text

namespace Pattern

open Template

/-! ## Pieces -/

/-- A part of a pattern. -/
inductive Piece where
  /-- text that stands for itself -/
  | literal (text : List Char)
  /-- the placeholder of a key -/
  | hole (key : List Char)
deriving DecidableEq, Repr

/-- The piece as it is written. -/
def Piece.written : Piece → List Char
  | .literal text => text
  | .hole key => placeholder key

/-- A pattern of pieces. -/
def written (pieces : List Piece) : List Char := pieces.flatMap Piece.written

/-- The texts in front of, between and behind the placeholders; `front` stands in front of the
pieces. -/
def between (front : List Char) : List Piece → List (List Char)
  | [] => [front]
  | .literal text :: pieces => between (front ++ text) pieces
  | .hole _ :: pieces => front :: between [] pieces

/-- Nothing between the placeholders opens one, and none is closed within its key. -/
structure Separate (pieces : List Piece) : Prop where
  plain : ∀ text ∈ between [] pieces, ¬"%(".toList <:+: text
  keys : ∀ key, .hole key ∈ pieces → ¬")s".toList <:+: key

/-! ## What is shown -/

/-- Digits that number a child; a plus sign may stand before them. -/
def Numbers (key : List Char) (k : Nat) : Prop :=
  ∃ digits, (key = digits ∨ key = '+' :: digits) ∧ digits ≠ [] ∧ (∀ c ∈ digits, c.isDigit)
    ∧ Text.digitsValue digits = k

/-- What the key of a placeholder stands for at a node whose children have the given texts. -/
inductive Stands (node : Node) (texts : List String) : List Char → String → Prop
  | name : Stands node texts "name".toList node.name
  | type : Stands node texts "type".toList node.datatype.typeName
  | value {v : String} : node.value = some v → Stands node texts "value".toList v
  | child {key : List Char} {k : Nat} {text : String} : Numbers key k → texts[k]? = some text →
      Stands node texts key text

/-- What is shown for a piece: a placeholder that stands for nothing is left as it is. -/
inductive Shows (node : Node) (texts : List String) : Piece → List Char → Prop
  | literal {text : List Char} : Shows node texts (.literal text) text
  | value {key : List Char} {v : String} : Stands node texts key v →
      Shows node texts (.hole key) v.toList
  | verbatim {key : List Char} : (∀ v, ¬Stands node texts key v) →
      Shows node texts (.hole key) (placeholder key)

variable {node : Node} {texts : List String} {key : List Char}

theorem childNumber?_eq_some_iff {k : Nat} : childNumber? key = some k ↔ Numbers key k := by
  unfold childNumber?
  split
  case h_1 digits =>
    rw [Text.natural?_eq_some_iff]
    constructor
    · rintro ⟨some, all, value⟩
      exact ⟨digits, .inr rfl, some, all, value⟩
    · rintro ⟨_, rfl | eq, some, all, value⟩
      · -- a plus sign is no digit
        cases all '+' List.mem_cons_self
      · exact (List.cons.inj eq).2 ▸ ⟨some, all, value⟩
  case h_2 unsigned =>
    rw [Text.natural?_eq_some_iff]
    constructor
    · rintro ⟨some, all, value⟩
      exact ⟨key, .inl rfl, some, all, value⟩
    · rintro ⟨digits, rfl | rfl, some, all, value⟩
      · exact ⟨some, all, value⟩
      · exact absurd rfl (unsigned digits)

/-- A key that starts like a word numbers no child. -/
theorem not_numbers (word : key.head?.any fun c => !c.isDigit && c != '+') (k : Nat) :
    ¬Numbers key k := by
  rintro ⟨digits, rfl | rfl, some, all, -⟩
  · cases key with
    | nil => exact some rfl
    | cons c rest => simp [all c List.mem_cons_self] at word
  · cases word

theorem valueOf?_eq_some_iff {v : String} :
    valueOf? node texts key = some v ↔ Stands node texts key v := by
  unfold valueOf?
  constructor
  · intro h
    split at h
    case isTrue eq => exact eq ▸ Option.some.inj h ▸ .name
    split at h
    case isTrue eq => exact eq ▸ Option.some.inj h ▸ .type
    split at h
    case isTrue eq => exact eq ▸ .value h
    split at h
    case h_1 k number => exact .child (childNumber?_eq_some_iff.mp number) h
    case h_2 => cases h
  · intro h
    cases h with
    | name => rfl
    | type => rfl
    | value held => exact held
    | @child _ k _ numbers found =>
      have name : key ≠ "name".toList := fun eq => not_numbers (by decide) k (eq ▸ numbers)
      have type : key ≠ "type".toList := fun eq => not_numbers (by decide) k (eq ▸ numbers)
      have value : key ≠ "value".toList := fun eq => not_numbers (by decide) k (eq ▸ numbers)
      rw [if_neg name, if_neg type, if_neg value, childNumber?_eq_some_iff.mpr numbers]
      exact found

/-- Every placeholder shows one text. -/
theorem shows_hole_iff {shown : List Char} : Shows node texts (.hole key) shown
    ↔ ((valueOf? node texts key).map String.toList).getD (placeholder key) = shown := by
  constructor
  · intro h
    cases h with
    | value stands =>
      rw [valueOf?_eq_some_iff.mpr stands]
      rfl
    | verbatim none =>
      have nothing : valueOf? node texts key = Option.none :=
        Option.eq_none_iff_forall_ne_some.mpr fun v found => none v (valueOf?_eq_some_iff.mp found)
      rw [nothing]
      rfl
  · rintro rfl
    cases found : valueOf? node texts key with
    | some v => exact .value (valueOf?_eq_some_iff.mp found)
    | none =>
      refine .verbatim fun v stands => ?_
      rw [valueOf?_eq_some_iff.mpr stands] at found
      cases found

theorem exists_shows (pieces : List Piece) :
    ∃ shown, List.Forall₂ (Shows node texts) pieces shown := by
  induction pieces with
  | nil => exact ⟨[], .nil⟩
  | cons piece pieces ih =>
    obtain ⟨shown, rest⟩ := ih
    cases piece with
    | literal text => exact ⟨text :: shown, .cons .literal rest⟩
    | hole key => exact ⟨_ :: shown, .cons (shows_hole_iff.mpr rfl) rest⟩

/-! ## Rendering -/

/-- The reader goes on behind what it has shown, and leaves what does not open a placeholder
or does not close it. -/
theorem substitute_pieces {pieces : List Piece} (front : List Char) {shown : List (List Char)}
    (shows : List.Forall₂ (Shows node texts) pieces shown)
    (plain : ∀ text ∈ between front pieces, ¬"%(".toList <:+: text)
    (keys : ∀ key, .hole key ∈ pieces → ¬")s".toList <:+: key) {tail : List Char}
    (ends : tail = [] ∨ ∃ rest, tail = '%' :: '(' :: rest ∧ ¬")s".toList <:+: rest) :
    substitute (fun key => (valueOf? node texts key).map String.toList)
      (front ++ (written pieces ++ tail)) = front ++ (shown.flatten ++ tail) := by
  induction shows generalizing front with
  | nil =>
    have front_plain : ¬['%', '('] <:+: front := plain front (List.mem_singleton_self front)
    rcases ends with rfl | ⟨rest, rfl, unclosed⟩
    · simp [written, substitute_plain (Text.splitAtPair_eq_none front_plain)]
    · have opens := Text.splitAtPair_front (by decide) front_plain rest
      exact substitute_open opens (Text.splitAtPair_eq_none unclosed)
  | @cons piece text pieces shown here _ ih =>
    have later : ∀ key, .hole key ∈ pieces → ¬")s".toList <:+: key := fun key mem =>
      keys key (List.mem_cons_of_mem _ mem)
    cases piece with
    | literal =>
      cases here
      have rest := ih (front ++ text) plain later
      simpa [written, Piece.written] using rest
    | hole key =>
      obtain ⟨front_plain, plain⟩ := List.forall_mem_cons.mp plain
      have opens := Text.splitAtPair_front (a := '%') (b := '(') (by decide) front_plain
        (key ++ ')' :: 's' :: (written pieces ++ tail))
      have closes := Text.splitAtPair_front (a := ')') (b := 's') (by decide)
        (keys key List.mem_cons_self) (written pieces ++ tail)
      have rest : substitute _ (written pieces ++ tail) = shown.flatten ++ tail :=
        ih [] plain later
      have whole : front ++ (written (.hole key :: pieces) ++ tail)
          = front ++ '%' :: '(' :: (key ++ ')' :: 's' :: (written pieces ++ tail)) := by
        simp [written, Piece.written, placeholder]
      rw [whole, substitute_step opens closes, shows_hole_iff.mp here, rest]
      simp

/-- A pattern is rendered piece by piece: literal text as it is, and every placeholder by the
value of its key, or as it is written if it has none.  What is inserted is not read again, and
behind an opening that is never closed everything stays. -/
theorem render_written (node : Node) (texts : List String) {pieces : List Piece}
    (separate : Separate pieces) :
    (∃ shown, List.Forall₂ (Shows node texts) pieces shown)
    ∧ ∀ shown, List.Forall₂ (Shows node texts) pieces shown →
      render node texts (.format (String.ofList (written pieces))) = String.ofList shown.flatten
      ∧ ∀ rest, ¬")s".toList <:+: rest →
        render node texts (.format (String.ofList (written pieces ++ "%(".toList ++ rest)))
          = String.ofList (shown.flatten ++ "%(".toList ++ rest) := by
  refine ⟨exists_shows pieces, fun shown shows => ?_⟩
  have read : ∀ {tail : List Char},
      tail = [] ∨ (∃ rest, tail = '%' :: '(' :: rest ∧ ¬")s".toList <:+: rest) →
      substitute (fun key => (valueOf? node texts key).map String.toList) (written pieces ++ tail)
        = shown.flatten ++ tail := fun ends =>
    substitute_pieces [] shows separate.plain separate.keys ends
  refine ⟨?_, fun rest unclosed => ?_⟩
  · have whole := read (.inl rfl)
    rw [List.append_nil, List.append_nil] at whole
    rw [render, String.toList_ofList, whole]
  · have whole := read (.inr ⟨rest, rfl, unclosed⟩)
    rw [render, String.toList_ofList, List.append_assoc, List.append_assoc]
    exact congrArg String.ofList whole

/-- A name and a text that look like placeholders, a percent sign in front of a placeholder, a
number with a sign and a zero, and one that no child has. -/
theorem render_written_lookalikes :
    let node : Node := { category := .int, name := "%(0)s", value := some "7" }
    let texts := ["%(name)s", "é)s"]
    let pieces : List Piece := [.literal "é%".toList, .hole "name".toList, .literal "%".toList,
      .literal "x(".toList, .hole "+01".toList, .hole "2".toList, .hole "%(0".toList]
    Separate pieces ∧ ¬")s".toList <:+: "1) s".toList
    ∧ render node texts (.format (String.ofList (written pieces)))
      = "é%%(0)s%x(é)s%(2)s%(%(0)s"
    ∧ render node texts (.format (String.ofList (written pieces ++ "%(".toList ++ "1) s".toList)))
      = "é%%(0)s%x(é)s%(2)s%(%(0)s%(1) s" := by
  intro node texts pieces
  have separate : Separate pieces := by
    refine ⟨by decide, fun key mem => ?_⟩
    simp [pieces] at mem
    rcases mem with rfl | rfl | rfl | rfl <;> decide
  have unclosed : ¬")s".toList <:+: "1) s".toList := by decide
  have shows : List.Forall₂ (Shows node texts) pieces ["é%".toList, "%(0)s".toList, "%".toList,
      "x(".toList, "é)s".toList, "%(2)s".toList, "%(%(0)s".toList] :=
    .cons .literal (.cons (shows_hole_iff.mpr (by decide)) (.cons .literal (.cons .literal
      (.cons (shows_hole_iff.mpr (by decide)) (.cons (shows_hole_iff.mpr (by decide))
        (.cons (shows_hole_iff.mpr (by decide)) .nil))))))
  obtain ⟨whole, opened⟩ := (render_written node texts separate).2 _ shows
  exact ⟨separate, unclosed, whole, opened _ unclosed⟩

end Pattern

end MatrixScript
