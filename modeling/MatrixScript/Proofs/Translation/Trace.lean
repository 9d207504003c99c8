/-
# `Proofs.Translation.Trace` — which statement a line belongs to

A translation gives lines, and does not say what they come from.  A trace keeps with
each line the statement that it belongs to, which is the innermost one, and with each
temporary the statement that makes it (`Resolving.traceWithin`).  The lines of a
function are those of the statements in its body, and its own ones around them.

What is asked of a trace (`Trace.Tidy`) is kept when traces are put together
(`Trace.Tidy.insert`), as long as no temporaries of the same name are made in both.
-/
import MatrixScript.Proofs.Translation.Mentions
import MatrixScript.Translator

namespace MatrixScript

open Text

/-- An emitted line and the innermost statement that it belongs to. -/
structure Trace.Line where
  statement : NodeId
  text : String
deriving DecidableEq, Repr

/-- A temporary and the innermost statement that makes it. -/
structure Trace.Making where
  statement : NodeId
  /-- the statement fails -/
  failed : Bool
  temporary : Temporary
deriving DecidableEq, Repr

/-- What is emitted and made while statements are resolved, in order. -/
structure Trace where
  lines : List Trace.Line
  made : List Trace.Making
deriving DecidableEq, Repr

namespace Resolving

/-- The temporaries of the second workspace that the first one has not. -/
def madeBetween (w w' : Workspace) : List Temporary :=
  w'.state.temporaries.drop w.state.temporaries.length

/-- The statement fails. -/
def fails (resolve : NodeId → Resolving String) (id : NodeId) (w : Workspace) : Bool :=
  !(resolve id { w with state := w.state.withPending [] }).1.isOk

/-- Trace of a statement with no statements in it. -/
def traceStatement (resolve : NodeId → Resolving String) (id : NodeId) (w : Workspace) : Trace :=
  let (lines, after) := statementLines resolve id w
  { lines := lines.map (⟨id, ·⟩)
    made := (madeBetween w after).map (⟨id, fails resolve id w, ·⟩) }

/-- Trace of a function whose body has the trace `body`: above that are its definitions, its
first line and a brace. -/
def traceFunction (resolve : NodeId → Resolving String) (id : NodeId) (w start : Workspace)
    (body : Trace) : Trace :=
  let lines := (statementLines resolve id w).1
  let above := start.state.pending.length + 2
  { lines := (lines.take above).map (⟨id, ·⟩) ++ body.lines
      ++ (lines.drop (above + body.lines.length)).map (⟨id, ·⟩)
    made := (madeBetween w start).map (⟨id, fails resolve id w, ·⟩) ++ body.made }

/-- The workspace in which the body of a function starts, after its parameters and its
outputs, and the statements in that. -/
def body? (resolve : NodeId → Resolving String) (id : NodeId) (w : Workspace) :
    Option (Workspace × List NodeId) :=
  match (w.tree.node id).category, w.tree.children id with
  | .function, [params, returns, body] =>
      match texts resolve [params, returns]
          { w with state := (w.state.withPending []).pushScope } with
      | (.ok _, start) => some (start, w.tree.children body)
      | (.error _, _) => none
  | _, _ => none

/-- Trace of several statements. -/
def traceLines (trace : NodeId → Workspace → Trace) (resolve : NodeId → Resolving String) :
    List NodeId → Workspace → Trace
  | [], _ => ⟨[], []⟩
  | id :: ids, w =>
      let first := trace id w
      let rest := traceLines trace resolve ids (statementLines resolve id w).2
      ⟨first.lines ++ rest.lines, first.made ++ rest.made⟩

/-- Trace of a statement that is resolved to a depth; the statements of a function are two
levels below it. -/
def traceWithin : Nat → NodeId → Workspace → Trace
  | depth + 2, id, w =>
      match body? (resolveWithin (depth + 1)) id w with
      | some (start, ids) => traceFunction (resolveWithin (depth + 2)) id w start
          (traceLines (traceWithin depth) (resolveWithin depth) ids start)
      | none => traceStatement (resolveWithin (depth + 2)) id w
  | depth, id, w => traceStatement (resolveWithin depth) id w

/-- Trace of a program. -/
def traceRoot (w : Workspace) : Trace :=
  match w.tree.root with
  | none => ⟨[], []⟩
  | some root =>
      let depth := w.tree.size + 1
      traceLines (traceWithin depth) (resolveWithin depth) (w.tree.children root) w

end Resolving

namespace Trace

/-! ## Tidy traces -/

/-- The line defines the temporary of this name. -/
def Defines (name line : String) : Prop := ∃ d text, line = State.definition name text d

/-- Where a temporary stands among lines.  If its statement fails, nowhere.  Else one line
defines it; no line in front mentions it, and lines behind that do belong to the same
statement, and define something else if anything. -/
def Places (lines : List Line) (e : Making) : Prop :=
  if e.failed then ∀ l ∈ lines, e.temporary.name ∉ identifiers l.text
  else ∃ before line after, lines = before ++ ⟨e.statement, line⟩ :: after
    ∧ Defines e.temporary.name line
    ∧ (∀ l ∈ before, e.temporary.name ∉ identifiers l.text)
    ∧ ∀ l ∈ after, ¬Defines e.temporary.name l.text
      ∧ (e.temporary.name ∈ identifiers l.text → l.statement = e.statement)

/-- Names of the temporaries that are made. -/
def names (made : List Making) : List String := made.map (·.temporary.name)

theorem map_text (id : NodeId) (ls : List String) : (ls.map (Line.mk id)).map (·.text) = ls := by
  rw [List.map_map]
  exact List.map_id _

theorem map_temporary (id : NodeId) (failed : Bool) (made : List Temporary) :
    (made.map (Making.mk id failed)).map (·.temporary) = made := by
  rw [List.map_map]
  exact List.map_id _

/-- Every line mentions only temporaries that are made, and those stand where they should. -/
structure Tidy (stem : String) (r : Trace) : Prop where
  numbered : ∀ e ∈ r.made, ∃ d n, e.temporary.name = State.numbered stem d n
  lines : ∀ l ∈ r.lines, (Wording.mentioning false stem (names r.made)).Line l.text l.text
  places : ∀ e ∈ r.made, Places r.lines e

section

variable {stem : String} {e : Making} {a b c : List Line}

theorem tidy_empty (stem : String) : Tidy stem ⟨[], []⟩ := ⟨nofun, nofun, nofun⟩

/-- Lines around it that do not mention a temporary leave it in its place. -/
theorem Places.around (h : Places b e) (above : ∀ l ∈ a, e.temporary.name ∉ identifiers l.text)
    (below : ∀ l ∈ c, ¬Defines e.temporary.name l.text
      ∧ (e.temporary.name ∈ identifiers l.text → l.statement = e.statement ∧ ¬e.failed)) :
    Places (a ++ b ++ c) e := by
  unfold Places at h ⊢
  split
  case isTrue failed =>
    rw [if_pos failed] at h
    simp only [List.mem_append]
    rintro l ((mem | mem) | mem)
    · exact above l mem
    · exact h l mem
    · exact fun mentioned => ((below l mem).2 mentioned).2 failed
  case isFalse done =>
    rw [if_neg done] at h
    obtain ⟨before, line, after, rfl, defines, front, back⟩ := h
    refine ⟨a ++ before, line, after ++ c, by simp, defines, ?_, ?_⟩
    · exact List.forall_mem_append.mpr ⟨above, front⟩
    · exact List.forall_mem_append.mpr
        ⟨back, fun l mem => ⟨(below l mem).1, fun mentioned => ((below l mem).2 mentioned).1⟩⟩

/-- So do lines behind it of the same statement, if they do not define it. -/
theorem Places.behind {lines : List String} (h : Places b e) (done : ¬e.failed)
    (other : ∀ line ∈ lines, ¬Defines e.temporary.name line) :
    Places (b ++ lines.map (⟨e.statement, ·⟩)) e := by
  refine Places.around (a := []) h nofun fun l mem => ?_
  obtain ⟨line, there, rfl⟩ := List.mem_map.mp mem
  exact ⟨other line there, fun _ => ⟨rfl, done⟩⟩

variable (identifier : isIdentifier stem) {d : Datatype} {n : Nat}
  (name : e.temporary.name = State.numbered stem d n)
include identifier name

theorem not_defines_of_not_mem {line : String} (h : e.temporary.name ∉ identifiers line) :
    ¬Defines e.temporary.name line := by
  rintro ⟨d', text, rfl⟩
  rw [name] at h
  exact h (Mentions.mem_identifiers_definition identifier d d' n text)

/-- So do lines in between. -/
theorem Places.between (h : Places (a ++ c) e)
    (none : ∀ l ∈ b, e.temporary.name ∉ identifiers l.text) : Places (a ++ b ++ c) e := by
  unfold Places at h ⊢
  split
  case isTrue failed =>
    rw [if_pos failed] at h
    simp only [List.mem_append] at h ⊢
    rintro l ((mem | mem) | mem)
    · exact h l (.inl mem)
    · exact none l mem
    · exact h l (.inr mem)
  case isFalse done =>
    rw [if_neg done] at h
    obtain ⟨before, line, after, eq, defines, front, back⟩ := h
    have other : ∀ l ∈ b, ¬Defines e.temporary.name l.text
        ∧ (e.temporary.name ∈ identifiers l.text → l.statement = e.statement) := fun l mem =>
      ⟨not_defines_of_not_mem identifier name (none l mem), fun mentioned => absurd mentioned (none l mem)⟩
    -- the definition is behind the lines, or in front of them
    rcases List.append_eq_append_iff.mp eq with ⟨rest, rfl, rfl⟩ | ⟨rest, rfl, eq'⟩
    · refine ⟨a ++ b ++ rest, line, after, by simp, defines, ?_, back⟩
      obtain ⟨here, there⟩ := List.forall_mem_append.mp front
      exact List.forall_mem_append.mpr ⟨List.forall_mem_append.mpr ⟨here, none⟩, there⟩
    · cases rest with
      | nil =>
        obtain rfl : c = ⟨e.statement, line⟩ :: after := by simpa using eq'.symm
        refine ⟨before ++ b, line, after, by simp, defines, ?_, back⟩
        exact List.forall_mem_append.mpr ⟨front, none⟩
      | cons first rest =>
        obtain ⟨rfl, rfl⟩ := List.cons.inj eq'
        refine ⟨before, line, rest ++ b ++ c, by simp, defines, front, ?_⟩
        obtain ⟨here, there⟩ := List.forall_mem_append.mp back
        exact List.forall_mem_append.mpr ⟨List.forall_mem_append.mpr ⟨here, other⟩, there⟩

end

/-! ### Putting traces together -/

section

variable {stem : String} (identifier : isIdentifier stem) {r : Trace} {a c : List Line}
  {m : List Making} {id : NodeId} {made : List Temporary}

theorem names_append (m m' : List Making) : names (m ++ m') = names m ++ names m' :=
  List.map_append

/-- A line of a tidy trace does not mention what is not made there. -/
theorem Tidy.not_mem (h : Tidy stem r) {e : Making}
    (numbered : ∃ d n, e.temporary.name = State.numbered stem d n)
    (apart : e.temporary.name ∉ names r.made) :
    ∀ l ∈ r.lines, e.temporary.name ∉ identifiers l.text := by
  obtain ⟨d, n, name⟩ := numbered
  rw [name] at apart ⊢
  exact fun l mem mentioned => apart (Mentions.mem_of_line (h.lines l mem) mentioned)

include identifier in
/-- A tidy trace can stand between the lines of another one. -/
theorem Tidy.insert (h : Tidy stem ⟨a ++ c, m⟩) (k : Tidy stem r)
    (apart : ∀ e ∈ m, e.temporary.name ∉ names r.made) :
    Tidy stem ⟨a ++ r.lines ++ c, m ++ r.made⟩ := by
  have outer : ∀ e ∈ r.made, ∀ l ∈ a ++ c, e.temporary.name ∉ identifiers l.text := by
    refine fun e mem => h.not_mem (k.numbered e mem) fun there => ?_
    obtain ⟨e', mem', same⟩ := List.mem_map.mp there
    exact apart e' mem' (same ▸ List.mem_map_of_mem mem)
  refine ⟨List.forall_mem_append.mpr ⟨h.numbered, k.numbered⟩, ?_,
    List.forall_mem_append.mpr ⟨fun e mem => ?_, fun e mem => ?_⟩⟩
  · rw [names_append]
    have old : ∀ l ∈ a ++ c, (Wording.mentioning false stem (names m ++ names r.made)).Line l.text
        l.text := fun l mem =>
      Mentions.line_mono (fun _ => List.mem_append_left _) id (h.lines l mem)
    obtain ⟨above, below⟩ := List.forall_mem_append.mp old
    refine List.forall_mem_append.mpr ⟨List.forall_mem_append.mpr ⟨above, fun l mem => ?_⟩, below⟩
    exact Mentions.line_mono (fun _ => List.mem_append_right _) id (k.lines l mem)
  · obtain ⟨d, n, name⟩ := h.numbered e mem
    exact (h.places e mem).between identifier name (k.not_mem ⟨d, n, name⟩ (apart e mem))
  · obtain ⟨d, n, name⟩ := k.numbered e mem
    obtain ⟨above, below⟩ := List.forall_mem_append.mp (outer e mem)
    exact (k.places e mem).around above fun l mem =>
      ⟨not_defines_of_not_mem identifier name (below l mem), fun mentioned =>
        absurd mentioned (below l mem)⟩

include identifier

/-- Definitions in the order in which their temporaries are made. -/
theorem tidy_definitions (chained : Chained stem made) (nodup : (made.map (·.name)).Nodup) :
    Tidy stem ⟨(made.map (·.definition)).map (⟨id, ·⟩), made.map (⟨id, false, ·⟩)⟩ := by
  have named : ∀ made : List Temporary, names (made.map (⟨id, false, ·⟩)) = made.map (·.name) :=
    fun made => List.map_map
  induction chained with
  | nil => exact tidy_empty stem
  | @snoc made e d n text chained name definition shows ih =>
    rw [List.map_append, List.nodup_append] at nodup
    obtain ⟨old, -, apart⟩ := nodup
    have tidy := ih old
    have fresh : e.name ∉ made.map (·.name) := fun mem =>
      apart e.name mem e.name (List.mem_singleton.mpr rfl) rfl
    have line := Mentions.line_definition identifier (d := d) (n := n) shows
    rw [← name, ← definition] at line
    rw [List.map_append, List.map_append, List.map_append]
    refine ⟨List.forall_mem_append.mpr ⟨tidy.numbered, List.forall_mem_singleton.mpr ⟨d, n, name⟩⟩,
      ?_, List.forall_mem_append.mpr ⟨fun e' mem => ?_, List.forall_mem_singleton.mpr ?_⟩⟩
    · have all : ∀ x, x ∈ names (made.map (⟨id, false, ·⟩)) ∨ x = e.name →
          x ∈ names (made.map (⟨id, false, ·⟩) ++ [⟨id, false, e⟩]) := by
        intro x mem
        rw [names_append]
        exact List.mem_append.mpr (mem.imp_right List.mem_singleton.mpr)
      refine List.forall_mem_append.mpr ⟨fun l mem => ?_, List.forall_mem_singleton.mpr ?_⟩
      · exact Mentions.line_mono (fun x mem => all x (.inl mem)) (fun h => h) (tidy.lines l mem)
      · refine Mentions.line_mono (fun x mem => all x ?_) (fun h => h) line
        rw [named]
        exact (List.mem_cons.mp mem).symm
    · obtain ⟨e', there, rfl⟩ := List.mem_map.mp mem
      refine (tidy.places _ mem).behind nofun (List.forall_mem_singleton.mpr ?_)
      rintro ⟨d', text', eq⟩
      obtain ⟨d'', n'', name'⟩ := chained.exists_numbered there
      have here : e.name = e'.name := by
        have same : e.definition = State.definition e'.name text' d' := eq
        rw [definition, name, name'] at same
        rw [name, name']
        exact Mentions.name_of_definition identifier same
      exact fresh (here ▸ List.mem_map_of_mem there)
    · refine ⟨_, e.definition, [], rfl, ⟨d, text, definition⟩, ?_, nofun⟩
      refine tidy.not_mem (e := ⟨id, false, e⟩) ⟨d, n, name⟩ ?_
      rw [named]
      exact fresh

/-- Lines behind the definitions of a statement, which define nothing. -/
theorem Tidy.behind (h : Tidy stem ⟨a, made.map (⟨id, false, ·⟩)⟩) {lines : List String}
    (rest : ∀ line ∈ lines, (Wording.mentioning true stem (made.map (·.name))).Line line line) :
    Tidy stem ⟨a ++ lines.map (⟨id, ·⟩), made.map (⟨id, false, ·⟩)⟩ := by
  have named : names (made.map (⟨id, false, ·⟩)) = made.map (·.name) := List.map_map
  refine ⟨h.numbered, List.forall_mem_append.mpr ⟨h.lines, fun l mem => ?_⟩, fun e mem => ?_⟩
  · obtain ⟨line, there, rfl⟩ := List.mem_map.mp mem
    rw [named]
    exact Mentions.line_mono (fun _ mem => mem) (fun _ => rfl) (rest line there)
  · obtain ⟨d, n, name⟩ := h.numbered e mem
    have own : e.statement = id ∧ ¬e.failed := by
      obtain ⟨e', there, rfl⟩ := List.mem_map.mp mem
      exact ⟨rfl, nofun⟩
    rw [← own.1]
    refine (h.places e mem).behind own.2 fun line there => ?_
    rintro ⟨d', text, rfl⟩
    rw [name] at there
    exact Mentions.ne_definition_of_line identifier (rest _ there) d d' n text rfl

omit identifier in
/-- A statement that fails leaves a line that mentions nothing. -/
theorem tidy_failure (numbered : ∀ e ∈ made, ∃ d n, e.name = State.numbered stem d n)
    {line : String} (silent : (Wording.mentioning true stem []).Line line line) :
    Tidy stem ⟨[⟨id, line⟩], made.map (⟨id, true, ·⟩)⟩ := by
  have all : ∀ e ∈ made.map (Making.mk id true), ∃ d n, e.temporary.name = State.numbered stem d n := by
    intro e mem
    obtain ⟨e', there, rfl⟩ := List.mem_map.mp mem
    exact numbered e' there
  refine ⟨all, List.forall_mem_singleton.mpr ?_, fun e mem => ?_⟩
  · exact Mentions.line_mono (fun _ mem => absurd mem List.not_mem_nil) (fun _ => rfl) silent
  obtain ⟨d, n, name⟩ := all e mem
  have failed : e.failed := by
    obtain ⟨e', there, rfl⟩ := List.mem_map.mp mem
    rfl
  unfold Places
  rw [if_pos failed, name]
  exact List.forall_mem_singleton.mpr fun mentioned => nomatch Mentions.mem_of_line silent mentioned

end

end Trace

end MatrixScript
