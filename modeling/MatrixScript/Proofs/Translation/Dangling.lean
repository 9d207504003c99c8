/-
# `Proofs.Translation.Dangling` — temporaries that no line defines

Every temporary that is made is suggested for declaration, and stays so whatever becomes of its
statement.  The line that defines it is emitted with that statement: a statement that fails emits
its comment in place of all that it has hoisted.  So of the temporaries that are suggested exactly
those are defined whose innermost statement does not fail (`Translator.temporaries_defined`).
-/
import MatrixScript.Proofs.Translation.Placed
import MatrixScript.Proofs.Translation.Solid

namespace MatrixScript

open Text

/-! ## What is suggested -/

/-- Every temporary is suggested for declaration. -/
def State.Suggested (s : State) : Prop := ∀ e ∈ s.temporaries, s.suggestions.contains e.name

theorem NameTable.contains_insert_self {α : Type} (table : NameTable α) (x : String) (a : α) :
    (table.insert x a).contains x := by
  rw [contains, get?_insert, if_pos rfl]
  rfl

namespace State

/-- What is hoisted is suggested, under the name that it is made with. -/
theorem Suggested.hoist {s : State} (h : s.Suggested) (node : NodeId) (text : String) (d : Datatype) :
    (s.hoist node text d).Suggested := by
  unfold State.hoist
  split
  case h_1 =>
    split
    · exact h
    · exact h
  case h_2 =>
    refine List.forall_mem_append.mpr ⟨fun e mem => NameTable.contains_insert _ _ _ (h e mem), ?_⟩
    exact List.forall_mem_singleton.mpr (NameTable.contains_insert_self _ _ _)

theorem lasting_suggested : Lasting fun _ s => s.Suggested where
  perform {_ w} id e suggested := by
    cases hoisted : e.hoisted? with
    | none =>
      intro e' mem
      rw [(Workspace.Idle.perform id w hoisted).temporaries] at mem
      exact (Workspace.extends_perform id w e).suggested _ (suggested e' mem)
    | some =>
      cases e with
      | hoist node text d => exact suggested.hoist node text d
      | _ => cases hoisted
  pushScope suggested := suggested
  popScope {_ s} suggested := by
    unfold State.popScope
    split <;> exact suggested
  opened suggested := suggested
  closed suggested := suggested

end State

/-! ## What is defined -/

/-- Exactly one of the lines defines the temporary of this name. -/
def Trace.DefinedOnce (lines : List String) (name : String) : Prop :=
  ∃ before line after, lines = before ++ line :: after ∧ Defines name line
    ∧ ∀ l ∈ before ++ after, ¬Defines name l

namespace Trace

variable {stem : String} {r : Trace} {e : Making}

/-- In a tidy trace a temporary is defined once, or by no line if its statement fails. -/
theorem Tidy.definedOnce_iff (h : Tidy stem r) (identifier : isIdentifier stem) (mem : e ∈ r.made) :
    (DefinedOnce (r.lines.map (·.text)) e.temporary.name ↔ e.failed = false)
      ∧ (e.failed → ∀ l ∈ r.lines.map (·.text), ¬Defines e.temporary.name l) := by
  obtain ⟨d, n, name⟩ := h.numbered e mem
  have places := h.places e mem
  unfold Places at places
  split at places
  case isTrue failed =>
    have none : ∀ l ∈ r.lines.map (·.text), ¬Defines e.temporary.name l :=
      List.forall_mem_map.mpr fun l mem => not_defines_of_not_mem identifier name (places l mem)
    refine ⟨⟨?_, fun done => by rw [failed] at done; cases done⟩, fun _ => none⟩
    rintro ⟨before, line, after, lines, defines, -⟩
    exact absurd defines (none line (by rw [lines]; exact List.mem_append_right _ List.mem_cons_self))
  case isFalse done =>
    obtain ⟨before, line, after, lines, defines, front, back⟩ := places
    refine ⟨⟨fun _ => Bool.eq_false_iff.mpr done, fun _ => ?_⟩, fun failed => absurd failed done⟩
    refine ⟨before.map (·.text), line, after.map (·.text), ?_, defines, ?_⟩
    · rw [lines, List.map_append, List.map_cons]
    · rw [← List.map_append]
      refine List.forall_mem_map.mpr (List.forall_mem_append.mpr ⟨fun l mem => ?_, fun l mem => ?_⟩)
      · exact not_defines_of_not_mem identifier name (front l mem)
      · exact (back l mem).1

end Trace

namespace Translator

open Resolving Workspace

/-- Every temporary is suggested.  It is defined by exactly one line if its innermost statement
does not fail, and by none if it does. -/
theorem temporaries_defined {source : String} {t : Tree} (parsed : Tree.parse source = .ok t)
    {config : Config} (identifier : isIdentifier config.tempStem)
    (distinct : ∀ x ∈ t.identifiers, Distinct config.tempStem x) :
    let start : Workspace := ⟨t, .ofConfig config⟩
    let unit := ((⟨.ofConfig config⟩ : Translator).translate t).1
    (traceRoot start).made.map (·.temporary) = (rootLines start).2.state.temporaries
      ∧ ∀ e ∈ (traceRoot start).made, unit.suggestions.contains e.temporary.name
        ∧ (Trace.DefinedOnce unit.statements e.temporary.name ↔ e.failed = false)
        ∧ (e.failed → ∀ l ∈ unit.statements, ¬Trace.Defines e.temporary.name l) := by
  intro start unit
  have traced := traced_rootLines parsed identifier distinct
  have temporaries : (rootLines start).2.state.temporaries
      = (traceRoot start).made.map (·.temporary) := traced.temporaries
  have suggested : (rootLines start).2.state.Suggested := by
    have wf := Tree.wellFormed_of_parsed parsed
    obtain ⟨root, top, -⟩ := wf.root
    rw [rootLines_eq wf top (w := start) rfl]
    exact maintains_blockLines State.lasting_suggested
      (maintains_resolveWithin State.lasting_suggested _) [] (by exact nofun)
  refine ⟨temporaries.symm, fun e mem => ⟨?_, ?_⟩⟩
  · refine suggested e.temporary ?_
    rw [temporaries]
    exact List.mem_map_of_mem mem
  · have defined := traced.tidy.definedOnce_iff identifier mem
    rw [traced.lines] at defined
    exact defined

/-- A statement that fails after its argument is hoisted, and one that does not. -/
theorem temporaries_defined_sizes : ∃ t,
    Tree.parse "size = f(size(A))\ny = f(size(A))\n" = .ok t
    ∧ isIdentifier "_aux" ∧ (∀ x ∈ t.identifiers, Distinct "_aux" x)
    ∧ let config : Config := { declarations := ⟨[("A", ⟨.matrix, .float⟩)]⟩ }
      let start : Workspace := ⟨t, .ofConfig config⟩
      let unit := ((⟨.ofConfig config⟩ : Translator).translate t).1
      (traceRoot start).made.map (fun e => (e.temporary.name, e.failed))
          = [("_aux_urowvec_1", true), ("_aux_urowvec_2", false)]
        ∧ (traceRoot start).made.map (·.temporary) = (rootLines start).2.state.temporaries
        ∧ ∀ e ∈ (traceRoot start).made, unit.suggestions.contains e.temporary.name
          ∧ (Trace.DefinedOnce unit.statements e.temporary.name ↔ e.failed = false)
          ∧ (e.failed → ∀ l ∈ unit.statements, ¬Trace.Defines e.temporary.name l) := by
  have parses : ∃ t, Tree.parse "size = f(size(A))\ny = f(size(A))\n" = .ok t
      ∧ t.identifiers = ["size", "f", "size", "A", "y", "f", "size", "A"]
      ∧ (traceRoot ⟨t, .ofConfig { declarations := ⟨[("A", ⟨.matrix, .float⟩)]⟩ }⟩).made.map
          (fun e => (e.temporary.name, e.failed))
        = [("_aux_urowvec_1", true), ("_aux_urowvec_2", false)] :=
    ⟨_, by cbv, by cbv, by decide +kernel⟩
  obtain ⟨t, run, names, made⟩ := parses
  have apart : ∀ x ∈ t.identifiers, Apart "_aux" x := by
    rw [names]
    decide
  have distinct : ∀ x ∈ t.identifiers, Distinct "_aux" x := fun x mem => (apart x mem).distinct
  exact ⟨t, run, rfl, distinct, made, temporaries_defined run rfl distinct⟩

/-- The temporary of a statement that fails is still suggested, and no line defines it. -/
theorem temporaries_defined_not : ∃ t, Tree.parse "size = f(size(A))\n" = .ok t
    ∧ let config : Config := { declarations := ⟨[("A", ⟨.matrix, .float⟩)]⟩ }
      let unit := ((⟨.ofConfig config⟩ : Translator).translate t).1
      (rootLines ⟨t, .ofConfig config⟩).2.state.temporaries.map (·.name) = ["_aux_urowvec_1"]
      ∧ unit.suggestions.names = ["_aux_urowvec_1"]
      ∧ unit.statements
        = ["// error: Variable name 'size' is reserved, please rename the variable"]
      ∧ ¬Trace.DefinedOnce unit.statements "_aux_urowvec_1" := by
  have emits : ∃ t, Tree.parse "size = f(size(A))\n" = .ok t
      ∧ let config : Config := { declarations := ⟨[("A", ⟨.matrix, .float⟩)]⟩ }
        let unit := ((⟨.ofConfig config⟩ : Translator).translate t).1
        (rootLines ⟨t, .ofConfig config⟩).2.state.temporaries.map (·.name) = ["_aux_urowvec_1"]
        ∧ unit.suggestions.names = ["_aux_urowvec_1"]
        ∧ unit.statements
          = ["// error: Variable name 'size' is reserved, please rename the variable"] :=
    ⟨_, by cbv, by decide +kernel, by decide +kernel, by decide +kernel⟩
  obtain ⟨t, run, made, suggested, lines⟩ := emits
  refine ⟨t, run, made, suggested, lines, ?_⟩
  rintro ⟨before, line, after, shape, ⟨d, text, rfl⟩, -⟩
  rw [lines] at shape
  have there : State.definition "_aux_urowvec_1" text d
      ∈ ["// error: Variable name 'size' is reserved, please rename the variable"] := by
    rw [shape]
    exact List.mem_append_right _ List.mem_cons_self
  -- a definition starts with the name of a type
  have first := congrArg (fun s : String => s.toList.head?) (List.mem_singleton.mp there)
  obtain ⟨s, c⟩ := d
  cases s <;> cases c <;> simp [State.definition, Datatype.typeName] at first

end Translator

end MatrixScript
