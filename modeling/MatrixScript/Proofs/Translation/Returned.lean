/-
# `Proofs.Translation.Returned` — what a function gives back

A function with one output returns it.  Where the script leaves the function, the rule looks for
the function around it, so the line is the one of the outputs (`Visit.Begins.lines_ret`).  At the
end the rule of the function adds that line unless the last line of the body starts with
`return`, whatever stands there: so the output is returned exactly if a last line that starts so
is the line itself, and not an assignment to `returned` (`Translator.functions_return`).
-/
import MatrixScript.Proofs.Translation.Applied
import MatrixScript.Proofs.Tree.Embeds

namespace MatrixScript

open Resolving Workspace

variable {t : Tree}

/-! ## The line that leaves a function -/

namespace Rule

variable {s : Site} {o : String} {outputs body : List String}

/-- The line that leaves a function of these outputs. -/
def leaving : List String → String
  | [output] => "return " ++ output ++ " ;"
  | _ => "return ;"

theorem ret_eq (around : outputsAround? s = some outputs) :
    ret s = s.keep (.fixed (leaving outputs)) := by
  rw [ret, around]
  unfold leaving
  split
  case h_1 output eq => rw [Option.some.inj eq]
  case h_2 several =>
    split
    case h_1 => exact absurd rfl (several _)
    case h_2 => rfl

/-- Nothing is returned at the end of a function of no output or several. -/
theorem closing_of_ne (several : outputs.length ≠ 1) : closing outputs body = [] := by
  unfold closing
  split
  · exact absurd rfl several
  · rfl

/-- The line is added to a body that ends otherwise. -/
theorem closing_singleton : closing [o] body
    = if body.getLast?.any (·.startsWith "return") then [] else [leaving [o]] := by
  unfold closing returning
  dsimp only
  split
  · rw [List.drop_length]
  · rw [List.drop_left]
    rfl

/-- The output is returned at the end exactly if a last line that starts like that is that. -/
theorem getLast?_closing (single : outputs.length = 1) :
    (body ++ closing outputs body).getLast? = some (leaving outputs)
      ↔ ∀ l ∈ body.getLast?, l.startsWith "return" → l = leaving outputs := by
  obtain ⟨o, rfl⟩ := List.length_eq_one_iff.mp single
  rw [closing_singleton]
  cases last : body.getLast? with
  | none => simp
  | some l =>
    simp only [Option.any_some, Option.mem_some_iff, forall_eq']
    by_cases starts : l.startsWith "return" = true
    · rw [if_pos starts, List.append_nil, last, Option.some_inj]
      exact ⟨fun eq _ => eq, fun eq => eq starts⟩
    · rw [if_neg starts, List.getLast?_concat]
      exact iff_of_true rfl fun other => absurd other starts

open Cpp in
theorem isLine_leaving {outputs : List String} (words : ∀ x ∈ outputs, ∀ c ∈ x.toList, Token.isWordRest c) :
    Text.IsLine (leaving outputs) := by
  unfold leaving
  split
  case h_1 output =>
    exact Piece.isLine (I := ⟨"", []⟩) (by decide) (phrase_return (words output (List.mem_singleton_self output)))
      (by simp)
  case h_2 => constructor <;> decide

end Rule

/-! ## Functions -/

namespace Tree

/-- The function around the statements in its body. -/
theorem WellFormed.enclosingFunction?_of_body (wf : t.WellFormed) {f b c : NodeId}
    (function : t.category f = .function) (up : t.parent? b = some f) (block : t.category b = .block)
    (mem : c ∈ t.children b) : t.enclosingFunction? c = some f := by
  have inner : ((t.node b).category == .function) = false := by
    rw [show (t.node b).category = .block from block]
    rfl
  have outer : ((t.node f).category == .function) = true := beq_iff_eq.mpr function
  rw [enclosingFunction?, wf.ancestors_of_parent? (wf.parent?_of_mem mem), wf.ancestors_of_parent? up,
    List.find?_cons, inner, List.find?_cons, outer]

end Tree

namespace Visit

variable (wf : t.WellFormed) {block : NodeId} {v : Visit}
include wf

/-- A function is left with its output, if it has just one. -/
theorem Begins.lines_ret (spelt : t.Spelt .words) {f p r : NodeId} (function : t.category f = .function)
    (ids : t.children f = [p, r, block]) (begins : v.Begins t block) (ret : t.category v.statement = .ret) :
    v.lines = [Rule.leaving (t.namesBelow r)] := by
  have lt : v.statement < t.size := wf.bound block v.statement begins.mem
  have body : block ∈ t.children f := by simp [ids]
  have output : r ∈ t.children f := by simp [ids]
  obtain ⟨p', r', b', ids', -, returns, -⟩ :=
    wf.children_function (wf.parent_lt (wf.parent?_of_mem body)) function
  obtain ⟨rfl, rfl, rfl⟩ : p' = p ∧ r' = r ∧ b' = block := by simpa using ids'.symm.trans ids
  obtain ⟨text, w, run⟩ := begins.exists_text wf fun refused => by
    rcases refused.category with other | other <;> rw [ret] at other <;> cases other
  obtain ⟨lines, -⟩ := lines_of_run run
  obtain ⟨s, o, applied⟩ := exists_applied wf lt (by rw [ret]; decide) (by rw [ret]; decide)
    (w := { v.found with state := v.found.state.withPending [] }) begins.bare begins.lawful run
  have around : Rule.outputsAround? s = some (t.namesBelow r') := by
    rw [Rule.outputsAround?, applied.here, Tree.enclosingFunction?_of_bare applied.bare,
      wf.enclosingFunction?_of_body function (wf.parent?_of_mem body) begins.kind begins.mem]
    dsimp only
    rw [Tree.child?, Tree.children_of_bare applied.bare, ids, ← Tree.children_of_bare applied.bare]
    exact congrArg some (Tree.namesBelow_of_bare applied.bare r')
  have ok : Rule.ret s = .ok o := applied.rule ret (by decide) (applied.straight (by rw [ret]; decide)) rfl
  rw [Rule.ret_eq around] at ok
  cases ok
  have leaf : t.children v.statement = [] := wf.children_eq_nil lt (by rw [ret]; exact fun _ => rfl)
  have pending : w.state.pending = [] := by
    rw [applied.state, List.foldl_nil, applied.leaf leaf]
    rfl
  have isLine := Rule.isLine_leaving (words_namesBelow spelt wf (wf.bound f r' output) (.inr returns))
  rw [lines, pending, applied.text]
  exact Text.lines_joined (List.forall_mem_singleton.mpr isLine)

/-- A function has its first line, those of the statements in its body and at most one more. -/
theorem Begins.exists_definition (begins : v.Begins t block) (function : t.category v.statement = .function)
    {p r b : NodeId} (ids : t.children v.statement = [p, r, b]) :
    let body := Text.lines (Text.joined "\n" (v.inner.flatMap (·.lines)))
    v.inner.map (·.statement) = t.children b ∧ ∃ head text above,
      text = Text.joined "\n" (head :: "\x7b" :: (body ++ Rule.closing (t.namesBelow r) body) ++ ["\x7d"])
      ∧ v.lines = above ++ Text.lines text := by
  intro body
  have same := begins.bare
  obtain ⟨text, w, run⟩ := begins.exists_text wf fun refused => by
    rcases refused.category with other | other <;> rw [function] at other <;> cases other
  obtain ⟨lines, -⟩ := lines_of_run run
  obtain ⟨depth, found, w₁, _, deep, results, applied, -⟩ := begins.exists_steps function run
  have leads := (steady_texts (w := { v.found with state := (v.found.state.withPending []).pushScope })
    (fun c mem => steady_resolveWithin wf depth (wf.bound v.statement c mem)) same begins.lawful).1
  rw [results] at leads
  have length := length_of_texts results
  rw [ids] at length
  obtain ⟨x, y, z, rfl⟩ := List.length_eq_three.mp length
  obtain ⟨whole, statements⟩ := begins.text_body wf function ids deep results
  have bare : (w₁.seed v.statement).tree.bare = t.bare :=
    (w₁.bare_seed v.statement).trans (leads.bare.trans same)
  obtain ⟨o, ok, written, -⟩ := outcome_of_run (by rw [Tree.children_of_bare (leads.bare.trans same), ids]; rfl)
    applied
  have operands : ((w₁.seed v.statement).site v.statement [x, y, z]).operands
      = [⟨p, (w₁.seed v.statement).tree.node p, x⟩, ⟨r, (w₁.seed v.statement).tree.node r, y⟩,
        ⟨b, (w₁.seed v.statement).tree.node b, z⟩] := by
    show (((w₁.seed v.statement).tree.children v.statement).zip _).map _ = _
    rw [Tree.children_of_bare bare, ids]
    rfl
  obtain ⟨o', ok', -, laid⟩ := Rule.function_eq operands
  have select : Rule.select (w₁.seed v.statement).tree ((w₁.seed v.statement).tree.node v.statement)
      = Rule.function := Rule.select_function ((congrFun (Tree.category_of_bare bare) _).trans function)
  rw [Workspace.answer, select, ok'] at ok
  cases ok
  have outputs : Rule.namesOf ((w₁.seed v.statement).site v.statement [x, y, z])
      ⟨r, (w₁.seed v.statement).tree.node r, y⟩ = t.namesBelow r := Tree.namesBelow_of_bare bare r
  rw [outputs] at laid
  have texts : body = Text.lines z := congrArg Text.lines whole.symm
  exact ⟨statements, _, text, w.state.pending, by rw [texts]; exact written.trans laid, lines⟩

end Visit

namespace Translator

/-- Where the script leaves a function, the line gives back its output, if it has just one.  At
the end that line stands too, unless the last line of the body is another one that starts with
`return`; without an output, or with several, nothing is added there. -/
theorem functions_return {source : String} (parsed : Tree.parse source = .ok t) {config : Config} {v : Visit}
    (mem : v ∈ Visit.all ⟨t, .ofConfig config⟩) (function : t.category v.statement = .function)
    {params returns body : NodeId} (ids : t.children v.statement = [params, returns, body]) :
    let outputs := t.namesBelow returns
    let lines := Text.lines (Text.joined "\n" (v.inner.flatMap (·.lines)))
    let closing := Rule.closing outputs lines
    v.inner.map (·.statement) = t.children body
      ∧ (∀ v' ∈ v.inner, t.category v'.statement = .ret → v'.lines = [Rule.leaving outputs])
      ∧ (∃ head text above, text = Text.joined "\n" (head :: "\x7b" :: (lines ++ closing) ++ ["\x7d"])
        ∧ v.lines = above ++ Text.lines text)
      ∧ (outputs.length = 1 → ((lines ++ closing).getLast? = some (Rule.leaving outputs)
        ↔ ∀ l ∈ lines.getLast?, l.startsWith "return" → l = Rule.leaving outputs))
      ∧ (outputs.length ≠ 1 → closing = []) := by
  intro outputs lines closing
  have wf := Tree.wellFormed_of_parsed parsed
  have spelt := (Tree.raw_of_parse parsed).spelt_words
  obtain ⟨block, begins⟩ := Visit.exists_begins parsed config v mem
  obtain ⟨statements, definition⟩ := begins.exists_definition wf function ids
  exact ⟨statements, fun v' inside ret =>
    (begins.inner wf function ids v' inside).lines_ret wf spelt function ids ret, definition,
    Rule.getLast?_closing, Rule.closing_of_ne⟩

/-- A function that is left in the middle of its body. -/
theorem functions_return_early : ∃ t, Tree.parse "function y = f(x)\nreturn\ny = x\nend\n" = .ok t
    ∧ ∃ v ∈ Visit.all ⟨t, .ofConfig {}⟩, t.category v.statement = .function
      ∧ v.lines = ["TYPE f(TYPE x)", "\x7b", "return y ;", "y = x ;", "return y ;", "\x7d"]
      ∧ ∃ v' ∈ v.inner, v'.lines = ["return y ;"] := by
  have visits : ∃ t, Tree.parse "function y = f(x)\nreturn\ny = x\nend\n" = .ok t
      ∧ ∃ v ∈ Visit.all ⟨t, .ofConfig {}⟩, t.category v.statement = .function
        ∧ v.lines = ["TYPE f(TYPE x)", "\x7b", "return y ;", "y = x ;", "return y ;", "\x7d"]
        ∧ t.children v.statement = [6, 7, 8] ∧ t.namesBelow 7 = ["y"]
        ∧ ∃ v' ∈ v.inner, t.category v'.statement = .ret := ⟨_, by cbv, by decide +kernel⟩
  obtain ⟨t, run, v, mem, function, lines, ids, outputs, v', inside, ret⟩ := visits
  obtain ⟨-, left, -⟩ := functions_return run mem function ids
  rw [outputs] at left
  exact ⟨t, run, v, mem, function, lines, v', inside, left v' inside ret⟩

/-- The last statement assigns to a variable whose name starts with `return`: the function has an
output, and does not return it. -/
theorem functions_return_not : ∃ t, Tree.parse "function y = f(x)\ny = x\nreturned = y\nend\n" = .ok t
    ∧ (∃ v ∈ Visit.all ⟨t, .ofConfig {}⟩, t.category v.statement = .function
      ∧ t.children v.statement = [8, 9, 10] ∧ t.namesBelow 9 = ["y"]
      ∧ v.lines = ["TYPE f(TYPE x)", "\x7b", "y = x ;", "returned = y ;", "\x7d"])
    ∧ ((⟨.ofConfig {}⟩ : Translator).translate t).1.diagnostics = [] :=
  ⟨_, by cbv, by decide +kernel⟩

end Translator

end MatrixScript
