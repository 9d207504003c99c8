/-
# `Proofs.Program.Roundtrip` — parsing undoes printing

A canonical program is what the parser reads from its text, whatever the
layout, and the tree of the text is the tree of the program.  What the parser
turns down by itself has to be left out: statements that start with `end` or
with a word of control flow.
-/
import MatrixScript.Proofs.Program.Lexical
import MatrixScript.Proofs.Program.Position
import MatrixScript.Proofs.Program.Statements
import MatrixScript.Tree.OfProgram

namespace MatrixScript

/-- A list of tokens that look like the words of a canonical program is that program. -/
theorem Program.ofTokens_words [Layout] {p : Program} (canonical : p.Canonical)
    (opens : p.Opens) : Program.ofTokens p.words = .ok p := by
  have run : Parser.program (Cursor.start p.words) = .ok (p, ⟨[], []⟩) :=
    Parser.program_run canonical opens
  rw [Program.ofTokens, run]

/-- Parsing undoes printing. -/
theorem parse_text (layout : Layout) {p : Program} (canonical : p.Canonical) (opens : p.Opens) :
    Program.parse p.text = .ok p ∧ Tree.parse p.text = .ok (Tree.ofProgram p) := by
  obtain ⟨ts, tokens, looks⟩ :=
    Token.tokensFrom_words p.words none 0 (lexical_program canonical)
  have tokenized : Token.tokenize p.text = .ok ts := by
    rw [Token.tokenize, Program.text, String.toList_ofList]
    exact tokens
  have program : Program.parse p.text = .ok p := by
    rw [Program.parse, tokenized]
    exact Program.ofTokens_alike looks (Program.ofTokens_words canonical opens)
  refine ⟨program, ?_⟩
  rw [Tree.parse, program]

/-- The minus of `-a ^ 2` is outside of the power, and the sum outside of both. -/
theorem parse_text_sum :
    Program.parse "x = -a ^ 2 + b .'\n" = .ok [.statement (.assign (.variable "x")
      (.chain .add (.sign .neg (.chain .pow (.name "a") (.literal .int "2") []))
        (.transpose .plain (.name "b")) []))] := by
  have square : (Expr.chain .pow (.name "a") (.literal .int "2") []).Canonical :=
    .chain (.name (by decide)) (by decide) (by simp [Expr.chainOp?])
      (by simpa using .literal (by decide)) (by simp [ChainOp.Takes, ChainOp.level, Expr.withoutMinus, Expr.level])
  have minus : (Expr.sign .neg (.chain .pow (.name "a") (.literal .int "2") [])).Canonical :=
    .sign square (by simp [Expr.level, ChainOp.level])
  have turned : (Expr.transpose .plain (.name "b")).Canonical :=
    .transpose (.name (by decide)) (by simp [Expr.level])
  have sum : (Expr.chain .add (.sign .neg (.chain .pow (.name "a") (.literal .int "2") []))
      (.transpose .plain (.name "b")) []).Canonical :=
    .chain minus (by simp [Expr.level, ChainOp.level]) (by simp [Expr.chainOp?])
      (by simpa using turned) (by simp [ChainOp.Takes, ChainOp.level, Expr.level])
  have text : @Program.text ⟨true⟩ [.statement (.assign (.variable "x")
      (.chain .add (.sign .neg (.chain .pow (.name "a") (.literal .int "2") []))
        (.transpose .plain (.name "b")) []))] = "x = -a ^ 2 + b .'\n" := by decide
  rw [← text]
  refine (parse_text ⟨true⟩ ?_ ?_).1
  · intro i mem
    obtain rfl := List.mem_singleton.mp mem
    exact ⟨(by decide : isName "x"), sum⟩
  · intro i mem
    obtain rfl := List.mem_singleton.mp mem
    exact ⟨by simp, by decide⟩

/-- A statement that starts with `end` is canonical and yet turned down. -/
theorem parse_text_end :
    Program.Canonical [.statement (.expression .last)] ∧
      @Program.text ⟨true⟩ [.statement (.expression .last)] = "end\n" ∧
      Program.parse "end\n"
        = .error (.parser "Unexpected 'end', found 'end' at position 0") := by
  refine ⟨?_, by decide, ?_⟩
  · intro i mem
    obtain rfl := List.mem_singleton.mp mem
    exact .last
  · cbv

end MatrixScript
