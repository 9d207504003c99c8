/-
# `Proofs.Program.Step` — what the parser's primitives do to a cursor

A parser is run at a cursor.  The lemmas here move a run past its first
primitive; at a cursor whose next words are known `simp` then carries it out.
-/
import MatrixScript.Program.Parser

namespace MatrixScript

namespace Cursor

@[simp] theorem peek?_cons (w : Spanned) (ws : List Spanned) (gs : List Group) :
    peek? ⟨w :: ws, gs⟩ = some w.token := by simp [peek?]

@[simp] theorem peek?_nil (gs : List Group) : peek? ⟨[], gs⟩ = none := by simp [peek?]

@[simp] theorem step_cons (w : Spanned) (ws : List Spanned) (gs : List Group) :
    step ⟨w :: ws, gs⟩ = ⟨ws, gs⟩ := rfl

end Cursor

namespace Parser

variable {α β : Type}

theorem bind_run {p : Parser α} {f : α → Parser β} {c d : Cursor} {a : α}
    (h : p c = .ok (a, d)) : (p >>= f) c = f a d := by
  simp [bind, StateT.bind, h, Except.bind]

/-- What is read one after the other succeeds in both. -/
theorem exists_of_bind_run {p : Parser α} {f : α → Parser β} {c e : Cursor} {b : β}
    (run : (p >>= f) c = .ok (b, e)) : ∃ a d, p c = .ok (a, d) ∧ f a d = .ok (b, e) := by
  have run : ((p c).bind fun r => f r.1 r.2) = .ok (b, e) := run
  cases first : p c with
  | error => rw [first] at run; cases run
  | ok r =>
    rw [first] at run
    exact ⟨r.1, r.2, rfl, run⟩

@[simp] theorem pure_run (a : α) (c : Cursor) : (pure a : Parser α) c = .ok (a, c) := rfl

@[simp] theorem pure_bind_run (a : α) (f : α → Parser β) (c : Cursor) :
    ((pure a : Parser α) >>= f) c = f a c := rfl

@[simp] theorem get_bind_run (f : Cursor → Parser β) (c : Cursor) :
    ((get : Parser Cursor) >>= f) c = f c c := rfl

@[simp] theorem modify_bind_run (g : Cursor → Cursor) (f : PUnit → Parser β) (c : Cursor) :
    ((modify g : Parser PUnit) >>= f) c = f ⟨⟩ (g c) := rfl

@[simp] theorem peek?_bind_run (f : Option Token → Parser β) (c : Cursor) :
    (peek? >>= f) c = f c.peek? c := rfl

@[simp] theorem isAt_bind_run (t : Token) (f : Bool → Parser β) (c : Cursor) :
    (isAt t >>= f) c = f (c.peek? == some t) c := rfl

@[simp] theorem advance_bind_run (f : PUnit → Parser β) (c : Cursor) :
    (advance >>= f) c = f ⟨⟩ c.step := rfl

@[simp] theorem enter_bind_run (g : Group) (f : PUnit → Parser β) (c : Cursor) :
    (enter g >>= f) c = f ⟨⟩ { c with groups := g :: c.groups } := rfl

@[simp] theorem leave_bind_run (f : PUnit → Parser β) (c : Cursor) :
    (leave >>= f) c = f ⟨⟩ { c with groups := c.groups.tail } := rfl

@[simp] theorem remaining_bind_run (f : Nat → Parser β) (c : Cursor) :
    (remaining >>= f) c = f c.rest.length c := rfl

@[simp] theorem ite_run (b : Prop) [Decidable b] (p q : Parser α) (c : Cursor) :
    (if b then p else q) c = if b then p c else q c := by
  split <;> rfl

@[simp] theorem passing_run (e : Expr) (c : Cursor) : passing e c = .ok (e, c.step) := rfl

theorem expect_bind_run {t : Token} {w : Spanned} (h : w.token = t) (ws : List Spanned)
    (gs : List Group) (f : PUnit → Parser β) : (expect t >>= f) ⟨w :: ws, gs⟩ = f ⟨⟩ ⟨ws, gs⟩ := by
  refine bind_run ?_
  subst h
  simp [expect]
  rfl

theorem ident_bind_run {x : String} {w : Spanned} (h : w.token = .ident x) (ws : List Spanned)
    (gs : List Group) (f : String → Parser β) : (ident >>= f) ⟨w :: ws, gs⟩ = f x ⟨ws, gs⟩ := by
  refine bind_run ?_
  simp [ident, h, -bind_pure_comp]

end Parser

end MatrixScript
