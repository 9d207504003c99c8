/-
# `Text.Digits` — decimal digits

The value of a digit and of a string of them.  `digitsFrom_lt` bounds the
value by the length.
-/

namespace MatrixScript.Text

/-- Value of a decimal digit. -/
def digit (c : Char) : Nat := c.toNat - '0'.toNat

/-- Number that `n` becomes with more digits behind it. -/
def digitsFrom (n : Nat) (cs : List Char) : Nat := cs.foldl (fun n c => 10 * n + digit c) n

/-- Number of a digit string; the empty one is zero. -/
def digitsValue (cs : List Char) : Nat := digitsFrom 0 cs

/-- Number of a nonempty string of digits only. -/
def natural? (cs : List Char) : Option Nat :=
  if cs.isEmpty || !cs.all Char.isDigit then none else some (digitsValue cs)

theorem digit_le {c : Char} (h : c.isDigit = true) : digit c ≤ 9 := by
  simp only [Char.isDigit, Bool.and_eq_true, decide_eq_true_eq] at h
  have high : c.toNat ≤ '9'.toNat := h.2
  have nine : '9'.toNat = 57 := rfl
  have zero : '0'.toNat = 48 := rfl
  unfold digit
  omega

theorem digitsFrom_lt {n : Nat} {cs : List Char} (h : ∀ c ∈ cs, c.isDigit = true) :
    digitsFrom n cs < (n + 1) * Nat.pow 10 cs.length := by
  induction cs generalizing n with
  | nil => simp [digitsFrom]
  | cons c cs ih =>
      have hc := digit_le (h c (by simp))
      have step := ih (n := 10 * n + digit c) fun d hd => h d (by simp [hd])
      have grown : (10 * n + digit c + 1) * Nat.pow 10 cs.length
          ≤ (n + 1) * Nat.pow 10 (cs.length + 1) := by
        have power : Nat.pow 10 (cs.length + 1) = 10 * Nat.pow 10 cs.length := Nat.pow_succ'
        rw [power, ← Nat.mul_assoc]
        exact Nat.mul_le_mul_right _ (by omega)
      exact Nat.lt_of_lt_of_le step grown

end MatrixScript.Text
