/-
# `Json.Number` — how large a written number is

A number is held as a significand below `2 ^ 64` and a power of ten.  Digits
are taken while the significand has room: whole digits behind that only
count, and places behind it are dropped.  The value is the product of two
double-precision numbers, the one nearest to the significand and the one
nearest to the power of ten, rounded once more.  So it is that product, and
not the decimal as it stands, which decides whether a number is too large:
`1.7976931348623158e308` is.  `nearest_eq_self` says which integers are
double-precision numbers as they are, `nearest_near` how far the others move.
-/
import MatrixScript.Text.Digits

namespace MatrixScript.Json

/-! ## Integers in double precision -/

/-- Distance of the double-precision integers around `n`; a significand has 53 bits. -/
def spacing (n : Nat) : Nat := Nat.pow 2 (n.log2 - 52)

/-- The double-precision integer nearest to `n`; of two, the one with the even significand. -/
def nearest (n : Nat) : Nat :=
  let below := n / spacing n
  let beyond := 2 * (n % spacing n)
  if beyond < spacing n ∨ beyond = spacing n ∧ below % 2 = 0 then below * spacing n
  else (below + 1) * spacing n

theorem spacing_eq_one {n : Nat} (h : n < Nat.pow 2 53) : spacing n = 1 := by
  have bits : n.log2 ≤ 52 := by
    by_cases hn : n = 0
    · simp [hn]
    · have := (Nat.log2_lt hn).2 h
      omega
  simp [spacing, Nat.sub_eq_zero_of_le bits]

theorem nearest_eq_self {n : Nat} (h : n < Nat.pow 2 53) : nearest n = n := by
  simp [nearest, spacing_eq_one h, Nat.mod_one]

theorem nearest_near (n : Nat) :
    2 * nearest n ≤ 2 * n + spacing n ∧ 2 * n ≤ 2 * nearest n + spacing n := by
  have whole : spacing n * (n / spacing n) + n % spacing n = n := Nat.div_add_mod n (spacing n)
  have next : (n / spacing n + 1) * spacing n = spacing n * (n / spacing n) + spacing n := by
    rw [Nat.add_mul, Nat.one_mul, Nat.mul_comm]
  have same : n / spacing n * spacing n = spacing n * (n / spacing n) := Nat.mul_comm ..
  have room : n % spacing n < spacing n := Nat.mod_lt _ (Nat.two_pow_pos _)
  unfold nearest
  simp only [next, same]
  generalize spacing n * (n / spacing n) = below at *
  split
  · omega
  · omega

/-! ## Written numbers -/

/-- A significand times a power of ten. -/
structure Number where
  significand : Nat
  exponent : Int
deriving DecidableEq, Repr

namespace Number

/-- A significand has room for one more digit. -/
def hasRoom (significand : Nat) (c : Char) : Bool :=
  10 * significand + Text.digit c < Nat.pow 2 64

/-- Whole digits behind a significand; from the first without room on they only count. -/
def ofWhole (significand : Nat) : List Char → Number
  | [] => ⟨significand, 0⟩
  | c :: cs =>
      if hasRoom significand c then ofWhole (10 * significand + Text.digit c) cs
      else ⟨significand, cs.length + 1⟩

/-- Places behind a number; from the first without room on they are dropped. -/
def withPlaces (x : Number) : List Char → Number
  | [] => x
  | c :: cs =>
      if hasRoom x.significand c then
        withPlaces ⟨10 * x.significand + Text.digit c, x.exponent - 1⟩ cs
      else x

/-- The number of its whole digits, its places and its exponent. -/
def ofDigits (whole places : List Char) (exponent : Int) : Number :=
  let x := withPlaces (ofWhole 0 whole) places
  { x with exponent := x.exponent + exponent }

/-- Least integer that is rounded beyond the largest double-precision number. -/
def overflowBound : Nat := Nat.pow 2 1024 - Nat.pow 2 970

/-- The value of the number is beyond double precision. -/
def isTooLarge (x : Number) : Bool :=
  if x.significand = 0 then false
  else if 309 ≤ x.exponent then true
  else if x.exponent < 0 then false
  else overflowBound ≤ nearest x.significand * nearest (Nat.pow 10 x.exponent.toNat)

theorem ofWhole_lt {n : Nat} (h : n < Nat.pow 2 64) (cs : List Char) :
    (ofWhole n cs).significand < Nat.pow 2 64 := by
  induction cs generalizing n with
  | nil => exact h
  | cons c cs ih =>
      unfold ofWhole
      split
      · next room => exact ih (by simpa [hasRoom] using room)
      · exact h

theorem withPlaces_lt {x : Number} (h : x.significand < Nat.pow 2 64) (cs : List Char) :
    (x.withPlaces cs).significand < Nat.pow 2 64 := by
  induction cs generalizing x with
  | nil => exact h
  | cons c cs ih =>
      unfold withPlaces
      split
      · next room => exact ih (by simpa [hasRoom] using room)
      · exact h

/-- The significand of a written number has room in 64 bits. -/
theorem significand_ofDigits_lt (whole places : List Char) (exponent : Int) :
    (ofDigits whole places exponent).significand < Nat.pow 2 64 :=
  withPlaces_lt (ofWhole_lt (Nat.two_pow_pos 64) whole) places

end Number

end MatrixScript.Json
