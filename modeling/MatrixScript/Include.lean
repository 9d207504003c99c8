/-
# `Include` — helpers that emitted code relies on

Routines and headers that have to be supplied together with the emitted
code.  A set of them is listed in the order of the definition.
-/

namespace MatrixScript

/-- A helper routine or header. -/
inductive Include where
  | length
  | span
  | uspan
  | hankel
  | fft
  | fftn
  | ifft
  | ifftn
  | nextpow2
  | math
deriving DecidableEq, Repr

namespace Include

/-- Every helper, in the order of the definition. -/
def list : List Include :=
  [.length, .span, .uspan, .hankel, .fft, .fftn, .ifft, .ifftn, .nextpow2, .math]

theorem mem_list (i : Include) : i ∈ list := by cases i <;> decide

/-- What emitted code calls the helper. -/
def helper : Include → String
  | .length => "m2cpp::length"
  | .span => "m2cpp::span"
  | .uspan => "m2cpp::uspan"
  | .hankel => "m2cpp::hankel"
  | .fft => "m2cpp::fft"
  | .fftn => "m2cpp::fftn"
  | .ifft => "m2cpp::ifft"
  | .ifftn => "m2cpp::ifftn"
  | .nextpow2 => "m2cpp::nextpow2"
  | .math => "<cmath>"

/-- Name of the helper in documents. -/
def code : Include → String
  | .length => "length"
  | .span => "span"
  | .uspan => "uspan"
  | .hankel => "hankel"
  | .fft => "fft"
  | .fftn => "fftn"
  | .ifft => "ifft"
  | .ifftn => "ifftn"
  | .nextpow2 => "nextpow2"
  | .math => "math"

/-- The helpers in use, each once and in the order of the definition. -/
def listed (used : List Include) : List Include := list.filter (used.contains ·)

theorem mem_listed {i : Include} {used : List Include} : i ∈ listed used ↔ i ∈ used := by
  simp [listed, mem_list]

end Include

end MatrixScript
