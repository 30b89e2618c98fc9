import Mathlib
import PainterScene.Scalar

/-!
# Readings

A reading is a rational number or missing. Known readings are computed with exactly; what is
computed from a missing one is missing, and so is a quotient by zero. No comparison with a missing
reading holds.
-/

namespace PainterScene

inductive Reading
  | missing
  | known (value : ℚ)
deriving DecidableEq

namespace Reading

def value? : Reading → Option ℚ
  | missing => none
  | known q => some q

def combine (f : ℚ → ℚ → ℚ) : Reading → Reading → Reading
  | known a, known b => known (f a b)
  | _, _ => missing

def Relates (r : ℚ → ℚ → Prop) : Reading → Reading → Prop
  | known a, known b => r a b
  | _, _ => False

instance (r : ℚ → ℚ → Prop) [DecidableRel r] : DecidableRel (Relates r)
  | known a, known b => inferInstanceAs (Decidable (r a b))
  | missing, _ => inferInstanceAs (Decidable False)
  | known _, missing => inferInstanceAs (Decidable False)

instance : Scalar Reading where
  zero := known 0
  one := known 1
  add := combine (· + ·)
  sub := combine (· - ·)
  mul := combine (· * ·)
  div
    | known a, known b => if b = 0 then missing else known (a / b)
    | _, _ => missing
  neg
    | known a => known (-a)
    | missing => missing
  natCast n := known n
  ofScientific mantissa sign exponent := known (OfScientific.ofScientific mantissa sign exponent)
  lt := Relates (· < ·)
  le := Relates (· ≤ ·)
  beq a b := decide (Relates (· = ·) a b)
  decidableLT := inferInstanceAs (DecidableRel (Relates (· < ·)))
  decidableLE := inferInstanceAs (DecidableRel (Relates (· ≤ ·)))
  isFinite r := r.value?.isSome

theorem zero_eq : (0 : Reading) = known 0 :=
  rfl

theorem known_add (a b : ℚ) : known a + known b = known (a + b) :=
  rfl

theorem natCast_eq (n : Nat) : (n : Reading) = known n :=
  rfl

theorem known_div (a : ℚ) {b : ℚ} (hb : b ≠ 0) : known a / known b = known (a / b) :=
  if_neg hb

@[simp]
theorem isFinite_missing : Scalar.isFinite missing = false :=
  rfl

@[simp]
theorem isFinite_known (q : ℚ) : Scalar.isFinite (known q) = true :=
  rfl

end Reading

end PainterScene
