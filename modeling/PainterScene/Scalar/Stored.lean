import PainterScene.Scalar

/-!
# Stored numbers

A machine stores a number as the bit pattern of a double. A number has one pattern. A value that is
not a number may have any of many, with either sign; arithmetic takes them all for the same, and the
order of painting does not. So a `Double` is a `Float` together with the pattern that it is stored
under if it is not a number.
-/

namespace PainterScene

/-- The patterns of values that are not numbers: beyond the infinity of their sign. -/
def IsNaNPattern (bits : UInt64) : Prop :=
  0x7ff0000000000000 < bits &&& 0x7fffffffffffffff

instance (bits : UInt64) : Decidable (IsNaNPattern bits) :=
  inferInstanceAs (Decidable (_ < _))

/-- Scalars that are stored as doubles. They are computed with as the floats that they stand for. The
pattern of a number is that of the float, and a value that is not a number has some pattern of such
values. -/
class Stored (α : Type) extends Scalar α where
  ofFloat : Float → α
  toFloat : α → Float
  toBits : α → UInt64
  toFloat_add : ∀ x y, toFloat (x + y) = toFloat x + toFloat y
  toFloat_sub : ∀ x y, toFloat (x - y) = toFloat x - toFloat y
  toFloat_mul : ∀ x y, toFloat (x * y) = toFloat x * toFloat y
  toFloat_div : ∀ x y, toFloat (x / y) = toFloat x / toFloat y
  toFloat_neg : ∀ x, toFloat (-x) = -toFloat x
  toFloat_ofScientific : ∀ mantissa sign exponent,
    toFloat (OfScientific.ofScientific mantissa sign exponent) =
      OfScientific.ofScientific mantissa sign exponent
  lt_iff_toFloat_lt : ∀ x y : α, x < y ↔ toFloat x < toFloat y
  le_iff_toFloat_le : ∀ x y : α, x ≤ y ↔ toFloat x ≤ toFloat y
  isFinite_eq : ∀ x, isFinite x = (toFloat x).isFinite
  toBits_of_number : ∀ x, (toFloat x).isNaN = false → toBits x = (toFloat x).toBits
  isNaNPattern_toBits : ∀ x, (toFloat x).isNaN = true → IsNaNPattern (toBits x)

def Stored.map {α : Type} [Stored α] (f : Float → Float) (x : α) : α :=
  ofFloat (f (toFloat x))

/-- What unpacks to no number has the largest exponent and a mantissa. -/
theorem exponent_eq_of_isNaN_unpack {spec : Float.Model.Format} {b : BitVec spec.numBits}
    (hb : (Float.Model.UnpackedFloat.unpack spec b).isNaN = true) :
    Float.Model.UnpackedFloat.unpackExponent b = -BitVec.ofNat _ 1 ∧
      Float.Model.UnpackedFloat.unpackMantissa b ≠ BitVec.ofNat _ 0 := by
  unfold Float.Model.UnpackedFloat.unpack at hb
  dsimp only at hb
  by_cases hexponent : Float.Model.UnpackedFloat.unpackExponent b = -BitVec.ofNat _ 1
  · refine ⟨hexponent, fun hmantissa => ?_⟩
    rw [if_pos hexponent, if_pos hmantissa] at hb
    cases hb
  · rw [if_neg hexponent] at hb
    by_cases hzero : Float.Model.UnpackedFloat.unpackExponent b = BitVec.ofNat _ 0
    · rw [if_pos hzero] at hb
      by_cases hmantissa :
          Float.Model.UnpackedFloat.unpackMantissa b = BitVec.ofNat _ 0
      · rw [dif_pos hmantissa] at hb
        cases hb
      · rw [dif_neg hmantissa] at hb
        cases hb
    · rw [if_neg hzero] at hb
      cases hb

theorem isNaNPattern_toBits_of_isNaN {x : Float} (hx : x.isNaN = true) :
    IsNaNPattern x.toBits := by
  have hunpacked : (Float.Model.UnpackedFloat.unpack Float.Model.Format.binary64
      x.toModel.toBits.toBitVec).isNaN = true := hx
  obtain ⟨hexponent, hmantissa⟩ := exponent_eq_of_isNaN_unpack hunpacked
  -- a float that is not a number has the one pattern that is valid for it
  have hbits : x.toModel.toBits.toBitVec =
      Float.Model.UnpackedFloat.packedNaN Float.Model.Format.binary64 :=
    x.toModel.valid.eq_packedNaN hexponent hmantissa
  have hpattern : x.toBits = 0x7ff8000000000000 := UInt64.toBitVec_inj.mp hbits
  rw [hpattern]
  decide

instance : Stored Float where
  ofFloat := id
  toFloat := id
  toBits := Float.toBits
  toFloat_add _ _ := rfl
  toFloat_sub _ _ := rfl
  toFloat_mul _ _ := rfl
  toFloat_div _ _ := rfl
  toFloat_neg _ := rfl
  toFloat_ofScientific _ _ _ := rfl
  lt_iff_toFloat_lt _ _ := Iff.rfl
  le_iff_toFloat_le _ _ := Iff.rfl
  isFinite_eq _ := rfl
  toBits_of_number _ _ := rfl
  isNaNPattern_toBits _ hx := isNaNPattern_toBits_of_isNaN hx

abbrev NaNPattern := { bits : UInt64 // IsNaNPattern bits }

namespace NaNPattern

def plain : NaNPattern :=
  ⟨0x7ff8000000000000, by decide⟩

/-- The pattern of a result that has no value, such as a quotient of zeros. -/
def indefinite : NaNPattern :=
  ⟨0xfff8000000000000, by decide⟩

/-- The pattern that an operation makes of the one of its operand: the bit that marks a signal is
cleared, by setting the first bit of the fraction. -/
def quiet (p : NaNPattern) : NaNPattern where
  val := p.val ||| 0x0008000000000000
  property := by
    have hp := UInt64.lt_iff_toNat_lt.mp p.property
    apply UInt64.lt_iff_toNat_lt.mpr
    rw [UInt64.toNat_and, UInt64.toNat_or, Nat.and_or_distrib_right]
    rw [UInt64.toNat_and] at hp
    exact Nat.lt_of_lt_of_le hp Nat.left_le_or

def negate (p : NaNPattern) : NaNPattern where
  val := p.val ^^^ 0x8000000000000000
  property := by
    have hp := UInt64.lt_iff_toNat_lt.mp p.property
    apply UInt64.lt_iff_toNat_lt.mpr
    rw [UInt64.toNat_and] at hp
    rw [UInt64.toNat_and, UInt64.toNat_xor, Nat.and_xor_distrib_right]
    exact Nat.lt_of_lt_of_eq hp (Nat.xor_zero _).symm

end NaNPattern

structure Double where
  value : Float
  nan : NaNPattern := .plain

namespace Double

/-- The result of an operation. If it is not a number, it has the pattern of the first operand that
is none either. -/
def result (a b : Double) (value : Float) : Double where
  value
  nan :=
    if a.value.isNaN then a.nan.quiet
    else if b.value.isNaN then b.nan.quiet
    else .indefinite

def ofBits (bits : UInt64) : Double :=
  if h : IsNaNPattern bits then ⟨Float.ofBits bits, ⟨bits, h⟩⟩ else ⟨Float.ofBits bits, .plain⟩

instance : Scalar Double where
  zero := ⟨0.0, .plain⟩
  one := ⟨1.0, .plain⟩
  add a b := result a b (a.value + b.value)
  sub a b := result a b (a.value - b.value)
  mul a b := result a b (a.value * b.value)
  div a b := result a b (a.value / b.value)
  neg a := ⟨-a.value, a.nan.negate⟩
  natCast n := ⟨Float.ofNat n, .plain⟩
  ofScientific mantissa sign exponent := ⟨OfScientific.ofScientific mantissa sign exponent, .plain⟩
  lt a b := a.value < b.value
  le a b := a.value ≤ b.value
  beq a b := a.value == b.value
  decidableLT a b := inferInstanceAs (Decidable (a.value < b.value))
  decidableLE a b := inferInstanceAs (Decidable (a.value ≤ b.value))
  isFinite a := a.value.isFinite

instance : Stored Double where
  ofFloat value := ⟨value, .plain⟩
  toFloat := value
  toBits a := if a.value.isNaN then a.nan.val else a.value.toBits
  toFloat_add _ _ := rfl
  toFloat_sub _ _ := rfl
  toFloat_mul _ _ := rfl
  toFloat_div _ _ := rfl
  toFloat_neg _ := rfl
  toFloat_ofScientific _ _ _ := rfl
  lt_iff_toFloat_lt _ _ := Iff.rfl
  le_iff_toFloat_le _ _ := Iff.rfl
  isFinite_eq _ := rfl
  toBits_of_number a ha := by rw [ha, if_neg Bool.false_ne_true]
  isNaNPattern_toBits a ha := by
    rw [ha, if_pos rfl]
    exact a.nan.property

end Double

end PainterScene
