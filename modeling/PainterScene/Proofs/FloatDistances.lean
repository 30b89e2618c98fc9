import Mathlib
import PainterScene.Geometry.Vector
import PainterScene.Scalar.Stored

/-!
# Squared distances in floating point

Floating-point arithmetic keeps few laws, but squared distances keep two. A difference changes only
its sign with the order of its operands, zeros and infinities included, so a squared distance is the
same from both ends. The squared distance of finite positions may overflow and is still a number, so
it is either within a bound or beyond it.
-/

namespace PainterScene

namespace Binary64

open Float.Model

/-! ### Comparisons -/

section Comparisons

/-- The sign, mantissa and exponent of a finite value, or which other value it is. -/
def unpacked (x : Float) : UnpackedFloat :=
  x.toModel.unpack

theorem isNaN_eq_false_iff {x : Float} : x.isNaN = false ↔ unpacked x ≠ .notANumber := by
  change (unpacked x).isNaN = false ↔ _
  cases unpacked x <;> simp [UnpackedFloat.isNaN]

theorem lt_iff {x y : Float} : x < y ↔ (unpacked x).compare (unpacked y) = some .lt := by
  change decide ((unpacked x).lt (unpacked y) = true) = true ↔ _
  rw [decide_eq_true_iff, UnpackedFloat.lt, beq_iff_eq]

theorem le_iff {x y : Float} :
    x ≤ y ↔ ∃ o, (unpacked x).compare (unpacked y) = some o ∧ o.isLE := by
  change decide ((unpacked x).le (unpacked y) = true) = true ↔ _
  rw [decide_eq_true_iff, UnpackedFloat.le, Option.any_eq_true]

theorem compare_swap (a b : UnpackedFloat) : (a.compare b).map Ordering.swap = b.compare a := by
  rcases a with (_ | _) | _ | _ | ⟨_ | _, m, e, hm⟩ <;>
    rcases b with (_ | _) | _ | _ | ⟨_ | _, n, f, hn⟩ <;>
    simp [UnpackedFloat.compare, Ordering.swap_then, Int.compare_swap, Nat.compare_swap]
  -- two infinities are left
  all_goals rfl

theorem isSome_compare {a b : UnpackedFloat} (ha : a ≠ .notANumber) (hb : b ≠ .notANumber) :
    (a.compare b).isSome := by
  rcases a with (_ | _) | _ | _ | ⟨_ | _, m, e, hm⟩ <;>
    rcases b with (_ | _) | _ | _ | ⟨_ | _, n, f, hn⟩ <;>
    simp_all [UnpackedFloat.compare]

theorem not_le_of_lt {x y : Float} (hlt : x < y) : ¬ y ≤ x := by
  intro hle
  obtain ⟨o, ho, hisLE⟩ := le_iff.mp hle
  rw [← compare_swap, lt_iff.mp hlt, Option.map_some, Option.some.injEq] at ho
  subst ho
  cases hisLE

theorem lt_of_not_le {x y : Float} (hx : x.isNaN = false) (hy : y.isNaN = false)
    (hle : ¬ x ≤ y) : y < x := by
  obtain ⟨o, ho⟩ := Option.isSome_iff_exists.mp
    (isSome_compare (isNaN_eq_false_iff.mp hx) (isNaN_eq_false_iff.mp hy))
  have hgt : o = .gt := by
    cases o with
    | lt => exact absurd (le_iff.mpr ⟨_, ho, rfl⟩) hle
    | eq => exact absurd (le_iff.mpr ⟨_, ho, rfl⟩) hle
    | gt => rfl
  rw [lt_iff, ← compare_swap, ho, hgt]
  rfl

end Comparisons

/-! ### Operations before rounding into the format -/

section Unpacked

variable {spec : Format}

def sign : UnpackedFloat → UnpackedFloat.Sign
  | .infinity s | .zero s | .finite s _ _ _ => s
  | .notANumber => .positive

theorem ne_notANumber_of_isFinite {a : UnpackedFloat} (ha : a.isFinite = true) :
    a ≠ .notANumber := by
  rintro rfl
  cases ha

theorem isFinite_roundWithAccuracy (s : UnpackedFloat.Sign) (m : Nat) (e : Int)
    (accuracy : UnpackedFloat.Accuracy) :
    (UnpackedFloat.roundWithAccuracy spec s m e accuracy).isFinite = true := by
  simp only [UnpackedFloat.roundWithAccuracy]
  split <;> rfl

theorem sign_roundWithAccuracy (s : UnpackedFloat.Sign) (m : Nat) (e : Int)
    (accuracy : UnpackedFloat.Accuracy) :
    sign (UnpackedFloat.roundWithAccuracy spec s m e accuracy) = s := by
  simp only [UnpackedFloat.roundWithAccuracy]
  split <;> rfl

theorem isFinite_normalize (m e : Int) (s : UnpackedFloat.Sign) :
    (UnpackedFloat.normalize spec m e s).isFinite = true := by
  rw [UnpackedFloat.normalize]
  split
  · exact isFinite_roundWithAccuracy .negative _ _ .exact
  · rfl
  · exact isFinite_roundWithAccuracy .positive _ _ .exact

theorem abs_round (s : UnpackedFloat.Sign) (m : Nat) (e : Int) :
    (UnpackedFloat.round spec s m e).abs = (UnpackedFloat.round spec .positive m e).abs := by
  simp only [UnpackedFloat.round, UnpackedFloat.roundWithAccuracy]
  split <;> rfl

theorem abs_normalize_neg (m e : Int) (s : UnpackedFloat.Sign) :
    (UnpackedFloat.normalize spec (-m) e s).abs = (UnpackedFloat.normalize spec m e s).abs := by
  rw [UnpackedFloat.normalize, UnpackedFloat.normalize]
  obtain hm | rfl | hm := lt_trichotomy m 0
  · rw [Int.compare_eq_gt.mpr (Int.neg_pos.mpr hm), Int.compare_eq_lt.mpr hm]
    exact (abs_round .negative (-m).toNat e).symm
  · rfl
  · rw [Int.compare_eq_lt.mpr (Int.neg_neg_iff_pos.mpr hm), Int.compare_eq_gt.mpr hm, neg_neg]
    exact abs_round .negative m.toNat e

/-- The order of the operands only changes the sign of a difference. -/
theorem abs_sub_comm (a b : UnpackedFloat) :
    (UnpackedFloat.sub spec a b).abs = (UnpackedFloat.sub spec b a).abs := by
  cases a with
  | notANumber => cases b <;> rfl
  | infinity s =>
      cases b with
      | infinity t => cases s <;> cases t <;> rfl
      | _ => rfl
  | zero s =>
      cases b with
      | zero t => cases s <;> cases t <;> rfl
      | _ => rfl
  | finite s m e hm =>
      cases b with
      | finite t n f hn =>
          -- the exact differences are opposite, and rounding does not look at the sign
          rw [UnpackedFloat.sub, UnpackedFloat.sub, min_comm f e, ← abs_normalize_neg, Int.neg_sub]
      | _ => rfl

theorem sub_ne_notANumber (spec : Format) {a b : UnpackedFloat} (ha : a.isFinite = true)
    (hb : b.isFinite = true) : UnpackedFloat.sub spec a b ≠ .notANumber := by
  refine ne_notANumber_of_isFinite ?_
  cases a with
  | notANumber | infinity => cases ha
  | zero s =>
      cases b with
      | notANumber | infinity => cases hb
      | zero t => cases s <;> cases t <;> rfl
      | finite => rfl
  | finite =>
      cases b with
      | notANumber | infinity => cases hb
      | zero => rfl
      | finite => exact isFinite_normalize _ _ _

theorem mul_self_abs (a : UnpackedFloat) :
    UnpackedFloat.mul spec a.abs a.abs = UnpackedFloat.mul spec a a := by
  rcases a with (_ | _) | _ | (_ | _) | ⟨_ | _, m, e, hm⟩ <;> rfl

theorem mul_self_ne_notANumber (spec : Format) {a : UnpackedFloat} (ha : a ≠ .notANumber) :
    UnpackedFloat.mul spec a a ≠ .notANumber := by
  cases a with
  | notANumber => exact absurd rfl ha
  | infinity | zero => nofun
  | finite => exact ne_notANumber_of_isFinite (isFinite_roundWithAccuracy _ _ _ _)

theorem sign_mul_self (a : UnpackedFloat) : sign (UnpackedFloat.mul spec a a) = .positive := by
  have hsquare (s : UnpackedFloat.Sign) : s * s = .positive := by cases s <;> rfl
  cases a with
  | notANumber => rfl
  | infinity s | zero s => exact hsquare s
  | finite s => exact (sign_roundWithAccuracy _ _ _ _).trans (hsquare s)

theorem add_ne_notANumber (spec : Format) {a b : UnpackedFloat} (ha : a ≠ .notANumber)
    (hb : b ≠ .notANumber) (hsign : sign a = sign b) :
    UnpackedFloat.add spec a b ≠ .notANumber := by
  cases a with
  | notANumber => exact absurd rfl ha
  | infinity s =>
      cases b with
      | notANumber => exact absurd rfl hb
      | infinity t =>
          obtain rfl : s = t := hsign
          cases s <;> nofun
      | zero | finite => nofun
  | zero s =>
      cases b with
      | notANumber => exact absurd rfl hb
      | zero t => cases s <;> cases t <;> nofun
      | infinity | finite => nofun
  | finite =>
      cases b with
      | notANumber => exact absurd rfl hb
      | infinity | zero => nofun
      | finite => exact ne_notANumber_of_isFinite (isFinite_normalize _ _ _)

end Unpacked

/-! ### Packing -/

section Packing

variable {spec : Format}

theorem unpackSign_packComponents (s : UnpackedFloat.Sign) (e : BitVec spec.exponentBits)
    (m : BitVec spec.mantissaBitsWithoutImplicit) :
    UnpackedFloat.unpackSign (UnpackedFloat.packComponents spec s e m) = s.toBitVec := by
  ext i hi
  obtain rfl : i = 0 := by omega
  simp [UnpackedFloat.unpackSign, UnpackedFloat.packComponents, BitVec.getLsbD_append,
    BitVec.getElem_append]

theorem ofBitVec_toBitVec (s : UnpackedFloat.Sign) :
    UnpackedFloat.Sign.ofBitVec s.toBitVec = s := by
  cases s <;> rfl

theorem ofNat_ne_neg_one {w n : Nat} (hn : n + 1 < 2 ^ w) : BitVec.ofNat w n ≠ -1#w := by
  intro hones
  have hnat := congrArg BitVec.toNat hones
  rw [BitVec.neg_one_eq_allOnes, BitVec.toNat_allOnes, BitVec.toNat_ofNat,
    Nat.mod_eq_of_lt (by omega)] at hnat
  omega

/-- A number is packed as its sign and components of its magnitude, which are not those of the
pattern that is no number. -/
theorem exists_pack_eq (spec : Format) {a : UnpackedFloat} (ha : a ≠ .notANumber) :
    ∃ e m, UnpackedFloat.pack spec a = UnpackedFloat.packComponents spec (sign a) e m ∧
      UnpackedFloat.pack spec a.abs = UnpackedFloat.packComponents spec .positive e m ∧
      (e = -1#_ → m = 0#_) := by
  cases a with
  | notANumber => exact absurd rfl ha
  | infinity s => exact ⟨-1#_, 0#_, rfl, rfl, fun _ => rfl⟩
  | zero s => exact ⟨0#_, 0#_, rfl, rfl, fun _ => rfl⟩
  | finite s m e hm =>
      simp only [UnpackedFloat.pack, UnpackedFloat.abs, sign]
      split
      · exact ⟨-1#_, 0#_, rfl, rfl, fun _ => rfl⟩
      split
      · rename_i hfits _
        exact ⟨_, _, rfl, rfl, fun hones => absurd hones (ofNat_ne_neg_one (not_le.mp hfits))⟩
      · have hzero : 0 + 1 < 2 ^ spec.exponentBits := Nat.one_lt_two_pow spec.he.ne'
        exact ⟨_, _, rfl, rfl, fun hones => absurd hones (ofNat_ne_neg_one hzero)⟩

theorem abs_unpack_packComponents (s : UnpackedFloat.Sign) (e : BitVec spec.exponentBits)
    (m : BitVec spec.mantissaBitsWithoutImplicit) :
    (UnpackedFloat.unpack spec (UnpackedFloat.packComponents spec s e m)).abs =
      (UnpackedFloat.unpack spec (UnpackedFloat.packComponents spec .positive e m)).abs := by
  simp only [UnpackedFloat.unpack, UnpackedFloat.unpackExponent_packComponents,
    UnpackedFloat.unpackMantissa_packComponents]
  split_ifs <;> rfl

theorem sign_unpack_packComponents (s : UnpackedFloat.Sign) {e : BitVec spec.exponentBits}
    {m : BitVec spec.mantissaBitsWithoutImplicit} (hnumber : e = -1#_ → m = 0#_) :
    UnpackedFloat.unpack spec (UnpackedFloat.packComponents spec s e m) ≠ .notANumber ∧
      sign (UnpackedFloat.unpack spec (UnpackedFloat.packComponents spec s e m)) = s := by
  simp only [UnpackedFloat.unpack, UnpackedFloat.unpackExponent_packComponents,
    UnpackedFloat.unpackMantissa_packComponents, unpackSign_packComponents, ofBitVec_toBitVec]
  split_ifs with hones hzero
  · exact ⟨nofun, rfl⟩
  · exact absurd (hnumber hones) hzero
  all_goals exact ⟨nofun, rfl⟩

end Packing

/-! ### Squared distances -/

/-- What is left of a result once it is stored. -/
def stored (a : UnpackedFloat) : UnpackedFloat :=
  (pack a).unpack

theorem stored_eq (a : UnpackedFloat) :
    stored a = UnpackedFloat.unpack .binary64 (UnpackedFloat.pack .binary64 a) := rfl

theorem unpacked_add (x y : Float) :
    unpacked (x + y) = stored (UnpackedFloat.add .binary64 (unpacked x) (unpacked y)) := rfl

theorem unpacked_sub (x y : Float) :
    unpacked (x - y) = stored (UnpackedFloat.sub .binary64 (unpacked x) (unpacked y)) := rfl

theorem unpacked_mul (x y : Float) :
    unpacked (x * y) = stored (UnpackedFloat.mul .binary64 (unpacked x) (unpacked y)) := rfl

theorem abs_stored (a : UnpackedFloat) : (stored a).abs = (stored a.abs).abs := by
  by_cases ha : a = .notANumber
  · rw [ha]
    rfl
  · obtain ⟨e, m, hpack, habs, -⟩ := exists_pack_eq .binary64 ha
    rw [stored_eq, stored_eq, hpack, habs]
    exact abs_unpack_packComponents (sign a) e m

theorem sign_stored {a : UnpackedFloat} (ha : a ≠ .notANumber) :
    stored a ≠ .notANumber ∧ sign (stored a) = sign a := by
  obtain ⟨e, m, hpack, -, hnumber⟩ := exists_pack_eq .binary64 ha
  rw [stored_eq, hpack]
  exact sign_unpack_packComponents (sign a) hnumber

theorem mul_self_eq_of_abs_eq {x y : Float} (habs : (unpacked x).abs = (unpacked y).abs) :
    x * x = y * y := by
  change Float.ofModel (pack (UnpackedFloat.mul .binary64 (unpacked x) (unpacked x))) =
    Float.ofModel (pack (UnpackedFloat.mul .binary64 (unpacked y) (unpacked y)))
  rw [← mul_self_abs, habs, mul_self_abs]

/-- The sign of a difference is lost in its square, and nothing else depends on the order. -/
theorem sub_mul_self_comm (x y : Float) : (x - y) * (x - y) = (y - x) * (y - x) := by
  refine mul_self_eq_of_abs_eq ?_
  rw [unpacked_sub, unpacked_sub, abs_stored, abs_sub_comm, ← abs_stored]

/-- The square of a difference of finite values is a number, and its sign is positive. -/
theorem sub_mul_self_number {x y : Float} (hx : x.isFinite = true) (hy : y.isFinite = true) :
    unpacked ((x - y) * (x - y)) ≠ .notANumber ∧
      sign (unpacked ((x - y) * (x - y))) = .positive := by
  have hsub : unpacked (x - y) ≠ .notANumber := by
    rw [unpacked_sub]
    exact (sign_stored (sub_ne_notANumber .binary64 hx hy)).1
  rw [unpacked_mul]
  obtain ⟨hnumber, hsign⟩ := sign_stored (mul_self_ne_notANumber .binary64 hsub)
  exact ⟨hnumber, hsign.trans (sign_mul_self _)⟩

end Binary64

namespace Vec2

open Stored

variable {α : Type} [Stored α]

theorem toFloat_distSq (a b : Vec2 α) :
    toFloat (a.distSq b) = (toFloat b.x - toFloat a.x) * (toFloat b.x - toFloat a.x) +
      (toFloat b.y - toFloat a.y) * (toFloat b.y - toFloat a.y) := by
  change toFloat ((b.x - a.x) * (b.x - a.x) + (b.y - a.y) * (b.y - a.y)) = _
  rw [toFloat_add, toFloat_mul, toFloat_mul, toFloat_sub, toFloat_sub]

/-- The distance is symmetric to the last bit. -/
theorem toFloat_distSq_comm (a b : Vec2 α) : toFloat (a.distSq b) = toFloat (b.distSq a) := by
  rw [toFloat_distSq, toFloat_distSq, Binary64.sub_mul_self_comm (toFloat b.x),
    Binary64.sub_mul_self_comm (toFloat b.y)]

theorem distSq_le_comm (a b : Vec2 α) (bound : α) :
    a.distSq b ≤ bound ↔ b.distSq a ≤ bound := by
  rw [le_iff_toFloat_le (a.distSq b), le_iff_toFloat_le (b.distSq a), toFloat_distSq_comm]

theorem not_distSq_le_of_lt {a b : Vec2 α} {bound : α} (hlt : bound < a.distSq b) :
    ¬ a.distSq b ≤ bound := by
  rw [le_iff_toFloat_le]
  exact Binary64.not_le_of_lt ((lt_iff_toFloat_lt _ _).mp hlt)

/-- Between finite points the distance may be infinite, but it is a number. -/
theorem isNaN_distSq {a b : Vec2 α} (ha : a.isFinite = true) (hb : b.isFinite = true) :
    (toFloat (a.distSq b)).isNaN = false := by
  rw [isFinite, isFinite_eq, isFinite_eq, Bool.and_eq_true_iff] at ha hb
  obtain ⟨hx, hsignx⟩ := Binary64.sub_mul_self_number hb.1 ha.1
  obtain ⟨hy, hsigny⟩ := Binary64.sub_mul_self_number hb.2 ha.2
  rw [Binary64.isNaN_eq_false_iff, toFloat_distSq, Binary64.unpacked_add]
  -- two squares have the same sign, so not even infinite ones cancel
  have hsum := Binary64.add_ne_notANumber .binary64 hx hy (hsignx.trans hsigny.symm)
  exact (Binary64.sign_stored hsum).1

/-- The squared distance of finite positions is within a bound or beyond it. -/
theorem le_or_lt_distSq {bound : α} (hbound : (toFloat bound).isNaN = false) {a b : Vec2 α}
    (ha : a.isFinite = true) (hb : b.isFinite = true) :
    a.distSq b ≤ bound ∨ bound < a.distSq b := by
  rw [le_iff_toFloat_le, lt_iff_toFloat_lt]
  by_cases hle : toFloat (a.distSq b) ≤ toFloat bound
  · exact Or.inl hle
  · exact Or.inr (Binary64.lt_of_not_le (isNaN_distSq ha hb) hbound hle)

end Vec2

end PainterScene
