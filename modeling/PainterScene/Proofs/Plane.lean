import Mathlib
import PainterScene.Geometry.Polygon
import PainterScene.Scalar.Rational

/-!
# The rational plane

With exact arithmetic the vectors of the screen form a vector space over the rational numbers, and
a half-plane is given by an affine function on it. This file collects what clipping needs of that:
convex combinations, the point where a segment meets the boundary of a half-plane, and the turn of
three points, which is the affine function of the line through two of them.
-/

namespace PainterScene

namespace Scalar

theorem isNaN_eq_false (x : ℚ) : isNaN x = false := by
  simp [isNaN]

theorem min_eq (a b : ℚ) : Scalar.min a b = min a b := by
  simp only [Scalar.min, isNaN_eq_false, Bool.false_eq_true, or_false]
  split
  · rename_i hlt
    exact (min_eq_right hlt.le).symm
  · rename_i hle
    exact (min_eq_left (not_lt.mp hle)).symm

theorem max_eq (a b : ℚ) : Scalar.max a b = max a b := by
  simp only [Scalar.max, isNaN_eq_false, Bool.false_eq_true, or_false]
  split
  · rename_i hlt
    exact (max_eq_right hlt.le).symm
  · rename_i hle
    exact (max_eq_left (not_lt.mp hle)).symm

theorem abs_eq (x : ℚ) : Scalar.abs x = |x| := by
  unfold Scalar.abs
  split
  · rename_i hx
    rw [abs_of_nonpos hx, zero_sub]
  · rename_i hx
    rw [abs_of_pos (not_le.mp hx)]

theorem epsilon_pos : (0 : ℚ) < Scalar.epsilon := by
  norm_num [Scalar.epsilon]

theorem foldl_min_lt_iff {xs : List ℚ} {x b : ℚ} :
    xs.foldl Scalar.min x < b ↔ x < b ∨ ∃ y ∈ xs, y < b := by
  induction xs generalizing x with
  | nil => simp
  | cons y xs ih => simp [ih, min_eq, or_assoc]

theorem lt_foldl_max_iff {xs : List ℚ} {x b : ℚ} :
    b < xs.foldl Scalar.max x ↔ b < x ∨ ∃ y ∈ xs, b < y := by
  induction xs generalizing x with
  | nil => simp
  | cons y xs ih => simp [ih, max_eq, or_assoc]

theorem least_lt_iff_of_ne_nil {xs : List ℚ} {b : ℚ} (hne : xs ≠ []) :
    least xs < b ↔ ∃ x ∈ xs, x < b := by
  have hfilter : xs.filter (fun x => !isNaN x) = xs := by simp [isNaN_eq_false]
  obtain ⟨x, rest, rfl⟩ := List.exists_cons_of_ne_nil hne
  rw [least, hfilter]
  simp [foldl_min_lt_iff]

theorem lt_greatest_iff_of_ne_nil {xs : List ℚ} {b : ℚ} (hne : xs ≠ []) :
    b < greatest xs ↔ ∃ x ∈ xs, b < x := by
  have hfilter : xs.filter (fun x => !isNaN x) = xs := by simp [isNaN_eq_false]
  obtain ⟨x, rest, rfl⟩ := List.exists_cons_of_ne_nil hne
  rw [greatest, hfilter]
  simp [lt_foldl_max_iff]

/-- Of no values the least is 0, as division by zero gives 0 in the rational numbers; below a bound
that is not positive this makes no difference. -/
theorem least_lt_iff {xs : List ℚ} {b : ℚ} (hb : b ≤ 0) :
    least xs < b ↔ ∃ x ∈ xs, x < b := by
  cases xs with
  | nil => simpa [least, infinity] using hb
  | cons x xs => exact least_lt_iff_of_ne_nil (List.cons_ne_nil x xs)

theorem lt_greatest_iff {xs : List ℚ} {b : ℚ} (hb : 0 ≤ b) :
    b < greatest xs ↔ ∃ x ∈ xs, b < x := by
  cases xs with
  | nil => simpa [greatest, infinity] using hb
  | cons x xs => exact lt_greatest_iff_of_ne_nil (List.cons_ne_nil x xs)

theorem least_le {xs : List ℚ} {x : ℚ} (hx : x ∈ xs) : least xs ≤ x :=
  le_of_forall_gt fun _ hlt =>
    (least_lt_iff_of_ne_nil (List.ne_nil_of_mem hx)).mpr ⟨x, hx, hlt⟩

theorem le_greatest {xs : List ℚ} {x : ℚ} (hx : x ∈ xs) : x ≤ greatest xs :=
  le_of_forall_lt fun _ hlt =>
    (lt_greatest_iff_of_ne_nil (List.ne_nil_of_mem hx)).mpr ⟨x, hx, hlt⟩

end Scalar

namespace Vec2

instance : Zero (Vec2 ℚ) := ⟨⟨0, 0⟩⟩

instance : Neg (Vec2 ℚ) := ⟨fun a => ⟨-a.x, -a.y⟩⟩

instance : SMul ℚ (Vec2 ℚ) := ⟨fun t a => a.scale t⟩

@[simp] theorem zero_x : (0 : Vec2 ℚ).x = 0 := rfl

@[simp] theorem zero_y : (0 : Vec2 ℚ).y = 0 := rfl

@[simp] theorem neg_x (a : Vec2 ℚ) : (-a).x = -a.x := rfl

@[simp] theorem neg_y (a : Vec2 ℚ) : (-a).y = -a.y := rfl

@[simp] theorem add_x (a b : Vec2 ℚ) : (a + b).x = a.x + b.x := rfl

@[simp] theorem add_y (a b : Vec2 ℚ) : (a + b).y = a.y + b.y := rfl

@[simp] theorem sub_x (a b : Vec2 ℚ) : (a - b).x = a.x - b.x := rfl

@[simp] theorem sub_y (a b : Vec2 ℚ) : (a - b).y = a.y - b.y := rfl

@[simp] theorem smul_x (t : ℚ) (a : Vec2 ℚ) : (t • a).x = t * a.x := mul_comm a.x t

@[simp] theorem smul_y (t : ℚ) (a : Vec2 ℚ) : (t • a).y = t * a.y := mul_comm a.y t

instance : AddCommGroup (Vec2 ℚ) where
  add_assoc a b c := by ext <;> simp [add_assoc]
  zero_add a := by ext <;> simp
  add_zero a := by ext <;> simp
  neg_add_cancel a := by ext <;> simp
  add_comm a b := by ext <;> simp [add_comm]
  sub_eq_add_neg a b := by ext <;> simp [sub_eq_add_neg]
  nsmul := nsmulRec
  zsmul := zsmulRec

instance : Module ℚ (Vec2 ℚ) where
  one_smul a := by ext <;> simp
  mul_smul s t a := by ext <;> simp [mul_assoc]
  smul_zero t := by ext <;> simp
  smul_add t a b := by ext <;> simp [mul_add]
  add_smul s t a := by ext <;> simp [add_mul]
  zero_smul a := by ext <;> simp

theorem lerp_eq (a b : Vec2 ℚ) (t : ℚ) : a.lerp b t = (1 - t) • a + t • b := by
  ext <;> simp only [lerp, scale, add_x, add_y, sub_x, sub_y, smul_x, smul_y] <;> ring

/-- Twice the signed area of the triangle `a b c`, positive when it runs counter-clockwise. -/
def turn (a b c : Vec2 ℚ) : ℚ :=
  (b - a).cross (c - a)

theorem turn_eq (a b c : Vec2 ℚ) :
    turn a b c = (b.x - a.x) * (c.y - a.y) - (b.y - a.y) * (c.x - a.x) := rfl

theorem turn_rotate (a b c : Vec2 ℚ) : turn b c a = turn a b c := by
  simp only [turn_eq]
  ring

theorem turn_swap (a b c : Vec2 ℚ) : turn b a c = -turn a b c := by
  simp only [turn_eq]
  ring

theorem turn_swap_right (a b c : Vec2 ℚ) : turn a c b = -turn a b c := by
  simp only [turn_eq]
  ring

@[simp] theorem turn_self_left (a b : Vec2 ℚ) : turn a a b = 0 := by
  simp [turn_eq]

@[simp] theorem turn_self_right (a b : Vec2 ℚ) : turn a b b = 0 := by
  simp [turn_eq, mul_comm]

@[simp] theorem turn_self_outer (a b : Vec2 ℚ) : turn a b a = 0 := by
  simp [turn_eq]

end Vec2

open Vec2

/-- Weights need not add up to one, as long as they add up to something positive. -/
theorem mem_of_weights {K : Set (Vec2 ℚ)} (hK : Convex ℚ K) {x y z : Vec2 ℚ} (hx : x ∈ K)
    (hy : y ∈ K) {a b : ℚ} (ha : 0 ≤ a) (hb : 0 ≤ b) (hab : 0 < a + b)
    (hz : (a + b) • z = a • x + b • y) : z ∈ K := by
  have hcombination : z = (a / (a + b)) • x + (b / (a + b)) • y := by
    rw [div_eq_inv_mul, div_eq_inv_mul, mul_smul, mul_smul, ← smul_add, ← hz, smul_smul,
      inv_mul_cancel₀ hab.ne', one_smul]
  rw [hcombination]
  refine hK hx hy (by positivity) (by positivity) ?_
  rw [← add_div, div_self hab.ne']

theorem mem_of_three_weights {K : Set (Vec2 ℚ)} (hK : Convex ℚ K) {x y z p : Vec2 ℚ}
    (hx : x ∈ K) (hy : y ∈ K) (hz : z ∈ K) {a b c : ℚ} (ha : 0 ≤ a) (hb : 0 ≤ b) (hc : 0 ≤ c)
    (habc : 0 < a + b + c) (hp : (a + b + c) • p = a • x + b • y + c • z) : p ∈ K := by
  obtain hzero | hpos := (add_nonneg ha hb).eq_or_lt
  · obtain rfl : a = 0 := by linarith
    obtain rfl : b = 0 := by linarith
    refine mem_of_weights hK hx hz le_rfl hc (by linarith) ?_
    simpa using hp
  · have hmid : (a + b)⁻¹ • (a • x + b • y) ∈ K := by
      refine mem_of_weights hK hx hy ha hb hpos ?_
      rw [smul_smul, mul_inv_cancel₀ hpos.ne', one_smul]
    refine mem_of_weights hK hmid hz hpos.le hc habc ?_
    rw [smul_smul, mul_inv_cancel₀ hpos.ne', one_smul, hp]

namespace HalfPlane

theorem eval_eq (h : HalfPlane ℚ) (p : Vec2 ℚ) :
    h.eval p = h.normal.x * p.x + h.normal.y * p.y + h.offset := rfl

theorem contains_iff {h : HalfPlane ℚ} {p : Vec2 ℚ} : h.contains p = true ↔ 0 ≤ h.eval p := by
  simp [contains]

theorem contains_eq_false_iff {h : HalfPlane ℚ} {p : Vec2 ℚ} :
    h.contains p = false ↔ h.eval p < 0 := by
  simp [contains]

@[simp] theorem eval_flip (h : HalfPlane ℚ) (p : Vec2 ℚ) : h.flip.eval p = -h.eval p := by
  simp only [eval_eq, flip, scale]
  ring

@[simp] theorem eval_sub (g h : HalfPlane ℚ) (p : Vec2 ℚ) :
    (g - h).eval p = g.eval p - h.eval p := by
  have hsub : g - h = ⟨g.normal - h.normal, g.offset - h.offset⟩ := rfl
  simp only [hsub, eval_eq, sub_x, sub_y]
  ring

theorem eval_leftOf (a b p : Vec2 ℚ) : (leftOf a b).eval p = turn a b p := by
  simp only [leftOf, eval_eq, turn_eq, dot, sub_x, sub_y]
  ring

theorem eval_combination (h : HalfPlane ℚ) (p q : Vec2 ℚ) {a b : ℚ} (hab : a + b = 1) :
    h.eval (a • p + b • q) = a * h.eval p + b * h.eval q := by
  obtain rfl : b = 1 - a := by linarith
  simp only [eval_eq, add_x, add_y, smul_x, smul_y]
  ring

theorem convex_nonneg (h : HalfPlane ℚ) : Convex ℚ {p | 0 ≤ h.eval p} := by
  intro p hp q hq a b ha hb hab
  change 0 ≤ h.eval (a • p + b • q)
  change 0 ≤ h.eval p at hp
  change 0 ≤ h.eval q at hq
  rw [eval_combination h p q hab]
  positivity

theorem convex_neg (h : HalfPlane ℚ) : Convex ℚ {p | h.eval p < 0} := by
  intro p hp q hq a b ha hb hab
  change h.eval (a • p + b • q) < 0
  change h.eval p < 0 at hp
  change h.eval q < 0 at hq
  rw [eval_combination h p q hab]
  obtain rfl | hpos := ha.eq_or_lt
  · obtain rfl : b = 1 := by linarith
    linarith
  · linarith [mul_neg_of_pos_of_neg hpos hp, mul_nonpos_of_nonneg_of_nonpos hb hq.le]

theorem le_eval_of_mem_hull {h : HalfPlane ℚ} {S : Set (Vec2 ℚ)} {x : Vec2 ℚ} {m : ℚ}
    (hS : ∀ v ∈ S, m ≤ h.eval v) (hx : x ∈ convexHull ℚ S) : m ≤ h.eval x := by
  let shifted : HalfPlane ℚ := ⟨h.normal, h.offset - m⟩
  have hshift : ∀ v, shifted.eval v = h.eval v - m := by
    intro v
    simp only [shifted, eval_eq]
    ring
  have hsub : S ⊆ {v | 0 ≤ shifted.eval v} := by
    intro v hv
    change 0 ≤ shifted.eval v
    rw [hshift, sub_nonneg]
    exact hS v hv
  have hnonneg : 0 ≤ shifted.eval x := convexHull_min hsub shifted.convex_nonneg hx
  rwa [hshift, sub_nonneg] at hnonneg

theorem eval_le_of_mem_hull {h : HalfPlane ℚ} {S : Set (Vec2 ℚ)} {x : Vec2 ℚ} {m : ℚ}
    (hS : ∀ v ∈ S, h.eval v ≤ m) (hx : x ∈ convexHull ℚ S) : h.eval x ≤ m := by
  have hflip : -m ≤ h.flip.eval x := by
    refine le_eval_of_mem_hull (fun v hv => ?_) hx
    rw [eval_flip, neg_le_neg_iff]
    exact hS v hv
  rwa [eval_flip, neg_le_neg_iff] at hflip

def meet (h : HalfPlane ℚ) (p q : Vec2 ℚ) : Vec2 ℚ :=
  p.lerp q (h.crossing p q)

theorem smul_meet {h : HalfPlane ℚ} {p q : Vec2 ℚ} (hne : h.eval p ≠ h.eval q) :
    (h.eval p - h.eval q) • h.meet p q = h.eval p • q - h.eval q • p := by
  have hden : h.eval p - h.eval q ≠ 0 := sub_ne_zero.mpr hne
  rw [meet, lerp_eq, crossing, smul_add, smul_smul, smul_smul, mul_div_cancel₀ _ hden, mul_sub,
    mul_one, mul_div_cancel₀ _ hden, sub_sub_cancel_left, neg_smul, neg_add_eq_sub]

theorem meet_comm {h : HalfPlane ℚ} {p q : Vec2 ℚ} (hne : h.eval p ≠ h.eval q) :
    h.meet p q = h.meet q p := by
  have hscaled : (h.eval p - h.eval q) • h.meet p q = (h.eval p - h.eval q) • h.meet q p := by
    rw [smul_meet hne, ← neg_sub (h.eval q), neg_smul, smul_meet hne.symm, neg_sub]
  have hden : h.eval p - h.eval q ≠ 0 := sub_ne_zero.mpr hne
  rw [← inv_smul_smul₀ hden (h.meet p q), hscaled, inv_smul_smul₀ hden]

theorem eval_meet {h : HalfPlane ℚ} {p q : Vec2 ℚ} (hne : h.eval p ≠ h.eval q) :
    h.eval (h.meet p q) = 0 := by
  have hden : h.eval p - h.eval q ≠ 0 := sub_ne_zero.mpr hne
  rw [meet, lerp_eq, eval_combination h p q (sub_add_cancel 1 _), crossing]
  field_simp
  ring

theorem sides_of_contains_ne {h : HalfPlane ℚ} {p q : Vec2 ℚ}
    (hside : h.contains p ≠ h.contains q) :
    (0 ≤ h.eval p ∧ h.eval q < 0) ∨ (h.eval p < 0 ∧ 0 ≤ h.eval q) := by
  cases hp : h.contains p with
  | true =>
      have hq : h.contains q = false := by simpa [hp] using hside.symm
      exact Or.inl ⟨contains_iff.mp hp, contains_eq_false_iff.mp hq⟩
  | false =>
      have hq : h.contains q = true := by simpa [hp] using hside.symm
      exact Or.inr ⟨contains_eq_false_iff.mp hp, contains_iff.mp hq⟩

theorem eval_ne_of_contains_ne {h : HalfPlane ℚ} {p q : Vec2 ℚ}
    (hside : h.contains p ≠ h.contains q) : h.eval p ≠ h.eval q := by
  intro heq
  exact hside (by simp only [contains, heq])

/-- The boundary is met between two points on different sides. -/
theorem meet_mem_segment {h : HalfPlane ℚ} {p q : Vec2 ℚ} (hside : h.contains p ≠ h.contains q) :
    h.meet p q ∈ segment ℚ p q := by
  rw [meet, lerp_eq, crossing]
  refine ⟨_, _, ?_, ?_, sub_add_cancel 1 _, rfl⟩
  · obtain ⟨hp, hq⟩ | ⟨hp, hq⟩ := sides_of_contains_ne hside
    · rw [sub_nonneg, div_le_one (by linarith)]
      linarith
    · rw [sub_nonneg, div_le_one_of_neg (by linarith)]
      linarith
  · obtain ⟨hp, hq⟩ | ⟨hp, hq⟩ := sides_of_contains_ne hside
    · exact div_nonneg hp (by linarith)
    · exact div_nonneg_of_nonpos hp.le (by linarith)

section Hull

variable {h : HalfPlane ℚ} {S K : Set (Vec2 ℚ)}

theorem convex_meet_left (hK : Convex ℚ K) {w : Vec2 ℚ} (hw : h.eval w < 0) :
    Convex ℚ {v | 0 ≤ h.eval v ∧ h.meet v w ∈ K} := by
  rintro v ⟨hv, hvK⟩ u ⟨hu, huK⟩ a b ha hb hab
  have heval := eval_combination h v u hab
  have hin : 0 ≤ h.eval (a • v + b • u) := h.convex_nonneg hv hu ha hb hab
  refine ⟨hin, ?_⟩
  have hweights : a * (h.eval v - h.eval w) + b * (h.eval u - h.eval w) =
      h.eval (a • v + b • u) - h.eval w := by
    rw [heval]
    linear_combination (-h.eval w) * hab
  have hfirst : 0 ≤ a * (h.eval v - h.eval w) := mul_nonneg ha (by linarith)
  have hsecond : 0 ≤ b * (h.eval u - h.eval w) := mul_nonneg hb (by linarith)
  refine mem_of_weights hK hvK huK hfirst hsecond (by linarith) ?_
  rw [hweights, smul_meet (by linarith), mul_smul, mul_smul, smul_meet (by linarith),
    smul_meet (by linarith), heval]
  module

theorem convex_meet_right (hK : Convex ℚ K) {v : Vec2 ℚ} (hv : 0 ≤ h.eval v) :
    Convex ℚ {w | h.eval w < 0 ∧ h.meet v w ∈ K} := by
  rintro w ⟨hw, hwK⟩ u ⟨hu, huK⟩ a b ha hb hab
  have heval := eval_combination h w u hab
  have hout : h.eval (a • w + b • u) < 0 := h.convex_neg hw hu ha hb hab
  refine ⟨hout, ?_⟩
  have hweights : a * (h.eval v - h.eval w) + b * (h.eval v - h.eval u) =
      h.eval v - h.eval (a • w + b • u) := by
    rw [heval]
    linear_combination h.eval v * hab
  have hfirst : 0 ≤ a * (h.eval v - h.eval w) := mul_nonneg ha (by linarith)
  have hsecond : 0 ≤ b * (h.eval v - h.eval u) := mul_nonneg hb (by linarith)
  refine mem_of_weights hK hwK huK hfirst hsecond (by linarith) ?_
  rw [hweights, smul_meet (by linarith), mul_smul, mul_smul, smul_meet (by linarith),
    smul_meet (by linarith), heval]
  module

theorem mem_of_mem_segment (hK : Convex ℚ K) {v w x : Vec2 ℚ} (hv : 0 ≤ h.eval v)
    (hw : h.eval w < 0) (hvK : v ∈ K) (hmeet : h.meet v w ∈ K) (hx : x ∈ segment ℚ v w)
    (hin : 0 ≤ h.eval x) : x ∈ K := by
  obtain ⟨a, b, ha, hb, hab, rfl⟩ := hx
  rw [eval_combination h v w hab] at hin
  obtain hzero | hpos := hv.eq_or_lt
  · have hb' : b = 0 := by nlinarith
    obtain rfl : a = 1 := by linarith
    rwa [hb', zero_smul, add_zero, one_smul]
  · have hsecond : 0 ≤ b * (h.eval v - h.eval w) := mul_nonneg hb (by linarith)
    have hsum : a * h.eval v + b * h.eval w + b * (h.eval v - h.eval w) = h.eval v := by
      linear_combination h.eval v * hab
    refine mem_of_weights hK hvK hmeet hin hsecond (by rwa [hsum]) ?_
    rw [hsum, mul_smul, smul_meet (by linarith)]
    module

/-- What a half-plane leaves of a convex hull lies in any convex set that has the points inside and
the boundary points between an inner and an outer one. -/
theorem mem_of_mem_hull (hK : Convex ℚ K) (hinner : ∀ v ∈ S, 0 ≤ h.eval v → v ∈ K)
    (hmeet : ∀ v ∈ S, ∀ w ∈ S, 0 ≤ h.eval v → h.eval w < 0 → h.meet v w ∈ K) {x : Vec2 ℚ}
    (hx : x ∈ convexHull ℚ S) (hin : 0 ≤ h.eval x) : x ∈ K := by
  let inner := {v | v ∈ S ∧ 0 ≤ h.eval v}
  let outer := {w | w ∈ S ∧ h.eval w < 0}
  have hinnerK : convexHull ℚ inner ⊆ K := convexHull_min (fun v hv => hinner v hv.1 hv.2) hK
  have hinnerIn : convexHull ℚ inner ⊆ {v | 0 ≤ h.eval v} :=
    convexHull_min (fun v hv => hv.2) h.convex_nonneg
  have hS : S = inner ∪ outer := by
    ext v
    constructor
    · intro hv
      exact (le_or_gt 0 (h.eval v)).imp (fun hle => ⟨hv, hle⟩) (fun hlt => ⟨hv, hlt⟩)
    · rintro (hv | hv) <;> exact hv.1
  obtain hempty | hinnerNe := inner.eq_empty_or_nonempty
  · exfalso
    rw [hS, hempty, Set.empty_union] at hx
    have hneg : h.eval x < 0 := convexHull_min (fun w hw => hw.2) h.convex_neg hx
    linarith
  obtain hempty | houterNe := outer.eq_empty_or_nonempty
  · rw [hS, hempty, Set.union_empty] at hx
    exact hinnerK hx
  -- a point of the hull lies between a mixture of inner points and one of outer points
  rw [hS, convexHull_union hinnerNe houterNe, mem_convexJoin] at hx
  obtain ⟨v, hv, w, hw, hxvw⟩ := hx
  have hmeetOuter : ∀ u ∈ outer, h.eval u < 0 ∧ h.meet v u ∈ K := by
    intro u hu
    have hsub : inner ⊆ {v | 0 ≤ h.eval v ∧ h.meet v u ∈ K} :=
      fun v hv => ⟨hv.2, hmeet v hv.1 u hu.1 hv.2 hu.2⟩
    exact ⟨hu.2, (convexHull_min hsub (convex_meet_left hK hu.2) hv).2⟩
  obtain ⟨hwOut, hmeetK⟩ := convexHull_min hmeetOuter (convex_meet_right hK (hinnerIn hv)) hw
  exact mem_of_mem_segment hK (hinnerIn hv) hwOut (hinnerK hv) hmeetK hxvw hin

end Hull

section Between

variable {h : HalfPlane ℚ} {a b c x y : Vec2 ℚ}

/-- The boundary of a half-plane and a line that crosses it have one point in common. -/
theorem eq_of_turn_eq (hne : h.eval a ≠ h.eval b) (heval : h.eval x = h.eval y)
    (hturn : turn a b x = turn a b y) : x = y := by
  have hden : h.normal.x * (b.x - a.x) + h.normal.y * (b.y - a.y) ≠ 0 := by
    intro hzero
    apply hne
    simp only [eval_eq]
    linarith
  simp only [eval_eq] at heval
  simp only [turn_eq] at hturn
  ext
  · refine mul_left_cancel₀ hden ?_
    linear_combination (b.x - a.x) * heval - h.normal.y * hturn
  · refine mul_left_cancel₀ hden ?_
    linear_combination (b.y - a.y) * heval + h.normal.x * hturn

theorem turn_combination (a b p q : Vec2 ℚ) {s t : ℚ} (hst : s + t = 1) :
    turn a b (s • p + t • q) = s * turn a b p + t * turn a b q := by
  simp only [← eval_leftOf]
  exact eval_combination _ p q hst

/-- Of three points on the boundary, the one on a crossing line lies between two that are on
different sides of that line. -/
theorem mem_segment_of_turn (hne : h.eval a ≠ h.eval b) (hc : h.eval c = 0) (hx : h.eval x = 0)
    (hy : h.eval y = 0) (hturn : turn a b c = 0) (hxturn : turn a b x ≤ 0)
    (hyturn : 0 ≤ turn a b y) : c ∈ segment ℚ x y := by
  obtain hzero | hpos := (sub_nonneg.mpr (hxturn.trans hyturn)).eq_or_lt
  · obtain rfl : c = x := eq_of_turn_eq hne (hc.trans hx.symm) (by linarith)
    exact left_mem_segment ℚ c y
  · have hsum : turn a b y / (turn a b y - turn a b x) +
        -turn a b x / (turn a b y - turn a b x) = 1 := by
      rw [← add_div, ← sub_eq_add_neg, div_self hpos.ne']
    refine ⟨_, _, div_nonneg hyturn hpos.le, div_nonneg (neg_nonneg.mpr hxturn) hpos.le, hsum, ?_⟩
    refine eq_of_turn_eq hne ?_ ?_
    · rw [eval_combination h x y hsum, hx, hy, hc]
      ring
    · rw [turn_combination a b x y hsum, hturn]
      field_simp
      ring

end Between

end HalfPlane

end PainterScene
