import Mathlib
import PainterScene.Proofs.Plane

/-!
# Convex polygons and their area

A polygon is convex when every three of its vertices, taken in order, turn left or lie on a line.
That is inherited by sublists and kept when a point of a side is inserted, so clipping and merging
keep it. For such polygons the area is a sum of non-negative triangles and grows with the list of
vertices; it vanishes only when all vertices lie on a line, which is how the area test of an overlap
is compared with that of a smaller one.
-/

namespace PainterScene.Polygon

open Vec2

/-- Every three vertices in order turn left or lie on a line. -/
def IsConvex (poly : Polygon ℚ) : Prop :=
  ∀ a b c, [a, b, c].Sublist poly → 0 ≤ turn a b c

/-- The points of the polygon: the convex hull of its vertices. -/
def region (poly : Polygon ℚ) : Set (Vec2 ℚ) :=
  convexHull ℚ {v | v ∈ poly}

theorem mem_region {poly : Polygon ℚ} {v : Vec2 ℚ} (hv : v ∈ poly) : v ∈ poly.region :=
  subset_convexHull ℚ _ hv

theorem region_subset_iff {poly : Polygon ℚ} {K : Set (Vec2 ℚ)} (hK : Convex ℚ K) :
    poly.region ⊆ K ↔ ∀ v ∈ poly, v ∈ K :=
  hK.convexHull_subset_iff

theorem convex_region (poly : Polygon ℚ) : Convex ℚ poly.region :=
  convex_convexHull ℚ _

section Lists

variable {α : Type} {l₁ l₂ m : List α} {x : α}

theorem sublist_insert_cases (h : m.Sublist (l₁ ++ x :: l₂)) :
    m.Sublist (l₁ ++ l₂) ∨ ∃ m₁ m₂, m = m₁ ++ x :: m₂ ∧ m₁.Sublist l₁ ∧ m₂.Sublist l₂ := by
  obtain ⟨m₁, m₂, rfl, h₁, h₂⟩ := List.sublist_append_iff.mp h
  cases h₂ with
  | cons _ h₂ => exact Or.inl (h₁.append h₂)
  | cons_cons _ h₂ => exact Or.inr ⟨m₁, _, rfl, h₁, h₂⟩

end Lists

theorem IsConvex.sublist {poly poly' : Polygon ℚ} (hconvex : IsConvex poly)
    (hsub : poly'.Sublist poly) : IsConvex poly' :=
  fun a b c habc => hconvex a b c (habc.trans hsub)

theorem turn_nonneg_of_segment {a b u w x : Vec2 ℚ} (hx : x ∈ segment ℚ u w)
    (hu : 0 ≤ turn a b u) (hw : 0 ≤ turn a b w) : 0 ≤ turn a b x := by
  rw [← HalfPlane.eval_leftOf] at hu hw ⊢
  exact (HalfPlane.leftOf a b).convex_nonneg.segment_subset hu hw hx

/-- The turn is an affine function of each of its points, so a vertex may move between two places
that are both allowed. -/
theorem IsConvex.between {l₁ l₂ : Polygon ℚ} {u w x : Vec2 ℚ} (hu : IsConvex (l₁ ++ u :: l₂))
    (hw : IsConvex (l₁ ++ w :: l₂)) (hx : x ∈ segment ℚ u w) : IsConvex (l₁ ++ x :: l₂) := by
  intro a b c habc
  obtain habc | ⟨m₁, m₂, heq, h₁, h₂⟩ := sublist_insert_cases habc
  · exact hu a b c (habc.trans ((List.sublist_cons_self u l₂).append_left l₁))
  have hmoved : ∀ y, (m₁ ++ y :: m₂).Sublist (l₁ ++ y :: l₂) :=
    fun y => h₁.append (h₂.cons_cons y)
  match m₁, heq with
  | [], heq =>
      obtain ⟨rfl, rfl⟩ : a = x ∧ m₂ = [b, c] := by simpa [eq_comm] using heq
      have hrotate : ∀ y, turn b c y = turn y b c := fun y => turn_rotate y b c
      rw [← hrotate]
      refine turn_nonneg_of_segment hx ?_ ?_
      · rw [hrotate]
        exact hu u b c (hmoved u)
      · rw [hrotate]
        exact hw w b c (hmoved w)
  | [a'], heq =>
      obtain ⟨rfl, rfl, rfl⟩ : a = a' ∧ b = x ∧ m₂ = [c] := by simpa [eq_comm] using heq
      have hrotate : ∀ y, turn c a y = turn a y c := fun y => (turn_rotate c a y).symm
      rw [← hrotate]
      refine turn_nonneg_of_segment hx ?_ ?_
      · rw [hrotate]
        exact hu a u c (hmoved u)
      · rw [hrotate]
        exact hw a w c (hmoved w)
  | [a', b'], heq =>
      obtain ⟨rfl, rfl, rfl, rfl⟩ : a = a' ∧ b = b' ∧ c = x ∧ m₂ = [] := by
        simpa [eq_comm] using heq
      exact turn_nonneg_of_segment hx (hu a b u (hmoved u)) (hw a b w (hmoved w))
  | _ :: _ :: _ :: _, heq => simp at heq

theorem IsConvex.repeat {l₁ l₂ : Polygon ℚ} {u : Vec2 ℚ} (hconvex : IsConvex (l₁ ++ u :: l₂)) :
    IsConvex (l₁ ++ u :: u :: l₂) := by
  intro a b c habc
  rw [List.append_cons] at habc
  obtain habc | ⟨m₁, m₂, heq, h₁, h₂⟩ := sublist_insert_cases habc
  · exact hconvex a b c (by simpa using habc)
  obtain h₁ | ⟨n, k, rfl, -, hk⟩ := sublist_insert_cases h₁
  · rw [List.append_nil] at h₁
    exact hconvex a b c (heq ▸ h₁.append (h₂.cons_cons u))
  -- both copies are used, and a turn between equal points vanishes
  obtain rfl := List.sublist_nil.mp hk
  match n, heq with
  | [], heq =>
      obtain ⟨rfl, rfl, -⟩ : a = u ∧ b = u ∧ [c] = m₂ := by simpa using heq
      rw [turn_self_left]
  | [a'], heq =>
      obtain ⟨-, rfl, rfl, -⟩ : a = a' ∧ b = u ∧ c = u ∧ m₂ = [] := by
        simpa [eq_comm] using heq
      rw [turn_self_right]
  | _ :: _ :: _, heq =>
      have hlength := congrArg List.length heq
      simp only [List.length_append, List.length_cons, List.length_nil] at hlength
      omega

/-- A point of a side may be inserted as a vertex. -/
theorem IsConvex.insert {pre rest : Polygon ℚ} {u w x : Vec2 ℚ}
    (hconvex : IsConvex (pre ++ u :: w :: rest)) (hx : x ∈ segment ℚ u w) :
    IsConvex (pre ++ u :: x :: w :: rest) := by
  have hfirst : IsConvex ((pre ++ [u]) ++ u :: w :: rest) := by
    simpa using hconvex.repeat
  have hsecond : IsConvex ((pre ++ [u]) ++ w :: w :: rest) := by
    refine IsConvex.repeat ?_
    simpa using hconvex
  simpa using hfirst.between hsecond hx

/-- The last vertex may be put before the first, which closes the boundary. -/
theorem IsConvex.close {poly : Polygon ℚ} {last : Vec2 ℚ} (hconvex : IsConvex poly)
    (hlast : poly.getLast? = some last) : IsConvex (last :: poly) := by
  obtain ⟨init, rfl⟩ := List.getLast?_eq_some_iff.mp hlast
  intro a b c habc
  cases habc with
  | cons _ habc => exact hconvex a b c habc
  | cons_cons _ hbc =>
      obtain hbc | ⟨m₁, m₂, heq, h₁, h₂⟩ := sublist_insert_cases hbc
      · rw [List.append_nil] at hbc
        rw [← turn_rotate]
        exact hconvex b c last (hbc.append (List.Sublist.refl [last]))
      · obtain rfl := List.sublist_nil.mp h₂
        obtain ⟨-, hc⟩ := List.append_inj' (show [b] ++ [c] = m₁ ++ [last] from heq) rfl
        rw [List.singleton_inj.mp hc, turn_self_outer]

/-- The triangles of a fan around `p`, twice their area each, added up. -/
def fan (p : Vec2 ℚ) : Polygon ℚ → ℚ
  | q :: r :: rest => turn p q r + fan p (r :: rest)
  | _ => 0

theorem foldl_cross (p q : Vec2 ℚ) (rest : Polygon ℚ) (sum : ℚ) :
    ((q :: rest).zip rest).foldl (fun sum step => sum + step.1.cross step.2) sum =
      sum + fan p (q :: rest) - p.cross q - ((q :: rest).getLast (by simp)).cross p := by
  induction rest generalizing q sum with
  | nil =>
      simp only [List.zip_nil_right, List.foldl_nil, fan, List.getLast_singleton, cross]
      ring
  | cons r rest ih =>
      rw [List.zip_cons_cons, List.foldl_cons, ih r, List.getLast_cons_cons]
      simp only [fan, turn_eq, cross]
      ring

/-- The shoelace sum is that of a fan around the first vertex. -/
theorem two_mul_signedArea (p : Vec2 ℚ) (rest : Polygon ℚ) :
    2 * signedArea (p :: rest) = fan p rest := by
  match rest with
  | [] => simp [signedArea, fan]
  | [q] => simp [signedArea, fan]
  | q :: r :: rest =>
      have hlast : (p :: q :: r :: rest).getLast? =
          some ((p :: q :: r :: rest).getLast (by simp)) := List.getLast?_eq_some_getLast _
      rw [signedArea, if_neg (by simp), steps, hlast]
      simp only
      rw [List.zip_cons_cons, List.foldl_cons, foldl_cross p p (q :: r :: rest)]
      simp only [fan, turn_eq, cross]
      norm_num
      ring

theorem turn_add_turn (p a b c : Vec2 ℚ) :
    turn p a b + turn p b c = turn p a c + turn a b c := by
  simp only [turn_eq]
  ring

/-- Leaving out vertices of a convex polygon never adds to its area. -/
theorem fan_le_of_sublist {p : Vec2 ℚ} {l l' : Polygon ℚ} (hsub : l'.Sublist l) :
    ∀ q, IsConvex (p :: q :: l) → fan p (q :: l') ≤ fan p (q :: l) := by
  induction hsub with
  | slnil => exact fun q _ => le_refl _
  | @cons l' l r hsub ih =>
      intro q hconvex
      have hshorter : IsConvex (p :: q :: l) :=
        hconvex.sublist (((List.sublist_cons_self r l).cons_cons q).cons_cons p)
      refine (ih q hshorter).trans ?_
      -- cutting off the corner `r` loses the triangle `q r s`
      cases l with
      | nil =>
          have hturn := hconvex p q r (List.Sublist.refl _)
          simp only [fan]
          linarith
      | cons s l =>
          have hturn := hconvex q r s (((List.nil_sublist l).cons_cons s |>.cons_cons r
            |>.cons_cons q).cons p)
          have hcorner := turn_add_turn p q r s
          simp only [fan]
          linarith
  | @cons_cons l' l r hsub ih =>
      intro q hconvex
      have hrest : IsConvex (p :: r :: l) :=
        hconvex.sublist ((List.sublist_cons_self q (r :: l)).cons_cons p)
      simp only [fan]
      linarith [ih r hrest]

theorem fan_mono {p : Vec2 ℚ} {l l' : Polygon ℚ} (hconvex : IsConvex (p :: l))
    (hsub : l'.Sublist l) : fan p l' ≤ fan p l := by
  have hself : ∀ m : Polygon ℚ, fan p (p :: m) = fan p m := by
    intro m
    cases m with
    | nil => rfl
    | cons r m => rw [fan, turn_self_left, zero_add]
  have hrepeat : IsConvex ([] ++ p :: p :: l) := IsConvex.repeat hconvex
  rw [← hself l', ← hself l]
  exact fan_le_of_sublist hsub p hrepeat

theorem turn_le_two_mul_signedArea {poly : Polygon ℚ} (hconvex : IsConvex poly) {a b c : Vec2 ℚ}
    (habc : [a, b, c].Sublist poly) : turn a b c ≤ 2 * signedArea poly := by
  cases poly with
  | nil => simp at habc
  | cons p rest =>
      rw [two_mul_signedArea]
      cases habc with
      | cons_cons _ hbc => simpa [fan] using fan_mono hconvex hbc
      | cons _ habc =>
          have hfan := fan_mono hconvex habc
          have hac : [p, a, c].Sublist (p :: rest) :=
            ((((List.Sublist.refl [c]).cons b).cons_cons a).trans habc).cons_cons p
          have hturn := hconvex p a c hac
          have hsum := turn_add_turn p a b c
          simp only [fan] at hfan
          linarith

theorem signedArea_nonneg {poly : Polygon ℚ} (hconvex : IsConvex poly) : 0 ≤ signedArea poly := by
  cases poly with
  | nil => simp [signedArea]
  | cons p rest =>
      have hfan : 0 ≤ fan p rest := fan_mono hconvex (List.nil_sublist rest)
      rw [← two_mul_signedArea] at hfan
      linarith

/-- A convex polygon runs counter-clockwise. -/
theorem area_eq_signedArea {poly : Polygon ℚ} (hconvex : IsConvex poly) :
    poly.area = poly.signedArea := by
  rw [area, Scalar.abs_eq, abs_of_nonneg (signedArea_nonneg hconvex)]

theorem area_triangle (a b c : Vec2 ℚ) : 2 * area [a, b, c] = |turn a b c| := by
  have htwo := two_mul_signedArea a [b, c]
  simp only [fan, add_zero] at htwo
  rw [area, Scalar.abs_eq, ← htwo, abs_mul, abs_two]

/-! ### Degenerate polygons

The area of a convex polygon vanishes exactly when no three of its points turn. -/

theorem forall_abs_turn_le {poly : Polygon ℚ} {m : ℚ} (hm : 0 ≤ m)
    (hle : ∀ a b c, [a, b, c].Sublist poly → |turn a b c| ≤ m) :
    ∀ a ∈ poly, ∀ b ∈ poly, ∀ c ∈ poly, |turn a b c| ≤ m := by
  induction poly with
  | nil => simp
  | cons p rest ih =>
      have htail := ih fun a b c habc => hle a b c (habc.cons p)
      have hpairs : ∀ {b c}, [b, c].Sublist rest → |turn p b c| ≤ m :=
        fun hbc => hle p _ _ (hbc.cons_cons p)
      have hhead : ∀ b ∈ rest, ∀ c ∈ rest, |turn p b c| ≤ m := by
        intro b hb c hc
        refine List.Pairwise.forall_of_forall_of_flip (R := fun b c => |turn p b c| ≤ m) ?_
          (List.pairwise_of_forall_sublist hpairs) (List.pairwise_of_forall_sublist ?_) hb hc
        · intro x _
          rwa [turn_self_right, abs_zero]
        · intro b c hbc
          change |turn p c b| ≤ m
          rw [turn_swap_right, abs_neg]
          exact hpairs hbc
      intro a ha b hb c hc
      rw [List.mem_cons] at ha hb hc
      rcases ha with ha | ha <;> rcases hb with hb | hb <;> rcases hc with hc | hc
      · rwa [ha, hb, turn_self_left, abs_zero]
      · rwa [ha, hb, turn_self_left, abs_zero]
      · rwa [ha, hc, turn_self_outer, abs_zero]
      · rw [ha]
        exact hhead b hb c hc
      · rwa [hb, hc, turn_self_right, abs_zero]
      · rw [hb, turn_swap, abs_neg]
        exact hhead a ha c hc
      · rw [hc, turn_rotate]
        exact hhead a ha b hb
      · exact htail a ha b hb c hc

/-- The turn is affine in each of its points, so no points of the polygon turn more than its
vertices do. -/
theorem turn_le_of_mem_region {poly : Polygon ℚ} {m : ℚ}
    (hle : ∀ a ∈ poly, ∀ b ∈ poly, ∀ c ∈ poly, turn a b c ≤ m) {x y z : Vec2 ℚ}
    (hx : x ∈ poly.region) (hy : y ∈ poly.region) (hz : z ∈ poly.region) : turn x y z ≤ m := by
  have hline : ∀ u v, (∀ w ∈ poly, turn u v w ≤ m) → ∀ w ∈ poly.region, turn u v w ≤ m := by
    intro u v huv w hw
    simp only [← HalfPlane.eval_leftOf] at huv ⊢
    exact HalfPlane.eval_le_of_mem_hull huv hw
  -- one point after the other moves from the vertices into the region
  have hthird : ∀ a ∈ poly, ∀ b ∈ poly, turn a b z ≤ m :=
    fun a ha b hb => hline a b (hle a ha b hb) z hz
  have hsecond : ∀ a ∈ poly, turn z a y ≤ m := by
    intro a ha
    refine hline z a (fun b hb => ?_) y hy
    rw [← turn_rotate]
    exact hthird a ha b hb
  rw [← turn_rotate]
  refine hline y z (fun a ha => ?_) x hx
  rw [turn_rotate, turn_rotate]
  exact hsecond a ha

/-- No triangle between vertices of a convex polygon is larger than the polygon. -/
theorem abs_turn_le_two_mul_signedArea {poly : Polygon ℚ} (hconvex : IsConvex poly) :
    ∀ a ∈ poly, ∀ b ∈ poly, ∀ c ∈ poly, |turn a b c| ≤ 2 * signedArea poly := by
  refine forall_abs_turn_le (by linarith [signedArea_nonneg hconvex]) fun a b c habc => ?_
  rw [abs_of_nonneg (hconvex a b c habc)]
  exact turn_le_two_mul_signedArea hconvex habc

/-- No triangle in a convex polygon has more area than the polygon. -/
theorem turn_le_of_isConvex {poly : Polygon ℚ} (hconvex : IsConvex poly) {x y z : Vec2 ℚ}
    (hx : x ∈ poly.region) (hy : y ∈ poly.region) (hz : z ∈ poly.region) :
    turn x y z ≤ 2 * signedArea poly := by
  refine turn_le_of_mem_region (fun a ha b hb c hc => ?_) hx hy hz
  exact (le_abs_self _).trans (abs_turn_le_two_mul_signedArea hconvex a ha b hb c hc)

theorem exists_turn_ne_zero {poly : Polygon ℚ} (harea : poly.area ≠ 0) :
    ∃ a ∈ poly, ∃ b ∈ poly, ∃ c ∈ poly, turn a b c ≠ 0 := by
  by_contra hall
  push Not at hall
  apply harea
  cases poly with
  | nil => simp [area, signedArea, Scalar.abs_eq]
  | cons p rest =>
      have hfan : ∀ l : Polygon ℚ, l.Sublist rest → fan p l = 0 := by
        intro l hl
        induction l with
        | nil => rfl
        | cons q l ih =>
            cases l with
            | nil => rfl
            | cons r l =>
                have hmem : ∀ v ∈ q :: r :: l, v ∈ p :: rest :=
                  fun v hv => List.mem_cons_of_mem p (hl.subset hv)
                rw [fan, hall p List.mem_cons_self q (hmem q (by simp)) r (hmem r (by simp)),
                  ih ((List.sublist_cons_self q _).trans hl), add_zero]
      have htwo := two_mul_signedArea p rest
      rw [hfan rest (List.Sublist.refl rest)] at htwo
      rw [area, Scalar.abs_eq, abs_eq_zero]
      linarith

/-- A convex polygon with three points that turn has a positive area. -/
theorem area_pos_of_turn_ne_zero {poly : Polygon ℚ} (hconvex : IsConvex poly) {x y z : Vec2 ℚ}
    (hx : x ∈ poly.region) (hy : y ∈ poly.region) (hz : z ∈ poly.region)
    (hturn : turn x y z ≠ 0) : 0 < poly.area := by
  have hpos : 0 < |turn x y z| := abs_pos.mpr hturn
  have hle : |turn x y z| ≤ 2 * signedArea poly := by
    refine abs_le'.mpr ⟨turn_le_of_isConvex hconvex hx hy hz, ?_⟩
    rw [← turn_swap]
    exact turn_le_of_isConvex hconvex hy hx hz
  rw [area_eq_signedArea hconvex]
  linarith

theorem fan_eq_zero_of_slivers {p : Vec2 ℚ} {poly : Polygon ℚ}
    (hslivers : ∀ t ∈ List.zipWith (fun q r => (⟨p, q, r⟩ : Triple (Vec2 ℚ))) poly poly.tail,
      ¬ 0 < area t.toList) : fan p poly = 0 := by
  induction poly with
  | nil => rfl
  | cons q poly ih =>
      cases poly with
      | nil => rfl
      | cons r poly =>
          rw [List.tail_cons, List.zipWith_cons_cons, List.forall_mem_cons] at hslivers
          have harea : 2 * area [p, q, r] ≤ 0 := by
            have hsliver := hslivers.1
            simp only [Triple.toList, not_lt] at hsliver
            linarith
          rw [area_triangle] at harea
          rw [fan, abs_nonpos_iff.mp harea, ih hslivers.2, add_zero]

/-- A polygon with some area has a fan triangle with some area. -/
theorem triangulate_ne_nil {poly : Polygon ℚ} (harea : poly.area ≠ 0) :
    triangulate 0 poly ≠ [] := by
  intro hnil
  cases poly with
  | nil => exact harea (by simp [area, signedArea, Scalar.abs_eq])
  | cons p rest =>
      have hfan : fan p rest = 0 := by
        refine fan_eq_zero_of_slivers fun t ht hpos => ?_
        rw [triangulate, List.filter_eq_nil_iff] at hnil
        exact hnil t ht (by simpa using hpos)
      apply harea
      rw [← two_mul_signedArea] at hfan
      rw [area, Scalar.abs_eq, abs_eq_zero]
      linarith

end PainterScene.Polygon
