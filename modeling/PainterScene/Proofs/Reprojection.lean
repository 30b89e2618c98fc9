import Mathlib
import PainterScene.Proofs.Crossing
import PainterScene.Proofs.Scan

/-!
# Pieces project onto themselves

A triangle is consistent with a projection if each corner is where the projection takes its
camera-space position, at a positive `w`. Written without the divide, the image of a position is
`w * (projected, 1)`, which is linear in the homogeneous position. A vertex of a piece blends the
positions with `share / inverseW`, where a share is a screen weight over the corner's `w`; the `w`
of the corners cancel, and what is left is the blend of the projected corners with the screen
weights, over `inverseW`. Inside the triangle no weight is negative, so `inverseW` is positive
there, and everything that clipping and merging hand to a piece lies inside.
-/

namespace PainterScene

open Vec2

/-- The vertex is where `m` takes its position, in front of the viewer. -/
structure Vertex.ProjectedBy (m : Mat4 ℚ) (v : Vertex ℚ) : Prop where
  clipW : (m.apply (v.position.extend 1)).w = v.clipW
  front : 0 < v.clipW
  projected : (m.apply (v.position.extend 1)).divide = v.projected

structure Fragment.ProjectedBy (m : Mat4 ℚ) (f : Fragment ℚ) : Prop where
  kind : f.kind = .triangle
  vertices : ∀ v ∈ f.vertices.toList, v.ProjectedBy m

section Consistency

variable {m : Mat4 ℚ}

theorem Vertex.projectedBy_iff {v : Vertex ℚ} :
    v.ProjectedBy m ↔ v.reproject m = v ∧ 0 < v.clipW := by
  constructor
  · intro hv
    exact ⟨Vertex.ext rfl hv.projected hv.clipW, hv.front⟩
  · rintro ⟨hself, hfront⟩
    exact ⟨congrArg Vertex.clipW hself, hfront, congrArg Vertex.projected hself⟩

instance (v : Vertex ℚ) : Decidable (v.ProjectedBy m) :=
  decidable_of_iff _ Vertex.projectedBy_iff.symm

instance (f : Fragment ℚ) : Decidable (f.ProjectedBy m) :=
  decidable_of_iff (f.kind = .triangle ∧ ∀ v ∈ f.vertices.toList, v.ProjectedBy m)
    ⟨fun h => ⟨h.1, h.2⟩, fun h => ⟨h.kind, h.vertices⟩⟩

/-- The image of a position, before the divide. -/
theorem Vertex.ProjectedBy.apply_eq {v : Vertex ℚ} (hv : v.ProjectedBy m) :
    m.apply (v.position.extend 1) = (v.projected.extend 1).scale v.clipW := by
  have hne : (m.apply (v.position.extend 1)).w ≠ 0 := by
    rw [hv.clipW]
    exact hv.front.ne'
  rw [← hv.projected, ← hv.clipW]
  ext
  · exact (div_mul_cancel₀ _ hne).symm
  · exact (div_mul_cancel₀ _ hne).symm
  · exact (div_mul_cancel₀ _ hne).symm
  · exact (one_mul _).symm

theorem Vertex.projectedBy_of_apply_eq {v : Vertex ℚ} (hfront : 0 < v.clipW)
    (happly : m.apply (v.position.extend 1) = (v.projected.extend 1).scale v.clipW) :
    v.ProjectedBy m := by
  refine ⟨?_, hfront, ?_⟩
  · rw [happly]
    exact one_mul _
  · rw [happly]
    ext
    all_goals
      simp only [Vec4.divide, Vec4.scale, Vec3.extend, one_mul]
      exact mul_div_cancel_right₀ _ hfront.ne'

/-- Projecting a consistent triangle anew changes nothing. -/
theorem Fragment.ProjectedBy.reproject_eq {f : Fragment ℚ} (hf : f.ProjectedBy m) :
    f.reproject m = f := by
  have hself : ∀ v ∈ f.vertices.toList, v.reproject m = v :=
    fun v hv => (Vertex.projectedBy_iff.mp (hf.vertices v hv)).1
  have hvertices : f.vertices.mapFirst f.kind.pointCount (Vertex.reproject m) = f.vertices := by
    rw [hf.kind]
    exact Triple.ext (hself _ (by simp [Triple.toList])) (hself _ (by simp [Triple.toList]))
      (hself _ (by simp [Triple.toList]))
  rw [Fragment.reproject, hvertices]

/-- A row of a matrix takes a blend of positions to the blend of what it takes them to, if the
weights add up to one. -/
theorem row_blend (a b c d : ℚ) (points : Triple (Vec3 ℚ)) {w : Triple ℚ}
    (hw : w.first + w.second + w.third = 1) :
    a * (Vec3.blend points w).x + b * (Vec3.blend points w).y + c * (Vec3.blend points w).z +
        d * 1 =
      (a * points.first.x + b * points.first.y + c * points.first.z + d * 1) * w.first +
        (a * points.second.x + b * points.second.y + c * points.second.z + d * 1) * w.second +
        (a * points.third.x + b * points.third.y + c * points.third.z + d * 1) * w.third := by
  have hx : (Vec3.blend points w).x =
      points.first.x * w.first + points.second.x * w.second + points.third.x * w.third := rfl
  have hy : (Vec3.blend points w).y =
      points.first.y * w.first + points.second.y * w.second + points.third.y * w.third := rfl
  have hz : (Vec3.blend points w).z =
      points.first.z * w.first + points.second.z * w.second + points.third.z * w.third := rfl
  rw [hx, hy, hz]
  linear_combination (-d) * hw

theorem Mat4.apply_blend (m : Mat4 ℚ) (points : Triple (Vec3 ℚ)) {w : Triple ℚ}
    (hw : w.first + w.second + w.third = 1) :
    m.apply ((Vec3.blend points w).extend 1) =
      (m.apply (points.first.extend 1)).scale w.first +
        (m.apply (points.second.extend 1)).scale w.second +
        (m.apply (points.third.extend 1)).scale w.third :=
  Vec4.ext (row_blend m.x.x m.y.x m.z.x m.w.x points hw)
    (row_blend m.x.y m.y.y m.z.y m.w.y points hw)
    (row_blend m.x.z m.y.z m.z.z m.w.z points hw)
    (row_blend m.x.w m.y.w m.z.w m.w.w points hw)

end Consistency

namespace ScreenTriangle

variable {m : Mat4 ℚ} {f : Fragment ℚ} {t : ScreenTriangle ℚ} {q : Vec2 ℚ}

/-! ### Weights inside the triangle -/

/-- A weight is the area that the opposite side spans with the position, over the whole area. -/
theorem weights_eq (ht : ofFragment? f = some t) (q : Vec2 ℚ) :
    t.weights q =
      let a := f.vertices.first.screen
      let b := f.vertices.second.screen
      let c := f.vertices.third.screen
      ⟨turn b c q / turn a b c, turn c a q / turn a b c, turn a b q / turn a b c⟩ := by
  have hne := turn_ne_zero ht
  obtain ⟨-, -, horigin, hedge1, hedge2, -⟩ := ofFragment?_eq_some ht
  rw [weights, inverse_eq ht, horigin, hedge1, hedge2]
  ext
  · simp only [cross, sub_x, sub_y]
    field_simp
    simp only [turn_eq]
    ring
  · simp only [cross, sub_x, sub_y, turn_eq]
    ring
  · simp only [cross, sub_x, sub_y, turn_eq]
    ring

theorem weights_add (t : ScreenTriangle ℚ) (q : Vec2 ℚ) :
    (t.weights q).first + (t.weights q).second + (t.weights q).third = 1 := by
  simp only [weights]
  ring

/-- Inside the triangle no weight is negative. -/
theorem weights_nonneg (ht : ofFragment? f = some t) (hq : q ∈ f.region) :
    0 ≤ (t.weights q).first ∧ 0 ≤ (t.weights q).second ∧ 0 ≤ (t.weights q).third := by
  rw [← inner_footprint ht] at hq
  rw [weights_eq ht]
  obtain ⟨hfootprint, hturn⟩ | ⟨hfootprint, hturn⟩ := footprint_cases ht
  · rw [hfootprint, Polygon.mem_inner_triangle_iff] at hq
    exact ⟨div_nonneg hq.2.1 hturn.le, div_nonneg hq.2.2 hturn.le, div_nonneg hq.1 hturn.le⟩
  · -- clockwise corners: the footprint has them in the other order, and all turns change sign
    rw [hfootprint, Polygon.mem_inner_triangle_iff] at hq
    obtain ⟨hac, hcb, hba⟩ := hq
    rw [turn_swap] at hac hcb hba
    rw [turn_swap_right] at hturn
    refine ⟨div_nonneg_of_nonpos ?_ ?_, div_nonneg_of_nonpos ?_ ?_, div_nonneg_of_nonpos ?_ ?_⟩
    all_goals linarith

theorem blend_projected (ht : ofFragment? f = some t) (q : Vec2 ℚ) :
    Vec3.blend (f.vertices.map Vertex.projected) (t.weights q) =
      ⟨q.x, q.y, t.depthPlane.eval q⟩ := by
  have hne := turn_ne_zero ht
  have hweights := weights_eq ht q
  ext
  · have hx : (Vec3.blend (f.vertices.map Vertex.projected) (t.weights q)).x =
        f.vertices.first.screen.x * (t.weights q).first +
          f.vertices.second.screen.x * (t.weights q).second +
          f.vertices.third.screen.x * (t.weights q).third := rfl
    rw [hx, hweights]
    field_simp
    simp only [turn_eq]
    ring
  · have hy : (Vec3.blend (f.vertices.map Vertex.projected) (t.weights q)).y =
        f.vertices.first.screen.y * (t.weights q).first +
          f.vertices.second.screen.y * (t.weights q).second +
          f.vertices.third.screen.y * (t.weights q).third := rfl
    rw [hy, hweights]
    field_simp
    simp only [turn_eq]
    ring
  · rw [← vertexAt_depth, ← fragment_of_ofFragment? ht]
    unfold vertexAt
    simp only
    split <;> rfl

/-! ### Blending in perspective -/

/-- The screen weights, each over the clip-space `w` of its corner. -/
def shares (t : ScreenTriangle ℚ) (q : Vec2 ℚ) : Triple ℚ :=
  ⟨(t.weights q).first / t.fragment.vertices.first.clipW,
    (t.weights q).second / t.fragment.vertices.second.clipW,
    (t.weights q).third / t.fragment.vertices.third.clipW⟩

def inverseW (t : ScreenTriangle ℚ) (q : Vec2 ℚ) : ℚ :=
  (t.shares q).first + (t.shares q).second + (t.shares q).third

theorem vertexAt_of_inverseW_ne_zero (ht : ofFragment? f = some t) (hne : t.inverseW q ≠ 0) :
    t.vertexAt q =
      { position := Vec3.blend (f.vertices.map Vertex.position)
          ((t.shares q).map (· / t.inverseW q))
        projected := Vec3.blend (f.vertices.map Vertex.projected) (t.weights q)
        clipW := 1 / t.inverseW q } := by
  have hprojected : Vec3.blend (f.vertices.map Vertex.projected) (t.weights q) =
      ⟨q.x, q.y, (Vec3.blend (f.vertices.map Vertex.projected) (t.weights q)).z⟩ := by
    rw [blend_projected ht]
  have hbranch : (Scalar.isFinite (t.inverseW q) && t.inverseW q != 0) = true := by
    simp [Scalar.isFinite, hne]
  rw [hprojected, ← fragment_of_ofFragment? ht]
  exact if_pos hbranch

/-- Inside a consistent triangle the inverse `w` is positive. -/
theorem inverseW_pos (hf : f.ProjectedBy m) (ht : ofFragment? f = some t) (hq : q ∈ f.region) :
    0 < t.inverseW q := by
  obtain ⟨hfirst, hsecond, hthird⟩ := weights_nonneg ht hq
  have hsum := t.weights_add q
  have hw₁ := (hf.vertices f.vertices.first (by simp [Triple.toList])).front
  have hw₂ := (hf.vertices f.vertices.second (by simp [Triple.toList])).front
  have hw₃ := (hf.vertices f.vertices.third (by simp [Triple.toList])).front
  rw [inverseW, shares, fragment_of_ofFragment? ht]
  -- the weights add up to one, so one of them is positive
  obtain hpos | hpos | hpos :
      0 < (t.weights q).first ∨ 0 < (t.weights q).second ∨ 0 < (t.weights q).third := by
    by_contra hnone
    push Not at hnone
    linarith
  · positivity
  · positivity
  · positivity

/-- The `w` of a corner cancels against the one in its share. -/
theorem scale_share {w : ℚ} (hw : w ≠ 0) (v : Vec4 ℚ) (weight total : ℚ) :
    (v.scale w).scale (weight / w / total) = (v.scale weight).scale (1 / total) := by
  ext
  all_goals
    simp only [Vec4.scale]
    field_simp

theorem scale_blend (points : Triple (Vec3 ℚ)) {w : Triple ℚ}
    (hw : w.first + w.second + w.third = 1) (total : ℚ) :
    ((points.first.extend 1).scale w.first).scale total +
        ((points.second.extend 1).scale w.second).scale total +
        ((points.third.extend 1).scale w.third).scale total =
      ((Vec3.blend points w).extend 1).scale total := by
  have hlast : 1 * w.first * total + 1 * w.second * total + 1 * w.third * total = 1 * total := by
    linear_combination total * hw
  refine Vec4.ext ?_ ?_ ?_ hlast
  · exact ((add_mul _ _ _).trans (congrArg (· + _) (add_mul _ _ _))).symm
  · exact ((add_mul _ _ _).trans (congrArg (· + _) (add_mul _ _ _))).symm
  · exact ((add_mul _ _ _).trans (congrArg (· + _) (add_mul _ _ _))).symm

/-- A vertex inside a consistent triangle is consistent. -/
theorem vertexAt_projectedBy (hf : f.ProjectedBy m) (ht : ofFragment? f = some t)
    (hq : q ∈ f.region) : (t.vertexAt q).ProjectedBy m := by
  have hinverse := inverseW_pos hf ht hq
  have hfirst := hf.vertices f.vertices.first (by simp [Triple.toList])
  have hsecond := hf.vertices f.vertices.second (by simp [Triple.toList])
  have hthird := hf.vertices f.vertices.third (by simp [Triple.toList])
  rw [vertexAt_of_inverseW_ne_zero ht hinverse.ne']
  refine Vertex.projectedBy_of_apply_eq (one_div_pos.mpr hinverse) ?_
  have hsum : ((t.shares q).map (· / t.inverseW q)).first +
      ((t.shares q).map (· / t.inverseW q)).second +
      ((t.shares q).map (· / t.inverseW q)).third = 1 := by
    simp only [Triple.map]
    rw [← add_div, ← add_div]
    exact div_self hinverse.ne'
  rw [Mat4.apply_blend m _ hsum, ← scale_blend _ (t.weights_add q)]
  simp only [Triple.map, shares, fragment_of_ofFragment? ht]
  rw [hfirst.apply_eq, hsecond.apply_eq, hthird.apply_eq, scale_share hfirst.front.ne',
    scale_share hsecond.front.ne', scale_share hthird.front.ne']

end ScreenTriangle

/-! ### Everything that is cut out lies inside -/

/-- `x` is the piece of `f` over three screen positions that `f` covers. -/
abbrev PieceWithin : Fragment ℚ → Fragment ℚ → Prop :=
  PieceOver fun t q => q ∈ t.fragment.region

/-- `x` is a piece of `f`, and the inverse `w` at each corner of it is positive, so that the linear
blend which stands in where that inverse vanishes has not been used. -/
abbrev CutInPerspective : Fragment ℚ → Fragment ℚ → Prop :=
  PieceOver fun t q => 0 < t.inverseW q

section Pieces

variable {m : Mat4 ℚ} {f x : Fragment ℚ}

theorem ScreenTriangle.pieceWithin_piece {t : ScreenTriangle ℚ} (ht : ofFragment? f = some t)
    {corners : Triple (Vec2 ℚ)} (hinside : ∀ q ∈ corners.toList, q ∈ f.region) :
    PieceWithin f (t.piece corners) := by
  obtain rfl := fragment_of_ofFragment? ht
  exact ⟨t, corners, ht, hinside, rfl⟩

theorem PieceOver.kind_eq {P : ScreenTriangle ℚ → Vec2 ℚ → Prop} (hx : PieceOver P f x) :
    x.kind = f.kind := by
  obtain ⟨t, corners, ht, -, rfl⟩ := hx
  obtain rfl := ScreenTriangle.fragment_of_ofFragment? ht
  rfl

/-- A piece within a consistent triangle is consistent. -/
theorem PieceOver.projectedBy (hx : PieceWithin f x) (hf : f.ProjectedBy m) :
    x.ProjectedBy m := by
  refine ⟨hx.kind_eq.trans hf.kind, ?_⟩
  obtain ⟨t, corners, ht, hinside, rfl⟩ := hx
  obtain rfl := ScreenTriangle.fragment_of_ofFragment? ht
  intro v hv
  obtain ⟨q, hq, rfl⟩ : ∃ q ∈ corners.toList, t.vertexAt q = v := List.mem_map.mp hv
  exact ScreenTriangle.vertexAt_projectedBy hf ht (hinside q hq)

theorem PieceOver.cutInPerspective (hx : PieceWithin f x) (hf : f.ProjectedBy m) :
    CutInPerspective f x :=
  hx.imp fun t q ht hinside => by
    obtain rfl := ScreenTriangle.fragment_of_ofFragment? ht
    exact ScreenTriangle.inverseW_pos hf ht hinside

theorem PieceOver.consistent (hx : PieceWithin f x) (hf : f.ProjectedBy m) :
    x.ProjectedBy m ∧ x.reproject m = x ∧ CutInPerspective f x :=
  ⟨hx.projectedBy hf, (hx.projectedBy hf).reproject_eq, hx.cutInPerspective hf⟩

end Pieces

/-- Peeling gives parts of what it started from. -/
theorem Polygon.mem_region_of_mem_peel {tol minArea : ℚ} {planes : List (HalfPlane ℚ)}
    {remaining poly : Polygon ℚ} (hpoly : poly ∈ peel tol minArea planes remaining) :
    ∀ v ∈ poly, v ∈ remaining.region := by
  induction planes generalizing remaining with
  | nil => cases hpoly
  | cons h planes ih =>
      have hside : ∀ g : HalfPlane ℚ, ∀ v ∈ remaining.clip tol g, v ∈ remaining.region :=
        fun g v hv => (mem_clip hv).1
      have hrest : poly ∈ peel tol minArea planes (remaining.clip tol h) →
          ∀ v ∈ poly, v ∈ remaining.region := by
        intro hmem v hv
        exact (region_subset_iff remaining.convex_region).mpr (hside h) (ih hmem v hv)
      rw [peel] at hpoly
      split at hpoly
      · cases hpoly
      · simp only at hpoly
        split at hpoly
        · obtain rfl | hpoly := List.mem_cons.mp hpoly
          · exact hside h.flip
          · exact hrest hpoly
        · exact hrest hpoly

namespace Overlap

variable {rule : SplitRule ℚ} {f g x : Fragment ℚ} {P Q : Pieces ℚ} {o : Overlap ℚ}

theorem pieceWithin_of_mem_cutAlong {t : ScreenTriangle ℚ} {cut : HalfPlane ℚ}
    (ht : ScreenTriangle.ofFragment? f = some t) (hx : x ∈ (cutAlong rule cut t).toList) :
    x = f ∨ PieceWithin f x := by
  obtain ⟨-, rfl⟩ | ⟨-, corners, hcorners, rfl⟩ := mem_cutAlong_cases ht hx
  · exact Or.inl rfl
  · refine Or.inr (ScreenTriangle.pieceWithin_piece ht fun q hq => ?_)
    obtain hsub | hsub := region_subset_of_mem_cutTriangles ht hcorners
    · exact (hsub (Polygon.mem_region hq)).1
    · exact (hsub (Polygon.mem_region hq)).1

/-- Cutting a pair gives pieces within their own parents. -/
theorem pieceWithin_of_cutPair? (hpair : cutPair? rule f g = some (P, Q)) :
    (∀ x ∈ P.toList, x = f ∨ PieceWithin f x) ∧ ∀ x ∈ Q.toList, x = g ∨ PieceWithin g x := by
  obtain ⟨o, cut, ho, -, -, rfl, rfl⟩ := cutPair?_eq_some_iff.mp hpair
  obtain ⟨-, ht, hu, -⟩ := ofFragments?_eq_some_iff.mp ho
  exact ⟨fun x hx => pieceWithin_of_mem_cutAlong ht hx,
    fun x hx => pieceWithin_of_mem_cutAlong hu hx⟩

theorem pieceWithin_of_splitPair (hsplit : splitPair rule f g = (P, Q)) :
    (∀ x ∈ P.toList, x = f ∨ PieceWithin f x) ∧ ∀ x ∈ Q.toList, x = g ∨ PieceWithin g x := by
  cases hpair : cutPair? rule f g with
  | none =>
      rw [splitPair, hpair, Option.getD_none, Prod.mk.injEq] at hsplit
      obtain ⟨rfl, rfl⟩ := hsplit
      exact ⟨fun x hx => Or.inl (List.mem_singleton.mp hx),
        fun x hx => Or.inl (List.mem_singleton.mp hx)⟩
  | some pieces =>
      rw [splitPair, hpair, Option.getD_some] at hsplit
      exact pieceWithin_of_cutPair? (hpair.trans (congrArg some hsplit))

theorem mem_region_of_mem_sharedParts {poly : Polygon ℚ} (hpoly : poly ∈ sharedParts rule o) :
    ∀ v ∈ poly, v ∈ o.polygon.region := by
  intro v hv
  unfold sharedParts at hpoly
  split at hpoly
  · rw [List.mem_pair] at hpoly
    obtain rfl | rfl := hpoly
    · exact (Polygon.mem_clip hv).1
    · exact (Polygon.mem_clip hv).1
  · obtain rfl := List.mem_singleton.mp hpoly
    exact Polygon.mem_region hv

theorem pieceWithin_of_mem_piecesOver {t other : ScreenTriangle ℚ} {shared : List (Polygon ℚ)}
    (ht : ScreenTriangle.ofFragment? f = some t)
    (hshared : ∀ poly ∈ shared, ∀ v ∈ poly, v ∈ f.region)
    (hx : x ∈ piecesOver rule shared t other) : PieceWithin f x := by
  obtain ⟨corners, hcorners, rfl⟩ := List.mem_map.mp hx
  obtain ⟨poly, hpoly, hcorners⟩ := List.mem_flatMap.mp hcorners
  refine ScreenTriangle.pieceWithin_piece ht fun q hq => ?_
  have hmem : q ∈ poly := Polygon.mem_of_mem_triangulate hcorners q hq
  obtain hpoly | hpoly := List.mem_append.mp hpoly
  · exact hshared poly hpoly q hmem
  · rw [← ScreenTriangle.region_footprint ht]
    exact Polygon.mem_region_of_mem_peel hpoly q hmem

/-- So does a partition in place. -/
theorem pieceWithin_of_partition? (ho : ofFragments? rule f g = some o)
    (hpartition : partition? rule o = some (P, Q)) :
    (∀ x ∈ P.toList, PieceWithin f x) ∧ ∀ x ∈ Q.toList, PieceWithin g x := by
  obtain ⟨-, ht, hu, -⟩ := ofFragments?_eq_some_iff.mp ho
  have hshared : ∀ poly ∈ sharedParts rule o, ∀ v ∈ poly, v ∈ f.region ∩ g.region := by
    intro poly hpoly v hv
    have hconvex : Convex ℚ (f.region ∩ g.region) :=
      (Polygon.convex_region _).inter (Polygon.convex_region _)
    exact (Polygon.region_subset_iff hconvex).mpr (mem_regions_of_mem_polygon ho)
      (mem_region_of_mem_sharedParts hpoly v hv)
  obtain ⟨hP, hQ⟩ := toList_of_partition? hpartition
  rw [hP, hQ]
  exact ⟨fun x hx => pieceWithin_of_mem_piecesOver ht (fun poly hpoly v hv =>
      (hshared poly hpoly v hv).1) hx,
    fun x hx => pieceWithin_of_mem_piecesOver hu (fun poly hpoly v hv =>
      (hshared poly hpoly v hv).2) hx⟩

theorem pieceWithin_of_splitInPlace {buffer : Array (Fragment ℚ)} {i j k : Nat}
    (hx : (splitInPlace rule buffer i j).2[k]? = some x) :
    buffer[k]? = some x ∨ ∃ f g, buffer[i]? = some f ∧ buffer[j]? = some g ∧
      (PieceWithin f x ∨ PieceWithin g x) := by
  obtain hkept | ⟨P, Q, hslots, hx⟩ := splitInPlace_cases hx
  · exact Or.inl hkept
  · obtain ⟨f, g, o, hf, hg, ho, hpartition⟩ := partitionSlots?_eq_some hslots
    obtain ⟨hP, hQ⟩ := pieceWithin_of_partition? ho hpartition
    exact Or.inr ⟨f, g, hf, hg, hx.imp (hP x) (hQ x)⟩

end Overlap

/-! ### Buffers and lists -/

def AllProjectedBy (m : Mat4 ℚ) (buffer : Array (Fragment ℚ)) : Prop :=
  ∀ f ∈ buffer, f.kind = .triangle → f.ProjectedBy m

section Runs

variable {m : Mat4 ℚ} {rule : SplitRule ℚ}

/-- A call leaves a consistent buffer consistent. -/
theorem AllProjectedBy.splitInPlace {buffer : Array (Fragment ℚ)}
    (hbuffer : AllProjectedBy m buffer) (i j : Nat) :
    AllProjectedBy m (Overlap.splitInPlace rule buffer i j).2 := by
  intro x hx hkind
  obtain ⟨k, hk⟩ := Array.mem_iff_getElem?.mp hx
  obtain hkept | ⟨f, g, hf, hg, hpiece | hpiece⟩ := Overlap.pieceWithin_of_splitInPlace hk
  · exact hbuffer x (Array.mem_of_getElem? hkept) hkind
  · exact hpiece.projectedBy
      (hbuffer f (Array.mem_of_getElem? hf) (hpiece.kind_eq.symm.trans hkind))
  · exact hpiece.projectedBy
      (hbuffer g (Array.mem_of_getElem? hg) (hpiece.kind_eq.symm.trans hkind))

/-- However often pieces have been cut into pieces, a consistent triangle has consistent ones. -/
theorem projectedBy_of_chain {f x : Fragment ℚ} (hf : f.ProjectedBy m)
    (hchain : Relation.ReflTransGen PieceWithin f x) :
    x.ProjectedBy m ∧ Relation.ReflTransGen CutInPerspective f x := by
  induction hchain with
  | refl => exact ⟨hf, .refl⟩
  | tail _ hpiece ih => exact ⟨hpiece.projectedBy ih.1, ih.2.tail (hpiece.cutInPerspective ih.1)⟩

theorem kind_eq_of_chain {f x : Fragment ℚ} (hchain : Relation.ReflTransGen PieceWithin f x) :
    x.kind = f.kind := by
  induction hchain with
  | refl => rfl
  | tail _ hpiece ih => exact hpiece.kind_eq.trans ih

theorem AllProjectedBy.resolve {list : FragmentList ℚ} (hlist : AllProjectedBy m list.fragments)
    {x : Fragment ℚ} (hx : x ∈ (list.resolve rule).2.fragments) (hkind : x.kind = .triangle) :
    x.ProjectedBy m ∧ ∃ f ∈ list.fragments, Relation.ReflTransGen CutInPerspective f x := by
  obtain ⟨f, hf, hchain⟩ := Resolution.exists_ancestor_run
    (fun f g P Q hpair => Overlap.pieceWithin_of_cutPair? hpair) list.fragments x hx
  obtain ⟨hprojected, hperspective⟩ :=
    projectedBy_of_chain (hlist f hf ((kind_eq_of_chain hchain).symm.trans hkind)) hchain
  exact ⟨hprojected, f, hf, hperspective⟩

end Runs

namespace Overlap

/-- **Splitting keeps the projection.** Pieces of consistent triangles are consistent, from cutting
a pair, from any number of partitions in place and from resolving a list, so projecting them anew
changes nothing; and no vertex of a piece is blended without perspective, since over a consistent
triangle the inverse `w` is positive. -/
theorem splitting_keeps_projection (m : Mat4 ℚ) (rule : SplitRule ℚ) :
    (∀ (f g : Fragment ℚ) (P Q : Pieces ℚ), f.ProjectedBy m → g.ProjectedBy m →
      splitPair rule f g = (P, Q) →
      (∀ x ∈ P.toList, x.ProjectedBy m ∧ x.reproject m = x ∧ (x = f ∨ CutInPerspective f x)) ∧
      ∀ x ∈ Q.toList, x.ProjectedBy m ∧ x.reproject m = x ∧ (x = g ∨ CutInPerspective g x)) ∧
    (∀ (buffer : Array (Fragment ℚ)) (i j : Nat) (f g : Fragment ℚ), buffer[i]? = some f →
      buffer[j]? = some g → f.ProjectedBy m → g.ProjectedBy m →
      ∀ (k : Nat) (x : Fragment ℚ), (splitInPlace rule buffer i j).2[k]? = some x →
        buffer[k]? = some x ∨ (x.ProjectedBy m ∧ x.reproject m = x ∧
          (CutInPerspective f x ∨ CutInPerspective g x))) ∧
    (∀ (buffer : Array (Fragment ℚ)) (calls : List (Nat × Nat)), AllProjectedBy m buffer →
      AllProjectedBy m (splitCalls rule buffer calls).2) ∧
    (∀ list : FragmentList ℚ, AllProjectedBy m list.fragments →
      ∀ x ∈ (list.resolve rule).2.fragments, x.kind = .triangle →
        x.ProjectedBy m ∧ x.reproject m = x ∧
          ∃ f ∈ list.fragments, Relation.ReflTransGen CutInPerspective f x) ∧
    ∀ (f : Fragment ℚ) (t : ScreenTriangle ℚ) (q : Vec2 ℚ), f.ProjectedBy m →
      ScreenTriangle.ofFragment? f = some t → q ∈ f.region → 0 < t.inverseW q := by
  have hpair : ∀ f x : Fragment ℚ, f.ProjectedBy m → x = f ∨ PieceWithin f x →
      x.ProjectedBy m ∧ x.reproject m = x ∧ (x = f ∨ CutInPerspective f x) := by
    rintro f x hf (rfl | hpiece)
    · exact ⟨hf, hf.reproject_eq, Or.inl rfl⟩
    · obtain ⟨hx, hsame, hcut⟩ := hpiece.consistent hf
      exact ⟨hx, hsame, Or.inr hcut⟩
  refine ⟨?_, ?_, ?_, ?_, ?_⟩
  · intro f g P Q hf hg hsplit
    obtain ⟨hP, hQ⟩ := pieceWithin_of_splitPair hsplit
    exact ⟨fun x hx => hpair f x hf (hP x hx), fun x hx => hpair g x hg (hQ x hx)⟩
  · intro buffer i j f g hi hj hf hg k x hx
    obtain hkept | ⟨f', g', hi', hj', hpiece⟩ := pieceWithin_of_splitInPlace hx
    · exact Or.inl hkept
    · obtain rfl : f = f' := Option.some.inj (hi.symm.trans hi')
      obtain rfl : g = g' := Option.some.inj (hj.symm.trans hj')
      obtain hpiece | hpiece := hpiece
      · obtain ⟨hx, hsame, hcut⟩ := hpiece.consistent hf
        exact Or.inr ⟨hx, hsame, Or.inl hcut⟩
      · obtain ⟨hx, hsame, hcut⟩ := hpiece.consistent hg
        exact Or.inr ⟨hx, hsame, Or.inr hcut⟩
  · intro buffer calls hbuffer
    exact splitCalls_invariant (fun _ i j hlater => hlater.splitInPlace i j) hbuffer calls
  · intro list hlist x hx hkind
    obtain ⟨hprojected, hchain⟩ := hlist.resolve hx hkind
    exact ⟨hprojected, hprojected.reproject_eq, hchain⟩
  · intro f t q hf ht hq
    exact ScreenTriangle.inverseW_pos hf ht hq

/-- A perspective with the eye at the origin, whose depths run from -1 at distance 1 to 1 at
distance 3. -/
def lens : Mat4 ℚ :=
  ⟨⟨1, 0, 0, 0⟩, ⟨0, 1, 0, 0⟩, ⟨0, 0, -2, -1⟩, ⟨0, 0, -3, 0⟩⟩

def seen (x y z : ℚ) : Vertex ℚ :=
  Vertex.ofClip ⟨x, y, z⟩ (lens.apply ⟨x, y, z, 1⟩)

def wall : Fragment ℚ :=
  .ofTriangle ⟨0⟩ none ⟨seen 0 0 (-2), seen 8 0 (-2), seen 0 8 (-2)⟩

/-- A triangle that runs through `wall` away from the eye, with corners of different `w`. -/
def slope : Fragment ℚ :=
  .ofTriangle ⟨1⟩ none ⟨seen 0 0 (-1), seen 12 0 (-3), seen 0 12 (-3)⟩

def wallAndSlope : FragmentList ℚ where
  fragments := #[wall, slope]

/-- Both triangles fall into three pieces, by a cut of the pair, in place and in a list. -/
theorem wall_slope_keep_projection :
    wall.ProjectedBy lens ∧ slope.ProjectedBy lens ∧
    (splitPair .standard wall slope).2.count = 3 ∧
    (∀ x ∈ (splitPair .standard wall slope).2.toList,
      x.ProjectedBy lens ∧ x.reproject lens = x ∧ (x = slope ∨ CutInPerspective slope x)) ∧
    (splitInPlace .standard wallAndSlope.fragments 0 1).1 = (3, 3) ∧
    AllProjectedBy lens (splitInPlace .standard wallAndSlope.fragments 0 1).2 ∧
    (wallAndSlope.resolve .standard).2.size = 6 ∧
    ∀ x ∈ (wallAndSlope.resolve .standard).2.fragments, x.kind = .triangle →
      x.ProjectedBy lens ∧ x.reproject lens = x ∧
        ∃ f ∈ wallAndSlope.fragments, Relation.ReflTransGen CutInPerspective f x := by
  have hwall : wall.ProjectedBy lens := by decide +kernel
  have hslope : slope.ProjectedBy lens := by decide +kernel
  have hbuffer : AllProjectedBy lens wallAndSlope.fragments := by
    intro f hf _
    obtain rfl | rfl : f = wall ∨ f = slope := by simpa [wallAndSlope] using hf
    · exact hwall
    · exact hslope
  obtain ⟨hpair, -, hcalls, hresolve, -⟩ := splitting_keeps_projection lens .standard
  exact ⟨hwall, hslope, by decide +kernel, (hpair wall slope _ _ hwall hslope rfl).2,
    by decide +kernel, hcalls _ [(0, 1)] hbuffer, by decide +kernel, hresolve _ hbuffer⟩

end Overlap

end PainterScene
