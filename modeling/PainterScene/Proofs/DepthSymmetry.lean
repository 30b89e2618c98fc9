import PainterScene.Overlap.Depth
import PainterScene.Proofs.Crossing
import PainterScene.Proofs.Intersection

/-!
# Depths over an overlap, from both sides

The depths of two fragments over their overlap are the same whichever comes first. Two triangles
clip each other by different lines and find the vertices of the overlap in different orders, but
with exact arithmetic both find its corners, each of them once.
-/

namespace PainterScene

open Vec2

theorem Scalar.mean_perm {xs ys : List ℚ} (hperm : xs.Perm ys) : mean xs = mean ys := by
  rw [mean, mean, hperm.length_eq, hperm.foldl_eq]

/-- Both the determinant and the offset between the starts change their sign. -/
theorem Segment.crossing?_comm (s t : Segment ℚ) :
    t.crossing? s = (s.crossing? t).map Prod.swap := by
  have hden : (t.stop - t.start).cross (s.stop - s.start) =
      -(s.stop - s.start).cross (t.stop - t.start) := by
    simp only [cross, sub_x, sub_y]
    ring
  have hoffset : ∀ d : Vec2 ℚ, (s.start - t.start).cross d = -(t.start - s.start).cross d := by
    intro d
    simp only [cross, sub_x, sub_y]
    ring
  simp only [crossing?, hden, hoffset, neg_div_neg_eq, Scalar.abs_eq, abs_neg]
  split
  · rfl
  · split <;> split <;> simp_all

namespace ScreenTriangle

variable {f g : Fragment ℚ} {first second : ScreenTriangle ℚ}

theorem allCorners_footprint (ht : ofFragment? f = some first) : first.footprint.AllCorners := by
  obtain ⟨hfootprint, hturn⟩ | ⟨hfootprint, hturn⟩ := footprint_cases ht
  · exact hfootprint ▸ Polygon.allCorners_triangle hturn
  · exact hfootprint ▸ Polygon.allCorners_triangle hturn

theorem region_intersect_comm (hf : ofFragment? f = some first) (hg : ofFragment? g = some second) :
    Polygon.region (Polygon.intersect 0 second.footprint first.footprint) =
      Polygon.region (Polygon.intersect 0 first.footprint second.footprint) := by
  rw [Polygon.region_intersect_eq (isConvex_footprint hg) (isConvex_footprint hf)
      (area_footprint_pos hf),
    Polygon.region_intersect_eq (isConvex_footprint hf) (isConvex_footprint hg)
      (area_footprint_pos hg), Set.inter_comm]

theorem nodup_intersect (hf : ofFragment? f = some first) (hg : ofFragment? g = some second) :
    (Polygon.intersect 0 first.footprint second.footprint).Nodup :=
  Polygon.nodup_intersect (isConvex_footprint hf) (area_footprint_pos hf).ne'
    (Polygon.ne_nil_of_area_pos (area_footprint_pos hg))

/-- Either way round, the vertices are the corners of the overlap. -/
theorem perm_intersect (hf : ofFragment? f = some first) (hg : ofFragment? g = some second) :
    (Polygon.intersect 0 second.footprint first.footprint).Perm
      (Polygon.intersect 0 first.footprint second.footprint) :=
  ((allCorners_footprint hg).intersect (isConvex_footprint hg) _).perm
    ((allCorners_footprint hf).intersect (isConvex_footprint hf) _) (nodup_intersect hg hf)
    (nodup_intersect hf hg) (region_intersect_comm hf hg)

theorem area_intersect_comm (hf : ofFragment? f = some first) (hg : ofFragment? g = some second) :
    Polygon.area (Polygon.intersect 0 second.footprint first.footprint) =
      Polygon.area (Polygon.intersect 0 first.footprint second.footprint) :=
  Polygon.area_eq_of_region_eq ((isConvex_footprint hg).intersect 0 _)
    ((isConvex_footprint hf).intersect 0 _) (region_intersect_comm hf hg)

end ScreenTriangle

namespace Overlap

variable {rule : SplitRule ℚ}

/-- The common polygon has the same vertices whichever triangle is clipped, and a mean does not
depend on their order. -/
theorem trianglesDepth?_comm (hmerge : rule.mergeDistance = 0) (f g : Fragment ℚ) :
    trianglesDepth? rule g f = (trianglesDepth? rule f g).map Prod.swap := by
  cases hf : ScreenTriangle.ofFragment? f with
  | none =>
      cases hg : ScreenTriangle.ofFragment? g with
      | none => simp [trianglesDepth?, hf, hg]
      | some second => simp [trianglesDepth?, hf, hg]
  | some first =>
      cases hg : ScreenTriangle.ofFragment? g with
      | none => simp [trianglesDepth?, hf, hg]
      | some second =>
          have hperm := ScreenTriangle.perm_intersect hf hg
          simp only [trianglesDepth?, hf, hg, hmerge, Option.bind_eq_bind, Option.bind_some,
            ScreenTriangle.area_intersect_comm hf hg]
          split
          · rfl
          · rw [Scalar.mean_perm (hperm.map _), Scalar.mean_perm (hperm.map _)]
            rfl

theorem segmentsDepth?_comm (f g : Fragment ℚ) :
    segmentsDepth? g f = (segmentsDepth? f g).map Prod.swap := by
  rw [segmentsDepth?, segmentsDepth?, Segment.crossing?_comm]
  cases f.screenSegment.crossing? g.screenSegment <;> rfl

/-- Sampled in the other order, the depths are swapped. -/
theorem sampledDepths?_comm (hmerge : rule.mergeDistance = 0) (f g : Fragment ℚ) :
    sampledDepths? rule g f = (sampledDepths? rule f g).map Prod.swap := by
  have htwice : ∀ pair : Option (ℚ × ℚ), (pair.map Prod.swap).map Prod.swap = pair := by
    rintro (_ | pair) <;> rfl
  cases hf : f.kind <;> cases hg : g.kind <;>
    simp only [sampledDepths?, hf, hg, htwice, Option.map_none]
  · exact trianglesDepth?_comm hmerge f g
  · exact segmentsDepth?_comm f g

/-- **The depths do not depend on the order of the fragments.** -/
theorem depths_swap (rule : SplitRule ℚ) (hmerge : rule.mergeDistance = 0) (f g : Fragment ℚ) :
    depths rule g f = (depths rule f g).swap := by
  rw [depths, depths, sampledDepths?_comm hmerge f g]
  cases sampledDepths? rule f g <;> rfl

/-- Each of its sides cuts off a corner of `level`, so that their overlap is a hexagon. -/
def slanted : Fragment ℚ :=
  .ofTriangle ⟨1⟩ none ⟨flatVertex 3 3 6, flatVertex (-1) 3 2, flatVertex 3 (-1) 2⟩

theorem depths_level_slanted :
    let rule := { coarse with mergeDistance := 0 }
    depths rule level slanted = (0, 3) ∧ depths rule slanted level = (3, 0) := by
  intro rule
  have hdepths : depths rule level slanted = (0, 3) := by decide +kernel
  refine ⟨hdepths, ?_⟩
  rw [depths_swap rule rfl level slanted, hdepths, Prod.swap_prod_mk]

end Overlap

end PainterScene
