import PainterScene.Proofs.Intersection
import PainterScene.Proofs.Meeting

/-!
# Depths over an overlap stay in range

Wherever two fragments are sampled, each sample is taken inside the fragment it belongs to: at the
vertices of a common polygon, at a parameter between the ends of a line, or at a point that the
triangle covers. There the depth lies between the least and the greatest depth of the corners, and
lines and markers are brought nearer by the same bias in the sample and in the bounds. So depth
ranges that are apart are ordered by the samples as well.
-/

namespace PainterScene

open Vec2

theorem Scalar.mean_mem_Icc {xs : List ℚ} {low high : ℚ} (hne : xs ≠ [])
    (hbounds : ∀ x ∈ xs, x ∈ Set.Icc low high) : mean xs ∈ Set.Icc low high := by
  have hlength : (0 : ℚ) < xs.length := by exact_mod_cast List.length_pos_iff.mpr hne
  rw [mean, ← List.sum_eq_foldl]
  constructor
  · rw [le_div_iff₀ hlength]
    calc low * xs.length = xs.length • low := by rw [nsmul_eq_mul, mul_comm]
      _ ≤ xs.sum := List.card_nsmul_le_sum xs low fun x hx => (hbounds x hx).1
  · rw [div_le_iff₀ hlength]
    calc xs.sum ≤ xs.length • high := List.sum_le_card_nsmul xs high fun x hx => (hbounds x hx).2
      _ = high * xs.length := by rw [nsmul_eq_mul, mul_comm]

namespace Fragment

variable {f : Fragment ℚ} {t : ScreenTriangle ℚ}

def depthRange (f : Fragment ℚ) : Set ℚ :=
  Set.Icc f.minDepth f.maxDepth

/-- Over what it covers, a triangle has depths between those of its corners. -/
theorem eval_mem_depthRange (ht : ScreenTriangle.ofFragment? f = some t) {x : Vec2 ℚ}
    (hx : x ∈ f.region) : t.depthPlane.eval x ∈ f.depthRange :=
  ⟨ScreenTriangle.minDepth_le_eval ht hx, ScreenTriangle.eval_le_maxDepth ht hx⟩

theorem mean_eval_mem_depthRange (ht : ScreenTriangle.ofFragment? f = some t) {polygon : Polygon ℚ}
    (hne : polygon ≠ []) (hinside : ∀ v ∈ polygon, v ∈ f.region) :
    Scalar.mean (polygon.map t.depthPlane.eval) ∈ f.depthRange := by
  refine Scalar.mean_mem_Icc (by simpa using hne) fun depth hdepth => ?_
  obtain ⟨v, hv, rfl⟩ := List.mem_map.mp hdepth
  exact eval_mem_depthRange ht (hinside v hv)

/-- A depth between the ends of a line is a convex combination of theirs. -/
theorem depthAlong_mem_depthRange (hkind : f.kind = .segment) {s : ℚ}
    (hs : s ∈ Set.Icc (0 : ℚ) 1) : f.depthAlong s ∈ f.depthRange := by
  set start := f.vertices.first.depth with hstart
  set stop := f.vertices.second.depth with hstop
  have hbetween : start + s • (stop - start) ∈ Set.Icc (min start stop) (max start stop) :=
    (convex_Icc _ _).add_smul_sub_mem ⟨min_le_left _ _, le_max_left _ _⟩
      ⟨min_le_right _ _, le_max_right _ _⟩ hs
  simp only [depthRange, depthAlong, depthBias, minDepth, maxDepth, hkind, Scalar.min_eq,
    Scalar.max_eq, ← hstart, ← hstop, mul_comm _ s]
  exact ⟨sub_le_sub_right hbetween.1 _, sub_le_sub_right hbetween.2 _⟩

theorem meanDepth_mem_depthRange (hkind : f.kind ≠ .empty) : f.meanDepth ∈ f.depthRange := by
  cases hcase : f.kind with
  | empty => exact absurd hcase hkind
  | triangle =>
      have hmean : f.meanDepth = Scalar.mean (f.vertices.toList.map Vertex.depth) := by
        simp only [meanDepth, hcase, Scalar.mean, Triple.toList, List.map_cons, List.map_nil,
          List.foldl_cons, List.foldl_nil, List.length_cons, List.length_nil]
        norm_num
      rw [hmean]
      refine Scalar.mean_mem_Icc (by simp [Triple.toList]) fun depth hdepth => ?_
      obtain ⟨v, hv, rfl⟩ := List.mem_map.mp hdepth
      exact ScreenTriangle.depth_mem_range hcase hv
  | segment =>
      have hmiddle : f.meanDepth = f.depthAlong (1 / 2) := by
        simp only [meanDepth, depthAlong, depthBias, hcase]
        ring
      rw [hmiddle]
      exact depthAlong_mem_depthRange hcase (by norm_num)
  | marker => simp [depthRange, meanDepth, minDepth, maxDepth, hcase]

end Fragment

namespace Overlap

variable {rule : SplitRule ℚ} {f g : Fragment ℚ} {samples : ℚ × ℚ}

theorem trianglesDepth?_mem (harea : 0 ≤ rule.areaTolerance)
    (hsamples : trianglesDepth? rule f g = some samples) :
    samples ∈ f.depthRange ×ˢ g.depthRange := by
  simp only [trianglesDepth?, Option.bind_eq_bind, Option.bind_eq_some_iff] at hsamples
  obtain ⟨t, ht, u, hu, hsamples⟩ := hsamples
  rw [Option.ite_none_left_eq_some, Option.some.injEq] at hsamples
  obtain ⟨hlarge, rfl⟩ := hsamples
  set polygon := Polygon.intersect rule.mergeDistance t.footprint u.footprint
  have hne : polygon ≠ [] := Polygon.ne_nil_of_area_pos (harea.trans_lt (not_le.mp hlarge))
  have hcommon : ∀ v ∈ polygon, v ∈ f.region ∩ g.region :=
    fun v hv => mem_regions_of_mem_intersect ht hu hv
  exact ⟨Fragment.mean_eval_mem_depthRange ht hne fun v hv => (hcommon v hv).1,
    Fragment.mean_eval_mem_depthRange hu hne fun v hv => (hcommon v hv).2⟩

theorem triangleSegmentDepth?_mem (hg : g.kind = .segment)
    (hsamples : triangleSegmentDepth? f g = some samples) :
    samples ∈ f.depthRange ×ˢ g.depthRange := by
  obtain ⟨t, ht, -⟩ := Option.bind_eq_some_iff.mp hsamples
  rw [triangleSegmentDepth?_eq ht, Option.map_eq_some_iff] at hsamples
  obtain ⟨range, hrange, rfl⟩ := hsamples
  -- the range is not empty, so its middle is one of the parameters over the triangle
  have horder : range.1 ≤ range.2 := Segment.fst_le_snd_of_foldlM zero_le_one hrange
  have hmiddle : (range.1 + range.2) / 2 ∈ g.screenSegment.inside f.region := by
    rw [← span_clip?_footprint ht, hrange]
    constructor <;> linarith
  exact ⟨Fragment.eval_mem_depthRange ht hmiddle.2,
    Fragment.depthAlong_mem_depthRange hg hmiddle.1⟩

theorem triangleMarkerDepth?_mem (hg : g.kind = .marker)
    (hsamples : triangleMarkerDepth? f g = some samples) :
    samples ∈ f.depthRange ×ˢ g.depthRange := by
  obtain ⟨t, ht, -⟩ := Option.bind_eq_some_iff.mp hsamples
  rw [triangleMarkerDepth?_eq ht, Option.ite_none_right_eq_some, Option.some.injEq] at hsamples
  obtain ⟨hcovered, rfl⟩ := hsamples
  exact ⟨Fragment.eval_mem_depthRange ht hcovered,
    Fragment.meanDepth_mem_depthRange (by simp [hg])⟩

theorem segmentsDepth?_mem (hf : f.kind = .segment) (hg : g.kind = .segment)
    (hsamples : segmentsDepth? f g = some samples) : samples ∈ f.depthRange ×ˢ g.depthRange := by
  simp only [segmentsDepth?, Option.bind_eq_bind, Option.bind_eq_some_iff, Option.some.injEq]
    at hsamples
  obtain ⟨⟨a, b⟩, hcrossing, rfl⟩ := hsamples
  obtain ⟨-, ha, hb, -⟩ := Segment.crossing?_eq_some_iff.mp hcrossing
  exact ⟨Fragment.depthAlong_mem_depthRange hf ha, Fragment.depthAlong_mem_depthRange hg hb⟩

/-- Depths that are sampled where two fragments meet lie within the range of each. -/
theorem sampledDepths?_mem (harea : 0 ≤ rule.areaTolerance)
    (hsamples : sampledDepths? rule f g = some samples) :
    samples ∈ f.depthRange ×ˢ g.depthRange := by
  revert hsamples
  fun_cases sampledDepths? rule f g with
  | case1 hg hf => exact trianglesDepth?_mem harea
  | case2 hg hf => exact triangleSegmentDepth?_mem hg
  | case3 hg hf =>
      rw [Option.map_eq_some_iff]
      rintro ⟨swapped, hswapped, rfl⟩
      exact (triangleSegmentDepth?_mem hf hswapped).symm
  | case4 hg hf => exact triangleMarkerDepth?_mem hg
  | case5 hg hf =>
      rw [Option.map_eq_some_iff]
      rintro ⟨swapped, hswapped, rfl⟩
      exact (triangleMarkerDepth?_mem hf hswapped).symm
  | case6 hg hf => exact segmentsDepth?_mem hf hg
  | case7 => simp

/-- **The depths of two fragments stay within their own ranges**, so that of two fragments with
ranges apart the nearer one has the smaller depth. -/
theorem depths_within_range (rule : SplitRule ℚ) (harea : 0 ≤ rule.areaTolerance)
    (f g : Fragment ℚ) (hf : f.kind ≠ .empty) (hg : g.kind ≠ .empty) :
    f.minDepth ≤ (depths rule f g).1 ∧ (depths rule f g).1 ≤ f.maxDepth ∧
      g.minDepth ≤ (depths rule f g).2 ∧ (depths rule f g).2 ≤ g.maxDepth ∧
      (f.maxDepth < g.minDepth → (depths rule f g).1 < (depths rule f g).2) := by
  have hrange : depths rule f g ∈ f.depthRange ×ˢ g.depthRange := by
    rw [depths]
    cases hsamples : sampledDepths? rule f g with
    | none =>
        exact ⟨Fragment.meanDepth_mem_depthRange hf, Fragment.meanDepth_mem_depthRange hg⟩
    | some samples => exact sampledDepths?_mem harea hsamples
  obtain ⟨⟨hlow, hhigh⟩, hlow', hhigh'⟩ := hrange
  exact ⟨hlow, hhigh, hlow', hhigh', fun hapart => hhigh.trans_lt (hapart.trans_le hlow')⟩

/-- The beam is sampled in the middle of its part over the roof, which is nearer to its start. It is
behind all of `level`. -/
theorem depths_beam_within_range :
    beam.minDepth = 1 - 1 / 1000 ∧ beam.maxDepth = 9 - 1 / 1000 ∧
    beam.minDepth ≤ (depths .standard roof beam).2 ∧
    (depths .standard roof beam).2 ≤ beam.maxDepth ∧
    level.maxDepth < beam.minDepth ∧
    (depths .standard level beam).1 < (depths .standard level beam).2 := by
  have hapart : level.maxDepth < beam.minDepth := by decide +kernel
  obtain ⟨-, -, hlow, hhigh, -⟩ := depths_within_range .standard (by decide +kernel) roof beam
    (by decide) (by decide)
  obtain ⟨-, -, -, -, horder⟩ := depths_within_range .standard (by decide +kernel) level beam
    (by decide) (by decide)
  exact ⟨by decide +kernel, by decide +kernel, hlow, hhigh, hapart, horder hapart⟩

end Overlap

end PainterScene
