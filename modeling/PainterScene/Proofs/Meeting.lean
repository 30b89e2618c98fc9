import PainterScene.Overlap.Depth
import PainterScene.Proofs.Crossing

/-!
# Where lines and markers meet other fragments

A line is clipped to a triangle by narrowing a range of parameters, one side of the triangle after
the other. With exact arithmetic each side takes away just the parameters on its wrong side, whether
the line ends on a side, runs along it or passes through a corner, so what is left is the set of
parameters at which the line is over the triangle, and nothing is left when it misses. Two lines
that are not parallel have one pair of parameters at which their points agree, by Cramer's rule; the
lines meet if both lie between 0 and 1.
-/

namespace PainterScene

open Vec2

/-! ### One side of a triangle -/

namespace HalfPlane

variable {h : HalfPlane ℚ} {p q : Vec2 ℚ} {t : ℚ}

theorem eval_lerp (h : HalfPlane ℚ) (p q : Vec2 ℚ) (t : ℚ) :
    h.eval (p.lerp q t) = h.eval p + (h.eval q - h.eval p) * t := by
  rw [lerp_eq, eval_combination h p q (sub_add_cancel 1 t)]
  ring

theorem eval_lerp_nonneg (hp : 0 ≤ h.eval p) (hq : 0 ≤ h.eval q) (ht : t ∈ Set.Icc (0 : ℚ) 1) :
    0 ≤ h.eval (p.lerp q t) := by
  rw [lerp_eq]
  exact h.convex_nonneg hp hq (sub_nonneg.mpr ht.2) ht.1 (sub_add_cancel 1 t)

theorem eval_lerp_neg (hp : h.eval p < 0) (hq : h.eval q < 0) (ht : t ∈ Set.Icc (0 : ℚ) 1) :
    h.eval (p.lerp q t) < 0 := by
  rw [lerp_eq]
  exact h.convex_neg hp hq (sub_nonneg.mpr ht.2) ht.1 (sub_add_cancel 1 t)

/-- A way out of the half-plane is inside up to the crossing. -/
theorem eval_lerp_nonneg_iff_le (hp : 0 ≤ h.eval p) (hq : h.eval q < 0) :
    0 ≤ h.eval (p.lerp q t) ↔ t ≤ h.crossing p q := by
  rw [eval_lerp, crossing, le_div_iff₀ (by linarith)]
  constructor <;> intro hle <;> linarith

/-- A way into the half-plane is inside from the crossing on. -/
theorem eval_lerp_nonneg_iff_ge (hp : h.eval p < 0) (hq : 0 ≤ h.eval q) :
    0 ≤ h.eval (p.lerp q t) ↔ h.crossing p q ≤ t := by
  rw [eval_lerp, crossing, div_le_iff_of_neg (by linarith)]
  constructor <;> intro hle <;> linarith

end HalfPlane

namespace Segment

def span : Option (ℚ × ℚ) → Set ℚ
  | none => ∅
  | some range => Set.Icc range.1 range.2

def inside (s : Segment ℚ) (K : Set (Vec2 ℚ)) : Set ℚ :=
  {t | t ∈ Set.Icc (0 : ℚ) 1 ∧ s.point t ∈ K}

variable {s : Segment ℚ} {range : ℚ × ℚ} {planes : List (HalfPlane ℚ)}

theorem span_filter (range? : Option (ℚ × ℚ)) :
    span (range?.filter fun r => !decide (r.2 < r.1)) = span range? := by
  cases range? with
  | none => rfl
  | some r =>
      rw [Option.filter_some]
      split
      · rfl
      · rename_i hreversed
        have hlt : r.2 < r.1 := by simpa using hreversed
        exact (Set.Icc_eq_empty (not_le.mpr hlt)).symm

/-- One half-plane takes away exactly the parameters outside it. -/
theorem span_narrow (s : Segment ℚ) (h : HalfPlane ℚ)
    (hrange : Set.Icc range.1 range.2 ⊆ Set.Icc 0 1) :
    span (s.narrow range h) = Set.Icc range.1 range.2 ∩ {t | 0 ≤ h.eval (s.point t)} := by
  rw [narrow, span_filter]
  cases hstart : h.contains s.start <;> cases hstop : h.contains s.stop
  all_goals
    simp only [HalfPlane.contains_iff, HalfPlane.contains_eq_false_iff] at hstart hstop
    simp only [span, point]
    ext t
    simp only [Set.mem_inter_iff, Set.mem_ofPred_eq, Set.mem_empty_iff_false, false_iff, not_and,
      not_le]
  · exact fun ht => HalfPlane.eval_lerp_neg hstart hstop (hrange ht)
  · rw [HalfPlane.eval_lerp_nonneg_iff_ge hstart hstop, Scalar.max_eq, Set.mem_Icc, Set.mem_Icc,
      max_le_iff]
    tauto
  · rw [HalfPlane.eval_lerp_nonneg_iff_le hstart hstop, Scalar.min_eq, Set.mem_Icc, Set.mem_Icc,
      le_min_iff, and_assoc]
  · exact (and_iff_left_of_imp fun ht => HalfPlane.eval_lerp_nonneg hstart hstop (hrange ht)).symm

theorem span_foldlM (s : Segment ℚ) (planes : List (HalfPlane ℚ))
    (hrange : Set.Icc range.1 range.2 ⊆ Set.Icc 0 1) :
    span (planes.foldlM s.narrow range) =
      Set.Icc range.1 range.2 ∩ {t | ∀ h ∈ planes, 0 ≤ h.eval (s.point t)} := by
  induction planes generalizing range with
  | nil => simp [span]
  | cons h planes ih =>
      have hsplit : {t | ∀ g ∈ h :: planes, 0 ≤ g.eval (s.point t)} =
          {t | 0 ≤ h.eval (s.point t)} ∩ {t | ∀ g ∈ planes, 0 ≤ g.eval (s.point t)} := by
        ext t
        simp
      rw [hsplit, ← Set.inter_assoc, ← span_narrow s h hrange, List.foldlM_cons]
      cases hnarrow : s.narrow range h with
      | none => simp [span]
      | some narrowed =>
          have hnarrowed := span_narrow s h hrange
          rw [hnarrow, span] at hnarrowed
          exact ih (hnarrowed ▸ Set.inter_subset_left.trans hrange)

/-- A range that is left has its ends in order, so it is not empty. -/
theorem fst_le_snd_of_foldlM {narrowed : ℚ × ℚ} (hrange : range.1 ≤ range.2)
    (hfold : planes.foldlM s.narrow range = some narrowed) : narrowed.1 ≤ narrowed.2 := by
  induction planes generalizing range with
  | nil =>
      cases hfold
      exact hrange
  | cons h planes ih =>
      rw [List.foldlM_cons, Option.bind_eq_bind, Option.bind_eq_some_iff] at hfold
      obtain ⟨next, hnext, hfold⟩ := hfold
      have horder := (Option.filter_eq_some_iff.mp hnext).2
      simp only [Bool.not_eq_true', decide_eq_false_iff_not, not_lt] at horder
      exact ih horder hfold

theorem clip?_eq_none_iff : s.clip? planes = none ↔ span (s.clip? planes) = ∅ := by
  cases hclip : s.clip? planes with
  | none => simp [span]
  | some range =>
      have horder : range.1 ≤ range.2 := fst_le_snd_of_foldlM zero_le_one hclip
      have hne : span (some range) ≠ ∅ := (Set.nonempty_Icc.mpr horder).ne_empty
      simp [hne]

/-- Clipping a segment finds the parameters at which it lies in all the half-planes. -/
theorem span_clip? (s : Segment ℚ) (planes : List (HalfPlane ℚ)) :
    span (s.clip? planes) = s.inside {x | ∀ h ∈ planes, 0 ≤ h.eval x} :=
  span_foldlM s planes Set.Subset.rfl

/-! ### Two lines -/

def direction (s : Segment ℚ) : Vec2 ℚ :=
  s.stop - s.start

/-- Cramer's rule for the parameters at which two lines that are not parallel meet. -/
theorem point_eq_point_iff {t : Segment ℚ} {a b : ℚ} (hden : s.direction.cross t.direction ≠ 0) :
    s.point a = t.point b ↔
      a = (t.start - s.start).cross t.direction / s.direction.cross t.direction ∧
      b = (t.start - s.start).cross s.direction / s.direction.cross t.direction := by
  rw [eq_div_iff hden, eq_div_iff hden]
  simp only [direction, cross, sub_x, sub_y] at hden ⊢
  simp only [Vec2.ext_iff, point, lerp, scale, add_x, add_y, sub_x, sub_y]
  constructor
  · rintro ⟨hx, hy⟩
    constructor
    · linear_combination (t.stop.y - t.start.y) * hx - (t.stop.x - t.start.x) * hy
    · linear_combination (s.stop.y - s.start.y) * hx - (s.stop.x - s.start.x) * hy
  · rintro ⟨ha, hb⟩
    constructor
    · refine mul_left_cancel₀ hden ?_
      linear_combination (s.stop.x - s.start.x) * ha - (t.stop.x - t.start.x) * hb
    · refine mul_left_cancel₀ hden ?_
      linear_combination (s.stop.y - s.start.y) * ha - (t.stop.y - t.start.y) * hb

/-- Lines cross where they have a common point, if they are far enough from parallel. -/
theorem crossing?_eq_some_iff {t : Segment ℚ} {a b : ℚ} :
    s.crossing? t = some (a, b) ↔
      Scalar.epsilon < |s.direction.cross t.direction| ∧ a ∈ Set.Icc (0 : ℚ) 1 ∧
        b ∈ Set.Icc (0 : ℚ) 1 ∧ s.point a = t.point b := by
  by_cases hden : Scalar.epsilon < |s.direction.cross t.direction|
  · have hfar : ¬ Scalar.abs (s.direction.cross t.direction) ≤ Scalar.epsilon := by
      rwa [Scalar.abs_eq, not_le]
    set a' := (t.start - s.start).cross t.direction / s.direction.cross t.direction
    set b' := (t.start - s.start).cross s.direction / s.direction.cross t.direction
    have hdef : s.crossing? t =
        if 0 ≤ a' ∧ a' ≤ 1 ∧ 0 ≤ b' ∧ b' ≤ 1 then some (a', b') else none := if_neg hfar
    rw [point_eq_point_iff (abs_pos.mp (Scalar.epsilon_pos.trans hden)), hdef,
      Option.ite_none_right_eq_some, Option.some.injEq, Prod.mk.injEq]
    constructor
    · rintro ⟨⟨ha, ha', hb, hb'⟩, rfl, rfl⟩
      exact ⟨hden, ⟨ha, ha'⟩, ⟨hb, hb'⟩, rfl, rfl⟩
    · rintro ⟨-, ⟨ha, ha'⟩, ⟨hb, hb'⟩, rfl, rfl⟩
      exact ⟨⟨ha, ha', hb, hb'⟩, rfl, rfl⟩
  · have hnear : Scalar.abs (s.direction.cross t.direction) ≤ Scalar.epsilon := by
      rwa [Scalar.abs_eq, ← not_lt]
    have hdef : s.crossing? t = none := if_pos hnear
    simp [hdef, hden]

end Segment

/-! ### Fragments -/

theorem Fragment.region_segment {f : Fragment ℚ} (hkind : f.kind = .segment) :
    f.region = f.screenSegment.point '' Set.Icc 0 1 := by
  have hpoint : f.screenSegment.point = fun t =>
      (1 - t) • f.vertices.first.screen + t • f.vertices.second.screen := by
    funext t
    exact lerp_eq _ _ t
  have hpoints : {v | v ∈ f.screenPoints} =
      {f.vertices.first.screen, f.vertices.second.screen} := by
    ext v
    simp [screenPoints, controlPoints, hkind, Kind.pointCount, Triple.toList]
  rw [region, Polygon.region, hpoints, convexHull_pair, segment_eq_image, hpoint]

namespace Overlap

variable {rule : SplitRule ℚ} {f g : Fragment ℚ} {t : ScreenTriangle ℚ}

/-- A line is clipped to the parameters at which it is over the triangle. -/
theorem span_clip?_footprint (ht : ScreenTriangle.ofFragment? f = some t) (s : Segment ℚ) :
    Segment.span (s.clip? t.footprint.edgePlanes) = s.inside f.region := by
  rw [Segment.span_clip?, ← ScreenTriangle.inner_footprint ht]
  rfl

theorem triangleSegmentDepth?_eq (ht : ScreenTriangle.ofFragment? f = some t) (g : Fragment ℚ) :
    triangleSegmentDepth? f g =
      (g.screenSegment.clip? t.footprint.edgePlanes).map fun range =>
        (t.depthPlane.eval (g.screenSegment.point ((range.1 + range.2) / 2)),
          g.depthAlong ((range.1 + range.2) / 2)) := by
  have hmiddle : ∀ x : ℚ, 0.5 * x = x / 2 := by
    intro x
    ring
  simp only [triangleSegmentDepth?, ht, hmiddle, Option.bind_eq_bind, Option.bind_some]
  exact Option.map_eq_bind.symm

open Classical in
theorem triangleMarkerDepth?_eq (ht : ScreenTriangle.ofFragment? f = some t) (g : Fragment ℚ) :
    triangleMarkerDepth? f g =
      if g.vertices.first.screen ∈ f.region then
        some (t.depthPlane.eval g.vertices.first.screen, g.meanDepth)
      else none := by
  have hcovered : (t.footprint.edgePlanes.all fun h => h.contains g.vertices.first.screen) = true ↔
      g.vertices.first.screen ∈ f.region := by
    rw [← ScreenTriangle.inner_footprint ht, List.all_eq_true]
    simp only [HalfPlane.contains_iff]
    rfl
  simp only [triangleMarkerDepth?, ht, Option.bind_eq_bind, Option.bind_some, hcovered]

/-- Two segments that cross have one point in common. -/
theorem region_inter_eq_of_crossing? (hf : f.kind = .segment) (hg : g.kind = .segment) {a b : ℚ}
    (hcrossing : f.screenSegment.crossing? g.screenSegment = some (a, b)) :
    f.region ∩ g.region = {f.screenSegment.point a} := by
  obtain ⟨hden, ha, hb, hpoint⟩ := Segment.crossing?_eq_some_iff.mp hcrossing
  rw [Fragment.region_segment hf, Fragment.region_segment hg]
  ext x
  rw [Set.mem_singleton_iff]
  constructor
  · rintro ⟨⟨c, hc, rfl⟩, d, hd, hcd⟩
    have hagain := Segment.crossing?_eq_some_iff.mpr ⟨hden, hc, hd, hcd.symm⟩
    rw [hcrossing, Option.some.injEq, Prod.mk.injEq] at hagain
    rw [hagain.1]
  · rintro rfl
    exact ⟨⟨a, ha, rfl⟩, b, hb, hpoint.symm⟩

/-- Segments that are not parallel cross if they have a point in common. -/
theorem isSome_crossing?_iff (hf : f.kind = .segment) (hg : g.kind = .segment)
    (hden : Scalar.epsilon < |f.screenSegment.direction.cross g.screenSegment.direction|) :
    (f.screenSegment.crossing? g.screenSegment).isSome ↔ (f.region ∩ g.region).Nonempty := by
  rw [Option.isSome_iff_exists]
  constructor
  · rintro ⟨⟨a, b⟩, hcrossing⟩
    rw [region_inter_eq_of_crossing? hf hg hcrossing]
    exact Set.singleton_nonempty _
  · rw [Fragment.region_segment hf, Fragment.region_segment hg]
    rintro ⟨x, ⟨a, ha, rfl⟩, b, hb, hab⟩
    exact ⟨(a, b), Segment.crossing?_eq_some_iff.mpr ⟨hden, ha, hb, hab.symm⟩⟩

theorem sampledDepths?_swap (hf : f.kind = .triangle) (hg : g.kind ≠ .triangle) :
    sampledDepths? rule g f = (sampledDepths? rule f g).map Prod.swap := by
  cases hkind : g.kind with
  | triangle => exact absurd hkind hg
  | empty => simp only [sampledDepths?, hf, hkind, Option.map_none]
  | segment => simp only [sampledDepths?, hf, hkind]
  | marker => simp only [sampledDepths?, hf, hkind]

/-- The order of a triangle and a line or a marker makes no difference. -/
theorem depths_swap_of_ne (hf : f.kind = .triangle) (hg : g.kind ≠ .triangle) :
    depths rule g f = (depths rule f g).swap := by
  rw [depths, depths, sampledDepths?_swap hf hg]
  cases sampledDepths? rule f g <;> rfl

/-- **Lines and markers are sampled where they meet the other fragment.** A line is over a triangle
for the clipped range of parameters, and sampled in the middle of it; if the clipped range is empty,
mean depths are compared. The plane of a triangle gives its depth at a marker if the triangle covers
the marker's point, and only then. Lines that are far enough from parallel are sampled at their one
common point, if they have one. -/
theorem depths_sampled_at_meeting (rule : SplitRule ℚ) :
    (∀ (triangle line : Fragment ℚ) (t : ScreenTriangle ℚ),
      ScreenTriangle.ofFragment? triangle = some t → line.kind = .segment →
      let clipped := line.screenSegment.clip? t.footprint.edgePlanes
      let met := line.screenSegment.inside triangle.region
      depths rule line triangle = (depths rule triangle line).swap ∧
      (met = ∅ ↔ clipped = none) ∧ (clipped = none ↔ sampledDepths? rule triangle line = none) ∧
      (clipped = none → depths rule triangle line = (triangle.meanDepth, line.meanDepth)) ∧
      ∀ low high, clipped = some (low, high) → met = Set.Icc low high ∧
        depths rule triangle line =
          (t.depthPlane.eval (line.screenSegment.point ((low + high) / 2)),
            line.depthAlong ((low + high) / 2))) ∧
    (∀ (triangle marker : Fragment ℚ) (t : ScreenTriangle ℚ),
      ScreenTriangle.ofFragment? triangle = some t → marker.kind = .marker →
      let anchor := marker.vertices.first.screen
      depths rule marker triangle = (depths rule triangle marker).swap ∧
      (sampledDepths? rule triangle marker =
        some (t.depthPlane.eval anchor, marker.meanDepth) ↔ anchor ∈ triangle.region) ∧
      (anchor ∈ triangle.region →
        depths rule triangle marker = (t.depthPlane.eval anchor, marker.meanDepth)) ∧
      (anchor ∉ triangle.region →
        depths rule triangle marker = (triangle.meanDepth, marker.meanDepth))) ∧
    ∀ f g : Fragment ℚ, f.kind = .segment → g.kind = .segment →
      Scalar.epsilon < |f.screenSegment.direction.cross g.screenSegment.direction| →
      ((f.screenSegment.crossing? g.screenSegment).isSome ↔ (f.region ∩ g.region).Nonempty) ∧
      ∀ a b, f.screenSegment.crossing? g.screenSegment = some (a, b) →
        a ∈ Set.Icc (0 : ℚ) 1 ∧ b ∈ Set.Icc (0 : ℚ) 1 ∧
        f.region ∩ g.region = {f.screenSegment.point a} ∧
        f.screenSegment.point a = g.screenSegment.point b ∧
        depths rule f g = (f.depthAlong a, g.depthAlong b) := by
  refine ⟨?_, ?_, ?_⟩
  · intro triangle line t ht hline clipped met
    have hkind := ScreenTriangle.kind_of_ofFragment? ht
    have hspan : Segment.span clipped = met := span_clip?_footprint ht line.screenSegment
    have hsampled : sampledDepths? rule triangle line = triangleSegmentDepth? triangle line := by
      simp only [sampledDepths?, hkind, hline]
    have hdepth : triangleSegmentDepth? triangle line = clipped.map _ :=
      triangleSegmentDepth?_eq ht line
    refine ⟨depths_swap_of_ne hkind (by simp [hline]), ?_, ?_, ?_, ?_⟩
    · rw [← hspan, Segment.clip?_eq_none_iff]
    · rw [hsampled, hdepth, Option.map_eq_none_iff]
    · intro hnone
      rw [depths, hsampled, hdepth, hnone, Option.map_none, Option.getD_none]
    · intro low high hsome
      rw [depths, hsampled, hdepth, ← hspan, hsome]
      exact ⟨rfl, rfl⟩
  · intro triangle marker t ht hmarker anchor
    have hkind := ScreenTriangle.kind_of_ofFragment? ht
    have hsampled : sampledDepths? rule triangle marker = triangleMarkerDepth? triangle marker := by
      simp only [sampledDepths?, hkind, hmarker]
    have hdepth := triangleMarkerDepth?_eq ht marker
    refine ⟨depths_swap_of_ne hkind (by simp [hmarker]), ?_, ?_, ?_⟩
    · rw [hsampled, hdepth, Option.ite_none_right_eq_some]
      exact and_iff_left rfl
    · intro hcovered
      rw [depths, hsampled, hdepth, if_pos hcovered, Option.getD_some]
    · intro houtside
      rw [depths, hsampled, hdepth, if_neg houtside, Option.getD_none]
  · intro f g hf hg hden
    refine ⟨isSome_crossing?_iff hf hg hden, fun a b hcrossing => ?_⟩
    obtain ⟨-, ha, hb, hpoint⟩ := Segment.crossing?_eq_some_iff.mp hcrossing
    have hsampled : sampledDepths? rule f g = some (f.depthAlong a, g.depthAlong b) := by
      simp only [sampledDepths?, hf, hg, segmentsDepth?, hcrossing, Option.bind_eq_bind,
        Option.bind_some]
    refine ⟨ha, hb, region_inter_eq_of_crossing? hf hg hcrossing, hpoint, ?_⟩
    rw [depths, hsampled, Option.getD_some]

/-- A triangle with clockwise corners, of depth `2 x + y`. -/
def roof : Fragment ℚ :=
  .ofTriangle ⟨0⟩ none ⟨flatVertex 0 0 0, flatVertex 0 4 4, flatVertex 4 0 8⟩

def beam : Fragment ℚ :=
  .ofSegment ⟨1⟩ none (flatVertex (-2) 2 1) (flatVertex 6 2 9)

def rafter : Fragment ℚ :=
  .ofSegment ⟨2⟩ none (flatVertex 1 0 0) (flatVertex 1 3 3)

def peg : Fragment ℚ :=
  .ofMarker ⟨3⟩ (.outline true) 1 (flatVertex 2 2 5)

theorem depths_roof_beam_peg :
    beam.screenSegment.inside roof.region = Set.Icc (1 / 4) (1 / 2) ∧
    depths .standard roof beam = (4, 4 - 1 / 1000) ∧
    rafter.screenSegment.inside roof.region = Set.Icc 0 1 ∧
    peg.vertices.first.screen ∈ roof.region ∧
    depths .standard roof peg = (6, 5 - 2 / 1000) ∧
    beam.region ∩ rafter.region = {⟨1, 2⟩} ∧
    depths .standard beam rafter = (4 - 1 / 1000, 2 - 1 / 1000) := by
  let t : ScreenTriangle ℚ := ⟨roof, ⟨0, 0⟩, ⟨0, 4⟩, ⟨4, 0⟩, -1 / 16⟩
  have ht : ScreenTriangle.ofFragment? roof = some t := by decide +kernel
  obtain ⟨hline, hmarker, hlines⟩ := depths_sampled_at_meeting .standard
  obtain ⟨-, -, -, -, hbeam⟩ := hline roof beam t ht rfl
  obtain ⟨-, -, -, -, hrafter⟩ := hline roof rafter t ht rfl
  obtain ⟨-, hpeg, -, -⟩ := hmarker roof peg t ht rfl
  obtain ⟨-, hcross⟩ := hlines beam rafter rfl rfl (by decide +kernel)
  obtain ⟨hbeamRange, hbeamDepths⟩ := hbeam (1 / 4) (1 / 2) (by decide +kernel)
  obtain ⟨hrafterRange, -⟩ := hrafter 0 1 (by decide +kernel)
  obtain ⟨-, -, hpoint, -, hcrossDepths⟩ := hcross (3 / 8) (2 / 3) (by decide +kernel)
  refine ⟨hbeamRange, hbeamDepths.trans ?_, hrafterRange, hpeg.mp ?_, ?_, hpoint.trans ?_,
    hcrossDepths.trans ?_⟩
  · decide +kernel
  · decide +kernel
  · decide +kernel
  · congr 1
    decide +kernel
  · decide +kernel

end Overlap

end PainterScene
