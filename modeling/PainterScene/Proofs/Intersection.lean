import PainterScene.Proofs.LinePolygons

/-!
# The common part of two convex polygons

Clipping one convex polygon by the sides of another leaves exactly the points that the two have in
common. No vertex is left twice, and the vertices are the corners of the common part together with
the vertices of the clipped polygon that lie in it. If the two only touch, there are one or two, the
ends of the contact, unless the clipped polygon has vertices in between: a vertex in the middle of a
side is kept like any other.
-/

namespace PainterScene.Polygon

open Vec2

variable {subject clipper : Polygon ℚ}

instance : DecidablePred IsConvex := fun poly =>
  decidable_of_iff (∀ triple ∈ poly.sublistsLen 3, ∀ a ∈ triple[0]?, ∀ b ∈ triple[1]?,
    ∀ c ∈ triple[2]?, 0 ≤ turn a b c) <| by
    refine ⟨fun hturn a b c hsub => ?_, fun hconvex triple htriple a ha b hb c hc => ?_⟩
    · exact hturn [a, b, c] (List.mem_sublistsLen.mpr ⟨hsub, rfl⟩) a rfl b rfl c rfl
    · obtain ⟨hsub, hlength⟩ := List.mem_sublistsLen.mp htriple
      match triple, hlength with
      | [_, _, _], _ => exact hconvex a b c (by simp_all)

theorem edgePlanes_ne_nil {poly : Polygon ℚ} (hne : poly ≠ []) : poly.edgePlanes ≠ [] := by
  cases poly with
  | nil => exact absurd rfl hne
  | cons p rest => cases rest <;> simp [edgePlanes]

theorem ne_nil_of_area_pos {poly : Polygon ℚ} (harea : 0 < poly.area) : poly ≠ [] := by
  rintro rfl
  simp [area, signedArea, Scalar.abs_eq] at harea

/-- The result covers what both polygons cover. -/
theorem region_intersect_eq (hsubject : subject.IsConvex) (hclipper : clipper.IsConvex)
    (harea : 0 < clipper.area) :
    region (intersect 0 subject clipper) = subject.region ∩ clipper.region := by
  rw [region_intersect hsubject, inner_eq_region hclipper harea.ne']

theorem region_nonempty_iff {poly : Polygon ℚ} : poly.region.Nonempty ↔ poly ≠ [] := by
  rw [region, convexHull_nonempty_iff]
  cases poly <;> simp [Set.Nonempty]

theorem nodup_intersect (hsubject : subject.IsConvex) (harea : subject.area ≠ 0)
    (hclipper : clipper ≠ []) : (intersect 0 subject clipper).Nodup := by
  obtain ⟨h, planes, hplanes⟩ := List.exists_cons_of_ne_nil (edgePlanes_ne_nil hclipper)
  rw [intersect, hplanes]
  exact nodup_foldl_clip hsubject harea h planes

/-- The vertices are the corners of the common part and the vertices of the subject in it. -/
theorem mem_intersect_iff (hsubject : subject.IsConvex) (hclipper : clipper.IsConvex)
    (harea : 0 < clipper.area) {v : Vec2 ℚ} :
    v ∈ intersect 0 subject clipper ↔
      v ∈ (subject.region ∩ clipper.region).extremePoints ℚ ∨ v ∈ subject ∧ v ∈ clipper.region := by
  rw [← region_intersect_eq hsubject hclipper harea, ← inner_eq_region hclipper harea.ne']
  exact mem_foldl_clip_iff hsubject

/-! ### Polygons known from their corners -/

theorem AllCorners.intersect (hcorners : subject.AllCorners) (hsubject : subject.IsConvex)
    (clipper : Polygon ℚ) : AllCorners (intersect 0 subject clipper) := by
  intro v hv
  have hsub : region (Polygon.intersect 0 subject clipper) ⊆ subject.region := by
    rw [region_intersect hsubject]
    exact Set.inter_subset_left
  obtain hcorner | hmem := mem_foldl_clip_cases hsubject hv
  · exact hcorner
  · exact inter_extremePoints_subset_extremePoints_of_subset hsub
      ⟨mem_region hv, hcorners v hmem⟩

/-- Corners are extreme points, so a polygon that has no others is known from its region. -/
theorem AllCorners.perm {p q : Polygon ℚ} (hp : p.AllCorners) (hq : q.AllCorners)
    (hpNodup : p.Nodup) (hqNodup : q.Nodup) (hregion : p.region = q.region) : p.Perm q := by
  refine (List.perm_ext_iff_of_nodup hpNodup hqNodup).mpr fun v => ?_
  rw [hp.mem_iff, hq.mem_iff, hregion]

/-- **Clipping by the sides is exact.** The result covers what both polygons have in common, and it
is empty when that is nothing. It has the corners of the common part as vertices and the vertices of
the subject in it, each of them once. With an area it is convex and runs counter-clockwise; without
one it has one or two vertices if no vertex of the subject lies between the ends. -/
theorem intersect_common_part (subject clipper : Polygon ℚ) (hsubject : subject.IsConvex)
    (hclipper : clipper.IsConvex) (hsubjectArea : 0 < subject.area)
    (hclipperArea : 0 < clipper.area) :
    let shared := subject.region ∩ clipper.region
    let common := intersect 0 subject clipper
    common.region = shared ∧ (common = [] ↔ Disjoint subject.region clipper.region) ∧
      (0 < common.area ↔ ¬ Collinear ℚ shared) ∧
      (0 < common.area → common.IsConvex ∧ 0 < common.signedArea) ∧ common.Nodup ∧
      (∀ v, v ∈ common ↔ v ∈ shared.extremePoints ℚ ∨ v ∈ subject ∧ v ∈ clipper.region) ∧
      (shared.Nonempty → Collinear ℚ shared →
        (∀ v ∈ subject, v ∈ clipper.region → v ∈ shared.extremePoints ℚ) →
        common.length = 1 ∨ common.length = 2) := by
  intro shared common
  have hregion : common.region = shared := region_intersect_eq hsubject hclipper hclipperArea
  have hconvex : common.IsConvex := hsubject.intersect 0 clipper
  have hnodup : common.Nodup :=
    nodup_intersect hsubject hsubjectArea.ne' (ne_nil_of_area_pos hclipperArea)
  have hmem : ∀ v, v ∈ common ↔ v ∈ shared.extremePoints ℚ ∨ v ∈ subject ∧ v ∈ clipper.region :=
    fun v => mem_intersect_iff hsubject hclipper hclipperArea
  have hempty : common = [] ↔ ¬ shared.Nonempty := by
    rw [← hregion, region_nonempty_iff, not_not]
  refine ⟨hregion, ?_, ?_, fun harea => ⟨hconvex, ?_⟩, hnodup, hmem, fun hmeet hline hends => ?_⟩
  · rw [hempty, Set.not_nonempty_iff_eq_empty, Set.disjoint_iff_inter_eq_empty]
  · rw [← hregion, ← area_eq_zero_iff hconvex]
    exact (area_nonneg common).lt_iff_ne'
  · rwa [area_eq_signedArea hconvex] at harea
  · have hcorners : common.AllCorners := by
      intro v hv
      rw [hregion]
      exact ((hmem v).mp hv).elim id fun hin => hends v hin.1 hin.2
    have hlength : common.length ≤ 2 := hcorners.length_le_two hnodup (hregion ▸ hline)
    have hpos : 0 < common.length := List.length_pos_iff.mpr fun hnil => hempty.mp hnil hmeet
    omega

/-- A triangle and a block beside it share a part of one side, so two vertices are left. -/
theorem intersect_wedge_block :
    let wedge : Polygon ℚ := [⟨0, 0⟩, ⟨2, 0⟩, ⟨0, 2⟩]
    let block : Polygon ℚ := [⟨-2, 0⟩, ⟨0, 0⟩, ⟨0, 1⟩, ⟨-2, 1⟩]
    wedge.region ∩ block.region = region [⟨0, 1⟩, ⟨0, 0⟩] ∧
      ((intersect 0 wedge block).length = 1 ∨ (intersect 0 wedge block).length = 2) := by
  intro wedge block
  have hcommon : intersect 0 wedge block = [⟨0, 1⟩, ⟨0, 0⟩] := by decide +kernel
  have hconvex : IsConvex [⟨0, 1⟩, ⟨0, 0⟩] := by decide +kernel
  have hcorners : wedge.AllCorners := allCorners_triangle (by decide +kernel)
  obtain ⟨hregion, -, -, -, -, -, htouch⟩ := intersect_common_part wedge block (by decide +kernel)
    (by decide +kernel) (by decide +kernel) (by decide +kernel)
  rw [hcommon] at hregion
  refine ⟨hregion.symm, htouch ?_ ?_ fun v hv hblock => ?_⟩
  · rw [← hregion, region_nonempty_iff]
    simp
  · rw [← hregion, ← area_eq_zero_iff hconvex]
    decide +kernel
  · exact inter_extremePoints_subset_extremePoints_of_subset Set.inter_subset_left
      ⟨⟨mem_region hv, hblock⟩, hcorners v hv⟩

/-- A gable whose ground side has a vertex in the middle stands on a block. The two touch along
that side, and its three vertices are all kept. -/
theorem intersect_gable_block :
    let gable : Polygon ℚ := [⟨0, 0⟩, ⟨1, 0⟩, ⟨2, 0⟩, ⟨1, 2⟩]
    let block : Polygon ℚ := [⟨0, -1⟩, ⟨2, -1⟩, ⟨2, 0⟩, ⟨0, 0⟩]
    gable.IsConvex ∧ block.IsConvex ∧ 0 < gable.area ∧ 0 < block.area ∧
      gable.Nodup ∧ block.Nodup ∧ (gable.region ∩ block.region).Nonempty ∧
      Collinear ℚ (gable.region ∩ block.region) ∧
      intersect 0 gable block = [⟨0, 0⟩, ⟨1, 0⟩, ⟨2, 0⟩] := by
  intro gable block
  have hgable : gable.IsConvex := by decide +kernel
  have hblock : block.IsConvex := by decide +kernel
  have harea : 0 < block.area := by decide +kernel
  have hcommon : intersect 0 gable block = [⟨0, 0⟩, ⟨1, 0⟩, ⟨2, 0⟩] := by decide +kernel
  have hregion := region_intersect_eq hgable hblock harea
  rw [hcommon] at hregion
  have hconvex : IsConvex [⟨0, 0⟩, ⟨1, 0⟩, ⟨2, 0⟩] := by decide +kernel
  refine ⟨hgable, hblock, by decide +kernel, harea, by decide +kernel, by decide +kernel, ?_, ?_,
    hcommon⟩
  · rw [← hregion, region_nonempty_iff]
    simp
  · rw [← hregion, ← area_eq_zero_iff hconvex]
    decide +kernel

end PainterScene.Polygon
