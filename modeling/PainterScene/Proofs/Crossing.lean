import Mathlib
import PainterScene.Proofs.ScreenTriangles

/-!
# Cutting along the crossing

Two triangles are cut because the difference of their depth planes takes both signs over their
common part. A piece lies on one side of the line where the difference vanishes and has the plane
of its parent, so over a piece the difference takes one sign only, and no pair with that piece in it
is ever cut again. Merged vertices and dropped slivers play no part in this: clipping and merging
only give points of the parent on the right side, whatever the tolerances are.
-/

namespace PainterScene

open Vec2

theorem Polygon.mem_of_mem_triangulate {minArea : ℚ} {poly : Polygon ℚ} {corners : Triple (Vec2 ℚ)}
    (hcorners : corners ∈ triangulate minArea poly) : ∀ v ∈ corners.toList, v ∈ poly := by
  cases poly with
  | nil => cases hcorners
  | cons p rest =>
      rw [triangulate, List.mem_filter, ← List.map_uncurry_zip_eq_zipWith, List.mem_map] at hcorners
      obtain ⟨⟨⟨q, r⟩, hqr, rfl⟩, -⟩ := hcorners
      obtain ⟨hq, hr⟩ := List.of_mem_zip hqr
      simp [Triple.toList, Function.uncurry, hq, List.mem_of_mem_tail hr]

/-- No two points of the set lie strictly on different sides of the line `h = 0`. -/
def HalfPlane.OneSided (h : HalfPlane ℚ) (S : Set (Vec2 ℚ)) : Prop :=
  (∀ x ∈ S, 0 ≤ h.eval x) ∨ ∀ x ∈ S, h.eval x ≤ 0

/-- `p` covers a part of what `f` covers, at the same depths, and has been cut as often or more. -/
structure PartOf (f p : Fragment ℚ) : Prop where
  source : p.source = f.source
  splitCount : f.splitCount ≤ p.splitCount
  region : p.region ⊆ f.region
  plane : ∀ t', ScreenTriangle.ofFragment? p = some t' →
    ∃ t, ScreenTriangle.ofFragment? f = some t ∧ t'.depthPlane = t.depthPlane

theorem PartOf.refl (f : Fragment ℚ) : PartOf f f where
  source := rfl
  splitCount := UInt32.le_refl _
  region := Set.Subset.rfl
  plane := fun t ht => ⟨t, ht, rfl⟩

namespace Overlap

variable {rule : SplitRule ℚ} {f g p q : Fragment ℚ} {P Q : Pieces ℚ} {t : ScreenTriangle ℚ}

/-- Each triangle of a cut lies inside the cut one and on one side of the line. -/
theorem region_subset_of_mem_cutTriangles (ht : ScreenTriangle.ofFragment? f = some t)
    {cut : HalfPlane ℚ} {corners : Triple (Vec2 ℚ)} (hcorners : corners ∈ cutTriangles rule cut t) :
    Polygon.region corners.toList ⊆ f.region ∩ {x | 0 ≤ cut.eval x} ∨
      Polygon.region corners.toList ⊆ f.region ∩ {x | 0 ≤ cut.flip.eval x} := by
  have hside : ∀ h : HalfPlane ℚ, corners ∈ Polygon.triangulate rule.areaTolerance
      (t.footprint.clip rule.mergeDistance h) →
      Polygon.region corners.toList ⊆ f.region ∩ {x | 0 ≤ h.eval x} := by
    intro h hmem
    refine (Polygon.region_subset_iff ((Polygon.convex_region _).inter h.convex_nonneg)).mpr ?_
    intro v hv
    obtain ⟨hregion, hin⟩ := Polygon.mem_clip (Polygon.mem_of_mem_triangulate hmem v hv)
    rw [ScreenTriangle.region_footprint ht] at hregion
    exact ⟨hregion, hin⟩
  rw [cutTriangles, List.flatMap_cons, List.flatMap_cons, List.flatMap_nil, List.append_nil,
    List.mem_append] at hcorners
  exact hcorners.imp (hside cut) (hside cut.flip)

theorem mem_cutAlong_cases (ht : ScreenTriangle.ofFragment? f = some t) {cut : HalfPlane ℚ}
    (hp : p ∈ (cutAlong rule cut t).toList) :
    (cutAlong rule cut t = Pieces.whole f ∧ p = f) ∨
      (1 < (cutAlong rule cut t).count ∧
        ∃ corners ∈ cutTriangles rule cut t, p = t.piece corners) := by
  obtain ⟨-, hwhole⟩ | ⟨hseveral, hpieces⟩ := cutAlong_cases rule cut t
  · rw [ScreenTriangle.fragment_of_ofFragment? ht] at hwhole
    rw [hwhole] at hp
    exact Or.inl ⟨hwhole, List.mem_singleton.mp hp⟩
  · rw [hpieces, List.mem_map] at hp
    obtain ⟨corners, hcorners, rfl⟩ := hp
    exact Or.inr ⟨hseveral, corners, hcorners, rfl⟩

/-- Every piece lies on one side of the cut. -/
theorem oneSided_of_mem_cutAlong (ht : ScreenTriangle.ofFragment? f = some t) {cut : HalfPlane ℚ}
    (hseveral : 1 < (cutAlong rule cut t).count) (hp : p ∈ (cutAlong rule cut t).toList) :
    cut.OneSided p.region := by
  obtain ⟨hwhole, -⟩ | ⟨-, corners, hcorners, rfl⟩ := mem_cutAlong_cases ht hp
  · rw [hwhole] at hseveral
    exact absurd hseveral (by simp [Pieces.count, Pieces.whole])
  · rw [ScreenTriangle.region_piece ht]
    obtain hsub | hsub := region_subset_of_mem_cutTriangles ht hcorners
    · exact Or.inl fun x hx => (hsub hx).2
    · refine Or.inr fun x hx => ?_
      have hflip : 0 ≤ cut.flip.eval x := (hsub hx).2
      rw [HalfPlane.eval_flip] at hflip
      linarith

/-- Cutting a triangle gives parts of it. -/
theorem partOf_of_mem_cutAlong (ht : ScreenTriangle.ofFragment? f = some t)
    (hlimit : f.splitCount < rule.maxDepth) {cut : HalfPlane ℚ}
    (hp : p ∈ (cutAlong rule cut t).toList) : PartOf f p := by
  obtain ⟨-, rfl⟩ | ⟨-, corners, hcorners, rfl⟩ := mem_cutAlong_cases ht hp
  · exact PartOf.refl p
  · have hcut := (ScreenTriangle.cutOut_piece ht corners).cutOnce hlimit
    refine ⟨hcut.source, UInt32.le_of_lt hcut.deeper, ?_, ?_⟩
    · rw [ScreenTriangle.region_piece ht]
      obtain hsub | hsub := region_subset_of_mem_cutTriangles ht hcorners
      · exact fun x hx => (hsub hx).1
      · exact fun x hx => (hsub hx).1
    · exact fun t' ht' => ⟨t, ht, ScreenTriangle.depthPlane_piece ht'⟩

/-- Over what both fragments cover, the affine function takes both signs by more than the
tolerance. -/
structure Crosses (tolerance : ℚ) (difference : HalfPlane ℚ) (f g : Fragment ℚ) : Prop where
  below : ∃ x ∈ f.region ∩ g.region, difference.eval x < -tolerance
  above : ∃ x ∈ f.region ∩ g.region, tolerance < difference.eval x

theorem crossing?_eq_some_iff {tolerance : ℚ} (htol : 0 ≤ tolerance)
    {difference cut : HalfPlane ℚ} {polygon : Polygon ℚ} :
    crossing? tolerance difference polygon = some cut ↔
      difference = cut ∧ (∃ v ∈ polygon, difference.eval v < -tolerance) ∧
        ∃ v ∈ polygon, tolerance < difference.eval v := by
  have hvalues : (Scalar.least (polygon.map difference.eval) < -tolerance ∧
      tolerance < Scalar.greatest (polygon.map difference.eval)) ↔
      (∃ v ∈ polygon, difference.eval v < -tolerance) ∧
        ∃ v ∈ polygon, tolerance < difference.eval v := by
    rw [Scalar.least_lt_iff (by linarith), Scalar.lt_greatest_iff htol]
    simp
  rw [crossing?, Option.ite_none_right_eq_some, hvalues, Option.some.injEq, and_comm]

theorem not_crosses_of_oneSided {tolerance : ℚ} (htol : 0 ≤ tolerance) {difference : HalfPlane ℚ}
    (hside : difference.OneSided f.region ∨ difference.OneSided g.region) :
    ¬ Crosses tolerance difference f g := by
  rintro ⟨⟨x, hx, hbelow⟩, y, hy, habove⟩
  obtain (hnonneg | hnonpos) | (hnonneg | hnonpos) := hside
  · linarith [hnonneg x hx.1]
  · linarith [hnonpos y hy.1]
  · linarith [hnonneg x hx.2]
  · linarith [hnonpos y hy.2]

theorem mem_regions_of_mem_intersect {u : ScreenTriangle ℚ} {tol : ℚ}
    (ht : ScreenTriangle.ofFragment? f = some t) (hu : ScreenTriangle.ofFragment? g = some u)
    {v : Vec2 ℚ} (hv : v ∈ Polygon.intersect tol t.footprint u.footprint) :
    v ∈ f.region ∩ g.region := by
  obtain ⟨hsubject, hclipper⟩ := Polygon.mem_intersect hv
  rw [ScreenTriangle.region_footprint ht] at hsubject
  rw [ScreenTriangle.inner_footprint hu] at hclipper
  exact ⟨hsubject, hclipper⟩

theorem mem_regions_of_mem_polygon {o : Overlap ℚ} (ho : ofFragments? rule f g = some o) :
    ∀ v ∈ o.polygon, v ∈ f.region ∩ g.region := by
  intro v hv
  obtain ⟨-, ht, hu, -, hpolygon, -, -⟩ := ofFragments?_eq_some_iff.mp ho
  rw [hpolygon] at hv
  exact mem_regions_of_mem_intersect ht hu hv

/-- Whatever the other tolerances, an overlap has a cut only if the depth planes cross over what
both triangles cover, and the cut is the crossing. -/
theorem crosses_of_cut (htol : 0 ≤ rule.depthTolerance) {o : Overlap ℚ} {cut : HalfPlane ℚ}
    (ho : ofFragments? rule f g = some o) (hsome : o.cut = some cut) :
    cut = o.first.depthPlane - o.second.depthPlane ∧
      Crosses rule.depthTolerance (o.first.depthPlane - o.second.depthPlane) f g := by
  have hcommon := mem_regions_of_mem_polygon ho
  obtain ⟨-, -, -, -, -, -, hcut⟩ := ofFragments?_eq_some_iff.mp ho
  rw [hsome] at hcut
  obtain ⟨rfl, ⟨x, hx, hbelow⟩, y, hy, habove⟩ := (crossing?_eq_some_iff htol).mp hcut.symm
  exact ⟨rfl, ⟨x, hcommon x hx, hbelow⟩, y, hcommon y hy, habove⟩

/-- A pair is cut only where the depths cross over what both cover. -/
theorem crosses_of_cutPair? (htol : 0 ≤ rule.depthTolerance)
    (hpair : cutPair? rule f g = some (P, Q)) :
    ∃ t u, ScreenTriangle.ofFragment? f = some t ∧ ScreenTriangle.ofFragment? g = some u ∧
      Eligible rule f g ∧ Crosses rule.depthTolerance (t.depthPlane - u.depthPlane) f g ∧
      P = cutAlong rule (t.depthPlane - u.depthPlane) t ∧
      Q = cutAlong rule (t.depthPlane - u.depthPlane) u := by
  obtain ⟨o, cut, ho, hsome, -, rfl, rfl⟩ := cutPair?_eq_some_iff.mp hpair
  obtain ⟨rfl, hcrosses⟩ := crosses_of_cut htol ho hsome
  obtain ⟨heligible, ht, hu, -⟩ := ofFragments?_eq_some_iff.mp ho
  exact ⟨o.first, o.second, ht, hu, heligible, hcrosses, rfl, rfl⟩

/-- The pieces of a pair that fell apart do not cut each other. -/
theorem cutPair?_pieces_eq_none (htol : 0 ≤ rule.depthTolerance)
    (hpair : cutPair? rule f g = some (P, Q)) (hseveral : 1 < P.count ∨ 1 < Q.count)
    (hp : p ∈ P.toList) (hq : q ∈ Q.toList) : cutPair? rule p q = none := by
  obtain ⟨t, u, ht, hu, heligible, -, rfl, rfl⟩ := crosses_of_cutPair? htol hpair
  rw [Option.eq_none_iff_forall_ne_some]
  rintro ⟨P', Q'⟩ hagain
  obtain ⟨t', u', ht', hu', -, hcrosses, -, -⟩ := crosses_of_cutPair? htol hagain
  obtain ⟨t₀, ht₀, hplane⟩ := (partOf_of_mem_cutAlong ht heligible.first hp).plane t' ht'
  obtain ⟨u₀, hu₀, hplane'⟩ := (partOf_of_mem_cutAlong hu heligible.second hq).plane u' hu'
  obtain rfl : t = t₀ := Option.some.inj (ht.symm.trans ht₀)
  obtain rfl : u = u₀ := Option.some.inj (hu.symm.trans hu₀)
  rw [hplane, hplane'] at hcrosses
  refine not_crosses_of_oneSided htol ?_ hcrosses
  exact hseveral.imp (fun hcount => oneSided_of_mem_cutAlong ht hcount hp)
    (fun hcount => oneSided_of_mem_cutAlong hu hcount hq)

/-- Parallel planes do not cross. -/
theorem Crosses.normal_ne {tolerance : ℚ} (htol : 0 ≤ tolerance) {g₁ g₂ : HalfPlane ℚ}
    (hcrosses : Crosses tolerance (g₁ - g₂) f g) : g₁.normal ≠ g₂.normal := by
  intro heq
  obtain ⟨⟨x, -, hbelow⟩, y, -, habove⟩ := hcrosses
  rw [HalfPlane.eval_sub, HalfPlane.eval_eq, HalfPlane.eval_eq, heq] at hbelow habove
  linarith

/-- **A split is final.** The pieces of a triangle that was really cut lie each on one side of the
line where the two depth planes cross, and no pair of pieces, a parent left whole among them, is
split again. -/
theorem splitPair_separates (rule : SplitRule ℚ) (htol : 0 ≤ rule.depthTolerance)
    (f g : Fragment ℚ) {P Q : Pieces ℚ} (hsplit : splitPair rule f g = (P, Q)) :
    (1 < P.count ∨ 1 < Q.count →
      ∃ t u, ScreenTriangle.ofFragment? f = some t ∧ ScreenTriangle.ofFragment? g = some u ∧
        t.depthPlane.normal ≠ u.depthPlane.normal ∧
        (1 < P.count → ∀ p ∈ P.toList, (t.depthPlane - u.depthPlane).OneSided p.region) ∧
        (1 < Q.count → ∀ q ∈ Q.toList, (t.depthPlane - u.depthPlane).OneSided q.region)) ∧
    ∀ p ∈ P.toList, ∀ q ∈ Q.toList, splitPair rule p q = (Pieces.whole p, Pieces.whole q) := by
  by_cases hseveral : 1 < P.count ∨ 1 < Q.count
  · have hpair : cutPair? rule f g = some (P, Q) := by
      cases hcut : cutPair? rule f g with
      | none =>
          rw [splitPair, hcut, Option.getD_none, Prod.mk.injEq] at hsplit
          obtain ⟨rfl, rfl⟩ := hsplit
          exact absurd hseveral (by simp [Pieces.count, Pieces.whole])
      | some pieces => rw [← hsplit, splitPair, hcut, Option.getD_some]
    constructor
    · intro _
      obtain ⟨t, u, ht, hu, -, hcrosses, rfl, rfl⟩ := crosses_of_cutPair? htol hpair
      exact ⟨t, u, ht, hu, hcrosses.normal_ne htol,
        fun hcount p hp => oneSided_of_mem_cutAlong ht hcount hp,
        fun hcount q hq => oneSided_of_mem_cutAlong hu hcount hq⟩
    · intro p hp q hq
      rw [splitPair, cutPair?_pieces_eq_none htol hpair hseveral hp hq, Option.getD_none]
  · -- both parents are whole, and the only pair of pieces is the pair itself
    obtain ⟨hP, hQ⟩ := splitPair_comeFrom rule f g
    rw [hsplit] at hP hQ
    obtain rfl := hP.eq_whole (fun hcount => hseveral (Or.inl hcount))
    obtain rfl := hQ.eq_whole (fun hcount => hseveral (Or.inr hcount))
    refine ⟨fun h => absurd h hseveral, fun p hp q hq => ?_⟩
    obtain rfl := List.mem_singleton.mp hp
    obtain rfl := List.mem_singleton.mp hq
    exact hsplit

def flatVertex (x y depth : ℚ) : Vertex ℚ :=
  ⟨⟨x, y, depth⟩, ⟨x, y, depth⟩, 1⟩

def level : Fragment ℚ :=
  .ofTriangle ⟨0⟩ none ⟨flatVertex 0 0 0, flatVertex 4 0 0, flatVertex 0 4 0⟩

/-- A triangle that dips under `level` along `x = 1`, with hardly any area past it. -/
def ramp : Fragment ℚ :=
  .ofTriangle ⟨1⟩ none
    ⟨flatVertex 0 0 (-1), flatVertex (17 / 16) (-1) (1 / 16), flatVertex (17 / 16) 1 (1 / 16)⟩

/-- A rule under which what `ramp` has past the crossing counts as slivers. -/
def coarse : SplitRule ℚ :=
  { SplitRule.standard with areaTolerance := 1 / 10 }

/-- Here one parent falls into three pieces while the slivers of the other are dropped, so that it
stays whole across the line. -/
theorem splitPair_level_ramp :
    (splitPair coarse level ramp).1.count = 3 ∧ (splitPair coarse level ramp).2.count = 1 ∧
    (∃ t u, ScreenTriangle.ofFragment? level = some t ∧ ScreenTriangle.ofFragment? ramp = some u ∧
      t.depthPlane.normal ≠ u.depthPlane.normal ∧
      ∀ p ∈ (splitPair coarse level ramp).1.toList,
        (t.depthPlane - u.depthPlane).OneSided p.region) ∧
    ∀ p ∈ (splitPair coarse level ramp).1.toList, ∀ q ∈ (splitPair coarse level ramp).2.toList,
      splitPair coarse p q = (Pieces.whole p, Pieces.whole q) := by
  have hfirst : (splitPair coarse level ramp).1.count = 3 := by decide +kernel
  have hsecond : (splitPair coarse level ramp).2.count = 1 := by decide +kernel
  obtain ⟨hcut, hfinal⟩ :=
    splitPair_separates coarse (by decide +kernel) level ramp Prod.mk.eta.symm
  obtain ⟨t, u, ht, hu, hnormal, hpieces, -⟩ := hcut (Or.inl (by omega))
  exact ⟨hfirst, hsecond, ⟨t, u, ht, hu, hnormal, hpieces (by omega)⟩, hfinal⟩

end Overlap

end PainterScene
