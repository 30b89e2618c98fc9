import PainterScene.Proofs.Fixpoint
import PainterScene.Proofs.Tiling

/-!
# Splitting in place partitions both triangles

Under an exact rule the pieces that two overlapping triangles fall into tile each of them: the
common part, in two sides when the depths cross there, and what the other triangle leaves. The
common part is divided into the same triangles for both, and everything else of one lies outside the
other. So two pieces cover the same place or have no inner point in common, and over the same place
their depths differ one way only.
-/

namespace PainterScene

open Vec2

/-! ### Depths over the screen -/

namespace Fragment

def screenArea (f : Fragment ℚ) : ℚ :=
  Polygon.area f.screenPoints

/-- The depth of a triangle over a place on the screen: the depths of its corners, each weighted
with the triangle that the place spans with the opposite side. -/
def depthAt (f : Fragment ℚ) (x : Vec2 ℚ) : ℚ :=
  let a := f.vertices.first
  let b := f.vertices.second
  let c := f.vertices.third
  (turn b.screen c.screen x * a.depth + turn c.screen a.screen x * b.depth +
    turn a.screen b.screen x * c.depth) / turn a.screen b.screen c.screen

theorem depthAt_eq {f : Fragment ℚ} {plane : HalfPlane ℚ}
    (hturn : turn f.vertices.first.screen f.vertices.second.screen f.vertices.third.screen ≠ 0)
    (hplane : ∀ v ∈ f.vertices.toList, plane.eval v.screen = v.depth) (x : Vec2 ℚ) :
    f.depthAt x = plane.eval x := by
  have hfirst := hplane f.vertices.first (by simp [Triple.toList])
  have hsecond := hplane f.vertices.second (by simp [Triple.toList])
  have hthird := hplane f.vertices.third (by simp [Triple.toList])
  rw [depthAt, div_eq_iff hturn, ← hfirst, ← hsecond, ← hthird]
  simp only [HalfPlane.eval_eq, turn_eq]
  ring

end Fragment

namespace ScreenTriangle

variable {f : Fragment ℚ} {t : ScreenTriangle ℚ} {corners : Triple (Vec2 ℚ)}

theorem area_footprint (ht : ofFragment? f = some t) : t.footprint.area = f.screenArea := by
  have hpoints : f.screenPoints =
      [f.vertices.first.screen, f.vertices.second.screen, f.vertices.third.screen] := by
    rw [screenPoints_eq (kind_of_ofFragment? ht)]
    rfl
  have htwice : 2 * t.footprint.area = 2 * f.screenArea := by
    rw [Fragment.screenArea, hpoints, Polygon.area_triangle]
    obtain ⟨hfootprint, -⟩ | ⟨hfootprint, -⟩ := footprint_cases ht
    · rw [hfootprint, Polygon.area_triangle]
    · rw [hfootprint, Polygon.area_triangle, turn_swap_right, abs_neg]
  exact mul_left_cancel₀ two_ne_zero htwice

theorem normal_ne_of_mem_edgePlanes (ht : ofFragment? f = some t) :
    ∀ h ∈ t.footprint.edgePlanes, h.normal ≠ 0 := by
  obtain ⟨hfootprint, hturn⟩ | ⟨hfootprint, hturn⟩ := footprint_cases ht
  · exact hfootprint ▸ Polygon.normal_ne_of_mem_edgePlanes hturn.ne'
  · exact hfootprint ▸ Polygon.normal_ne_of_mem_edgePlanes hturn.ne'

/-- `p` covers the triangle `corners`, at the depths of `t`. -/
structure Covers (t : ScreenTriangle ℚ) (p : Fragment ℚ) (corners : Triple (Vec2 ℚ)) : Prop where
  region : p.region = Polygon.region corners.toList
  area : p.screenArea = Polygon.area corners.toList
  depth : ∀ x, p.depthAt x = t.depthPlane.eval x

theorem covers_piece (ht : ofFragment? f = some t) (harea : 0 < Polygon.area corners.toList) :
    t.Covers (t.piece corners) corners where
  region := region_piece ht corners
  area := congrArg Polygon.area (screenPoints_piece ht corners)
  depth := by
    apply Fragment.depthAt_eq
    · change turn (t.vertexAt corners.first).screen (t.vertexAt corners.second).screen
        (t.vertexAt corners.third).screen ≠ 0
      simp only [vertexAt_screen]
      intro hzero
      have htwice := Polygon.area_triangle corners.first corners.second corners.third
      rw [hzero, abs_zero] at htwice
      change 0 < Polygon.area [corners.first, corners.second, corners.third] at harea
      linarith
    · intro v hv
      have hv : v ∈ corners.toList.map t.vertexAt := hv
      obtain ⟨q, -, rfl⟩ := List.mem_map.mp hv
      rw [vertexAt_screen, vertexAt_depth]

theorem covers_self (ht : ofFragment? f = some t)
    (hregion : f.region = Polygon.region corners.toList)
    (harea : f.screenArea = Polygon.area corners.toList) : t.Covers f corners where
  region := hregion
  area := harea
  depth := Fragment.depthAt_eq (turn_ne_zero ht) fun _ hv => eval_depthPlane ht hv

end ScreenTriangle

namespace Overlap

variable {rule : SplitRule ℚ} {f g p q : Fragment ℚ} {t u : ScreenTriangle ℚ} {o : Overlap ℚ}

/-! ### The triangles of an overlap -/

theorem isConvex_polygon (ho : ofFragments? rule f g = some o) : o.polygon.IsConvex := by
  obtain ⟨-, ht, -, -, hpolygon, -⟩ := ofFragments?_eq_some_iff.mp ho
  rw [hpolygon]
  exact (ScreenTriangle.isConvex_footprint ht).intersect _ _

theorem region_polygon (hrule : rule.Exact) (ho : ofFragments? rule f g = some o) :
    o.polygon.region = f.region ∩ g.region := by
  obtain ⟨-, ht, hu, -, hpolygon, -⟩ := ofFragments?_eq_some_iff.mp ho
  rw [hpolygon, hrule.mergeDistance]
  exact region_intersect_footprints ht hu

/-- The shared parts tile the overlap. -/
theorem tiles_sharedParts (hrule : rule.Exact) (ho : ofFragments? rule f g = some o) :
    Polygon.Tiles (sharedParts rule o) o.polygon := by
  have hconvex := isConvex_polygon ho
  obtain ⟨-, -, -, -, -, -, hcut⟩ := ofFragments?_eq_some_iff.mp ho
  unfold sharedParts
  split
  · rename_i cut hsome
    rw [hsome] at hcut
    obtain ⟨rfl, ⟨x, -, hbelow⟩, y, -, habove⟩ :=
      (crossing?_eq_some_iff hrule.depthTolerance).mp hcut.symm
    rw [hrule.mergeDistance]
    apply Polygon.tiles_clip hconvex
    apply HalfPlane.normal_ne_of_eval_ne (a := x) (b := y)
    linarith [hrule.depthTolerance]
  · exact Polygon.tiles_self hconvex

/-- Over each shared part the depths differ one way only. -/
theorem oneSided_of_mem_sharedParts (hrule : rule.Exact) (ho : ofFragments? rule f g = some o)
    {part : Polygon ℚ} (hpart : part ∈ sharedParts rule o) :
    (∀ x ∈ part.region,
      -rule.depthTolerance ≤ (o.first.depthPlane - o.second.depthPlane).eval x) ∨
    ∀ x ∈ part.region, (o.first.depthPlane - o.second.depthPlane).eval x ≤ rule.depthTolerance := by
  have hconvex := isConvex_polygon ho
  have htol := hrule.depthTolerance
  obtain ⟨-, -, -, -, -, -, hcut⟩ := ofFragments?_eq_some_iff.mp ho
  unfold sharedParts at hpart
  split at hpart
  · rename_i cut hsome
    rw [hsome] at hcut
    obtain ⟨rfl, -⟩ := (crossing?_eq_some_iff htol).mp hcut.symm
    rw [hrule.mergeDistance, List.mem_pair] at hpart
    obtain rfl | rfl := hpart
    · refine Or.inl fun x hx => ?_
      linarith [Polygon.eval_nonneg_of_mem_clip hconvex hx]
    · refine Or.inr fun x hx => ?_
      have hflip := Polygon.eval_nonneg_of_mem_clip hconvex hx
      rw [HalfPlane.eval_flip] at hflip
      linarith
  · rename_i hnone
    obtain rfl := List.mem_singleton.mp hpart
    rw [hnone] at hcut
    by_cases hbelow : ∃ v ∈ o.polygon,
        (o.first.depthPlane - o.second.depthPlane).eval v < -rule.depthTolerance
    · refine Or.inr fun x hx => HalfPlane.eval_le_of_mem_hull (fun v hv => ?_) hx
      by_contra habove
      have hsome := (crossing?_eq_some_iff htol).mpr ⟨rfl, hbelow, v, hv, not_le.mp habove⟩
      rw [hsome] at hcut
      cases hcut
    · push Not at hbelow
      exact Or.inl fun x hx => HalfPlane.le_eval_of_mem_hull hbelow hx

/-- The fan over the overlap and the fan over the rest tile the footprint. -/
theorem tiles_fans {f' g' : Fragment ℚ} (hrule : rule.Exact)
    (ho : ofFragments? rule f' g' = some o) (ht : ScreenTriangle.ofFragment? f = some t)
    (hu : ScreenTriangle.ofFragment? g = some u)
    (hregion : o.polygon.region = f.region ∩ g.region) :
    Polygon.Tiles ((sharedFan rule o ++ outerFan rule t u).map Triple.toList)
      t.footprint := by
  have hpeel := Polygon.tiles_peel (ScreenTriangle.isConvex_footprint ht)
    (ScreenTriangle.normal_ne_of_mem_edgePlanes hu)
  have hparts := hpeel.replace (tiles_sharedParts hrule ho) (isConvex_polygon ho)
    (hregion.trans (region_intersect_footprints ht hu).symm)
  have hfans := hparts.flatMap fun part hpart =>
    Polygon.tiles_triangulate (hparts.convex part hpart)
  rwa [sharedFan, outerFan, hrule.mergeDistance, hrule.areaTolerance, ← List.flatMap_append,
    List.map_flatMap]

/-- The pieces of both inputs tile their footprints. -/
theorem tiles_both (hrule : rule.Exact) (ho : ofFragments? rule f g = some o) :
    Polygon.Tiles ((sharedFan rule o ++ outerFan rule o.first o.second).map Triple.toList)
      o.first.footprint ∧
    Polygon.Tiles ((sharedFan rule o ++ outerFan rule o.second o.first).map Triple.toList)
      o.second.footprint := by
  obtain ⟨-, ht, hu, -⟩ := ofFragments?_eq_some_iff.mp ho
  have hregion := region_polygon hrule ho
  exact ⟨tiles_fans hrule ho ht hu hregion,
    tiles_fans hrule ho hu ht (hregion.trans (Set.inter_comm _ _))⟩

/-- What is outside the other triangle lies beyond one of its sides. -/
theorem separated_of_mem_outerFan (hrule : rule.Exact) (ht : ScreenTriangle.ofFragment? f = some t)
    (hu : ScreenTriangle.ofFragment? g = some u) {corners : Triple (Vec2 ℚ)}
    (hcorners : corners ∈ outerFan rule t u) :
    Separated (Polygon.region corners.toList) g.region := by
  rw [outerFan, hrule.mergeDistance, hrule.areaTolerance] at hcorners
  obtain ⟨part, hpart, hcorners⟩ := List.mem_flatMap.mp hcorners
  have hsep := Polygon.separated_of_mem_peel (ScreenTriangle.isConvex_footprint ht)
    (ScreenTriangle.normal_ne_of_mem_edgePlanes hu) hpart
  rw [← ScreenTriangle.inner_footprint hu]
  refine hsep.mono ?_ subset_rfl
  exact convexHull_mono (Polygon.mem_of_mem_triangulate hcorners)

theorem area_pos_of_mem_fans (hrule : rule.Exact) {corners : Triple (Vec2 ℚ)}
    (hcorners : corners ∈ sharedFan rule o ++ outerFan rule t u) :
    0 < Polygon.area corners.toList := by
  rw [sharedFan, outerFan, ← List.flatMap_append, hrule.areaTolerance, List.mem_flatMap] at hcorners
  obtain ⟨part, -, hcorners⟩ := hcorners
  exact Polygon.lt_area_of_mem_triangulate hcorners

/-- A triangle of one input and one of the other are the same or lie on two sides of a line. -/
theorem eq_or_separated (hrule : rule.Exact) (ho : ofFragments? rule f g = some o)
    {c d : Triple (Vec2 ℚ)} (hc : c ∈ sharedFan rule o ++ outerFan rule o.first o.second)
    (hd : d ∈ sharedFan rule o ++ outerFan rule o.second o.first) :
    (c = d ∧ c ∈ sharedFan rule o) ∨
      Separated (Polygon.region c.toList) (Polygon.region d.toList) := by
  obtain ⟨hfirst, hsecond⟩ := tiles_both hrule ho
  obtain ⟨-, ht, hu, -⟩ := ofFragments?_eq_some_iff.mp ho
  have hcf : Polygon.region c.toList ⊆ f.region := by
    rw [← ScreenTriangle.region_footprint ht]
    exact hfirst.within _ (List.mem_map_of_mem hc)
  have hdg : Polygon.region d.toList ⊆ g.region := by
    rw [← ScreenTriangle.region_footprint hu]
    exact hsecond.within _ (List.mem_map_of_mem hd)
  obtain hc | hc := List.mem_append.mp hc
  · obtain hd | hd := List.mem_append.mp hd
    · by_cases heq : c = d
      · exact Or.inl ⟨heq, hc⟩
      · have hsymm : Std.Symm fun a b : Triple (Vec2 ℚ) =>
            Separated (Polygon.region a.toList) (Polygon.region b.toList) := ⟨fun _ _ => .symm⟩
        have hapart := List.pairwise_map.mp hfirst.apart
        exact Or.inr ((hapart.sublist (List.sublist_append_left _ _)).forall hc hd heq)
    · exact Or.inr ((separated_of_mem_outerFan hrule hu ht hd).mono subset_rfl hcf).symm
  · exact Or.inr ((separated_of_mem_outerFan hrule ht hu hc).mono subset_rfl hdg)

end Overlap

/-! ### What stands for a fragment -/

/-- The pieces with what the slot holds at their head: a single piece leaves the fragment there. -/
def Pieces.inPlace (pieces : Pieces ℚ) (f : Fragment ℚ) : List (Fragment ℚ) :=
  (if pieces.rest.isEmpty then f else pieces.first) :: pieces.rest

/-- Fragments inside `f` that share no inner points and have its area together. -/
structure Fragment.PartitionedInto (f : Fragment ℚ) (pieces : List (Fragment ℚ)) : Prop where
  within : ∀ p ∈ pieces, p.region ⊆ f.region
  disjoint : pieces.Pairwise fun p q => Disjoint (interior p.region) (interior q.region)
  area_eq : (pieces.map Fragment.screenArea).sum = f.screenArea

namespace ScreenTriangle

variable {f : Fragment ℚ} {t : ScreenTriangle ℚ} {corners : List (Triple (Vec2 ℚ))}
  {pieces : List (Fragment ℚ)}

theorem exists_covers (hcovers : List.Forall₂ t.Covers pieces corners) {p : Fragment ℚ}
    (hp : p ∈ pieces) : ∃ c ∈ corners, t.Covers p c := by
  induction hcovers with
  | nil => cases hp
  | cons hhead _ ih =>
      obtain rfl | hp := List.mem_cons.mp hp
      · exact ⟨_, List.mem_cons_self, hhead⟩
      · obtain ⟨c, hc, hcovers⟩ := ih hp
        exact ⟨c, List.mem_cons_of_mem _ hc, hcovers⟩

theorem pairwise_of_covers (hcovers : List.Forall₂ t.Covers pieces corners)
    (hapart : corners.Pairwise fun c d =>
      Separated (Polygon.region c.toList) (Polygon.region d.toList)) :
    pieces.Pairwise fun p q => Disjoint (interior p.region) (interior q.region) := by
  induction hcovers with
  | nil => exact .nil
  | cons hhead hrest ih =>
      obtain ⟨hfirst, hlater⟩ := List.pairwise_cons.mp hapart
      refine List.pairwise_cons.mpr ⟨fun q hq => ?_, ih hlater⟩
      obtain ⟨d, hd, hcovers⟩ := exists_covers hrest hq
      rw [hhead.region, hcovers.region]
      exact (hfirst d hd).disjoint_interior

theorem within_of_covers (ht : ofFragment? f = some t)
    (hcovers : List.Forall₂ t.Covers pieces corners)
    (hpacks : Polygon.Packs (corners.map Triple.toList) t.footprint) :
    ∀ p ∈ pieces, p.region ⊆ f.region := by
  intro p hp
  obtain ⟨c, hc, hcovers⟩ := exists_covers hcovers hp
  rw [hcovers.region, ← region_footprint ht]
  exact hpacks.within _ (List.mem_map_of_mem hc)

theorem screenAreas_of_covers (hcovers : List.Forall₂ t.Covers pieces corners) :
    pieces.map Fragment.screenArea = corners.map fun c => Polygon.area c.toList := by
  rw [← List.forall₂_eq_eq_eq, List.forall₂_map_left_iff, List.forall₂_map_right_iff]
  exact hcovers.imp fun p c h => h.area

theorem partitionedInto_of_covers (ht : ofFragment? f = some t)
    (hcovers : List.Forall₂ t.Covers pieces corners)
    (htiles : Polygon.Tiles (corners.map Triple.toList) t.footprint) :
    f.PartitionedInto pieces where
  within := within_of_covers ht hcovers htiles.toPacks
  disjoint := by
    have hapart := List.pairwise_map.mp htiles.apart
    exact pairwise_of_covers hcovers hapart
  area_eq := by
    have hareas := htiles.area_eq
    rw [List.map_map] at hareas
    rw [screenAreas_of_covers hcovers, ← area_footprint ht, ← hareas]
    rfl

/-- A single piece fills the whole triangle, so the fragment itself covers it. -/
theorem forall₂_covers_inPlace (ht : ofFragment? f = some t)
    (htiles : Polygon.Tiles (corners.map Triple.toList) t.footprint)
    (hpos : ∀ c ∈ corners, 0 < Polygon.area c.toList) {pieces : Pieces ℚ}
    (hpieces : pieces.toList = corners.map t.piece) :
    List.Forall₂ t.Covers (pieces.inPlace f) corners := by
  unfold Pieces.inPlace
  split
  · rename_i hempty
    rw [List.isEmpty_iff] at hempty
    obtain ⟨c, rfl⟩ : ∃ c, corners = [c] := by
      have hlength := congrArg List.length hpieces
      rw [Pieces.toList, hempty, List.length_map] at hlength
      exact List.length_eq_one_iff.mp hlength.symm
    have harea : Polygon.area c.toList = t.footprint.area := by simpa using htiles.area_eq
    have hturn : 0 < turn c.first c.second c.third := by
      refine Polygon.turn_pos_of_area_pos ?_ (hpos c List.mem_cons_self)
      exact htiles.convex c.toList (by simp) _ _ _ (List.Sublist.refl _)
    have hregion : Polygon.region c.toList = t.footprint.region :=
      Polygon.region_triangle_eq hturn (isConvex_footprint ht) (htiles.within c.toList (by simp))
        harea.ge
    rw [hempty, List.forall₂_cons]
    refine ⟨covers_self ht ?_ ?_, .nil⟩
    · rw [hregion, region_footprint ht]
    · rw [harea, area_footprint ht]
  · have hlist : pieces.first :: pieces.rest = corners.map t.piece := hpieces
    rw [hlist, List.forall₂_map_left_iff, List.forall₂_same]
    exact fun c hc => covers_piece ht (hpos c hc)

end ScreenTriangle

namespace Overlap

variable {rule : SplitRule ℚ} {f g p q : Fragment ℚ} {o : Overlap ℚ}

/-- Two pieces cover the same place or have no inner point in common, and over the same place their
depths differ by more than the tolerance in one direction at most. -/
structure Compatible (tolerance : ℚ) (p q : Fragment ℚ) : Prop where
  footprints : p.region = q.region ∨ Disjoint (interior p.region) (interior q.region)
  depths : p.region = q.region →
    (∀ x ∈ p.region, -tolerance ≤ p.depthAt x - q.depthAt x) ∨
      ∀ x ∈ p.region, p.depthAt x - q.depthAt x ≤ tolerance

theorem compatible_of_covers (hrule : rule.Exact) (ho : ofFragments? rule f g = some o)
    {c d : Triple (Vec2 ℚ)} (hc : c ∈ sharedFan rule o ++ outerFan rule o.first o.second)
    (hd : d ∈ sharedFan rule o ++ outerFan rule o.second o.first)
    (hp : o.first.Covers p c) (hq : o.second.Covers q d) :
    Compatible rule.depthTolerance p q := by
  obtain ⟨rfl, hshared⟩ | hsep := eq_or_separated hrule ho hc hd
  · have hregion : p.region = q.region := hp.region.trans hq.region.symm
    refine ⟨Or.inl hregion, fun _ => ?_⟩
    obtain ⟨part, hpart, hmem⟩ := List.mem_flatMap.mp hshared
    have hsub : p.region ⊆ part.region := by
      rw [hp.region]
      exact convexHull_mono (Polygon.mem_of_mem_triangulate hmem)
    have hdiff : ∀ x, p.depthAt x - q.depthAt x =
        (o.first.depthPlane - o.second.depthPlane).eval x := by
      intro x
      rw [hp.depth, hq.depth, HalfPlane.eval_sub]
    simp only [hdiff]
    obtain habove | hbelow := oneSided_of_mem_sharedParts hrule ho hpart
    · exact Or.inl fun x hx => habove x (hsub hx)
    · exact Or.inr fun x hx => hbelow x (hsub hx)
  · refine ⟨Or.inr ?_, fun hregion => ?_⟩
    · rw [hp.region, hq.region]
      exact hsep.disjoint_interior
    -- a triangle with an area is not on both sides of a line
    · exfalso
      rw [hp.region, hq.region] at hregion
      have hcorner : ∀ v ∈ c.toList, v ∈ Polygon.region c.toList ∩ Polygon.region d.toList := by
        intro v hv
        rw [← hregion, Set.inter_self]
        exact Polygon.mem_region hv
      have hflat : turn c.first c.second c.third = 0 :=
        hsep.turn_eq_zero (hcorner _ (by simp [Triple.toList]))
          (hcorner _ (by simp [Triple.toList])) (hcorner _ (by simp [Triple.toList]))
      have htwice := Polygon.area_triangle c.first c.second c.third
      have hpos : 0 < Polygon.area [c.first, c.second, c.third] := area_pos_of_mem_fans hrule hc
      rw [hflat, abs_zero] at htwice
      linarith

/-- A partition tiles both triangles, and its pieces are compatible two by two. -/
theorem partition?_compatible (hrule : rule.Exact) (ho : ofFragments? rule f g = some o)
    {P Q : Pieces ℚ} (hpartition : partition? rule o = some (P, Q)) :
    f.PartitionedInto (P.inPlace f) ∧ g.PartitionedInto (Q.inPlace g) ∧
      ∀ p ∈ P.inPlace f, ∀ q ∈ Q.inPlace g, Compatible rule.depthTolerance p q := by
  obtain ⟨-, ht, hu, -⟩ := ofFragments?_eq_some_iff.mp ho
  obtain ⟨htiles, htiles'⟩ := tiles_both hrule ho
  obtain ⟨hP, hQ⟩ := toList_of_partition? hpartition
  rw [piecesOver_eq_map] at hP hQ
  have hcovers := ScreenTriangle.forall₂_covers_inPlace ht htiles
    (fun c hc => area_pos_of_mem_fans hrule hc) hP
  have hcovers' := ScreenTriangle.forall₂_covers_inPlace hu htiles'
    (fun c hc => area_pos_of_mem_fans hrule hc) hQ
  refine ⟨ScreenTriangle.partitionedInto_of_covers ht hcovers htiles,
    ScreenTriangle.partitionedInto_of_covers hu hcovers' htiles', fun p hp q hq => ?_⟩
  obtain ⟨c, hc, hpc⟩ := ScreenTriangle.exists_covers hcovers hp
  obtain ⟨d, hd, hqd⟩ := ScreenTriangle.exists_covers hcovers' hq
  exact compatible_of_covers hrule ho hc hd hpc hqd

/-! ### The pieces in the buffer -/

/-- The fragments that stand for a slot after a split into `count` pieces: the one in the slot, and
those that were appended from place `start` on. -/
def standing (buffer : Array (Fragment ℚ)) (slot start count : Nat) : List (Fragment ℚ) :=
  buffer[slot]?.toList ++ (buffer.toList.drop start).take (count - 1)

section Buffer

variable {buffer : Array (Fragment ℚ)} {i j k : Nat}

theorem standing_append {slots next : Array (Fragment ℚ)} {pieces : List (Fragment ℚ)}
    (before after : List (Fragment ℚ))
    (hnext : next.toList = slots.toList ++ (before ++ (pieces ++ after))) {x : Fragment ℚ}
    (hx : slots[k]? = some x) :
    standing next k (slots.size + before.length) (pieces.length + 1) = x :: pieces := by
  obtain ⟨hk, -⟩ := Array.getElem?_eq_some_iff.mp hx
  have hslot : next[k]? = some x := by
    rw [← Array.getElem?_toList, hnext, List.getElem?_append_left (by simpa using hk),
      Array.getElem?_toList, hx]
  rw [standing, hslot, hnext, ← List.drop_drop, List.drop_left' Array.length_toList,
    List.drop_left' rfl, Nat.add_sub_cancel, List.take_left' rfl]
  rfl

/-- After a split both inputs are found where they should be. -/
theorem standing_split (hij : i ≠ j) (hf : buffer[i]? = some f) (hg : buffer[j]? = some g)
    (P Q : Pieces ℚ) :
    let next := replaceSlot (replaceSlot buffer i P) j Q ++ P.rest ++ Q.rest
    standing next i buffer.size P.count = P.inPlace f ∧
      standing next j (buffer.size + (P.count - 1)) Q.count = Q.inPlace g := by
  intro next
  have hsize : (replaceSlot (replaceSlot buffer i P) j Q).size = buffer.size := by
    rw [size_replaceSlot, size_replaceSlot]
  obtain ⟨hfirst, hsecond⟩ := getElem?_replaceSlots hij hf hg P Q
  rw [← hsize]
  constructor
  · exact standing_append [] Q.rest (by simp [next]) hfirst
  · exact standing_append P.rest [] (by simp [next]) hsecond

end Buffer

/-- **A split partitions both triangles compatibly.** Under an exact rule, if a call splits anything
then what stands for each of the two inputs afterwards partitions its footprint, and each piece of
one is compatible with each piece of the other. -/
theorem splitInPlace_partitions (hrule : rule.Exact) {buffer next : Array (Fragment ℚ)}
    {i j n₁ n₂ : Nat} (hsplit : splitInPlace rule buffer i j = ((n₁, n₂), next))
    (hseveral : (n₁, n₂) ≠ (1, 1)) :
    ∃ f g, buffer[i]? = some f ∧ buffer[j]? = some g ∧
      let first := standing next i buffer.size n₁
      let second := standing next j (buffer.size + (n₁ - 1)) n₂
      first.length = n₁ ∧ second.length = n₂ ∧ f.PartitionedInto first ∧
        g.PartitionedInto second ∧
        ∀ p ∈ first, ∀ q ∈ second, Compatible rule.depthTolerance p q := by
  obtain hkept | ⟨f, g, o, P, Q, hij, hf, hg, ho, hpartition, heq⟩ :=
    splitInPlace_eq_or rule buffer i j
  · rw [hkept] at hsplit
    cases hsplit
    exact absurd rfl hseveral
  · rw [heq] at hsplit
    cases hsplit
    obtain ⟨hfirst, hsecond⟩ := standing_split hij hf hg P Q
    obtain ⟨hP, hQ, hcompatible⟩ := partition?_compatible hrule ho hpartition
    refine ⟨f, g, hf, hg, ?_⟩
    simp only [hfirst, hsecond]
    exact ⟨rfl, rfl, hP, hQ, hcompatible⟩

/-- Half of the ramp lies beside the level triangle, and in the other half they cross. -/
theorem splitInPlace_level_ramp :
    let split := splitInPlace FragmentList.exactRule #[level, ramp] 0 1
    FragmentList.exactRule.Exact ∧ split.1 = (6, 4) ∧ split.2.size = 10 ∧
      level.PartitionedInto (standing split.2 0 2 6) ∧
      ramp.PartitionedInto (standing split.2 1 7 4) ∧
      ∀ p ∈ standing split.2 0 2 6, ∀ q ∈ standing split.2 1 7 4, Compatible 0 p q := by
  intro split
  have hrule : FragmentList.exactRule.Exact := ⟨rfl, rfl, le_rfl⟩
  have hcounts : split.1 = (6, 4) := by decide +kernel
  obtain ⟨f, g, hf, hg, -, -, hfirst, hsecond, hcompatible⟩ :=
    splitInPlace_partitions hrule (show split = ((6, 4), split.2) from Prod.ext hcounts rfl)
      (by decide)
  obtain rfl : level = f := by simpa using hf
  obtain rfl : ramp = g := by simpa using hg
  exact ⟨hrule, hcounts, by decide +kernel, hfirst, hsecond, hcompatible⟩

end Overlap

end PainterScene
