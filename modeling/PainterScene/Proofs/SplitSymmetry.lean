import PainterScene.Proofs.DepthSymmetry
import PainterScene.Proofs.PairTiling

/-!
# Splitting a pair, from both sides

Cutting two triangles by each other gives the same pieces whichever comes first. The overlap is then
clipped the other way round, which with exact arithmetic finds the same vertices in another order,
and the difference of the depth planes changes its sign, so that the two sides of the cut change
places. The fans over the sides are the same as before, in the other order.
-/

namespace PainterScene

open Vec2

theorem Rect.intersect?_comm (r s : Rect ℚ) : s.intersect? r = r.intersect? s := by
  simp only [intersect?, Scalar.min_eq, Scalar.max_eq, min_comm, max_comm]

theorem HalfPlane.flip_sub (g h : HalfPlane ℚ) : (g - h).flip = h - g := by
  refine HalfPlane.ext ?_ (neg_sub g.offset h.offset)
  have hnormal : (g - h).flip.normal = (g.normal - h.normal).scale (-1) := rfl
  have hnormal' : (h - g).normal = h.normal - g.normal := rfl
  rw [hnormal, hnormal']
  ext <;> simp [scale]

namespace Overlap

variable {rule : SplitRule ℚ} {f g : Fragment ℚ}

/-- The opposite difference crosses the other way, at any order of the vertices. -/
theorem crossing?_flip {tolerance : ℚ} {difference : HalfPlane ℚ} {p q : Polygon ℚ} (hne : p ≠ [])
    (hperm : q.Perm p) :
    crossing? tolerance difference.flip q =
      (crossing? tolerance difference p).map HalfPlane.flip := by
  have hne' : q ≠ [] := by
    rintro rfl
    exact hne hperm.nil_eq.symm
  have hvalues : (Scalar.least (q.map difference.flip.eval) < -tolerance ∧
      tolerance < Scalar.greatest (q.map difference.flip.eval)) ↔
      (Scalar.least (p.map difference.eval) < -tolerance ∧
        tolerance < Scalar.greatest (p.map difference.eval)) := by
    rw [Scalar.least_lt_iff_of_ne_nil (by simpa using hne'),
      Scalar.lt_greatest_iff_of_ne_nil (by simpa using hne'),
      Scalar.least_lt_iff_of_ne_nil (by simpa using hne),
      Scalar.lt_greatest_iff_of_ne_nil (by simpa using hne)]
    simp only [List.mem_map, exists_exists_and_eq_and, HalfPlane.eval_flip, hperm.mem_iff,
      neg_lt_neg_iff, lt_neg]
    exact and_comm
  simp only [crossing?, hvalues]
  split <;> rfl

theorem Eligible.symm (heligible : Eligible rule f g) : Eligible rule g f where
  source := by
    rintro ⟨hsome, hsame⟩
    exact heligible.source ⟨hsame ▸ hsome, hsame.symm⟩
  first := heligible.second
  second := heligible.first

/-- The overlap taken the other way round: its triangles change places and its cut is flipped. -/
theorem ofFragments?_swap (hmerge : rule.mergeDistance = 0) (harea : 0 ≤ rule.areaTolerance)
    {o : Overlap ℚ} (ho : ofFragments? rule f g = some o) :
    ∃ o', ofFragments? rule g f = some o' ∧ o'.first = o.second ∧ o'.second = o.first ∧
      o'.cut = o.cut.map HalfPlane.flip := by
  obtain ⟨heligible, ht, hu, hbounds, hpolygon, hlarge, hcut⟩ := ofFragments?_eq_some_iff.mp ho
  rw [hmerge] at hpolygon
  set polygon' := Polygon.intersect 0 o.second.footprint o.first.footprint with hpolygon'
  have hperm : polygon'.Perm o.polygon := hpolygon ▸ ScreenTriangle.perm_intersect ht hu
  have hsame : polygon'.area = o.polygon.area := hpolygon ▸ ScreenTriangle.area_intersect_comm ht hu
  have hne : o.polygon ≠ [] := Polygon.ne_nil_of_area_pos (harea.trans_lt (not_le.mp hlarge))
  refine ⟨⟨o.second, o.first, polygon', o.cut.map HalfPlane.flip⟩, ?_, rfl, rfl, rfl⟩
  refine ofFragments?_eq_some_iff.mpr ⟨heligible.symm, hu, ht, ?_, ?_, ?_, ?_⟩
  · rwa [Rect.intersect?_comm]
  · rw [hmerge]
  · rwa [hsame]
  · rw [hcut, ← crossing?_flip hne hperm, HalfPlane.flip_sub]

/-- Flipping the line only changes the order of the triangles. -/
theorem perm_cutTriangles_flip (rule : SplitRule ℚ) (cut : HalfPlane ℚ) (t : ScreenTriangle ℚ) :
    (cutTriangles rule cut.flip t).Perm (cutTriangles rule cut t) := by
  simp only [cutTriangles, HalfPlane.flip_flip, List.flatMap_cons, List.flatMap_nil,
    List.append_nil]
  exact List.perm_append_comm

theorem toList_cutAlong (rule : SplitRule ℚ) (cut : HalfPlane ℚ) (t : ScreenTriangle ℚ) :
    (cutAlong rule cut t).toList =
      if (cutTriangles rule cut t).length ≤ 1 then [t.fragment]
      else (cutTriangles rule cut t).map t.piece := by
  obtain ⟨hfew, hwhole⟩ | ⟨hseveral, hpieces⟩ := cutAlong_cases rule cut t
  · rw [if_pos hfew, hwhole]
    rfl
  · have hlength : (cutAlong rule cut t).count = (cutTriangles rule cut t).length := by
      rw [← Pieces.length_toList, hpieces, List.length_map]
    rw [if_neg (by omega), hpieces]

/-- The pieces on both sides of a line do not depend on which side comes first. -/
theorem perm_cutAlong_flip (rule : SplitRule ℚ) (cut : HalfPlane ℚ) (t : ScreenTriangle ℚ) :
    (cutAlong rule cut.flip t).toList.Perm (cutAlong rule cut t).toList := by
  have hperm := perm_cutTriangles_flip rule cut t
  rw [toList_cutAlong, toList_cutAlong, hperm.length_eq]
  split
  · exact List.Perm.refl _
  · exact hperm.map t.piece

theorem depthsInterleave_comm (rule : SplitRule ℚ) (f g : Fragment ℚ) :
    depthsInterleave rule g f = depthsInterleave rule f g :=
  Bool.and_comm _ _

/-- A pair is cut the same in either order, up to the order of the pieces. -/
theorem cutPair?_swap (hmerge : rule.mergeDistance = 0) (harea : 0 ≤ rule.areaTolerance)
    {P Q : Pieces ℚ} (hpair : cutPair? rule f g = some (P, Q)) :
    ∃ P' Q', cutPair? rule g f = some (Q', P') ∧ P'.toList.Perm P.toList ∧
      Q'.toList.Perm Q.toList := by
  obtain ⟨o, cut, ho, hcut, hinterleave, rfl, rfl⟩ := cutPair?_eq_some_iff.mp hpair
  obtain ⟨o', ho', hfirst, hsecond, hcut'⟩ := ofFragments?_swap hmerge harea ho
  rw [hcut, Option.map_some] at hcut'
  rw [← depthsInterleave_comm] at hinterleave
  refine ⟨cutAlong rule cut.flip o'.second, cutAlong rule cut.flip o'.first,
    cutPair?_eq_some_iff.mpr ⟨o', cut.flip, ho', hcut', hinterleave, rfl, rfl⟩, ?_, ?_⟩
  · rw [hsecond]
    exact perm_cutAlong_flip rule cut o.first
  · rw [hfirst]
    exact perm_cutAlong_flip rule cut o.second

/-- **A split does not depend on the order of the fragments.** With only equal vertices merged, both
fragments fall into as many pieces either way, and the pieces are the same up to their order. -/
theorem splitPair_swap (rule : SplitRule ℚ) (hmerge : rule.mergeDistance = 0)
    (harea : 0 ≤ rule.areaTolerance) (f g : Fragment ℚ) {P Q : Pieces ℚ}
    (hsplit : splitPair rule f g = (P, Q)) :
    ∃ P' Q', splitPair rule g f = (Q', P') ∧ (Q'.count, P'.count) = (Q.count, P.count) ∧
      Q'.toList.Perm Q.toList ∧ P'.toList.Perm P.toList := by
  obtain ⟨P', Q', hswapped, hP, hQ⟩ : ∃ P' Q', splitPair rule g f = (Q', P') ∧
      P'.toList.Perm P.toList ∧ Q'.toList.Perm Q.toList := by
    cases hpair : cutPair? rule f g with
    | some pieces =>
        obtain ⟨P', Q', hpair', hP, hQ⟩ := cutPair?_swap hmerge harea hpair
        rw [splitPair, hpair, Option.getD_some] at hsplit
        obtain ⟨rfl, rfl⟩ := Prod.mk.inj hsplit
        exact ⟨P', Q', by rw [splitPair, hpair', Option.getD_some], hP, hQ⟩
    | none =>
        -- a cut of the swapped pair would give a cut of this one
        have hnone : cutPair? rule g f = none := by
          rw [Option.eq_none_iff_forall_ne_some]
          rintro pieces hpieces
          obtain ⟨_, _, hagain, -⟩ := cutPair?_swap hmerge harea hpieces
          rw [hpair] at hagain
          cases hagain
        rw [splitPair, hpair, Option.getD_none] at hsplit
        obtain ⟨rfl, rfl⟩ := Prod.mk.inj hsplit
        exact ⟨_, _, by rw [splitPair, hnone, Option.getD_none], .refl _, .refl _⟩
  refine ⟨P', Q', hswapped, ?_, hQ, hP⟩
  simp only [← Pieces.length_toList, hQ.length_eq, hP.length_eq]

/-- The level is cut into three pieces and the ramp into two, whichever comes first, but the pieces
of the level come out in another order. -/
theorem splitPair_ramp_level :
    (splitPair sliverRule level ramp).1.count = 3 ∧
    (splitPair sliverRule level ramp).2.count = 2 ∧
    (splitPair sliverRule ramp level).2.toList ≠ (splitPair sliverRule level ramp).1.toList ∧
    (splitPair sliverRule ramp level).2.toList.Perm (splitPair sliverRule level ramp).1.toList ∧
    (splitPair sliverRule ramp level).1.toList.Perm (splitPair sliverRule level ramp).2.toList := by
  obtain ⟨P', Q', hswapped, -, hQ, hP⟩ :=
    splitPair_swap sliverRule rfl (by decide +kernel) level ramp Prod.mk.eta.symm
  refine ⟨by decide +kernel, by decide +kernel, by decide +kernel, ?_, ?_⟩
  · rwa [hswapped]
  · rwa [hswapped]

end Overlap

end PainterScene
