import PainterScene.Proofs.Partition

/-!
# Cutting a pair tiles both triangles

Each of the two triangles is clipped to both sides of the crossing, the sides are divided into fans
of triangles, and the slivers among these are dropped. Before that the triangles tile the parent,
and there are three of them at most: equal vertices, which appear where the line passes through a
corner, contribute nothing but slivers to a fan. A parent that counts as cut keeps two or more, so
it loses one sliver at most.
-/

namespace PainterScene

open Vec2

theorem HalfPlane.flip_flip (h : HalfPlane ℚ) : h.flip.flip = h := by
  have hnormal : (h.normal.scale (-1)).scale (-1) = h.normal := by
    ext <;> simp [scale]
  exact HalfPlane.ext hnormal (neg_neg h.offset)

namespace Polygon

/-! ### Fans around repeated vertices -/

section Merging

variable {minArea : ℚ}

theorem not_lt_area_of_turn (hmin : 0 ≤ minArea) {a b c : Vec2 ℚ} (hturn : turn a b c = 0) :
    ¬ minArea < area [a, b, c] := by
  have htwice := area_triangle a b c
  rw [hturn, abs_zero] at htwice
  linarith

theorem triangulate_apex_cons (hmin : 0 ≤ minArea) (p : Vec2 ℚ) (l : Polygon ℚ) :
    triangulate minArea (p :: p :: l) = triangulate minArea (p :: l) := by
  cases l with
  | nil => rfl
  | cons q l =>
      rw [triangulate_cons, if_neg (not_lt_area_of_turn hmin (turn_self_left p q))]

theorem triangulate_dropRepeats (hmin : 0 ≤ minArea) (p q : Vec2 ℚ) (l : Polygon ℚ) :
    triangulate minArea (p :: q :: dropRepeats 0 q l) = triangulate minArea (p :: q :: l) := by
  induction l generalizing q with
  | nil => rfl
  | cons r l ih =>
      rw [dropRepeats]
      split
      · rename_i hclose
        obtain rfl := distSq_le_zero_iff.mp hclose
        rw [ih, triangulate_cons, if_neg (not_lt_area_of_turn hmin (turn_self_right p q))]
      · rw [triangulate_cons, triangulate_cons, ih]

theorem triangulate_concat_apex (hmin : 0 ≤ minArea) (p : Vec2 ℚ) (l : Polygon ℚ) :
    triangulate minArea (p :: (l ++ [p])) = triangulate minArea (p :: l) := by
  induction l with
  | nil => rfl
  | cons q l ih =>
      cases l with
      | nil =>
          rw [List.singleton_append, triangulate_cons,
            if_neg (not_lt_area_of_turn hmin (turn_self_outer p q))]
          rfl
      | cons r l =>
          rw [List.cons_append, List.cons_append, triangulate_cons, triangulate_cons,
            ← List.cons_append, ih]

theorem triangulate_trimEnd (hmin : 0 ≤ minArea) (p : Vec2 ℚ) (l : Polygon ℚ) :
    triangulate minArea (p :: trimEnd 0 p l) = triangulate minArea (p :: l) := by
  induction l using List.reverseRecOn with
  | nil => rfl
  | append_singleton l q ih =>
      rw [trimEnd_concat]
      split
      · rfl
      · rename_i hclose
        obtain rfl := distSq_le_zero_iff.mp (not_lt.mp hclose)
        rw [ih, triangulate_concat_apex hmin]

/-- Merging equal vertices takes nothing but slivers out of the fan. -/
theorem triangulate_merge_zero (hmin : 0 ≤ minArea) (poly : Polygon ℚ) :
    triangulate minArea (merge 0 poly) = triangulate minArea poly := by
  cases poly with
  | nil => rfl
  | cons p rest =>
      calc triangulate minArea (merge 0 (p :: rest))
          = triangulate minArea (p :: dropRepeats 0 p rest) := triangulate_trimEnd hmin p _
        _ = triangulate minArea (p :: p :: dropRepeats 0 p rest) :=
            (triangulate_apex_cons hmin p _).symm
        _ = triangulate minArea (p :: p :: rest) := triangulate_dropRepeats hmin p p rest
        _ = triangulate minArea (p :: rest) := triangulate_apex_cons hmin p rest

end Merging

/-! ### How many triangles a line makes -/

section Count

variable {α : Type} [Scalar α]

/-- A half-plane with `k` of three corners inside leaves a fan of `k` triangles, or of one if it
has all three. -/
theorem length_fan_clip_le (minArea tol : α) (h : HalfPlane α) (a b c : Vec2 α) :
    (triangulate minArea (clip tol h [a, b, c])).length ≤
      if [a, b, c].countP h.contains = 3 then 1 else [a, b, c].countP h.contains := by
  have hcorners : ((steps [a, b, c]).flatMap fun step => clipStep h step.1 step.2).length - 2 ≤
      if [a, b, c].countP h.contains = 3 then 1 else [a, b, c].countP h.contains := by
    simp only [steps, List.getLast?_cons_cons, List.getLast?_singleton, List.zip_cons_cons,
      List.zip_nil_right, List.flatMap_cons, List.flatMap_nil, List.length_append, List.length_nil]
    cases ha : h.contains a <;> cases hb : h.contains b <;> cases hc : h.contains c <;>
      simp [clipStep, ha, hb, hc]
  have hmerged := (merge_sublist tol
    ((steps [a, b, c]).flatMap fun step => clipStep h step.1 step.2)).length_le
  calc (triangulate minArea (clip tol h [a, b, c])).length
      ≤ (clip tol h [a, b, c]).length - 2 := length_triangulate_le minArea _
    _ ≤ _ := Nat.sub_le_sub_right hmerged 2
    _ ≤ _ := hcorners

end Count

theorem length_triangulate_quad_le {p q r s : Vec2 ℚ}
    (hrepeat : p = q ∨ q = r ∨ r = s ∨ s = p) : (triangulate 0 [p, q, r, s]).length ≤ 1 := by
  have hsliver : ∀ {a b c : Vec2 ℚ}, turn a b c = 0 → ¬ 0 < area [a, b, c] :=
    not_lt_area_of_turn le_rfl
  have hlast : (triangulate 0 [p, r, s]).length ≤ 1 := length_triangulate_le 0 _
  obtain hfirst | hsecond : turn p q r = 0 ∨ turn p r s = 0 := by
    obtain rfl | rfl | rfl | rfl := hrepeat <;> simp
  · rwa [triangulate_cons, if_neg (hsliver hfirst)]
  · rw [triangulate_cons, triangulate_cons, if_neg (hsliver hsecond)]
    split
    · exact le_refl 1
    · exact Nat.zero_le 1

section Touch

variable {h : HalfPlane ℚ} {o p : Vec2 ℚ}

theorem meet_eq_left (ho : h.eval o = 0) : h.meet o p = o := by
  rw [HalfPlane.meet, HalfPlane.crossing, ho, zero_div, lerp_eq, sub_zero, one_smul, zero_smul,
    add_zero]

theorem meet_eq_right (ho : h.eval o = 0) (hp : h.eval p ≠ 0) : h.meet p o = o := by
  rw [HalfPlane.meet_comm (by rwa [ho]), meet_eq_left ho]

end Touch

/-- Of two corners inside and one outside, one inside lies on the line if both sides have two. -/
theorem eval_eq_zero_or {h : HalfPlane ℚ} {u v w : Vec2 ℚ} (hu : h.contains u = true)
    (hv : h.contains v = true) (hw : h.contains w = false)
    (hflip : [u, v, w].countP h.flip.contains = 2) :
    (h.eval u = 0 ∨ h.eval v = 0) ∧ h.eval w ≠ 0 := by
  rw [HalfPlane.contains_iff] at hu hv
  rw [HalfPlane.contains_eq_false_iff] at hw
  refine ⟨?_, hw.ne⟩
  by_contra hoff
  rw [not_or] at hoff
  have hstrict : ∀ {x}, 0 ≤ h.eval x → h.eval x ≠ 0 → h.flip.contains x = false := by
    intro x hx hne
    rw [HalfPlane.contains_eq_false_iff, HalfPlane.eval_flip, neg_lt_zero]
    exact lt_of_le_of_ne hx hne.symm
  have hcount := List.countP_le_length (p := h.flip.contains) (l := [w])
  rw [List.countP_cons_of_neg (by simp [hstrict hu hoff.1]),
    List.countP_cons_of_neg (by simp [hstrict hv hoff.2])] at hflip
  simp only [List.length_singleton] at hcount
  omega

/-- A line through one corner of a triangle and between the other two meets the boundary in that
corner twice, so each side of it is a triangle. -/
theorem length_fan_clip_le_one {h : HalfPlane ℚ} {a b c : Vec2 ℚ}
    (hinside : [a, b, c].countP h.contains = 2) (hflip : [a, b, c].countP h.flip.contains = 2) :
    (triangulate 0 (clip 0 h [a, b, c])).length ≤ 1 := by
  have hclip : triangulate 0 (clip 0 h [a, b, c]) =
      triangulate 0 (clipStep h c a ++ (clipStep h a b ++ (clipStep h b c ++ []))) :=
    triangulate_merge_zero le_rfl _
  rw [hclip]
  have hrotate : [b, c, a].countP h.flip.contains = 2 ∧ [a, c, b].countP h.flip.contains = 2 := by
    simp only [List.countP_cons, List.countP_nil] at hflip ⊢
    omega
  obtain ⟨ha, hb, hc⟩ | ⟨ha, hb, hc⟩ | ⟨ha, hb, hc⟩ :
      (h.contains a = false ∧ h.contains b = true ∧ h.contains c = true) ∨
      (h.contains a = true ∧ h.contains b = false ∧ h.contains c = true) ∨
      (h.contains a = true ∧ h.contains b = true ∧ h.contains c = false) := by
    cases ha : h.contains a <;> cases hb : h.contains b <;> cases hc : h.contains c <;>
      simp [ha, hb, hc] at hinside ⊢
  · obtain ⟨hzero, hne⟩ := eval_eq_zero_or hb hc ha hrotate.1
    simp only [clipStep, ha, hb, hc, List.cons_append, List.nil_append]
    apply length_triangulate_quad_le
    obtain hzero | hzero := hzero
    · exact Or.inr (Or.inl (meet_eq_right hzero hne))
    · exact Or.inr (Or.inr (Or.inr (meet_eq_left hzero).symm))
  · obtain ⟨hzero, hne⟩ := eval_eq_zero_or ha hc hb hrotate.2
    simp only [clipStep, ha, hb, hc, List.cons_append, List.nil_append]
    apply length_triangulate_quad_le
    obtain hzero | hzero := hzero
    · exact Or.inl (meet_eq_left hzero).symm
    · exact Or.inr (Or.inr (Or.inl (meet_eq_right hzero hne)))
  · obtain ⟨hzero, hne⟩ := eval_eq_zero_or ha hb hc hflip
    simp only [clipStep, ha, hb, hc, List.cons_append, List.nil_append]
    apply length_triangulate_quad_le
    obtain hzero | hzero := hzero
    · exact Or.inl (meet_eq_right hzero hne)
    · exact Or.inr (Or.inr (Or.inl (meet_eq_left hzero).symm))

/-- A line cuts a triangle into three triangles at most: one on the side of one corner and two on
the side of the others, or one on each side if it passes through a corner. -/
theorem length_fans_clip_le (h : HalfPlane ℚ) (a b c : Vec2 ℚ) :
    (triangulate 0 (clip 0 h [a, b, c])).length +
      (triangulate 0 (clip 0 h.flip [a, b, c])).length ≤ 3 := by
  have hside := length_fan_clip_le 0 0 h a b c
  have hother := length_fan_clip_le 0 0 h.flip a b c
  have hinside := List.countP_le_length (p := h.contains) (l := [a, b, c])
  have houtside := List.countP_le_length (p := h.flip.contains) (l := [a, b, c])
  rw [show [a, b, c].length = 3 from rfl] at hinside houtside
  by_cases hbalanced : [a, b, c].countP h.contains = 2 ∧ [a, b, c].countP h.flip.contains = 2
  · have hone := length_fan_clip_le_one hbalanced.1 hbalanced.2
    have hone' := length_fan_clip_le_one hbalanced.2 (by rw [HalfPlane.flip_flip, hbalanced.1])
    omega
  · split at hside <;> split at hother <;> omega

/-! ### Slivers -/

/-- A larger tolerance only drops triangles of the fan. -/
theorem triangulate_eq_filter {minArea : ℚ} (hmin : 0 ≤ minArea) (poly : Polygon ℚ) :
    triangulate minArea poly =
      (triangulate 0 poly).filter fun t => decide (minArea < area t.toList) := by
  cases poly with
  | nil => rfl
  | cons p rest =>
      rw [triangulate, triangulate, List.filter_filter]
      refine List.filter_congr fun t _ => ?_
      by_cases hbig : minArea < area t.toList
      · simp [hbig, hmin.trans_lt hbig]
      · simp [hbig]

theorem sum_area_filter_bounds {triangles : List (Triple (Vec2 ℚ))} {minArea : ℚ}
    (hmin : 0 ≤ minArea)
    (hlength : triangles.length ≤
      (triangles.filter fun t => decide (minArea < area t.toList)).length + 1) :
    let kept := ((triangles.filter fun t => decide (minArea < area t.toList)).map
      fun t => area t.toList).sum
    kept ≤ (triangles.map fun t => area t.toList).sum ∧
      (triangles.map fun t => area t.toList).sum - minArea ≤ kept := by
  intro kept
  set dropped := triangles.filter fun t => ¬ minArea < area t.toList with hdropped
  have hsum : kept + (dropped.map fun t => area t.toList).sum =
      (triangles.map fun t => area t.toList).sum :=
    List.sum_map_filter_add_sum_map_filter_not _ _ _
  have hfew : dropped.length ≤ 1 := by
    have hcount := List.length_eq_length_filter_add (l := triangles)
      fun t => decide (minArea < area t.toList)
    simp only [hdropped, decide_not]
    omega
  have hlost : 0 ≤ (dropped.map fun t => area t.toList).sum ∧
      (dropped.map fun t => area t.toList).sum ≤ minArea := by
    match hlist : dropped with
    | [] => simpa using hmin
    | [t] =>
        have ht : t ∈ dropped := by simp [hlist]
        have hsmall : ¬ minArea < area t.toList := by simpa using (List.mem_filter.mp ht).2
        simpa using ⟨area_nonneg t.toList, not_lt.mp hsmall⟩
    | _ :: _ :: _ => simp [hlist] at hfew
  constructor <;> linarith

end Polygon

/-- Fragments inside `f` that share no inner points and leave out at most `loss` of its area. -/
structure Fragment.FilledUpTo (loss : ℚ) (f : Fragment ℚ) (pieces : List (Fragment ℚ)) : Prop where
  within : ∀ p ∈ pieces, p.region ⊆ f.region
  disjoint : pieces.Pairwise fun p q => Disjoint (interior p.region) (interior q.region)
  area_le : (pieces.map Fragment.screenArea).sum ≤ f.screenArea
  le_area : f.screenArea - loss ≤ (pieces.map Fragment.screenArea).sum

namespace Fragment

variable {f : Fragment ℚ} {pieces : List (Fragment ℚ)} {loss : ℚ}

theorem partitionedInto_self (f : Fragment ℚ) : f.PartitionedInto [f] where
  within := by simp
  disjoint := List.pairwise_singleton _ _
  area_eq := by simp

theorem PartitionedInto.filledUpTo (hpieces : f.PartitionedInto pieces) (hloss : 0 ≤ loss) :
    f.FilledUpTo loss pieces where
  within := hpieces.within
  disjoint := hpieces.disjoint
  area_le := hpieces.area_eq.le
  le_area := by linarith [hpieces.area_eq]

theorem FilledUpTo.partitionedInto (hpieces : f.FilledUpTo 0 pieces) :
    f.PartitionedInto pieces where
  within := hpieces.within
  disjoint := hpieces.disjoint
  area_eq := le_antisymm hpieces.area_le (by linarith [hpieces.le_area])

end Fragment

namespace Overlap

variable {rule : SplitRule ℚ} {f g : Fragment ℚ} {t : ScreenTriangle ℚ} {cut : HalfPlane ℚ}

def sideTriangles (cut : HalfPlane ℚ) (t : ScreenTriangle ℚ) : List (Triple (Vec2 ℚ)) :=
  [t.footprint.clip 0 cut, t.footprint.clip 0 cut.flip].flatMap (Polygon.triangulate 0)

theorem length_sideTriangles_le (cut : HalfPlane ℚ) (t : ScreenTriangle ℚ) :
    (sideTriangles cut t).length ≤ 3 := by
  obtain ⟨a, b, c, hfootprint⟩ := t.exists_footprint_eq
  have hfans := Polygon.length_fans_clip_le cut a b c
  simpa [sideTriangles, hfootprint] using hfans

/-- The triangles on both sides of a line tile the triangle. -/
theorem tiles_sideTriangles (ht : ScreenTriangle.ofFragment? f = some t)
    (hnormal : cut.normal ≠ 0) :
    Polygon.Tiles ((sideTriangles cut t).map Triple.toList) t.footprint := by
  have hsides := Polygon.tiles_clip (ScreenTriangle.isConvex_footprint ht) hnormal
  rw [sideTriangles, List.map_flatMap]
  exact hsides.flatMap fun side hside => Polygon.tiles_triangulate (hsides.convex side hside)

/-- A cut with a tolerance gives the triangles of the exact cut, without the slivers. -/
theorem cutTriangles_eq_filter (hmerge : rule.mergeDistance = 0) (harea : 0 ≤ rule.areaTolerance)
    (cut : HalfPlane ℚ) (t : ScreenTriangle ℚ) :
    cutTriangles rule cut t = (sideTriangles cut t).filter fun corners =>
      decide (rule.areaTolerance < Polygon.area corners.toList) := by
  rw [cutTriangles, sideTriangles, hmerge, List.filter_flatMap]
  exact List.flatMap_congr fun side _ => Polygon.triangulate_eq_filter harea side

/-- The pieces fill the triangle up to the tolerated area: a line makes three triangles at most, so
if two are kept then only one can have been dropped. -/
theorem filledUpTo_cutAlong (hmerge : rule.mergeDistance = 0) (harea : 0 ≤ rule.areaTolerance)
    (ht : ScreenTriangle.ofFragment? f = some t) (hnormal : cut.normal ≠ 0) :
    f.FilledUpTo rule.areaTolerance (cutAlong rule cut t).toList := by
  obtain ⟨-, hwhole⟩ | ⟨hseveral, hpieces⟩ := cutAlong_cases rule cut t
  · rw [hwhole, ScreenTriangle.fragment_of_ofFragment? ht]
    exact (Fragment.partitionedInto_self f).filledUpTo harea
  · have hkept := cutTriangles_eq_filter hmerge harea cut t
    have hlength : (sideTriangles cut t).length ≤ (cutTriangles rule cut t).length + 1 := by
      have hthree := length_sideTriangles_le cut t
      have hcount : (cutAlong rule cut t).count = (cutTriangles rule cut t).length := by
        rw [← Pieces.length_toList, hpieces, List.length_map]
      omega
    have htiles := tiles_sideTriangles ht hnormal
    have hpacks : Polygon.Packs ((cutTriangles rule cut t).map Triple.toList) t.footprint := by
      refine htiles.toPacks.sublist (List.Sublist.map _ ?_)
      rw [hkept]
      exact List.filter_sublist
    have hcovers : List.Forall₂ t.Covers (cutAlong rule cut t).toList
        (cutTriangles rule cut t) := by
      rw [hpieces, List.forall₂_map_left_iff, List.forall₂_same]
      intro corners hcorners
      rw [hkept, List.mem_filter] at hcorners
      exact ScreenTriangle.covers_piece ht (harea.trans_lt (of_decide_eq_true hcorners.2))
    have htotal : f.screenArea =
        ((sideTriangles cut t).map fun corners => Polygon.area corners.toList).sum := by
      rw [← ScreenTriangle.area_footprint ht, ← htiles.area_eq, List.map_map]
      rfl
    rw [hkept] at hlength
    obtain ⟨hupper, hlower⟩ := Polygon.sum_area_filter_bounds harea hlength
    rw [← hkept, ← ScreenTriangle.screenAreas_of_covers hcovers, ← htotal] at hupper hlower
    refine ⟨ScreenTriangle.within_of_covers ht hcovers hpacks, ?_, hupper, hlower⟩
    have hapart := List.pairwise_map.mp hpacks.apart
    exact ScreenTriangle.pairwise_of_covers hcovers hapart

/-- Each triangle of a pair is filled by its pieces, up to one sliver. -/
theorem filledUpTo_splitPair (hmerge : rule.mergeDistance = 0) (harea : 0 ≤ rule.areaTolerance)
    (hdepth : 0 ≤ rule.depthTolerance) (f g : Fragment ℚ) :
    f.FilledUpTo rule.areaTolerance (splitPair rule f g).1.toList ∧
      g.FilledUpTo rule.areaTolerance (splitPair rule f g).2.toList := by
  cases hpair : cutPair? rule f g with
  | none =>
      rw [splitPair, hpair]
      exact ⟨(Fragment.partitionedInto_self f).filledUpTo harea,
        (Fragment.partitionedInto_self g).filledUpTo harea⟩
  | some pieces =>
      rw [splitPair, hpair, Option.getD_some]
      obtain ⟨P, Q⟩ := pieces
      obtain ⟨t, u, ht, hu, -, ⟨⟨x, -, hbelow⟩, y, -, habove⟩, rfl, rfl⟩ :=
        crosses_of_cutPair? hdepth hpair
      have hnormal : (t.depthPlane - u.depthPlane).normal ≠ 0 := by
        apply HalfPlane.normal_ne_of_eval_ne (a := x) (b := y)
        linarith
      exact ⟨filledUpTo_cutAlong hmerge harea ht hnormal,
        filledUpTo_cutAlong hmerge harea hu hnormal⟩

/-- **A split tiles both triangles.** If only equal vertices are merged, the pieces of each of two
fragments lie inside it, share no inner points and leave out at most the tolerated area; they leave
out nothing if the fragment stays whole or no area is tolerated. -/
theorem splitPair_tiles (rule : SplitRule ℚ) (hmerge : rule.mergeDistance = 0)
    (harea : 0 ≤ rule.areaTolerance) (hdepth : 0 ≤ rule.depthTolerance) (f g : Fragment ℚ)
    {P Q : Pieces ℚ} (hsplit : splitPair rule f g = (P, Q)) :
    f.FilledUpTo rule.areaTolerance P.toList ∧ g.FilledUpTo rule.areaTolerance Q.toList ∧
      (P = Pieces.whole f ∨ rule.areaTolerance = 0 → f.PartitionedInto P.toList) ∧
      (Q = Pieces.whole g ∨ rule.areaTolerance = 0 → g.PartitionedInto Q.toList) := by
  obtain ⟨hP, hQ⟩ := filledUpTo_splitPair hmerge harea hdepth f g
  rw [hsplit] at hP hQ
  have hexact : ∀ {f : Fragment ℚ} {P : Pieces ℚ}, f.FilledUpTo rule.areaTolerance P.toList →
      P = Pieces.whole f ∨ rule.areaTolerance = 0 → f.PartitionedInto P.toList := by
    rintro f P hfilled (rfl | hzero)
    · exact Fragment.partitionedInto_self f
    · rw [hzero] at hfilled
      exact hfilled.partitionedInto
  exact ⟨hP, hQ, hexact hP, hexact hQ⟩

/-- A rule under which the smaller half of what `ramp` has past the crossing is a sliver. -/
def sliverRule : SplitRule ℚ :=
  { FragmentList.exactRule with areaTolerance := 3 / 50 }

/-- One of the three triangles of the ramp is dropped, and the other two stand for it. -/
theorem splitPair_ramp_loses_sliver :
    sliverRule.mergeDistance = 0 ∧ sliverRule.areaTolerance = 3 / 50 ∧
    (splitPair sliverRule level ramp).1.count = 3 ∧
    (splitPair sliverRule level ramp).2.count = 2 ∧
    level.FilledUpTo (3 / 50) (splitPair sliverRule level ramp).1.toList ∧
    ramp.FilledUpTo (3 / 50) (splitPair sliverRule level ramp).2.toList ∧
    ((splitPair sliverRule level ramp).2.toList.map Fragment.screenArea).sum < ramp.screenArea := by
  obtain ⟨hlevel, hramp, -, -⟩ := splitPair_tiles sliverRule rfl (by decide +kernel) le_rfl level
    ramp Prod.mk.eta.symm
  exact ⟨rfl, rfl, by decide +kernel, by decide +kernel, hlevel, hramp, by decide +kernel⟩

end Overlap

end PainterScene
