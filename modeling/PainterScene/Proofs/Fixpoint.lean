import Mathlib
import PainterScene.Proofs.Crossing
import PainterScene.Proofs.Scan

/-!
# Resolving reaches a fixpoint

The scan never goes back: slots are overwritten after it has passed pairs with them, and pieces are
appended behind rows that it has left. Nothing is missed because being settled is inherited. Under
an exact rule a pair is cut just when its common part has an area and the depth planes cross over it
(`cutPair?_isSome_iff`), and both can only get lost when either fragment is replaced by a part of
it. So a pair that needs no cut never needs one later, and the pairs behind the scan stay settled.
-/

namespace PainterScene

open Vec2

/-- A rule under which only coincident vertices are merged and no area is too small to count. -/
structure SplitRule.Exact (rule : SplitRule ℚ) : Prop where
  mergeDistance : rule.mergeDistance = 0
  areaTolerance : rule.areaTolerance = 0
  depthTolerance : 0 ≤ rule.depthTolerance

namespace Polygon

variable {poly : Polygon ℚ} {h : HalfPlane ℚ} {x : Vec2 ℚ} {m : ℚ}

theorem exists_vertex_lt (hx : x ∈ poly.region) (hlt : h.eval x < m) :
    ∃ v ∈ poly, h.eval v < m := by
  by_contra hall
  push Not at hall
  exact absurd (HalfPlane.le_eval_of_mem_hull hall hx) (not_le.mpr hlt)

theorem exists_lt_vertex (hx : x ∈ poly.region) (hlt : m < h.eval x) :
    ∃ v ∈ poly, m < h.eval v := by
  by_contra hall
  push Not at hall
  exact absurd (HalfPlane.eval_le_of_mem_hull hall hx) (not_le.mpr hlt)

/-- Over a region an affine function keeps within its values at the vertices. -/
theorem eval_mem_range (h : HalfPlane ℚ) (hx : x ∈ poly.region) :
    Scalar.least (poly.map h.eval) ≤ h.eval x ∧ h.eval x ≤ Scalar.greatest (poly.map h.eval) := by
  constructor
  · exact HalfPlane.le_eval_of_mem_hull
      (fun v hv => Scalar.least_le (List.mem_map_of_mem hv)) hx
  · exact HalfPlane.eval_le_of_mem_hull
      (fun v hv => Scalar.le_greatest (List.mem_map_of_mem hv)) hx

end Polygon

theorem Fragment.contains_bounds {f : Fragment ℚ} {x : Vec2 ℚ} (hx : x ∈ f.region) :
    f.bounds.contains x = true := by
  have hhorizontal : (⟨⟨1, 0⟩, 0⟩ : HalfPlane ℚ).eval = Vec2.x := by
    funext v
    simp [HalfPlane.eval_eq]
  have hvertical : (⟨⟨0, 1⟩, 0⟩ : HalfPlane ℚ).eval = Vec2.y := by
    funext v
    simp [HalfPlane.eval_eq]
  have hwidth := Polygon.eval_mem_range ⟨⟨1, 0⟩, 0⟩ hx
  have hheight := Polygon.eval_mem_range ⟨⟨0, 1⟩, 0⟩ hx
  rw [hhorizontal] at hwidth
  rw [hvertical] at hheight
  simp [Rect.contains, bounds, Rect.ofPoints, hwidth, hheight]

theorem Fragment.isSome_intersect_bounds {f g : Fragment ℚ} {x : Vec2 ℚ} (hf : x ∈ f.region)
    (hg : x ∈ g.region) : (f.bounds.intersect? g.bounds).isSome := by
  have hcontains := contains_bounds hf
  have hcontains' := contains_bounds hg
  simp only [Rect.contains, Bool.and_eq_true, decide_eq_true_eq] at hcontains hcontains'
  obtain ⟨⟨⟨hleft, hbottom⟩, hright⟩, htop⟩ := hcontains
  obtain ⟨⟨⟨hleft', hbottom'⟩, hright'⟩, htop'⟩ := hcontains'
  have hwidth : max f.bounds.min.x g.bounds.min.x ≤ min f.bounds.max.x g.bounds.max.x :=
    (max_le hleft hleft').trans (le_min hright hright')
  have hheight : max f.bounds.min.y g.bounds.min.y ≤ min f.bounds.max.y g.bounds.max.y :=
    (max_le hbottom hbottom').trans (le_min htop htop')
  simp only [Rect.intersect?, Rect.isEmpty, Scalar.min_eq, Scalar.max_eq, not_lt.mpr hwidth,
    not_lt.mpr hheight, decide_false, Bool.or_self, Bool.false_eq_true, if_false,
    Option.isSome_some]

namespace Overlap

variable {rule : SplitRule ℚ} {f g p q : Fragment ℚ} {t u : ScreenTriangle ℚ}

/-- Two fragments that may be cut, cover some area in common and cross there. -/
structure Entangled (rule : SplitRule ℚ) (f g : Fragment ℚ) : Prop where
  eligible : Eligible rule f g
  solid : ∃ a ∈ f.region ∩ g.region, ∃ b ∈ f.region ∩ g.region, ∃ c ∈ f.region ∩ g.region,
    turn a b c ≠ 0
  crosses : ∃ t u, ScreenTriangle.ofFragment? f = some t ∧ ScreenTriangle.ofFragment? g = some u ∧
    Crosses rule.depthTolerance (t.depthPlane - u.depthPlane) f g

/-- Parts of two fragments are entangled only if the fragments are. -/
theorem Entangled.of_parts (hp : PartOf f p) (hq : PartOf g q) (hentangled : Entangled rule p q) :
    Entangled rule f g := by
  obtain ⟨⟨hsource, hfirst, hsecond⟩, ⟨a, ha, b, hb, c, hc, hturn⟩, t', u', ht', hu', hcrosses⟩ :=
    hentangled
  have hregion : p.region ∩ q.region ⊆ f.region ∩ g.region :=
    Set.inter_subset_inter hp.region hq.region
  refine ⟨⟨?_, ?_, ?_⟩, ⟨a, hregion ha, b, hregion hb, c, hregion hc, hturn⟩, ?_⟩
  · rwa [hp.source, hq.source] at hsource
  · exact UInt32.lt_of_le_of_lt hp.splitCount hfirst
  · exact UInt32.lt_of_le_of_lt hq.splitCount hsecond
  · obtain ⟨t, ht, hplane⟩ := hp.plane t' ht'
    obtain ⟨u, hu, hplane'⟩ := hq.plane u' hu'
    obtain ⟨⟨x, hx, hbelow⟩, y, hy, habove⟩ := hcrosses
    rw [hplane, hplane'] at hbelow habove
    exact ⟨t, u, ht, hu, ⟨x, hregion hx, hbelow⟩, y, hregion hy, habove⟩

/-- The depth of `f` is less than that of `g` somewhere, and more elsewhere. -/
theorem Crosses.depths (ht : ScreenTriangle.ofFragment? f = some t)
    (hu : ScreenTriangle.ofFragment? g = some u) {tolerance : ℚ}
    (hcrosses : Crosses tolerance (t.depthPlane - u.depthPlane) f g) :
    f.minDepth + tolerance < g.maxDepth ∧ g.minDepth + tolerance < f.maxDepth := by
  obtain ⟨⟨x, hx, hbelow⟩, y, hy, habove⟩ := hcrosses
  rw [HalfPlane.eval_sub] at hbelow habove
  constructor
  · linarith [ScreenTriangle.minDepth_le_eval ht hx.1, ScreenTriangle.eval_le_maxDepth hu hx.2]
  · linarith [ScreenTriangle.minDepth_le_eval hu hy.2, ScreenTriangle.eval_le_maxDepth ht hy.1]

theorem region_intersect_footprints (ht : ScreenTriangle.ofFragment? f = some t)
    (hu : ScreenTriangle.ofFragment? g = some u) :
    Polygon.region (Polygon.intersect 0 t.footprint u.footprint) = f.region ∩ g.region := by
  rw [Polygon.region_intersect (ScreenTriangle.isConvex_footprint ht),
    ScreenTriangle.region_footprint ht, ScreenTriangle.inner_footprint hu]

theorem crossing?_of_crosses {tolerance : ℚ} (htol : 0 ≤ tolerance) {difference : HalfPlane ℚ}
    {polygon : Polygon ℚ} (hregion : polygon.region = f.region ∩ g.region)
    (hcrosses : Crosses tolerance difference f g) :
    crossing? tolerance difference polygon = some difference := by
  obtain ⟨⟨x, hx, hbelow⟩, y, hy, habove⟩ := hcrosses
  rw [← hregion] at hx hy
  exact (crossing?_eq_some_iff htol).mpr
    ⟨rfl, Polygon.exists_vertex_lt hx hbelow, Polygon.exists_lt_vertex hy habove⟩

/-- Only entangled pairs are cut. -/
theorem entangled_of_cutPair? (hrule : rule.Exact) {P Q : Pieces ℚ}
    (hpair : cutPair? rule f g = some (P, Q)) : Entangled rule f g := by
  obtain ⟨t, u, ht, hu, heligible, hcrosses, -, -⟩ :=
    crosses_of_cutPair? hrule.depthTolerance hpair
  refine ⟨heligible, ?_, t, u, ht, hu, hcrosses⟩
  obtain ⟨o, cut, ho, -⟩ := cutPair?_eq_some_iff.mp hpair
  have hcommon := mem_regions_of_mem_polygon ho
  obtain ⟨-, -, -, -, -, harea, -⟩ := ofFragments?_eq_some_iff.mp ho
  rw [hrule.areaTolerance] at harea
  obtain ⟨a, ha, b, hb, c, hc, hturn⟩ := Polygon.exists_turn_ne_zero (fun h => harea h.le)
  exact ⟨a, hcommon a ha, b, hcommon b hb, c, hcommon c hc, hturn⟩

/-- Every entangled pair is cut. -/
theorem Entangled.isSome_cutPair? (hrule : rule.Exact) (hentangled : Entangled rule f g) :
    (cutPair? rule f g).isSome := by
  obtain ⟨heligible, ⟨a, ha, b, hb, c, hc, hturn⟩, t, u, ht, hu, hcrosses⟩ := hentangled
  have hbounds : (f.bounds.intersect? g.bounds).isSome :=
    Fragment.isSome_intersect_bounds ha.1 ha.2
  set polygon := Polygon.intersect 0 t.footprint u.footprint with hpolygon
  have hregion : polygon.region = f.region ∩ g.region := region_intersect_footprints ht hu
  have hcut := crossing?_of_crosses hrule.depthTolerance hregion hcrosses
  have harea : 0 < polygon.area := by
    rw [← hregion] at ha hb hc
    exact Polygon.area_pos_of_turn_ne_zero ((ScreenTriangle.isConvex_footprint ht).intersect 0 _)
      ha hb hc hturn
  have hoverlap : ofFragments? rule f g =
      some ⟨t, u, polygon, some (t.depthPlane - u.depthPlane)⟩ := by
    refine ofFragments?_eq_some_iff.mpr ⟨heligible, ht, hu, hbounds, ?_, ?_, hcut.symm⟩
    · rw [hrule.mergeDistance]
    · rw [hrule.areaTolerance]
      exact not_le.mpr harea
  have hinterleave : depthsInterleave rule f g = true := by
    simp [depthsInterleave, hcrosses.depths ht hu]
  rw [Option.isSome_iff_exists]
  exact ⟨_, cutPair?_eq_some_iff.mpr ⟨_, _, hoverlap, rfl, hinterleave, rfl, rfl⟩⟩

/-- **When a pair is cut.** Under an exact rule the tests of the code amount to a condition on the
regions and the depths alone. -/
theorem cutPair?_isSome_iff (hrule : rule.Exact) :
    (cutPair? rule f g).isSome ↔ Entangled rule f g := by
  refine ⟨fun hsome => ?_, fun hentangled => hentangled.isSome_cutPair? hrule⟩
  obtain ⟨⟨P, Q⟩, hpair⟩ := Option.isSome_iff_exists.mp hsome
  exact entangled_of_cutPair? hrule hpair

/-- Under an exact rule a triangle with points on both sides of a cut falls apart. -/
theorem one_lt_count_cutAlong (hrule : rule.Exact) (ht : ScreenTriangle.ofFragment? f = some t)
    {cut : HalfPlane ℚ} {x y : Vec2 ℚ} (hx : x ∈ f.region) (hneg : cut.eval x < 0)
    (hy : y ∈ f.region) (hpos : 0 < cut.eval y) : 1 < (cutAlong rule cut t).count := by
  have hside : ∀ (h : HalfPlane ℚ) (v : Vec2 ℚ), v ∈ f.region → 0 < h.eval v →
      0 < (Polygon.triangulate rule.areaTolerance
        (t.footprint.clip rule.mergeDistance h)).length := by
    intro h v hv hin
    rw [← ScreenTriangle.region_footprint ht] at hv
    rw [hrule.mergeDistance, hrule.areaTolerance, List.length_pos_iff]
    exact Polygon.triangulate_ne_nil (Polygon.area_clip_pos (ScreenTriangle.isConvex_footprint ht)
      (ScreenTriangle.area_footprint_pos ht).ne' hv hin).ne'
  have hcut := hside cut y hy hpos
  have hflip := hside cut.flip x hx (by rwa [HalfPlane.eval_flip, neg_pos])
  obtain ⟨hfew, -⟩ | ⟨hseveral, -⟩ := cutAlong_cases rule cut t
  · simp only [cutTriangles, List.flatMap_cons, List.flatMap_nil, List.append_nil,
      List.length_append] at hfew
    omega
  · exact hseveral

def Settled (rule : SplitRule ℚ) (f g : Fragment ℚ) : Prop :=
  cutPair? rule f g = none

theorem settled_iff (hrule : rule.Exact) : Settled rule f g ↔ ¬ Entangled rule f g := by
  rw [Settled, ← cutPair?_isSome_iff hrule, Option.not_isSome_iff_eq_none]

/-- Cutting never undoes what is settled: parts cover less, at the same depths, and have been cut
more often. -/
theorem Settled.parts (hrule : rule.Exact) (hsettled : Settled rule f g) (hp : PartOf f p)
    (hq : PartOf g q) : Settled rule p q := by
  rw [settled_iff hrule] at hsettled ⊢
  exact fun hentangled => hsettled (hentangled.of_parts hp hq)

/-- A pair that splits into itself is settled, as both triangles of an entangled one fall apart. -/
theorem settled_of_splitPair (hrule : rule.Exact)
    (hwhole : splitPair rule f g = (Pieces.whole f, Pieces.whole g)) : Settled rule f g := by
  rw [Settled, Option.eq_none_iff_forall_ne_some]
  rintro ⟨P, Q⟩ hpair
  rw [splitPair, hpair, Option.getD_some, Prod.mk.injEq] at hwhole
  obtain ⟨t, u, ht, -, -, ⟨⟨x, hx, hbelow⟩, y, hy, habove⟩, rfl, -⟩ :=
    crosses_of_cutPair? hrule.depthTolerance hpair
  have htol := hrule.depthTolerance
  have hcount := one_lt_count_cutAlong hrule ht hx.1 (by linarith) hy.1 (by linarith)
  rw [hwhole.1] at hcount
  exact absurd hcount (by simp [Pieces.count, Pieces.whole])

theorem interleaved_of_depthsInterleave (htol : 0 ≤ rule.depthTolerance)
    (hf : f.kind = .triangle) (hg : g.kind = .triangle)
    (hdepths : depthsInterleave rule f g = true) : Resolution.interleaved f g = true := by
  simp only [depthsInterleave, Bool.and_eq_true, decide_eq_true_eq] at hdepths
  have hbelow : f.minDepth < g.maxDepth := by linarith
  have habove : g.minDepth < f.maxDepth := by linarith
  simp [Resolution.interleaved, hf, hg, hbelow, habove]

theorem interleaved_of_cutPair? (htol : 0 ≤ rule.depthTolerance)
    (hsome : (cutPair? rule f g).isSome) : Resolution.interleaved f g = true := by
  obtain ⟨⟨P, Q⟩, hpair⟩ := Option.isSome_iff_exists.mp hsome
  obtain ⟨o, cut, ho, -, hdepths, -, -⟩ := cutPair?_eq_some_iff.mp hpair
  obtain ⟨-, ht, hu, -⟩ := ofFragments?_eq_some_iff.mp ho
  exact interleaved_of_depthsInterleave htol (ScreenTriangle.kind_of_ofFragment? ht)
    (ScreenTriangle.kind_of_ofFragment? hu) hdepths

theorem settled_of_not_interleaved (hrule : rule.Exact)
    (hinterleaved : Resolution.interleaved f g = false) : Settled rule f g := by
  rw [Settled, ← Option.not_isSome_iff_eq_none]
  intro hsome
  rw [interleaved_of_cutPair? hrule.depthTolerance hsome] at hinterleaved
  cases hinterleaved

theorem partOf_of_cutPair? (hrule : rule.Exact) {P Q : Pieces ℚ}
    (hpair : cutPair? rule f g = some (P, Q)) :
    (∀ p ∈ P.toList, PartOf f p) ∧ ∀ q ∈ Q.toList, PartOf g q := by
  obtain ⟨t, u, ht, hu, heligible, -, rfl, rfl⟩ := crosses_of_cutPair? hrule.depthTolerance hpair
  exact ⟨fun p hp => partOf_of_mem_cutAlong ht heligible.first hp,
    fun q hq => partOf_of_mem_cutAlong hu heligible.second hq⟩

end Overlap

namespace Resolution

variable {rule : SplitRule ℚ} {s : Resolution ℚ} {i j : Nat}

/-- The pairs behind the scan: those of the rows above `i`, and those of row `i` before column
`j`. -/
structure SettledBefore (rule : SplitRule ℚ) (i j : Nat) (s : Resolution ℚ) : Prop where
  rows : ∀ (a b : Nat) (f g : Fragment ℚ), a < i → a < b → s.fragments[a]? = some f →
    s.fragments[b]? = some g → Overlap.Settled rule f g
  row : ∀ (b : Nat) (f g : Fragment ℚ), i < b → b < j → s.fragments[i]? = some f →
    s.fragments[b]? = some g → Overlap.Settled rule f g

/-- After a split every slot holds a part of what slot `i`, slot `j` or the slot itself held. -/
theorem exists_partOf_of_split {f g : Fragment ℚ} {P Q : Pieces ℚ}
    (hf : s.fragments[i]? = some f) (hg : s.fragments[j]? = some g)
    (hP : ∀ p ∈ P.toList, PartOf f p) (hQ : ∀ q ∈ Q.toList, PartOf g q) {k : Nat}
    {x : Fragment ℚ} (hx : (s.split i j P Q).fragments[k]? = some x) :
    ∃ (m : Nat) (y : Fragment ℚ), (m = i ∨ m = j ∨ m = k) ∧ (k < s.fragments.size → m = k) ∧
      s.fragments[m]? = some y ∧ PartOf y x := by
  obtain ⟨-, rfl, rfl⟩ | ⟨-, rfl, rfl⟩ | ⟨-, -, hkept⟩ | ⟨hpast, hrest | hrest⟩ := place_cases hx
  · exact ⟨k, g, by simp, by simp, hg, hQ _ List.mem_cons_self⟩
  · exact ⟨k, f, by simp, by simp, hf, hP _ List.mem_cons_self⟩
  · exact ⟨k, x, by simp, by simp, hkept, PartOf.refl x⟩
  · exact ⟨i, f, by simp, by omega, hf, hP _ (List.mem_cons_of_mem _ hrest)⟩
  · exact ⟨j, g, by simp, by omega, hg, hQ _ (List.mem_cons_of_mem _ hrest)⟩

theorem mem_pieces_of_split {P Q : Pieces ℚ} {x y : Fragment ℚ} (hij : i < j)
    (hj : j < s.fragments.size) (hx : (s.split i j P Q).fragments[i]? = some x)
    (hy : (s.split i j P Q).fragments[j]? = some y) : x ∈ P.toList ∧ y ∈ Q.toList := by
  constructor
  · obtain ⟨-, hk, -⟩ | ⟨-, -, rfl⟩ | ⟨hk, -, -⟩ | ⟨hpast, -⟩ := place_cases hx
    · omega
    · exact List.mem_cons_self
    · exact absurd rfl hk
    · omega
  · obtain ⟨-, -, rfl⟩ | ⟨-, hk, -⟩ | ⟨-, hk, -⟩ | ⟨hpast, -⟩ := place_cases hy
    · exact List.mem_cons_self
    · omega
    · exact absurd rfl hk
    · omega

theorem SettledBefore.split (hrule : rule.Exact) (hs : SettledBefore rule i j s) (hij : i < j)
    (hj : j < s.fragments.size) {f g : Fragment ℚ} {P Q : Pieces ℚ}
    (hf : s.fragments[i]? = some f) (hg : s.fragments[j]? = some g)
    (hsplits : Splits rule s i j f g P Q) :
    SettledBefore rule i (j + 1) (s.split i j P Q) := by
  obtain ⟨hP, hQ⟩ := Overlap.partOf_of_cutPair? hrule hsplits.cut
  constructor
  · intro a b x y ha hab hx hy
    obtain ⟨m, x', -, hm, hx', hpartx⟩ := exists_partOf_of_split hf hg hP hQ hx
    obtain ⟨n, y', hn, -, hy', hparty⟩ := exists_partOf_of_split hf hg hP hQ hy
    obtain rfl : m = a := hm (by omega)
    exact (hs.rows m n x' y' ha (by omega) hx' hy').parts hrule hpartx hparty
  · intro b x y hb hbj hx hy
    by_cases hlast : b < j
    · obtain ⟨m, x', -, hm, hx', hpartx⟩ := exists_partOf_of_split hf hg hP hQ hx
      obtain ⟨n, y', -, hn, hy', hparty⟩ := exists_partOf_of_split hf hg hP hQ hy
      obtain rfl : m = i := hm (by omega)
      obtain rfl : n = b := hn (by omega)
      exact (hs.row n x' y' hb hlast hx' hy').parts hrule hpartx hparty
    · obtain rfl : b = j := by omega
      obtain ⟨hxP, hyQ⟩ := mem_pieces_of_split hij hj hx hy
      exact Overlap.cutPair?_pieces_eq_none hrule.depthTolerance hsplits.cut hsplits.several
        hxP hyQ

/-- A visit settles its pair, and the pairs behind the scan stay settled. -/
theorem SettledBefore.visit (hrule : rule.Exact) (hs : SettledBefore rule i j s) (hij : i < j)
    (hj : j < s.fragments.size) : SettledBefore rule i (j + 1) (s.visit rule i j) := by
  obtain ⟨f, g, hf, hg, hquiet | ⟨P, Q, hsplits⟩⟩ := visit_cases_of_lt rule hij hj
  · have hsettled : Overlap.Settled rule f g := by
      obtain hinterleaved | hwhole := hquiet.reason
      · exact Overlap.settled_of_not_interleaved hrule hinterleaved
      · exact Overlap.settled_of_splitPair hrule hwhole
    constructor
    · rw [hquiet.fragments]
      exact hs.rows
    · rw [hquiet.fragments]
      intro b x y hb hbj hx hy
      by_cases hlast : b < j
      · exact hs.row b x y hb hlast hx hy
      · obtain rfl : b = j := by omega
        obtain rfl := Option.some.inj (hf.symm.trans hx)
        obtain rfl := Option.some.inj (hg.symm.trans hy)
        exact hsettled
  · rw [hsplits.state]
    exact hs.split hrule hij hj hf hg hsplits

theorem SettledBefore.nextRow (hs : SettledBefore rule i j s) (hj : s.fragments.size ≤ j) :
    SettledBefore rule (i + 1) (i + 2) s := by
  constructor
  · intro a b f g ha hab hf hg
    obtain rfl | ha : a = i ∨ a < i := by omega
    · have hb : b < s.fragments.size := (Array.getElem?_eq_some_iff.mp hg).1
      exact hs.row b f g hab (by omega) hf hg
    · exact hs.rows a b f g ha hab hf hg
  · intro b f g hb hbj
    omega

/-- A scan that is not stopped by the budget leaves only settled pairs. -/
theorem settled_of_not_exhausted (hrule : rule.Exact) {buffer : Array (Fragment ℚ)}
    (hdone : (run rule buffer).exhausted = false) {f g : Fragment ℚ} (hij : i < j)
    (hf : (run rule buffer).fragments[i]? = some f)
    (hg : (run rule buffer).fragments[j]? = some g) : Overlap.Settled rule f g := by
  have hstart : SettledBefore rule 0 1 { fragments := buffer } := by
    constructor
    · intro a b f g ha
      omega
    · intro b f g hb hbj
      omega
  have hstopped : Stopped (budget buffer) (SettledBefore rule) (run rule buffer) := by
    refine run_invariant hstart ?_ ?_
    · intro i j s hij hj _ hs
      exact hs.visit hrule hij hj
    · intro i j s _ hj hs
      exact hs.nextRow hj
  cases hstopped with
  | full _ _ _ _ _ hstate =>
      rw [hstate] at hdone
      cases hdone
  | done hrows _ hs =>
      have hb : j < (run rule buffer).fragments.size := (Array.getElem?_eq_some_iff.mp hg).1
      exact hs.rows i j f g (by omega) hij hf hg

end Resolution

namespace FragmentList

/-- **Nothing is left to split.** If resolving ends before the buffer is full, no pair of the
resolved list would be split again. -/
theorem resolve_settles (rule : SplitRule ℚ) (hrule : rule.Exact) (list : FragmentList ℚ)
    (hdone : (list.resolve rule).1.exhausted = false) {i j : Nat} (hij : i < j) {f g : Fragment ℚ}
    (hf : (list.resolve rule).2.fragments[i]? = some f)
    (hg : (list.resolve rule).2.fragments[j]? = some g) :
    Overlap.splitPair rule f g = (Pieces.whole f, Pieces.whole g) := by
  have hsettled : Overlap.Settled rule f g :=
    Resolution.settled_of_not_exhausted hrule hdone hij hf hg
  rw [Overlap.splitPair, hsettled, Option.getD_none]

def exactRule : SplitRule ℚ where
  maxDepth := 6
  areaTolerance := 0
  depthTolerance := 0
  mergeDistance := 0

/-- Three triangles over one place, each of which crosses the other two. -/
def threePlanes : FragmentList ℚ where
  fragments := #[Overlap.level,
    .ofTriangle ⟨1⟩ none ⟨Overlap.flatVertex 0 0 (-1), Overlap.flatVertex 4 0 3,
      Overlap.flatVertex 0 4 (-1)⟩,
    .ofTriangle ⟨2⟩ none ⟨Overlap.flatVertex 0 0 (-1), Overlap.flatVertex 4 0 (-1),
      Overlap.flatVertex 0 4 3⟩]

/-- Slot 0 is split with slot 2 after it has been split with slot 1, so that the fragments which
slots 0 and 1 end up with were never compared. -/
theorem resolve_threePlanes_settles :
    (threePlanes.resolve exactRule).1.splits = 4 ∧
    (threePlanes.resolve exactRule).1.exhausted = false ∧
    ∃ f g, (threePlanes.resolve exactRule).2.fragments[0]? = some f ∧
      (threePlanes.resolve exactRule).2.fragments[1]? = some g ∧
      Overlap.splitPair exactRule f g = (Pieces.whole f, Pieces.whole g) := by
  have hrun : (threePlanes.resolve exactRule).1.splits = 4 ∧
      (threePlanes.resolve exactRule).1.exhausted = false ∧
      (threePlanes.resolve exactRule).2.fragments.size = 17 := by decide +kernel
  obtain ⟨hsplits, hdone, hsize⟩ := hrun
  have hexact : exactRule.Exact := ⟨rfl, rfl, le_refl 0⟩
  have hf : (threePlanes.resolve exactRule).2.fragments[0]? = some _ :=
    Array.getElem?_eq_getElem (by omega)
  have hg : (threePlanes.resolve exactRule).2.fragments[1]? = some _ :=
    Array.getElem?_eq_getElem (by omega)
  exact ⟨hsplits, hdone, _, _, hf, hg,
    resolve_settles exactRule hexact threePlanes hdone Nat.zero_lt_one hf hg⟩

end FragmentList

end PainterScene
