import Mathlib
import PainterScene.Proofs.ConvexPolygon
import PainterScene.Proofs.Cuts

/-!
# Clipping is exact

Clipping a convex polygon by a half-plane keeps exactly the points inside. One direction is plain:
each vertex that comes out is an old one inside or lies on the boundary between two old ones. For
the other, a chord from an inner to an outer vertex divides the boundary of the polygon in two; the
walk along each part changes sides somewhere, and by convexity the two crossings found there lie on
different sides of the chord, so the point where the chord itself crosses lies between them.
-/

namespace PainterScene.Polygon

open Vec2

variable {h : HalfPlane ℚ}

/-! ### Walks along the boundary -/

def walk {α : Type} (prev : Vec2 α) (poly : Polygon α) : List (Vec2 α × Vec2 α) :=
  (prev :: poly).zip poly

theorem walk_cons (prev cur : Vec2 ℚ) (poly : Polygon ℚ) :
    walk prev (cur :: poly) = (prev, cur) :: walk cur poly := rfl

theorem steps_eq_walk {poly : Polygon ℚ} {last : Vec2 ℚ} (hlast : poly.getLast? = some last) :
    poly.steps = walk last poly := by
  rw [steps, hlast, walk]

theorem walk_append (prev mid : Vec2 ℚ) (l₁ l₂ : Polygon ℚ) :
    walk prev (l₁ ++ mid :: l₂) = walk prev (l₁ ++ [mid]) ++ walk mid l₂ := by
  induction l₁ generalizing prev with
  | nil => rfl
  | cons cur l₁ ih => simp only [List.cons_append, walk_cons, ih]

theorem mem_of_mem_walk {prev : Vec2 ℚ} {poly : Polygon ℚ} {s : Vec2 ℚ × Vec2 ℚ}
    (hs : s ∈ walk prev poly) : s.1 ∈ prev :: poly ∧ s.2 ∈ poly :=
  List.of_mem_zip hs

theorem exists_mem_walk {prev v : Vec2 ℚ} {poly : Polygon ℚ} (hv : v ∈ poly) :
    ∃ u, (u, v) ∈ walk prev poly := by
  induction poly generalizing prev with
  | nil => cases hv
  | cons cur poly ih =>
      rw [walk_cons]
      obtain rfl | hv := List.mem_cons.mp hv
      · exact ⟨prev, List.mem_cons_self⟩
      · obtain ⟨u, hu⟩ := @ih cur hv
        exact ⟨u, List.mem_cons_of_mem _ hu⟩

/-- A walk between two sides crosses the boundary in one of its steps. -/
theorem exists_crossing_step {first last : Vec2 ℚ} {poly : Polygon ℚ}
    (hlast : (first :: poly).getLast? = some last) (hside : h.contains first ≠ h.contains last) :
    ∃ s ∈ walk first poly, h.contains s.1 ≠ h.contains s.2 := by
  induction poly generalizing first with
  | nil =>
      obtain rfl : first = last := by simpa using hlast
      exact absurd rfl hside
  | cons cur poly ih =>
      rw [walk_cons]
      by_cases hcur : h.contains first = h.contains cur
      · obtain ⟨s, hs, hcross⟩ := @ih cur (by simpa using hlast) (hcur ▸ hside)
        exact ⟨s, List.mem_cons_of_mem _ hs, hcross⟩
      · exact ⟨_, List.mem_cons_self, hcur⟩

/-! ### The clipped vertices -/

def clipWalk (h : HalfPlane ℚ) (prev : Vec2 ℚ) (poly : Polygon ℚ) : Polygon ℚ :=
  (walk prev poly).flatMap fun step => clipStep h step.1 step.2

theorem clipWalk_cons (prev cur : Vec2 ℚ) (poly : Polygon ℚ) :
    clipWalk h prev (cur :: poly) = clipStep h prev cur ++ clipWalk h cur poly := rfl

theorem clip_eq_merge {tol : ℚ} {poly : Polygon ℚ} {last : Vec2 ℚ}
    (hlast : poly.getLast? = some last) : poly.clip tol h = merge tol (clipWalk h last poly) := by
  rw [clip, steps_eq_walk hlast, clipWalk]

theorem clipStep_cases (h : HalfPlane ℚ) (prev cur : Vec2 ℚ) :
    (h.contains prev = h.contains cur ∧
      clipStep h prev cur = if h.contains cur then [cur] else []) ∨
    (h.contains prev ≠ h.contains cur ∧
      clipStep h prev cur = h.meet prev cur :: if h.contains cur then [cur] else []) := by
  cases hprev : h.contains prev <;> cases hcur : h.contains cur <;>
    simp [clipStep, hprev, hcur, HalfPlane.meet]

theorem mem_clipStep_of_contains {prev cur : Vec2 ℚ} (hcur : h.contains cur = true) :
    cur ∈ clipStep h prev cur := by
  obtain ⟨-, heq⟩ | ⟨-, heq⟩ := clipStep_cases h prev cur <;> simp [heq, hcur]

theorem meet_mem_clipStep {prev cur : Vec2 ℚ} (hside : h.contains prev ≠ h.contains cur) :
    h.meet prev cur ∈ clipStep h prev cur := by
  obtain ⟨hsame, -⟩ | ⟨-, heq⟩ := clipStep_cases h prev cur
  · exact absurd hsame hside
  · rw [heq]
    exact List.mem_cons_self

theorem mem_clipStep {prev cur v : Vec2 ℚ} (hv : v ∈ clipStep h prev cur) :
    v ∈ segment ℚ prev cur ∧ 0 ≤ h.eval v := by
  have hend : v ∈ (if h.contains cur then [cur] else []) →
      v ∈ segment ℚ prev cur ∧ 0 ≤ h.eval v := by
    intro hv
    split at hv
    · rename_i hcur
      obtain rfl := List.mem_singleton.mp hv
      exact ⟨right_mem_segment ℚ prev v, HalfPlane.contains_iff.mp hcur⟩
    · cases hv
  obtain ⟨-, heq⟩ | ⟨hside, heq⟩ := clipStep_cases h prev cur
  · exact hend (heq ▸ hv)
  · rw [heq] at hv
    obtain rfl | hv := List.mem_cons.mp hv
    · have hne := HalfPlane.eval_ne_of_contains_ne hside
      exact ⟨HalfPlane.meet_mem_segment hside, (HalfPlane.eval_meet hne).ge⟩
    · exact hend hv

/-- Whatever the tolerance, clipping keeps to the polygon and to the half-plane. -/
theorem mem_clip {tol : ℚ} {poly : Polygon ℚ} {v : Vec2 ℚ} (hv : v ∈ poly.clip tol h) :
    v ∈ poly.region ∧ 0 ≤ h.eval v := by
  cases hlast : poly.getLast? with
  | none =>
      obtain rfl := List.getLast?_eq_none_iff.mp hlast
      cases hv
  | some last =>
      rw [clip_eq_merge hlast] at hv
      obtain ⟨s, hs, hv⟩ := List.mem_flatMap.mp ((merge_sublist tol _).subset hv)
      obtain ⟨hsegment, hin⟩ := mem_clipStep hv
      obtain ⟨hfirst, hsecond⟩ := mem_of_mem_walk hs
      have hmem : ∀ u ∈ last :: poly, u ∈ poly := by
        intro u hu
        obtain rfl | hu := List.mem_cons.mp hu
        · exact List.mem_of_getLast? hlast
        · exact hu
      exact ⟨poly.convex_region.segment_subset (mem_region (hmem _ hfirst)) (mem_region hsecond)
        hsegment, hin⟩

/-- The crossings lie on the sides, so clipping a part of the boundary keeps the whole convex. -/
theorem isConvex_clipWalk (h : HalfPlane ℚ) {pre poly : Polygon ℚ} {prev : Vec2 ℚ}
    (hconvex : IsConvex (pre ++ prev :: poly)) :
    IsConvex (pre ++ prev :: clipWalk h prev poly) := by
  induction poly generalizing pre prev with
  | nil => exact hconvex
  | cons cur poly ih =>
      have hdrop : ∀ init : Polygon ℚ, IsConvex (init ++ cur :: clipWalk h cur poly) →
          IsConvex (init ++ ((if h.contains cur then [cur] else []) ++ clipWalk h cur poly)) := by
        intro init hinit
        split
        · exact hinit
        · exact hinit.sublist ((List.sublist_cons_self cur _).append_left init)
      rw [clipWalk_cons]
      obtain ⟨-, heq⟩ | ⟨hside, heq⟩ := clipStep_cases h prev cur
      · have hnext := @ih (pre ++ [prev]) cur (by simpa using hconvex)
        simpa [heq] using hdrop (pre ++ [prev]) hnext
      · have hinserted := hconvex.insert (HalfPlane.meet_mem_segment hside)
        have hnext := @ih (pre ++ [prev, h.meet prev cur]) cur (by simpa using hinserted)
        simpa [heq] using hdrop (pre ++ [prev, h.meet prev cur]) hnext

/-- Clipping keeps a polygon convex, whatever is merged. -/
theorem IsConvex.clip {poly : Polygon ℚ} (hconvex : IsConvex poly) (tol : ℚ) (h : HalfPlane ℚ) :
    IsConvex (poly.clip tol h) := by
  cases hlast : poly.getLast? with
  | none =>
      obtain rfl := List.getLast?_eq_none_iff.mp hlast
      exact hconvex
  | some last =>
      have hclosed : IsConvex ([] ++ last :: poly) := hconvex.close hlast
      rw [clip_eq_merge hlast]
      refine (isConvex_clipWalk h hclosed).sublist ((merge_sublist tol _).trans ?_)
      exact List.sublist_cons_self last _

/-! ### Merging equal vertices -/

theorem distSq_eq (a b : Vec2 ℚ) : a.distSq b = (b.x - a.x) ^ 2 + (b.y - a.y) ^ 2 := by
  simp only [distSq, dot, sub_x, sub_y]
  ring

theorem distSq_le_zero_iff {a b : Vec2 ℚ} : a.distSq b ≤ 0 * 0 ↔ a = b := by
  rw [distSq_eq, mul_zero]
  constructor
  · intro hle
    have hx : b.x - a.x = 0 := by nlinarith [sq_nonneg (b.x - a.x), sq_nonneg (b.y - a.y)]
    have hy : b.y - a.y = 0 := by nlinarith [sq_nonneg (b.x - a.x), sq_nonneg (b.y - a.y)]
    ext <;> linarith
  · rintro rfl
    simp

theorem mem_dropRepeats_zero (kept : Vec2 ℚ) {v : Vec2 ℚ} {poly : Polygon ℚ} (hv : v ∈ poly) :
    v ∈ kept :: dropRepeats 0 kept poly := by
  induction poly generalizing kept with
  | nil => cases hv
  | cons p rest ih =>
      rw [dropRepeats]
      split
      · rename_i hclose
        obtain rfl := distSq_le_zero_iff.mp hclose
        obtain rfl | hv := List.mem_cons.mp hv
        · exact List.mem_cons_self
        · exact ih kept hv
      · obtain rfl | hv := List.mem_cons.mp hv
        · exact List.mem_cons_of_mem _ List.mem_cons_self
        · exact List.mem_cons_of_mem _ (ih p hv)

theorem mem_trimEnd_zero {first v : Vec2 ℚ} {poly : Polygon ℚ} (hv : v ∈ poly) :
    v ∈ first :: trimEnd 0 first poly := by
  have hparts := List.takeWhile_append_dropWhile (l := poly.reverse)
    (p := fun q => !decide ((0 : ℚ) * 0 < first.distSq q))
  rw [← List.mem_reverse, ← hparts, List.mem_append] at hv
  obtain hv | hv := hv
  · have hclose := List.mem_takeWhile_imp hv
    obtain rfl : first = v := distSq_le_zero_iff.mp (by simpa using hclose)
    exact List.mem_cons_self
  · exact List.mem_cons_of_mem _ (List.mem_reverse.mpr hv)

/-- At distance 0 merging loses no point. -/
theorem mem_merge_zero {v : Vec2 ℚ} {poly : Polygon ℚ} : v ∈ merge 0 poly ↔ v ∈ poly := by
  refine ⟨fun hv => (merge_sublist 0 poly).subset hv, fun hv => ?_⟩
  cases poly with
  | nil => exact hv
  | cons p rest =>
      obtain rfl | hv := List.mem_cons.mp hv
      · exact List.mem_cons_self
      · obtain rfl | hv := List.mem_cons.mp (mem_dropRepeats_zero p hv)
        · exact List.mem_cons_self
        · exact mem_trimEnd_zero hv

theorem mem_clip_zero_of_step {poly : Polygon ℚ} {last v : Vec2 ℚ} {s : Vec2 ℚ × Vec2 ℚ}
    (hlast : poly.getLast? = some last) (hs : s ∈ walk last poly) (hv : v ∈ clipStep h s.1 s.2) :
    v ∈ poly.clip 0 h := by
  rw [clip_eq_merge hlast, mem_merge_zero]
  exact List.mem_flatMap.mpr ⟨s, hs, hv⟩

/-! ### Clipping loses nothing inside -/

theorem turn_nonpos_of_segment {a b u w x : Vec2 ℚ} (hx : x ∈ segment ℚ u w)
    (hu : turn a b u ≤ 0) (hw : turn a b w ≤ 0) : turn a b x ≤ 0 := by
  rw [← neg_nonneg, ← turn_swap] at hu hw ⊢
  exact turn_nonneg_of_segment hx hu hw

section Chord

variable {pre mid post : Polygon ℚ} {a b : Vec2 ℚ}

theorem turn_nonpos_of_mem_mid (hconvex : IsConvex (pre ++ a :: (mid ++ b :: post))) :
    ∀ m ∈ a :: (mid ++ [b]), turn a b m ≤ 0 := by
  intro m hm
  obtain rfl | hm := List.mem_cons.mp hm
  · rw [turn_self_outer]
  obtain hm | hm := List.mem_append.mp hm
  · have hends : [m, b].Sublist (mid ++ b :: post) :=
      (List.singleton_sublist.mpr hm).append (List.singleton_sublist.mpr List.mem_cons_self)
    have hturn := hconvex a m b ((hends.cons_cons a).trans (List.sublist_append_right pre _))
    rw [turn_swap_right]
    linarith
  · rw [List.mem_singleton.mp hm, turn_self_right]

theorem turn_nonneg_of_mem_outer (hconvex : IsConvex (pre ++ a :: (mid ++ b :: post))) :
    ∀ m ∈ pre ++ a :: b :: post, 0 ≤ turn a b m := by
  intro m hm
  have hchord : [b].Sublist (mid ++ b :: post) :=
    List.singleton_sublist.mpr (List.mem_append_right mid List.mem_cons_self)
  obtain hm | hm := List.mem_append.mp hm
  · rw [turn_rotate]
    exact hconvex m a b ((List.singleton_sublist.mpr hm).append (hchord.cons_cons a))
  obtain rfl | hm := List.mem_cons.mp hm
  · rw [turn_self_outer]
  obtain rfl | hm := List.mem_cons.mp hm
  · rw [turn_self_right]
  · have hends : [b, m].Sublist (mid ++ b :: post) :=
      ((List.singleton_sublist.mpr hm).cons_cons b).trans (List.sublist_append_right mid _)
    exact hconvex a b m ((hends.cons_cons a).trans (List.sublist_append_right pre _))

theorem getLast?_cons_concat (p q : Vec2 ℚ) (l : Polygon ℚ) :
    (p :: (l ++ [q])).getLast? = some q := by
  rw [← List.cons_append, List.getLast?_concat]

theorem exists_crossing_mid (hconvex : IsConvex (pre ++ a :: (mid ++ b :: post)))
    (hside : h.contains a ≠ h.contains b) :
    ∃ s ∈ walk a (mid ++ [b]), h.contains s.1 ≠ h.contains s.2 ∧
      turn a b (h.meet s.1 s.2) ≤ 0 := by
  obtain ⟨s, hs, hcross⟩ := exists_crossing_step (getLast?_cons_concat a b mid) hside
  obtain ⟨hfirst, hsecond⟩ := mem_of_mem_walk hs
  have hmid := turn_nonpos_of_mem_mid hconvex
  exact ⟨s, hs, hcross, turn_nonpos_of_segment (HalfPlane.meet_mem_segment hcross)
    (hmid _ hfirst) (hmid _ (List.mem_cons_of_mem a hsecond))⟩

theorem exists_crossing_outer (hconvex : IsConvex (pre ++ a :: (mid ++ b :: post)))
    (hside : h.contains a ≠ h.contains b) {last : Vec2 ℚ}
    (hlast : (b :: post).getLast? = some last) :
    ∃ s ∈ walk last (pre ++ [a]) ++ walk b post, h.contains s.1 ≠ h.contains s.2 ∧
      0 ≤ turn a b (h.meet s.1 s.2) := by
  have houter := turn_nonneg_of_mem_outer hconvex
  have hpost : ∀ m ∈ b :: post, 0 ≤ turn a b m :=
    fun m hm => houter m (List.mem_append_right pre (List.mem_cons_of_mem a hm))
  have hpre : ∀ m ∈ last :: (pre ++ [a]), 0 ≤ turn a b m := by
    intro m hm
    obtain rfl | hm := List.mem_cons.mp hm
    · exact hpost m (List.mem_of_getLast? hlast)
    · refine houter m ?_
      rw [List.append_cons]
      exact List.mem_append_left _ hm
  -- the way back changes sides before the last vertex or after it
  by_cases hturned : h.contains b = h.contains last
  · obtain ⟨s, hs, hcross⟩ :=
      exists_crossing_step (getLast?_cons_concat last a pre) (hturned ▸ hside.symm)
    obtain ⟨hfirst, hsecond⟩ := mem_of_mem_walk hs
    exact ⟨s, List.mem_append_left _ hs, hcross,
      turn_nonneg_of_segment (HalfPlane.meet_mem_segment hcross) (hpre _ hfirst)
        (hpre _ (List.mem_cons_of_mem last hsecond))⟩
  · obtain ⟨s, hs, hcross⟩ := exists_crossing_step hlast hturned
    obtain ⟨hfirst, hsecond⟩ := mem_of_mem_walk hs
    exact ⟨s, List.mem_append_right _ hs, hcross,
      turn_nonneg_of_segment (HalfPlane.meet_mem_segment hcross) (hpost _ hfirst)
        (hpost _ (List.mem_cons_of_mem b hsecond))⟩

/-- The crossing of the chord from `a` to `b` lies between a crossing on the way from `a` to `b` and
one on the way on from `b`, past the last vertex, to `a`. -/
theorem meet_mem_region_of_append (hconvex : IsConvex (pre ++ a :: (mid ++ b :: post)))
    (hside : h.contains a ≠ h.contains b) :
    h.meet a b ∈ region ((pre ++ a :: (mid ++ b :: post)).clip 0 h) := by
  obtain ⟨last, hpost⟩ : ∃ last, (b :: post).getLast? = some last :=
    ⟨_, List.getLast?_eq_some_getLast (by simp)⟩
  have hlast : (pre ++ a :: (mid ++ b :: post)).getLast? = some last := by
    rw [List.getLast?_append_of_ne_nil _ (by simp), ← List.cons_append,
      List.getLast?_append_of_ne_nil _ (by simp), hpost]
  have hwalk : walk last (pre ++ a :: (mid ++ b :: post)) =
      walk last (pre ++ [a]) ++ (walk a (mid ++ [b]) ++ walk b post) := by
    rw [walk_append last a pre, walk_append a b mid]
  have hregion : ∀ s ∈ walk last (pre ++ [a]) ++ (walk a (mid ++ [b]) ++ walk b post),
      h.contains s.1 ≠ h.contains s.2 →
        h.meet s.1 s.2 ∈ region ((pre ++ a :: (mid ++ b :: post)).clip 0 h) := by
    intro s hs hcross
    exact mem_region (mem_clip_zero_of_step hlast (hwalk ▸ hs) (meet_mem_clipStep hcross))
  have hzero : ∀ {p q}, h.contains p ≠ h.contains q → h.eval (h.meet p q) = 0 :=
    fun hpq => HalfPlane.eval_meet (HalfPlane.eval_ne_of_contains_ne hpq)
  have hchord := HalfPlane.meet_mem_segment hside
  have hturn : turn a b (h.meet a b) = 0 :=
    le_antisymm
      (turn_nonpos_of_segment hchord (turn_self_outer a b).le (turn_self_right a b).le)
      (turn_nonneg_of_segment hchord (turn_self_outer a b).ge (turn_self_right a b).ge)
  obtain ⟨s, hs, hscross, hsturn⟩ := exists_crossing_mid hconvex hside
  obtain ⟨t, ht, htcross, htturn⟩ := exists_crossing_outer hconvex hside hpost
  refine (convex_region _).segment_subset (hregion s ?_ hscross) (hregion t ?_ htcross)
    (HalfPlane.mem_segment_of_turn (HalfPlane.eval_ne_of_contains_ne hside) (hzero hside)
      (hzero hscross) (hzero htcross) hturn hsturn htturn)
  · exact List.mem_append_right _ (List.mem_append_left _ hs)
  · rw [List.mem_append] at ht
    exact ht.elim (List.mem_append_left _) fun ht =>
      List.mem_append_right _ (List.mem_append_right _ ht)

end Chord

theorem meet_mem_region_clip {poly : Polygon ℚ} (hconvex : IsConvex poly) {a b : Vec2 ℚ}
    (ha : a ∈ poly) (hb : b ∈ poly) (hside : h.contains a ≠ h.contains b) :
    h.meet a b ∈ region (poly.clip 0 h) := by
  obtain ⟨l₁, l₂, rfl⟩ := List.append_of_mem ha
  obtain hb | hb := List.mem_append.mp hb
  · obtain ⟨l₃, l₄, rfl⟩ := List.append_of_mem hb
    rw [HalfPlane.meet_comm (HalfPlane.eval_ne_of_contains_ne hside)]
    simp only [List.append_assoc, List.cons_append] at hconvex ⊢
    exact meet_mem_region_of_append hconvex hside.symm
  · obtain rfl | hb := List.mem_cons.mp hb
    · exact absurd rfl hside
    · obtain ⟨l₃, l₄, rfl⟩ := List.append_of_mem hb
      exact meet_mem_region_of_append hconvex hside

/-- **Clipping is exact.** Of a convex polygon exactly the points in the half-plane are left. -/
theorem region_clip {poly : Polygon ℚ} (hconvex : IsConvex poly) (h : HalfPlane ℚ) :
    region (poly.clip 0 h) = poly.region ∩ {x | 0 ≤ h.eval x} := by
  apply Set.Subset.antisymm
  · refine (region_subset_iff (poly.convex_region.inter h.convex_nonneg)).mpr ?_
    exact fun v hv => mem_clip hv
  · rintro x ⟨hx, hin⟩
    refine HalfPlane.mem_of_mem_hull (convex_region _) ?_ ?_ hx hin
    · intro v hv hvin
      obtain ⟨last, hlast⟩ : ∃ last, poly.getLast? = some last :=
        ⟨_, List.getLast?_eq_some_getLast (List.ne_nil_of_mem hv)⟩
      obtain ⟨u, hu⟩ := exists_mem_walk hv
      exact mem_region (mem_clip_zero_of_step hlast hu
        (mem_clipStep_of_contains (HalfPlane.contains_iff.mpr hvin)))
    · intro v hv w hw hvin hwout
      refine meet_mem_region_clip hconvex hv hw ?_
      rw [HalfPlane.contains_iff.mpr hvin, HalfPlane.contains_eq_false_iff.mpr hwout]
      decide

/-! ### Intersections -/

theorem mem_foldl_clip {tol : ℚ} {planes : List (HalfPlane ℚ)} {poly : Polygon ℚ} {v : Vec2 ℚ}
    (hv : v ∈ planes.foldl (fun poly h => poly.clip tol h) poly) :
    v ∈ poly.region ∧ ∀ h ∈ planes, 0 ≤ h.eval v := by
  induction planes generalizing poly with
  | nil => exact ⟨mem_region hv, by simp⟩
  | cons h planes ih =>
      obtain ⟨hregion, hplanes⟩ := ih hv
      have hclip : (poly.clip tol h).region ⊆ poly.region ∩ {x | 0 ≤ h.eval x} :=
        (region_subset_iff (poly.convex_region.inter h.convex_nonneg)).mpr
          fun v hv => mem_clip hv
      exact ⟨(hclip hregion).1, List.forall_mem_cons.mpr ⟨(hclip hregion).2, hplanes⟩⟩

theorem IsConvex.foldl_clip {tol : ℚ} {poly : Polygon ℚ} (hconvex : IsConvex poly)
    (planes : List (HalfPlane ℚ)) :
    IsConvex (planes.foldl (fun poly h => poly.clip tol h) poly) := by
  induction planes generalizing poly with
  | nil => exact hconvex
  | cons h planes ih => exact ih (hconvex.clip tol h)

/-- Clipping by several half-planes leaves what lies in all of them. -/
theorem region_foldl_clip {poly : Polygon ℚ} (hconvex : IsConvex poly)
    (planes : List (HalfPlane ℚ)) :
    region (planes.foldl (fun poly h => poly.clip 0 h) poly) =
      poly.region ∩ {x | ∀ h ∈ planes, 0 ≤ h.eval x} := by
  induction planes generalizing poly with
  | nil => simp
  | cons h planes ih =>
      rw [List.foldl_cons, ih (hconvex.clip 0 h), region_clip hconvex]
      ext x
      simp only [Set.mem_inter_iff, Set.mem_ofPred_eq, List.forall_mem_cons, and_assoc]

/-- The points on the left of every side. -/
def inner (poly : Polygon ℚ) : Set (Vec2 ℚ) :=
  {x | ∀ h ∈ poly.edgePlanes, 0 ≤ h.eval x}

theorem mem_intersect {tol : ℚ} {subject clipper : Polygon ℚ} {v : Vec2 ℚ}
    (hv : v ∈ intersect tol subject clipper) : v ∈ subject.region ∧ v ∈ clipper.inner :=
  mem_foldl_clip hv

theorem IsConvex.intersect {subject : Polygon ℚ} (hconvex : IsConvex subject) (tol : ℚ)
    (clipper : Polygon ℚ) : IsConvex (intersect tol subject clipper) :=
  hconvex.foldl_clip clipper.edgePlanes

/-- Clipping by the sides of a polygon leaves what lies on the left of all of them. -/
theorem region_intersect {subject : Polygon ℚ} (hconvex : IsConvex subject)
    (clipper : Polygon ℚ) :
    region (intersect 0 subject clipper) = subject.region ∩ clipper.inner :=
  region_foldl_clip hconvex clipper.edgePlanes

theorem isConvex_triangle {a b c : Vec2 ℚ} (hturn : 0 ≤ turn a b c) : IsConvex [a, b, c] := by
  intro p q r hsub
  obtain ⟨rfl, rfl, rfl⟩ : p = a ∧ q = b ∧ r = c := by
    simpa using hsub.eq_of_length rfl
  exact hturn

theorem mem_inner_triangle_iff {a b c x : Vec2 ℚ} :
    x ∈ inner [a, b, c] ↔ 0 ≤ turn a b x ∧ 0 ≤ turn b c x ∧ 0 ≤ turn c a x := by
  have hplanes : edgePlanes [a, b, c] =
      [HalfPlane.leftOf a b, HalfPlane.leftOf b c, HalfPlane.leftOf c a] := rfl
  simp [inner, hplanes, HalfPlane.eval_leftOf]

/-- A point on the left of the three sides is a combination of the corners, each weighted with the
triangle that the point spans with the opposite side. -/
theorem inner_triangle {a b c : Vec2 ℚ} (hturn : 0 < turn a b c) :
    inner [a, b, c] = region [a, b, c] := by
  apply Set.Subset.antisymm
  · intro x hx
    obtain ⟨hab, hbc, hca⟩ := mem_inner_triangle_iff.mp hx
    have hsum : turn b c x + turn c a x + turn a b x = turn a b c := by
      simp only [turn_eq]
      ring
    refine mem_of_three_weights (convex_region _) (mem_region (v := a) (by simp))
      (mem_region (v := b) (by simp)) (mem_region (v := c) (by simp)) hbc hca hab
      (by rwa [hsum]) ?_
    rw [hsum]
    ext <;> simp only [turn_eq, add_x, add_y, smul_x, smul_y] <;> ring
  · intro x hx h hh
    refine HalfPlane.le_eval_of_mem_hull (fun v hv => ?_) hx
    have hv' : v ∈ inner [a, b, c] := by
      rw [mem_inner_triangle_iff]
      have hv : v = a ∨ v = b ∨ v = c := by simpa using hv
      obtain rfl | rfl | rfl := hv
      · refine ⟨(turn_self_outer _ _).ge, ?_, (turn_self_right _ _).ge⟩
        rw [turn_rotate]
        exact hturn.le
      · refine ⟨(turn_self_right _ _).ge, (turn_self_outer _ _).ge, ?_⟩
        rw [turn_rotate, turn_rotate]
        exact hturn.le
      · exact ⟨hturn.le, (turn_self_right _ _).ge, (turn_self_outer _ _).ge⟩
    exact hv' h hh

/-! ### Area on both sides of a cut -/

theorem exists_shrink {v : Vec2 ℚ} (hv : 0 < h.eval v) (a b c : Vec2 ℚ) :
    ∃ s : ℚ, 0 < s ∧ s ≤ 1 ∧ ∀ x ∈ [a, b, c], 0 ≤ h.eval ((1 - s) • v + s • x) := by
  set total := |h.eval a| + |h.eval b| + |h.eval c| with htotal
  have hnonneg : 0 ≤ total := by positivity
  refine ⟨h.eval v / (h.eval v + total), by positivity, ?_, ?_⟩
  · rw [div_le_one (by positivity)]
    linarith
  · intro x hx
    have hbound : -total ≤ h.eval x := by
      have habs : |h.eval x| ≤ total := by
        have hx : x = a ∨ x = b ∨ x = c := by simpa using hx
        have ha := abs_nonneg (h.eval a)
        have hb := abs_nonneg (h.eval b)
        have hc := abs_nonneg (h.eval c)
        obtain rfl | rfl | rfl := hx <;> linarith
      exact (abs_le.mp habs).1
    have hscaled : (1 - h.eval v / (h.eval v + total)) * h.eval v +
        h.eval v / (h.eval v + total) * h.eval x =
          h.eval v * (total + h.eval x) / (h.eval v + total) := by
      field_simp
      ring
    rw [HalfPlane.eval_combination h v x (sub_add_cancel 1 _), hscaled]
    exact div_nonneg (mul_nonneg hv.le (by linarith)) (by positivity)

theorem turn_shrink (v a b c : Vec2 ℚ) (s : ℚ) :
    turn ((1 - s) • v + s • a) ((1 - s) • v + s • b) ((1 - s) • v + s • c) =
      s ^ 2 * turn a b c := by
  simp only [turn_eq, add_x, add_y, smul_x, smul_y]
  ring

/-- A half-plane that has a point of a polygon strictly inside leaves some of its area. -/
theorem area_clip_pos {poly : Polygon ℚ} (hconvex : IsConvex poly) (harea : poly.area ≠ 0)
    {v : Vec2 ℚ} (hv : v ∈ poly.region) (hin : 0 < h.eval v) : 0 < (poly.clip 0 h).area := by
  obtain ⟨a, ha, b, hb, c, hc, hturn⟩ := exists_turn_ne_zero harea
  obtain ⟨s, hs, hs', hinside⟩ := exists_shrink hin a b c
  -- a small copy of a triangle of vertices, drawn towards `v`, is left inside
  have hsmall : ∀ x ∈ [a, b, c], x ∈ poly → (1 - s) • v + s • x ∈ region (poly.clip 0 h) := by
    intro x hx hmem
    rw [region_clip hconvex]
    exact ⟨poly.convex_region hv (mem_region hmem) (by linarith) hs.le (sub_add_cancel 1 s),
      hinside x hx⟩
  refine area_pos_of_turn_ne_zero (hconvex.clip 0 h) (hsmall a (by simp) ha)
    (hsmall b (by simp) hb) (hsmall c (by simp) hc) ?_
  rw [turn_shrink]
  exact mul_ne_zero (pow_ne_zero 2 hs.ne') hturn

end PainterScene.Polygon
