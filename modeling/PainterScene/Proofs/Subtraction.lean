import PainterScene.Proofs.Intersection

/-!
# What one convex polygon leaves of another

The subtraction peels off what lies beyond each side of the clipper in turn. It drops a part of no
more than the tolerated area, and it stops once no more than that remains. Either way at most one
tolerated area is lost for each side. Without a tolerance nothing is lost: the pieces and the common
part cover the subject.
-/

namespace PainterScene.Polygon

open Vec2

variable {poly part subject clipper : Polygon ℚ} {planes : List (HalfPlane ℚ)} {minArea : ℚ}

/-- A convex polygon with an area in which no vertex is repeated. A side from a vertex to itself
would have every point on both sides. -/
structure IsProper (poly : Polygon ℚ) : Prop where
  convex : poly.IsConvex
  area_pos : 0 < poly.area
  distinct : poly.Nodup

/-! ### The sides of a polygon have directions -/

theorem ne_of_mem_walk {p : Vec2 ℚ} {rest : Polygon ℚ} (hdistinct : (p :: rest).Nodup)
    (hrest : rest ≠ []) {s : Vec2 ℚ × Vec2 ℚ} (hs : s ∈ walk p (rest ++ [p])) : s.1 ≠ s.2 := by
  obtain ⟨last, hlast⟩ : ∃ last, rest.getLast? = some last :=
    ⟨_, List.getLast?_eq_some_getLast hrest⟩
  have hend : (p :: rest).getLast? = some last := by simp [List.getLast?_cons, hlast]
  rw [walk_concat hend, List.mem_append, List.mem_singleton] at hs
  obtain hs | rfl := hs
  · obtain ⟨pre, post, hsplit⟩ := exists_append_of_mem_walk hs
    rw [hsplit] at hdistinct
    have hlater : s.1 ∉ s.2 :: post := (List.nodup_cons.mp (List.nodup_append.mp hdistinct).2.1).1
    exact List.ne_of_not_mem_cons hlater
  · have hfirst : p ∉ rest := (List.nodup_cons.mp hdistinct).1
    exact (ne_of_mem_of_not_mem (List.mem_of_getLast? hlast) hfirst :)

/-- The sides of a proper polygon have a direction. -/
theorem IsProper.normal_ne (hpoly : poly.IsProper) : ∀ h ∈ poly.edgePlanes, h.normal ≠ 0 := by
  obtain ⟨p, rest, rfl⟩ := List.exists_cons_of_ne_nil (ne_nil_of_area_pos hpoly.area_pos)
  have hrest : rest ≠ [] := by
    rintro rfl
    obtain ⟨a, ha, b, hb, c, hc, hturn⟩ := exists_turn_ne_zero hpoly.area_pos.ne'
    rw [List.mem_singleton] at ha hb hc
    exact hturn (by rw [ha, hb, hc, turn_self_outer])
  rw [edgePlanes, zipWith_leftOf, List.forall_mem_map]
  exact fun s hs => normal_leftOf_ne (ne_of_mem_walk hpoly.distinct hrest hs)

theorem length_edgePlanes (poly : Polygon ℚ) : poly.edgePlanes.length = poly.length := by
  cases poly <;> simp [edgePlanes]

/-! ### The pieces -/

/-- A part is kept only if it is larger than the tolerance. -/
theorem lt_area_of_mem_peel (hpart : part ∈ peel 0 minArea planes poly) : minArea < part.area := by
  induction planes generalizing poly with
  | nil => cases hpart
  | cons h planes ih =>
      rw [peel] at hpart
      split at hpart
      · cases hpart
      · simp only at hpart
        split at hpart
        · rename_i hbig
          obtain rfl | hpart := List.mem_cons.mp hpart
          · exact hbig
          · exact ih hpart
        · exact ih hpart

/-- Without a tolerance, a part that is dropped lies on the line that cuts it off, so its points
are still there. Once nothing with an area remains, the last piece has all of it. -/
theorem mem_peel_or_foldl_clip (hconvex : poly.IsConvex) (hnormal : ∀ h ∈ planes, h.normal ≠ 0)
    (harea : 0 < poly.area) {x : Vec2 ℚ} (hx : x ∈ poly.region) :
    ∃ part ∈ planes.foldl (fun poly h => poly.clip 0 h) poly :: peel 0 0 planes poly,
      x ∈ part.region := by
  induction planes generalizing poly with
  | nil => exact ⟨poly, List.mem_cons_self, hx⟩
  | cons h planes ih =>
      obtain ⟨hfirst, hrest⟩ := List.forall_mem_cons.mp hnormal
      rw [List.foldl_cons, peel, if_neg harea.not_ge]
      have hinside : 0 ≤ h.eval x → 0 < (poly.clip 0 h).area →
          ∃ part ∈ planes.foldl (fun poly h => poly.clip 0 h) (poly.clip 0 h) ::
            peel 0 0 planes (poly.clip 0 h), x ∈ part.region := by
        intro heval hremaining
        refine ih (hconvex.clip 0 h) hrest hremaining ?_
        rw [region_clip hconvex]
        exact ⟨hx, heval⟩
      simp only
      split
      · obtain heval | heval := le_or_gt (h.eval x) 0
        · refine ⟨poly.clip 0 h.flip, by simp, ?_⟩
          rw [region_clip hconvex]
          refine ⟨hx, ?_⟩
          rwa [Set.mem_ofPred_eq, HalfPlane.eval_flip, neg_nonneg]
        · obtain ⟨part, hpart, hmem⟩ := hinside heval.le (area_clip_pos hconvex harea.ne' hx heval)
          refine ⟨part, ?_, hmem⟩
          rw [List.mem_cons] at hpart ⊢
          exact hpart.imp_right (List.mem_cons_of_mem _)
      · rename_i hdropped
        have hflip : (poly.clip 0 h.flip).area = 0 :=
          le_antisymm (not_lt.mp hdropped) (area_nonneg _)
        have hsides := area_clip_add_flip hconvex hfirst
        refine hinside ?_ (by linarith)
        by_contra hbeyond
        refine hdropped (area_clip_pos hconvex harea.ne' hx ?_)
        rw [HalfPlane.eval_flip]
        linarith

/-- **The subtraction accounts for all area.** The pieces lie in the subject and outside the
clipper, apart from each other and larger than the tolerance, and at most the tolerance is lost for
each side of the clipper. The subject may have repeated vertices, the clipper may not. -/
theorem subtract_accounts_for_area (subject clipper : Polygon ℚ) (minArea : ℚ)
    (hsubject : subject.IsConvex) (hsubjectArea : 0 < subject.area) (hclipper : clipper.IsProper)
    (hmin : 0 ≤ minArea) :
    let pieces := subtract 0 minArea subject clipper
    let common := intersect 0 subject clipper
    let lost := subject.area - common.area - (pieces.map area).sum
    (∀ piece ∈ pieces, piece.IsConvex ∧ minArea < piece.area ∧ piece.region ⊆ subject.region ∧
        Disjoint piece.region (interior clipper.region)) ∧
      pieces.Pairwise (fun a b => Disjoint (interior a.region) (interior b.region)) ∧
      0 ≤ lost ∧ lost ≤ clipper.length * minArea ∧
      (minArea = 0 → Tiles (common :: pieces) subject ∧
        subject.region = ⋃ part ∈ common :: pieces, part.region) := by
  intro pieces common lost
  have hnormal := hclipper.normal_ne
  have hpacks : Packs (common :: pieces) subject := packs_peel hsubject hnormal minArea
  have hbounds : common.area + (pieces.map area).sum ≤ subject.area ∧
      subject.area ≤ common.area + (pieces.map area).sum + clipper.edgePlanes.length * minArea :=
    area_peel_bounds hsubject hnormal hmin
  rw [length_edgePlanes] at hbounds
  refine ⟨fun piece hpiece => ⟨?_, ?_, ?_, ?_⟩, ?_, by linarith, by linarith, ?_⟩
  · exact hpacks.convex piece (List.mem_cons_of_mem common hpiece)
  · exact lt_area_of_mem_peel hpiece
  · exact hpacks.within piece (List.mem_cons_of_mem common hpiece)
  · rw [← inner_eq_region hclipper.convex hclipper.area_pos.ne']
    exact (separated_of_mem_peel hsubject hnormal hpiece).disjoint_interior_right
  · exact (List.pairwise_cons.mp hpacks.apart).2.imp Separated.disjoint_interior
  · rintro rfl
    refine ⟨tiles_peel hsubject hnormal, Set.Subset.antisymm (fun x hx => ?_) ?_⟩
    · simp only [Set.mem_iUnion, exists_prop]
      exact mem_peel_or_foldl_clip hsubject hnormal hsubjectArea hx
    · exact Set.iUnion₂_subset hpacks.within

/-- A square with a pool in the middle. Three strips around the pool are kept; the fourth has no
more than the tolerated area. -/
theorem subtract_pool :
    let square : Polygon ℚ := [⟨0, 0⟩, ⟨4, 0⟩, ⟨4, 4⟩, ⟨0, 4⟩]
    let pool : Polygon ℚ := [⟨1, 1⟩, ⟨3, 1⟩, ⟨3, 3⟩, ⟨1, 3⟩]
    let pieces := subtract 0 2 square pool
    let lost := square.area - (intersect 0 square pool).area - (pieces.map area).sum
    pieces.length = 3 ∧ lost = 2 ∧ lost ≤ pool.length * 2 ∧
      ∀ piece ∈ pieces, 2 < piece.area ∧ Disjoint piece.region (interior pool.region) := by
  intro square pool pieces lost
  have hpool : pool.IsProper := ⟨by decide +kernel, by decide +kernel, by decide +kernel⟩
  obtain ⟨hpieces, -, -, hbound, -⟩ := subtract_accounts_for_area square pool 2 (by decide +kernel)
    (by decide +kernel) hpool (by norm_num)
  refine ⟨by decide +kernel, by decide +kernel, hbound, fun piece hpiece => ?_⟩
  obtain ⟨-, harea, -, hdisjoint⟩ := hpieces piece hpiece
  exact ⟨harea, hdisjoint⟩

end PainterScene.Polygon
