import PainterScene.Proofs.Tiling

/-!
# A convex polygon and its sides

A convex polygon lies on the left of each of its sides. If it has an area the converse holds as
well, so that the half-planes of the sides describe exactly its points: a point on the left of all
sides either lies in the first triangle of the fan, or beyond it, on the left of all sides of what
remains when that triangle is cut off.
-/

namespace PainterScene.Polygon

open Vec2

/-! ### The sides as steps along the boundary -/

theorem zipWith_leftOf (prev q : Vec2 ℚ) (l : Polygon ℚ) :
    List.zipWith HalfPlane.leftOf (prev :: l) (l ++ [q]) =
      (walk prev (l ++ [q])).map fun s => HalfPlane.leftOf s.1 s.2 := by
  induction l generalizing prev with
  | nil => rfl
  | cons cur l ih => rw [List.cons_append, List.zipWith_cons_cons, ih, walk_cons, List.map_cons]

theorem mem_inner_cons_iff {p x : Vec2 ℚ} {rest : Polygon ℚ} :
    x ∈ inner (p :: rest) ↔ ∀ s ∈ walk p (rest ++ [p]), 0 ≤ turn s.1 s.2 x := by
  have hplanes : edgePlanes (p :: rest) =
      (walk p (rest ++ [p])).map fun s => HalfPlane.leftOf s.1 s.2 := zipWith_leftOf p p rest
  change (∀ h ∈ edgePlanes (p :: rest), 0 ≤ h.eval x) ↔ _
  rw [hplanes, List.forall_mem_map]
  simp only [HalfPlane.eval_leftOf]

theorem exists_append_of_mem_walk {prev : Vec2 ℚ} {poly : Polygon ℚ} {s : Vec2 ℚ × Vec2 ℚ}
    (hs : s ∈ walk prev poly) : ∃ pre post, prev :: poly = pre ++ s.1 :: s.2 :: post := by
  induction poly generalizing prev with
  | nil => cases hs
  | cons cur poly ih =>
      rw [walk_cons] at hs
      obtain rfl | hs := List.mem_cons.mp hs
      · exact ⟨[], poly, rfl⟩
      · obtain ⟨pre, post, hsplit⟩ := ih hs
        exact ⟨prev :: pre, post, by rw [hsplit, List.cons_append]⟩

/-- A closed walk around a convex polygon has the polygon on its left. -/
theorem turn_nonneg_of_mem_walk {prev : Vec2 ℚ} {poly : Polygon ℚ}
    (hconvex : IsConvex (prev :: poly)) {s : Vec2 ℚ × Vec2 ℚ} (hs : s ∈ walk prev poly)
    {x : Vec2 ℚ} (hx : x ∈ region (prev :: poly)) : 0 ≤ turn s.1 s.2 x := by
  obtain ⟨pre, post, hsplit⟩ := exists_append_of_mem_walk hs
  rw [hsplit] at hconvex hx
  have hvertices := turn_nonneg_of_mem_outer
    (show IsConvex (pre ++ s.1 :: ([] ++ s.2 :: post)) from hconvex)
  simp only [← HalfPlane.eval_leftOf] at hvertices ⊢
  exact HalfPlane.le_eval_of_mem_hull hvertices hx

theorem region_cons_of_mem {v : Vec2 ℚ} {poly : Polygon ℚ} (hv : v ∈ poly) :
    region (v :: poly) = poly.region := by
  have hmem : ∀ w, w ∈ v :: poly ↔ w ∈ poly := by
    intro w
    rw [List.mem_cons]
    exact or_iff_right_of_imp fun hw => hw ▸ hv
  exact congrArg (convexHull ℚ) (Set.ext hmem)

theorem turn_nonneg_of_mem_steps {poly : Polygon ℚ} (hconvex : IsConvex poly) {last : Vec2 ℚ}
    (hlast : poly.getLast? = some last) {s : Vec2 ℚ × Vec2 ℚ} (hs : s ∈ walk last poly)
    {x : Vec2 ℚ} (hx : x ∈ poly.region) : 0 ≤ turn s.1 s.2 x := by
  refine turn_nonneg_of_mem_walk (hconvex.close hlast) hs ?_
  rwa [region_cons_of_mem (List.mem_of_getLast? hlast)]

/-! ### The points on the left of all sides -/

theorem walk_concat {p q last : Vec2 ℚ} {rest : Polygon ℚ}
    (hlast : (p :: rest).getLast? = some last) :
    walk p (rest ++ [q]) = walk p rest ++ [(last, q)] := by
  induction rest generalizing p with
  | nil =>
      obtain rfl : p = last := by simpa using hlast
      rfl
  | cons cur rest ih =>
      rw [List.getLast?_cons_cons] at hlast
      rw [List.cons_append, walk_cons, walk_cons, ih hlast, List.cons_append]

/-- A convex polygon lies on the left of its sides. -/
theorem region_subset_inner {poly : Polygon ℚ} (hconvex : IsConvex poly) :
    poly.region ⊆ poly.inner := by
  intro x hx
  cases poly with
  | nil => exact fun h hh => by cases hh
  | cons p rest =>
      obtain ⟨last, hlast⟩ : ∃ last, (p :: rest).getLast? = some last :=
        ⟨_, List.getLast?_eq_some_getLast (by simp)⟩
      rw [mem_inner_cons_iff]
      intro s hs
      refine turn_nonneg_of_mem_steps hconvex hlast ?_ hx
      rw [walk_concat hlast, List.mem_append, List.mem_singleton] at hs
      rw [walk_cons, List.mem_cons]
      exact hs.symm

/-- Sweeping around a point on the left of every step adds up areas that are not negative. -/
theorem sweep_nonneg {x prev : Vec2 ℚ} {poly : Polygon ℚ}
    (hleft : ∀ s ∈ walk prev poly, 0 ≤ turn s.1 s.2 x) : 0 ≤ sweep x prev poly := by
  rw [sweep_eq_sum]
  refine List.sum_nonneg ?_
  intro t ht
  obtain ⟨s, hs, rfl⟩ := List.mem_map.mp ht
  rw [← turn_rotate]
  exact hleft s hs

/-- What lies on the left of all sides is in the polygon, if it has an area. The induction takes one
ear off after the other. -/
theorem mem_region_of_left {p x : Vec2 ℚ} {l : Polygon ℚ} (hconvex : IsConvex (p :: l))
    (hfan : fan p l ≠ 0) (hleft : ∀ s ∈ walk p (l ++ [p]), 0 ≤ turn s.1 s.2 x) :
    x ∈ region (p :: l) := by
  induction l with
  | nil => exact absurd rfl hfan
  | cons q l ih =>
      cases l with
      | nil => exact absurd rfl hfan
      | cons r rest =>
          have hturn : 0 ≤ turn p q r := hconvex p q r (List.prefix_append [p, q, r] rest).sublist
          have hsum : turn p q x + turn q r x + turn r p x = turn p q r := by
            simp only [turn_eq]
            ring
          have hback : turn r p x = -turn p r x := turn_swap p r x
          rw [List.cons_append, walk_cons, List.cons_append, walk_cons, List.forall_mem_cons,
            List.forall_mem_cons] at hleft
          obtain ⟨hpq, hqr, hrest⟩ := hleft
          have hshorter : region (p :: r :: rest) ⊆ region (p :: q :: r :: rest) :=
            convexHull_mono fun v hv => ((List.sublist_cons_self q _).cons_cons p).subset hv
          have hclosed : 0 ≤ turn p r x →
              ∀ s ∈ walk p ((r :: rest) ++ [p]), 0 ≤ turn s.1 s.2 x := by
            intro hpr
            rw [List.cons_append, walk_cons, List.forall_mem_cons]
            exact ⟨hpr, hrest⟩
          by_cases hsliver : turn p q r = 0
          · rw [fan, hsliver, zero_add] at hfan
            refine hshorter (ih hconvex.withoutEar hfan (hclosed ?_))
            simp only at hpq hqr
            linarith
          · have hpos : 0 < turn p q r := lt_of_le_of_ne hturn (Ne.symm hsliver)
            by_cases hbeyond : 0 < turn p r x
            · -- what remains without the first triangle has an area, as `x` is off a side of it
              have hremains : fan p (r :: rest) ≠ 0 := by
                rw [← two_mul_signedArea, two_mul_signedArea_cons x, List.cons_append, sweep]
                have hfirst : turn x p r = turn p r x := (turn_rotate x p r).symm
                linarith [sweep_nonneg hrest]
              exact hshorter (ih hconvex.withoutEar hremains (hclosed hbeyond.le))
            · have hmem : x ∈ inner [p, q, r] := by
                rw [mem_inner_triangle_iff]
                exact ⟨hpq, hqr, by linarith⟩
              rw [inner_triangle hpos] at hmem
              exact convexHull_mono (fun v hv => (List.prefix_append [p, q, r] rest).subset hv) hmem

/-- A convex polygon with an area is what its sides have on their left. -/
theorem inner_eq_region {poly : Polygon ℚ} (hconvex : IsConvex poly) (harea : poly.area ≠ 0) :
    poly.inner = poly.region := by
  refine Set.Subset.antisymm (fun x hx => ?_) (region_subset_inner hconvex)
  cases poly with
  | nil => simp [area, signedArea, Scalar.abs_eq] at harea
  | cons p rest =>
      refine mem_region_of_left hconvex ?_ (mem_inner_cons_iff.mp hx)
      rw [area_eq_signedArea hconvex] at harea
      rw [← two_mul_signedArea]
      simpa using harea

end PainterScene.Polygon
