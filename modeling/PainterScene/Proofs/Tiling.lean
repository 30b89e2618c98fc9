import PainterScene.Proofs.PolygonArea

/-!
# Convex tilings

Parts of a polygon pack it when they are convex, lie inside it and are pairwise separated by lines;
they tile it when they have its area as well. The two sides of a line tile a convex polygon, what is
peeled off by half-planes tiles it with what remains, and the fan of triangles tiles it too. Sets
that are separated by a line have no inner points in common.
-/

namespace PainterScene

open Vec2

instance : TopologicalSpace (Vec2 ℚ) :=
  .induced (fun v => (v.x, v.y)) inferInstance

/-- Some line has one set on its left and the other one on its right. -/
def Separated (S T : Set (Vec2 ℚ)) : Prop :=
  ∃ h : HalfPlane ℚ, h.normal ≠ 0 ∧ (∀ x ∈ S, 0 ≤ h.eval x) ∧ ∀ x ∈ T, h.eval x ≤ 0

namespace Separated

variable {S S' T T' : Set (Vec2 ℚ)}

theorem symm (hsep : Separated S T) : Separated T S := by
  obtain ⟨h, hnormal, hS, hT⟩ := hsep
  refine ⟨h.flip, HalfPlane.normal_flip_ne hnormal, fun x hx => ?_, fun x hx => ?_⟩
  · rw [HalfPlane.eval_flip, neg_nonneg]
    exact hT x hx
  · rw [HalfPlane.eval_flip, neg_nonpos]
    exact hS x hx

theorem mono (hsep : Separated S T) (hS : S' ⊆ S) (hT : T' ⊆ T) : Separated S' T' := by
  obtain ⟨h, hnormal, hleft, hright⟩ := hsep
  exact ⟨h, hnormal, fun x hx => hleft x (hS hx), fun x hx => hright x (hT hx)⟩

/-- What separated sets have in common lies on a line. -/
theorem turn_eq_zero (hsep : Separated S T) {a b c : Vec2 ℚ} (ha : a ∈ S ∩ T) (hb : b ∈ S ∩ T)
    (hc : c ∈ S ∩ T) : turn a b c = 0 := by
  obtain ⟨h, hnormal, hS, hT⟩ := hsep
  have hline : ∀ x ∈ S ∩ T, h.eval x = 0 := fun x hx => le_antisymm (hT x hx.2) (hS x hx.1)
  exact HalfPlane.turn_eq_zero_of_eval hnormal (hline a ha) (hline b hb) (hline c hc)

theorem disjoint_interior_right (hsep : Separated S T) : Disjoint S (interior T) := by
  obtain ⟨h, hnormal, hS, hT⟩ := hsep
  rw [Set.disjoint_left]
  intro x hxS hxT
  have hx : 0 ≤ h.eval x := hS x hxS
  -- a short way along the normal stays inside but leaves the line
  have hcontinuous : Continuous fun t : ℚ => x + t • h.normal := by
    rw [continuous_induced_rng]
    simp only [Function.comp_def, add_x, add_y, smul_x, smul_y]
    fun_prop
  have hnear : ∀ᶠ t in nhds (0 : ℚ), x + t • h.normal ∈ interior T := by
    apply hcontinuous.continuousAt.eventually_mem
    rw [zero_smul, add_zero]
    exact isOpen_interior.mem_nhds hxT
  obtain ⟨t, ht, hpos⟩ :=
    ((hnear.filter_mono nhdsWithin_le_nhds).and (self_mem_nhdsWithin (s := Set.Ioi (0 : ℚ)))).exists
  have hright : h.eval (x + t • h.normal) ≤ 0 := hT _ (interior_subset ht)
  have hmoved : h.eval (x + t • h.normal) =
      h.eval x + t * (h.normal.x ^ 2 + h.normal.y ^ 2) := by
    simp only [HalfPlane.eval_eq, add_x, add_y, smul_x, smul_y]
    ring
  have hlength := HalfPlane.normal_sq_pos hnormal
  have hpos : 0 < t * (h.normal.x ^ 2 + h.normal.y ^ 2) := mul_pos hpos hlength
  linarith

theorem disjoint_interior (hsep : Separated S T) : Disjoint (interior S) (interior T) :=
  hsep.disjoint_interior_right.mono_left interior_subset

end Separated

namespace Polygon

variable {h : HalfPlane ℚ} {parts pieces rest : List (Polygon ℚ)} {whole part head : Polygon ℚ}

/-- Convex parts inside a polygon, each two on different sides of a line. -/
structure Packs (parts : List (Polygon ℚ)) (whole : Polygon ℚ) : Prop where
  convex : ∀ part ∈ parts, part.IsConvex
  within : ∀ part ∈ parts, part.region ⊆ whole.region
  apart : parts.Pairwise fun a b => Separated a.region b.region

/-- The parts pack the polygon and leave none of its area out. -/
structure Tiles (parts : List (Polygon ℚ)) (whole : Polygon ℚ) : Prop
    extends Packs parts whole where
  area_eq : (parts.map area).sum = whole.area

theorem packs_nil (whole : Polygon ℚ) : Packs [] whole where
  convex := by simp
  within := by simp
  apart := .nil

theorem tiles_self (hconvex : whole.IsConvex) : Tiles [whole] whole where
  convex := by simpa using hconvex
  within := by simp
  apart := List.pairwise_singleton _ _
  area_eq := by simp

theorem Packs.cons (hpacks : Packs parts whole) (hconvex : part.IsConvex)
    (hwithin : part.region ⊆ whole.region)
    (hapart : ∀ other ∈ parts, Separated part.region other.region) :
    Packs (part :: parts) whole where
  convex := List.forall_mem_cons.mpr ⟨hconvex, hpacks.convex⟩
  within := List.forall_mem_cons.mpr ⟨hwithin, hpacks.within⟩
  apart := List.pairwise_cons.mpr ⟨hapart, hpacks.apart⟩

theorem Packs.sublist (hpacks : Packs parts whole) (hsub : pieces.Sublist parts) :
    Packs pieces whole where
  convex := fun part hpart => hpacks.convex part (hsub.subset hpart)
  within := fun part hpart => hpacks.within part (hsub.subset hpart)
  apart := hpacks.apart.sublist hsub

theorem Packs.insert (hpacks : Packs (head :: parts) whole) (hconvex : part.IsConvex)
    (hwithin : part.region ⊆ whole.region)
    (hapart : ∀ other ∈ head :: parts, Separated part.region other.region) :
    Packs (head :: part :: parts) whole := by
  obtain ⟨hhead, hparts⟩ := List.forall_mem_cons.mp hapart
  obtain ⟨hheadApart, -⟩ := List.pairwise_cons.mp hpacks.apart
  have htail := (hpacks.sublist (List.sublist_cons_self head parts)).cons hconvex hwithin hparts
  refine htail.cons (hpacks.convex head List.mem_cons_self)
    (hpacks.within head List.mem_cons_self) ?_
  exact List.forall_mem_cons.mpr ⟨hhead.symm, hheadApart⟩

theorem Packs.mono (hpacks : Packs parts part) (hsub : part.region ⊆ whole.region) :
    Packs parts whole where
  convex := hpacks.convex
  within := fun other hother => (hpacks.within other hother).trans hsub
  apart := hpacks.apart

/-- Parts may fall into parts of their own. -/
theorem Packs.flatMap (hpacks : Packs parts whole) {f : Polygon ℚ → List (Polygon ℚ)}
    (hf : ∀ part ∈ parts, Packs (f part) part) : Packs (parts.flatMap f) whole where
  convex := by
    intro piece hpiece
    obtain ⟨part, hpart, hpiece⟩ := List.mem_flatMap.mp hpiece
    exact (hf part hpart).convex piece hpiece
  within := by
    intro piece hpiece
    obtain ⟨part, hpart, hpiece⟩ := List.mem_flatMap.mp hpiece
    exact ((hf part hpart).within piece hpiece).trans (hpacks.within part hpart)
  apart := by
    rw [List.pairwise_flatMap]
    refine ⟨fun part hpart => (hf part hpart).apart, ?_⟩
    refine hpacks.apart.imp_of_mem fun ha hb hsep a' ha' b' hb' => ?_
    exact hsep.mono ((hf _ ha).within a' ha') ((hf _ hb).within b' hb')

/-- Tiles may be tiled in turn. -/
theorem Tiles.flatMap (htiles : Tiles parts whole) {f : Polygon ℚ → List (Polygon ℚ)}
    (hf : ∀ part ∈ parts, Tiles (f part) part) : Tiles (parts.flatMap f) whole where
  toPacks := htiles.toPacks.flatMap fun part hpart => (hf part hpart).toPacks
  area_eq := by
    have hparts : parts.map (fun part => ((f part).map area).sum) = parts.map area :=
      List.map_congr_left fun part hpart => (hf part hpart).area_eq
    rw [List.map_flatMap, List.flatMap_def, List.sum_flatten, List.map_map]
    exact (congrArg List.sum hparts).trans htiles.area_eq

/-- The first part may be replaced by what tiles another polygon of the same points. -/
theorem Tiles.replace (htiles : Tiles (head :: rest) whole) (hpieces : Tiles pieces part)
    (hconvex : part.IsConvex) (hregion : part.region = head.region) :
    Tiles (pieces ++ rest) whole where
  convex := by
    rw [List.forall_mem_append]
    exact ⟨hpieces.convex, (List.forall_mem_cons.mp htiles.convex).2⟩
  within := by
    obtain ⟨hhead, hrest⟩ := List.forall_mem_cons.mp htiles.within
    rw [List.forall_mem_append]
    refine ⟨fun piece hpiece => ?_, hrest⟩
    exact ((hpieces.within piece hpiece).trans hregion.subset).trans hhead
  apart := by
    obtain ⟨hhead, hrest⟩ := List.pairwise_cons.mp htiles.apart
    rw [List.pairwise_append]
    refine ⟨hpieces.apart, hrest, fun piece hpiece other hother => ?_⟩
    exact (hhead other hother).mono ((hpieces.within piece hpiece).trans hregion.subset) subset_rfl
  area_eq := by
    have hhead : part.area = head.area :=
      area_eq_of_region_eq hconvex (htiles.convex head List.mem_cons_self) hregion
    have hsum := htiles.area_eq
    rw [List.map_cons, List.sum_cons] at hsum
    rw [List.map_append, List.sum_append, hpieces.area_eq, hhead, hsum]

/-! ### Cuts -/

theorem eval_nonneg_of_mem_clip {poly : Polygon ℚ} (hconvex : poly.IsConvex) {x : Vec2 ℚ}
    (hx : x ∈ region (poly.clip 0 h)) : 0 ≤ h.eval x := by
  rw [region_clip hconvex] at hx
  exact hx.2

theorem region_clip_subset {poly : Polygon ℚ} (hconvex : poly.IsConvex) (h : HalfPlane ℚ) :
    region (poly.clip 0 h) ⊆ poly.region := by
  rw [region_clip hconvex]
  exact Set.inter_subset_left

theorem separated_clip {poly : Polygon ℚ} (hconvex : poly.IsConvex) (hnormal : h.normal ≠ 0) :
    Separated (region (poly.clip 0 h)) (region (poly.clip 0 h.flip)) := by
  refine ⟨h, hnormal, fun x hx => eval_nonneg_of_mem_clip hconvex hx, fun x hx => ?_⟩
  have hflip := eval_nonneg_of_mem_clip hconvex hx
  rwa [HalfPlane.eval_flip, neg_nonneg] at hflip

/-- The two sides of a line tile a convex polygon. -/
theorem tiles_clip {poly : Polygon ℚ} (hconvex : poly.IsConvex) (hnormal : h.normal ≠ 0) :
    Tiles [poly.clip 0 h, poly.clip 0 h.flip] poly where
  toPacks := by
    refine (Packs.cons (packs_nil poly) (hconvex.clip 0 h.flip) (region_clip_subset hconvex _)
      (by simp)).cons (hconvex.clip 0 h) (region_clip_subset hconvex _) ?_
    simpa using separated_clip hconvex hnormal
  area_eq := by
    have hsides := area_clip_add_flip hconvex hnormal
    simpa using hsides

/-! ### Peeling -/

section Peel

variable {poly : Polygon ℚ} {planes : List (HalfPlane ℚ)}

/-- What is peeled off and what remains lie apart inside the polygon. -/
theorem packs_peel (hconvex : poly.IsConvex) (hnormal : ∀ h ∈ planes, h.normal ≠ 0) (minArea : ℚ) :
    Packs (planes.foldl (fun poly h => poly.clip 0 h) poly :: peel 0 minArea planes poly) poly := by
  induction planes generalizing poly with
  | nil => exact (tiles_self hconvex).toPacks
  | cons h planes ih =>
      obtain ⟨hfirst, hrest⟩ := List.forall_mem_cons.mp hnormal
      have hinside := ih (hconvex.clip 0 h) hrest
      have hwithin := region_clip_subset hconvex h
      rw [List.foldl_cons, peel]
      split
      · exact (hinside.mono hwithin).sublist (List.singleton_sublist.mpr List.mem_cons_self)
      · simp only
        split
        · refine (hinside.mono hwithin).insert (hconvex.clip 0 h.flip)
            (region_clip_subset hconvex h.flip) fun other hother => ?_
          exact (separated_clip hconvex hfirst).symm.mono subset_rfl (hinside.within other hother)
        · exact hinside.mono hwithin

/-- Each half-plane loses at most the tolerated area. -/
theorem area_peel_bounds (hconvex : poly.IsConvex) (hnormal : ∀ h ∈ planes, h.normal ≠ 0)
    {minArea : ℚ} (hmin : 0 ≤ minArea) :
    let kept := (planes.foldl (fun poly h => poly.clip 0 h) poly).area +
      ((peel 0 minArea planes poly).map area).sum
    kept ≤ poly.area ∧ poly.area ≤ kept + planes.length * minArea := by
  induction planes generalizing poly with
  | nil => simp [peel]
  | cons h planes ih =>
      obtain ⟨hfirst, hrest⟩ := List.forall_mem_cons.mp hnormal
      obtain ⟨hupper, hlower⟩ := ih (hconvex.clip 0 h) hrest
      have hsides := area_clip_add_flip hconvex hfirst
      rw [List.foldl_cons, peel, List.length_cons, Nat.cast_succ, add_mul, one_mul]
      split
      · rename_i hsmall
        have hremaining : (planes.foldl (fun poly h => poly.clip 0 h) (poly.clip 0 h)).area ≤
            (poly.clip 0 h).area := by
          refine area_mono ((hconvex.clip 0 h).foldl_clip planes) (hconvex.clip 0 h) ?_
          exact (packs_peel (hconvex.clip 0 h) hrest 0).within _ List.mem_cons_self
        have hnonneg := area_nonneg (planes.foldl (fun poly h => poly.clip 0 h) (poly.clip 0 h))
        have hbudget : 0 ≤ planes.length * minArea := by positivity
        simp only [List.map_nil, List.sum_nil, add_zero]
        constructor
        · linarith [area_nonneg (poly.clip 0 h.flip)]
        · linarith
      · simp only
        split
        · rw [List.map_cons, List.sum_cons]
          constructor <;> linarith
        · constructor <;> linarith [area_nonneg (poly.clip 0 h.flip)]

/-- Without a tolerance, peeling loses no area. -/
theorem tiles_peel (hconvex : poly.IsConvex) (hnormal : ∀ h ∈ planes, h.normal ≠ 0) :
    Tiles (planes.foldl (fun poly h => poly.clip 0 h) poly :: peel 0 0 planes poly) poly where
  toPacks := packs_peel hconvex hnormal 0
  area_eq := by
    obtain ⟨hupper, hlower⟩ := area_peel_bounds hconvex hnormal le_rfl
    rw [mul_zero, add_zero] at hlower
    rw [List.map_cons, List.sum_cons]
    exact le_antisymm hupper hlower

/-- What is peeled off lies beyond one of the half-planes. -/
theorem separated_of_mem_peel (hconvex : poly.IsConvex) (hnormal : ∀ h ∈ planes, h.normal ≠ 0)
    {minArea : ℚ} (hpart : part ∈ peel 0 minArea planes poly) :
    Separated part.region {x | ∀ h ∈ planes, 0 ≤ h.eval x} := by
  induction planes generalizing poly with
  | nil => cases hpart
  | cons h planes ih =>
      obtain ⟨hfirst, hrest⟩ := List.forall_mem_cons.mp hnormal
      have hlater : part ∈ peel 0 minArea planes (poly.clip 0 h) →
          Separated part.region {x | ∀ h' ∈ h :: planes, 0 ≤ h'.eval x} := by
        intro hmem
        refine (ih (hconvex.clip 0 h) hrest hmem).mono subset_rfl fun x hx => ?_
        exact fun h' hh' => hx h' (List.mem_cons_of_mem h hh')
      rw [peel] at hpart
      split at hpart
      · cases hpart
      · simp only at hpart
        split at hpart
        · obtain rfl | hpart := List.mem_cons.mp hpart
          · refine ⟨h.flip, HalfPlane.normal_flip_ne hfirst,
              fun x hx => eval_nonneg_of_mem_clip hconvex hx, fun x hx => ?_⟩
            rw [HalfPlane.eval_flip, neg_nonpos]
            exact hx h List.mem_cons_self
          · exact hlater hpart
        · exact hlater hpart

end Peel

theorem normal_ne_of_mem_edgePlanes {a b c : Vec2 ℚ} (hturn : turn a b c ≠ 0) :
    ∀ h ∈ edgePlanes [a, b, c], h.normal ≠ 0 := by
  have hside : ∀ p q r : Vec2 ℚ, turn p q r ≠ 0 → (HalfPlane.leftOf p q).normal ≠ 0 := by
    intro p q r hpqr
    apply HalfPlane.normal_ne_of_eval_ne (a := p) (b := r)
    rw [HalfPlane.eval_leftOf, HalfPlane.eval_leftOf, turn_self_outer]
    exact hpqr.symm
  have hplanes : edgePlanes [a, b, c] =
      [HalfPlane.leftOf a b, HalfPlane.leftOf b c, HalfPlane.leftOf c a] := rfl
  rw [hplanes, List.forall_mem_cons, List.forall_mem_cons, List.forall_mem_singleton]
  refine ⟨hside a b c hturn, hside b c a ?_, hside c a b ?_⟩
  · rwa [turn_rotate]
  · rwa [turn_rotate, turn_rotate]

/-! ### Fans of triangles -/

theorem triangulate_cons (minArea : ℚ) (p q r : Vec2 ℚ) (rest : Polygon ℚ) :
    triangulate minArea (p :: q :: r :: rest) =
      if minArea < area [p, q, r] then ⟨p, q, r⟩ :: triangulate minArea (p :: r :: rest)
      else triangulate minArea (p :: r :: rest) := by
  rw [triangulate, triangulate, List.tail_cons, List.zipWith_cons_cons]
  by_cases hbig : minArea < area [p, q, r]
  · rw [if_pos hbig, List.filter_cons_of_pos (by exact decide_eq_true hbig), List.tail_cons]
  · rw [if_neg hbig, List.filter_cons_of_neg (by exact decide_eq_true_iff.not.mpr hbig),
      List.tail_cons]

theorem lt_area_of_mem_triangulate {minArea : ℚ} {poly : Polygon ℚ} {corners : Triple (Vec2 ℚ)}
    (hcorners : corners ∈ triangulate minArea poly) : minArea < area corners.toList := by
  cases poly with
  | nil => cases hcorners
  | cons p rest =>
      rw [triangulate, List.mem_filter] at hcorners
      exact of_decide_eq_true hcorners.2

theorem turn_pos_of_area_pos {a b c : Vec2 ℚ} (hturn : 0 ≤ turn a b c)
    (harea : 0 < area [a, b, c]) : 0 < turn a b c := by
  have htwice := area_triangle a b c
  rw [abs_of_nonneg hturn] at htwice
  linarith

theorem packs_triangulate {poly : Polygon ℚ} (hconvex : poly.IsConvex) {minArea : ℚ}
    (hmin : 0 ≤ minArea) : Packs ((triangulate minArea poly).map Triple.toList) poly := by
  match poly with
  | [] => exact packs_nil []
  | p :: l =>
    induction l with
    | nil => exact packs_nil [p]
    | cons q l ih =>
        cases l with
        | nil => exact packs_nil [p, q]
        | cons r rest =>
            have hsub : region (p :: r :: rest) ⊆ region (p :: q :: r :: rest) :=
              convexHull_mono fun v hv => ((List.sublist_cons_self q _).cons_cons p).subset hv
            have hlater := (ih hconvex.withoutEar).mono hsub
            rw [triangulate_cons]
            split
            · rename_i harea
              have hturn : 0 ≤ turn p q r :=
                hconvex p q r (List.prefix_append [p, q, r] rest).sublist
              have hpos := turn_pos_of_area_pos hturn (hmin.trans_lt harea)
              refine hlater.cons (isConvex_triangle hturn) ?_ fun other hother => ?_
              · exact convexHull_mono fun v hv => (List.prefix_append [p, q, r] rest).subset hv
              · refine Separated.symm ⟨HalfPlane.leftOf p r, normal_ear_ne hpos.ne', ?_, ?_⟩
                · intro x hx
                  exact HalfPlane.le_eval_of_mem_hull (eval_ear_nonneg hconvex)
                    ((ih hconvex.withoutEar).within other hother hx)
                · intro x hx
                  exact HalfPlane.eval_le_of_mem_hull (eval_ear_nonpos hconvex) hx
            · exact hlater

theorem sum_area_triangulate {p : Vec2 ℚ} {l : Polygon ℚ} (hconvex : IsConvex (p :: l)) :
    2 * ((triangulate 0 (p :: l)).map fun t => area t.toList).sum = fan p l := by
  induction l with
  | nil => simp [triangulate, fan]
  | cons q l ih =>
      cases l with
      | nil => simp [triangulate, fan]
      | cons r rest =>
          have hturn : 0 ≤ turn p q r := hconvex p q r (List.prefix_append [p, q, r] rest).sublist
          have htwice := area_triangle p q r
          rw [abs_of_nonneg hturn] at htwice
          rw [triangulate_cons, fan, ← ih hconvex.withoutEar]
          split
          · rw [List.map_cons, List.sum_cons, Triple.toList, mul_add, htwice]
          · rename_i hsliver
            have hzero : turn p q r = 0 := by linarith
            rw [hzero, zero_add]

/-- The fan of a convex polygon tiles it. -/
theorem tiles_triangulate {poly : Polygon ℚ} (hconvex : poly.IsConvex) :
    Tiles ((triangulate 0 poly).map Triple.toList) poly where
  toPacks := packs_triangulate hconvex le_rfl
  area_eq := by
    rw [List.map_map, area_eq_signedArea hconvex]
    cases poly with
    | nil => simp [triangulate, signedArea]
    | cons p rest =>
        have htwice := sum_area_triangulate hconvex
        rw [← two_mul_signedArea] at htwice
        exact mul_left_cancel₀ two_ne_zero htwice

end Polygon

end PainterScene
