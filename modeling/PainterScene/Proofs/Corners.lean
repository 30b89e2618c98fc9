import PainterScene.Proofs.Sides

/-!
# Corners of clipped polygons

A half-plane may leave a vertex several times in a row, where its boundary runs through the vertex,
and merging makes one of them again. No vertex can come back later: the vertices of a convex polygon
with an area that are met before and after a vertex lie on different sides of it. A new vertex is
where a side crosses the boundary of the half-plane, so it is a corner, an extreme point of what is
left, and it stays one when more is cut off.
-/

namespace PainterScene.Polygon

open Vec2

/-! ### Neighbours after merging -/

section Merge

variable {α : Type} [Scalar α]

theorem isChain_dropRepeats (tol : α) (kept : Vec2 α) (poly : Polygon α) :
    (kept :: dropRepeats tol kept poly).IsChain fun a b => ¬ a.distSq b ≤ tol * tol := by
  induction poly generalizing kept with
  | nil => exact List.isChain_singleton kept
  | cons p rest ih =>
      rw [dropRepeats]
      split
      · exact ih kept
      · rename_i hfar
        exact List.isChain_cons_cons.mpr ⟨hfar, ih p⟩

theorem trimEnd_eq_rdropWhile (tol : α) (first : Vec2 α) (poly : Polygon α) :
    trimEnd tol first poly = poly.rdropWhile fun p => !decide (tol * tol < first.distSq p) := rfl

theorem isChain_merge (tol : α) (poly : Polygon α) :
    (merge tol poly).IsChain fun a b => ¬ a.distSq b ≤ tol * tol := by
  cases poly with
  | nil => exact List.isChain_nil
  | cons p rest =>
      have hchain := isChain_dropRepeats tol p rest
      refine hchain.prefix (List.cons_prefix_cons.mpr ⟨rfl, ?_⟩)
      rw [trimEnd_eq_rdropWhile]
      exact List.rdropWhile_prefix _ _

theorem lt_distSq_ends_merge {tol : α} {poly l : Polygon α} {p q : Vec2 α}
    (hmerge : merge tol poly = p :: (l ++ [q])) : tol * tol < p.distSq q := by
  cases poly with
  | nil => cases hmerge
  | cons first rest =>
      rw [merge, List.cons.injEq, trimEnd_eq_rdropWhile] at hmerge
      obtain ⟨rfl, hrest⟩ := hmerge
      have hlast := List.rdropWhile_last_not (fun p => !decide (tol * tol < first.distSq p))
        (dropRepeats tol first rest) (by simp [hrest])
      simpa [hrest] using hlast

end Merge

/-- No two neighbours are equal, the last and the first vertex of several included. -/
structure Spaced (poly : Polygon ℚ) : Prop where
  chain : poly.IsChain (· ≠ ·)
  ends : ∀ p q l, poly = p :: (l ++ [q]) → p ≠ q

/-- Merging coincident vertices leaves no two equal neighbours. -/
theorem spaced_merge (poly : Polygon ℚ) : Spaced (merge 0 poly) where
  chain := (isChain_merge 0 poly).imp fun a b hfar hab => hfar (distSq_le_zero_iff.mpr hab)
  ends := by
    intro p q l hmerge hpq
    exact (lt_distSq_ends_merge hmerge).not_ge (distSq_le_zero_iff.mpr hpq)

/-! ### No vertex comes back -/

theorem normal_leftOf_ne {a b : Vec2 ℚ} (hab : a ≠ b) : (HalfPlane.leftOf a b).normal ≠ 0 := by
  intro hzero
  have hx : -(b.y - a.y) = 0 := congrArg Vec2.x hzero
  have hy : b.x - a.x = 0 := congrArg Vec2.y hzero
  exact hab (Vec2.ext (by linarith) (by linarith))

theorem turn_eq_zero_of_line {a b x y z : Vec2 ℚ} (hab : a ≠ b) (hx : turn a b x = 0)
    (hy : turn a b y = 0) (hz : turn a b z = 0) : turn x y z = 0 := by
  rw [← HalfPlane.eval_leftOf] at hx hy hz
  exact HalfPlane.turn_eq_zero_of_eval (normal_leftOf_ne hab) hx hy hz

def Spreads (poly : Polygon ℚ) : Prop :=
  ∃ x ∈ poly, ∃ y ∈ poly, ∃ z ∈ poly, turn x y z ≠ 0

theorem Spreads.exists_turn_ne {poly : Polygon ℚ} (hspreads : Spreads poly) {a b : Vec2 ℚ}
    (hab : a ≠ b) : ∃ d ∈ poly, turn a b d ≠ 0 := by
  by_contra hline
  push Not at hline
  obtain ⟨x, hx, y, hy, z, hz, hturn⟩ := hspreads
  exact hturn (turn_eq_zero_of_line hab (hline x hx) (hline y hy) (hline z hz))

theorem Spreads.mono {poly poly' : Polygon ℚ} (hspreads : Spreads poly)
    (hsub : ∀ v ∈ poly, v ∈ poly') : Spreads poly' := by
  obtain ⟨x, hx, y, hy, z, hz, hturn⟩ := hspreads
  exact ⟨x, hsub x hx, y, hsub y hy, z, hsub z hz, hturn⟩

theorem exists_insert_sublist {l poly : Polygon ℚ} {d : Vec2 ℚ} (hsub : l.Sublist poly)
    (hd : d ∈ poly) : d ∈ l ∨ ∃ l₁ l₂, l = l₁ ++ l₂ ∧ (l₁ ++ d :: l₂).Sublist poly := by
  induction hsub with
  | slnil => cases hd
  | @cons l poly r hsub ih =>
      obtain rfl | hd := List.mem_cons.mp hd
      · exact Or.inr ⟨[], l, rfl, hsub.cons_cons d⟩
      · exact (ih hd).imp_right fun ⟨l₁, l₂, hl, hinsert⟩ => ⟨l₁, l₂, hl, hinsert.cons r⟩
  | @cons_cons l poly r hsub ih =>
      obtain rfl | hd := List.mem_cons.mp hd
      · exact Or.inl List.mem_cons_self
      · refine (ih hd).imp (List.mem_cons_of_mem r) ?_
        rintro ⟨l₁, l₂, rfl, hinsert⟩
        exact ⟨r :: l₁, l₂, rfl, hinsert.cons_cons r⟩

theorem turn_eq_zero_of_both {a b c : Vec2 ℚ} (habc : 0 ≤ turn a b c) (hbac : 0 ≤ turn b a c) :
    turn a b c = 0 := by
  rw [turn_swap] at hbac
  linarith

/-- A convex boundary that visits `a` twice sees nothing else on one of the two ways between. -/
theorem not_sublist_revisit {poly : Polygon ℚ} (hconvex : IsConvex poly) (hspreads : Spreads poly)
    {a b c : Vec2 ℚ} (hab : a ≠ b) (hac : a ≠ c) : ¬ [a, b, a, c].Sublist poly := by
  intro hvisits
  have hturns : ∀ {x y z : Vec2 ℚ} {l : Polygon ℚ}, l.Sublist poly → [x, y, z].Sublist l →
      0 ≤ turn x y z := fun hl hxyz => hconvex _ _ _ (hxyz.trans hl)
  have hline : turn a b c = 0 :=
    turn_eq_zero_of_both (hturns hvisits (.cons_cons a (.cons_cons b (.cons a (.refl [c])))))
      (hturns hvisits (.cons a (.refl [b, a, c])))
  obtain ⟨d, hd, hoff⟩ := hspreads.exists_turn_ne hab
  have hoff' : turn a d c ≠ 0 := by
    intro hzero
    refine hoff (turn_eq_zero_of_line hac (turn_self_outer a c) ?_ ?_)
    · rw [turn_swap_right, hline, neg_zero]
    · rw [turn_swap_right, hzero, neg_zero]
  obtain hd | ⟨l₁, l₂, hl, hinsert⟩ := exists_insert_sublist hvisits hd
  · simp only [List.mem_cons, List.not_mem_nil, or_false] at hd
    obtain rfl | rfl | rfl | rfl := hd <;> simp_all
  -- wherever `d` is met, it has two of the visited points before it or after it in both orders
  match l₁, l₂, hl with
  | [], _, rfl =>
      refine hoff (turn_eq_zero_of_both ?_ ?_)
      · rw [turn_rotate]
        exact hturns hinsert (.cons_cons d (.cons_cons a (.cons_cons b (List.nil_sublist _))))
      · rw [turn_rotate]
        exact hturns hinsert (.cons_cons d (.cons a (.cons_cons b (.cons_cons a
          (List.nil_sublist _)))))
  | [_], _, rfl =>
      refine hoff' (turn_eq_zero_of_both ?_ ?_)
      · exact hturns hinsert (.cons_cons a (.cons_cons d (.cons b (.cons a (.refl [c])))))
      · exact hturns hinsert (.cons a (.cons_cons d (.cons b (.refl [a, c]))))
  | [_, _], _, rfl =>
      refine hoff' (turn_eq_zero_of_both ?_ ?_)
      · exact hturns hinsert (.cons_cons a (.cons b (.cons_cons d (.cons a (.refl [c])))))
      · exact hturns hinsert (.cons a (.cons b (.refl [d, a, c])))
  | [_, _, _], _, rfl =>
      refine hoff (turn_eq_zero_of_both ?_ ?_)
      · exact hturns hinsert (.cons_cons a (.cons_cons b (.cons a (.cons_cons d
          (List.nil_sublist _)))))
      · exact hturns hinsert (.cons a (.cons_cons b (.cons_cons a (.cons_cons d
          (List.nil_sublist _)))))
  | [_, _, _, _], _, rfl =>
      refine hoff (turn_eq_zero_of_both ?_ ?_)
      · exact hturns hinsert (.cons_cons a (.cons_cons b (.cons a (.cons c (.refl [d])))))
      · exact hturns hinsert (.cons a (.cons_cons b (.cons_cons a (.cons c (.refl [d])))))
  | _ :: _ :: _ :: _ :: _ :: _, _, hl => simp at hl

theorem IsConvex.rotate {l₁ l₂ : Polygon ℚ} (hconvex : IsConvex (l₁ ++ l₂)) :
    IsConvex (l₂ ++ l₁) := by
  intro a b c habc
  obtain ⟨m₂, m₁, hsplit, h₂, h₁⟩ := List.sublist_append_iff.mp habc
  have hback : (m₁ ++ m₂).Sublist (l₁ ++ l₂) := h₁.append h₂
  match m₂, m₁, hsplit with
  | [], _, rfl => exact hconvex a b c (by simpa using hback)
  | [_], _, rfl =>
      rw [← turn_rotate]
      exact hconvex b c a hback
  | [_, _], _, rfl =>
      rw [← turn_rotate, ← turn_rotate]
      exact hconvex c a b hback
  | [_, _, _], _, rfl => exact hconvex a b c (by simpa using hback)
  | _ :: _ :: _ :: _ :: _, _, hsplit => simp at hsplit

theorem not_sublist_revisit_last {poly : Polygon ℚ} (hconvex : IsConvex poly)
    (hspreads : Spreads poly) {a b c : Vec2 ℚ} (hab : a ≠ b) (hac : a ≠ c) :
    ¬ [c, a, b, a].Sublist poly := by
  intro hvisits
  obtain ⟨l₁, l₂, rfl, hc, hrest⟩ := List.cons_sublist_iff.mp hvisits
  refine not_sublist_revisit hconvex.rotate (hspreads.mono ?_) hab hac
    (hrest.append (List.singleton_sublist.mpr hc))
  intro v hv
  rwa [List.mem_append, or_comm, ← List.mem_append]

/-- Vertices taken from a convex boundary with an area, without equal neighbours, are all
different. -/
theorem Spaced.nodup {poly outer : Polygon ℚ} (hspaced : Spaced poly) (hsub : poly.Sublist outer)
    (hconvex : IsConvex outer) (hspreads : Spreads outer) : poly.Nodup := by
  rw [List.nodup_iff_sublist]
  intro a htwice
  obtain ⟨r₁, r₂, rfl, ha₁, ha₂⟩ := List.cons_sublist_iff.mp htwice
  obtain ⟨l₀, k, rfl⟩ := List.append_of_mem ha₁
  obtain ⟨k', l₂, rfl⟩ := List.append_of_mem (List.singleton_sublist.mp ha₂)
  have hchain := hspaced.chain
  simp only [List.append_assoc, List.cons_append] at hspaced hsub hchain
  rw [← List.append_assoc k] at hspaced hsub hchain
  generalize k ++ k' = l₁ at hspaced hsub hchain
  have hafter := (List.isChain_append.mp hchain).2.1
  cases l₁ with
  | nil => exact (List.isChain_cons_cons.mp hafter).1 rfl
  | cons b l₁ =>
      have hab : a ≠ b := (List.isChain_cons_cons.mp hafter).1
      have hbetween : ((b :: l₁) ++ a :: l₂).IsChain (· ≠ ·) := hafter.tail
      have hagain := (List.isChain_append.mp hbetween).2.1
      cases l₂ with
      | cons c l₂ =>
          have hac : a ≠ c := (List.isChain_cons_cons.mp hagain).1
          refine not_sublist_revisit hconvex hspreads hab hac (List.Sublist.trans ?_ hsub)
          refine List.Sublist.trans ?_ (List.sublist_append_right l₀ _)
          refine .cons_cons a (.cons_cons b ?_)
          refine List.Sublist.trans ?_ (List.sublist_append_right l₁ _)
          exact .cons_cons a (.cons_cons c (List.nil_sublist l₂))
      | nil =>
          cases l₀ with
          | nil => exact hspaced.ends a a (b :: l₁) rfl rfl
          | cons c l₀ =>
              have hca : c ≠ a := hspaced.ends c a (l₀ ++ a :: b :: l₁) (by simp)
              refine not_sublist_revisit_last hconvex hspreads hab hca.symm
                (List.Sublist.trans ?_ hsub)
              refine .cons_cons c (List.Sublist.trans ?_ (List.sublist_append_right l₀ _))
              refine .cons_cons a (.cons_cons b ?_)
              exact List.sublist_append_right l₁ [a]

/-! ### Vertices that come out of a half-plane -/

variable {h : HalfPlane ℚ}

/-- The walk with the points added where it crosses the boundary of the half-plane. -/
def crossed (h : HalfPlane ℚ) (prev : Vec2 ℚ) : Polygon ℚ → Polygon ℚ
  | [] => []
  | cur :: poly =>
    if h.contains prev = h.contains cur then cur :: crossed h cur poly
    else h.meet prev cur :: cur :: crossed h cur poly

theorem sublist_crossed (h : HalfPlane ℚ) (prev : Vec2 ℚ) (poly : Polygon ℚ) :
    poly.Sublist (crossed h prev poly) := by
  induction poly generalizing prev with
  | nil => exact List.Sublist.slnil
  | cons cur poly ih =>
      rw [crossed]
      split
      · exact (ih cur).cons_cons cur
      · exact ((ih cur).cons_cons cur).cons _

theorem clipWalk_sublist_crossed (h : HalfPlane ℚ) (prev : Vec2 ℚ) (poly : Polygon ℚ) :
    (clipWalk h prev poly).Sublist (crossed h prev poly) := by
  induction poly generalizing prev with
  | nil => exact List.Sublist.slnil
  | cons cur poly ih =>
      have hend : ((if h.contains cur then [cur] else []) ++ clipWalk h cur poly).Sublist
          (cur :: crossed h cur poly) := by
        split
        · exact (ih cur).cons_cons cur
        · exact (ih cur).cons cur
      rw [clipWalk_cons, crossed]
      obtain ⟨hsame, heq⟩ | ⟨hside, heq⟩ := clipStep_cases h prev cur
      · rw [heq, if_pos hsame]
        exact hend
      · rw [heq, if_neg hside]
        exact hend.cons_cons _

/-- Adding the crossings keeps a polygon convex. -/
theorem isConvex_crossed {pre poly : Polygon ℚ} {prev : Vec2 ℚ}
    (hconvex : IsConvex (pre ++ prev :: poly)) :
    IsConvex (pre ++ prev :: crossed h prev poly) := by
  induction poly generalizing pre prev with
  | nil => exact hconvex
  | cons cur poly ih =>
      rw [crossed]
      split
      · simpa using @ih (pre ++ [prev]) cur (by simpa using hconvex)
      · rename_i hside
        have hinserted := hconvex.insert (HalfPlane.meet_mem_segment hside)
        simpa using @ih (pre ++ [prev, h.meet prev cur]) cur (by simpa using hinserted)

/-- What a half-plane leaves of a convex polygon with an area is taken from a convex boundary. -/
theorem exists_boundary {poly : Polygon ℚ} (hconvex : IsConvex poly) (harea : poly.area ≠ 0)
    (h : HalfPlane ℚ) :
    ∃ outer, (poly.clip 0 h).Sublist outer ∧ IsConvex outer ∧ Spreads outer := by
  have hspreads : Spreads poly := exists_turn_ne_zero harea
  cases hlast : poly.getLast? with
  | none =>
      obtain rfl := List.getLast?_eq_none_iff.mp hlast
      exact ⟨[], List.Sublist.slnil, hconvex, hspreads⟩
  | some last =>
      have hclosed : IsConvex ([] ++ last :: poly) := hconvex.close hlast
      refine ⟨crossed h last poly, ?_, ?_, hspreads.mono (sublist_crossed h last poly).subset⟩
      · rw [clip_eq_merge hlast]
        exact (merge_sublist 0 _).trans (clipWalk_sublist_crossed h last poly)
      · exact (isConvex_crossed hclosed).sublist (List.sublist_cons_self last _)

/-- Clipping a convex polygon that has an area leaves no vertex twice. -/
theorem nodup_clip {poly : Polygon ℚ} (hconvex : IsConvex poly) (harea : poly.area ≠ 0)
    (h : HalfPlane ℚ) : (poly.clip 0 h).Nodup := by
  obtain ⟨outer, hsub, houter, hspreads⟩ := exists_boundary hconvex harea h
  exact (spaced_merge _).nodup hsub houter hspreads

/-! ### Corners -/

/-- Every vertex is a corner: it lies between no other points of the polygon. -/
def AllCorners (poly : Polygon ℚ) : Prop :=
  ∀ v ∈ poly, v ∈ poly.region.extremePoints ℚ

theorem AllCorners.mem_iff {poly : Polygon ℚ} (hcorners : AllCorners poly) {v : Vec2 ℚ} :
    v ∈ poly ↔ v ∈ poly.region.extremePoints ℚ := by
  have hvertices : poly.region.extremePoints ℚ ⊆ {v | v ∈ poly} := extremePoints_convexHull_subset
  exact ⟨hcorners v, fun hv => hvertices hv⟩

theorem eval_eq_zero_of_mem_openSegment {x y v : Vec2 ℚ} (hx : 0 ≤ h.eval x) (hy : 0 ≤ h.eval y)
    (hv : v ∈ openSegment ℚ x y) (hzero : h.eval v = 0) : h.eval x = 0 := by
  obtain ⟨a, b, ha, hb, hab, rfl⟩ := hv
  rw [HalfPlane.eval_combination h x y hab] at hzero
  nlinarith [mul_nonneg hb.le hy]

/-- A point where the boundaries of two half-planes cross is a corner of every set inside both. -/
theorem mem_extremePoints_of_crossing {K : Set (Vec2 ℚ)} {a b v : Vec2 ℚ} (hv : v ∈ K)
    (hne : h.eval a ≠ h.eval b) (hinside : ∀ x ∈ K, 0 ≤ h.eval x)
    (hleft : ∀ x ∈ K, 0 ≤ turn a b x) (heval : h.eval v = 0) (hturn : turn a b v = 0) :
    v ∈ K.extremePoints ℚ := by
  rw [mem_extremePoints_iff_left]
  refine ⟨hv, fun x hx y hy hvxy => ?_⟩
  refine HalfPlane.eq_of_turn_eq hne ?_ ?_
  · rw [heval]
    exact eval_eq_zero_of_mem_openSegment (hinside x hx) (hinside y hy) hvxy heval
  · rw [hturn]
    simp only [← HalfPlane.eval_leftOf] at hleft hturn ⊢
    exact eval_eq_zero_of_mem_openSegment (hleft x hx) (hleft y hy) hvxy hturn

theorem turn_meet (h : HalfPlane ℚ) (a b : Vec2 ℚ) : turn a b (h.meet a b) = 0 := by
  rw [HalfPlane.meet, lerp_eq, HalfPlane.turn_combination a b a b (sub_add_cancel 1 _)]
  simp

/-- A vertex that the polygon did not have is a corner of what is left. -/
theorem mem_clip_cases {poly : Polygon ℚ} (hconvex : IsConvex poly) {v : Vec2 ℚ}
    (hv : v ∈ poly.clip 0 h) : v ∈ (region (poly.clip 0 h)).extremePoints ℚ ∨ v ∈ poly := by
  have hregion := mem_region hv
  cases hlast : poly.getLast? with
  | none =>
      obtain rfl := List.getLast?_eq_none_iff.mp hlast
      cases hv
  | some last =>
      rw [clip_eq_merge hlast, mem_merge_zero] at hv
      obtain ⟨s, hs, hv⟩ := List.mem_flatMap.mp hv
      obtain ⟨-, hcur⟩ := mem_of_mem_walk hs
      have hend : v ∈ (if h.contains s.2 then [s.2] else []) → v ∈ poly := by
        intro hv
        split at hv
        · rwa [List.mem_singleton.mp hv]
        · cases hv
      obtain ⟨-, heq⟩ | ⟨hside, heq⟩ := clipStep_cases h s.1 s.2
      · exact Or.inr (hend (heq ▸ hv))
      · rw [heq] at hv
        obtain rfl | hv := List.mem_cons.mp hv
        · have hne := HalfPlane.eval_ne_of_contains_ne hside
          refine Or.inl (mem_extremePoints_of_crossing hregion hne (fun x hx => ?_)
            (fun x hx => ?_) (HalfPlane.eval_meet hne) (turn_meet h s.1 s.2))
          · exact eval_nonneg_of_mem_clip hconvex hx
          · exact turn_nonneg_of_mem_steps hconvex hlast hs (region_clip_subset hconvex h hx)
        · exact Or.inr (hend hv)

theorem mem_clip_of_mem {poly : Polygon ℚ} {v : Vec2 ℚ} (hv : v ∈ poly) (hin : 0 ≤ h.eval v) :
    v ∈ poly.clip 0 h := by
  obtain ⟨last, hlast⟩ : ∃ last, poly.getLast? = some last :=
    ⟨_, List.getLast?_eq_some_getLast (List.ne_nil_of_mem hv)⟩
  obtain ⟨u, hstep⟩ : ∃ u, (u, v) ∈ walk last poly := exists_mem_walk hv
  exact mem_clip_zero_of_step hlast hstep
    (mem_clipStep_of_contains (HalfPlane.contains_iff.mpr hin))

/-! ### Clipping again and again -/

section Fold

variable {poly : Polygon ℚ} {planes : List (HalfPlane ℚ)} {v : Vec2 ℚ}

theorem mem_foldl_clip_of_mem (hv : v ∈ poly) (hin : ∀ h ∈ planes, 0 ≤ h.eval v) :
    v ∈ planes.foldl (fun poly h => poly.clip 0 h) poly := by
  induction planes generalizing poly with
  | nil => exact hv
  | cons h planes ih =>
      obtain ⟨hfirst, hrest⟩ := List.forall_mem_cons.mp hin
      exact ih (mem_clip_of_mem hv hfirst) hrest

/-- Clipping makes vertices only where it makes corners. -/
theorem mem_foldl_clip_cases (hconvex : IsConvex poly)
    (hv : v ∈ planes.foldl (fun poly h => poly.clip 0 h) poly) :
    v ∈ (region (planes.foldl (fun poly h => poly.clip 0 h) poly)).extremePoints ℚ ∨ v ∈ poly := by
  induction planes generalizing poly with
  | nil => exact Or.inr hv
  | cons h planes ih =>
      rw [List.foldl_cons] at hv ⊢
      have hsub : region (planes.foldl (fun poly h => poly.clip 0 h) (poly.clip 0 h)) ⊆
          region (poly.clip 0 h) := by
        rw [region_foldl_clip (hconvex.clip 0 h)]
        exact Set.inter_subset_left
      obtain hcorner | hmem := ih (hconvex.clip 0 h) hv
      · exact Or.inl hcorner
      · refine (mem_clip_cases hconvex hmem).imp_left fun hcorner => ?_
        -- a corner stays one while it stays in the polygon
        exact inter_extremePoints_subset_extremePoints_of_subset hsub ⟨mem_region hv, hcorner⟩

/-- The vertices are the corners of what is left and the vertices that were in it already. -/
theorem mem_foldl_clip_iff (hconvex : IsConvex poly) :
    v ∈ planes.foldl (fun poly h => poly.clip 0 h) poly ↔
      v ∈ (region (planes.foldl (fun poly h => poly.clip 0 h) poly)).extremePoints ℚ ∨
        v ∈ poly ∧ ∀ h ∈ planes, 0 ≤ h.eval v := by
  constructor
  · intro hv
    exact (mem_foldl_clip_cases hconvex hv).imp_right fun hmem => ⟨hmem, (mem_foldl_clip hv).2⟩
  · rintro (hcorner | ⟨hmem, hin⟩)
    · exact (extremePoints_convexHull_subset hcorner :)
    · exact mem_foldl_clip_of_mem hmem hin

end Fold

theorem corner_of_triangle {a b c : Vec2 ℚ} (hturn : 0 < turn a b c) :
    a ∈ (region [a, b, c]).extremePoints ℚ := by
  have hne : (HalfPlane.leftOf c a).eval a ≠ (HalfPlane.leftOf c a).eval b := by
    rw [HalfPlane.eval_leftOf, HalfPlane.eval_leftOf, turn_self_right, turn_rotate, turn_rotate]
    exact hturn.ne
  have hsides : ∀ x ∈ region [a, b, c], 0 ≤ turn a b x ∧ 0 ≤ turn b c x ∧ 0 ≤ turn c a x := by
    intro x hx
    rwa [← inner_triangle hturn, mem_inner_triangle_iff] at hx
  refine mem_extremePoints_of_crossing (mem_region List.mem_cons_self) hne (fun x hx => ?_)
    (fun x hx => (hsides x hx).1) ?_ (turn_self_outer a b)
  · rw [HalfPlane.eval_leftOf]
    exact (hsides x hx).2.2
  · rw [HalfPlane.eval_leftOf, turn_self_right]

theorem allCorners_triangle {a b c : Vec2 ℚ} (hturn : 0 < turn a b c) : AllCorners [a, b, c] := by
  have hrotate : ∀ p q r : Vec2 ℚ, region [q, r, p] = region [p, q, r] := by
    intro p q r
    refine congrArg (convexHull ℚ) (Set.ext fun v => ?_)
    change v ∈ [q, r, p] ↔ v ∈ [p, q, r]
    simp only [List.mem_cons, List.not_mem_nil, or_false]
    tauto
  have hsecond : 0 < turn b c a := by rwa [turn_rotate]
  have hthird : 0 < turn c a b := by rwa [turn_rotate]
  intro v hv
  simp only [List.mem_cons, List.not_mem_nil, or_false] at hv
  obtain rfl | rfl | rfl := hv
  · exact corner_of_triangle hturn
  · rw [← hrotate]
    exact corner_of_triangle hsecond
  · rw [← hrotate, ← hrotate]
    exact corner_of_triangle hthird

/-! ### Polygons without an area -/

theorem exists_smul_of_turn {a b z : Vec2 ℚ} (hab : a ≠ b) (hturn : turn a b z = 0) :
    ∃ r : ℚ, z = r • (b - a) + a := by
  have hlength : (b.x - a.x) ^ 2 + (b.y - a.y) ^ 2 ≠ 0 := by
    rw [← distSq_eq]
    exact fun hzero => hab (distSq_le_zero_iff.mp (by rw [hzero, mul_zero]))
  rw [turn_eq] at hturn
  refine ⟨((z.x - a.x) * (b.x - a.x) + (z.y - a.y) * (b.y - a.y)) /
    ((b.x - a.x) ^ 2 + (b.y - a.y) ^ 2), ?_⟩
  ext
  · rw [add_x, smul_x, sub_x]
    field_simp
    linear_combination -(b.y - a.y) * hturn
  · rw [add_y, smul_y, sub_y]
    field_simp
    linear_combination (b.x - a.x) * hturn

theorem collinear_iff_turn {K : Set (Vec2 ℚ)} :
    Collinear ℚ K ↔ ∀ x ∈ K, ∀ y ∈ K, ∀ z ∈ K, turn x y z = 0 := by
  constructor
  · intro hline x hx y hy z hz
    obtain ⟨p, v, hpoints⟩ := (collinear_iff_exists_forall_eq_smul_vadd K).mp hline
    obtain ⟨r, rfl⟩ := hpoints x hx
    obtain ⟨s, rfl⟩ := hpoints y hy
    obtain ⟨t, rfl⟩ := hpoints z hz
    simp only [turn_eq, vadd_eq_add, add_x, add_y, smul_x, smul_y]
    ring
  · intro hflat
    by_cases hsingle : K.Subsingleton
    · obtain rfl | ⟨x, rfl⟩ := hsingle.eq_empty_or_singleton
      · exact collinear_empty ℚ _
      · exact collinear_singleton ℚ x
    · obtain ⟨a, ha, b, hb, hab⟩ := Set.not_subsingleton_iff.mp hsingle
      refine (collinear_iff_of_mem ha).mpr ⟨b - a, fun z hz => ?_⟩
      exact exists_smul_of_turn hab (hflat a ha b hb z hz)

/-- A convex polygon without an area lies on a line. -/
theorem area_eq_zero_iff {poly : Polygon ℚ} (hconvex : IsConvex poly) :
    poly.area = 0 ↔ Collinear ℚ poly.region := by
  rw [collinear_iff_turn]
  constructor
  · intro harea x hx y hy z hz
    by_contra hturn
    exact (area_pos_of_turn_ne_zero hconvex hx hy hz hturn).ne' harea
  · intro hflat
    by_contra harea
    obtain ⟨x, hx, y, hy, z, hz, hturn⟩ := exists_turn_ne_zero harea
    exact hturn (hflat x (mem_region hx) y (mem_region hy) z (mem_region hz))

/-- On a line there are two corners at most. -/
theorem AllCorners.length_le_two {poly : Polygon ℚ} (hcorners : AllCorners poly)
    (hnodup : poly.Nodup) (hline : Collinear ℚ poly.region) : poly.length ≤ 2 := by
  match poly, hcorners with
  | [], _ => simp
  | [_], _ => simp
  | [_, _], _ => simp
  | x :: y :: z :: rest, hcorners =>
      exfalso
      simp only [List.nodup_cons, List.mem_cons, not_or] at hnodup
      obtain ⟨⟨hxy, hxz, -⟩, ⟨hyz, -⟩, -⟩ := hnodup
      have hmem : ∀ v ∈ [x, y, z], v ∈ x :: y :: z :: rest :=
        fun v hv => (List.prefix_append [x, y, z] rest).subset hv
      have hbetween : ∀ p ∈ [x, y, z], ∀ q ∈ [x, y, z], ∀ r ∈ [x, y, z], Wbtw ℚ p q r →
          p = q ∨ r = q := by
        intro p hp q hq r hr hpqr
        exact (mem_extremePoints_iff_forall_segment.mp (hcorners q (hmem q hq))).2 p
          (mem_region (hmem p hp)) r (mem_region (hmem r hr)) hpqr.mem_segment
      have hthree : Collinear ℚ {x, y, z} := by
        refine hline.subset ?_
        rintro v (rfl | rfl | rfl) <;> exact mem_region (by simp)
      obtain hw | hw | hw := hthree.wbtw_or_wbtw_or_wbtw
      · obtain heq | heq := hbetween x (by simp) y (by simp) z (by simp) hw
        · exact hxy heq
        · exact hyz heq.symm
      · obtain heq | heq := hbetween y (by simp) z (by simp) x (by simp) hw
        · exact hyz heq
        · exact hxz heq
      · obtain heq | heq := hbetween z (by simp) x (by simp) y (by simp) hw
        · exact hxz heq.symm
        · exact hxy heq.symm

end PainterScene.Polygon
