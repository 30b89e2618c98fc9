import PainterScene.Proofs.Corners

/-!
# Polygons on a line

When a half-plane only touches a convex polygon, what it leaves lies on a line. Such a polygon runs
along the line and back: from some vertex on and around, its vertices come in the order of the line.
Clipping it again moves the vertices outside to the one point where the line leaves the half-plane,
which keeps the order, so merging leaves no vertex twice.
-/

namespace PainterScene.Polygon

open Vec2

/-! ### Once along a line -/

section Winding

variable {value : Vec2 ℚ → ℚ} {poly : Polygon ℚ}

/-- Read from some vertex on and around, the values do not fall. -/
def Winds (value : Vec2 ℚ → ℚ) (poly : Polygon ℚ) : Prop :=
  ∃ l₁ l₂, poly = l₁ ++ l₂ ∧ (l₂ ++ l₁).Pairwise fun a b => value a ≤ value b

/-- Leaving out vertices keeps the values in order. -/
theorem Winds.sublist (hwinds : Winds value poly) {part : Polygon ℚ} (hsub : part.Sublist poly) :
    Winds value part := by
  obtain ⟨l₁, l₂, rfl, hrising⟩ := hwinds
  obtain ⟨m₁, m₂, rfl, h₁, h₂⟩ := List.sublist_append_iff.mp hsub
  exact ⟨m₁, m₂, rfl, hrising.sublist (h₂.append h₁)⟩

theorem Winds.map (hwinds : Winds value poly) {f : Vec2 ℚ → Vec2 ℚ}
    (hmono : ∀ a ∈ poly, ∀ b ∈ poly, value a ≤ value b → value (f a) ≤ value (f b)) :
    Winds value (poly.map f) := by
  obtain ⟨l₁, l₂, rfl, hrising⟩ := hwinds
  refine ⟨l₁.map f, l₂.map f, List.map_append, ?_⟩
  rw [← List.map_append, List.pairwise_map]
  refine hrising.imp_of_mem fun {a b} ha hb => ?_
  exact hmono a (List.mem_append.mpr (List.mem_append.mp ha).symm) b
    (List.mem_append.mpr (List.mem_append.mp hb).symm)

theorem pairwise_double {l : Polygon ℚ} (hrising : l.Pairwise fun a b => value a ≤ value b) :
    (l.flatMap fun v => [v, v]).Pairwise fun a b => value a ≤ value b := by
  rw [List.pairwise_flatMap]
  refine ⟨fun v _ => by simp, hrising.imp fun hle x hx y hy => ?_⟩
  rw [List.mem_pair, or_self] at hx hy
  rwa [hx, hy]

/-- Staying at every vertex for a while makes no difference. -/
theorem Winds.double (hwinds : Winds value poly) {last : Vec2 ℚ}
    (hlast : poly.getLast? = some last) :
    Winds value (last :: poly.flatMap fun v => [v, v]) := by
  obtain ⟨l₁, l₂, hne, rfl, hrising⟩ : ∃ l₁ l₂ : Polygon ℚ, l₂ ≠ [] ∧ poly = l₁ ++ l₂ ∧
      (l₂ ++ l₁).Pairwise fun a b => value a ≤ value b := by
    obtain ⟨l₁, l₂, rfl, hrising⟩ := hwinds
    by_cases hnil : l₂ = []
    · subst hnil
      refine ⟨[], l₁, ?_, by simp, by simpa using hrising⟩
      rintro rfl
      simp at hlast
    · exact ⟨l₁, l₂, hnil, rfl, hrising⟩
  rw [List.getLast?_append_of_ne_nil l₁ hne] at hlast
  obtain ⟨init, rfl⟩ := List.getLast?_eq_some_iff.mp hlast
  have hstay : (init ++ last :: last :: l₁).Pairwise fun a b => value a ≤ value b := by
    simp only [List.append_assoc, List.singleton_append, List.pairwise_append, List.pairwise_cons,
      List.mem_cons] at hrising ⊢
    grind
  refine ⟨last :: l₁.flatMap fun v => [v, v], (init ++ [last]).flatMap fun v => [v, v],
    by simp, (pairwise_double hstay).sublist ?_⟩
  simp

theorem nodup_of_rising {l : Polygon ℚ} (hchain : l.IsChain (· ≠ ·))
    (hrising : l.Pairwise fun a b => value a ≤ value b)
    (hinj : ∀ a ∈ l, ∀ b ∈ l, value a = value b → a = b) : l.Nodup := by
  induction l with
  | nil => exact List.nodup_nil
  | cons a l ih =>
      obtain ⟨hbelow, hrest⟩ := List.pairwise_cons.mp hrising
      have hlater := fun b hb c hc =>
        hinj b (List.mem_cons_of_mem a hb) c (List.mem_cons_of_mem a hc)
      refine List.nodup_cons.mpr ⟨fun hmem => ?_, ih hchain.tail hrest hlater⟩
      cases l with
      | nil => cases hmem
      | cons b l =>
          -- what lies between `a` and its next occurrence has the value of `a`
          have hnext : value b ≤ value a := by
            obtain rfl | hmem := List.mem_cons.mp hmem
            · exact le_rfl
            · exact (List.pairwise_cons.mp hrest).1 a hmem
          have hvalue := le_antisymm (hbelow b List.mem_cons_self) hnext
          exact (List.isChain_cons_cons.mp hchain).1 (hinj a (by simp) b (by simp) hvalue)

theorem Spaced.isChain_rotate {l₁ l₂ : Polygon ℚ} (hspaced : Spaced (l₁ ++ l₂)) :
    (l₂ ++ l₁).IsChain (· ≠ ·) := by
  obtain ⟨h₁, h₂, -⟩ := List.isChain_append.mp hspaced.chain
  refine List.isChain_append.mpr ⟨h₂, h₁, fun x hx y hy => ?_⟩
  obtain ⟨init, rfl⟩ := List.getLast?_eq_some_iff.mp hx
  obtain ⟨rest, rfl⟩ := List.head?_eq_some_iff.mp hy
  exact (hspaced.ends y x (rest ++ init) (by simp)).symm

/-- If equal vertices are never neighbours, values that do not fall along the walk do not come back.
-/
theorem Spaced.nodup_of_winds (hspaced : Spaced poly) (hwinds : Winds value poly)
    (hinj : ∀ a ∈ poly, ∀ b ∈ poly, value a = value b → a = b) : poly.Nodup := by
  obtain ⟨l₁, l₂, rfl, hrising⟩ := hwinds
  rw [List.perm_append_comm.nodup_iff]
  refine nodup_of_rising hspaced.isChain_rotate hrising fun a ha b hb => ?_
  rw [List.mem_append, or_comm, ← List.mem_append] at ha hb
  exact hinj a ha b hb

end Winding

/-! ### Clipping on a line -/

variable {g h : HalfPlane ℚ} {poly : Polygon ℚ}

def clampTo (h : HalfPlane ℚ) (edge v : Vec2 ℚ) : Vec2 ℚ :=
  if h.contains v then v else edge

theorem clipWalk_sublist_clampTo {edge prev : Vec2 ℚ}
    (hmeet : ∀ a ∈ prev :: poly, ∀ b ∈ prev :: poly, h.contains a ≠ h.contains b →
      h.meet a b = edge) :
    (clipWalk h prev poly).Sublist
      (clampTo h edge prev :: (poly.map (clampTo h edge)).flatMap fun v => [v, v]) := by
  induction poly generalizing prev with
  | nil => exact List.nil_sublist _
  | cons cur poly ih =>
      have hrest := ih fun a ha b hb =>
        hmeet a (List.mem_cons_of_mem prev ha) b (List.mem_cons_of_mem prev hb)
      have hstep : (clipStep h prev cur).Sublist [clampTo h edge prev, clampTo h edge cur] := by
        have hcross := hmeet prev (by simp) cur (by simp)
        obtain ⟨hsame, heq⟩ | ⟨hside, heq⟩ := clipStep_cases h prev cur
        · rw [heq, clampTo, clampTo]
          split <;> simp
        · rw [heq, hcross hside, clampTo, clampTo]
          cases hprev : h.contains prev <;> cases hcur : h.contains cur <;> simp_all
      rw [clipWalk_cons, List.map_cons, List.flatMap_cons]
      exact hstep.append hrest

/-- The line of a polygon meets the boundary of a half-plane in one point only. -/
theorem exists_meet_eq (hline : Collinear ℚ poly.region) (h : HalfPlane ℚ) :
    ∃ edge, ∀ a ∈ poly, ∀ b ∈ poly, h.contains a ≠ h.contains b → h.meet a b = edge := by
  by_cases hcross : ∃ a ∈ poly, ∃ b ∈ poly, h.contains a ≠ h.contains b
  · obtain ⟨p, hp, q, hq, hpq⟩ := hcross
    refine ⟨h.meet p q, fun a ha b hb hab => ?_⟩
    have hmem : h.meet p q ∈ poly.region :=
      poly.convex_region.segment_subset (mem_region hp) (mem_region hq)
        (HalfPlane.meet_mem_segment hpq)
    have hne := HalfPlane.eval_ne_of_contains_ne hab
    refine HalfPlane.eq_of_turn_eq hne ?_ ?_
    · rw [HalfPlane.eval_meet hne, HalfPlane.eval_meet (HalfPlane.eval_ne_of_contains_ne hpq)]
    · rw [turn_meet, collinear_iff_turn.mp hline a (mem_region ha) b (mem_region hb) _ hmem]
  · push Not at hcross
    exact ⟨0, fun a ha b hb hab => absurd (hcross a ha b hb) hab⟩

theorem eval_between {a b x : Vec2 ℚ} (hx : x ∈ segment ℚ a b) (hle : g.eval a ≤ g.eval b) :
    g.eval a ≤ g.eval x ∧ g.eval x ≤ g.eval b := by
  obtain ⟨s, t, hs, ht, hst, rfl⟩ := hx
  rw [HalfPlane.eval_combination g a b hst]
  obtain rfl : s = 1 - t := by linarith
  constructor <;> nlinarith

theorem eval_clampTo_le {edge : Vec2 ℚ}
    (hmeet : ∀ a ∈ poly, ∀ b ∈ poly, h.contains a ≠ h.contains b → h.meet a b = edge)
    {a b : Vec2 ℚ} (ha : a ∈ poly) (hb : b ∈ poly) (hle : g.eval a ≤ g.eval b) :
    g.eval (clampTo h edge a) ≤ g.eval (clampTo h edge b) := by
  have hedge : h.contains a ≠ h.contains b → g.eval a ≤ g.eval edge ∧ g.eval edge ≤ g.eval b := by
    intro hside
    rw [← hmeet a ha b hb hside]
    exact eval_between (HalfPlane.meet_mem_segment hside) hle
  unfold clampTo
  by_cases hina : h.contains a <;> by_cases hinb : h.contains b
  · simpa [hina, hinb] using hle
  · simpa [hina, hinb] using (hedge (by simp [hina, hinb])).1
  · simpa [hina, hinb] using (hedge (by simp [hina, hinb])).2
  · simp [hina, hinb]

/-- The polygon lies on a line and runs along it and back once, in the order that `g` gives. -/
structure Laid (g : HalfPlane ℚ) (poly : Polygon ℚ) : Prop where
  line : Collinear ℚ poly.region
  inj : Set.InjOn g.eval poly.region
  winds : Winds g.eval poly

theorem Laid.winds_clipWalk (hlaid : Laid g poly) {last : Vec2 ℚ}
    (hlast : poly.getLast? = some last) (h : HalfPlane ℚ) :
    Winds g.eval (clipWalk h last poly) := by
  obtain ⟨edge, hmeet⟩ := exists_meet_eq hlaid.line h
  have hclamped := hlaid.winds.map fun a ha b hb => eval_clampTo_le (g := g) hmeet ha hb
  have hlast' : (poly.map (clampTo h edge)).getLast? = some (clampTo h edge last) := by
    rw [List.getLast?_map, hlast, Option.map_some]
  refine (hclamped.double hlast').sublist (clipWalk_sublist_clampTo ?_)
  have hclosed : ∀ v ∈ last :: poly, v ∈ poly := by
    simpa using List.mem_of_getLast? hlast
  exact fun a ha b hb => hmeet a (hclosed a ha) b (hclosed b hb)

/-- Clipping keeps a polygon laid along its line, with no vertex twice. -/
theorem Laid.clip (hlaid : Laid g poly) (hconvex : IsConvex poly) (h : HalfPlane ℚ) :
    Laid g (poly.clip 0 h) ∧ (poly.clip 0 h).Nodup := by
  have hsub := region_clip_subset hconvex h
  have hinj := hlaid.inj.mono hsub
  cases hlast : poly.getLast? with
  | none =>
      obtain rfl := List.getLast?_eq_none_iff.mp hlast
      exact ⟨hlaid, List.nodup_nil⟩
  | some last =>
      have hclip : poly.clip 0 h = merge 0 (clipWalk h last poly) := clip_eq_merge hlast
      have hwinds : Winds g.eval (poly.clip 0 h) := by
        rw [hclip]
        exact (hlaid.winds_clipWalk hlast h).sublist (merge_sublist 0 _)
      refine ⟨⟨hlaid.line.subset hsub, hinj, hwinds⟩, ?_⟩
      have hspaced : Spaced (poly.clip 0 h) := hclip ▸ spaced_merge _
      exact hspaced.nodup_of_winds hwinds fun a ha b hb => hinj (mem_region ha) (mem_region hb)

/-! ### What lies on a line of a convex boundary -/

theorem laid_of_forall_eq (hsame : ∀ a ∈ poly, ∀ b ∈ poly, a = b) (g : HalfPlane ℚ) :
    Laid g poly := by
  have hregion : poly.region.Subsingleton := by
    obtain hset | ⟨p, hset⟩ := (show {v | v ∈ poly}.Subsingleton from
      fun a ha b hb => hsame a ha b hb).eq_empty_or_singleton
    · simp [region, hset]
    · simp [region, hset]
  refine ⟨collinear_iff_turn.mpr fun x hx y hy z hz => ?_, hregion.injOn _, [], poly, rfl, ?_⟩
  · rw [hregion hx hz, turn_self_outer]
  · refine List.pairwise_of_forall_mem_list fun a ha b hb => ?_
    rw [List.append_nil] at ha hb
    rw [hsame a ha b hb]

/-- Seen from a vertex off the line, the vertices on it come in their order. -/
theorem laid_of_sublist {outer : Polygon ℚ} (hsub : poly.Sublist outer) (hconvex : IsConvex outer)
    (hspreads : Spreads outer) (hline : Collinear ℚ poly.region) : ∃ g, Laid g poly := by
  by_cases hpair : ∃ a ∈ poly, ∃ b ∈ poly, a ≠ b
  · obtain ⟨a, ha, b, hb, hab⟩ := hpair
    obtain ⟨d, hd, hoff⟩ := hspreads.exists_turn_ne hab
    have hflat := collinear_iff_turn.mp hline
    have hchange : ∀ x ∈ poly.region, ∀ y ∈ poly.region, turn d x y = turn d a y - turn d a x := by
      intro x hx y hy
      have hzero := hflat a (mem_region ha) x hx y hy
      simp only [turn_eq] at hzero ⊢
      linarith
    obtain ⟨o₁, o₂, rfl⟩ := List.append_of_mem hd
    obtain ⟨l₁, l₂, rfl, h₁, hl₂⟩ := List.sublist_append_iff.mp hsub
    have hd₂ : d ∉ l₂ := fun hmem => hoff (hflat a (mem_region ha) b (mem_region hb) d
      (mem_region (List.mem_append_right l₁ hmem)))
    have h₂ : l₂.Sublist o₂ := by
      obtain h₂ | ⟨rest, rfl, -⟩ := List.sublist_cons_iff.mp hl₂
      · exact h₂
      · exact absurd List.mem_cons_self hd₂
    refine ⟨HalfPlane.leftOf d a, hline, fun x hx y hy hxy => ?_, l₁, l₂, rfl, ?_⟩
    · rw [HalfPlane.eval_leftOf, HalfPlane.eval_leftOf] at hxy
      by_contra hne
      have hseen : turn x y d = 0 := by
        rw [turn_rotate, hchange x hx y hy, hxy, sub_self]
      exact hoff (turn_eq_zero_of_line hne (hflat x hx y hy a (mem_region ha))
        (hflat x hx y hy b (mem_region hb)) hseen)
    · rw [List.pairwise_iff_forall_sublist]
      intro x y hxy
      have hmem : ∀ v ∈ [x, y], v ∈ region (l₁ ++ l₂) := by
        intro v hv
        exact mem_region (List.perm_append_comm.mem_iff.mp (hxy.subset hv))
      have hleft : 0 ≤ turn d x y :=
        hconvex.rotate d x y ((hxy.trans (h₂.append h₁)).cons_cons d)
      rw [hchange x (hmem x (by simp)) y (hmem y (by simp))] at hleft
      rw [HalfPlane.eval_leftOf, HalfPlane.eval_leftOf]
      linarith
  · push Not at hpair
    exact ⟨HalfPlane.leftOf 0 0, laid_of_forall_eq hpair _⟩

/-! ### No vertex twice -/

theorem nodup_foldl_clip_of_laid (hlaid : Laid g poly) (hconvex : IsConvex poly)
    (hnodup : poly.Nodup) (planes : List (HalfPlane ℚ)) :
    (planes.foldl (fun poly h => poly.clip 0 h) poly).Nodup := by
  induction planes generalizing poly with
  | nil => exact hnodup
  | cons h planes ih =>
      obtain ⟨hnext, hdistinct⟩ := hlaid.clip hconvex h
      exact ih hnext (hconvex.clip 0 h) hdistinct

/-- As long as the polygon has an area it is a convex boundary, and from the first clip that leaves
it none it lies on a line. -/
theorem nodup_foldl_clip (hconvex : IsConvex poly) (harea : poly.area ≠ 0) (h : HalfPlane ℚ)
    (planes : List (HalfPlane ℚ)) :
    ((h :: planes).foldl (fun poly h => poly.clip 0 h) poly).Nodup := by
  induction planes generalizing poly h with
  | nil => exact nodup_clip hconvex harea h
  | cons next planes ih =>
      rw [List.foldl_cons]
      by_cases hflat : (poly.clip 0 h).area = 0
      · obtain ⟨outer, hsub, houter, hspreads⟩ := exists_boundary hconvex harea h
        have hline := (area_eq_zero_iff (hconvex.clip 0 h)).mp hflat
        obtain ⟨g, hlaid⟩ := laid_of_sublist hsub houter hspreads hline
        exact nodup_foldl_clip_of_laid hlaid (hconvex.clip 0 h) (nodup_clip hconvex harea h) _
      · exact ih (hconvex.clip 0 h) hflat next

end PainterScene.Polygon
