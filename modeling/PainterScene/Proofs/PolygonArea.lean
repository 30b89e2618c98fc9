import PainterScene.Proofs.Clipping

/-!
# Area is additive

The area of a polygon can be swept from any point of the plane: each step along the boundary adds
the triangle that it spans with the point. Swept from a point of a line, what runs along the line
adds nothing, and every other step is divided between the two sides in proportion to its parts. So
the two sides of a cut have the area of the whole together, whatever the polygon. Cutting along the
fan of a convex polygon then shows that it has no more area than any convex polygon around it.
-/

namespace PainterScene

open Vec2

variable {h : HalfPlane ℚ}

namespace Polygon

/-! ### Sweeping along a boundary -/

/-- Twice the area that the way from `prev` through the vertices sweeps around `o`. -/
def sweep (o prev : Vec2 ℚ) : Polygon ℚ → ℚ
  | [] => 0
  | cur :: rest => turn o prev cur + sweep o cur rest

theorem sweep_append {o prev mid : Vec2 ℚ} {l₁ : Polygon ℚ}
    (hlast : (prev :: l₁).getLast? = some mid) (l₂ : Polygon ℚ) :
    sweep o prev (l₁ ++ l₂) = sweep o prev l₁ + sweep o mid l₂ := by
  induction l₁ generalizing prev with
  | nil =>
      obtain rfl : prev = mid := by simpa using hlast
      rw [List.nil_append, sweep, zero_add]
  | cons cur l₁ ih =>
      rw [List.getLast?_cons_cons] at hlast
      rw [List.cons_append, sweep, sweep, ih hlast, add_assoc]

theorem getLast?_cons_append {p mid : Vec2 ℚ} {l₁ : Polygon ℚ}
    (hmid : (p :: l₁).getLast? = some mid) (l₂ : Polygon ℚ) :
    (p :: (l₁ ++ l₂)).getLast? = (mid :: l₂).getLast? := by
  obtain ⟨init, hinit⟩ := List.getLast?_eq_some_iff.mp hmid
  rw [← List.cons_append, hinit, List.append_assoc, List.singleton_append,
    List.getLast?_append_of_ne_nil _ (List.cons_ne_nil mid l₂)]

theorem sweep_eq_sum (o prev : Vec2 ℚ) (poly : Polygon ℚ) :
    sweep o prev poly = ((walk prev poly).map fun s => turn o s.1 s.2).sum := by
  induction poly generalizing prev with
  | nil => rfl
  | cons cur poly ih => rw [sweep, ih, walk_cons, List.map_cons, List.sum_cons]

/-- Moving the centre changes the swept area by what the ends of the way give. -/
theorem sweep_move (o o' prev : Vec2 ℚ) {last : Vec2 ℚ} {poly : Polygon ℚ}
    (hlast : (prev :: poly).getLast? = some last) :
    sweep o prev poly = sweep o' prev poly + (o - o').cross (prev - last) := by
  induction poly generalizing prev with
  | nil =>
      obtain rfl : prev = last := by simpa using hlast
      simp [sweep, cross]
  | cons cur poly ih =>
      rw [List.getLast?_cons_cons] at hlast
      rw [sweep, sweep, ih cur hlast]
      simp only [turn_eq, cross, sub_x, sub_y]
      ring

theorem fan_cons_eq_sweep (p q : Vec2 ℚ) (rest : Polygon ℚ) :
    fan p (q :: rest) = sweep p q rest := by
  induction rest generalizing q with
  | nil => rfl
  | cons r rest ih => rw [fan, sweep, ih]

/-- The area of a polygon, swept around any point. -/
theorem two_mul_signedArea_eq_sweep {poly : Polygon ℚ} {last : Vec2 ℚ}
    (hlast : poly.getLast? = some last) (o : Vec2 ℚ) :
    2 * signedArea poly = sweep o last poly := by
  cases poly with
  | nil => cases hlast
  | cons p rest =>
      have hclosed : (last :: p :: rest).getLast? = some last := by
        rw [List.getLast?_cons_cons, hlast]
      have hfan : sweep p p rest = fan p rest := by
        cases rest with
        | nil => rfl
        | cons q rest => rw [sweep, turn_self_left, zero_add, fan_cons_eq_sweep]
      calc 2 * signedArea (p :: rest) = fan p rest := two_mul_signedArea p rest
        _ = turn p last p + sweep p p rest := by rw [turn_self_outer, zero_add, hfan]
        _ = sweep o last (p :: rest) := by
          rw [sweep_move o p last hclosed, sub_self, sweep]
          simp [cross]

/-! ### Merging equal vertices -/

theorem sweep_dropRepeats (o kept : Vec2 ℚ) (poly tail : Polygon ℚ) :
    sweep o kept (dropRepeats 0 kept poly ++ tail) = sweep o kept (poly ++ tail) := by
  induction poly generalizing kept with
  | nil => rfl
  | cons p rest ih =>
      rw [dropRepeats]
      split
      · rename_i hclose
        obtain rfl := distSq_le_zero_iff.mp hclose
        rw [ih, List.cons_append, sweep, turn_self_right, zero_add]
      · rw [List.cons_append, List.cons_append, sweep, sweep, ih]

theorem trimEnd_concat (tol : ℚ) (first p : Vec2 ℚ) (poly : Polygon ℚ) :
    trimEnd tol first (poly ++ [p]) =
      if tol * tol < first.distSq p then poly ++ [p] else trimEnd tol first poly := by
  rw [trimEnd, List.reverse_concat, List.dropWhile_cons]
  by_cases hfar : tol * tol < first.distSq p
  · simp [hfar]
  · simp [hfar, trimEnd]

theorem sweep_trimEnd (o prev first : Vec2 ℚ) (poly : Polygon ℚ) :
    sweep o prev (trimEnd 0 first poly ++ [first]) = sweep o prev (poly ++ [first]) := by
  induction poly using List.reverseRecOn with
  | nil => rfl
  | append_singleton poly p ih =>
      rw [trimEnd_concat]
      split
      · rfl
      · rename_i hclose
        obtain rfl := distSq_le_zero_iff.mp (not_lt.mp hclose)
        have hlast : (prev :: (poly ++ [first])).getLast? = some first :=
          getLast?_cons_concat prev first poly
        rw [ih, sweep_append hlast [first], sweep, sweep, turn_self_right, add_zero, add_zero]

theorem two_mul_signedArea_cons (o p : Vec2 ℚ) (rest : Polygon ℚ) :
    2 * signedArea (p :: rest) = sweep o p (rest ++ [p]) := by
  obtain ⟨last, hlast⟩ : ∃ last, (p :: rest).getLast? = some last :=
    ⟨_, List.getLast?_eq_some_getLast (by simp)⟩
  rw [two_mul_signedArea_eq_sweep hlast o, sweep_append hlast, sweep, sweep, sweep, add_zero,
    add_comm]

/-- Merging coincident vertices keeps the area. -/
theorem signedArea_merge_zero (poly : Polygon ℚ) : signedArea (merge 0 poly) = signedArea poly := by
  cases poly with
  | nil => rfl
  | cons p rest =>
      have hsweep : 2 * signedArea (merge 0 (p :: rest)) = 2 * signedArea (p :: rest) := by
        rw [merge, two_mul_signedArea_cons p, two_mul_signedArea_cons p, sweep_trimEnd,
          sweep_dropRepeats]
      linarith

/-- Different vertices are too far apart to be merged at `tol`. -/
def KeepsApart (tol : ℚ) (poly : Polygon ℚ) : Prop :=
  ∀ p ∈ poly, ∀ q ∈ poly, p.distSq q ≤ tol * tol → p = q

instance (tol : ℚ) (poly : Polygon ℚ) : Decidable (KeepsApart tol poly) :=
  inferInstanceAs (Decidable (∀ p ∈ poly, ∀ q ∈ poly, p.distSq q ≤ tol * tol → p = q))

theorem KeepsApart.mono {tol : ℚ} {poly poly' : Polygon ℚ} (hapart : KeepsApart tol poly)
    (hsub : poly' ⊆ poly) : KeepsApart tol poly' :=
  fun p hp q hq => hapart p (hsub hp) q (hsub hq)

theorem KeepsApart.distSq_le_iff {tol : ℚ} {poly : Polygon ℚ} (hapart : KeepsApart tol poly)
    {p q : Vec2 ℚ} (hp : p ∈ poly) (hq : q ∈ poly) :
    p.distSq q ≤ tol * tol ↔ p.distSq q ≤ 0 * 0 := by
  rw [distSq_le_zero_iff]
  refine ⟨hapart p hp q hq, fun heq => ?_⟩
  exact (distSq_le_zero_iff.mpr heq).trans (by simpa using mul_self_nonneg tol)

theorem KeepsApart.dropRepeats_eq {tol : ℚ} {kept : Vec2 ℚ} {poly : Polygon ℚ}
    (hapart : KeepsApart tol (kept :: poly)) :
    dropRepeats tol kept poly = dropRepeats 0 kept poly := by
  induction poly generalizing kept with
  | nil => rfl
  | cons p rest ih =>
      have hclose := hapart.distSq_le_iff (p := kept) (q := p) List.mem_cons_self (by simp)
      have hskip : KeepsApart tol (kept :: rest) :=
        hapart.mono (List.cons_subset_cons kept (List.subset_cons_self p rest))
      rw [dropRepeats, dropRepeats, ih hskip, ih (hapart.mono (List.subset_cons_self kept _))]
      simp only [hclose]

theorem KeepsApart.trimEnd_eq {tol : ℚ} {first : Vec2 ℚ} {poly : Polygon ℚ}
    (hapart : KeepsApart tol (first :: poly)) : trimEnd tol first poly = trimEnd 0 first poly := by
  induction poly using List.reverseRecOn with
  | nil => rfl
  | append_singleton poly p ih =>
      have hclose := hapart.distSq_le_iff (p := first) (q := p) List.mem_cons_self (by simp)
      have hskip : KeepsApart tol (first :: poly) :=
        hapart.mono (List.cons_subset_cons first (List.subset_append_left poly [p]))
      rw [trimEnd_concat, trimEnd_concat, ih hskip]
      simp only [← not_le, hclose]

/-- A tolerance that keeps different vertices apart merges as the tolerance 0 does. -/
theorem KeepsApart.merge_eq {tol : ℚ} {poly : Polygon ℚ} (hapart : KeepsApart tol poly) :
    merge tol poly = merge 0 poly := by
  cases poly with
  | nil => rfl
  | cons p rest =>
      have hkept : KeepsApart tol (p :: dropRepeats 0 p rest) :=
        hapart.mono (List.cons_subset_cons p (dropRepeats_sublist 0 p rest).subset)
      rw [merge, merge, hapart.dropRepeats_eq, hkept.trimEnd_eq]

end Polygon

/-! ### The two sides of a line -/

namespace HalfPlane

/-- The part of the way from `a` to `b` that is inside, as a share of the whole way; 0 for a way
along the line. -/
def share (h : HalfPlane ℚ) (a b : Vec2 ℚ) : ℚ :=
  (max (h.eval a) 0 + max (h.eval b) 0) / (|h.eval a| + |h.eval b|)

theorem share_add_share_flip {a b : Vec2 ℚ} (hline : ¬ (h.eval a = 0 ∧ h.eval b = 0)) :
    h.share a b + h.flip.share a b = 1 := by
  have hpos : 0 < |h.eval a| + |h.eval b| := by
    rw [not_and_or] at hline
    obtain ha | hb := hline
    · exact add_pos_of_pos_of_nonneg (abs_pos.mpr ha) (abs_nonneg _)
    · exact add_pos_of_nonneg_of_pos (abs_nonneg _) (abs_pos.mpr hb)
  calc h.share a b + h.flip.share a b
      = ((max (h.eval a) 0 + max (-h.eval a) 0) + (max (h.eval b) 0 + max (-h.eval b) 0)) /
          (|h.eval a| + |h.eval b|) := by
        rw [share, share, eval_flip, eval_flip, abs_neg, abs_neg, ← add_div]
        ring
    _ = 1 := by
        rw [max_zero_add_max_neg_zero_eq_abs_self, max_zero_add_max_neg_zero_eq_abs_self,
          div_self hpos.ne']

theorem normal_flip_ne (hnormal : h.normal ≠ 0) : h.flip.normal ≠ 0 := by
  intro hzero
  apply hnormal
  have hscaled : (-1 : ℚ) • h.normal = 0 := hzero
  simpa using hscaled

theorem normal_ne_of_eval_ne {a b : Vec2 ℚ} (hne : h.eval a ≠ h.eval b) : h.normal ≠ 0 := by
  intro hzero
  apply hne
  rw [eval_eq, eval_eq, hzero]
  simp

theorem share_entering {a b : Vec2 ℚ} (ha : h.eval a < 0) (hb : 0 ≤ h.eval b) :
    h.share a b = 1 - h.crossing a b := by
  have hden : h.eval a - h.eval b ≠ 0 := by linarith
  have hden' : -h.eval a + h.eval b ≠ 0 := by linarith
  rw [share, crossing, max_eq_right ha.le, max_eq_left hb, abs_of_neg ha, abs_of_nonneg hb]
  field_simp
  ring

theorem share_leaving {a b : Vec2 ℚ} (ha : 0 ≤ h.eval a) (hb : h.eval b < 0) :
    h.share a b = h.crossing a b := by
  rw [share, crossing, max_eq_left ha, max_eq_right hb.le, abs_of_nonneg ha, abs_of_neg hb,
    add_zero, sub_eq_add_neg]

theorem share_outside {a b : Vec2 ℚ} (ha : h.eval a < 0) (hb : h.eval b < 0) : h.share a b = 0 := by
  rw [share, max_eq_right ha.le, max_eq_right hb.le, add_zero, zero_div]

theorem normal_sq_pos (hnormal : h.normal ≠ 0) : 0 < h.normal.x ^ 2 + h.normal.y ^ 2 := by
  by_contra hle
  apply hnormal
  ext
  · change h.normal.x = 0
    nlinarith [sq_nonneg h.normal.x, sq_nonneg h.normal.y]
  · change h.normal.y = 0
    nlinarith [sq_nonneg h.normal.x, sq_nonneg h.normal.y]

theorem exists_eval_eq_zero (hnormal : h.normal ≠ 0) : ∃ o, h.eval o = 0 := by
  have hpos := normal_sq_pos hnormal
  refine ⟨(-h.offset / (h.normal.x ^ 2 + h.normal.y ^ 2)) • h.normal, ?_⟩
  rw [eval_eq, smul_x, smul_y]
  field_simp
  ring

/-- No three points of a line turn. -/
theorem turn_eq_zero_of_eval {a b c : Vec2 ℚ} (hnormal : h.normal ≠ 0) (ha : h.eval a = 0)
    (hb : h.eval b = 0) (hc : h.eval c = 0) : turn a b c = 0 := by
  simp only [eval_eq] at ha hb hc
  by_cases hx : h.normal.x = 0
  · have hy : h.normal.y ≠ 0 := fun hy => hnormal (Vec2.ext hx hy)
    apply mul_left_cancel₀ hy
    rw [turn_eq]
    linear_combination (b.x - a.x) * (hc - ha) - (c.x - a.x) * (hb - ha)
  · apply mul_left_cancel₀ hx
    rw [turn_eq]
    linear_combination (c.y - a.y) * (hb - ha) - (b.y - a.y) * (hc - ha)

theorem share_inside_mul_turn (hnormal : h.normal ≠ 0) {o a b : Vec2 ℚ} (ho : h.eval o = 0)
    (ha : 0 ≤ h.eval a) (hb : 0 ≤ h.eval b) : h.share a b * turn o a b = turn o a b := by
  by_cases hline : h.eval a + h.eval b = 0
  · have ha' : h.eval a = 0 := by linarith
    have hb' : h.eval b = 0 := by linarith
    rw [turn_eq_zero_of_eval hnormal ho ha' hb', mul_zero]
  · rw [share, max_eq_left ha, max_eq_left hb, abs_of_nonneg ha, abs_of_nonneg hb, div_self hline,
      one_mul]

theorem turn_meet_right (h : HalfPlane ℚ) (o a b : Vec2 ℚ) :
    turn o a (h.meet a b) = h.crossing a b * turn o a b := by
  rw [meet, lerp_eq]
  simp only [turn_eq, add_x, add_y, smul_x, smul_y]
  ring

theorem turn_meet_left (h : HalfPlane ℚ) (o a b : Vec2 ℚ) :
    turn o (h.meet a b) b = (1 - h.crossing a b) * turn o a b := by
  rw [meet, lerp_eq]
  simp only [turn_eq, add_x, add_y, smul_x, smul_y]
  ring

/-- `e` is where the clipped boundary has got to when the boundary itself is at `p`. -/
def Trails (h : HalfPlane ℚ) (p e : Vec2 ℚ) : Prop :=
  if h.contains p then e = p else h.eval e = 0

theorem exists_trails (hnormal : h.normal ≠ 0) (p : Vec2 ℚ) : ∃ e, h.Trails p e := by
  unfold Trails
  split
  · exact ⟨p, rfl⟩
  · exact exists_eval_eq_zero hnormal

end HalfPlane

namespace Polygon

/-- One step of the clipped boundary sweeps the share of the step that is inside. -/
theorem sweep_clipStep (hnormal : h.normal ≠ 0) {o prev e : Vec2 ℚ} (ho : h.eval o = 0)
    (he : h.Trails prev e) (cur : Vec2 ℚ) :
    sweep o e (clipStep h prev cur) = h.share prev cur * turn o prev cur ∧
      ∃ e', (e :: clipStep h prev cur).getLast? = some e' ∧ h.Trails cur e' := by
  unfold HalfPlane.Trails at he ⊢
  cases hprev : h.contains prev <;> cases hcur : h.contains cur <;>
    simp only [hprev, hcur, clipStep, if_true, Bool.false_eq_true, if_false, sweep, add_zero]
      at he ⊢
  · have hout := HalfPlane.share_outside (HalfPlane.contains_eq_false_iff.mp hprev)
      (HalfPlane.contains_eq_false_iff.mp hcur)
    exact ⟨by rw [hout, zero_mul], e, rfl, he⟩
  · have hne : h.eval prev ≠ h.eval cur := by
      exact HalfPlane.eval_ne_of_contains_ne (by simp [hprev, hcur])
    have hline := HalfPlane.turn_eq_zero_of_eval hnormal ho he (HalfPlane.eval_meet hne)
    have hshare := HalfPlane.share_entering (HalfPlane.contains_eq_false_iff.mp hprev)
      (HalfPlane.contains_iff.mp hcur)
    refine ⟨?_, cur, rfl, rfl⟩
    change turn o e (h.meet prev cur) + turn o (h.meet prev cur) cur = _
    rw [hline, zero_add, HalfPlane.turn_meet_left, hshare]
  · have hne : h.eval prev ≠ h.eval cur := by
      exact HalfPlane.eval_ne_of_contains_ne (by simp [hprev, hcur])
    have hshare := HalfPlane.share_leaving (HalfPlane.contains_iff.mp hprev)
      (HalfPlane.contains_eq_false_iff.mp hcur)
    refine ⟨?_, h.meet prev cur, rfl, HalfPlane.eval_meet hne⟩
    rw [he, hshare]
    exact HalfPlane.turn_meet_right h o prev cur
  · refine ⟨?_, cur, rfl, rfl⟩
    rw [he, HalfPlane.share_inside_mul_turn hnormal ho (HalfPlane.contains_iff.mp hprev)
      (HalfPlane.contains_iff.mp hcur)]

/-- Seen from a point of the boundary line, each step adds the share of it that is inside. -/
theorem sweep_clipWalk (hnormal : h.normal ≠ 0) {o prev e : Vec2 ℚ} (ho : h.eval o = 0)
    (he : h.Trails prev e) (poly : Polygon ℚ) :
    sweep o e (clipWalk h prev poly) =
        ((walk prev poly).map fun s => h.share s.1 s.2 * turn o s.1 s.2).sum ∧
      ∃ e', (e :: clipWalk h prev poly).getLast? = some e' ∧
        ∀ last, (prev :: poly).getLast? = some last → h.Trails last e' := by
  induction poly generalizing prev e with
  | nil => exact ⟨rfl, e, rfl, fun last hlast => by cases hlast; exact he⟩
  | cons cur poly ih =>
      obtain ⟨hstep, mid, hmid, htrails⟩ := sweep_clipStep hnormal ho he cur
      obtain ⟨hrest, e', he', hlast⟩ := ih htrails
      rw [clipWalk_cons, walk_cons, List.map_cons, List.sum_cons]
      refine ⟨?_, e', ?_, fun last h => hlast last h⟩
      · rw [sweep_append hmid, hstep, hrest]
      · rw [getLast?_cons_append hmid, he']

/-- The clipped area, step by step along the boundary. -/
theorem two_mul_signedArea_clip (hnormal : h.normal ≠ 0) {o last : Vec2 ℚ} (ho : h.eval o = 0)
    {poly : Polygon ℚ} (hlast : poly.getLast? = some last) :
    2 * signedArea (poly.clip 0 h) =
      ((walk last poly).map fun s => h.share s.1 s.2 * turn o s.1 s.2).sum := by
  have hclosed : (last :: poly).getLast? = some last := by
    rw [List.getLast?_cons, hlast, Option.getD_some]
  obtain ⟨start, hstart⟩ := HalfPlane.exists_trails hnormal last
  obtain ⟨hsum, e, he, htrails⟩ := sweep_clipWalk hnormal ho hstart poly
  rw [clip_eq_merge hlast, signedArea_merge_zero]
  by_cases hempty : clipWalk h last poly = []
  · rw [← hsum, hempty]
    simp [signedArea, sweep]
  · -- the clipped boundary is closed, so its own last point trails the last vertex
    have hend : (clipWalk h last poly).getLast? = some e := by
      rwa [List.getLast?_cons_of_ne_nil hempty] at he
    rw [two_mul_signedArea_eq_sweep hend o]
    exact (sweep_clipWalk hnormal ho (htrails last hclosed) poly).1

/-- **Cutting keeps the area.** The two sides of a line have the signed area of the whole together,
for every closed boundary. -/
theorem signedArea_clip_add_flip (hnormal : h.normal ≠ 0) (poly : Polygon ℚ) :
    signedArea (poly.clip 0 h) + signedArea (poly.clip 0 h.flip) = signedArea poly := by
  cases hlast : poly.getLast? with
  | none =>
      obtain rfl := List.getLast?_eq_none_iff.mp hlast
      simp [clip, steps, merge, signedArea]
  | some last =>
      obtain ⟨o, ho⟩ := HalfPlane.exists_eval_eq_zero hnormal
      have ho' : h.flip.eval o = 0 := by rw [HalfPlane.eval_flip, ho, neg_zero]
      have hstep : ∀ s : Vec2 ℚ × Vec2 ℚ, h.share s.1 s.2 * turn o s.1 s.2 +
          h.flip.share s.1 s.2 * turn o s.1 s.2 = turn o s.1 s.2 := by
        intro s
        by_cases hline : h.eval s.1 = 0 ∧ h.eval s.2 = 0
        · rw [HalfPlane.turn_eq_zero_of_eval hnormal ho hline.1 hline.2]
          ring
        · rw [← add_mul, HalfPlane.share_add_share_flip hline, one_mul]
      have htwice : 2 * signedArea (poly.clip 0 h) + 2 * signedArea (poly.clip 0 h.flip) =
          2 * signedArea poly :=
        calc 2 * signedArea (poly.clip 0 h) + 2 * signedArea (poly.clip 0 h.flip)
            = ((walk last poly).map fun s => turn o s.1 s.2).sum := by
              rw [two_mul_signedArea_clip hnormal ho hlast,
                two_mul_signedArea_clip (HalfPlane.normal_flip_ne hnormal) ho' hlast,
                ← List.sum_map_add]
              simp only [hstep]
          _ = 2 * signedArea poly := by
              rw [two_mul_signedArea_eq_sweep hlast o, sweep_eq_sum]
      linarith

def cutBoundary (h : HalfPlane ℚ) (poly : Polygon ℚ) : Polygon ℚ :=
  poly.steps.flatMap fun step => clipStep h step.1 step.2

/-- **Both sides of a cut have the area of the whole together,** whatever the polygon: not convex,
wound either way, and with vertices on the line. The vertices may be merged at 0 or at any tolerance
that merges equal vertices only. -/
theorem signedArea_sides (h : HalfPlane ℚ) (hnormal : h.normal ≠ 0) (poly : Polygon ℚ) :
    signedArea (poly.clip 0 h) + signedArea (poly.clip 0 h.flip) = signedArea poly ∧
      ∀ tol, KeepsApart tol (cutBoundary h poly) → KeepsApart tol (cutBoundary h.flip poly) →
        signedArea (poly.clip tol h) + signedArea (poly.clip tol h.flip) = signedArea poly := by
  refine ⟨signedArea_clip_add_flip hnormal poly, fun tol hapart hapart' => ?_⟩
  have hside : poly.clip tol h = poly.clip 0 h := hapart.merge_eq
  have hside' : poly.clip tol h.flip = poly.clip 0 h.flip := hapart'.merge_eq
  rw [hside, hside', signedArea_clip_add_flip hnormal poly]

/-- A clockwise boundary with a notch across the first axis and two vertices on it. -/
def sawtooth : Polygon ℚ :=
  [⟨0, 0⟩, ⟨1, 2⟩, ⟨2, -1⟩, ⟨3, 2⟩, ⟨5, 0⟩, ⟨6, -2⟩, ⟨3, -3⟩]

theorem signedArea_sides_sawtooth :
    let upper : HalfPlane ℚ := ⟨⟨0, 1⟩, 0⟩
    upper.normal ≠ 0 ∧ KeepsApart (1 / 1000) (cutBoundary upper sawtooth) ∧
      KeepsApart (1 / 1000) (cutBoundary upper.flip sawtooth) ∧
      signedArea sawtooth = -15 ∧ signedArea (sawtooth.clip (1 / 1000) upper) = -13 / 3 ∧
      signedArea (sawtooth.clip (1 / 1000) upper.flip) = -32 / 3 := by
  intro upper
  have hnormal : upper.normal ≠ 0 := by decide
  have hapart : KeepsApart (1 / 1000) (cutBoundary upper sawtooth) := by decide +kernel
  have hapart' : KeepsApart (1 / 1000) (cutBoundary upper.flip sawtooth) := by decide +kernel
  have hwhole : signedArea sawtooth = -15 := by decide +kernel
  have hupper : signedArea (sawtooth.clip (1 / 1000) upper) = -13 / 3 := by decide +kernel
  have hsides := (signedArea_sides upper hnormal sawtooth).2 (1 / 1000) hapart hapart'
  exact ⟨hnormal, hapart, hapart', hwhole, hupper, by linarith⟩

/-! ### Area and region of convex polygons -/

theorem area_nonneg (poly : Polygon ℚ) : 0 ≤ poly.area := by
  rw [area, Scalar.abs_eq]
  exact abs_nonneg _

/-- A line divides the area of a convex polygon. -/
theorem area_clip_add_flip {poly : Polygon ℚ} (hconvex : IsConvex poly) (hnormal : h.normal ≠ 0) :
    (poly.clip 0 h).area + (poly.clip 0 h.flip).area = poly.area := by
  rw [area_eq_signedArea (hconvex.clip 0 h), area_eq_signedArea (hconvex.clip 0 h.flip),
    area_eq_signedArea hconvex]
  exact signedArea_clip_add_flip hnormal poly

section Ear

variable {p q r : Vec2 ℚ} {rest : Polygon ℚ}

/-! The line from the first vertex to the third has the triangle of the first three on its right,
and the other vertices on its left. -/

theorem eval_ear_nonpos (hconvex : IsConvex (p :: q :: r :: rest)) :
    ∀ v ∈ [p, q, r], (HalfPlane.leftOf p r).eval v ≤ 0 := by
  intro v hv
  rw [HalfPlane.eval_leftOf]
  exact turn_nonpos_of_mem_mid (show IsConvex ([] ++ p :: ([q] ++ r :: rest)) from hconvex) v hv

theorem eval_ear_nonneg (hconvex : IsConvex (p :: q :: r :: rest)) :
    ∀ v ∈ p :: r :: rest, 0 ≤ (HalfPlane.leftOf p r).eval v := by
  intro v hv
  rw [HalfPlane.eval_leftOf]
  exact turn_nonneg_of_mem_outer (show IsConvex ([] ++ p :: ([q] ++ r :: rest)) from hconvex) v hv

theorem normal_ear_ne (hturn : turn p q r ≠ 0) : (HalfPlane.leftOf p r).normal ≠ 0 := by
  apply HalfPlane.normal_ne_of_eval_ne (a := p) (b := q)
  rw [HalfPlane.eval_leftOf, HalfPlane.eval_leftOf, turn_self_outer, turn_swap_right]
  exact (neg_ne_zero.mpr hturn).symm

theorem IsConvex.withoutEar (hconvex : IsConvex (p :: q :: r :: rest)) :
    IsConvex (p :: r :: rest) :=
  hconvex.sublist ((List.sublist_cons_self q _).cons_cons p)

end Ear

/-- A convex polygon inside another one is not larger. The induction takes one ear off after the
other. -/
theorem fan_le_of_subset {p : Vec2 ℚ} {l : Polygon ℚ} (hconvex : IsConvex (p :: l))
    {outer : Polygon ℚ} (houter : IsConvex outer) (hsub : ∀ v ∈ p :: l, v ∈ outer.region) :
    fan p l ≤ 2 * signedArea outer := by
  induction l generalizing outer with
  | nil => linarith [signedArea_nonneg houter, show fan p [] = 0 from rfl]
  | cons q l ih =>
      cases l with
      | nil => linarith [signedArea_nonneg houter, show fan p [q] = 0 from rfl]
      | cons r rest =>
          have hsub' : ∀ v ∈ p :: r :: rest, v ∈ outer.region :=
            fun v hv => hsub v (((List.sublist_cons_self q _).cons_cons p).subset hv)
          rw [fan]
          by_cases hsliver : turn p q r = 0
          · rw [hsliver, zero_add]
            exact ih hconvex.withoutEar houter hsub'
          -- the outer polygon is divided between the first triangle and the others
          · have hfirst : turn p q r ≤
                2 * signedArea (outer.clip 0 (HalfPlane.leftOf p r).flip) := by
              have hmem : ∀ v ∈ [p, q, r],
                  v ∈ region (outer.clip 0 (HalfPlane.leftOf p r).flip) := by
                intro v hv
                rw [region_clip houter]
                refine ⟨hsub v ?_, ?_⟩
                · exact (List.prefix_append [p, q, r] rest).subset hv
                · change 0 ≤ (HalfPlane.leftOf p r).flip.eval v
                  rw [HalfPlane.eval_flip, neg_nonneg]
                  exact eval_ear_nonpos hconvex v hv
              exact turn_le_of_isConvex (houter.clip 0 _) (hmem p (by simp)) (hmem q (by simp))
                (hmem r (by simp))
            have hrest : fan p (r :: rest) ≤
                2 * signedArea (outer.clip 0 (HalfPlane.leftOf p r)) := by
              refine ih hconvex.withoutEar (houter.clip 0 _) fun v hv => ?_
              rw [region_clip houter]
              exact ⟨hsub' v hv, eval_ear_nonneg hconvex v hv⟩
            have hparts := signedArea_clip_add_flip (normal_ear_ne hsliver) outer
            linarith

/-- Of two convex polygons the one inside the other has no more area. -/
theorem area_mono {inner outer : Polygon ℚ} (hinner : IsConvex inner) (houter : IsConvex outer)
    (hsub : inner.region ⊆ outer.region) : inner.area ≤ outer.area := by
  rw [area_eq_signedArea hinner, area_eq_signedArea houter]
  cases inner with
  | nil => exact signedArea_nonneg houter
  | cons p rest =>
      have hfan := fan_le_of_subset hinner houter fun v hv => hsub (mem_region hv)
      rw [← two_mul_signedArea] at hfan
      linarith

theorem area_eq_of_region_eq {poly poly' : Polygon ℚ} (hconvex : IsConvex poly)
    (hconvex' : IsConvex poly') (hregion : poly.region = poly'.region) : poly.area = poly'.area :=
  le_antisymm (area_mono hconvex hconvex' hregion.subset)
    (area_mono hconvex' hconvex hregion.superset)

/-- A triangle that has the area of a convex polygon around it fills the polygon. -/
theorem region_triangle_eq {a b c : Vec2 ℚ} (hturn : 0 < turn a b c) {outer : Polygon ℚ}
    (houter : IsConvex outer) (hsub : region [a, b, c] ⊆ outer.region)
    (harea : outer.area ≤ area [a, b, c]) : region [a, b, c] = outer.region := by
  apply Set.Subset.antisymm hsub
  intro x hx
  rw [← inner_triangle hturn]
  intro h hh
  by_contra hout
  rw [not_le] at hout
  have hinside : ∀ y ∈ region [a, b, c], 0 ≤ h.eval y := by
    intro y hy
    rw [← inner_triangle hturn] at hy
    exact hy h hh
  have hpos : 0 < area [a, b, c] := by
    have htwice := area_triangle a b c
    rw [abs_of_pos hturn] at htwice
    linarith
  have hnormal : h.normal ≠ 0 := by
    apply HalfPlane.normal_ne_of_eval_ne (a := x) (b := a)
    linarith [hinside a (mem_region List.mem_cons_self)]
  have hle : area [a, b, c] ≤ (outer.clip 0 h).area := by
    apply area_mono (isConvex_triangle hturn.le) (houter.clip 0 h)
    rw [region_clip houter]
    exact fun y hy => ⟨hsub hy, hinside y hy⟩
  have hcut : 0 < (outer.clip 0 h.flip).area := by
    have hwhole := area_mono (isConvex_triangle hturn.le) houter hsub
    refine area_clip_pos houter (by linarith) hx ?_
    rw [HalfPlane.eval_flip]
    linarith
  linarith [area_clip_add_flip houter hnormal]

end Polygon

end PainterScene
