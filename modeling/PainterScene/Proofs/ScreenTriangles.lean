import Mathlib
import PainterScene.Proofs.Clipping

/-!
# Triangles over the screen

With exact arithmetic the footprint of a triangle runs counter-clockwise around some area, and the
depth plane is the one affine function that takes the depths of the corners. A piece gets its depths
from the plane of its parent, so as long as it has an area its own plane is the same one, however
often it has been cut.
-/

namespace PainterScene

open Vec2

/-- An affine function is determined by its values at three points that are not on a line. -/
theorem HalfPlane.eq_of_eval_eq {g h : HalfPlane ℚ} {a b c : Vec2 ℚ} (hturn : turn a b c ≠ 0)
    (ha : g.eval a = h.eval a) (hb : g.eval b = h.eval b) (hc : g.eval c = h.eval c) : g = h := by
  simp only [eval_eq] at ha hb hc
  have hx : g.normal.x = h.normal.x := by
    refine mul_right_cancel₀ hturn ?_
    rw [turn_eq]
    linear_combination (c.y - a.y) * (hb - ha) - (b.y - a.y) * (hc - ha)
  have hy : g.normal.y = h.normal.y := by
    refine mul_right_cancel₀ hturn ?_
    rw [turn_eq]
    linear_combination (b.x - a.x) * (hc - ha) - (c.x - a.x) * (hb - ha)
  have hoffset : g.offset = h.offset := by
    rw [hx, hy] at ha
    linarith
  exact HalfPlane.ext (Vec2.ext hx hy) hoffset

def Fragment.region (f : Fragment ℚ) : Set (Vec2 ℚ) :=
  Polygon.region f.screenPoints

/-- The corners of a fragment have the depths that the affine function gives them. -/
def Fragment.OnPlane (plane : HalfPlane ℚ) (f : Fragment ℚ) : Prop :=
  ∀ v ∈ f.vertices.toList, v.depth = plane.eval v.screen

namespace ScreenTriangle

variable {f : Fragment ℚ} {t : ScreenTriangle ℚ}

theorem inverse_eq (ht : ofFragment? f = some t) :
    t.inverse =
      1 / turn f.vertices.first.screen f.vertices.second.screen f.vertices.third.screen := by
  obtain ⟨-, -, -, hedge1, hedge2, hinverse, -⟩ := ofFragment?_eq_some ht
  rw [hinverse, hedge1, hedge2, turn]

theorem turn_ne_zero (ht : ofFragment? f = some t) :
    turn f.vertices.first.screen f.vertices.second.screen f.vertices.third.screen ≠ 0 := by
  obtain ⟨-, -, -, hedge1, hedge2, -, hden⟩ := ofFragment?_eq_some ht
  intro hzero
  apply hden
  rw [hedge1, hedge2, ← turn, hzero, Scalar.abs_eq, abs_zero]
  exact Scalar.epsilon_pos.le

/-- The footprint has the corners of the fragment, in the order that turns left. -/
theorem footprint_cases (ht : ofFragment? f = some t) :
    (t.footprint =
        [f.vertices.first.screen, f.vertices.second.screen, f.vertices.third.screen] ∧
      0 < turn f.vertices.first.screen f.vertices.second.screen f.vertices.third.screen) ∨
    (t.footprint =
        [f.vertices.first.screen, f.vertices.third.screen, f.vertices.second.screen] ∧
      0 < turn f.vertices.first.screen f.vertices.third.screen f.vertices.second.screen) := by
  have hfootprint : t.footprint = if 0 < t.inverse then _ else _ := rfl
  rw [fragment_of_ofFragment? ht, inverse_eq ht, one_div] at hfootprint
  obtain hneg | hpos := lt_or_gt_of_ne (turn_ne_zero ht)
  · refine Or.inr ⟨?_, ?_⟩
    · rwa [if_neg (not_lt.mpr (inv_nonpos.mpr hneg.le))] at hfootprint
    · rw [turn_swap_right]
      linarith
  · refine Or.inl ⟨?_, hpos⟩
    rwa [if_pos (inv_pos.mpr hpos)] at hfootprint

theorem screenPoints_eq (hkind : f.kind = .triangle) :
    f.screenPoints = f.vertices.toList.map Vertex.screen := by
  simp [Fragment.screenPoints, Fragment.controlPoints, hkind, Kind.pointCount, Triple.toList]

theorem screen_mem_region (hkind : f.kind = .triangle) {v : Vertex ℚ}
    (hv : v ∈ f.vertices.toList) : v.screen ∈ f.region := by
  refine Polygon.mem_region ?_
  rw [screenPoints_eq hkind]
  exact List.mem_map_of_mem hv

theorem region_footprint (ht : ofFragment? f = some t) : t.footprint.region = f.region := by
  have hmem : ∀ v, v ∈ t.footprint ↔ v ∈ f.screenPoints := by
    intro v
    rw [screenPoints_eq (kind_of_ofFragment? ht)]
    obtain ⟨hfootprint, -⟩ | ⟨hfootprint, -⟩ := footprint_cases ht
    · simp [hfootprint, Triple.toList]
    · simp only [hfootprint, Triple.toList, List.map_cons, List.map_nil, List.mem_cons]
      tauto
  exact congrArg (convexHull ℚ) (Set.ext hmem)

theorem isConvex_footprint (ht : ofFragment? f = some t) : t.footprint.IsConvex := by
  obtain ⟨hfootprint, hturn⟩ | ⟨hfootprint, hturn⟩ := footprint_cases ht
  · exact hfootprint ▸ Polygon.isConvex_triangle hturn.le
  · exact hfootprint ▸ Polygon.isConvex_triangle hturn.le

/-- A triangle covers what lies on the left of its sides. -/
theorem inner_footprint (ht : ofFragment? f = some t) : t.footprint.inner = f.region := by
  rw [← region_footprint ht]
  obtain ⟨hfootprint, hturn⟩ | ⟨hfootprint, hturn⟩ := footprint_cases ht
  · rw [hfootprint, Polygon.inner_triangle hturn]
  · rw [hfootprint, Polygon.inner_triangle hturn]

theorem area_footprint_pos (ht : ofFragment? f = some t) : 0 < t.footprint.area := by
  have hmem : ∀ v ∈ f.vertices.toList, v.screen ∈ t.footprint.region := by
    intro v hv
    rw [region_footprint ht]
    exact screen_mem_region (kind_of_ofFragment? ht) hv
  exact Polygon.area_pos_of_turn_ne_zero (isConvex_footprint ht)
    (hmem f.vertices.first (by simp [Triple.toList]))
    (hmem f.vertices.second (by simp [Triple.toList]))
    (hmem f.vertices.third (by simp [Triple.toList])) (turn_ne_zero ht)

/-! ### Depths -/

/-- A vertex of a piece has the depth of the plane. -/
theorem vertexAt_depth (t : ScreenTriangle ℚ) (q : Vec2 ℚ) :
    (t.vertexAt q).depth = t.depthPlane.eval q := by
  have hdepth : (t.vertexAt q).depth =
      (Vec3.blend (t.fragment.vertices.map Vertex.projected) (t.weights q)).z := by
    unfold vertexAt
    simp only
    split <;> rfl
  have hblend : (Vec3.blend (t.fragment.vertices.map Vertex.projected) (t.weights q)).z =
      t.fragment.vertices.first.depth * (t.weights q).first +
        t.fragment.vertices.second.depth * (t.weights q).second +
        t.fragment.vertices.third.depth * (t.weights q).third := rfl
  rw [hdepth, hblend]
  simp only [weights, depthPlane, HalfPlane.eval_eq, scale, cross, dot, add_x, add_y, sub_x, sub_y]
  ring

/-- The plane has the depths of the corners. -/
theorem eval_depthPlane (ht : ofFragment? f = some t) {v : Vertex ℚ}
    (hv : v ∈ f.vertices.toList) : t.depthPlane.eval v.screen = v.depth := by
  have hcancel : t.inverse *
      turn f.vertices.first.screen f.vertices.second.screen f.vertices.third.screen = 1 := by
    rw [inverse_eq ht, one_div, inv_mul_cancel₀ (turn_ne_zero ht)]
  obtain ⟨-, rfl, horigin, hedge1, hedge2, -, -⟩ := ofFragment?_eq_some ht
  have hrise : ∀ q, t.depthPlane.eval q = t.fragment.vertices.first.depth +
      (t.depthPlane.eval q - t.depthPlane.eval t.fragment.vertices.first.screen) := by
    intro q
    simp only [depthPlane, HalfPlane.eval_eq, horigin, dot]
    ring
  rw [turn_eq] at hcancel
  rw [Triple.toList, List.mem_cons, List.mem_pair] at hv
  rw [hrise]
  simp only [depthPlane, HalfPlane.eval_eq, hedge1, hedge2, scale, add_x, add_y, sub_x, sub_y]
  obtain rfl | rfl | rfl := hv
  · ring
  · linear_combination
      (t.fragment.vertices.second.depth - t.fragment.vertices.first.depth) * hcancel
  · linear_combination
      (t.fragment.vertices.third.depth - t.fragment.vertices.first.depth) * hcancel

theorem onPlane_self (ht : ofFragment? f = some t) : f.OnPlane t.depthPlane :=
  fun _ hv => (eval_depthPlane ht hv).symm

/-- A triangle with an area lies on one plane only. -/
theorem depthPlane_eq_of_onPlane {plane : HalfPlane ℚ} (ht : ofFragment? f = some t)
    (hplane : f.OnPlane plane) : t.depthPlane = plane := by
  have hagree : ∀ v ∈ f.vertices.toList, t.depthPlane.eval v.screen = plane.eval v.screen :=
    fun v hv => (eval_depthPlane ht hv).trans (hplane v hv)
  exact HalfPlane.eq_of_eval_eq (turn_ne_zero ht) (hagree _ (by simp [Triple.toList]))
    (hagree _ (by simp [Triple.toList])) (hagree _ (by simp [Triple.toList]))

theorem exists_vertex_eval_eq (ht : ofFragment? f = some t) {q : Vec2 ℚ}
    (hq : q ∈ f.screenPoints) : ∃ v ∈ f.vertices.toList, t.depthPlane.eval q = v.depth := by
  rw [screenPoints_eq (kind_of_ofFragment? ht), List.mem_map] at hq
  obtain ⟨v, hv, rfl⟩ := hq
  exact ⟨v, hv, eval_depthPlane ht hv⟩

theorem depth_mem_range (hkind : f.kind = .triangle) {v : Vertex ℚ}
    (hv : v ∈ f.vertices.toList) : f.minDepth ≤ v.depth ∧ v.depth ≤ f.maxDepth := by
  rw [Triple.toList, List.mem_cons, List.mem_pair] at hv
  simp only [Fragment.minDepth, Fragment.maxDepth, hkind, Scalar.min_eq, Scalar.max_eq]
  obtain rfl | rfl | rfl := hv <;> simp

/-- The plane stays above the least depth over what the triangle covers. -/
theorem minDepth_le_eval (ht : ofFragment? f = some t) {x : Vec2 ℚ} (hx : x ∈ f.region) :
    f.minDepth ≤ t.depthPlane.eval x := by
  refine HalfPlane.le_eval_of_mem_hull (fun q hq => ?_) hx
  obtain ⟨v, hv, heval⟩ := exists_vertex_eval_eq ht hq
  rw [heval]
  exact (depth_mem_range (kind_of_ofFragment? ht) hv).1

theorem eval_le_maxDepth (ht : ofFragment? f = some t) {x : Vec2 ℚ} (hx : x ∈ f.region) :
    t.depthPlane.eval x ≤ f.maxDepth := by
  refine HalfPlane.eval_le_of_mem_hull (fun q hq => ?_) hx
  obtain ⟨v, hv, heval⟩ := exists_vertex_eval_eq ht hq
  rw [heval]
  exact (depth_mem_range (kind_of_ofFragment? ht) hv).2

/-! ### Pieces -/

theorem screenPoints_piece (ht : ofFragment? f = some t) (corners : Triple (Vec2 ℚ)) :
    (t.piece corners).screenPoints = corners.toList := by
  have hpiece : (t.piece corners).kind = .triangle := by
    change t.fragment.kind = .triangle
    rw [fragment_of_ofFragment? ht]
    exact kind_of_ofFragment? ht
  rw [screenPoints_eq hpiece]
  simp [piece, Triple.toList, Triple.map, vertexAt_screen]

/-- A piece covers the triangle of its corners. -/
theorem region_piece (ht : ofFragment? f = some t) (corners : Triple (Vec2 ℚ)) :
    (t.piece corners).region = Polygon.region corners.toList := by
  rw [Fragment.region, screenPoints_piece ht]

theorem onPlane_piece (t : ScreenTriangle ℚ) (corners : Triple (Vec2 ℚ)) :
    (t.piece corners).OnPlane t.depthPlane := by
  intro v hv
  obtain ⟨q, -, rfl⟩ : ∃ q ∈ corners.toList, t.vertexAt q = v := List.mem_map.mp hv
  rw [vertexAt_depth, vertexAt_screen]

/-- A piece with an area has the depth plane of its parent. -/
theorem depthPlane_piece {t' : ScreenTriangle ℚ} {corners : Triple (Vec2 ℚ)}
    (ht' : ofFragment? (t.piece corners) = some t') : t'.depthPlane = t.depthPlane :=
  depthPlane_eq_of_onPlane ht' (t.onPlane_piece corners)

end ScreenTriangle

end PainterScene
