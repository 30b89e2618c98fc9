import PainterScene.Proofs.Reprojection

/-!
# Three ways to interpolate a depth

The weights of the corners, the gradient of the depth plane and the blend that a piece stores are
written down separately, but they are the same affine function of the screen position. A piece of
any shape, inside the triangle or not, has its corners on the plane of its parent. Three points on
a plane determine it, so the piece interpolates by that plane again whenever it has an area, and
after any number of cuts the corners are still on the plane of the triangle they came from.
-/

namespace PainterScene

open Vec2

namespace ScreenTriangle

variable {f : Fragment ℚ} {t : ScreenTriangle ℚ}

/-- The weights at a position blend the corners on the screen to that position. -/
theorem blend_screen (ht : ofFragment? f = some t) (q : Vec2 ℚ) :
    (t.weights q).first • f.vertices.first.screen +
      (t.weights q).second • f.vertices.second.screen +
      (t.weights q).third • f.vertices.third.screen = q := by
  have hblend := blend_projected ht q
  ext
  · simp only [add_x, smul_x, mul_comm (t.weights q).first, mul_comm (t.weights q).second,
      mul_comm (t.weights q).third]
    exact congrArg Vec3.x hblend
  · simp only [add_y, smul_y, mul_comm (t.weights q).first, mul_comm (t.weights q).second,
      mul_comm (t.weights q).third]
    exact congrArg Vec3.y hblend

/-- The same weights blend the depths of the corners to the depth of the plane. -/
theorem blend_depth (ht : ofFragment? f = some t) (q : Vec2 ℚ) :
    (t.weights q).first * f.vertices.first.depth +
      (t.weights q).second * f.vertices.second.depth +
      (t.weights q).third * f.vertices.third.depth = t.depthPlane.eval q := by
  have hblend := blend_projected ht q
  rw [mul_comm, mul_comm (t.weights q).second, mul_comm (t.weights q).third]
  exact congrArg Vec3.z hblend

/-- A vertex of a piece is at its position on the screen, at the depth of the plane. -/
theorem vertexAt_projected (t : ScreenTriangle ℚ) (q : Vec2 ℚ) :
    (t.vertexAt q).projected = ⟨q.x, q.y, t.depthPlane.eval q⟩ := by
  have hscreen := t.vertexAt_screen q
  exact Vec3.ext (congrArg Vec2.x hscreen) (congrArg Vec2.y hscreen) (t.vertexAt_depth q)

end ScreenTriangle

section Chains

variable {plane : HalfPlane ℚ} {f x : Fragment ℚ}

theorem Fragment.OnPlane.cutOut (hf : f.OnPlane plane) (hx : CutOut f x) : x.OnPlane plane := by
  obtain ⟨t, corners, ht, -, rfl⟩ := hx
  rw [← ScreenTriangle.depthPlane_eq_of_onPlane ht hf]
  exact t.onPlane_piece corners

/-- However often pieces have been cut out of pieces, they stay on the plane. -/
theorem Fragment.OnPlane.of_chain (hf : f.OnPlane plane)
    (hchain : Relation.ReflTransGen CutOut f x) : x.OnPlane plane := by
  induction hchain with
  | refl => exact hf
  | tail _ hcut ih => exact ih.cutOut hcut

end Chains

namespace ScreenTriangle

/-- **The ways to interpolate agree.** At every position the weights add up to one and blend the
corners to the position and their depths to the depth of the plane, which is also what a piece
stores there. Pieces of pieces, to any depth, have their corners on the plane of the first triangle,
and it is their own plane if they have an area. -/
theorem interpolations_agree (f : Fragment ℚ) (t : ScreenTriangle ℚ) (ht : ofFragment? f = some t) :
    (∀ q, (t.weights q).first + (t.weights q).second + (t.weights q).third = 1 ∧
      (t.weights q).first • f.vertices.first.screen +
        (t.weights q).second • f.vertices.second.screen +
        (t.weights q).third • f.vertices.third.screen = q ∧
      (t.weights q).first * f.vertices.first.depth +
        (t.weights q).second * f.vertices.second.depth +
        (t.weights q).third * f.vertices.third.depth = t.depthPlane.eval q) ∧
    (∀ (corners : Triple (Vec2 ℚ)) (i : Fin 3), ((t.piece corners).vertices.get i).projected =
      ⟨(corners.get i).x, (corners.get i).y, t.depthPlane.eval (corners.get i)⟩) ∧
    ∀ x, Relation.ReflTransGen CutOut f x →
      (∀ v ∈ x.vertices.toList, v.depth = t.depthPlane.eval v.screen) ∧
      ∀ t', ofFragment? x = some t' → t'.depthPlane = t.depthPlane := by
  refine ⟨fun q => ⟨t.weights_add q, blend_screen ht q, blend_depth ht q⟩, ?_, ?_⟩
  · intro corners i
    have hvertex : (t.piece corners).vertices.get i = t.vertexAt (corners.get i) := by
      fin_cases i <;> rfl
    rw [hvertex, vertexAt_projected]
  · intro x hchain
    have hx : x.OnPlane t.depthPlane := (onPlane_self ht).of_chain hchain
    exact ⟨hx, fun t' ht' => depthPlane_eq_of_onPlane ht' hx⟩

/-- A clockwise piece of the counter-clockwise slope, a piece of that piece, and a position outside
all of them. -/
theorem slope_interpolations_agree :
    let t : ScreenTriangle ℚ := ⟨Overlap.slope, ⟨0, 0⟩, ⟨4, 0⟩, ⟨0, 4⟩, 1 / 16⟩
    let part : ScreenTriangle ℚ :=
      ⟨t.piece ⟨⟨0, 0⟩, ⟨0, 2⟩, ⟨2, 0⟩⟩, ⟨0, 0⟩, ⟨0, 2⟩, ⟨2, 0⟩, -1 / 4⟩
    let smaller : ScreenTriangle ℚ :=
      ⟨part.piece ⟨⟨0, 0⟩, ⟨0, 1⟩, ⟨1, 0⟩⟩, ⟨0, 0⟩, ⟨0, 1⟩, ⟨1, 0⟩, -1⟩
    ofFragment? t.fragment = some t ∧ ofFragment? part.fragment = some part ∧
    ofFragment? smaller.fragment = some smaller ∧ smaller.depthPlane = t.depthPlane ∧
    t.weights ⟨6, 6⟩ = ⟨-2, 3 / 2, 3 / 2⟩ ∧
    -2 * Overlap.slope.vertices.first.depth + 3 / 2 * Overlap.slope.vertices.second.depth +
      3 / 2 * Overlap.slope.vertices.third.depth = t.depthPlane.eval ⟨6, 6⟩ := by
  intro t part smaller
  have ht : ofFragment? t.fragment = some t := by decide +kernel
  have hpart : ofFragment? part.fragment = some part := by decide +kernel
  have hsmaller : ofFragment? smaller.fragment = some smaller := by decide +kernel
  have hweights : t.weights ⟨6, 6⟩ = ⟨-2, 3 / 2, 3 / 2⟩ := by decide +kernel
  have hchain : Relation.ReflTransGen CutOut t.fragment smaller.fragment :=
    (Relation.ReflTransGen.single (cutOut_piece ht _)).tail (cutOut_piece hpart _)
  obtain ⟨hblends, -, hpieces⟩ := interpolations_agree t.fragment t ht
  obtain ⟨-, -, hdepth⟩ := hblends ⟨6, 6⟩
  rw [hweights] at hdepth
  exact ⟨ht, hpart, hsmaller, (hpieces _ hchain).2 smaller hsmaller, hweights, hdepth⟩

end ScreenTriangle

end PainterScene
