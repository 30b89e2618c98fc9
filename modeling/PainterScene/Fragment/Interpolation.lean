import PainterScene.Fragment
import PainterScene.Geometry.Polygon

/-!
# Interpolation over a triangle

Over its footprint on the screen, the depth of a projected triangle is an affine function, and
every other quantity is blended from the corners. Camera-space positions are blended with the
weights divided by the clip-space `w` of the corners, so that a piece of the triangle projects
onto its own screen corners.
-/

namespace PainterScene

/-- A triangle fragment with some area on the screen: its first corner, the edges from there to the
other two, and the inverse of their cross product. -/
structure ScreenTriangle (α : Type) where
  fragment : Fragment α
  origin : Vec2 α
  edge1 : Vec2 α
  edge2 : Vec2 α
  inverse : α
deriving DecidableEq

namespace ScreenTriangle

variable {α : Type} [Scalar α]

/-- The triangle of a fragment, unless the fragment is of another kind or has no area to speak
of. -/
def ofFragment? (f : Fragment α) : Option (ScreenTriangle α) :=
  if f.kind = .triangle then
    let origin := f.vertices.first.screen
    let edge1 := f.vertices.second.screen - origin
    let edge2 := f.vertices.third.screen - origin
    let den := edge1.cross edge2
    if !Scalar.isFinite den || Scalar.abs den ≤ Scalar.epsilon then none
    else some ⟨f, origin, edge1, edge2, 1 / den⟩
  else none

def weights (t : ScreenTriangle α) (q : Vec2 α) : Triple α :=
  let d := q - t.origin
  let second := d.cross t.edge2 * t.inverse
  let third := t.edge1.cross d * t.inverse
  ⟨1 - second - third, second, third⟩

/-- The depth as an affine function of the screen position. -/
def depthPlane (t : ScreenTriangle α) : HalfPlane α :=
  let v := t.fragment.vertices
  let rise1 := v.second.depth - v.first.depth
  let rise2 := v.third.depth - v.first.depth
  let gradient :=
    (Vec2.scale ⟨t.edge2.y, -t.edge2.x⟩ rise1 + Vec2.scale ⟨-t.edge1.y, t.edge1.x⟩ rise2).scale
      t.inverse
  ⟨gradient, v.first.depth - gradient.dot t.origin⟩

/-- The corners on the screen, counter-clockwise. -/
def footprint (t : ScreenTriangle α) : Polygon α :=
  let v := t.fragment.vertices
  if 0 < t.inverse then [v.first.screen, v.second.screen, v.third.screen]
  else [v.first.screen, v.third.screen, v.second.screen]

def vertexAt (t : ScreenTriangle α) (q : Vec2 α) : Vertex α :=
  let v := t.fragment.vertices
  let positions := v.map Vertex.position
  let w := t.weights q
  let depth := (Vec3.blend (v.map Vertex.projected) w).z
  let shares : Triple α :=
    ⟨w.first / v.first.clipW, w.second / v.second.clipW, w.third / v.third.clipW⟩
  let inverseW := shares.first + shares.second + shares.third
  if Scalar.isFinite inverseW && inverseW != 0 then
    { position := Vec3.blend positions (shares.map (· / inverseW))
      projected := ⟨q.x, q.y, depth⟩
      clipW := 1 / inverseW }
  else
    { position := Vec3.blend positions w
      projected := ⟨q.x, q.y, depth⟩
      clipW := v.first.clipW * w.first + v.second.clipW * w.second + v.third.clipW * w.third }

/-- One more cut; a count at its limit stays there. -/
def nextSplit (count : UInt32) : UInt32 :=
  if count = 0xffffffff then count else count + 1

/-- The fragment that covers `corners`, which lie inside the triangle. -/
def piece (t : ScreenTriangle α) (corners : Triple (Vec2 α)) : Fragment α :=
  { t.fragment with
    vertices := corners.map t.vertexAt
    splitCount := nextSplit t.fragment.splitCount }

end ScreenTriangle

end PainterScene
