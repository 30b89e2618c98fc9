import PainterScene.Fragment.Interpolation
import PainterScene.Geometry.Segment

/-!
# Overlaps

Two triangles overlap where their footprints on the screen do. When their depth planes cross there,
neither is in front as a whole, and the line of the crossing cuts the overlap.
-/

namespace PainterScene

/-- When fragments are cut, and how finely. -/
structure SplitRule (α : Type) where
  /-- Fragments that come from this many cuts are cut no more. -/
  maxDepth : UInt32
  /-- Overlaps and pieces of at most this area are ignored. -/
  areaTolerance : α
  /-- Depths this close count as equal. -/
  depthTolerance : α
  /-- Polygon vertices this close are merged. -/
  mergeDistance : α
deriving DecidableEq

variable {α : Type} [Scalar α]

def SplitRule.standard : SplitRule α where
  maxDepth := 6
  areaTolerance := 1e-9
  depthTolerance := 1e-9
  mergeDistance := Polygon.mergeDistance

/-- The common part of two triangles on the screen. -/
structure Overlap (α : Type) where
  first : ScreenTriangle α
  second : ScreenTriangle α
  polygon : Polygon α
  /-- The side where the first triangle is the deeper one, when both sides meet the polygon. -/
  cut : Option (HalfPlane α)
deriving DecidableEq

namespace Overlap

/-- The affine function, if it takes both signs on the polygon by more than the tolerance. -/
def crossing? (tolerance : α) (difference : HalfPlane α) (polygon : Polygon α) :
    Option (HalfPlane α) :=
  let values := polygon.map difference.eval
  if Scalar.least values < -tolerance ∧ tolerance < Scalar.greatest values then some difference
  else none

/-- The overlap of two triangles that may be cut: of different sources, both below the limit on
cuts, and with more than the tolerated area in common. -/
def ofFragments? (rule : SplitRule α) (f g : Fragment α) : Option (Overlap α) :=
  if f.source.isSome ∧ f.source = g.source then none
  else if rule.maxDepth ≤ f.splitCount ∨ rule.maxDepth ≤ g.splitCount then none
  else do
    let first ← ScreenTriangle.ofFragment? f
    let second ← ScreenTriangle.ofFragment? g
    let _ ← f.bounds.intersect? g.bounds
    let polygon := Polygon.intersect rule.mergeDistance first.footprint second.footprint
    if polygon.area ≤ rule.areaTolerance then none
    else
      let difference := first.depthPlane - second.depthPlane
      some ⟨first, second, polygon, crossing? rule.depthTolerance difference polygon⟩

end Overlap

end PainterScene
