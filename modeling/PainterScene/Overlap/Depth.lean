import PainterScene.Overlap

/-!
# Depths over an overlap

The depth of each of two fragments where they meet on the screen: the mean over the common polygon
of two triangles, the middle of the part of a line inside a triangle, a marker's own point, the
crossing of two lines. Fragments that do not meet, and markers among themselves, are compared by
their mean depths.
-/

namespace PainterScene

variable {α : Type} [Scalar α]

namespace Fragment

def screenSegment (f : Fragment α) : Segment α :=
  ⟨f.vertices.first.screen, f.vertices.second.screen⟩

def depthAlong (f : Fragment α) (t : α) : α :=
  let start := f.vertices.first.depth
  let stop := f.vertices.second.depth
  start + (stop - start) * t - f.depthBias

end Fragment

namespace Overlap

def trianglesDepth? (rule : SplitRule α) (f g : Fragment α) : Option (α × α) := do
  let first ← ScreenTriangle.ofFragment? f
  let second ← ScreenTriangle.ofFragment? g
  let polygon := Polygon.intersect rule.mergeDistance first.footprint second.footprint
  if polygon.area ≤ rule.areaTolerance then none
  else
    some (Scalar.mean (polygon.map first.depthPlane.eval),
      Scalar.mean (polygon.map second.depthPlane.eval))

/-- The depths of a triangle and a line at the middle of their common part. -/
def triangleSegmentDepth? (triangle segment : Fragment α) : Option (α × α) := do
  let t ← ScreenTriangle.ofFragment? triangle
  let line := segment.screenSegment
  let range ← line.clip? t.footprint.edgePlanes
  let middle := 0.5 * (range.1 + range.2)
  some (t.depthPlane.eval (line.point middle), segment.depthAlong middle)

def triangleMarkerDepth? (triangle marker : Fragment α) : Option (α × α) := do
  let t ← ScreenTriangle.ofFragment? triangle
  let q := marker.vertices.first.screen
  if t.footprint.edgePlanes.all fun h => h.contains q then
    some (t.depthPlane.eval q, marker.meanDepth)
  else none

def segmentsDepth? (f g : Fragment α) : Option (α × α) := do
  let (t, u) ← f.screenSegment.crossing? g.screenSegment
  some (f.depthAlong t, g.depthAlong u)

def sampledDepths? (rule : SplitRule α) (f g : Fragment α) : Option (α × α) :=
  match f.kind, g.kind with
  | .triangle, .triangle => trianglesDepth? rule f g
  | .triangle, .segment => triangleSegmentDepth? f g
  | .segment, .triangle => (triangleSegmentDepth? g f).map Prod.swap
  | .triangle, .marker => triangleMarkerDepth? f g
  | .marker, .triangle => (triangleMarkerDepth? g f).map Prod.swap
  | .segment, .segment => segmentsDepth? f g
  | _, _ => none

def depths (rule : SplitRule α) (f g : Fragment α) : α × α :=
  (sampledDepths? rule f g).getD (f.meanDepth, g.meanDepth)

end Overlap

end PainterScene
