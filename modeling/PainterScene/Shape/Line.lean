import PainterScene.Shape.Frame

/-!
# Lines

Connected lines and sets of separate segments. A point that is not finite once placed breaks a
connected line, and a segment with such an end is not drawn.
-/

namespace PainterScene

structure Polyline (α : Type) where
  points : List (Vec3 α) := []
  line : Option LineStyle := none
deriving DecidableEq

structure SegmentSet (α : Type) where
  segments : List (Vec3 α × Vec3 α) := []
  line : Option LineStyle := none
deriving DecidableEq

variable {α : Type} [Scalar α]

namespace Polyline

/-- Appends points given as columns, as many as the shortest column has. -/
def addPoints (l : Polyline α) (xs ys zs : List α) : Polyline α :=
  { l with points := l.points ++ Vec3.ofColumns xs ys zs }

def fragments (l : Polyline α) (frame : Frame α) (id : NodeId) : List (Fragment α) :=
  let vertices := l.points.map frame.place
  (List.zipWith (Fragment.ofSegment id l.line) vertices vertices.tail).filter Fragment.isFinite

end Polyline

namespace SegmentSet

def ofColumns (xs ys zs xs' ys' zs' : List α) (line : Option LineStyle) : SegmentSet α :=
  ⟨(Vec3.ofColumns xs ys zs).zip (Vec3.ofColumns xs' ys' zs'), line⟩

def ofFlat (starts stops : List α) (line : Option LineStyle) : SegmentSet α :=
  ⟨(Vec3.ofFlat starts).zip (Vec3.ofFlat stops), line⟩

def fragments (set : SegmentSet α) (frame : Frame α) (id : NodeId) : List (Fragment α) :=
  (set.segments.map fun s =>
    Fragment.ofSegment id set.line (frame.place s.1) (frame.place s.2)).filter Fragment.isFinite

end SegmentSet

end PainterScene
