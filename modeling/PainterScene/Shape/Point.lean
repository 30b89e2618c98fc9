import PainterScene.Marker
import PainterScene.Shape.Frame

/-!
# Points and labels

Scattered markers and labels: each point is one marker fragment. A label has a second anchor, which
gives the direction in which its text runs.
-/

namespace PainterScene

structure Scatter (α : Type) where
  xs : List α := []
  ys : List α := []
  zs : List α := []
  /-- The scale of each marker; an empty list stands for 1 everywhere. -/
  sizes : List α := []
  marker : Marker α := {}
  /-- Whether the stroke of the outline grows with the marker. -/
  scaleEdges : Bool := true
  line : Option LineStyle := none
  surface : Option SurfaceStyle := none
deriving DecidableEq

/-- Labels at pairs of anchors, which are given as flat coordinates. Each is drawn as its name, as
by `NamedLabels`, the only drawer of labels that there is. -/
structure LabelSet (α : Type) where
  anchors : List α := []
  directions : List α := []
  /-- The text of each label. -/
  names : List String := []
deriving DecidableEq

variable {α : Type} [Scalar α]

namespace Scatter

/-- The points with their sizes, as many as the shortest column has. -/
def sizedPoints (s : Scatter α) : List (Vec3 α × α) :=
  let points := Vec3.ofColumns s.xs s.ys s.zs
  if s.sizes.isEmpty then points.map fun p => (p, 1) else points.zip s.sizes

def fragment (s : Scatter α) (frame : Frame α) (id : NodeId) (p : Vec3 α × α) : Fragment α :=
  { Fragment.ofMarker id (.outline s.scaleEdges) p.2 (frame.place p.1) with
    line := s.line, surface := s.surface }

def fragments (s : Scatter α) (frame : Frame α) (id : NodeId) : List (Fragment α) :=
  (s.sizedPoints.map (s.fragment frame id)).filter fun f =>
    f.isFinite && Scalar.isFinite f.size

end Scatter

namespace LabelSet

def anchorPairs (l : LabelSet α) : List (Vec3 α × Vec3 α) :=
  (Vec3.ofFlat l.anchors).zip (Vec3.ofFlat l.directions)

def size (l : LabelSet α) : Nat :=
  min l.anchors.length l.directions.length / 3

def fragment? (frame : Frame α) (id : NodeId) (index : Nat) (pair : Vec3 α × Vec3 α) :
    Option (Fragment α) :=
  let anchor := (frame.outer.apply (pair.2.extend 1)).truncate
  let f := Fragment.ofMarker id (.label index anchor) 1 (frame.place pair.1)
  if f.isFinite && anchor.isFinite then some f else none

def fragments (l : LabelSet α) (frame : Frame α) (id : NodeId) : List (Fragment α) :=
  l.anchorPairs.zipIdx.filterMap fun p => fragment? frame id p.2 p.1

end LabelSet

end PainterScene
