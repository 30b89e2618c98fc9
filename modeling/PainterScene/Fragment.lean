import PainterScene.Geometry.Matrix
import PainterScene.Geometry.Rect
import PainterScene.Scene.Problem

/-!
# Fragments

A fragment is the unit that is painted: a triangle, a line segment or a marker, with its control
points in camera space and on the screen. Lines are brought nearer than surfaces by a small bias,
and markers by twice as much, so that at equal depth they are painted over them.
-/

namespace PainterScene

inductive Kind
  | empty
  | triangle
  | segment
  | marker
deriving DecidableEq

/-- The number of control points that carry meaning. -/
def Kind.pointCount : Kind → Nat
  | empty => 0
  | triangle => 3
  | segment => 2
  | marker => 1

/-- How surfaces are filled, by the painter's own number. -/
structure SurfaceStyle where
  id : Nat
deriving DecidableEq

/-- How lines are stroked, by the painter's own number. -/
structure LineStyle where
  id : Nat
deriving DecidableEq

/-- What a marker fragment stands for beside its point. -/
inductive Payload (α : Type)
  /-- A marker outline, whose stroke may grow with the marker. -/
  | outline (scaleEdges : Bool)
  /-- A label, by its place among the labels of its node, and its second anchor in camera space. -/
  | label (index : Nat) (anchor : Vec3 α)
deriving DecidableEq

/-- A control point in camera space, its projection, and the clip-space `w` it was divided by. -/
@[ext]
structure Vertex (α : Type) where
  position : Vec3 α
  projected : Vec3 α
  clipW : α
deriving DecidableEq

@[ext]
structure Fragment (α : Type) where
  kind : Kind
  /-- The node that produced the fragment. -/
  source : Option NodeId
  payload : Option (Payload α)
  surface : Option SurfaceStyle
  line : Option LineStyle
  vertices : Triple (Vertex α)
  /-- The scale of a marker. -/
  size : α
  /-- The number of cuts between the fragment and the one that was generated. -/
  splitCount : UInt32
  /-- The place of the fragment, or of the one it was cut from, in the order of creation. -/
  creationIndex : UInt32
deriving DecidableEq

variable {α : Type} [Scalar α]

namespace Vertex

def ofClip (position : Vec3 α) (clip : Vec4 α) : Vertex α :=
  ⟨position, clip.divide, clip.w⟩

def unset : Vertex α :=
  ⟨0, 0, 1⟩

def screen (v : Vertex α) : Vec2 α :=
  v.projected.screen

def depth (v : Vertex α) : α :=
  v.projected.z

def reproject (m : Mat4 α) (v : Vertex α) : Vertex α :=
  ofClip v.position (m.apply (v.position.extend 1))

def isFinite (v : Vertex α) : Bool :=
  v.position.isFinite

end Vertex

namespace Fragment

def blank (kind : Kind) : Fragment α where
  kind := kind
  source := none
  payload := none
  surface := none
  line := none
  vertices := ⟨Vertex.unset, Vertex.unset, Vertex.unset⟩
  size := 0
  splitCount := 0
  creationIndex := 0

def ofTriangle (source : NodeId) (surface : Option SurfaceStyle) (vertices : Triple (Vertex α)) :
    Fragment α :=
  { (blank .triangle : Fragment α) with source := some source, surface, vertices }

def ofSegment (source : NodeId) (line : Option LineStyle) (start stop : Vertex α) : Fragment α :=
  { (blank .segment : Fragment α) with
    source := some source
    line
    vertices := ⟨start, stop, Vertex.unset⟩ }

def ofMarker (source : NodeId) (payload : Payload α) (size : α) (vertex : Vertex α) :
    Fragment α :=
  { (blank .marker : Fragment α) with
    source := some source
    payload := some payload
    size
    vertices := ⟨vertex, Vertex.unset, Vertex.unset⟩ }

def controlPoints (f : Fragment α) : List (Vertex α) :=
  f.vertices.toList.take f.kind.pointCount

/-- By how much lines are brought nearer than surfaces. -/
def lineBias : α :=
  1e-3

def depthBias (f : Fragment α) : α :=
  match f.kind with
  | .segment => lineBias
  | .marker => 2.0 * lineBias
  | .triangle | .empty => 0

def minDepth (f : Fragment α) : α :=
  let v := f.vertices
  match f.kind with
  | .triangle => Scalar.min (Scalar.min v.first.depth v.second.depth) v.third.depth
  | .segment => Scalar.min v.first.depth v.second.depth - lineBias
  | .marker => v.first.depth - 2.0 * lineBias
  | .empty => Scalar.infinity

def maxDepth (f : Fragment α) : α :=
  let v := f.vertices
  match f.kind with
  | .triangle => Scalar.max (Scalar.max v.first.depth v.second.depth) v.third.depth
  | .segment => Scalar.max v.first.depth v.second.depth - lineBias
  | .marker => v.first.depth - 2.0 * lineBias
  | .empty => Scalar.infinity

def meanDepth (f : Fragment α) : α :=
  let v := f.vertices
  match f.kind with
  | .triangle => (v.first.depth + v.second.depth + v.third.depth) / 3.0
  | .segment => (v.first.depth + v.second.depth) * 0.5 - lineBias
  | .marker => v.first.depth - 2.0 * lineBias
  | .empty => Scalar.infinity

def setVertex? (f : Fragment α) (i : Nat) (v : Vertex α) : Option (Fragment α) :=
  (f.vertices.set? i v).map fun vertices => { f with vertices }

def reproject (m : Mat4 α) (f : Fragment α) : Fragment α :=
  { f with vertices := f.vertices.mapFirst f.kind.pointCount (Vertex.reproject m) }

def screenPoints (f : Fragment α) : List (Vec2 α) :=
  f.controlPoints.map Vertex.screen

def bounds (f : Fragment α) : Rect α :=
  Rect.ofPoints f.screenPoints

/-- Whether every control point that carries meaning is finite in camera space. -/
def isFinite (f : Fragment α) : Bool :=
  f.controlPoints.all Vertex.isFinite

end Fragment

end PainterScene
