import PainterScene.Geometry.HalfPlane

/-!
# Convex polygons

Polygons are lists of vertices, counter-clockwise where convexity matters. Clipping by half-planes
gives the common part of two convex polygons and what one leaves of the other; vertices that come
out closer than a tolerance are merged.
-/

namespace PainterScene

abbrev Polygon (α : Type) := List (Vec2 α)

namespace Polygon

variable {α : Type} [Scalar α]

/-- The distance at which vertices are merged unless a caller asks for another. -/
def mergeDistance : α :=
  1e-12

/-- Each vertex with the one before it, the last coming before the first. -/
def steps (poly : Polygon α) : List (Vec2 α × Vec2 α) :=
  match poly.getLast? with
  | none => []
  | some last => (last :: poly).zip poly

/-- Half the sum of the cross products along the boundary, positive for a counter-clockwise one. -/
def signedArea (poly : Polygon α) : α :=
  if poly.length < 3 then 0
  else 0.5 * poly.steps.foldl (fun sum step => sum + step.1.cross step.2) 0

def area (poly : Polygon α) : α :=
  Scalar.abs poly.signedArea

/-- Drops each vertex that lies within `tol` of the last one kept before it. -/
def dropRepeats (tol : α) (kept : Vec2 α) : Polygon α → Polygon α
  | [] => []
  | p :: rest =>
    if kept.distSq p ≤ tol * tol then dropRepeats tol kept rest
    else p :: dropRepeats tol p rest

/-- Drops vertices from the end until the last one lies further than `tol` from `first`. -/
def trimEnd (tol : α) (first : Vec2 α) (rest : Polygon α) : Polygon α :=
  (rest.reverse.dropWhile fun p => !decide (tol * tol < first.distSq p)).reverse

/-- Merges neighbouring vertices within `tol` of each other, the last and the first included. -/
def merge (tol : α) : Polygon α → Polygon α
  | [] => []
  | p :: rest => p :: trimEnd tol p (dropRepeats tol p rest)

def clipStep (h : HalfPlane α) (prev cur : Vec2 α) : Polygon α :=
  match h.contains prev, h.contains cur with
  | true, true => [cur]
  | true, false => [prev.lerp cur (h.crossing prev cur)]
  | false, true => [prev.lerp cur (h.crossing prev cur), cur]
  | false, false => []

def clip (tol : α) (h : HalfPlane α) (poly : Polygon α) : Polygon α :=
  merge tol (poly.steps.flatMap fun step => clipStep h step.1 step.2)

def edgePlanes : Polygon α → List (HalfPlane α)
  | [] => []
  | p :: rest => List.zipWith HalfPlane.leftOf (p :: rest) (rest ++ [p])

/-- The common part of two counter-clockwise convex polygons. -/
def intersect (tol : α) (subject clipper : Polygon α) : Polygon α :=
  clipper.edgePlanes.foldl (fun poly h => poly.clip tol h) subject

/-- Peels off what lies outside each half-plane in turn, until no more than `minArea` remains. -/
def peel (tol minArea : α) : List (HalfPlane α) → Polygon α → List (Polygon α)
  | [], _ => []
  | h :: planes, remaining =>
    if remaining.area ≤ minArea then []
    else
      let outside := remaining.clip tol h.flip
      let rest := peel tol minArea planes (remaining.clip tol h)
      if minArea < outside.area then outside :: rest else rest

def subtract (tol minArea : α) (subject clipper : Polygon α) : List (Polygon α) :=
  peel tol minArea clipper.edgePlanes subject

/-- The fan of triangles around the first vertex, those of at most `minArea` dropped. -/
def triangulate (minArea : α) : Polygon α → List (Triple (Vec2 α))
  | [] => []
  | p :: rest =>
    (List.zipWith (fun q r => ⟨p, q, r⟩) rest rest.tail).filter fun t =>
      minArea < area t.toList

end Polygon

end PainterScene
