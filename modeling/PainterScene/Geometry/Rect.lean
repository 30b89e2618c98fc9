import PainterScene.Geometry.Vector

/-!
# Rectangles

Closed rectangles with sides along the axes. One without width or height still holds points, and
only one whose upper corner lies below its lower corner is empty.
-/

namespace PainterScene

@[ext]
structure Rect (α : Type) where
  min : Vec2 α
  max : Vec2 α
deriving DecidableEq

namespace Rect

variable {α : Type} [Scalar α]

/-- The smallest rectangle around the points; no points give an inverted one. -/
def ofPoints (points : List (Vec2 α)) : Rect α :=
  let xs := points.map Vec2.x
  let ys := points.map Vec2.y
  { min := ⟨Scalar.least xs, Scalar.least ys⟩
    max := ⟨Scalar.greatest xs, Scalar.greatest ys⟩ }

def width (r : Rect α) : α :=
  r.max.x - r.min.x

def height (r : Rect α) : α :=
  r.max.y - r.min.y

def isEmpty (r : Rect α) : Bool :=
  r.max.x < r.min.x || r.max.y < r.min.y

def isFinite (r : Rect α) : Bool :=
  r.min.isFinite && r.max.isFinite

def contains (r : Rect α) (p : Vec2 α) : Bool :=
  r.min.x ≤ p.x && r.min.y ≤ p.y && p.x ≤ r.max.x && p.y ≤ r.max.y

/-- The common part of two rectangles; touching rectangles share a degenerate one. -/
def intersect? (r s : Rect α) : Option (Rect α) :=
  let common : Rect α :=
    { min := ⟨Scalar.max r.min.x s.min.x, Scalar.max r.min.y s.min.y⟩
      max := ⟨Scalar.min r.max.x s.max.x, Scalar.min r.max.y s.max.y⟩ }
  if common.isEmpty then none else some common

/-- Equality of the four bounds as numbers, so a value that is not a number equals nothing. -/
def agrees (r s : Rect α) : Bool :=
  r.min.x == s.min.x && r.min.y == s.min.y && r.max.x == s.max.x && r.max.y == s.max.y

end Rect

end PainterScene
