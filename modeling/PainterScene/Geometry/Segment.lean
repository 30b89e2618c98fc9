import PainterScene.Geometry.HalfPlane

/-!
# Segments on the screen

Where a segment runs inside a convex region, and where two segments cross. Positions on a segment
are given by a parameter that is 0 at its start and 1 at its end.
-/

namespace PainterScene

@[ext]
structure Segment (α : Type) where
  start : Vec2 α
  stop : Vec2 α
deriving DecidableEq

namespace Segment

variable {α : Type} [Scalar α]

def point (s : Segment α) (t : α) : Vec2 α :=
  s.start.lerp s.stop t

def narrow (s : Segment α) (range : α × α) (h : HalfPlane α) : Option (α × α) :=
  let narrowed :=
    match h.contains s.start, h.contains s.stop with
    | true, true => some range
    | false, false => none
    | true, false => some (range.1, Scalar.min range.2 (h.crossing s.start s.stop))
    | false, true => some (Scalar.max range.1 (h.crossing s.start s.stop), range.2)
  narrowed.filter fun r => !decide (r.2 < r.1)

def clip? (s : Segment α) (planes : List (HalfPlane α)) : Option (α × α) :=
  planes.foldlM s.narrow (0, 1)

/-- The parameters on both segments of the point where they cross; segments that are parallel, or
too short to tell, have none. -/
def crossing? (s t : Segment α) : Option (α × α) :=
  let r := s.stop - s.start
  let d := t.stop - t.start
  let den := r.cross d
  if Scalar.abs den ≤ Scalar.epsilon then none
  else
    let q := t.start - s.start
    let a := q.cross d / den
    let b := q.cross r / den
    if 0 ≤ a ∧ a ≤ 1 ∧ 0 ≤ b ∧ b ≤ 1 then some (a, b) else none

end Segment

end PainterScene
