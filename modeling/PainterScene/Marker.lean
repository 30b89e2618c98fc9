import PainterScene.Geometry.Angle
import PainterScene.Geometry.Vector

/-!
# Marker outlines

The outline drawn at each point of a scatter, relative to the point and in units of the marker's
size.
-/

namespace PainterScene

structure Marker (α : Type) where
  outline : List (Vec2 α) := []
  closed : Bool := false
deriving DecidableEq

namespace Marker

def square {α : Type} [Scalar α] (r : α) : Marker α where
  outline := [⟨-r, -r⟩, ⟨r, -r⟩, ⟨r, r⟩, ⟨-r, r⟩]
  closed := true

/-- The closed regular polygon of radius `r`, with three corners at least. -/
def circle {α : Type} [Stored α] (r : α) (segments : Nat) : Marker α where
  outline :=
    let n := max segments 3
    (List.range n).map fun i : Nat =>
      let angle : α := 2.0 * Angle.pi * (i : α) / (n : α)
      Vec2.scale ⟨Stored.map Float.cos angle, Stored.map Float.sin angle⟩ r
  closed := true

end Marker

end PainterScene
