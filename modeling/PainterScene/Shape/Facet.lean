import PainterScene.Shape.Frame

/-!
# Facets

A single filled triangle, which may be drawn only when its front side faces the viewer.
-/

namespace PainterScene

structure Facet (α : Type) where
  corners : Triple (Vec3 α)
  surface : Option SurfaceStyle := none
  /-- Draw the facet only when its normal faces the viewer. -/
  facing : Bool := false
deriving DecidableEq

namespace Facet

variable {α : Type} [Scalar α]

/-- The normal of the side from which the corners run counter-clockwise. -/
def normal (facet : Facet α) : Vec3 α :=
  let c := facet.corners
  (c.second - c.first).cross (c.third - c.first)

def fragments (facet : Facet α) (frame : Frame α) (id : NodeId) : List (Fragment α) :=
  if facet.facing && !frame.faces facet.normal then []
  else
    [Fragment.ofTriangle id facet.surface (facet.corners.map frame.place)].filter
      Fragment.isFinite

end Facet

end PainterScene
