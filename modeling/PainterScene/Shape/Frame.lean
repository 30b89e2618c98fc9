import PainterScene.Camera
import PainterScene.Fragment

/-!
# Frames

A frame says how the coordinates of a node reach camera space and clip space: the product of the
transforms above the node, and the camera's perspective.
-/

namespace PainterScene

structure Frame (α : Type) where
  /-- From the node's coordinates to camera space. -/
  outer : Mat4 α
  perspective : Mat4 α
deriving DecidableEq

variable {α : Type} [Scalar α]

def Camera.frame (camera : Camera α) : Frame α :=
  ⟨camera.view, camera.perspective⟩

namespace Frame

def enter (frame : Frame α) (transform : Mat4 α) : Frame α :=
  { frame with outer := frame.outer * transform }

def place (frame : Frame α) (p : Vec3 α) : Vertex α :=
  let c := frame.outer.apply (p.extend 1)
  Vertex.ofClip c.truncate (frame.perspective.apply c)

/-- Whether the tip of the normal comes nearer to the viewer than its foot at the origin. -/
def faces (frame : Frame α) (normal : Vec3 α) : Bool :=
  (frame.outer.apply ⟨0, 0, 0, 1⟩).z < (frame.outer.apply (normal.extend 1)).z

end Frame

end PainterScene
