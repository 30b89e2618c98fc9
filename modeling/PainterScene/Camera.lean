import PainterScene.Geometry.Angle
import PainterScene.Geometry.Matrix

/-!
# Cameras

A camera is a view, from world space to camera space, and a perspective, from camera space to clip
space. Camera space has the eye at the origin and the positive z axis toward the viewer; after the
homogeneous divide the depth grows away from the viewer.
-/

namespace PainterScene

structure Camera (α : Type) where
  view : Mat4 α
  perspective : Mat4 α
deriving DecidableEq

namespace Camera

variable {α : Type} [Scalar α]

def clip (camera : Camera α) (p : Vec4 α) : Vec4 α :=
  camera.perspective.apply p

def project (camera : Camera α) (p : Vec4 α) : Vec3 α :=
  camera.perspective.project p

section Stored

variable {β : Type} [Stored β]

def lookAt (camera : Camera β) (eye target up : Vec3 β) : Camera β :=
  { camera with view := Mat4.lookAt eye target up }

/-- Gives the camera a symmetric view; `fov` is the vertical field of view in degrees. -/
def withPerspective (camera : Camera β) (fov aspect near far : β) : Camera β :=
  { camera with perspective := Mat4.perspective (Angle.ofDegrees fov) aspect near far }

def standard : Camera β :=
  let still : Camera β := ⟨Mat4.identity, Mat4.identity⟩
  (still.lookAt ⟨0, 0, 5.0⟩ ⟨0, 0, 0⟩ ⟨0, 1, 0⟩).withPerspective 45.0 1 1 100.0

end Stored

end Camera

end PainterScene
