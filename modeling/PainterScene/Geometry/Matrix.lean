import PainterScene.Geometry.Vector

/-!
# Matrices

Four by four matrices held as columns, the transforms of homogeneous coordinates.
-/

namespace PainterScene

/-- A four by four matrix: its columns are the images of the unit vectors. -/
@[ext]
structure Mat4 (α : Type) where
  x : Vec4 α
  y : Vec4 α
  z : Vec4 α
  w : Vec4 α
deriving DecidableEq

namespace Mat4

variable {α : Type} [Scalar α]

def apply (m : Mat4 α) (v : Vec4 α) : Vec4 α :=
  m.x.scale v.x + m.y.scale v.y + m.z.scale v.z + m.w.scale v.w

/-- `a * b` applies `b` first. -/
instance : Mul (Mat4 α) := ⟨fun a b => ⟨a.apply b.x, a.apply b.y, a.apply b.z, a.apply b.w⟩⟩

def identity : Mat4 α :=
  ⟨⟨1, 0, 0, 0⟩, ⟨0, 1, 0, 0⟩, ⟨0, 0, 1, 0⟩, ⟨0, 0, 0, 1⟩⟩

def shift (v : Vec3 α) : Mat4 α :=
  ⟨⟨1, 0, 0, 0⟩, ⟨0, 1, 0, 0⟩, ⟨0, 0, 1, 0⟩, v.extend 1⟩

def project (m : Mat4 α) (v : Vec4 α) : Vec3 α :=
  (m.apply v).divide

section Stored

variable {β : Type} [Stored β]

def rotationX (angle : β) : Mat4 β :=
  let s := Stored.map Float.sin angle
  let c := Stored.map Float.cos angle
  ⟨⟨1, 0, 0, 0⟩, ⟨0, c, s, 0⟩, ⟨0, -s, c, 0⟩, ⟨0, 0, 0, 1⟩⟩

def rotationY (angle : β) : Mat4 β :=
  let s := Stored.map Float.sin angle
  let c := Stored.map Float.cos angle
  ⟨⟨c, 0, -s, 0⟩, ⟨0, 1, 0, 0⟩, ⟨s, 0, c, 0⟩, ⟨0, 0, 0, 1⟩⟩

/-- World space to the camera space of an eye that looks at `target`, down the negative z axis. -/
def lookAt (eye target up : Vec3 β) : Mat4 β :=
  let forward := (target - eye).normalize
  let side := (forward.cross up).normalize
  let above := side.cross forward
  ⟨⟨side.x, above.x, -forward.x, 0⟩, ⟨side.y, above.y, -forward.y, 0⟩,
    ⟨side.z, above.z, -forward.z, 0⟩,
    ⟨-eye.dot side, -eye.dot above, eye.dot forward, 1⟩⟩

/-- Camera space to the clip space of a symmetric view; `fov` is the vertical field of view in
radians, and depths between the planes go to `[-1, 1]`. -/
def perspective (fov aspect near far : β) : Mat4 β :=
  let inverseLength := 1 / (near - far)
  let focal := 1 / Stored.map Float.tan (0.5 * fov)
  ⟨⟨focal / aspect, 0, 0, 0⟩, ⟨0, focal, 0, 0⟩, ⟨0, 0, (near + far) * inverseLength, -1⟩,
    ⟨0, 0, 2.0 * near * far * inverseLength, 0⟩⟩

end Stored

end Mat4

end PainterScene
