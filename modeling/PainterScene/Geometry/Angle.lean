import PainterScene.Scalar

/-!
# Angles

Angles are in radians; degrees occur where fields of view are given and where labels are written.
-/

namespace PainterScene.Angle

variable {α : Type} [Scalar α]

def pi : α :=
  3.141592653589793

def ofDegrees (degrees : α) : α :=
  degrees * (pi / 180.0)

def toDegrees (angle : α) : α :=
  angle * (180.0 / pi)

end PainterScene.Angle
