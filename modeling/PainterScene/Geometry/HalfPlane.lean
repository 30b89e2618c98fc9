import PainterScene.Geometry.Vector

/-!
# Half-planes

A half-plane is the set where an affine function of the position is not negative. The same type
serves for affine functions as such, the depth of a triangle over the screen among them.
-/

namespace PainterScene

/-- The affine function `normal · p + offset`; its half-plane is where it is not negative. -/
@[ext]
structure HalfPlane (α : Type) where
  normal : Vec2 α
  offset : α
deriving DecidableEq

namespace HalfPlane

variable {α : Type} [Scalar α]

/-- The left side of the directed line from `a` to `b`. -/
def leftOf (a b : Vec2 α) : HalfPlane α :=
  let d := b - a
  let normal : Vec2 α := ⟨-d.y, d.x⟩
  ⟨normal, -normal.dot a⟩

def eval (h : HalfPlane α) (p : Vec2 α) : α :=
  h.normal.dot p + h.offset

def contains (h : HalfPlane α) (p : Vec2 α) : Bool :=
  0 ≤ h.eval p

def flip (h : HalfPlane α) : HalfPlane α :=
  ⟨h.normal.scale (-1), -h.offset⟩

instance : Sub (HalfPlane α) := ⟨fun g h => ⟨g.normal - h.normal, g.offset - h.offset⟩⟩

/-- The parameter at which the way from `a` to `b` meets the boundary line. -/
def crossing (h : HalfPlane α) (a b : Vec2 α) : α :=
  h.eval a / (h.eval a - h.eval b)

end HalfPlane

end PainterScene
