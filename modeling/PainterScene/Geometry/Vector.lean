import PainterScene.Scalar.Stored
import PainterScene.Geometry.Triple

/-!
# Vectors

Vectors of two, three and four components. Sums are taken from the first component to the last.
-/

namespace PainterScene

/-- A position on the screen. -/
@[ext]
structure Vec2 (α : Type) where
  x : α
  y : α
deriving DecidableEq

/-- A position in space. -/
@[ext]
structure Vec3 (α : Type) where
  x : α
  y : α
  z : α
deriving DecidableEq

/-- A position in homogeneous coordinates. -/
@[ext]
structure Vec4 (α : Type) where
  x : α
  y : α
  z : α
  w : α
deriving DecidableEq

variable {α : Type} [Scalar α]

namespace Vec2

instance : Add (Vec2 α) := ⟨fun a b => ⟨a.x + b.x, a.y + b.y⟩⟩

instance : Sub (Vec2 α) := ⟨fun a b => ⟨a.x - b.x, a.y - b.y⟩⟩

def scale (v : Vec2 α) (t : α) : Vec2 α :=
  ⟨v.x * t, v.y * t⟩

def dot (a b : Vec2 α) : α :=
  a.x * b.x + a.y * b.y

/-- Twice the signed area of the triangle spanned by `a` and `b`. -/
def cross (a b : Vec2 α) : α :=
  a.x * b.y - a.y * b.x

def lerp (a b : Vec2 α) (t : α) : Vec2 α :=
  a + (b - a).scale t

def distSq (a b : Vec2 α) : α :=
  (b - a).dot (b - a)

def isFinite (v : Vec2 α) : Bool :=
  Scalar.isFinite v.x && Scalar.isFinite v.y

end Vec2

namespace Vec3

instance : Zero (Vec3 α) := ⟨⟨0, 0, 0⟩⟩

instance : Add (Vec3 α) := ⟨fun a b => ⟨a.x + b.x, a.y + b.y, a.z + b.z⟩⟩

instance : Sub (Vec3 α) := ⟨fun a b => ⟨a.x - b.x, a.y - b.y, a.z - b.z⟩⟩

def scale (v : Vec3 α) (t : α) : Vec3 α :=
  ⟨v.x * t, v.y * t, v.z * t⟩

def dot (a b : Vec3 α) : α :=
  a.x * b.x + a.y * b.y + a.z * b.z

def cross (a b : Vec3 α) : Vec3 α :=
  ⟨a.y * b.z - b.y * a.z, a.z * b.x - b.z * a.x, a.x * b.y - b.x * a.y⟩

def isFinite (v : Vec3 α) : Bool :=
  Scalar.isFinite v.x && Scalar.isFinite v.y && Scalar.isFinite v.z

def screen (v : Vec3 α) : Vec2 α :=
  ⟨v.x, v.y⟩

def extend (v : Vec3 α) (w : α) : Vec4 α :=
  ⟨v.x, v.y, v.z, w⟩

def blend (points : Triple (Vec3 α)) (weights : Triple α) : Vec3 α :=
  points.first.scale weights.first + points.second.scale weights.second +
    points.third.scale weights.third

/-- Positions from three columns, as many as the shortest column has. -/
def ofColumns (xs ys zs : List α) : List (Vec3 α) :=
  (xs.zip (ys.zip zs)).map fun p => ⟨p.1, p.2.1, p.2.2⟩

/-- Positions from a flat list of coordinates, an incomplete last one dropped. -/
def ofFlat : List α → List (Vec3 α)
  | x :: y :: z :: rest => ⟨x, y, z⟩ :: ofFlat rest
  | _ => []

def normalize {β : Type} [Stored β] (v : Vec3 β) : Vec3 β :=
  v.scale (1 / Stored.map Float.sqrt (v.dot v))

end Vec3

namespace Vec4

instance : Add (Vec4 α) := ⟨fun a b => ⟨a.x + b.x, a.y + b.y, a.z + b.z, a.w + b.w⟩⟩

def scale (v : Vec4 α) (t : α) : Vec4 α :=
  ⟨v.x * t, v.y * t, v.z * t, v.w * t⟩

def truncate (v : Vec4 α) : Vec3 α :=
  ⟨v.x, v.y, v.z⟩

def divide (v : Vec4 α) : Vec3 α :=
  ⟨v.x / v.w, v.y / v.w, v.z / v.w⟩

end Vec4

end PainterScene
