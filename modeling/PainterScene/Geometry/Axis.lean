import PainterScene.Geometry.Vector

/-!
# Axes

The three spatial axes, and the positions that are put together from one value per axis.
-/

namespace PainterScene

inductive Axis
  | x
  | y
  | z
deriving DecidableEq, Inhabited

namespace Axis

def index : Axis → Nat
  | .x => 0
  | .y => 1
  | .z => 2

def name : Axis → String
  | .x => "X"
  | .y => "Y"
  | .z => "Z"

def isPermutation (a b c : Axis) : Bool :=
  a != b && b != c && a != c

end Axis

namespace Vec3

variable {α : Type}

def setAxis (v : Vec3 α) (axis : Axis) (value : α) : Vec3 α :=
  match axis with
  | .x => { v with x := value }
  | .y => { v with y := value }
  | .z => { v with z := value }

/-- The position with `height` on the given axis and `first`, `second` on the axes that follow it
in cyclic order. -/
def onPlane (axis : Axis) (height first second : α) : Vec3 α :=
  match axis with
  | .x => ⟨height, first, second⟩
  | .y => ⟨second, height, first⟩
  | .z => ⟨first, second, height⟩

end Vec3

end PainterScene
