import PainterScene.PaintOrder
import PainterScene.Scene
import PainterScene.Text.FixedDecimal

/-!
# Canvases

A canvas counts what is painted on it and keeps the text of the labels in the order of painting.
-/

namespace PainterScene

structure Canvas where
  triangles : Nat := 0
  lines : Nat := 0
  markers : Nat := 0
  labels : Array String := #[]
deriving DecidableEq

def padRight (width : Nat) (text : String) : String :=
  text ++ String.ofList (List.replicate (width - text.length) ' ')

variable {α : Type} [Stored α]

/-- The text of the label at `index` between two screen positions: its name, where it starts, and
the angle in degrees at which it runs. -/
def LabelSet.text (labels : LabelSet α) (index : Nat) (start stop : Vec2 α) : String :=
  let name := labels.names.getD index "?"
  let angle := Float.atan2 (Stored.toFloat (stop.y - start.y)) (Stored.toFloat (stop.x - start.x))
  padRight 6 name ++ " at (" ++ FixedDecimal.render 3 (Stored.toFloat start.x) ++ ", " ++
    FixedDecimal.render 3 (Stored.toFloat start.y) ++ ") angle " ++
    FixedDecimal.render 1 (Angle.toDegrees angle)

/-- The text of a label fragment, if its source still is a set of labels. -/
def Scene.labelText? (scene : Scene α) (f : Fragment α) (start stop : Vec2 α) :
    Option String :=
  match f.payload, f.source.bind scene.node? with
  | some (.label index _), some (.labels labels) => some (labels.text index start stop)
  | _, _ => none

namespace Canvas

def drawLabel (canvas : Canvas) (scene : Scene α) (f : Fragment α) (start stop : Vec2 α) :
    Canvas :=
  match scene.labelText? f start stop with
  | some text => { canvas with labels := canvas.labels.push text }
  | none => canvas

def draw (scene : Scene α) (camera : Camera α) (canvas : Canvas) (f : Fragment α) : Canvas :=
  match f.kind, f.payload with
  | .triangle, _ => { canvas with triangles := canvas.triangles + 1 }
  | .segment, _ => { canvas with lines := canvas.lines + 1 }
  | .marker, some (.label _ anchor) =>
    canvas.drawLabel scene f f.vertices.first.screen (camera.project (anchor.extend 1)).screen
  | .marker, _ => { canvas with markers := canvas.markers + 1 }
  | .empty, _ => canvas

def paint (canvas : Canvas) (scene : Scene α) (camera : Camera α) (list : FragmentList α) :
    Canvas × FragmentList α :=
  let (fragments, fresh) := list.inPaintOrder
  (fragments.foldl (draw scene camera) canvas, fresh)

end Canvas

end PainterScene
