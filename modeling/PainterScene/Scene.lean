import PainterScene.Shape.CellSurface
import PainterScene.Shape.Facet
import PainterScene.Shape.HeightField
import PainterScene.Shape.Line
import PainterScene.Shape.Point

/-!
# Scenes

A scene is a growing array of nodes: shapes that are drawn, and groups that carry a transform and a
list of children. Nodes are named by their place and never removed.
-/

namespace PainterScene

structure Group (α : Type) where
  transform : Mat4 α
  /-- A normal below the transform; the children are skipped unless it faces the viewer. -/
  facing : Option (Vec3 α) := none
  /-- The children in the order in which they were added. -/
  children : List NodeId := []
deriving DecidableEq

inductive Node (α : Type)
  | facet (facet : Facet α)
  | polyline (line : Polyline α)
  | segments (segments : SegmentSet α)
  | heightField (field : HeightField α)
  | cellSurface (surface : CellSurface α)
  | scatter (scatter : Scatter α)
  | labels (labels : LabelSet α)
  | group (group : Group α)
deriving DecidableEq

def Node.isGroup {α : Type} : Node α → Bool
  | group _ => true
  | _ => false

structure Scene (α : Type) where
  nodes : Array (Node α) := #[]
deriving DecidableEq

namespace Scene

variable {α : Type} [Scalar α]

def size (scene : Scene α) : Nat :=
  scene.nodes.size

def node? (scene : Scene α) (id : NodeId) : Option (Node α) :=
  scene.nodes[id.index]?

def group? (scene : Scene α) (id : NodeId) : Option (Group α) :=
  match scene.node? id with
  | some (.group group) => some group
  | _ => none

def add (scene : Scene α) (node : Node α) : NodeId × Scene α :=
  (⟨scene.size⟩, ⟨scene.nodes.push node⟩)

def set (scene : Scene α) (id : NodeId) (node : Node α) : Scene α :=
  ⟨scene.nodes.setIfInBounds id.index node⟩

def addChild (scene : Scene α) (parent : NodeId) (node : Node α) :
    Except Problem (NodeId × Scene α) :=
  match scene.node? parent with
  | none => .error (.unknownNode parent)
  | some (.group group) =>
    let (id, grown) := scene.add node
    .ok (id, grown.set parent (.group { group with children := group.children ++ [id] }))
  | some _ => .error (.notAGroup parent)

/-- Adds a copy of a group, with the children that it has now. -/
def duplicate? (scene : Scene α) (id : NodeId) : Option (NodeId × Scene α) :=
  (scene.group? id).map fun group => scene.add (.group group)

def replace? (scene : Scene α) (id : NodeId) (node : Node α) : Option (Scene α) :=
  (scene.node? id).map fun _ => scene.set id node

def setTransform? (scene : Scene α) (id : NodeId) (transform : Mat4 α) : Option (Scene α) :=
  (scene.group? id).map fun group => scene.set id (.group { group with transform })

def addPoints? (scene : Scene α) (id : NodeId) (xs ys zs : List α) :
    Option (Polyline α × Scene α) :=
  match scene.node? id with
  | some (.polyline line) =>
    let longer := line.addPoints xs ys zs
    some (longer, scene.set id (.polyline longer))
  | _ => none

end Scene

end PainterScene
