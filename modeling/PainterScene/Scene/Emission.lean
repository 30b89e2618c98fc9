import PainterScene.FragmentList
import PainterScene.Scene

/-!
# Emission

A pass over a scene visits the nodes below a root, depth first and children in order. What it meets
is a list of emissions: the fragments of the shapes, the problems of those that cannot be drawn, and
the groups that are skipped because they face away. A fragment list records them.
-/

namespace PainterScene

inductive Emission (α : Type)
  | fragment (f : Fragment α)
  | problem (p : Problem)
  /-- The group faces away, and nothing below it is visited. -/
  | culled (id : NodeId)
deriving DecidableEq

variable {α : Type} [Scalar α]

namespace Emission

def ofResult : Except Problem (List (Fragment α)) → List (Emission α)
  | .ok fragments => fragments.map fragment
  | .error p => [problem p]

end Emission

/-- Whether the children of a group are visited; `frame` is the one below its transform. -/
def Group.isVisible (group : Group α) (frame : Frame α) : Bool :=
  group.facing.all frame.faces

def Node.emissions (node : Node α) (frame : Frame α) (id : NodeId) : List (Emission α) :=
  match node with
  | .facet t => (t.fragments frame id).map .fragment
  | .polyline l => (l.fragments frame id).map .fragment
  | .segments s => (s.fragments frame id).map .fragment
  | .heightField m => Emission.ofResult (m.fragments frame id)
  | .cellSurface m => Emission.ofResult (m.fragments frame id)
  | .scatter s => (s.fragments frame id).map .fragment
  | .labels l => (l.fragments frame id).map .fragment
  | .group _ => []

namespace Scene

/-- The emissions of a node and of what lies below it, down to `depth` levels. -/
def emissionsWithin (scene : Scene α) : Nat → NodeId → Frame α → List (Emission α)
  | 0, _, _ => []
  | depth + 1, id, frame =>
    match scene.node? id with
    | none => [.problem (.unknownNode id)]
    | some (.group group) =>
      let below := frame.enter group.transform
      if group.isVisible below then
        group.children.flatMap fun child => emissionsWithin scene depth child below
      else [.culled id]
    | some shape => shape.emissions frame id

/-- The emissions of a node and of all that lies below it. No way down from a node meets a node
twice, so there are no more levels than nodes, and one for a handle that names no node. -/
def emissions (scene : Scene α) (id : NodeId) (frame : Frame α) : List (Emission α) :=
  scene.emissionsWithin (scene.size + 1) id frame

end Scene

def FragmentList.record (list : FragmentList α) : Emission α → FragmentList α
  | .fragment f => list.push f
  | .problem p => list.report p
  | .culled _ => list

namespace Scene

def emitInto (scene : Scene α) (id : NodeId) (frame : Frame α) (list : FragmentList α) :
    FragmentList α :=
  (scene.emissions id frame).foldl FragmentList.record list

def render (scene : Scene α) (root : NodeId) (camera : Camera α) : FragmentList α :=
  scene.emitInto root camera.frame .empty

end Scene

end PainterScene
