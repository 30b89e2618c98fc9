import PainterScene.Geometry.Axis

/-!
# Node handles and problems

Nodes are named by their place in the scene. A request that names the wrong node, or a node whose
data do not fit together, is a `Problem`.
-/

namespace PainterScene

structure NodeId where
  index : Nat
deriving DecidableEq

inductive Problem
  /-- The axes of a cell surface do not name each axis once. -/
  | invalidAxes (value axis1 axis2 : Axis)
  /-- A grid has another number of values than it has places for. -/
  | sizeMismatch (cells values : Nat)
  /-- No node of the scene has this handle. -/
  | unknownNode (id : NodeId)
  /-- The node cannot have children. -/
  | notAGroup (id : NodeId)
deriving DecidableEq

namespace Problem

def message : Problem → String
  | invalidAxes value axis1 axis2 =>
    s!"data mesh axes are not a permutation of x/y/z: value={value.name} " ++
      s!"axis1={axis1.name} axis2={axis2.name}"
  | sizeMismatch cells values => s!"data mesh has {cells} cells but {values} values"
  | unknownNode id => s!"unknown scene node {id.index}"
  | notAGroup id => s!"scene node {id.index} is not a container"

end Problem

end PainterScene
