import PainterScene.Scene

/-!
# The demonstration scene

A scene with every kind of shape: axes and their labels, a saddle with a plane through it, binned
data on a wall, a helix with markers, and a cube whose faces are skipped when they turn away.
-/

namespace PainterScene.Studio

abbrev Build := StateT (Scene Double) (Except Problem)

def addRoot (node : Node Double) : Build NodeId :=
  fun scene => .ok (scene.add node)

def addBelow (parent : NodeId) (node : Node Double) : Build NodeId :=
  fun scene => scene.addChild parent node

def axisEnds : List Double :=
  [3.0, 0, 0, 0, 3.0, 0, 0, 0, 3.0]

def axes : SegmentSet Double :=
  .ofFlat (List.replicate 9 0) axisEnds (some ⟨0⟩)

def axisLabels : LabelSet Double :=
  let tips := axisEnds.map (· * 1.1)
  { anchors := tips, directions := tips.map (· + 0.5), names := ["x", "y", "z"] }

def gridPositions : List Double :=
  (List.range 9).map fun i : Nat => -2.0 + 4.0 * (i : Double) / 8.0

def saddle : HeightField Double where
  positions1 := gridPositions.toArray
  positions2 := gridPositions.toArray
  heights :=
    (gridPositions.flatMap fun a => gridPositions.map fun b => 0.25 * (a * a - b * b)).toArray
  heightAxis := .z
  line := some ⟨1⟩
  surface := some ⟨0⟩

def cuttingPlane : Facet Double where
  corners := ⟨⟨-2.5, -2.5, -1⟩, ⟨2.5, -2.5, 1⟩, ⟨0, 2.5, 0⟩⟩
  surface := some ⟨1⟩

def binnedData : CellSurface Double :=
  let edges := ((List.range 5).map fun i : Nat => -2.0 + (i : Double)).toArray
  { edges1 := edges
    edges2 := edges
    values := ((List.range 16).map fun i : Nat =>
      if i = 5 then 0 / 0 else ((i % 5 : Nat) : Double) * 0.3).toArray
    valueAxis := .y
    axis1 := .x
    axis2 := .z
    fine := true
    line := some ⟨1⟩
    surface := some ⟨2⟩ }

def helixTimes : List Double :=
  (List.range 40).map fun i : Nat => (i : Double) * 0.2

def helixX : List Double :=
  helixTimes.map fun t => 1.5 * Stored.map Float.cos t

def helixY : List Double :=
  helixTimes.map fun t => 1.5 * Stored.map Float.sin t

def helixZ : List Double :=
  helixTimes.map fun t => t * 0.3 - 1

def helix : Polyline Double :=
  ({ line := some ⟨0⟩ } : Polyline Double).addPoints helixX helixY helixZ

def helixMarkers : Scatter Double where
  xs := helixX
  ys := helixY
  zs := helixZ
  sizes := helixTimes.map fun t => 1 + 0.1 * t
  marker := .circle 0.05 12
  surface := some ⟨0⟩

/-- The turns that bring the upper face of the cube onto each face. -/
def faceRotations : List (Mat4 Double) :=
  let quarter : Double := Angle.pi / 2.0
  [.rotationY quarter, .rotationY (-quarter), .rotationX (-quarter), .rotationX quarter,
    .identity, .rotationX Angle.pi]

def faceFacets : List (Facet Double) :=
  let a : Vec3 Double := ⟨-0.5, -0.5, 0.5⟩
  let b : Vec3 Double := ⟨0.5, -0.5, 0.5⟩
  let c : Vec3 Double := ⟨0.5, 0.5, 0.5⟩
  let d : Vec3 Double := ⟨-0.5, 0.5, 0.5⟩
  [{ corners := ⟨a, b, c⟩, surface := some ⟨3⟩ }, { corners := ⟨a, c, d⟩, surface := some ⟨3⟩ }]

/-- Adds a unit cube whose faces are skipped when they turn away from the viewer. -/
def addCube (parent : NodeId) (centre : Vec3 Double) : Build Unit := do
  let cube ← addBelow parent (.group { transform := .shift centre })
  for rotation in faceRotations do
    let face ← addBelow cube (.group { transform := rotation, facing := some ⟨0, 0, 1⟩ })
    for facet in faceFacets do
      let _ ← addBelow face (.facet facet)

def buildDemo : Build NodeId := do
  let root ← addRoot (.group { transform := .identity })
  let _ ← addBelow root (.segments axes)
  let _ ← addBelow root (.labels axisLabels)
  let _ ← addBelow root (.heightField saddle)
  let _ ← addBelow root (.facet cuttingPlane)
  let wall ← addBelow root (.group { transform := .shift ⟨0, 2.5, 0⟩ })
  let _ ← addBelow wall (.cellSurface binnedData)
  let _ ← addBelow root (.polyline helix)
  let _ ← addBelow root (.scatter helixMarkers)
  addCube root ⟨-3.0, -3.0, 0⟩
  return root

def demoScene : Except Problem (NodeId × Scene Double) :=
  buildDemo.run {}

end PainterScene.Studio
