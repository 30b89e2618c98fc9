import PainterScene.Geometry.Axis
import PainterScene.Shape.EdgeLedger
import PainterScene.Shape.Frame

/-!
# Cell surfaces

An irregular grid with one value per cell, drawn as a continuous surface. Each cell is a patch of
three by three spots: its corners, the middles of its sides and its centre. The centre has the
cell's own value, and every other spot the mean of the values of the cells that touch it, missing
ones left out.
-/

namespace PainterScene

structure CellSurface (α : Type) where
  /-- The bounds of the cells on the first axis, one more than there are cells. -/
  edges1 : Array α := #[]
  /-- The bounds of the cells on the second axis, one more than there are cells. -/
  edges2 : Array α := #[]
  /-- The values of the cells, row by row along the second axis. -/
  values : Array α := #[]
  valueAxis : Axis := .x
  axis1 : Axis := .x
  axis2 : Axis := .x
  /-- Eight triangles around the centre of each cell instead of two. -/
  fine : Bool := false
  line : Option LineStyle := none
  surface : Option SurfaceStyle := none
  /-- Leave out the grid lines along the first axis. -/
  hideLines1 : Bool := false
  /-- Leave out the grid lines along the second axis. -/
  hideLines2 : Bool := false
deriving DecidableEq

/-- A place in a patch: along the first axis, then along the second. -/
abbrev Spot := Fin 3 × Fin 3

/-- A value at each spot of a cell, row by row along the second axis. -/
abbrev Patch (β : Type) := Triple (Triple β)

namespace Patch

variable {β : Type}

def ofSpots (f : Spot → β) : Patch β :=
  ⟨⟨f (0, 0), f (0, 1), f (0, 2)⟩, ⟨f (1, 0), f (1, 1), f (1, 2)⟩,
    ⟨f (2, 0), f (2, 1), f (2, 2)⟩⟩

def value (p : Patch β) (spot : Spot) : β :=
  (p.get spot.1).get spot.2

end Patch

def Side.spots : Side → Triple Spot
  | low1 => ⟨(0, 0), (0, 1), (0, 2)⟩
  | high2 => ⟨(0, 2), (1, 2), (2, 2)⟩
  | high1 => ⟨(2, 0), (2, 1), (2, 2)⟩
  | low2 => ⟨(0, 0), (1, 0), (2, 0)⟩

namespace CellSurface

def coarseTriangles : List (Triple Spot) :=
  [⟨(0, 0), (0, 2), (2, 2)⟩, ⟨(0, 0), (2, 0), (2, 2)⟩]

def fineTriangles : List (Triple Spot) :=
  [⟨(0, 0), (0, 1), (1, 1)⟩, ⟨(0, 1), (0, 2), (1, 1)⟩, ⟨(0, 2), (1, 2), (1, 1)⟩,
    ⟨(1, 2), (2, 2), (1, 1)⟩, ⟨(2, 2), (2, 1), (1, 1)⟩, ⟨(2, 1), (2, 0), (1, 1)⟩,
    ⟨(2, 0), (1, 0), (1, 1)⟩, ⟨(1, 0), (0, 0), (1, 1)⟩]

def touching : Fin 3 → List Nat
  | 0 => [0, 1]
  | 1 => [1]
  | 2 => [1, 2]

/-- The cell before cell `i`, itself or the one after it for `step` 0, 1 and 2, kept inside a row
of `n` cells. -/
def neighbour (n i step : Nat) : Nat :=
  min (i + step - 1) (n - 1)

variable {α : Type} [Scalar α]

def cells1 (m : CellSurface α) : Nat :=
  m.edges1.size - 1

def cells2 (m : CellSurface α) : Nat :=
  m.edges2.size - 1

/-- The number of cells, as a machine word. -/
def cellCount (m : CellSurface α) : Nat :=
  Word.wrap (m.cells1 * m.cells2)

def problem? (m : CellSurface α) : Option Problem :=
  if !Axis.isPermutation m.valueAxis m.axis1 m.axis2 then
    some (.invalidAxes m.valueAxis m.axis1 m.axis2)
  else if m.cellCount ≠ m.values.size then
    some (.sizeMismatch m.cellCount m.values.size)
  else none

def value (m : CellSurface α) (i1 i2 : Nat) : α :=
  m.values.getD (i1 * m.cells2 + i2) 0

def touchingValues (m : CellSurface α) (i1 i2 : Nat) (spot : Spot) : List α :=
  (touching spot.1).flatMap fun step1 =>
    (touching spot.2).map fun step2 =>
      m.value (neighbour m.cells1 i1 step1) (neighbour m.cells2 i2 step2)

def height (m : CellSurface α) (i1 i2 : Nat) (spot : Spot) : α :=
  if spot = (1, 1) then m.value i1 i2
  else Scalar.mean ((m.touchingValues i1 i2 spot).filter Scalar.isFinite)

def bounds (edges : Array α) (i : Nat) : Triple α :=
  let low := edges.getD i 0
  let high := edges.getD (i + 1) 0
  ⟨low, 0.5 * (low + high), high⟩

def point (m : CellSurface α) (i1 i2 : Nat) (spot : Spot) : Vec3 α :=
  (((0 : Vec3 α).setAxis m.valueAxis (m.height i1 i2 spot)).setAxis m.axis1
    ((bounds m.edges1 i1).get spot.1)).setAxis m.axis2 ((bounds m.edges2 i2).get spot.2)

def patch (m : CellSurface α) (frame : Frame α) (i1 i2 : Nat) : Patch (Vertex α) :=
  Patch.ofSpots fun spot => frame.place (m.point i1 i2 spot)

def triangles (m : CellSurface α) (id : NodeId) (patch : Patch (Vertex α)) : List (Fragment α) :=
  if m.surface.isNone then []
  else
    ((if m.fine then fineTriangles else coarseTriangles).map fun t =>
      Fragment.ofTriangle id m.surface (t.map patch.value)).filter Fragment.isFinite

/-- The grid line along one side of a cell, in two halves on a fine patch. -/
def sideLines (m : CellSurface α) (id : NodeId) (patch : Patch (Vertex α)) (side : Side) :
    List (Fragment α) :=
  let v := side.spots.map patch.value
  let spans :=
    if m.fine then [(v.first, v.second), (v.second, v.third)] else [(v.first, v.third)]
  (spans.map fun s => Fragment.ofSegment id m.line s.1 s.2).filter Fragment.isFinite

def visibleSides (m : CellSurface α) : List Side :=
  if m.line.isNone then []
  else Side.all.filter fun side => !(if side.along1 then m.hideLines1 else m.hideLines2)

/-- The fragments of the cells in turn; a cell without a value has none and claims no side. -/
def cellFragments (m : CellSurface α) (frame : Frame α) (id : NodeId) (ledger : EdgeLedger) :
    List (Nat × Nat) → List (Fragment α)
  | [] => []
  | (i1, i2) :: cells =>
    if Scalar.isFinite (m.value i1 i2) then
      let patch := m.patch frame i1 i2
      let (sides, next) := ledger.claimAll i1 i2 m.visibleSides
      m.triangles id patch ++ sides.flatMap (m.sideLines id patch) ++
        cellFragments m frame id next cells
    else cellFragments m frame id ledger cells

def cells (m : CellSurface α) : List (Nat × Nat) :=
  (List.range m.cells1).flatMap fun i1 => (List.range m.cells2).map fun i2 => (i1, i2)

def fragments (m : CellSurface α) (frame : Frame α) (id : NodeId) :
    Except Problem (List (Fragment α)) :=
  match m.problem? with
  | some problem => .error problem
  | none => .ok (m.cellFragments frame id (EdgeLedger.ofCells m.cells1 m.cells2) m.cells)

end CellSurface

end PainterScene
