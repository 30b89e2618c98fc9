import PainterScene.Geometry.Axis
import PainterScene.Shape.Frame
import PainterScene.Word

/-!
# Height fields

A height over each point of a rectangular grid, drawn as a wireframe, as a surface of two triangles
per cell, or as both.
-/

namespace PainterScene

structure HeightField (α : Type) where
  positions1 : Array α := #[]
  positions2 : Array α := #[]
  /-- The heights, row by row along the second axis of the grid. -/
  heights : Array α := #[]
  /-- The axis of the heights; the axes of the grid follow it in cyclic order. -/
  heightAxis : Axis := .x
  line : Option LineStyle := none
  surface : Option SurfaceStyle := none
  /-- Leave out the wireframe lines along the first axis of the grid. -/
  hideLines1 : Bool := false
  /-- Leave out the wireframe lines along the second axis of the grid. -/
  hideLines2 : Bool := false
deriving DecidableEq

namespace HeightField

variable {α : Type} [Scalar α]

def rows (m : HeightField α) : Nat :=
  m.positions1.size

def columns (m : HeightField α) : Nat :=
  m.positions2.size

/-- The number of places of the grid, as a machine word. -/
def places (m : HeightField α) : Nat :=
  Word.wrap (m.rows * m.columns)

def problem? (m : HeightField α) : Option Problem :=
  if m.heights.size < m.places then some (.sizeMismatch m.places m.heights.size) else none

def point (m : HeightField α) (i j : Nat) : Vec3 α :=
  Vec3.onPlane m.heightAxis (m.heights.getD (i * m.columns + j) 0) (m.positions1.getD i 0)
    (m.positions2.getD j 0)

def edge (m : HeightField α) (frame : Frame α) (id : NodeId) (a b : Nat × Nat) : Fragment α :=
  Fragment.ofSegment id m.line (frame.place (m.point a.1 a.2)) (frame.place (m.point b.1 b.2))

def lines1 (m : HeightField α) (frame : Frame α) (id : NodeId) : List (Fragment α) :=
  (List.range m.columns).flatMap fun j =>
    (List.range (m.rows - 1)).map fun i => m.edge frame id (i, j) (i + 1, j)

def lines2 (m : HeightField α) (frame : Frame α) (id : NodeId) : List (Fragment α) :=
  (List.range m.rows).flatMap fun i =>
    (List.range (m.columns - 1)).map fun j => m.edge frame id (i, j) (i, j + 1)

def wireframe (m : HeightField α) (frame : Frame α) (id : NodeId) : List (Fragment α) :=
  if m.line.isNone then []
  else
    ((if m.hideLines1 then [] else m.lines1 frame id) ++
      (if m.hideLines2 then [] else m.lines2 frame id)).filter Fragment.isFinite

/-- The sum that decides whether a cell is drawn. -/
def cornerSum (m : HeightField α) (i j : Nat) : Vec3 α :=
  m.point i j + m.point (i + 1) j + m.point i (j + 1) + m.point (i + 1) (j + 1)

/-- The two triangles of a cell, which share the diagonal off its first corner. -/
def cellPair (m : HeightField α) (frame : Frame α) (id : NodeId) (i j : Nat) : List (Fragment α) :=
  [m.point i j, m.point (i + 1) (j + 1)].map fun p =>
    Fragment.ofTriangle id m.surface
      ⟨frame.place p, frame.place (m.point (i + 1) j), frame.place (m.point i (j + 1))⟩

def cellTriangles (m : HeightField α) (frame : Frame α) (id : NodeId) (i j : Nat) :
    List (Fragment α) :=
  if (m.cornerSum i j).isFinite then m.cellPair frame id i j else []

def triangles (m : HeightField α) (frame : Frame α) (id : NodeId) : List (Fragment α) :=
  if m.surface.isNone then []
  else
    (List.range (m.rows - 1)).flatMap fun i =>
      (List.range (m.columns - 1)).flatMap fun j => m.cellTriangles frame id i j

def fragments (m : HeightField α) (frame : Frame α) (id : NodeId) :
    Except Problem (List (Fragment α)) :=
  match m.problem? with
  | some problem => .error problem
  | none => .ok (m.wireframe frame id ++ m.triangles frame id)

end HeightField

end PainterScene
