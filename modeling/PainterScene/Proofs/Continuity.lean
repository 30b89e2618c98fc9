import Mathlib
import PainterScene.Shape.CellSurface

/-!
# Cell surfaces are continuous

Counted in half steps of the grid, a spot of a cell has a place that does not mention the cell. The
height of a spot and its position depend on the place alone: cells that share it find the same
neighbours in the same order, those at the border of the grid included, so even rounding comes out
alike. Neighbouring cells therefore agree along a common side, and all four cells around a grid
point agree there.
-/

namespace PainterScene

/-- The ends of a side of cell `(i1, i2)` among the grid points, the lower one first. -/
def Side.ends (i1 i2 : Nat) : Side → (Nat × Nat) × (Nat × Nat)
  | low1 => ((i1, i2), (i1, i2 + 1))
  | high2 => ((i1, i2 + 1), (i1 + 1, i2 + 1))
  | high1 => ((i1 + 1, i2), (i1 + 1, i2 + 1))
  | low2 => ((i1, i2), (i1 + 1, i2))

namespace CellSurface

/-- The place of a spot of cell `(i1, i2)` in half steps of the grid. -/
def spotPlace (i1 i2 : Nat) (spot : Spot) : Nat × Nat :=
  (2 * i1 + spot.1.val, 2 * i2 + spot.2.val)

/-- The cells of a row of `n` that touch the place `k` half steps along it; beyond the ends of the
row the outermost cell stands in. -/
def cellsAt (n k : Nat) : List Nat :=
  if k % 2 = 1 then [min (k / 2) (n - 1)] else [min (k / 2 - 1) (n - 1), min (k / 2) (n - 1)]

/-- The cells that touch a spot depend on its place alone. -/
theorem map_neighbour (n i : Nat) (a : Fin 3) :
    (touching a).map (neighbour n i) = cellsAt n (2 * i + a.val) := by
  unfold cellsAt
  match a with
  | 0 => simp [touching, neighbour]
  | 1 =>
      have hhalf : (2 * i + 1) / 2 = i := by omega
      simp [touching, neighbour, hhalf]
  | 2 =>
      have hhalf : (2 * i + 2) / 2 = i + 1 := by omega
      simp [touching, neighbour, hhalf]

variable {α : Type} [Scalar α]

/-- The coordinate `k` half steps along an axis: a bound of cells or the middle between two. -/
def boundAt (edges : Array α) (k : Nat) : α :=
  let low := edges.getD (k / 2) 0
  if k % 2 = 1 then 0.5 * (low + edges.getD (k / 2 + 1) 0) else low

/-- So do its coordinates. -/
theorem get_bounds (edges : Array α) (i : Nat) (a : Fin 3) :
    (bounds edges i).get a = boundAt edges (2 * i + a.val) := by
  unfold boundAt
  match a with
  | 0 => simp [bounds, Triple.get]
  | 1 =>
      have hhalf : (2 * i + 1) / 2 = i := by omega
      simp [bounds, Triple.get, hhalf]
  | 2 =>
      have hhalf : (2 * i + 2) / 2 = i + 1 := by omega
      simp [bounds, Triple.get, hhalf]

section Place

variable (m : CellSurface α)

theorem touchingValues_eq (i1 i2 : Nat) (spot : Spot) :
    m.touchingValues i1 i2 spot =
      ((touching spot.1).map (neighbour m.cells1 i1)).flatMap fun c1 =>
        ((touching spot.2).map (neighbour m.cells2 i2)).map (m.value c1) := by
  simp only [touchingValues, List.flatMap_map, List.map_map]
  rfl

/-- The centre of a cell is what lies between two bounds on both axes. -/
theorem eq_centre_iff (i1 i2 : Nat) (spot : Spot) :
    spot = (1, 1) ↔ (spotPlace i1 i2 spot).1 % 2 = 1 ∧ (spotPlace i1 i2 spot).2 % 2 = 1 := by
  rw [Prod.ext_iff, Fin.ext_iff, Fin.ext_iff]
  change spot.1.val = 1 ∧ spot.2.val = 1 ↔
    (2 * i1 + spot.1.val) % 2 = 1 ∧ (2 * i2 + spot.2.val) % 2 = 1
  omega

/-- The height of the surface at a place: the value of a cell in its centre, and the mean of the
values of the cells around everywhere else. -/
def heightAt (place : Nat × Nat) : α :=
  if place.1 % 2 = 1 ∧ place.2 % 2 = 1 then m.value (place.1 / 2) (place.2 / 2)
  else
    Scalar.mean (((cellsAt m.cells1 place.1).flatMap fun c1 =>
      (cellsAt m.cells2 place.2).map (m.value c1)).filter Scalar.isFinite)

def pointAt (place : Nat × Nat) : Vec3 α :=
  (((0 : Vec3 α).setAxis m.valueAxis (m.heightAt place)).setAxis m.axis1
    (boundAt m.edges1 place.1)).setAxis m.axis2 (boundAt m.edges2 place.2)

/-- All cells that share a spot find the same height there. -/
theorem height_eq_heightAt (i1 i2 : Nat) (spot : Spot) :
    m.height i1 i2 spot = m.heightAt (spotPlace i1 i2 spot) := by
  unfold height heightAt
  by_cases hcentre : spot = (1, 1)
  · have hhalf : ∀ i : Nat, (2 * i + 1) / 2 = i := by omega
    rw [if_pos hcentre, if_pos ((eq_centre_iff i1 i2 spot).mp hcentre), hcentre]
    simp [spotPlace, hhalf]
  · rw [if_neg hcentre, if_neg (mt (eq_centre_iff i1 i2 spot).mpr hcentre), touchingValues_eq,
      map_neighbour, map_neighbour, spotPlace]

/-- All cells that share a spot put it at the same position. -/
theorem point_eq_pointAt (i1 i2 : Nat) (spot : Spot) :
    m.point i1 i2 spot = m.pointAt (spotPlace i1 i2 spot) := by
  rw [point, pointAt, height_eq_heightAt, get_bounds, get_bounds, spotPlace]

end Place

/-- The spots along a side are its lower end, its middle and its upper end. -/
theorem map_spotPlace_spots (i1 i2 : Nat) (side : Side) :
    side.spots.map (spotPlace i1 i2) =
      let p := (side.ends i1 i2).1
      let q := (side.ends i1 i2).2
      ⟨(2 * p.1, 2 * p.2), (p.1 + q.1, p.2 + q.2), (2 * q.1, 2 * q.2)⟩ := by
  cases side <;> simp [Side.spots, Side.ends, Triple.map, spotPlace] <;> omega

/-- The four cells around grid point `(i1 + 1, i2 + 1)`, each with the corner that it has there. -/
def around (i1 i2 : Nat) : List ((Nat × Nat) × Spot) :=
  [((i1, i2), Side.high1.spots.third), ((i1, i2 + 1), Side.high1.spots.first),
    ((i1 + 1, i2), Side.low1.spots.third), ((i1 + 1, i2 + 1), Side.low1.spots.first)]

theorem spotPlace_around {i1 i2 : Nat} {corner : (Nat × Nat) × Spot}
    (hcorner : corner ∈ around i1 i2) :
    spotPlace corner.1.1 corner.1.2 corner.2 = (2 * (i1 + 1), 2 * (i2 + 1)) := by
  simp only [around, List.mem_cons, List.not_mem_nil, or_false] at hcorner
  obtain rfl | rfl | rfl | rfl := hcorner
  all_goals rfl

/-- **The surface has no cracks.** Two cells with a common side compute the same heights and
positions for the three spots along it, and the four cells around a grid point the same ones for
their common corner, whatever the arithmetic and wherever values are missing. -/
theorem shared_spots_agree (m : CellSurface α) :
    (∀ i1 i2 j1 j2 side side', Side.ends i1 i2 side = Side.ends j1 j2 side' →
      side.spots.map (m.height i1 i2) = side'.spots.map (m.height j1 j2) ∧
        side.spots.map (m.point i1 i2) = side'.spots.map (m.point j1 j2)) ∧
    ∀ i1 i2, ∀ a ∈ around i1 i2, ∀ b ∈ around i1 i2,
      m.height a.1.1 a.1.2 a.2 = m.height b.1.1 b.1.2 b.2 ∧
        m.point a.1.1 a.1.2 a.2 = m.point b.1.1 b.1.2 b.2 := by
  constructor
  · intro i1 i2 j1 j2 side side' hends
    have hplaces : side.spots.map (spotPlace i1 i2) = side'.spots.map (spotPlace j1 j2) := by
      rw [map_spotPlace_spots, map_spotPlace_spots, hends]
    obtain ⟨hfirst, hsecond, hthird⟩ := Triple.ext_iff.mp hplaces
    simp only [Triple.map] at hfirst hsecond hthird
    simp only [Triple.map, height_eq_heightAt, point_eq_pointAt, hfirst, hsecond, hthird, and_self]
  · intro i1 i2 a ha b hb
    simp only [height_eq_heightAt, point_eq_pointAt, spotPlace_around ha, spotPlace_around hb,
      and_self]

def dented : CellSurface Float where
  edges1 := #[0.0, 1.0, 3.0]
  edges2 := #[0.0, 1.0, 2.0]
  values := #[1.0, 0.0 / 0.0, 2.0, 5.0]
  valueAxis := .z
  axis1 := .x
  axis2 := .y

theorem dented_agrees :
    dented.problem? = none ∧ Side.ends 0 0 .high1 = Side.ends 1 0 .low1 ∧
    Side.high1.spots.map (dented.height 0 0) = Side.low1.spots.map (dented.height 1 0) ∧
    Side.high1.spots.map (dented.point 0 0) = Side.low1.spots.map (dented.point 1 0) ∧
    dented.height 0 0 (2, 1) = 1.5 ∧ dented.height 0 1 (2, 0) = 8.0 / 3.0 ∧
    dented.height 0 1 (2, 0) = dented.height 1 0 (0, 2) := by
  obtain ⟨hsides, hcorners⟩ := shared_spots_agree dented
  obtain ⟨hheights, hpoints⟩ := hsides 0 0 1 0 .high1 .low1 rfl
  obtain ⟨hcorner, -⟩ := hcorners 0 0 ((0, 1), (2, 0)) (by simp [around, Side.spots])
    ((1, 0), (0, 2)) (by simp [around, Side.spots])
  exact ⟨by decide, rfl, hheights, hpoints, by decide +kernel, by decide +kernel, hcorner⟩

end CellSurface

end PainterScene
