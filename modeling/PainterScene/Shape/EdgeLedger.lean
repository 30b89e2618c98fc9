import PainterScene.Word

/-!
# Grid edges

The edges of a grid of cells, each claimed once. An edge is filed under its lower end and its
direction, so the two cells that share it file it in the same place. Places are computed in machine
words, so a grid with too many points has a ledger that is too short for it, or none.
-/

namespace PainterScene

/-- A side of a grid cell: low or high on the first or the second axis. -/
inductive Side
  | low1
  | high2
  | high1
  | low2
deriving DecidableEq

namespace Side

/-- The sides in the order in which a cell draws them. -/
def all : List Side :=
  [low1, high2, high1, low2]

/-- The side by its place in that order; every further number stands for the last one. -/
def ofIndex : Nat → Side
  | 0 => low1
  | 1 => high2
  | 2 => high1
  | _ => low2

def along1 : Side → Bool
  | low1 | high1 => false
  | high2 | low2 => true

end Side

/-- Which edges of a grid have been claimed, with two entries for each grid point: the edge from
there along the first axis, then the one along the second. -/
structure EdgeLedger where
  /-- The number of grid points along the second axis. -/
  stride : Nat
  claimed : Array Bool

namespace EdgeLedger

def points (n1 n2 : Nat) : Nat :=
  Word.wrap ((n1 + 1) * (n2 + 1))

def ofCells (n1 n2 : Nat) : EdgeLedger where
  stride := Word.wrap (n2 + 1)
  claimed := Array.replicate (2 * points n1 n2) false

/-- The ledger of a grid, if there can be a list with a byte for each grid point. -/
def ofCells? (n1 n2 : Nat) : Option EdgeLedger :=
  if points n1 n2 ≤ Word.maxLength then some (ofCells n1 n2) else none

def place (ledger : EdgeLedger) (v1 v2 : Nat) : Nat :=
  Word.wrap (v1 * ledger.stride + v2)

def entry (ledger : EdgeLedger) (i1 i2 : Nat) : Side → Nat
  | .low1 => 2 * ledger.place i1 i2 + 1
  | .high2 => 2 * ledger.place i1 (i2 + 1)
  | .high1 => 2 * ledger.place (i1 + 1) i2 + 1
  | .low2 => 2 * ledger.place i1 i2

/-- Claims a side of cell `(i1, i2)` and says whether it was free; there is no answer for an entry
outside the ledger. -/
def claim? (ledger : EdgeLedger) (i1 i2 : Nat) (side : Side) : Option (Bool × EdgeLedger) :=
  let k := ledger.entry i1 i2 side
  ledger.claimed[k]?.map fun taken =>
    (!taken, { ledger with claimed := ledger.claimed.setIfInBounds k true })

def claimAll (ledger : EdgeLedger) (i1 i2 : Nat) : List Side → List Side × EdgeLedger
  | [] => ([], ledger)
  | side :: sides =>
    match ledger.claim? i1 i2 side with
    | some (free, next) =>
      let (kept, final) := next.claimAll i1 i2 sides
      (if free then side :: kept else kept, final)
    | none => ledger.claimAll i1 i2 sides

end EdgeLedger

end PainterScene
