import PainterScene.Overlap

/-!
# Splitting

Two triangles whose depth planes cross inside their overlap are cut along the crossing, so that
each piece has one place in the order of painting. `cutPair?` cuts whole triangles;
`splitInPlace` also separates the overlap from what lies outside it, inside a shared buffer.
-/

namespace PainterScene

variable {α : Type} [Scalar α]

/-- What a fragment became: one piece at least. -/
structure Pieces (α : Type) where
  first : Fragment α
  rest : List (Fragment α)
deriving DecidableEq

namespace Pieces

def count (p : Pieces α) : Nat :=
  p.rest.length + 1

def toList (p : Pieces α) : List (Fragment α) :=
  p.first :: p.rest

def whole (f : Fragment α) : Pieces α :=
  ⟨f, []⟩

end Pieces

namespace Overlap

def depthsInterleave (rule : SplitRule α) (f g : Fragment α) : Bool :=
  g.minDepth + rule.depthTolerance < f.maxDepth && f.minDepth + rule.depthTolerance < g.maxDepth

/-- The pieces of a triangle on both sides of a line; a triangle that would give a single piece
stays whole. -/
def cutAlong (rule : SplitRule α) (cut : HalfPlane α) (t : ScreenTriangle α) : Pieces α :=
  let halves := [t.footprint.clip rule.mergeDistance cut,
    t.footprint.clip rule.mergeDistance cut.flip]
  let triangles := halves.flatMap (Polygon.triangulate rule.areaTolerance)
  match triangles.map t.piece with
  | first :: second :: rest => ⟨first, second :: rest⟩
  | _ => Pieces.whole t.fragment

def cutPair? (rule : SplitRule α) (f g : Fragment α) : Option (Pieces α × Pieces α) := do
  let overlap ← ofFragments? rule f g
  let cut ← overlap.cut
  if depthsInterleave rule f g then
    some (cutAlong rule cut overlap.first, cutAlong rule cut overlap.second)
  else none

def splitPair (rule : SplitRule α) (f g : Fragment α) : Pieces α × Pieces α :=
  (cutPair? rule f g).getD (Pieces.whole f, Pieces.whole g)

def sharedParts (rule : SplitRule α) (overlap : Overlap α) : List (Polygon α) :=
  match overlap.cut with
  | some cut =>
    [overlap.polygon.clip rule.mergeDistance cut, overlap.polygon.clip rule.mergeDistance cut.flip]
  | none => [overlap.polygon]

/-- The pieces of `t` over the shared parts, then those over what `other` leaves of it. -/
def piecesOver (rule : SplitRule α) (shared : List (Polygon α)) (t other : ScreenTriangle α) :
    List (Fragment α) :=
  let outside :=
    Polygon.subtract rule.mergeDistance rule.areaTolerance t.footprint other.footprint
  ((shared ++ outside).flatMap (Polygon.triangulate rule.areaTolerance)).map t.piece

/-- The pieces of both triangles of an overlap, if one of them falls into several and neither
vanishes. -/
def partition? (rule : SplitRule α) (overlap : Overlap α) : Option (Pieces α × Pieces α) :=
  let shared := sharedParts rule overlap
  match piecesOver rule shared overlap.first overlap.second,
    piecesOver rule shared overlap.second overlap.first with
  | first :: rest, first' :: rest' =>
    if rest.isEmpty ∧ rest'.isEmpty then none else some (⟨first, rest⟩, ⟨first', rest'⟩)
  | _, _ => none

/-- Puts the first of several pieces in slot `i`; a single piece leaves the slot as it is. -/
def replaceSlot (buffer : Array (Fragment α)) (i : Nat) (pieces : Pieces α) :
    Array (Fragment α) :=
  if pieces.rest.isEmpty then buffer else buffer.setIfInBounds i pieces.first

def partitionSlots? (rule : SplitRule α) (buffer : Array (Fragment α)) (i j : Nat) :
    Option (Pieces α × Pieces α) :=
  if i = j then none
  else do
    let f ← buffer[i]?
    let g ← buffer[j]?
    let overlap ← ofFragments? rule f g
    partition? rule overlap

/-- Splits two slots of a buffer where their footprints overlap. The first piece of each takes its
slot and the others are appended, those of slot `i` before those of slot `j`. -/
def splitInPlace (rule : SplitRule α) (buffer : Array (Fragment α)) (i j : Nat) :
    (Nat × Nat) × Array (Fragment α) :=
  match partitionSlots? rule buffer i j with
  | none => ((1, 1), buffer)
  | some (p, q) =>
    ((p.count, q.count), replaceSlot (replaceSlot buffer i p) j q ++ p.rest ++ q.rest)

end Overlap

end PainterScene
