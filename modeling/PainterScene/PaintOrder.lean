import PainterScene.FragmentList

/-!
# The order of painting

Fragments are painted from the back to the front: by descending mean depth, fragments of equal
depth in the order of their creation, and fragments that agree in both as they stand in the list.
Depths are compared in the total order of bit patterns, which puts the negative zero below the
positive one, and each pattern that is not a number beyond the infinity of its sign.
-/

namespace PainterScene

/-- A depth as it is ordered: the bit pattern of a double. The patterns that are not numbers are
told apart here, as they are not by the arithmetic. -/
structure Depth where
  bits : UInt64
deriving DecidableEq

variable {α : Type} [Stored α]

namespace Depth

def ofScalar (x : α) : Depth :=
  ⟨Stored.toBits x⟩

def value (d : Depth) : Float :=
  Float.ofBits d.bits

/-- The place of the pattern in the total order: patterns with the sign set come first, and from
the largest magnitude down. -/
def rank (d : Depth) : UInt64 :=
  if d.bits < 0x8000000000000000 then d.bits + 0x8000000000000000 else ~~~d.bits

protected def compare (a b : Depth) : Ordering :=
  compare a.rank b.rank

end Depth

/-- What decides the place of a fragment in the order of painting. -/
structure PaintKey where
  depth : Depth
  order : UInt32
deriving DecidableEq

namespace PaintKey

def compareDepth (a b : PaintKey) : Ordering :=
  a.depth.compare b.depth

protected def compare (a b : PaintKey) : Ordering :=
  (b.compareDepth a).then (compare a.order b.order)

/-- Equality of the depths as numbers, and of the creation indices. -/
def agrees (a b : PaintKey) : Bool :=
  a.depth.value == b.depth.value && a.order == b.order

def ofFragment (f : Fragment α) : PaintKey :=
  ⟨.ofScalar f.meanDepth, f.creationIndex⟩

/-- The positions of the keys, sorted by the keys; equal keys keep their order. -/
def sortedPositions (cmp : PaintKey → PaintKey → Ordering) (keys : List PaintKey) : List Nat :=
  (keys.zipIdx.mergeSort fun a b => (cmp a.1 b.1).isLE).map Prod.snd

end PaintKey

namespace FragmentList

def sort (list : FragmentList α) : FragmentList α :=
  { list with
    sorted :=
      PaintKey.sortedPositions PaintKey.compare (list.fragments.toList.map PaintKey.ofFragment)
    stale := false }

def refresh (list : FragmentList α) : FragmentList α :=
  if list.stale then list.sort else list

/-- The positions of the fragments in the order of painting, which the list remembers. -/
def paintOrder (list : FragmentList α) : List Nat × FragmentList α :=
  let fresh := list.refresh
  (fresh.sorted, fresh)

def inPaintOrder (list : FragmentList α) : List (Fragment α) × FragmentList α :=
  let fresh := list.refresh
  (fresh.sorted.filterMap fun i => fresh.fragments[i]?, fresh)

end FragmentList

end PainterScene
