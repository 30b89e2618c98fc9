import PainterScene.FragmentList
import PainterScene.Overlap.Split

/-!
# Resolving overlaps

Every pair of triangles whose depths interleave is split. Pieces take the slots of the triangles
they come from or go to the end of the buffer, and the scan reaches them there; it stops when the
buffer has grown to eight times what it was.
-/

namespace PainterScene

variable {α : Type} [Scalar α]

/-- The buffer while its overlaps are resolved, and what has been done so far. -/
structure Resolution (α : Type) where
  fragments : Array (Fragment α)
  /-- The pairs whose depths interleaved. -/
  pairs : Nat := 0
  /-- The pairs of which one triangle or both fell into pieces. -/
  splits : Nat := 0
  /-- The numbers of pieces of each pair that was cut, whether or not it fell apart. -/
  cuts : Array (Nat × Nat) := #[]
  /-- Whether the scan stopped because the buffer was full. -/
  exhausted : Bool := false

namespace Resolution

/-- Whether two triangles are each in front of some part of the other. -/
def interleaved (f g : Fragment α) : Bool :=
  f.kind = .triangle && g.kind = .triangle && f.minDepth < g.maxDepth && g.minDepth < f.maxDepth

def place (buffer : Array (Fragment α)) (i j : Nat) (p q : Pieces α) : Array (Fragment α) :=
  (buffer.setIfInBounds i p.first).setIfInBounds j q.first ++ p.rest ++ q.rest

def record (s : Resolution α) (i j : Nat) (p q : Pieces α) : Resolution α :=
  let cut := { s with cuts := s.cuts.push (p.count, q.count) }
  if 1 < p.count ∨ 1 < q.count then
    { cut with fragments := place cut.fragments i j p q, splits := cut.splits + 1 }
  else cut

def visit (rule : SplitRule α) (i j : Nat) (s : Resolution α) : Resolution α :=
  match s.fragments[i]?, s.fragments[j]? with
  | some f, some g =>
    if interleaved f g then
      let tested := { s with pairs := s.pairs + 1 }
      match Overlap.cutPair? rule f g with
      | some (p, q) => tested.record i j p q
      | none => tested
    else s
  | _, _ => s

def scanRow (rule : SplitRule α) (budget i j : Nat) (s : Resolution α) : Resolution α :=
  if j < s.fragments.size then
    if budget ≤ s.fragments.size then { s with exhausted := true }
    else scanRow rule budget i (j + 1) (s.visit rule i j)
  else s
termination_by budget - j

def scan (rule : SplitRule α) (budget i : Nat) (s : Resolution α) : Resolution α :=
  if i + 1 < s.fragments.size then
    if budget ≤ s.fragments.size then { s with exhausted := true }
    else
      let next := s.scanRow rule budget i (i + 1)
      if next.exhausted then next else scan rule budget (i + 1) next
  else s
termination_by budget - i

def growthFactor : Nat :=
  8

def budget (buffer : Array (Fragment α)) : Nat :=
  buffer.size * growthFactor

def run (rule : SplitRule α) (buffer : Array (Fragment α)) : Resolution α :=
  scan rule (budget buffer) 0 { fragments := buffer }

def added (s : Resolution α) (before : Array (Fragment α)) : Nat :=
  s.fragments.size - before.size

end Resolution

def FragmentList.resolve (list : FragmentList α) (rule : SplitRule α) :
    Resolution α × FragmentList α :=
  let resolution := Resolution.run rule list.fragments
  (resolution, list.withFragments resolution.fragments)

end PainterScene
