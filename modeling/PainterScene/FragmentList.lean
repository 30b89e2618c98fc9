import PainterScene.Fragment

/-!
# Fragment lists

The fragments of one pass over a scene, with the problems met on the way. The list numbers the
fragments in the order in which they are pushed, modulo `2 ^ 32`. It also remembers the order of
painting from one use to the next; whatever may change the fragments marks that order as stale.
-/

namespace PainterScene

structure FragmentList (α : Type) where
  fragments : Array (Fragment α) := #[]
  /-- The creation index of the next fragment. -/
  nextIndex : UInt32 := 0
  problems : Array Problem := #[]
  /-- The order of painting as it was last sorted. -/
  sorted : List Nat := []
  /-- Whether the fragments may have changed since they were last sorted. -/
  stale : Bool := false
deriving DecidableEq

namespace FragmentList

variable {α : Type}

def empty : FragmentList α :=
  {}

def size (list : FragmentList α) : Nat :=
  list.fragments.size

def push (list : FragmentList α) (f : Fragment α) : FragmentList α :=
  { list with
    fragments := list.fragments.push { f with creationIndex := list.nextIndex }
    nextIndex := list.nextIndex + 1
    stale := true }

def report (list : FragmentList α) (problem : Problem) : FragmentList α :=
  { list with problems := list.problems.push problem }

def clear (list : FragmentList α) : FragmentList α :=
  { list with fragments := #[], nextIndex := 0, problems := #[], sorted := [], stale := true }

def withFragments (list : FragmentList α) (fragments : Array (Fragment α)) : FragmentList α :=
  { list with fragments, stale := true }

/-- Replaces the fragment at `i`, which keeps the creation index it comes with. -/
def set? (list : FragmentList α) (i : Nat) (f : Fragment α) : Option (FragmentList α) :=
  if i < list.size then some (list.withFragments (list.fragments.setIfInBounds i f)) else none

def swap? (list : FragmentList α) (i j : Nat) : Option (FragmentList α) := do
  let f ← list.fragments[i]?
  let g ← list.fragments[j]?
  return list.withFragments ((list.fragments.setIfInBounds i g).setIfInBounds j f)

def remove? (list : FragmentList α) (i : Nat) : Option (Fragment α × FragmentList α) := do
  let f ← list.fragments[i]?
  return (f, list.withFragments (list.fragments.eraseIdxIfInBounds i))

def reproject [Scalar α] (list : FragmentList α) (m : Mat4 α) : FragmentList α :=
  list.withFragments (list.fragments.map (Fragment.reproject m))

end FragmentList

end PainterScene
