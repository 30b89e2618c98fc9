import Mathlib
import PainterScene.Proofs.Scan

/-!
# The scan ends, and the buffer stays small

The loops of the scan compare indices with a size that the scan itself increases. The budget is
tested before every pair, and a split adds at most six fragments, so the buffer never has more than
`8 * n + 5` fragments when it began with `n`. That bounds both indices, and with them the number of
turns of the loops.
-/

namespace PainterScene.Resolution

variable {α : Type} [Scalar α]

/-- The two nested loops between two turns: the slots to visit next, and the state. -/
structure Cursor (α : Type) where
  row : Nat
  column : Nat
  state : Resolution α

namespace Cursor

/-- One turn of the loops: the budget stops them, a pair is visited, or the next row begins.
There is none when the loops have ended. -/
def step? (rule : SplitRule α) (budget : Nat) (c : Cursor α) : Option (Cursor α) :=
  let size := c.state.fragments.size
  if c.state.exhausted then none
  else if c.row < size then
    if c.column < size then
      if budget ≤ size then some { c with state := { c.state with exhausted := true } }
      else some { c with column := c.column + 1, state := c.state.visit rule c.row c.column }
    else some { c with row := c.row + 1, column := c.row + 2 }
  else none

def next (rule : SplitRule α) (budget : Nat) (c : Cursor α) : Cursor α :=
  (c.step? rule budget).getD c

def start (buffer : Array (Fragment α)) : Cursor α :=
  ⟨0, 1, { fragments := buffer }⟩

end Cursor

section Size

variable {rule : SplitRule α} {buffer : Array (Fragment α)}

/-- A visit adds at most six fragments: two triangles become eight. -/
theorem size_visit_le (rule : SplitRule α) {s : Resolution α} {i j : Nat} (hij : i < j)
    (hj : j < s.fragments.size) :
    (s.visit rule i j).fragments.size ≤ s.fragments.size + 6 := by
  obtain ⟨f, g, -, -, hquiet | ⟨p, q, hsplits⟩⟩ := visit_cases_of_lt rule hij hj
  · rw [hquiet.fragments]
    exact Nat.le_add_right _ 6
  · obtain ⟨hp, hq⟩ := Overlap.cutPair?_comeFrom hsplits.cut
    have hsize := size_place s.fragments i j p q
    have hpcount := hp.1
    have hqcount := hq.1
    rw [hsplits.state]
    simp only [split]
    omega

/-- The sizes the buffer can have while the scan runs. -/
structure Grown (buffer : Array (Fragment α)) (s : Resolution α) : Prop where
  lower : buffer.size ≤ s.fragments.size
  upper : s.fragments.size ≤ 8 * buffer.size + 5
  empty : buffer.size = 0 → s.fragments.size = 0

omit [Scalar α] in
theorem grown_start (buffer : Array (Fragment α)) : Grown buffer { fragments := buffer } :=
  ⟨Nat.le_refl _, by simp only; omega, id⟩

/-- The budget is tested before every visit, so the buffer passes it by less than one visit. -/
theorem Grown.visit {s : Resolution α} {i j : Nat} (hgrown : Grown buffer s) (hij : i < j)
    (hj : j < s.fragments.size) (hbudget : s.fragments.size < budget buffer) :
    Grown buffer (s.visit rule i j) := by
  have hlower := size_le_visit rule i j s
  have hupper := size_visit_le rule hij hj
  rw [budget, growthFactor] at hbudget
  exact ⟨hgrown.lower.trans hlower, by omega, fun hempty => by omega⟩

end Size

section Turns

variable {rule : SplitRule α} {buffer : Array (Fragment α)}

/-- An upper bound on the turns left when row `i` and column `j` come next. -/
def turnsLeft (bound i j : Nat) : Nat :=
  (bound - i) * (bound + 2) + (bound + 1 - j)

/-- The loops have come to row `i` and column `j` in state `s`, and the turns they took leave
enough of the total. -/
def Reached (rule : SplitRule α) (buffer : Array (Fragment α)) (i j : Nat)
    (s : Resolution α) : Prop :=
  let bound := 8 * buffer.size + 5
  Grown buffer s ∧ s.exhausted = false ∧
    ∃ n, (Cursor.next rule (budget buffer))^[n] (Cursor.start buffer) = ⟨i, j, s⟩ ∧
      n + turnsLeft bound i j ≤ turnsLeft bound 0 1

theorem Reached.visit {i j : Nat} {s : Resolution α} (hreached : Reached rule buffer i j s)
    (hij : i < j) (hj : j < s.fragments.size) (hbudget : s.fragments.size < budget buffer) :
    Reached rule buffer i (j + 1) (s.visit rule i j) := by
  obtain ⟨hgrown, hrunning, n, hcursor, hturns⟩ := hreached
  refine ⟨hgrown.visit hij hj hbudget, by rw [visit_exhausted, hrunning], n + 1, ?_, ?_⟩
  · have hi : i < s.fragments.size := hij.trans hj
    rw [Function.iterate_succ_apply', hcursor]
    simp [Cursor.next, Cursor.step?, hrunning, hi, hj, Nat.not_le.mpr hbudget]
  · have hupper := hgrown.upper
    simp only [turnsLeft] at hturns ⊢
    omega

theorem Reached.nextRow {i j : Nat} {s : Resolution α} (hreached : Reached rule buffer i j s)
    (hi : i < s.fragments.size) (hj : s.fragments.size ≤ j) :
    Reached rule buffer (i + 1) (i + 2) s := by
  obtain ⟨hgrown, hrunning, n, hcursor, hturns⟩ := hreached
  refine ⟨hgrown, hrunning, n + 1, ?_, ?_⟩
  · rw [Function.iterate_succ_apply', hcursor]
    simp [Cursor.next, Cursor.step?, hrunning, hi, Nat.not_lt.mpr hj]
  · have hupper := hgrown.upper
    have hrow : 8 * buffer.size + 5 - i = (8 * buffer.size + 5 - (i + 1)) + 1 := by omega
    simp only [turnsLeft] at hturns ⊢
    rw [hrow, Nat.add_mul] at hturns
    omega

theorem reached_stopped (rule : SplitRule α) (buffer : Array (Fragment α)) :
    Stopped (budget buffer) (Reached rule buffer) (run rule buffer) := by
  refine run_invariant ?_ ?_ ?_
  · exact ⟨grown_start buffer, rfl, 0, rfl, by simp⟩
  · intro i j s hij hj hbudget hreached
    exact hreached.visit hij hj hbudget
  · intro i j s hi hj hreached
    exact hreached.nextRow hi hj

theorem turnsLeft_start_lt (size : Nat) :
    turnsLeft (8 * size + 5) 0 1 < (8 * size + 7) ^ 2 := by
  simp only [turnsLeft, Nat.sub_zero, Nat.add_sub_cancel]
  nlinarith

/-- The loops come to an end, and what they leave is what the scan returns. -/
theorem loops_end (rule : SplitRule α) (buffer : Array (Fragment α)) :
    ∃ n ≤ (8 * buffer.size + 7) ^ 2, ∃ c,
      (Cursor.next rule (budget buffer))^[n] (Cursor.start buffer) = c ∧
        c.step? rule (budget buffer) = none ∧ c.state = run rule buffer := by
  have htotal := turnsLeft_start_lt buffer.size
  have hstopped := reached_stopped rule buffer
  generalize run rule buffer = final at hstopped
  cases hstopped with
  | @full i j s hij hj hfull hrunning hreached hstate =>
      obtain ⟨-, -, n, hcursor, hturns⟩ := hreached
      refine ⟨n + 1, by omega, ⟨i, j, final⟩, ?_, ?_, rfl⟩
      · have hi : i < s.fragments.size := hij.trans hj
        rw [Function.iterate_succ_apply', hcursor]
        simp [Cursor.next, Cursor.step?, hrunning, hi, hj, hfull, hstate]
      · simp [Cursor.step?, hstate]
  | @done i hi hrunning hreached =>
      obtain ⟨-, -, n, hcursor, hturns⟩ := hreached
      by_cases hlast : i < final.fragments.size
      · refine ⟨n + 1, by omega, ⟨i + 1, i + 2, final⟩, ?_, ?_, rfl⟩
        · rw [Function.iterate_succ_apply', hcursor]
          simp [Cursor.next, Cursor.step?, hrunning, hlast, Nat.not_lt.mpr hi]
        · simp [Cursor.step?, Nat.not_lt.mpr hi]
      · refine ⟨n, by omega, _, hcursor, ?_, rfl⟩
        simp [Cursor.step?, hlast]

/-- The bounds on the size hold at the end of the scan. -/
theorem grown_run (rule : SplitRule α) (buffer : Array (Fragment α)) :
    Grown buffer (run rule buffer) := by
  refine (reached_stopped rule buffer).holds ?_ ?_
  · exact fun i j s hreached => hreached.1
  · exact fun s hgrown => ⟨hgrown.lower, hgrown.upper, hgrown.empty⟩

end Turns

end PainterScene.Resolution

namespace PainterScene.FragmentList

variable {α : Type} [Scalar α]

open Resolution in
/-- **Resolving ends and grows a list at most eightfold.** The nested loops stop after at most
`(8 * n + 7) ^ 2` turns for `n` fragments, in the state that is returned. -/
theorem resolve_ends_within_growth (list : FragmentList α) (rule : SplitRule α) :
    (∃ turns ≤ (8 * list.size + 7) ^ 2, ∃ c,
      (Cursor.next rule (budget list.fragments))^[turns] (Cursor.start list.fragments) = c ∧
        c.step? rule (budget list.fragments) = none ∧ c.state = (list.resolve rule).1) ∧
    list.size ≤ (list.resolve rule).2.size ∧
    (list.resolve rule).2.size ≤ 8 * list.size + 5 ∧
    (list.size = 0 → (list.resolve rule).2.size = 0) ∧
    ∀ f g, (Overlap.splitPair rule f g).1.count ≤ 4 ∧ (Overlap.splitPair rule f g).2.count ≤ 4 := by
  have hgrown := grown_run rule list.fragments
  refine ⟨loops_end rule list.fragments, hgrown.lower, hgrown.upper, hgrown.empty, ?_⟩
  intro f g
  obtain ⟨hf, hg⟩ := Overlap.splitPair_comeFrom rule f g
  exact ⟨hf.1, hg.1⟩

end PainterScene.FragmentList
