import Mathlib
import PainterScene.Proofs.Cuts

/-!
# The scan over all pairs

The scan reads the size of the buffer again before every pair, and its own splits make the buffer
grow. What one visit can do is said once, in `visit_cases`, and `run_invariant` turns it into
statements about the whole scan: a property of the row, the column and the state that every visit
keeps, and that survives the step to the next row, holds where the scan stops.
-/

namespace PainterScene.Resolution

variable {α : Type} [Scalar α]

section Visit

variable {s : Resolution α} {i j : Nat} {f g : Fragment α}

def split (s : Resolution α) (i j : Nat) (p q : Pieces α) : Resolution α :=
  { s with
    fragments := place s.fragments i j p q
    pairs := s.pairs + 1
    splits := s.splits + 1
    cuts := s.cuts.push (p.count, q.count) }

/-- A visit that leaves the buffer as it is: the depths of the two fragments do not interleave, or
both come out whole. -/
structure Quiet (rule : SplitRule α) (s : Resolution α) (i j : Nat) (f g : Fragment α) : Prop where
  fragments : (s.visit rule i j).fragments = s.fragments
  splits : (s.visit rule i j).splits = s.splits
  pairs : s.pairs ≤ (s.visit rule i j).pairs
  exhausted : (s.visit rule i j).exhausted = s.exhausted
  reason : interleaved f g = false ∨ Overlap.splitPair rule f g = (Pieces.whole f, Pieces.whole g)

structure Splits (rule : SplitRule α) (s : Resolution α) (i j : Nat) (f g : Fragment α)
    (p q : Pieces α) : Prop where
  cut : Overlap.cutPair? rule f g = some (p, q)
  several : 1 < p.count ∨ 1 < q.count
  state : s.visit rule i j = s.split i j p q

/-- A visit either changes nothing but the record of what was tried, or splits the pair. -/
theorem visit_cases (rule : SplitRule α) (hf : s.fragments[i]? = some f)
    (hg : s.fragments[j]? = some g) :
    Quiet rule s i j f g ∨ ∃ p q, Splits rule s i j f g p q := by
  by_cases hinterleaved : interleaved f g = true
  · cases hpair : Overlap.cutPair? rule f g with
    | none =>
        have hvisit : s.visit rule i j = { s with pairs := s.pairs + 1 } := by
          simp [visit, hf, hg, hinterleaved, hpair]
        have hwhole : Overlap.splitPair rule f g = (Pieces.whole f, Pieces.whole g) := by
          simp [Overlap.splitPair, hpair]
        refine Or.inl ⟨?_, ?_, ?_, ?_, Or.inr hwhole⟩ <;> simp [hvisit]
    | some pieces =>
        obtain ⟨p, q⟩ := pieces
        by_cases hseveral : 1 < p.count ∨ 1 < q.count
        · refine Or.inr ⟨p, q, hpair, hseveral, ?_⟩
          simp [visit, hf, hg, hinterleaved, hpair, record, hseveral, split]
        · have hvisit : s.visit rule i j =
              { s with pairs := s.pairs + 1, cuts := s.cuts.push (p.count, q.count) } := by
            simp [visit, hf, hg, hinterleaved, hpair, record, hseveral]
          have hwhole : Overlap.splitPair rule f g = (Pieces.whole f, Pieces.whole g) := by
            obtain ⟨hp, hq⟩ := Overlap.cutPair?_comeFrom hpair
            rw [not_or] at hseveral
            rw [Overlap.splitPair, hpair, Option.getD_some, hp.eq_whole hseveral.1,
              hq.eq_whole hseveral.2]
          refine Or.inl ⟨?_, ?_, ?_, ?_, Or.inr hwhole⟩ <;> simp [hvisit]
  · have hvisit : s.visit rule i j = s := by
      simp [visit, hf, hg, hinterleaved]
    refine Or.inl ⟨?_, ?_, ?_, ?_, Or.inl (by simpa using hinterleaved)⟩ <;> simp [hvisit]

/-- A visit leaves the buffer as it is or splits both slots. -/
theorem visit_cases_of_lt (rule : SplitRule α) (hij : i < j) (hj : j < s.fragments.size) :
    ∃ f g, s.fragments[i]? = some f ∧ s.fragments[j]? = some g ∧
      (Quiet rule s i j f g ∨ ∃ p q, Splits rule s i j f g p q) := by
  have hf : s.fragments[i]? = some s.fragments[i] := Array.getElem?_eq_getElem (by omega)
  have hg : s.fragments[j]? = some s.fragments[j] := Array.getElem?_eq_getElem hj
  exact ⟨_, _, hf, hg, visit_cases rule hf hg⟩

end Visit

omit [Scalar α] in
theorem toList_place (buffer : Array (Fragment α)) (i j : Nat) (p q : Pieces α) :
    (place buffer i j p q).toList =
      (buffer.toList.set i p.first).set j q.first ++ p.rest ++ q.rest := by
  simp [place]

omit [Scalar α] in
theorem size_place (buffer : Array (Fragment α)) (i j : Nat) (p q : Pieces α) :
    (place buffer i j p q).size + 2 = buffer.size + p.count + q.count := by
  rw [← Array.length_toList, toList_place]
  simp only [List.length_append, List.length_set, Array.length_toList, Pieces.count]
  omega

omit [Scalar α] in
/-- Where a fragment of the buffer comes from after slots `i` and `j` have been replaced. -/
theorem place_cases {buffer : Array (Fragment α)} {i j k : Nat} {p q : Pieces α} {x : Fragment α}
    (hx : (place buffer i j p q)[k]? = some x) :
    (k < buffer.size ∧ k = j ∧ x = q.first) ∨ (k < buffer.size ∧ k = i ∧ x = p.first) ∨
      (k ≠ i ∧ k ≠ j ∧ buffer[k]? = some x) ∨
      (buffer.size ≤ k ∧ (x ∈ p.rest ∨ x ∈ q.rest)) := by
  rw [← Array.getElem?_toList, toList_place, List.append_assoc] at hx
  by_cases hk : k < buffer.size
  · rw [List.getElem?_append_left (by simpa using hk)] at hx
    by_cases hkj : k = j
    · subst hkj
      rw [List.getElem?_set_self (by simpa using hk)] at hx
      exact Or.inl ⟨hk, rfl, (Option.some.inj hx).symm⟩
    · rw [List.getElem?_set_ne (Ne.symm hkj)] at hx
      by_cases hki : k = i
      · subst hki
        rw [List.getElem?_set_self (by simpa using hk)] at hx
        exact Or.inr (Or.inl ⟨hk, rfl, (Option.some.inj hx).symm⟩)
      · rw [List.getElem?_set_ne (Ne.symm hki), Array.getElem?_toList] at hx
        exact Or.inr (Or.inr (Or.inl ⟨hki, hkj, hx⟩))
  · rw [List.getElem?_append_right (by simpa using hk)] at hx
    have hrest : x ∈ p.rest ++ q.rest := List.mem_of_getElem? hx
    exact Or.inr (Or.inr (Or.inr ⟨Nat.le_of_not_lt hk, List.mem_append.mp hrest⟩))

theorem size_le_visit (rule : SplitRule α) (i j : Nat) (s : Resolution α) :
    s.fragments.size ≤ (s.visit rule i j).fragments.size := by
  cases hf : s.fragments[i]? with
  | none => simp [visit, hf]
  | some f =>
      cases hg : s.fragments[j]? with
      | none => simp [visit, hf, hg]
      | some g =>
          obtain hquiet | ⟨p, q, hsplits⟩ := visit_cases rule hf hg
          · rw [hquiet.fragments]
          · have hsize := size_place s.fragments i j p q
            rw [hsplits.state]
            simp only [split, Pieces.count] at hsize ⊢
            omega

theorem size_le_scanRow (rule : SplitRule α) (budget i j : Nat) (s : Resolution α) :
    s.fragments.size ≤ (s.scanRow rule budget i j).fragments.size := by
  fun_induction scanRow rule budget i j s with
  | case1 => exact Nat.le_refl _
  | case2 j s _ _ ih => exact (size_le_visit rule i j s).trans ih
  | case3 => exact Nat.le_refl _

theorem visit_exhausted (rule : SplitRule α) (i j : Nat) (s : Resolution α) :
    (s.visit rule i j).exhausted = s.exhausted := by
  unfold visit
  split
  · split
    · simp only
      split
      · unfold record
        simp only
        split <;> rfl
      · rfl
    · rfl
  · rfl

section Invariant

variable {rule : SplitRule α} {budget : Nat} {Inv : Nat → Nat → Resolution α → Prop}

/-- Where a scan under the invariant `Inv` stops: before a pair, because the buffer is full, or
past the last row. -/
inductive Stopped (budget : Nat) (Inv : Nat → Nat → Resolution α → Prop) (r : Resolution α) : Prop
  | full {i j : Nat} {s : Resolution α} (hij : i < j) (hj : j < s.fragments.size)
      (hfull : budget ≤ s.fragments.size) (hrunning : s.exhausted = false) (hinv : Inv i j s)
      (hstate : r = { s with exhausted := true })
  | done {i : Nat} (hi : r.fragments.size ≤ i + 1) (hrunning : r.exhausted = false)
      (hinv : Inv i (i + 1) r)

omit [Scalar α] in
theorem Stopped.holds {P : Resolution α → Prop} {r : Resolution α} (hr : Stopped budget Inv r)
    (hP : ∀ i j s, Inv i j s → P s) (hflag : ∀ s, P s → P { s with exhausted := true }) :
    P r := by
  cases hr with
  | full _ _ _ _ hinv hstate => exact hstate ▸ hflag _ (hP _ _ _ hinv)
  | done _ _ hinv => exact hP _ _ _ hinv

variable
  (hvisit : ∀ i j s, i < j → j < s.fragments.size → s.fragments.size < budget → Inv i j s →
    Inv i (j + 1) (s.visit rule i j))

include hvisit in
/-- One row of the scan: it is stopped by the budget, or it comes to its end. -/
theorem scanRow_invariant {i j : Nat} {s : Resolution α} (hij : i < j)
    (hrunning : s.exhausted = false) (hinv : Inv i j s) :
    (∃ j' s', i < j' ∧ j' < s'.fragments.size ∧ budget ≤ s'.fragments.size ∧
      s'.exhausted = false ∧ Inv i j' s' ∧
      s.scanRow rule budget i j = { s' with exhausted := true }) ∨
    ∃ j', i < j' ∧ (s.scanRow rule budget i j).fragments.size ≤ j' ∧
      (s.scanRow rule budget i j).exhausted = false ∧ Inv i j' (s.scanRow rule budget i j) := by
  fun_induction scanRow rule budget i j s with
  | case1 j s hj hfull => exact Or.inl ⟨j, s, hij, hj, hfull, hrunning, hinv, rfl⟩
  | case2 j s hj hfull ih =>
      apply ih (Nat.lt_succ_of_lt hij)
      · rw [visit_exhausted, hrunning]
      · exact hvisit i j s hij hj (Nat.lt_of_not_le hfull) hinv
  | case3 j s hj => exact Or.inr ⟨j, hij, Nat.le_of_not_lt hj, hrunning, hinv⟩

variable
  (hrow : ∀ i j s, i < s.fragments.size → s.fragments.size ≤ j → Inv i j s →
    Inv (i + 1) (i + 2) s)

include hvisit hrow in
/-- The rows one after the other. -/
theorem scan_invariant {i : Nat} {s : Resolution α} (hrunning : s.exhausted = false)
    (hinv : Inv i (i + 1) s) : Stopped budget Inv (s.scan rule budget i) := by
  fun_induction scan rule budget i s with
  | case1 i s hi hfull => exact .full (Nat.lt_succ_self i) hi hfull hrunning hinv rfl
  | case2 i s hi hfull next hnext =>
      obtain ⟨j, s', hij, hj, hfull', hrunning', hinv', hstate⟩ | ⟨j, -, -, hrunning', -⟩ :=
        scanRow_invariant hvisit (Nat.lt_succ_self i) hrunning hinv
      · exact .full hij hj hfull' hrunning' hinv' hstate
      · exact absurd hnext (by simpa [next] using hrunning')
  | case3 i s hi hfull next hnext ih =>
      obtain ⟨j, s', -, -, -, -, -, hstate⟩ | ⟨j, -, hj, hrunning', hinv'⟩ :=
        scanRow_invariant hvisit (Nat.lt_succ_self i) hrunning hinv
      · exact absurd (by simp [next, hstate]) hnext
      · have hgrow : s.fragments.size ≤ next.fragments.size :=
          size_le_scanRow rule budget i (i + 1) s
        exact ih hrunning' (hrow i j _ (by omega) hj hinv')
  | case4 i s hi => exact .done (Nat.le_of_not_lt hi) hrunning hinv

end Invariant

/-- **The rule of the scan.** What holds at the first pair, and is kept by each visit and by the
step to the next row, holds where the scan stops. -/
theorem run_invariant {rule : SplitRule α} {buffer : Array (Fragment α)}
    {Inv : Nat → Nat → Resolution α → Prop}
    (hstart : Inv 0 1 { fragments := buffer })
    (hvisit : ∀ i j s, i < j → j < s.fragments.size → s.fragments.size < budget buffer →
      Inv i j s → Inv i (j + 1) (s.visit rule i j))
    (hrow : ∀ i j s, i < s.fragments.size → s.fragments.size ≤ j → Inv i j s →
      Inv (i + 1) (i + 2) s) :
    Stopped (budget buffer) Inv (run rule buffer) :=
  scan_invariant hvisit hrow rfl hstart

/-- If each piece is the fragment it comes from or stands in the relation `R` to it, every fragment
of the final buffer comes from one of the first by finitely many steps of `R`. -/
theorem exists_ancestor_run {R : Fragment α → Fragment α → Prop} {rule : SplitRule α}
    (hcut : ∀ f g p q, Overlap.cutPair? rule f g = some (p, q) →
      (∀ x ∈ p.toList, x = f ∨ R f x) ∧ ∀ x ∈ q.toList, x = g ∨ R g x)
    (buffer : Array (Fragment α)) :
    ∀ x ∈ (run rule buffer).fragments, ∃ f ∈ buffer, Relation.ReflTransGen R f x := by
  let Descends : Resolution α → Prop := fun s =>
    ∀ x ∈ s.fragments, ∃ f ∈ buffer, Relation.ReflTransGen R f x
  have hstopped : Stopped (budget buffer) (fun _ _ s => Descends s) (run rule buffer) := by
    refine run_invariant (fun x hx => ⟨x, hx, .refl⟩) ?_ (fun i j s _ _ hs => hs)
    intro i j s hij hj _ hs
    obtain ⟨f, g, hf, hg, hquiet | ⟨p, q, hsplits⟩⟩ := visit_cases_of_lt rule hij hj
    · intro x hx
      exact hs x (hquiet.fragments ▸ hx)
    · obtain ⟨hp, hq⟩ := hcut f g p q hsplits.cut
      have hpiece : ∀ {y x}, y ∈ s.fragments → x = y ∨ R y x →
          ∃ f ∈ buffer, Relation.ReflTransGen R f x := by
        rintro y x hy (rfl | hR)
        · exact hs x hy
        · obtain ⟨f, hf, hchain⟩ := hs y hy
          exact ⟨f, hf, hchain.tail hR⟩
      have hfmem := Array.mem_of_getElem? hf
      have hgmem := Array.mem_of_getElem? hg
      intro x hx
      rw [hsplits.state] at hx
      obtain ⟨k, hk⟩ := Array.mem_iff_getElem?.mp hx
      obtain ⟨-, -, rfl⟩ | ⟨-, -, rfl⟩ | ⟨-, -, hkept⟩ | ⟨-, hrest | hrest⟩ := place_cases hk
      · exact hpiece hgmem (hq _ List.mem_cons_self)
      · exact hpiece hfmem (hp _ List.mem_cons_self)
      · exact hs x (Array.mem_of_getElem? hkept)
      · exact hpiece hfmem (hp _ (List.mem_cons_of_mem _ hrest))
      · exact hpiece hgmem (hq _ (List.mem_cons_of_mem _ hrest))
  exact hstopped.holds (fun _ _ _ hs => hs) (fun _ hs => hs)

end PainterScene.Resolution
