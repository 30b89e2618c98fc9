import Mathlib
import PainterScene.Proofs.Growth

/-!
# Where the fragments of a resolved list come from

A slot that was there before holds what it held or a piece of it, and every fragment past those
slots is a piece of some fragment that was there before. `Descended` says so of the buffer at any
moment of the scan, together with the balance of the counters; pieces of pieces are covered because
`CutFrom` is transitive.
-/

namespace PainterScene

variable {α : Type}

namespace Resolution

/-- The buffer and the counters of `s`, as they stand to the buffer of the start. -/
structure Descended (limit : UInt32) (buffer : Array (Fragment α)) (s : Resolution α) : Prop where
  kept : ∀ (k : Nat) (f : Fragment α), buffer[k]? = some f →
    ∃ x, s.fragments[k]? = some x ∧ (x = f ∨ CutFrom limit f x)
  appended : ∀ (k : Nat) (x : Fragment α), buffer.size ≤ k → s.fragments[k]? = some x →
    ∃ f ∈ buffer, CutFrom limit f x
  tested : s.splits ≤ s.pairs
  grown : buffer.size + s.splits ≤ s.fragments.size
  bounded : s.fragments.size ≤ buffer.size + 6 * s.splits
  untouched : s.splits = 0 → s.fragments = buffer

theorem descended_start (limit : UInt32) (buffer : Array (Fragment α)) :
    Descended limit buffer { fragments := buffer } where
  kept := fun _ f hf => ⟨f, hf, Or.inl rfl⟩
  appended := fun _ _ hk hx =>
    absurd (Array.getElem?_eq_some_iff.mp hx).1 (Nat.not_lt.mpr hk)
  tested := Nat.le_refl _
  grown := Nat.le_refl _
  bounded := Nat.le_refl _
  untouched := fun _ => rfl

variable {limit : UInt32} {buffer : Array (Fragment α)} {s : Resolution α}

/-- Every fragment of the buffer comes from one that was there at the start. -/
theorem Descended.origin (hs : Descended limit buffer s) {k : Nat} {x : Fragment α}
    (hx : s.fragments[k]? = some x) : ∃ f ∈ buffer, x = f ∨ CutFrom limit f x := by
  by_cases hk : k < buffer.size
  · have hf : buffer[k]? = some buffer[k] := Array.getElem?_eq_getElem hk
    obtain ⟨y, hy, hcut⟩ := hs.kept k _ hf
    obtain rfl : y = x := Option.some.inj (hy.symm.trans hx)
    exact ⟨_, Array.getElem_mem hk, hcut⟩
  · obtain ⟨f, hf, hcut⟩ := hs.appended k x (Nat.le_of_not_lt hk) hx
    exact ⟨f, hf, Or.inr hcut⟩

theorem Descended.cutFrom (hs : Descended limit buffer s) {k : Nat} {x y : Fragment α}
    (hx : s.fragments[k]? = some x) (hy : CutFrom limit x y) : ∃ f ∈ buffer, CutFrom limit f y := by
  obtain ⟨f, hf, rfl | hcut⟩ := hs.origin hx
  · exact ⟨x, hf, hy⟩
  · exact ⟨f, hf, hcut.trans hy⟩

/-- A slot that takes a piece of what it held keeps its line of descent. -/
theorem Descended.kept_piece (hs : Descended limit buffer s) {k : Nat} {f x y : Fragment α}
    {p : Pieces α} (hf : buffer[k]? = some f) (hx : s.fragments[k]? = some x)
    (hp : p.ComeFrom limit x) (hy : y ∈ p.toList) : y = f ∨ CutFrom limit f y := by
  obtain ⟨z, hz, hdescent⟩ := hs.kept k f hf
  obtain rfl : z = x := Option.some.inj (hz.symm.trans hx)
  obtain rfl | hcut := hp.eq_or_cutFrom hy
  · exact hdescent
  · obtain rfl | hdescent := hdescent
    · exact Or.inr hcut
    · exact Or.inr (hdescent.trans hcut)

variable [Scalar α] {rule : SplitRule α}

theorem Descended.split (hs : Descended rule.maxDepth buffer s) {i j : Nat} {f g : Fragment α}
    {p q : Pieces α} (hf : s.fragments[i]? = some f) (hg : s.fragments[j]? = some g)
    (hsplits : Splits rule s i j f g p q) :
    Descended rule.maxDepth buffer (s.split i j p q) := by
  obtain ⟨hp, hq⟩ := Overlap.cutPair?_comeFrom hsplits.cut
  have hsize := size_place s.fragments i j p q
  have hpcount := hp.1
  have hqcount := hq.1
  have hseveral := hsplits.several
  have hgrown := hs.grown
  have hbounded := hs.bounded
  have hpone : 1 ≤ p.count := Nat.le_add_left 1 _
  have hqone : 1 ≤ q.count := Nat.le_add_left 1 _
  refine ⟨?_, ?_, ?_, ?_, ?_, ?_⟩
  · intro k h hk
    have hlt : k < buffer.size := (Array.getElem?_eq_some_iff.mp hk).1
    have hnew : k < (place s.fragments i j p q).size := by omega
    refine ⟨_, Array.getElem?_eq_getElem hnew, ?_⟩
    obtain ⟨-, rfl, hx⟩ | ⟨-, rfl, hx⟩ | ⟨-, -, hx⟩ | ⟨hpast, -⟩ :=
      place_cases (Array.getElem?_eq_getElem hnew)
    · exact hs.kept_piece hk hg hq (hx ▸ List.mem_cons_self)
    · exact hs.kept_piece hk hf hp (hx ▸ List.mem_cons_self)
    · obtain ⟨x, hx', hdescent⟩ := hs.kept k h hk
      exact Option.some.inj (hx'.symm.trans hx) ▸ hdescent
    · omega
  · intro k x hk hx
    obtain ⟨-, rfl, rfl⟩ | ⟨-, rfl, rfl⟩ | ⟨-, -, hx⟩ | ⟨-, hx | hx⟩ := place_cases hx
    · obtain heq | hcut := hq.eq_or_cutFrom List.mem_cons_self
      · exact heq ▸ hs.appended k g hk hg
      · exact hs.cutFrom hg hcut
    · obtain heq | hcut := hp.eq_or_cutFrom List.mem_cons_self
      · exact heq ▸ hs.appended k f hk hf
      · exact hs.cutFrom hf hcut
    · exact hs.appended k x hk hx
    · exact hs.cutFrom hf (hp.cutFrom_of_mem_rest hx)
    · exact hs.cutFrom hg (hq.cutFrom_of_mem_rest hx)
  · exact Nat.succ_le_succ hs.tested
  · simp only [Resolution.split]
    omega
  · simp only [Resolution.split]
    omega
  · intro hzero
    exact absurd hzero (Nat.succ_ne_zero _)

/-- A visit keeps every line of descent and the balance of the counters. -/
theorem Descended.visit (hs : Descended rule.maxDepth buffer s) {i j : Nat} (hij : i < j)
    (hj : j < s.fragments.size) : Descended rule.maxDepth buffer (s.visit rule i j) := by
  obtain ⟨f, g, hf, hg, hquiet | ⟨p, q, hsplits⟩⟩ := visit_cases_of_lt rule hij hj
  · refine ⟨?_, ?_, ?_, ?_, ?_, ?_⟩
    · simpa only [hquiet.fragments] using hs.kept
    · simpa only [hquiet.fragments] using hs.appended
    · rw [hquiet.splits]
      exact hs.tested.trans hquiet.pairs
    · simpa only [hquiet.fragments, hquiet.splits] using hs.grown
    · simpa only [hquiet.fragments, hquiet.splits] using hs.bounded
    · simpa only [hquiet.fragments, hquiet.splits] using hs.untouched
  · rw [hsplits.state]
    exact hs.split hf hg hsplits

/-- At the end of the scan everything descends from the buffer of the start. -/
theorem descended_run (rule : SplitRule α) (buffer : Array (Fragment α)) :
    Descended rule.maxDepth buffer (run rule buffer) := by
  have hstopped : Stopped (budget buffer) (fun _ _ s => Descended rule.maxDepth buffer s)
      (run rule buffer) := by
    refine run_invariant (descended_start rule.maxDepth buffer) ?_ ?_
    · intro i j s hij hj _ hs
      exact hs.visit hij hj
    · intro i j s _ _ hs
      exact hs
  refine hstopped.holds (fun _ _ _ hs => hs) ?_
  exact fun s hs => ⟨hs.kept, hs.appended, hs.tested, hs.grown, hs.bounded, hs.untouched⟩

end Resolution

namespace FragmentList

variable [Scalar α]

theorem size_resolve (list : FragmentList α) (rule : SplitRule α) :
    (list.resolve rule).2.size = list.size + (list.resolve rule).1.added list.fragments := by
  have hlower := (Resolution.grown_run rule list.fragments).lower
  simp only [resolve, withFragments, size, Resolution.added]
  omega

/-- **Lineage of resolved lists.** Old slots keep their fragment or take a deeper piece of it, new
slots hold pieces of old triangles, the counters balance, and nothing else of the list changes. -/
theorem resolve_lineage (list : FragmentList α) (rule : SplitRule α) :
    (list.resolve rule).2.size = list.size + (list.resolve rule).1.added list.fragments ∧
    (∀ (k : Nat) (f : Fragment α), list.fragments[k]? = some f →
      ∃ x, (list.resolve rule).2.fragments[k]? = some x ∧ (x = f ∨ CutFrom rule.maxDepth f x) ∧
        (f.kind ≠ .triangle ∨ rule.maxDepth ≤ f.splitCount → x = f)) ∧
    (∀ (k : Nat) (x : Fragment α), list.size ≤ k →
      (list.resolve rule).2.fragments[k]? = some x →
      ∃ f ∈ list.fragments, CutFrom rule.maxDepth f x) ∧
    (list.resolve rule).1.splits ≤ (list.resolve rule).1.pairs ∧
    (list.resolve rule).1.splits ≤ (list.resolve rule).1.added list.fragments ∧
    (list.resolve rule).1.added list.fragments ≤ 6 * (list.resolve rule).1.splits ∧
    ((list.resolve rule).2.fragments = list.fragments ↔ (list.resolve rule).1.splits = 0) ∧
    (list.resolve rule).2.problems = list.problems ∧
    (list.resolve rule).2.nextIndex = list.nextIndex := by
  have hrun := Resolution.descended_run rule list.fragments
  have hgrown := hrun.grown
  have hbounded := hrun.bounded
  refine ⟨size_resolve list rule, ?_, hrun.appended, hrun.tested, ?_, ?_, ⟨?_, hrun.untouched⟩,
    rfl, rfl⟩
  · intro k f hf
    obtain ⟨x, hx, hdescent⟩ := hrun.kept k f hf
    refine ⟨x, hx, hdescent, ?_⟩
    intro hexempt
    obtain heq | hcut := hdescent
    · exact heq
    · exfalso
      obtain hkind | hcap := hexempt
      · exact hkind hcut.parent
      · exact UInt32.not_lt.mpr hcap (UInt32.lt_of_lt_of_le hcut.deeper hcut.capped)
  · simp only [resolve, Resolution.added]
    omega
  · simp only [resolve, Resolution.added]
    omega
  · intro hsame
    have hsize : (Resolution.run rule list.fragments).fragments.size = list.fragments.size :=
      congrArg Array.size hsame
    simp only [resolve]
    omega

end FragmentList

end PainterScene
