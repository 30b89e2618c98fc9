import PainterScene.Proofs.Fixpoint

/-!
# The cheap rejections change nothing

Pairs are turned away by three quick tests before the geometry is looked at: bounds that do not
meet, depth ranges that do not overlap by more than the tolerance, and, before either, depth ranges
that do not overlap at all. Each of them only turns away pairs that would come out whole. To say so,
the tests become parameters: `splitPairIf` and `FragmentList.resolveIf` are the computations with
other tests in their place, and `always` takes a test away.
-/

namespace PainterScene

variable {α : Type}

def Fragment.always (_ _ : Fragment α) : Bool :=
  true

variable [Scalar α]

def Fragment.boundsMeet (f g : Fragment α) : Bool :=
  (f.bounds.intersect? g.bounds).isSome

namespace Overlap

/-- The overlap of two triangles that may be cut, with `near` in place of the test on bounds. -/
def ofFragmentsIf? (near : Fragment α → Fragment α → Bool) (rule : SplitRule α)
    (f g : Fragment α) : Option (Overlap α) :=
  if f.source.isSome ∧ f.source = g.source then none
  else if rule.maxDepth ≤ f.splitCount ∨ rule.maxDepth ≤ g.splitCount then none
  else do
    let first ← ScreenTriangle.ofFragment? f
    let second ← ScreenTriangle.ofFragment? g
    if near f g then
      let polygon := Polygon.intersect rule.mergeDistance first.footprint second.footprint
      if polygon.area ≤ rule.areaTolerance then none
      else
        let difference := first.depthPlane - second.depthPlane
        some ⟨first, second, polygon, crossing? rule.depthTolerance difference polygon⟩
    else none

/-- The pieces of two fragments, with `near` and `crossed` in place of the tests on bounds and on
depth ranges. -/
def splitPairIf (near crossed : Fragment α → Fragment α → Bool) (rule : SplitRule α)
    (f g : Fragment α) : Pieces α × Pieces α :=
  let pieces? := do
    let overlap ← ofFragmentsIf? near rule f g
    let cut ← overlap.cut
    if crossed f g then some (cutAlong rule cut overlap.first, cutAlong rule cut overlap.second)
    else none
  pieces?.getD (Pieces.whole f, Pieces.whole g)

theorem ofFragmentsIf?_boundsMeet (rule : SplitRule α) (f g : Fragment α) :
    ofFragmentsIf? Fragment.boundsMeet rule f g = ofFragments? rule f g := by
  unfold ofFragmentsIf? ofFragments? Fragment.boundsMeet
  cases f.bounds.intersect? g.bounds with
  | none => simp
  | some r => simp

theorem splitPairIf_tests (rule : SplitRule α) (f g : Fragment α) :
    splitPairIf Fragment.boundsMeet (depthsInterleave rule) rule f g = splitPair rule f g := by
  rw [splitPairIf, ofFragmentsIf?_boundsMeet]
  rfl

/-! ### Each test follows from the geometry -/

section Exact

variable {rule : SplitRule ℚ} {f g : Fragment ℚ} {t u : ScreenTriangle ℚ}

/-- Triangles whose bounds do not meet have nothing in common. -/
theorem intersect_eq_nil_of_bounds (tol : ℚ) (ht : ScreenTriangle.ofFragment? f = some t)
    (hu : ScreenTriangle.ofFragment? g = some u) (hbounds : f.bounds.intersect? g.bounds = none) :
    Polygon.intersect tol t.footprint u.footprint = [] := by
  rw [List.eq_nil_iff_forall_not_mem]
  intro v hv
  obtain ⟨hsubject, hclipper⟩ := Polygon.mem_intersect hv
  rw [ScreenTriangle.region_footprint ht] at hsubject
  rw [ScreenTriangle.inner_footprint hu] at hclipper
  have hmeet := Fragment.isSome_intersect_bounds hsubject hclipper
  rw [hbounds] at hmeet
  cases hmeet

/-- Where the depths cross, their ranges interleave. -/
theorem depthsInterleave_of_cut (hdepth : 0 ≤ rule.depthTolerance) {o : Overlap ℚ}
    (ho : ofFragments? rule f g = some o) (hcut : o.cut.isSome) :
    depthsInterleave rule f g = true := by
  obtain ⟨cut, hcut⟩ := Option.isSome_iff_exists.mp hcut
  obtain ⟨-, hcrosses⟩ := crosses_of_cut hdepth ho hcut
  obtain ⟨-, ht, hu, -⟩ := ofFragments?_eq_some_iff.mp ho
  obtain ⟨hfirst, hsecond⟩ := hcrosses.depths ht hu
  simp [depthsInterleave, hfirst, hsecond]

theorem ofFragmentsIf?_always (harea : 0 ≤ rule.areaTolerance) (f g : Fragment ℚ) :
    ofFragmentsIf? Fragment.always rule f g = ofFragments? rule f g := by
  rw [← ofFragmentsIf?_boundsMeet]
  unfold ofFragmentsIf?
  cases hmeet : f.boundsMeet g with
  | true => simp [Fragment.always]
  | false =>
      have hbounds : f.bounds.intersect? g.bounds = none := by
        simpa [Fragment.boundsMeet] using hmeet
      cases ht : ScreenTriangle.ofFragment? f with
      | none => rfl
      | some t =>
          cases hu : ScreenTriangle.ofFragment? g with
          | none => rfl
          | some u =>
              have hempty := intersect_eq_nil_of_bounds rule.mergeDistance ht hu hbounds
              have hsmall : Polygon.area ([] : Polygon ℚ) ≤ rule.areaTolerance := by
                simpa [Polygon.area, Polygon.signedArea, Scalar.abs_eq] using harea
              simp [hempty, hsmall]

/-- The tests on bounds and on depth ranges turn away no pair that would be cut. -/
theorem splitPairIf_always (harea : 0 ≤ rule.areaTolerance) (hdepth : 0 ≤ rule.depthTolerance)
    (f g : Fragment ℚ) :
    splitPairIf Fragment.always Fragment.always rule f g = splitPair rule f g := by
  rw [← splitPairIf_tests, splitPairIf, splitPairIf, ofFragmentsIf?_always harea,
    ofFragmentsIf?_boundsMeet]
  cases ho : ofFragments? rule f g with
  | none => rfl
  | some o =>
      cases hcut : o.cut with
      | none => simp [hcut]
      | some cut =>
          have hdepths := depthsInterleave_of_cut hdepth ho (by rw [hcut]; rfl)
          simp [hcut, hdepths, Fragment.always]

end Exact

end Overlap

/-! ### The scan -/

namespace Resolution

def visitIf (test : Fragment α → Fragment α → Bool) (rule : SplitRule α) (i j : Nat)
    (s : Resolution α) : Resolution α :=
  match s.fragments[i]?, s.fragments[j]? with
  | some f, some g =>
    if test f g then
      let tested := { s with pairs := s.pairs + 1 }
      match Overlap.cutPair? rule f g with
      | some (p, q) => tested.record i j p q
      | none => tested
    else s
  | _, _ => s

def scanRowIf (test : Fragment α → Fragment α → Bool) (rule : SplitRule α) (budget i j : Nat)
    (s : Resolution α) : Resolution α :=
  if j < s.fragments.size then
    if budget ≤ s.fragments.size then { s with exhausted := true }
    else scanRowIf test rule budget i (j + 1) (s.visitIf test rule i j)
  else s
termination_by budget - j

def scanIf (test : Fragment α → Fragment α → Bool) (rule : SplitRule α) (budget i : Nat)
    (s : Resolution α) : Resolution α :=
  if i + 1 < s.fragments.size then
    if budget ≤ s.fragments.size then { s with exhausted := true }
    else
      let next := s.scanRowIf test rule budget i (i + 1)
      if next.exhausted then next else scanIf test rule budget (i + 1) next
  else s
termination_by budget - i

def withPairs (s : Resolution α) (n : Nat) : Resolution α :=
  { s with pairs := n }

omit [Scalar α] in
@[simp] theorem withPairs_fragments (s : Resolution α) (n : Nat) :
    (s.withPairs n).fragments = s.fragments := rfl

omit [Scalar α] in
theorem record_withPairs (s : Resolution α) (n i j : Nat) (p q : Pieces α) :
    (s.withPairs n).record i j p q = (s.record i j p q).withPairs n := by
  unfold record
  by_cases hseveral : 1 < p.count ∨ 1 < q.count
  · simp only [if_pos hseveral]
    rfl
  · simp only [if_neg hseveral]
    rfl

theorem scanRowIf_interleaved (rule : SplitRule α) (budget i j : Nat) (s : Resolution α) :
    s.scanRowIf interleaved rule budget i j = s.scanRow rule budget i j := by
  fun_induction scanRow rule budget i j s with
  | case1 j s hj hfull => rw [scanRowIf, if_pos hj, if_pos hfull]
  | case2 j s hj hfull ih =>
      rw [scanRowIf, if_pos hj, if_neg hfull]
      exact ih
  | case3 j s hj => rw [scanRowIf, if_neg hj]

theorem scanIf_interleaved (rule : SplitRule α) (budget i : Nat) (s : Resolution α) :
    s.scanIf interleaved rule budget i = s.scan rule budget i := by
  fun_induction scan rule budget i s with
  | case1 i s hi hfull => rw [scanIf, if_pos hi, if_pos hfull]
  | case2 i s hi hfull next hnext =>
      rw [scanIf, if_pos hi, if_neg hfull, scanRowIf_interleaved]
      exact if_pos hnext
  | case3 i s hi hfull next hnext ih =>
      rw [scanIf, if_pos hi, if_neg hfull, scanRowIf_interleaved, ← ih]
      exact if_neg hnext
  | case4 i s hi => rw [scanIf, if_neg hi]

/-- A test that lets every pair through which would be cut. -/
def Admits (rule : SplitRule α) (test : Fragment α → Fragment α → Bool) : Prop :=
  ∀ f g, (Overlap.cutPair? rule f g).isSome → test f g = true

section Lockstep

variable {test : Fragment α → Fragment α → Bool} {rule : SplitRule α}

theorem Admits.visitIf (htest : Admits rule test) (i j n : Nat) (s : Resolution α) :
    ∃ m, (s.withPairs n).visitIf test rule i j =
      (s.visitIf Fragment.always rule i j).withPairs m := by
  cases hf : s.fragments[i]? with
  | none => exact ⟨n, by simp [Resolution.visitIf, hf]⟩
  | some f =>
      cases hg : s.fragments[j]? with
      | none => exact ⟨n, by simp [Resolution.visitIf, hf, hg]⟩
      | some g =>
          have hall : s.visitIf Fragment.always rule i j =
              match Overlap.cutPair? rule f g with
              | some (p, q) => (s.withPairs (s.pairs + 1)).record i j p q
              | none => s.withPairs (s.pairs + 1) := by
            simp [Resolution.visitIf, hf, hg, Fragment.always, withPairs]
          have hone : (s.withPairs n).visitIf test rule i j =
              if test f g then
                match Overlap.cutPair? rule f g with
                | some (p, q) => (s.withPairs (n + 1)).record i j p q
                | none => s.withPairs (n + 1)
              else s.withPairs n := by
            simp [Resolution.visitIf, hf, hg, withPairs]
          rw [hall, hone]
          cases hpair : Overlap.cutPair? rule f g with
          | none =>
              by_cases hpass : test f g = true
              · exact ⟨n + 1, if_pos hpass⟩
              · exact ⟨n, if_neg hpass⟩
          | some pieces =>
              have hpass := htest f g (by rw [hpair]; rfl)
              refine ⟨n + 1, (if_pos hpass).trans ?_⟩
              simp only [record_withPairs]
              rfl

/-- Two scans that differ in their tests only go through the same buffers. -/
theorem Admits.scanRowIf (htest : Admits rule test) (budget i j n : Nat) (s : Resolution α) :
    ∃ m, (s.withPairs n).scanRowIf test rule budget i j =
      (s.scanRowIf Fragment.always rule budget i j).withPairs m := by
  fun_induction Resolution.scanRowIf Fragment.always rule budget i j s generalizing n with
  | case1 j s hj hfull =>
      refine ⟨n, ?_⟩
      rw [Resolution.scanRowIf, withPairs_fragments, if_pos hj, if_pos hfull]
      rfl
  | case2 j s hj hfull ih =>
      obtain ⟨k, hvisit⟩ := htest.visitIf i j n s
      rw [Resolution.scanRowIf, withPairs_fragments, if_pos hj, if_neg hfull, hvisit]
      exact ih k
  | case3 j s hj =>
      refine ⟨n, ?_⟩
      rw [Resolution.scanRowIf, withPairs_fragments, if_neg hj]

theorem Admits.scanIf (htest : Admits rule test) (budget i n : Nat) (s : Resolution α) :
    ∃ m, (s.withPairs n).scanIf test rule budget i =
      (s.scanIf Fragment.always rule budget i).withPairs m := by
  fun_induction Resolution.scanIf Fragment.always rule budget i s generalizing n with
  | case1 i s hi hfull =>
      refine ⟨n, ?_⟩
      rw [Resolution.scanIf, withPairs_fragments, if_pos hi, if_pos hfull]
      rfl
  | case2 i s hi hfull next hnext =>
      obtain ⟨m, hrow⟩ := htest.scanRowIf budget i (i + 1) n s
      refine ⟨m, ?_⟩
      rw [Resolution.scanIf, withPairs_fragments, if_pos hi, if_neg hfull, hrow]
      exact if_pos hnext
  | case3 i s hi hfull next hnext ih =>
      obtain ⟨k, hrow⟩ := htest.scanRowIf budget i (i + 1) n s
      obtain ⟨m, hrest⟩ := ih k
      refine ⟨m, ?_⟩
      rw [Resolution.scanIf, withPairs_fragments, if_pos hi, if_neg hfull, hrow, ← hrest]
      exact if_neg hnext
  | case4 i s hi =>
      refine ⟨n, ?_⟩
      rw [Resolution.scanIf, withPairs_fragments, if_neg hi]

end Lockstep

end Resolution

namespace FragmentList

def resolveIf (test : Fragment α → Fragment α → Bool) (list : FragmentList α)
    (rule : SplitRule α) : Resolution α × FragmentList α :=
  let resolution := Resolution.scanIf test rule (Resolution.budget list.fragments) 0
    { fragments := list.fragments }
  (resolution, list.withFragments resolution.fragments)

theorem resolveIf_interleaved (list : FragmentList α) (rule : SplitRule α) :
    list.resolveIf Resolution.interleaved rule = list.resolve rule := by
  rw [resolveIf, Resolution.scanIf_interleaved]
  rfl

/-- Without a test before the cut only the number of tested pairs is another. -/
theorem exists_resolveIf_always {rule : SplitRule α}
    (htest : Resolution.Admits rule Resolution.interleaved) (list : FragmentList α) :
    ∃ n, (list.resolveIf Fragment.always rule).1 = (list.resolve rule).1.withPairs n := by
  obtain ⟨m, hscan⟩ := htest.scanIf (Resolution.budget list.fragments) 0 0
    { fragments := list.fragments }
  refine ⟨(list.resolveIf Fragment.always rule).1.pairs, ?_⟩
  have hresolve : (list.resolve rule).1 =
      (list.resolveIf Fragment.always rule).1.withPairs m := by
    rw [← resolveIf_interleaved]
    exact hscan
  rw [hresolve]
  rfl

end FragmentList

/-- **The quick tests reject nothing that would be cut.** Bounds that do not meet leave nothing in
common, an overlap with a cut has depth ranges that overlap by more than the tolerance, and such
ranges overlap. So a pair splits in the same way without the two tests in the split, and a list
resolves to the same list by the same splits without the test in the scan. -/
theorem Overlap.rejections_change_nothing (rule : SplitRule ℚ) (harea : 0 ≤ rule.areaTolerance)
    (hdepth : 0 ≤ rule.depthTolerance) :
    (∀ f g t u, ScreenTriangle.ofFragment? f = some t → ScreenTriangle.ofFragment? g = some u →
      f.bounds.intersect? g.bounds = none →
        Polygon.intersect rule.mergeDistance t.footprint u.footprint = []) ∧
    (∀ f g o, ofFragments? rule f g = some o → o.cut.isSome → depthsInterleave rule f g = true) ∧
    (∀ f g, f.kind = .triangle → g.kind = .triangle → depthsInterleave rule f g = true →
      Resolution.interleaved f g = true) ∧
    (∀ f g, splitPairIf Fragment.always Fragment.always rule f g = splitPair rule f g) ∧
    ∀ list : FragmentList ℚ,
      (list.resolveIf Fragment.always rule).2 = (list.resolve rule).2 ∧
        ∃ n, (list.resolveIf Fragment.always rule).1 = (list.resolve rule).1.withPairs n := by
  refine ⟨fun f g t u ht hu => intersect_eq_nil_of_bounds rule.mergeDistance ht hu,
    fun f g o => depthsInterleave_of_cut hdepth,
    fun f g => interleaved_of_depthsInterleave hdepth, splitPairIf_always harea hdepth,
    fun list => ?_⟩
  have hadmits : Resolution.Admits rule Resolution.interleaved :=
    fun f g => interleaved_of_cutPair? hdepth
  obtain ⟨n, hrun⟩ := FragmentList.exists_resolveIf_always hadmits list
  refine ⟨?_, n, hrun⟩
  have hfragments := congrArg Resolution.fragments hrun
  exact congrArg list.withFragments hfragments

/-- A triangle beside `level` and behind it. -/
def Overlap.aside : Fragment ℚ :=
  .ofTriangle ⟨1⟩ none ⟨flatVertex 5 0 2, flatVertex 6 0 1, flatVertex 5 1 3⟩

def FragmentList.crossedPair : FragmentList ℚ where
  fragments := #[Overlap.level, Overlap.ramp, Overlap.aside]

/-- Without its test the scan looks at every pair of the five fragments, and splits the same one. -/
theorem Overlap.rejections_crossedPair :
    let list := FragmentList.crossedPair
    0 ≤ coarse.areaTolerance ∧ 0 ≤ coarse.depthTolerance ∧
    (∃ t u, ScreenTriangle.ofFragment? level = some t ∧
      ScreenTriangle.ofFragment? aside = some u ∧ level.bounds.intersect? aside.bounds = none ∧
      Polygon.intersect coarse.mergeDistance t.footprint u.footprint = []) ∧
    (∃ o, ofFragments? coarse level ramp = some o ∧ o.cut.isSome) ∧
    depthsInterleave coarse level ramp = true ∧ Resolution.interleaved level ramp = true ∧
    splitPairIf Fragment.always Fragment.always coarse level ramp = splitPair coarse level ramp ∧
    (list.resolve coarse).1.splits = 1 ∧ (list.resolve coarse).1.pairs = 3 ∧
    (list.resolveIf Fragment.always coarse).1.pairs = 10 ∧
    (list.resolveIf Fragment.always coarse).2 = (list.resolve coarse).2 := by
  intro list
  have harea : 0 ≤ coarse.areaTolerance := by decide +kernel
  have hdepth : 0 ≤ coarse.depthTolerance := by decide +kernel
  obtain ⟨hbounds, hcut, hdepths, hsplit, hresolve⟩ :=
    rejections_change_nothing coarse harea hdepth
  obtain ⟨t, ht⟩ := Option.isSome_iff_exists.mp
    (show (ScreenTriangle.ofFragment? level).isSome by decide +kernel)
  obtain ⟨u, hu⟩ := Option.isSome_iff_exists.mp
    (show (ScreenTriangle.ofFragment? aside).isSome by decide +kernel)
  have hapart : level.bounds.intersect? aside.bounds = none := by decide +kernel
  obtain ⟨o, ho⟩ := Option.isSome_iff_exists.mp
    (show (ofFragments? coarse level ramp).isSome by decide +kernel)
  have hsome : o.cut.isSome := by
    have hcuts : ((ofFragments? coarse level ramp).bind Overlap.cut).isSome := by decide +kernel
    rwa [ho] at hcuts
  have hinterleave := hcut level ramp o ho hsome
  exact ⟨harea, hdepth, ⟨t, u, ht, hu, hapart, hbounds level aside t u ht hu hapart⟩,
    ⟨o, ho, hsome⟩, hinterleave, hdepths level ramp rfl rfl hinterleave, hsplit level ramp,
    by decide +kernel, by decide +kernel, by decide +kernel, (hresolve list).1⟩

end PainterScene
