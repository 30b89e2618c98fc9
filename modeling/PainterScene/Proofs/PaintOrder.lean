import PainterScene.PaintOrder
import PainterScene.Proofs.Flattening

/-!
# The remembered order of painting

A fragment list sorts its positions when it is asked for them and keeps the result until something
may have changed the fragments. Whatever was done to the list before, the answer is the order of the
fragments that it holds now, and a list that was cleared answers as a new one does.
-/

namespace PainterScene

/-! ### Depths -/

namespace Depth

/-- The bit pattern as a signed magnitude, with the negative zero just below the positive one. -/
def signed (d : Depth) : Int :=
  if d.bits < 0x8000000000000000 then d.bits.toNat else 2 ^ 63 - 1 - d.bits.toNat

theorem toNat_rank (d : Depth) : (d.rank.toNat : Int) = d.signed + 2 ^ 63 := by
  have hlt : d.bits.toNat < 2 ^ 64 := d.bits.toNat_lt
  unfold rank signed
  by_cases hsign : d.bits < 0x8000000000000000
  · have hbits : d.bits.toNat < 2 ^ 63 := by simpa [UInt64.lt_iff_toNat_lt] using hsign
    have hsum : (d.bits.toNat + 2 ^ 63) % 2 ^ 64 = d.bits.toNat + 2 ^ 63 := by omega
    simp only [if_pos hsign, UInt64.toNat_add]
    exact_mod_cast hsum
  · simp only [if_neg hsign, UInt64.toNat_not, UInt64.size]
    omega

/-- Depths are compared as signed magnitudes. -/
theorem compare_eq (a b : Depth) : a.compare b = compare a.signed b.signed := by
  have ha := a.toNat_rank
  have hb := b.toNat_rank
  rw [Depth.compare, UInt64.compare_eq_toNat_compare_toNat]
  obtain hlt | heq | hgt := lt_trichotomy a.signed b.signed
  · rw [compare_lt_iff_lt.mpr hlt, compare_lt_iff_lt]
    omega
  · rw [compare_eq_iff_eq.mpr heq, compare_eq_iff_eq]
    omega
  · rw [compare_gt_iff_gt.mpr hgt, compare_gt_iff_gt]
    omega

theorem signed_injective : Function.Injective signed := by
  intro a b hsigned
  have ha := a.bits.toNat_lt
  have hb := b.bits.toNat_lt
  have hbits : a.bits.toNat = b.bits.toNat := by
    simp only [signed, UInt64.lt_iff_toNat_lt] at hsigned
    split_ifs at hsigned <;> simp at * <;> omega
  cases a
  cases b
  exact congrArg Depth.mk (UInt64.toNat_inj.mp hbits)

-- From a pattern that is no number through the negative infinity and the zeros, and up again.
example : [0xFFF8000000000000, 0xFFF0000000000000, 0xBFF0000000000000, 0x8000000000000000, 0,
    0x3FF0000000000000, 0x7FF0000000000000, 0x7FF8000000000000].Pairwise
      fun a b : UInt64 => (Depth.mk a).signed < (Depth.mk b).signed := by
  decide +kernel

end Depth

/-! ### Sorting keys -/

namespace PaintKey

/-- Deeper, or as deep and created earlier. -/
def Before (a b : PaintKey) : Prop :=
  b.depth.signed < a.depth.signed ∨ a.depth.signed = b.depth.signed ∧ a.order < b.order

def Tied (a b : PaintKey) : Prop :=
  a.depth.signed = b.depth.signed ∧ a.order = b.order

instance (a b : PaintKey) : Decidable (a.Tied b) :=
  inferInstanceAs (Decidable (_ ∧ _))

theorem Tied.refl (a : PaintKey) : a.Tied a :=
  ⟨rfl, rfl⟩

theorem Tied.symm {a b : PaintKey} (hab : a.Tied b) : b.Tied a :=
  ⟨hab.1.symm, hab.2.symm⟩

theorem Tied.trans {a b c : PaintKey} (hab : a.Tied b) (hbc : b.Tied c) : a.Tied c :=
  ⟨hab.1.trans hbc.1, hab.2.trans hbc.2⟩

theorem isLE_compare_iff {a b : PaintKey} :
    (PaintKey.compare a b).isLE = true ↔
      b.depth.signed < a.depth.signed ∨ a.depth.signed = b.depth.signed ∧ a.order ≤ b.order := by
  rw [PaintKey.compare, compareDepth, Depth.compare_eq]
  obtain hlt | heq | hgt := lt_trichotomy b.depth.signed a.depth.signed
  · simp [compare_lt_iff_lt.mpr hlt, hlt]
  · rw [compare_eq_iff_eq.mpr heq]
    simp [heq, Ordering.then, Std.LawfulOrderOrd.isLE_compare]
  · simp [compare_gt_iff_gt.mpr hgt, hgt.ne, hgt.le]

theorem before_or_tied {a b : PaintKey} (hle : (PaintKey.compare a b).isLE = true) :
    a.Before b ∨ a.Tied b := by
  rw [isLE_compare_iff, UInt32.le_iff_lt_or_eq] at hle
  obtain hdepth | ⟨hdepth, horder | horder⟩ := hle
  · exact Or.inl (Or.inl hdepth)
  · exact Or.inl (Or.inr ⟨hdepth, horder⟩)
  · exact Or.inr ⟨hdepth, horder⟩

theorem isLE_of_tied {a b : PaintKey} (htied : a.Tied b) : (PaintKey.compare a b).isLE = true :=
  isLE_compare_iff.mpr (Or.inr ⟨htied.1, htied.2 ▸ UInt32.le_refl _⟩)

theorem isLE_trans (a b c : PaintKey) (hab : (PaintKey.compare a b).isLE = true)
    (hbc : (PaintKey.compare b c).isLE = true) : (PaintKey.compare a c).isLE = true := by
  rw [isLE_compare_iff, UInt32.le_iff_toNat_le] at *
  omega

theorem isLE_total (a b : PaintKey) :
    ((PaintKey.compare a b).isLE || (PaintKey.compare b a).isLE) = true := by
  rw [Bool.or_eq_true, isLE_compare_iff, isLE_compare_iff, UInt32.le_iff_toNat_le,
    UInt32.le_iff_toNat_le]
  omega

end PaintKey

/-- A sort that keeps ties in their order leaves each class of tied entries as it was. -/
theorem filter_mergeSort {β : Type} {le : β → β → Bool} {p : β → Bool}
    (htrans : ∀ a b c, le a b = true → le b c = true → le a c = true)
    (htotal : ∀ a b, (le a b || le b a) = true)
    (htied : ∀ a b, p a = true → p b = true → le a b = true) (l : List β) :
    (l.mergeSort le).filter p = l.filter p := by
  have hpairs : (l.filter p).Pairwise fun a b => le a b = true := by
    rw [List.pairwise_filter]
    exact List.pairwise_of_forall fun a b ha hb => htied a b ha hb
  have hsub : (l.filter p).Sublist (l.mergeSort le) :=
    List.sublist_mergeSort htrans htotal hpairs List.filter_sublist
  have hclass : (l.filter p).Sublist ((l.mergeSort le).filter p) := by
    have hfiltered := hsub.filter p
    rwa [List.filter_filter, funext fun a => Bool.and_self (p a)] at hfiltered
  exact (hclass.eq_of_length ((List.mergeSort_perm l le).filter p).length_eq.symm).symm

namespace PaintKey

theorem perm_sortedPositions (keys : List PaintKey) :
    (sortedPositions PaintKey.compare keys).Perm (List.range keys.length) := by
  rw [List.range_eq_range', ← List.zipIdx_map_snd]
  exact (List.mergeSort_perm _ _).map Prod.snd

theorem pairwise_sortedPositions (keys : List PaintKey) :
    (sortedPositions PaintKey.compare keys).Pairwise fun i j =>
      ∃ a b, keys[i]? = some a ∧ keys[j]? = some b ∧ (a.Before b ∨ a.Tied b ∧ i < j) := by
  have htrans := fun a b c : PaintKey × Nat => isLE_trans a.1 b.1 c.1
  have htotal := fun a b : PaintKey × Nat => isLE_total a.1 b.1
  rw [sortedPositions, List.pairwise_map, List.pairwise_iff_forall_sublist]
  intro a b hab
  have hmem : ∀ e ∈ [a, b], keys[e.2]? = some e.1 := by
    intro e he
    apply List.mem_zipIdx_iff_getElem?.mp
    exact (List.mergeSort_perm _ _).mem_iff.mp (hab.subset he)
  refine ⟨a.1, b.1, hmem a (by simp), hmem b (by simp), ?_⟩
  have hle := List.pairwise_iff_forall_sublist.mp
    (List.pairwise_mergeSort htrans htotal keys.zipIdx) hab
  refine (before_or_tied hle).imp_right fun htied => ⟨htied, ?_⟩
  -- Tied entries stand in the sorted list as they stood before, at rising positions.
  let tied : PaintKey × Nat → Bool := fun e => decide (a.1.Tied e.1)
  have hclass : (keys.zipIdx.mergeSort fun c d => (PaintKey.compare c.1 d.1).isLE).filter tied =
      keys.zipIdx.filter tied := by
    apply filter_mergeSort htrans htotal
    intro c d hc hd
    exact isLE_of_tied ((of_decide_eq_true hc).symm.trans (of_decide_eq_true hd))
  have hsub : [a, b].Sublist (keys.zipIdx.filter tied) := by
    have hkept : [a, b].filter tied = [a, b] := by
      simp [tied, htied, Tied.refl]
    rw [← hclass, ← hkept]
    exact hab.filter tied
  exact List.pairwise_iff_forall_sublist.mp ((pairwise_snd_zipIdx keys).filter _) hsub

end PaintKey

/-! ### The remembered order -/

namespace FragmentList

variable {α : Type} [Stored α]

def positions (list : FragmentList α) : List Nat :=
  PaintKey.sortedPositions PaintKey.compare (list.fragments.toList.map PaintKey.ofFragment)

/-- The fragment at `i` is painted before the one at `j`: it is deeper, or as deep and created
earlier, or it agrees in both and stands earlier in the list. -/
def PaintedBefore (list : FragmentList α) (i j : Nat) : Prop :=
  ∃ f g, list.fragments[i]? = some f ∧ list.fragments[j]? = some g ∧
    let depth := (Depth.ofScalar f.meanDepth).signed
    let depth' := (Depth.ofScalar g.meanDepth).signed
    depth' < depth ∨ depth = depth' ∧
      (f.creationIndex < g.creationIndex ∨ f.creationIndex = g.creationIndex ∧ i < j)

theorem perm_positions (list : FragmentList α) :
    list.positions.Perm (List.range list.size) := by
  have hperm := PaintKey.perm_sortedPositions (list.fragments.toList.map PaintKey.ofFragment)
  rwa [List.length_map, Array.length_toList] at hperm

/-- Sorting puts every position before those that are painted later. -/
theorem pairwise_positions (list : FragmentList α) :
    list.positions.Pairwise list.PaintedBefore := by
  refine (PaintKey.pairwise_sortedPositions _).imp ?_
  rintro i j ⟨a, b, ha, hb, hbefore⟩
  simp only [List.getElem?_map, Array.getElem?_toList, Option.map_eq_some_iff] at ha hb
  obtain ⟨f, hf, rfl⟩ := ha
  obtain ⟨g, hg, rfl⟩ := hb
  refine ⟨f, g, hf, hg, ?_⟩
  obtain (hdepth | ⟨hdepth, horder⟩) | ⟨⟨hdepth, horder⟩, hij⟩ := hbefore
  · exact Or.inl hdepth
  · exact Or.inr ⟨hdepth, Or.inl horder⟩
  · exact Or.inr ⟨hdepth, Or.inr ⟨horder, hij⟩⟩

/-- An order that is not marked as stale is the one of the fragments as they are. -/
def Fresh (list : FragmentList α) : Prop :=
  list.stale = false → list.sorted = list.positions

variable {list other : FragmentList α}

theorem fresh_empty : (empty : FragmentList α).Fresh := by
  intro _
  simp [empty, positions, PaintKey.sortedPositions]

theorem fresh_of_stale (hstale : list.stale = true) : list.Fresh := by
  intro hfalse
  rw [hstale] at hfalse
  cases hfalse

theorem Fresh.record (hfresh : list.Fresh) (e : Emission α) : (list.record e).Fresh := by
  cases e with
  | fragment f => exact fresh_of_stale rfl
  | problem p => exact hfresh
  | culled id => exact hfresh

theorem Fresh.foldl_record (hfresh : list.Fresh) (emitted : List (Emission α)) :
    (emitted.foldl FragmentList.record list).Fresh := by
  induction emitted generalizing list with
  | nil => exact hfresh
  | cons e emitted ih => exact ih (hfresh.record e)

theorem Fresh.refresh (hfresh : list.Fresh) : list.refresh.Fresh := by
  unfold FragmentList.refresh
  split
  · exact fun _ => rfl
  · exact hfresh

/-- What is remembered after a refresh is the order of the fragments as they are. -/
theorem Fresh.sorted_refresh (hfresh : list.Fresh) : list.refresh.sorted = list.positions := by
  unfold FragmentList.refresh
  split
  next => rfl
  next hstale => exact hfresh (by simpa using hstale)

/-! ### Runs of requests -/

inductive Request (α : Type)
  | push (f : Fragment α)
  | clear
  | report (p : Problem)
  | mutate (change : Array (Fragment α) → Array (Fragment α))
  | emit (scene : Scene α) (id : NodeId) (frame : Frame α)
  | order
  | iterate
  | read

inductive Answer (α : Type)
  | done
  | order (positions : List Nat)
  | iterate (fragments : List (Fragment α))
  | read (fragments : Array (Fragment α)) (problems : Array Problem)

def respond (list : FragmentList α) : Request α → Answer α × FragmentList α
  | .push f => (.done, list.push f)
  | .clear => (.done, list.clear)
  | .report p => (.done, list.report p)
  | .mutate change => (.done, list.withFragments (change list.fragments))
  | .emit scene id frame => (.done, scene.emitInto id frame list)
  | .order => (.order list.paintOrder.1, list.paintOrder.2)
  | .iterate => (.iterate list.inPaintOrder.1, list.inPaintOrder.2)
  | .read => (.read list.fragments list.problems, list)

def run (list : FragmentList α) : List (Request α) → List (Answer α) × FragmentList α
  | [] => ([], list)
  | request :: requests =>
    let (answer, next) := list.respond request
    let (answers, last) := next.run requests
    (answer :: answers, last)

theorem Fresh.respond (hfresh : list.Fresh) (request : Request α) :
    (list.respond request).2.Fresh := by
  cases request with
  | push f => exact fresh_of_stale rfl
  | clear => exact fresh_of_stale rfl
  | report p => exact hfresh
  | mutate change => exact fresh_of_stale rfl
  | emit scene id frame => exact hfresh.foldl_record _
  | order => exact hfresh.refresh
  | iterate => exact hfresh.refresh
  | read => exact hfresh

/-- No request leaves a wrong order behind as if it were current. -/
theorem Fresh.run (hfresh : list.Fresh) (requests : List (Request α)) :
    (list.run requests).2.Fresh := by
  induction requests generalizing list with
  | nil => exact hfresh
  | cons request requests ih => exact ih (hfresh.respond request)

/-- The same fragments, problems and next index, whatever the lists remember of an order. -/
structure Alike (list other : FragmentList α) : Prop where
  fragments_eq : list.fragments = other.fragments
  nextIndex_eq : list.nextIndex = other.nextIndex
  problems_eq : list.problems = other.problems

theorem alike_refresh (list : FragmentList α) : list.refresh.Alike list := by
  unfold refresh
  split <;> exact ⟨rfl, rfl, rfl⟩

omit [Stored α] in
theorem Alike.symm (halike : list.Alike other) : other.Alike list :=
  ⟨halike.fragments_eq.symm, halike.nextIndex_eq.symm, halike.problems_eq.symm⟩

omit [Stored α] in
theorem Alike.trans {third : FragmentList α} (halike : list.Alike other)
    (halike' : other.Alike third) : list.Alike third :=
  ⟨halike.fragments_eq.trans halike'.fragments_eq, halike.nextIndex_eq.trans halike'.nextIndex_eq,
    halike.problems_eq.trans halike'.problems_eq⟩

theorem Alike.refresh (halike : list.Alike other) : list.refresh.Alike other.refresh :=
  ((alike_refresh list).trans halike).trans (alike_refresh other).symm

omit [Stored α] in
theorem Alike.foldl_record (halike : list.Alike other) (emitted : List (Emission α)) :
    (emitted.foldl record list).Alike (emitted.foldl record other) := by
  obtain ⟨hfragments, hproblems, hnext⟩ := FragmentList.foldl_record emitted list
  obtain ⟨hfragments', hproblems', hnext'⟩ := FragmentList.foldl_record emitted other
  refine ⟨?_, ?_, ?_⟩
  · apply Array.toList_inj.mp
    rw [hfragments, hfragments', halike.fragments_eq, halike.nextIndex_eq]
  · rw [hnext, hnext', halike.nextIndex_eq]
  · apply Array.toList_inj.mp
    rw [hproblems, hproblems', halike.problems_eq]

theorem Alike.sorted_refresh (halike : list.Alike other) (hfresh : list.Fresh)
    (hfresh' : other.Fresh) : list.refresh.sorted = other.refresh.sorted := by
  rw [hfresh.sorted_refresh, hfresh'.sorted_refresh, positions, positions, halike.fragments_eq]

theorem Alike.respond (halike : list.Alike other) (hfresh : list.Fresh) (hfresh' : other.Fresh)
    (request : Request α) :
    (list.respond request).1 = (other.respond request).1 ∧
      (list.respond request).2.Alike (other.respond request).2 := by
  have hsorted := halike.sorted_refresh hfresh hfresh'
  have hfragments := halike.fragments_eq
  have hnext := halike.nextIndex_eq
  have hproblems := halike.problems_eq
  cases request with
  | push f =>
      refine ⟨rfl, ?_, ?_, hproblems⟩
      · simp only [FragmentList.respond, push, hfragments, hnext]
      · simp only [FragmentList.respond, push, hnext]
  | clear => exact ⟨rfl, rfl, rfl, rfl⟩
  | report p =>
      refine ⟨rfl, hfragments, hnext, ?_⟩
      simp only [FragmentList.respond, report, hproblems]
  | mutate change =>
      refine ⟨rfl, ?_, hnext, hproblems⟩
      simp only [FragmentList.respond, withFragments, hfragments]
  | emit scene id frame => exact ⟨rfl, halike.foldl_record _⟩
  | order => exact ⟨congrArg Answer.order hsorted, halike.refresh⟩
  | iterate =>
      refine ⟨congrArg Answer.iterate ?_, halike.refresh⟩
      simp only [inPaintOrder, hsorted, halike.refresh.fragments_eq]
  | read =>
      refine ⟨?_, hfragments, hnext, hproblems⟩
      simp only [FragmentList.respond, hfragments, hproblems]

/-- What a list remembers never shows in its answers. -/
theorem Alike.answers_eq (halike : list.Alike other) (hfresh : list.Fresh) (hfresh' : other.Fresh)
    (requests : List (Request α)) : (list.run requests).1 = (other.run requests).1 := by
  induction requests generalizing list other with
  | nil => rfl
  | cons request requests ih =>
      obtain ⟨hanswer, hnext⟩ := halike.respond hfresh hfresh' request
      exact congrArg₂ List.cons hanswer
        (ih hnext (hfresh.respond request) (hfresh'.respond request))

theorem map_some_inPaintOrder (hfresh : list.Fresh) :
    list.inPaintOrder.1.map some = list.positions.map fun i => list.fragments[i]? := by
  have hfragments := (alike_refresh list).fragments_eq
  have hrange : ∀ i ∈ list.positions, (list.fragments[i]?).isSome = true := by
    intro i hi
    have hlt : i < list.fragments.size :=
      List.mem_range.mp (list.perm_positions.mem_iff.mp hi)
    simpa using hlt
  calc list.inPaintOrder.1.map some
      = (list.positions.filterMap fun i => list.fragments[i]?).map some := by
        simp only [inPaintOrder, hfresh.sorted_refresh, hfragments]
    _ = (list.positions.map fun i => list.fragments[i]?).filter Option.isSome :=
        List.map_filterMap_some_eq_filter_map_isSome
    _ = list.positions.map fun i => list.fragments[i]? := by
        apply List.filter_eq_self.mpr
        intro entry hentry
        obtain ⟨i, hi, rfl⟩ := List.mem_map.mp hentry
        exact hrange i hi

/-- After any requests the order of painting is the one of the fragments as they are: every position
once, from the back to the front in the total order of bit patterns, ties by creation and then by
place. The fragments are visited in that order, and a cleared list answers as a new one. -/
theorem paintOrder_current (requests : List (Request α)) :
    let list := ((empty : FragmentList α).run requests).2
    let order := list.paintOrder.1
    order.Perm (List.range list.size) ∧
      order.Pairwise list.PaintedBefore ∧
      Function.Injective Depth.signed ∧
      list.inPaintOrder.1.map some = (order.map fun i => list.fragments[i]?) ∧
      ∀ later, (list.clear.run later).1 = (empty.run later).1 := by
  intro list order
  have hfresh : list.Fresh := fresh_empty.run requests
  have horder : order = list.positions := hfresh.sorted_refresh
  refine ⟨?_, ?_, Depth.signed_injective, ?_, ?_⟩
  · rw [horder]
    exact list.perm_positions
  · rw [horder]
    exact list.pairwise_positions
  · rw [horder]
    exact map_some_inPaintOrder hfresh
  · intro later
    have halike : list.clear.Alike empty := ⟨rfl, rfl, rfl⟩
    exact halike.answers_eq (fresh_of_stale rfl) fresh_empty later

-- Of markers at depths that are not numbers, one with the sign set is in front of all numbers.
example : [0xfff8000000000000, 0x3fe0000000000000, 0x7ff8000000000000].Pairwise fun a b =>
    let depth (bits : UInt64) : Double := (Fragment.ofMarker ⟨0⟩ (.outline true) 1
      ⟨0, ⟨0, 0, .ofBits bits⟩, 1⟩ : Fragment Double).meanDepth
    (Depth.ofScalar (depth a)).signed < (Depth.ofScalar (depth b)).signed := by
  decide +kernel

end FragmentList

end PainterScene
