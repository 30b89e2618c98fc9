import Mathlib
import PainterScene.Proofs.Cuts

/-!
# The weight that splitting in place uses up

Every call that splits makes the buffer longer, so its size measures nothing. What falls is a
weight: a fragment that may still be cut `d` times over weighs `36 ^ d`. A triangle comes out in at
most 35 pieces and each of them may be cut once less, so together they weigh less than the triangle
did; the other input weighs no more than before, whether it was cut or kept.

The number of pieces is bounded for every outcome of the tests, consistent or not. Along a closed
walk as many steps enter a half-plane as leave it, so clipping leaves at most three corners for
every two. That makes 9 corners of the overlap at most, hence 22 triangles over its two sides, and
13 over what is peeled off outside.
-/

namespace PainterScene

variable {α : Type}

/-! ### Corners and triangles -/

section Corners

variable [Scalar α]

namespace Polygon

/-- A step gives two corners only where it enters the half-plane, and then the walk has to leave
again. -/
theorem length_clipStep_le (h : HalfPlane α) (prev cur : Vec2 α) :
    2 * (clipStep h prev cur).length + (h.contains prev).toNat ≤ 3 + (h.contains cur).toNat := by
  cases hprev : h.contains prev <;> cases hcur : h.contains cur <;> simp [clipStep, hprev, hcur]

theorem length_clipSteps_le (h : HalfPlane α) {prev last : Vec2 α} {poly : Polygon α}
    (hlast : (prev :: poly).getLast? = some last) :
    2 * (((prev :: poly).zip poly).flatMap fun step => clipStep h step.1 step.2).length +
      (h.contains prev).toNat ≤ 3 * poly.length + (h.contains last).toNat := by
  induction poly generalizing prev with
  | nil =>
      obtain rfl : prev = last := by simpa using hlast
      simp
  | cons cur poly ih =>
      have hrest := ih (by simpa using hlast)
      have hstep := length_clipStep_le h prev cur
      simp only [List.zip_cons_cons, List.flatMap_cons, List.length_append, List.length_cons]
      omega

/-- A half-plane leaves at most three corners for every two, whatever its signs there are. -/
theorem length_clip_le (tol : α) (h : HalfPlane α) (poly : Polygon α) :
    2 * (clip tol h poly).length ≤ 3 * poly.length := by
  have hmerged :=
    (merge_sublist tol (poly.steps.flatMap fun step => clipStep h step.1 step.2)).length_le
  cases hlast : poly.getLast? with
  | none =>
      obtain rfl := List.getLast?_eq_none_iff.mp hlast
      simp [clip, steps, merge]
  | some last =>
      have hclosed : (last :: poly).getLast? = some last := by
        rw [List.getLast?_cons, hlast, Option.getD_some]
      have hwalk := length_clipSteps_le h hclosed
      simp only [clip, steps, hlast] at hmerged ⊢
      omega

/-- The triangles of what is peeled off, one half-plane after the other. -/
theorem length_triangles_peel_le (tol minArea : α) (h : HalfPlane α) (planes : List (HalfPlane α))
    (remaining : Polygon α) :
    ((peel tol minArea (h :: planes) remaining).flatMap (triangulate minArea)).length ≤
      ((remaining.clip tol h.flip).length - 2) + ((peel tol minArea planes
        (remaining.clip tol h)).flatMap (triangulate minArea)).length := by
  have houtside := length_triangulate_le minArea (remaining.clip tol h.flip)
  rw [peel]
  split
  · simp
  · simp only
    split
    · simp only [List.flatMap_cons, List.length_append]
      omega
    · omega

end Polygon

namespace ScreenTriangle

theorem exists_edgePlanes_eq (t : ScreenTriangle α) :
    ∃ h₁ h₂ h₃, t.footprint.edgePlanes = [h₁, h₂, h₃] := by
  obtain ⟨a, b, c, hfootprint⟩ := t.exists_footprint_eq
  rw [hfootprint]
  exact ⟨_, _, _, rfl⟩

theorem length_footprint (t : ScreenTriangle α) : t.footprint.length = 3 := by
  obtain ⟨a, b, c, hfootprint⟩ := t.exists_footprint_eq
  rw [hfootprint]
  rfl

theorem length_intersect_footprint_le (tol : α) (t u : ScreenTriangle α) :
    (Polygon.intersect tol t.footprint u.footprint).length ≤ 9 := by
  obtain ⟨h₁, h₂, h₃, hplanes⟩ := u.exists_edgePlanes_eq
  have hstart := t.length_footprint
  have hfirst := Polygon.length_clip_le tol h₁ t.footprint
  have hsecond := Polygon.length_clip_le tol h₂ (t.footprint.clip tol h₁)
  have hthird := Polygon.length_clip_le tol h₃ ((t.footprint.clip tol h₁).clip tol h₂)
  simp only [Polygon.intersect, hplanes, List.foldl_cons, List.foldl_nil]
  omega

theorem length_triangles_subtract_le (tol minArea : α) (t u : ScreenTriangle α) :
    ((Polygon.subtract tol minArea t.footprint u.footprint).flatMap
      (Polygon.triangulate minArea)).length ≤ 13 := by
  obtain ⟨h₁, h₂, h₃, hplanes⟩ := u.exists_edgePlanes_eq
  have hstart := t.length_footprint
  have hfirst := Polygon.length_clip_le tol h₁ t.footprint
  have hsecond := Polygon.length_clip_le tol h₂ (t.footprint.clip tol h₁)
  have houter₁ := Polygon.length_clip_le tol h₁.flip t.footprint
  have houter₂ := Polygon.length_clip_le tol h₂.flip (t.footprint.clip tol h₁)
  have houter₃ := Polygon.length_clip_le tol h₃.flip ((t.footprint.clip tol h₁).clip tol h₂)
  have hpeel₁ := Polygon.length_triangles_peel_le tol minArea h₁ [h₂, h₃] t.footprint
  have hpeel₂ := Polygon.length_triangles_peel_le tol minArea h₂ [h₃] (t.footprint.clip tol h₁)
  have hpeel₃ := Polygon.length_triangles_peel_le tol minArea h₃ []
    ((t.footprint.clip tol h₁).clip tol h₂)
  have hdone : ∀ remaining : Polygon α,
      ((Polygon.peel tol minArea [] remaining).flatMap (Polygon.triangulate minArea)).length = 0 :=
    fun _ => rfl
  rw [hdone] at hpeel₃
  rw [Polygon.subtract, hplanes]
  omega

end ScreenTriangle

end Corners

/-! ### Pieces in place -/

namespace Pieces

/-- From one to 35 pieces, each cut from the fragment. -/
structure Fill [Scalar α] (limit : UInt32) (f : Fragment α) (p : Pieces α) : Prop where
  count_le : p.count ≤ 35
  cut : ∀ x ∈ p.toList, CutOnce limit f x

end Pieces

namespace Overlap

section Partition

variable [Scalar α] {rule : SplitRule α} {f g : Fragment α} {o : Overlap α} {p q : Pieces α}

theorem length_sharedFan_le (rule : SplitRule α) (hpolygon : o.polygon.length ≤ 9) :
    (sharedFan rule o).length ≤ 22 := by
  have hcount : ∀ poly : Polygon α,
      (Polygon.triangulate rule.areaTolerance poly).length ≤ poly.length - 2 :=
    Polygon.length_triangulate_le rule.areaTolerance
  unfold sharedFan sharedParts
  split
  · rename_i cut _
    have hside := Polygon.length_clip_le rule.mergeDistance cut o.polygon
    have hflip := Polygon.length_clip_le rule.mergeDistance cut.flip o.polygon
    have hsideCount := hcount (o.polygon.clip rule.mergeDistance cut)
    have hflipCount := hcount (o.polygon.clip rule.mergeDistance cut.flip)
    simp only [List.flatMap_cons, List.flatMap_nil, List.append_nil, List.length_append]
    omega
  · have hwhole := hcount o.polygon
    simp only [List.flatMap_cons, List.flatMap_nil, List.append_nil]
    omega

theorem length_piecesOver_le (hpolygon : o.polygon.length ≤ 9) (t u : ScreenTriangle α) :
    (piecesOver rule (sharedParts rule o) t u).length ≤ 35 := by
  have hshared := length_sharedFan_le rule hpolygon
  have houter : (outerFan rule t u).length ≤ 13 :=
    ScreenTriangle.length_triangles_subtract_le rule.mergeDistance rule.areaTolerance t u
  rw [piecesOver_eq_map, List.length_map, List.length_append]
  omega

theorem fill_of_toList_eq {shared : List (Polygon α)} {t u : ScreenTriangle α}
    (ht : ScreenTriangle.ofFragment? f = some t) (hlimit : f.splitCount < rule.maxDepth)
    (hp : p.toList = piecesOver rule shared t u)
    (hlength : (piecesOver rule shared t u).length ≤ 35) : p.Fill rule.maxDepth f := by
  refine ⟨?_, ?_⟩
  · have hcount : p.count = p.toList.length := rfl
    rw [hcount, hp]
    exact hlength
  · intro x hx
    rw [hp] at hx
    obtain ⟨corners, -, rfl⟩ := List.mem_map.mp hx
    exact (ScreenTriangle.cutOut_piece ht corners).cutOnce hlimit

/-- A partition gives each triangle 35 pieces at most, each cut once more. -/
theorem partition?_fill (ho : ofFragments? rule f g = some o)
    (hpartition : partition? rule o = some (p, q)) :
    p.Fill rule.maxDepth f ∧ q.Fill rule.maxDepth g := by
  obtain ⟨heligible, ht, hu, -, hpolygon, -⟩ := ofFragments?_eq_some_iff.mp ho
  have hcorners : o.polygon.length ≤ 9 := by
    rw [hpolygon]
    exact ScreenTriangle.length_intersect_footprint_le rule.mergeDistance o.first o.second
  obtain ⟨hp, hq⟩ := toList_of_partition? hpartition
  exact ⟨fill_of_toList_eq ht heligible.first hp (length_piecesOver_le hcorners o.first o.second),
    fill_of_toList_eq hu heligible.second hq (length_piecesOver_le hcorners o.second o.first)⟩

theorem several_of_partition? (hpartition : partition? rule o = some (p, q)) :
    p.rest ≠ [] ∨ q.rest ≠ [] := by
  unfold partition? at hpartition
  simp only at hpartition
  split at hpartition
  · split at hpartition
    · cases hpartition
    · rename_i hseveral
      cases hpartition
      rwa [List.isEmpty_iff, List.isEmpty_iff, not_and_or] at hseveral
  · cases hpartition

/-- What a call does: nothing at all, or it splits two different slots. -/
theorem splitInPlace_eq (rule : SplitRule α) (buffer : Array (Fragment α)) (i j : Nat) :
    splitInPlace rule buffer i j = ((1, 1), buffer) ∨
      ∃ f g p q, i ≠ j ∧ buffer[i]? = some f ∧ buffer[j]? = some g ∧
        p.Fill rule.maxDepth f ∧ q.Fill rule.maxDepth g ∧ (p.rest ≠ [] ∨ q.rest ≠ []) ∧
        splitInPlace rule buffer i j = ((p.count, q.count),
          replaceSlot (replaceSlot buffer i p) j q ++ p.rest ++ q.rest) := by
  obtain hkept | ⟨f, g, o, p, q, hij, hf, hg, ho, hpartition, hsplit⟩ :=
    splitInPlace_eq_or rule buffer i j
  · exact Or.inl hkept
  · obtain ⟨hp, hq⟩ := partition?_fill ho hpartition
    exact Or.inr ⟨f, g, p, q, hij, hf, hg, hp, hq, several_of_partition? hpartition, hsplit⟩

end Partition

/-! ### The weight of a buffer -/

/-- The weight of fragments that have been cut `counts` times: each weighs `36 ^ d` if the limit
allows `d` more cuts one after the other. -/
def weight (limit : UInt32) (counts : List UInt32) : Nat :=
  (counts.map fun count => 36 ^ (limit.toNat - count.toNat)).sum

def splitCounts (fragments : List (Fragment α)) : List UInt32 :=
  fragments.map Fragment.splitCount

section Weight

variable {limit : UInt32} {f : Fragment α} {p : Pieces α} {buffer : Array (Fragment α)}

theorem weight_append (limit : UInt32) (counts counts' : List UInt32) :
    weight limit (counts ++ counts') = weight limit counts + weight limit counts' := by
  simp [weight]

theorem weight_set {counts : List UInt32} {i : Nat} {old : UInt32} (hold : counts[i]? = some old)
    (limit new : UInt32) :
    weight limit (counts.set i new) + weight limit [old] =
      weight limit counts + weight limit [new] := by
  induction counts generalizing i with
  | nil => simp at hold
  | cons count counts ih =>
      cases i with
      | zero =>
          obtain rfl : count = old := by simpa using hold
          simp [weight]
          omega
      | succ i =>
          have htail := ih (by simpa using hold)
          simp [weight] at htail ⊢
          omega

theorem weight_le_of_forall {counts : List UInt32} {d : Nat}
    (hcounts : ∀ count ∈ counts, limit.toNat - count.toNat ≤ d) :
    weight limit counts ≤ counts.length * 36 ^ d := by
  have hle : ∀ entry ∈ counts.map fun count => 36 ^ (limit.toNat - count.toNat),
      entry ≤ 36 ^ d := by
    intro entry hentry
    obtain ⟨count, hcount, rfl⟩ := List.mem_map.mp hentry
    exact Nat.pow_le_pow_right (by omega) (hcounts count hcount)
  have hsum := List.sum_le_card_nsmul _ _ hle
  rwa [List.length_map, smul_eq_mul] at hsum

/-- No buffer weighs more than one in which nothing has been cut. -/
theorem weight_le (limit : UInt32) (counts : List UInt32) :
    weight limit counts ≤ counts.length * 36 ^ limit.toNat :=
  weight_le_of_forall fun _ _ => Nat.sub_le _ _

/-- The pieces of a fragment weigh less than the fragment: there are at most 35, and each of them
may be cut once less. -/
theorem weight_pieces_lt [Scalar α] (hp : p.Fill limit f) :
    weight limit (splitCounts p.toList) < weight limit [f.splitCount] := by
  have hfirst := hp.cut p.first List.mem_cons_self
  have hlimit : f.splitCount.toNat < limit.toNat :=
    UInt32.lt_iff_toNat_lt.mp (UInt32.lt_of_lt_of_le hfirst.deeper hfirst.capped)
  obtain ⟨d, hd⟩ : ∃ d, limit.toNat - f.splitCount.toNat = d + 1 :=
    ⟨limit.toNat - f.splitCount.toNat - 1, by omega⟩
  have hpiece : ∀ count ∈ splitCounts p.toList, limit.toNat - count.toNat ≤ d := by
    intro count hcount
    obtain ⟨x, hx, rfl⟩ := List.mem_map.mp hcount
    have honce := (hp.cut x hx).once
    omega
  have hlength : (splitCounts p.toList).length = p.count := by
    simp [splitCounts, Pieces.toList, Pieces.count]
  calc weight limit (splitCounts p.toList)
      ≤ (splitCounts p.toList).length * 36 ^ d := weight_le_of_forall hpiece
    _ ≤ 35 * 36 ^ d := Nat.mul_le_mul_right _ (hlength ▸ hp.count_le)
    _ < 36 * 36 ^ d := Nat.mul_lt_mul_of_pos_right (by omega) (by positivity)
    _ = weight limit [f.splitCount] := by
        simp only [weight, List.map_cons, List.map_nil, List.sum_singleton, hd]
        ring

/-- What a slot weighs after a call, together with the pieces that are appended for it. -/
def slotWeight (limit : UInt32) (f : Fragment α) (p : Pieces α) : Nat :=
  if p.rest.isEmpty then weight limit [f.splitCount] else weight limit (splitCounts p.toList)

theorem slotWeight_le [Scalar α] (hp : p.Fill limit f) :
    slotWeight limit f p ≤ weight limit [f.splitCount] := by
  unfold slotWeight
  split
  · exact le_rfl
  · exact (weight_pieces_lt hp).le

theorem slotWeight_lt [Scalar α] (hp : p.Fill limit f) (hseveral : p.rest ≠ []) :
    slotWeight limit f p < weight limit [f.splitCount] := by
  rw [slotWeight, if_neg (by simpa using hseveral)]
  exact weight_pieces_lt hp

/-- What a slot and its appended pieces weigh together takes the place of what it weighed. -/
theorem weight_replaceSlot {i : Nat} (hf : buffer[i]? = some f) (limit : UInt32) (p : Pieces α) :
    weight limit (splitCounts (replaceSlot buffer i p).toList) + weight limit (splitCounts p.rest) +
        weight limit [f.splitCount] =
      weight limit (splitCounts buffer.toList) + slotWeight limit f p := by
  unfold replaceSlot slotWeight
  split
  · rename_i hwhole
    rw [List.isEmpty_iff] at hwhole
    simp [hwhole, splitCounts, weight]
  · have hcount : (splitCounts buffer.toList)[i]? = some f.splitCount := by
      simp [splitCounts, hf]
    have hset := weight_set hcount limit p.first.splitCount
    have hpieces : weight limit (splitCounts p.toList) =
        weight limit [p.first.splitCount] + weight limit (splitCounts p.rest) :=
      weight_append limit [p.first.splitCount] (splitCounts p.rest)
    rw [hpieces, Array.toList_setIfInBounds, splitCounts, List.map_set]
    simp only [splitCounts] at hset ⊢
    omega

end Weight

section Calls

variable [Scalar α]

omit [Scalar α] in
theorem splitCounts_append (fragments fragments' : List (Fragment α)) :
    splitCounts (fragments ++ fragments') = splitCounts fragments ++ splitCounts fragments' :=
  List.map_append

/-- A call that splits takes weight away, and any other call changes nothing. -/
theorem splitInPlace_step (rule : SplitRule α) (buffer : Array (Fragment α)) (i j : Nat) :
    ((splitInPlace rule buffer i j).1 = (1, 1) ∧ (splitInPlace rule buffer i j).2 = buffer) ∨
      ((splitInPlace rule buffer i j).1 ≠ (1, 1) ∧
        weight rule.maxDepth (splitCounts (splitInPlace rule buffer i j).2.toList) <
          weight rule.maxDepth (splitCounts buffer.toList)) := by
  obtain hkept | ⟨f, g, p, q, hij, hf, hg, hp, hq, hseveral, hsplit⟩ :=
    splitInPlace_eq rule buffer i j
  · exact Or.inl ⟨by rw [hkept], by rw [hkept]⟩
  · refine Or.inr ⟨?_, ?_⟩
    · rw [hsplit]
      simp only [Pieces.count, ne_eq, Prod.mk.injEq, Nat.add_eq_right, List.length_eq_zero_iff]
      tauto
    · have hsecond : (replaceSlot buffer i p)[j]? = some g := by
        rw [getElem?_replaceSlot_of_ne hij, hg]
      have hfirstSlot := weight_replaceSlot hf rule.maxDepth p
      have hsecondSlot := weight_replaceSlot hsecond rule.maxDepth q
      have hfirst := slotWeight_le hp
      have hother := slotWeight_le hq
      have hless : slotWeight rule.maxDepth f p < weight rule.maxDepth [f.splitCount] ∨
          slotWeight rule.maxDepth g q < weight rule.maxDepth [g.splitCount] :=
        hseveral.imp (slotWeight_lt hp) (slotWeight_lt hq)
      rw [hsplit]
      simp only [Array.toList_appendList, splitCounts_append, weight_append]
      omega

/-- What a buffer holds after a call, it held before or was cut from. -/
theorem mem_splitInPlace {rule : SplitRule α} {buffer : Array (Fragment α)} {i j : Nat}
    {x : Fragment α} (hx : x ∈ (splitInPlace rule buffer i j).2) :
    x ∈ buffer ∨ ∃ f ∈ buffer, CutOnce rule.maxDepth f x := by
  obtain ⟨k, hk⟩ := Array.mem_iff_getElem?.mp hx
  obtain hkept | ⟨p, q, hslots, hx⟩ := splitInPlace_cases hk
  · exact Or.inl (Array.mem_of_getElem? hkept)
  · obtain ⟨f, g, o, hf, hg, ho, hpartition⟩ := partitionSlots?_eq_some hslots
    obtain ⟨hp, hq⟩ := partition?_fill ho hpartition
    obtain hx | hx := hx
    · exact Or.inr ⟨f, Array.mem_of_getElem? hf, hp.cut x hx⟩
    · exact Or.inr ⟨g, Array.mem_of_getElem? hg, hq.cut x hx⟩

/-- Cuts count up to the limit and not beyond. -/
theorem splitCount_le_of_chain {limit : UInt32} {f x : Fragment α}
    (hchain : Relation.ReflTransGen (CutOnce limit) f x) :
    x.splitCount.toNat ≤ max f.splitCount.toNat limit.toNat := by
  have hcut : x = f ∨ CutFrom limit f x := by
    induction hchain with
    | refl => exact Or.inl rfl
    | tail _ hlast ih =>
        obtain rfl | hfirst := ih
        · exact Or.inr hlast.toCutFrom
        · exact Or.inr (hfirst.trans hlast.toCutFrom)
  obtain rfl | hcut := hcut
  · exact le_max_left _ _
  · exact le_max_of_le_right (UInt32.le_iff_toNat_le.mp hcut.capped)

/-- Each call that splits is paid for by some of the weight. -/
theorem countP_splitCalls_add_weight_le (rule : SplitRule α) (buffer : Array (Fragment α))
    (calls : List (Nat × Nat)) :
    (splitCalls rule buffer calls).1.countP (· ≠ (1, 1)) +
        weight rule.maxDepth (splitCounts (splitCalls rule buffer calls).2.toList) ≤
      weight rule.maxDepth (splitCounts buffer.toList) := by
  induction calls generalizing buffer with
  | nil => simp [splitCalls]
  | cons call calls ih =>
      have hrest := ih (splitInPlace rule buffer call.1 call.2).2
      rw [splitCalls_cons]
      obtain ⟨hanswer, hbuffer⟩ | ⟨hanswer, hless⟩ := splitInPlace_step rule buffer call.1 call.2
      · rw [List.countP_cons_of_neg (by simp [hanswer])]
        rwa [hbuffer] at hrest ⊢
      · rw [List.countP_cons_of_pos (by simpa using hanswer)]
        simp only
        omega

/-- Whatever is in the buffer after some calls comes from it by single cuts. -/
theorem exists_ancestor_splitCalls (rule : SplitRule α) (buffer : Array (Fragment α))
    (calls : List (Nat × Nat)) :
    ∀ x ∈ (splitCalls rule buffer calls).2,
      ∃ f ∈ buffer, Relation.ReflTransGen (CutOnce rule.maxDepth) f x := by
  let Descends : Array (Fragment α) → Prop := fun later =>
    ∀ x ∈ later, ∃ f ∈ buffer, Relation.ReflTransGen (CutOnce rule.maxDepth) f x
  have hstep : ∀ later i j, Descends later → Descends (splitInPlace rule later i j).2 := by
    intro later i j hlater x hx
    obtain hx | ⟨parent, hparent, hcut⟩ := mem_splitInPlace hx
    · exact hlater x hx
    · obtain ⟨f, hf, hchain⟩ := hlater parent hparent
      exact ⟨f, hf, hchain.tail hcut⟩
  exact splitCalls_invariant hstep (fun x hx => ⟨x, hx, .refl⟩) calls

/-- **The limit on cuts makes splitting in place well-founded.** A call that answers anything but
`(1, 1)` takes weight away, and a call that answers `(1, 1)` leaves the buffer as it is. So of any
calls at most as many change the buffer as it weighed, and no fragment is cut past the limit: its
count of cuts is at most that of the fragment it comes from, or the limit. -/
theorem splitInPlace_uses_weight (rule : SplitRule α) :
    (∀ (buffer : Array (Fragment α)) (i j : Nat),
      let out := splitInPlace rule buffer i j
      (out.1 ≠ (1, 1) → weight rule.maxDepth (splitCounts out.2.toList) <
        weight rule.maxDepth (splitCounts buffer.toList)) ∧
      (out.1 = (1, 1) → out.2 = buffer ∧ weight rule.maxDepth (splitCounts out.2.toList) =
        weight rule.maxDepth (splitCounts buffer.toList))) ∧
    ∀ (buffer : Array (Fragment α)) (calls : List (Nat × Nat)),
      let out := splitCalls rule buffer calls
      out.1.countP (· ≠ (1, 1)) + weight rule.maxDepth (splitCounts out.2.toList) ≤
        weight rule.maxDepth (splitCounts buffer.toList) ∧
      weight rule.maxDepth (splitCounts buffer.toList) ≤
        buffer.size * 36 ^ rule.maxDepth.toNat ∧
      ∀ x ∈ out.2, ∃ f ∈ buffer, Relation.ReflTransGen (CutOnce rule.maxDepth) f x ∧
        x.splitCount.toNat ≤ max f.splitCount.toNat rule.maxDepth.toNat := by
  refine ⟨?_, ?_⟩
  · intro buffer i j out
    obtain ⟨hanswer, hbuffer⟩ | ⟨hanswer, hless⟩ := splitInPlace_step rule buffer i j
    · exact ⟨fun hne => absurd hanswer hne, fun _ => ⟨hbuffer, by rw [hbuffer]⟩⟩
    · exact ⟨fun _ => hless, fun heq => absurd heq hanswer⟩
  · intro buffer calls out
    refine ⟨countP_splitCalls_add_weight_le rule buffer calls, ?_, ?_⟩
    · simpa [splitCounts] using weight_le rule.maxDepth (splitCounts buffer.toList)
    · intro x hx
      obtain ⟨f, hf, hchain⟩ := exists_ancestor_splitCalls rule buffer calls x hx
      exact ⟨f, hf, hchain, splitCount_le_of_chain hchain⟩

end Calls

end Overlap

end PainterScene
