import PainterScene.Proofs.Crossing
import PainterScene.Proofs.SplitWeight

/-!
# What a split in place does to the buffer

A call either leaves the buffer as it is, or it writes the first piece of each input that falls
apart into its slot and appends the others, those of the first input before those of the second.
This follows the branches of the code and holds of every arithmetic. When both inputs fall apart,
their lists of pieces begin with the same triangles on the screen, the fan over the overlap; what
comes after is the fan over what the other input leaves.
-/

namespace PainterScene

variable {α : Type}

theorem Pieces.isEmpty_rest_iff (p : Pieces α) : p.rest.isEmpty = true ↔ p.count = 1 := by
  simp [count]

variable [Scalar α]

theorem CutOnce.ne {limit : UInt32} {f x : Fragment α} (hx : CutOnce limit f x) : x ≠ f := by
  rintro rfl
  exact absurd hx.once (Nat.lt_succ_self _).ne

/-- The effect of a split into `count` pieces on slot `i`, which held the triangle `f`. -/
structure SlotEffect (limit : UInt32) (buffer next : Array (Fragment α)) (i count : Nat)
    (f : Fragment α) (appended : List (Fragment α)) : Prop where
  held : buffer[i]? = some f
  kind : f.kind = .triangle
  count_pos : 1 ≤ count
  kept_iff : next[i]? = some f ↔ count = 1
  written : 1 < count → ∃ x, next[i]? = some x ∧ CutOnce limit f x
  length : appended.length = count - 1
  pieces : ∀ x ∈ appended, CutOnce limit f x

theorem ScreenTriangle.screens_piece (t : ScreenTriangle α) (corners : Triple (Vec2 α)) :
    (t.piece corners).vertices.map Vertex.screen = corners := by
  simp only [piece, Triple.map, vertexAt_screen]

namespace Overlap

/-- The list of pieces of `t` begins with the fan over the overlap, so that it begins with the same
triangles on the screen as the list of `u`; after them come the pieces over what `u` leaves. -/
structure FansOut (rule : SplitRule α) (o : Overlap α) (t u : ScreenTriangle α)
    (pieces : List (Fragment α)) : Prop where
  screens : (pieces.take (sharedFan rule o).length).map (fun x => x.vertices.map Vertex.screen) =
    sharedFan rule o
  outer : pieces.drop (sharedFan rule o).length = (outerFan rule t u).map t.piece

/-- The pieces are made over the shared parts first. -/
theorem fansOut_piecesOver (rule : SplitRule α) (o : Overlap α) (t u : ScreenTriangle α) :
    FansOut rule o t u (piecesOver rule (sharedParts rule o) t u) := by
  rw [piecesOver_eq_map, List.map_append]
  constructor
  · have hscreens : (fun x : Fragment α => x.vertices.map Vertex.screen) ∘ t.piece = id := by
      funext corners
      exact t.screens_piece corners
    rw [List.take_left' (List.length_map _), List.map_map, hscreens, List.map_id]
  · rw [List.drop_left' (List.length_map _)]

section Slots

variable {buffer next : Array (Fragment α)} {i j : Nat} {f g : Fragment α} {p q : Pieces α}

omit [Scalar α] in
/-- Where a split puts the pieces: the slots keep their places and the rest follows them. -/
theorem layout_of_split (hij : i ≠ j) (hf : buffer[i]? = some f) (hg : buffer[j]? = some g)
    (hnext : next = replaceSlot (replaceSlot buffer i p) j q ++ p.rest ++ q.rest) :
    next[i]? = some (if p.rest.isEmpty then f else p.first) ∧
    next[j]? = some (if q.rest.isEmpty then g else q.first) ∧
    (∀ k, k < buffer.size → k ≠ i → k ≠ j → next[k]? = buffer[k]?) ∧
    next.toList.drop buffer.size = p.rest ++ q.rest ∧
    next.size = buffer.size + p.rest.length + q.rest.length := by
  have hlist : next.toList =
      (replaceSlot (replaceSlot buffer i p) j q).toList ++ (p.rest ++ q.rest) := by
    rw [hnext, Array.toList_appendList, Array.toList_appendList, List.append_assoc]
  have hsize : (replaceSlot (replaceSlot buffer i p) j q).toList.length = buffer.size := by
    rw [Array.length_toList, size_replaceSlot, size_replaceSlot]
  have hslot : ∀ {k}, k < buffer.size →
      next[k]? = (replaceSlot (replaceSlot buffer i p) j q)[k]? := by
    intro k hk
    rw [← Array.getElem?_toList, hlist, List.getElem?_append_left (by omega),
      Array.getElem?_toList]
  obtain ⟨hi, -⟩ := Array.getElem?_eq_some_iff.mp hf
  obtain ⟨hj, -⟩ := Array.getElem?_eq_some_iff.mp hg
  obtain ⟨hfirst, hsecond⟩ := getElem?_replaceSlots hij hf hg p q
  refine ⟨?_, ?_, fun k hk hki hkj => ?_, ?_, ?_⟩
  · rw [hslot hi, hfirst]
  · rw [hslot hj, hsecond]
  · rw [hslot hk, getElem?_replaceSlot_of_ne hkj.symm, getElem?_replaceSlot_of_ne hki.symm]
  · rw [hlist, List.drop_left' hsize]
  · rw [← Array.length_toList, hlist, List.length_append, List.length_append, hsize, Nat.add_assoc]

/-- A slot that falls into several pieces takes the first of them, and the rest is appended. -/
theorem slotEffect_of_fill {limit : UInt32} (hf : buffer[i]? = some f)
    (hnext : next[i]? = some (if p.rest.isEmpty then f else p.first)) (hp : p.Fill limit f) :
    SlotEffect limit buffer next i p.count f p.rest := by
  have hfirst := hp.cut p.first List.mem_cons_self
  refine ⟨hf, hfirst.parent, Nat.le_add_left 1 _, ?_, ?_, rfl, fun x hx => ?_⟩
  · rw [hnext, Option.some.injEq, ← p.isEmpty_rest_iff]
    by_cases hrest : p.rest.isEmpty = true
    · simp [hrest]
    · simp [hrest, hfirst.ne]
  · intro hseveral
    refine ⟨p.first, ?_, hfirst⟩
    rw [hnext, if_neg (mt p.isEmpty_rest_iff.mp hseveral.ne')]
  · exact hp.cut x (List.mem_cons_of_mem p.first hx)

end Slots

theorem counts_ne_of_partition? {rule : SplitRule α} {o : Overlap α} {p q : Pieces α}
    (hpartition : partition? rule o = some (p, q)) : (p.count, q.count) ≠ (1, 1) := by
  intro hone
  obtain ⟨hp, hq⟩ := Prod.mk.inj hone
  rw [← Pieces.isEmpty_rest_iff, List.isEmpty_iff] at hp hq
  obtain hrest | hrest := several_of_partition? hpartition
  · exact hrest hp
  · exact hrest hq

/-- **The effect of a split in place.** A call that returns `(1, 1)` leaves the buffer alone. Any
other call splits two triangles that may be cut: it keeps or rewrites their slots, appends the other
pieces in order and touches nothing else, and if both fall apart their pieces begin alike. -/
theorem splitInPlace_effect (rule : SplitRule α) (buffer : Array (Fragment α)) (i j : Nat)
    {n₁ n₂ : Nat} {next : Array (Fragment α)}
    (hsplit : splitInPlace rule buffer i j = ((n₁, n₂), next)) :
    ((n₁, n₂) = (1, 1) → next = buffer) ∧
    ((n₁, n₂) ≠ (1, 1) → ∃ f g o first second, i ≠ j ∧ Eligible rule f g ∧
      ofFragments? rule f g = some o ∧ SlotEffect rule.maxDepth buffer next i n₁ f first ∧
      SlotEffect rule.maxDepth buffer next j n₂ g second ∧
      next.toList.drop buffer.size = first ++ second ∧
      next.size = buffer.size + (n₁ - 1) + (n₂ - 1) ∧
      (∀ k, k < buffer.size → k ≠ i → k ≠ j → next[k]? = buffer[k]?) ∧
      (1 < n₁ → 1 < n₂ → ∃ x y, next[i]? = some x ∧ next[j]? = some y ∧
        FansOut rule o o.first o.second (x :: first) ∧
        FansOut rule o o.second o.first (y :: second))) := by
  obtain hkept | ⟨f, g, o, p, q, hij, hf, hg, ho, hpartition, heq⟩ :=
    splitInPlace_eq_or rule buffer i j
  · rw [hkept] at hsplit
    cases hsplit
    exact ⟨fun _ => rfl, fun hseveral => absurd rfl hseveral⟩
  · rw [heq, Prod.mk.injEq, Prod.mk.injEq] at hsplit
    obtain ⟨⟨rfl, rfl⟩, hnext⟩ := hsplit
    refine ⟨fun hone => absurd hone (counts_ne_of_partition? hpartition), fun _ => ?_⟩
    obtain ⟨hslotI, hslotJ, hothers, hrest, hsize⟩ := layout_of_split hij hf hg hnext.symm
    obtain ⟨heligible, -⟩ := ofFragments?_eq_some_iff.mp ho
    obtain ⟨hfill, hfill'⟩ := partition?_fill ho hpartition
    obtain ⟨hp, hq⟩ := toList_of_partition? hpartition
    refine ⟨f, g, o, p.rest, q.rest, hij, heligible, ho, slotEffect_of_fill hf hslotI hfill,
      slotEffect_of_fill hg hslotJ hfill', hrest, hsize, hothers, fun hseveral hseveral' => ?_⟩
    refine ⟨p.first, q.first, ?_, ?_, ?_, ?_⟩
    · rw [hslotI, if_neg (mt p.isEmpty_rest_iff.mp hseveral.ne')]
    · rw [hslotJ, if_neg (mt q.isEmpty_rest_iff.mp hseveral'.ne')]
    · have hfans := fansOut_piecesOver rule o o.first o.second
      rwa [← hp] at hfans
    · have hfans := fansOut_piecesOver rule o o.second o.first
      rwa [← hq] at hfans

/-- The slots are given in falling order and the marker between them is left alone. -/
theorem splitInPlace_swapped_slots :
    let buffer := #[ramp, Fragment.blank .marker, level]
    let split := splitInPlace coarse buffer 2 0
    split.1 = (4, 2) ∧ split.2.size = 7 ∧ split.2[1]? = buffer[1]? ∧
      ∃ o first second, ofFragments? coarse level ramp = some o ∧
        SlotEffect coarse.maxDepth buffer split.2 2 4 level first ∧
        SlotEffect coarse.maxDepth buffer split.2 0 2 ramp second ∧
        split.2.toList.drop 3 = first ++ second ∧
        ∃ x y, split.2[2]? = some x ∧ split.2[0]? = some y ∧
          FansOut coarse o o.first o.second (x :: first) ∧
          FansOut coarse o o.second o.first (y :: second) := by
  intro buffer split
  have hcounts : split.1 = (4, 2) := by decide +kernel
  obtain ⟨f, g, o, first, second, -, -, ho, hfirst, hsecond, hrest, hsize, hothers, hfans⟩ :=
    (splitInPlace_effect coarse buffer 2 0
      (show split = ((4, 2), split.2) from Prod.ext hcounts rfl)).2 (by decide)
  obtain rfl : level = f := by simpa [buffer] using hfirst.held
  obtain rfl : ramp = g := by simpa [buffer] using hsecond.held
  exact ⟨hcounts, hsize, hothers 1 (by decide) (by decide) (by decide), o, first, second, ho,
    hfirst, hsecond, hrest, hfans (by decide) (by decide)⟩

end Overlap

end PainterScene
