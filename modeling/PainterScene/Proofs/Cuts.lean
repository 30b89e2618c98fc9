import Mathlib
import PainterScene.Overlap.Resolve

/-!
# What a cut can do

These facts hold of every arithmetic, since they only follow the branches of the code: when a pair
is cut at all, into how many pieces, and what a piece takes over from its parent. A half-plane
leaves at most four corners of a triangle whatever its signs there are, so each of the two sides of
a cut gives at most two triangles.
-/

namespace PainterScene

variable {α : Type}

/-- `x` is the piece of the triangle `f` over three screen positions, each of which has `P`. -/
def PieceOver [Scalar α] (P : ScreenTriangle α → Vec2 α → Prop) (f x : Fragment α) : Prop :=
  ∃ t corners, ScreenTriangle.ofFragment? f = some t ∧ (∀ q ∈ corners.toList, P t q) ∧
    x = t.piece corners

abbrev CutOut [Scalar α] : Fragment α → Fragment α → Prop :=
  PieceOver fun _ _ => True

/-- `x` comes from the triangle `f` by one cut or more: it is a triangle, has everything of `f` but
the corners, and its count of cuts is larger and at most `limit`. -/
structure CutFrom (limit : UInt32) (f x : Fragment α) : Prop where
  parent : f.kind = .triangle
  kind : x.kind = .triangle
  source : x.source = f.source
  payload : x.payload = f.payload
  surface : x.surface = f.surface
  line : x.line = f.line
  size : x.size = f.size
  creationIndex : x.creationIndex = f.creationIndex
  deeper : f.splitCount < x.splitCount
  capped : x.splitCount ≤ limit

/-- A piece of a piece is a piece. -/
theorem CutFrom.trans {limit : UInt32} {f x y : Fragment α} (hx : CutFrom limit f x)
    (hy : CutFrom limit x y) : CutFrom limit f y where
  parent := hx.parent
  kind := hy.kind
  source := hy.source.trans hx.source
  payload := hy.payload.trans hx.payload
  surface := hy.surface.trans hx.surface
  line := hy.line.trans hx.line
  size := hy.size.trans hx.size
  creationIndex := hy.creationIndex.trans hx.creationIndex
  deeper := UInt32.lt_trans hx.deeper hy.deeper
  capped := hy.capped

/-- `x` comes from the triangle `f`, which was below the limit, by a single cut. -/
structure CutOnce [Scalar α] (limit : UInt32) (f x : Fragment α) : Prop
    extends CutFrom limit f x where
  piece : CutOut f x
  once : x.splitCount.toNat = f.splitCount.toNat + 1

namespace Pieces

theorem length_toList (p : Pieces α) : p.toList.length = p.count := rfl

/-- The pieces are the fragment itself, or from two to four fragments cut from it. -/
def ComeFrom (limit : UInt32) (f : Fragment α) (p : Pieces α) : Prop :=
  p.count ≤ 4 ∧ (p = whole f ∨ 1 < p.count ∧ ∀ x ∈ p.toList, CutFrom limit f x)

theorem comeFrom_whole (limit : UInt32) (f : Fragment α) : (whole f).ComeFrom limit f :=
  ⟨by simp [whole, count], Or.inl rfl⟩

theorem ComeFrom.eq_or_cutFrom {limit : UInt32} {f x : Fragment α} {p : Pieces α}
    (hp : p.ComeFrom limit f) (hx : x ∈ p.toList) : x = f ∨ CutFrom limit f x := by
  obtain ⟨-, rfl | ⟨-, hcut⟩⟩ := hp
  · exact Or.inl (List.mem_singleton.mp hx)
  · exact Or.inr (hcut x hx)

theorem ComeFrom.eq_whole {limit : UInt32} {f : Fragment α} {p : Pieces α}
    (hp : p.ComeFrom limit f) (hcount : ¬ 1 < p.count) : p = whole f := by
  obtain ⟨-, hwhole | ⟨hseveral, -⟩⟩ := hp
  · exact hwhole
  · exact absurd hseveral hcount

theorem ComeFrom.cutFrom_of_mem_rest {limit : UInt32} {f x : Fragment α} {p : Pieces α}
    (hp : p.ComeFrom limit f) (hx : x ∈ p.rest) : CutFrom limit f x := by
  obtain ⟨-, rfl | ⟨-, hcut⟩⟩ := hp
  · cases hx
  · exact hcut x (List.mem_cons_of_mem p.first hx)

end Pieces

variable [Scalar α]

namespace Polygon

theorem dropRepeats_sublist (tol : α) (p : Vec2 α) (poly : Polygon α) :
    (dropRepeats tol p poly).Sublist poly := by
  induction poly generalizing p with
  | nil => exact List.Sublist.slnil
  | cons q rest ih =>
      rw [dropRepeats]
      split
      · exact (ih p).cons q
      · exact (ih q).cons_cons q

theorem trimEnd_sublist (tol : α) (p : Vec2 α) (poly : Polygon α) :
    (trimEnd tol p poly).Sublist poly := by
  have hreverse := (List.dropWhile_sublist (l := poly.reverse)
    fun q => !decide (tol * tol < p.distSq q)).reverse
  rwa [List.reverse_reverse] at hreverse

/-- Merging only drops vertices. -/
theorem merge_sublist (tol : α) (poly : Polygon α) : (merge tol poly).Sublist poly := by
  cases poly with
  | nil => exact List.Sublist.slnil
  | cons p rest =>
      exact ((trimEnd_sublist tol p _).trans (dropRepeats_sublist tol p rest)).cons_cons p

/-- A half-plane leaves at most four corners of a triangle: a side contributes its end if that lies
inside and the crossing if its ends differ, so three sides that all differ are ruled out. -/
theorem length_clip_triangle_le (tol : α) (h : HalfPlane α) (a b c : Vec2 α) :
    (clip tol h [a, b, c]).length ≤ 4 := by
  have hraw : ((steps [a, b, c]).flatMap fun step => clipStep h step.1 step.2).length ≤ 4 := by
    simp only [steps, List.getLast?_cons_cons, List.getLast?_singleton, List.zip_cons_cons,
      List.zip_nil_right, List.flatMap_cons, List.flatMap_nil, List.length_append, List.length_nil]
    cases ha : h.contains a <;> cases hb : h.contains b <;> cases hc : h.contains c <;>
      simp [clipStep, ha, hb, hc]
  exact (merge_sublist tol _).length_le.trans hraw

theorem length_triangulate_le (minArea : α) (poly : Polygon α) :
    (triangulate minArea poly).length ≤ poly.length - 2 := by
  cases poly with
  | nil => simp [triangulate]
  | cons p rest =>
      refine (List.length_filter_le _ _).trans ?_
      simp only [List.length_zipWith, List.length_tail, List.length_cons]
      omega

end Polygon

namespace ScreenTriangle

theorem ofFragment?_eq_some {f : Fragment α} {t : ScreenTriangle α}
    (ht : ofFragment? f = some t) :
    f.kind = .triangle ∧ t.fragment = f ∧ t.origin = f.vertices.first.screen ∧
      t.edge1 = f.vertices.second.screen - f.vertices.first.screen ∧
      t.edge2 = f.vertices.third.screen - f.vertices.first.screen ∧
      t.inverse = 1 / t.edge1.cross t.edge2 ∧
      ¬ Scalar.abs (t.edge1.cross t.edge2) ≤ Scalar.epsilon := by
  unfold ofFragment? at ht
  split at ht
  · rename_i hkind
    simp only at ht
    split at ht
    · cases ht
    · rename_i hden
      cases ht
      refine ⟨hkind, rfl, rfl, rfl, rfl, rfl, ?_⟩
      intro hle
      exact hden (by simp [hle])
  · cases ht

theorem fragment_of_ofFragment? {f : Fragment α} {t : ScreenTriangle α}
    (ht : ofFragment? f = some t) : t.fragment = f :=
  (ofFragment?_eq_some ht).2.1

theorem kind_of_ofFragment? {f : Fragment α} {t : ScreenTriangle α}
    (ht : ofFragment? f = some t) : f.kind = .triangle :=
  (ofFragment?_eq_some ht).1

/-- The footprint has three corners. -/
theorem exists_footprint_eq (t : ScreenTriangle α) : ∃ a b c, t.footprint = [a, b, c] := by
  unfold footprint
  simp only
  split <;> exact ⟨_, _, _, rfl⟩

theorem vertexAt_screen (t : ScreenTriangle α) (q : Vec2 α) : (t.vertexAt q).screen = q := by
  unfold vertexAt
  simp only
  split <;> rfl

/-- Below a limit the count of cuts does not saturate. -/
theorem toNat_nextSplit {count limit : UInt32} (hlt : count < limit) :
    (nextSplit count).toNat = count.toNat + 1 := by
  have hcount : count.toNat < limit.toNat := UInt32.lt_iff_toNat_lt.mp hlt
  have hlimit : limit.toNat < 2 ^ 32 := limit.toNat_lt
  have hne : count ≠ 0xffffffff := by
    rintro rfl
    have hmax : (0xffffffff : UInt32).toNat = 2 ^ 32 - 1 := rfl
    omega
  rw [nextSplit, if_neg hne, UInt32.toNat_add, UInt32.toNat_one, Nat.mod_eq_of_lt (by omega)]

end ScreenTriangle

namespace PieceOver

variable {P Q : ScreenTriangle α → Vec2 α → Prop} {f x : Fragment α}

theorem imp (hx : PieceOver P f x)
    (h : ∀ t q, ScreenTriangle.ofFragment? f = some t → P t q → Q t q) : PieceOver Q f x := by
  obtain ⟨t, corners, ht, hcorners, rfl⟩ := hx
  exact ⟨t, corners, ht, fun q hq => h t q ht (hcorners q hq), rfl⟩

theorem cutOut (hx : PieceOver P f x) : CutOut f x :=
  hx.imp fun _ _ _ _ => trivial

/-- Whatever its corners, a piece takes everything else from its parent and is cut once more. -/
theorem cutOnce {limit : UInt32} (hx : PieceOver P f x) (hlimit : f.splitCount < limit) :
    CutOnce limit f x := by
  have hpiece := hx.cutOut
  obtain ⟨t, corners, ht, -, rfl⟩ := hx
  obtain ⟨hkind, rfl, -⟩ := ScreenTriangle.ofFragment?_eq_some ht
  have hnext := ScreenTriangle.toNat_nextSplit hlimit
  refine ⟨⟨hkind, hkind, rfl, rfl, rfl, rfl, rfl, rfl, ?_, ?_⟩, hpiece, hnext⟩
  · rw [UInt32.lt_iff_toNat_lt, ScreenTriangle.piece, hnext]
    exact Nat.lt_succ_self _
  · rw [UInt32.le_iff_toNat_le, ScreenTriangle.piece, hnext]
    exact UInt32.lt_iff_toNat_lt.mp hlimit

end PieceOver

theorem ScreenTriangle.cutOut_piece {f : Fragment α} {t : ScreenTriangle α}
    (ht : ofFragment? f = some t) (corners : Triple (Vec2 α)) : CutOut f (t.piece corners) :=
  ⟨t, corners, ht, fun _ _ => trivial, rfl⟩

namespace Overlap

def cutTriangles (rule : SplitRule α) (cut : HalfPlane α) (t : ScreenTriangle α) :
    List (Triple (Vec2 α)) :=
  [t.footprint.clip rule.mergeDistance cut, t.footprint.clip rule.mergeDistance cut.flip].flatMap
    (Polygon.triangulate rule.areaTolerance)

/-- Each side of a cut triangle has four corners at most, so it gives two triangles. -/
theorem length_cutTriangles_le (rule : SplitRule α) (cut : HalfPlane α) (t : ScreenTriangle α) :
    (cutTriangles rule cut t).length ≤ 4 := by
  obtain ⟨a, b, c, hfootprint⟩ := t.exists_footprint_eq
  have hside : ∀ h : HalfPlane α,
      (Polygon.triangulate rule.areaTolerance (t.footprint.clip rule.mergeDistance h)).length
        ≤ 2 := by
    intro h
    rw [hfootprint]
    have hcorners := Polygon.length_clip_triangle_le rule.mergeDistance h a b c
    exact (Polygon.length_triangulate_le _ _).trans (by omega)
  have hcut := hside cut
  have hflip := hside cut.flip
  simp only [cutTriangles, List.flatMap_cons, List.flatMap_nil, List.append_nil,
    List.length_append]
  omega

/-- A triangle is either left whole or replaced by two pieces or more, one for each triangle of its
sides. -/
theorem cutAlong_cases (rule : SplitRule α) (cut : HalfPlane α) (t : ScreenTriangle α) :
    ((cutTriangles rule cut t).length ≤ 1 ∧ cutAlong rule cut t = Pieces.whole t.fragment) ∨
      (1 < (cutAlong rule cut t).count ∧
        (cutAlong rule cut t).toList = (cutTriangles rule cut t).map t.piece) := by
  have hdef := cutAlong.eq_1 rule cut t
  simp only [← cutTriangles.eq_1] at hdef
  rcases htriangles : cutTriangles rule cut t with _ | ⟨first, _ | ⟨second, rest⟩⟩
  all_goals rw [htriangles] at hdef
  · exact Or.inl ⟨by simp, hdef⟩
  · exact Or.inl ⟨by simp, hdef⟩
  · rw [hdef]
    refine Or.inr ⟨?_, rfl⟩
    simp [Pieces.count]

/-- Two fragments may be cut by each other: they are not of one source and both are below the limit
on cuts. -/
structure Eligible (rule : SplitRule α) (f g : Fragment α) : Prop where
  source : ¬ (f.source.isSome ∧ f.source = g.source)
  first : f.splitCount < rule.maxDepth
  second : g.splitCount < rule.maxDepth

/-- The tests that two fragments pass before they overlap, and what their overlap is. -/
theorem ofFragments?_eq_some_iff {rule : SplitRule α} {f g : Fragment α} {o : Overlap α} :
    ofFragments? rule f g = some o ↔
      Eligible rule f g ∧ ScreenTriangle.ofFragment? f = some o.first ∧
        ScreenTriangle.ofFragment? g = some o.second ∧
        (f.bounds.intersect? g.bounds).isSome ∧
        o.polygon = Polygon.intersect rule.mergeDistance o.first.footprint o.second.footprint ∧
        ¬ o.polygon.area ≤ rule.areaTolerance ∧
        o.cut = crossing? rule.depthTolerance (o.first.depthPlane - o.second.depthPlane)
          o.polygon := by
  constructor
  · intro ho
    unfold ofFragments? at ho
    split at ho
    · cases ho
    rename_i hsource
    split at ho
    · cases ho
    rename_i hdepth
    simp only [not_or, UInt32.not_le] at hdepth
    simp only [bind, Option.bind_eq_some_iff] at ho
    obtain ⟨t, ht, u, hu, r, hr, ho⟩ := ho
    split at ho
    · cases ho
    rename_i harea
    cases ho
    exact ⟨⟨hsource, hdepth.1, hdepth.2⟩, ht, hu, by simp [hr], rfl, harea, rfl⟩
  · rintro ⟨⟨hsource, hf, hg⟩, ht, hu, hbounds, hpolygon, harea, hcut⟩
    obtain ⟨r, hr⟩ := Option.isSome_iff_exists.mp hbounds
    have hdepth : ¬ (rule.maxDepth ≤ f.splitCount ∨ rule.maxDepth ≤ g.splitCount) := by
      simp only [not_or, UInt32.not_le]
      exact ⟨hf, hg⟩
    obtain ⟨t, u, polygon, cut⟩ := o
    dsimp only at ht hu hpolygon harea hcut
    subst hpolygon hcut
    rw [ofFragments?, if_neg hsource, if_neg hdepth]
    simp [ht, hu, hr, harea]

/-- A pair is cut if its overlap has a crossing and its depth ranges interleave. -/
theorem cutPair?_eq_some_iff {rule : SplitRule α} {f g : Fragment α} {p q : Pieces α} :
    cutPair? rule f g = some (p, q) ↔
      ∃ o cut, ofFragments? rule f g = some o ∧ o.cut = some cut ∧
        depthsInterleave rule f g = true ∧ p = cutAlong rule cut o.first ∧
        q = cutAlong rule cut o.second := by
  constructor
  · intro hpair
    unfold cutPair? at hpair
    simp only [bind, Option.bind_eq_some_iff] at hpair
    obtain ⟨o, ho, cut, hcut, hpair⟩ := hpair
    split at hpair
    · rename_i hinterleave
      cases hpair
      exact ⟨o, cut, ho, hcut, hinterleave, rfl, rfl⟩
    · cases hpair
  · rintro ⟨o, cut, ho, hcut, hinterleave, rfl, rfl⟩
    simp [cutPair?, ho, hcut, hinterleave]

theorem cutAlong_comeFrom {rule : SplitRule α} {f : Fragment α} {t : ScreenTriangle α}
    (cut : HalfPlane α) (ht : ScreenTriangle.ofFragment? f = some t)
    (hlimit : f.splitCount < rule.maxDepth) :
    (cutAlong rule cut t).ComeFrom rule.maxDepth f := by
  obtain ⟨-, hwhole⟩ | ⟨hseveral, hpieces⟩ := cutAlong_cases rule cut t
  · rw [hwhole, ScreenTriangle.fragment_of_ofFragment? ht]
    exact Pieces.comeFrom_whole rule.maxDepth f
  · refine ⟨?_, Or.inr ⟨hseveral, ?_⟩⟩
    · rw [← Pieces.length_toList, hpieces, List.length_map]
      exact length_cutTriangles_le rule cut t
    · intro x hx
      rw [hpieces, List.mem_map] at hx
      obtain ⟨corners, -, rfl⟩ := hx
      exact ((ScreenTriangle.cutOut_piece ht corners).cutOnce hlimit).toCutFrom

/-- Both results of a cut consist of at most four pieces of their own parent. -/
theorem cutPair?_comeFrom {rule : SplitRule α} {f g : Fragment α} {p q : Pieces α}
    (hpair : cutPair? rule f g = some (p, q)) :
    p.ComeFrom rule.maxDepth f ∧ q.ComeFrom rule.maxDepth g := by
  obtain ⟨o, cut, ho, -, -, rfl, rfl⟩ := cutPair?_eq_some_iff.mp hpair
  obtain ⟨heligible, hf, hg, -⟩ := ofFragments?_eq_some_iff.mp ho
  exact ⟨cutAlong_comeFrom cut hf heligible.first, cutAlong_comeFrom cut hg heligible.second⟩

theorem splitPair_comeFrom (rule : SplitRule α) (f g : Fragment α) :
    (splitPair rule f g).1.ComeFrom rule.maxDepth f ∧
      (splitPair rule f g).2.ComeFrom rule.maxDepth g := by
  unfold splitPair
  cases hpair : cutPair? rule f g with
  | none => exact ⟨Pieces.comeFrom_whole _ f, Pieces.comeFrom_whole _ g⟩
  | some pieces => exact cutPair?_comeFrom hpair

/-! ### Partitions in place -/

/-- The fan over the overlap, or over its two parts when it is cut. -/
def sharedFan (rule : SplitRule α) (o : Overlap α) : List (Triple (Vec2 α)) :=
  (sharedParts rule o).flatMap (Polygon.triangulate rule.areaTolerance)

def outerFan (rule : SplitRule α) (t u : ScreenTriangle α) : List (Triple (Vec2 α)) :=
  (Polygon.subtract rule.mergeDistance rule.areaTolerance t.footprint u.footprint).flatMap
    (Polygon.triangulate rule.areaTolerance)

theorem piecesOver_eq_map (rule : SplitRule α) (o : Overlap α) (t u : ScreenTriangle α) :
    piecesOver rule (sharedParts rule o) t u =
      (sharedFan rule o ++ outerFan rule t u).map t.piece := by
  rw [piecesOver, List.flatMap_append]
  rfl

/-- A partition is made of the pieces over the shared parts and over what the other triangle leaves.
-/
theorem toList_of_partition? {rule : SplitRule α} {o : Overlap α} {p q : Pieces α}
    (hpartition : partition? rule o = some (p, q)) :
    p.toList = piecesOver rule (sharedParts rule o) o.first o.second ∧
      q.toList = piecesOver rule (sharedParts rule o) o.second o.first := by
  unfold partition? at hpartition
  simp only at hpartition
  split at hpartition
  · rename_i first rest first' rest' hfirst hsecond
    split at hpartition
    · cases hpartition
    · cases hpartition
      exact ⟨hfirst.symm, hsecond.symm⟩
  · cases hpartition

theorem partitionSlots?_eq_some {rule : SplitRule α} {buffer : Array (Fragment α)} {i j : Nat}
    {p q : Pieces α} (hslots : partitionSlots? rule buffer i j = some (p, q)) :
    ∃ f g o, buffer[i]? = some f ∧ buffer[j]? = some g ∧ ofFragments? rule f g = some o ∧
      partition? rule o = some (p, q) := by
  unfold partitionSlots? at hslots
  split at hslots
  · cases hslots
  · simp only [bind, Option.bind_eq_some_iff] at hslots
    obtain ⟨f, hf, g, hg, o, ho, hpartition⟩ := hslots
    exact ⟨f, g, o, hf, hg, ho, hpartition⟩

/-- A call changes nothing, or it splits two different slots. -/
theorem splitInPlace_eq_or (rule : SplitRule α) (buffer : Array (Fragment α)) (i j : Nat) :
    splitInPlace rule buffer i j = ((1, 1), buffer) ∨
      ∃ f g o p q, i ≠ j ∧ buffer[i]? = some f ∧ buffer[j]? = some g ∧
        ofFragments? rule f g = some o ∧ partition? rule o = some (p, q) ∧
        splitInPlace rule buffer i j = ((p.count, q.count),
          replaceSlot (replaceSlot buffer i p) j q ++ p.rest ++ q.rest) := by
  unfold splitInPlace
  split
  · exact Or.inl rfl
  · rename_i p q hslots
    have hij : i ≠ j := by
      rintro rfl
      simp [partitionSlots?] at hslots
    obtain ⟨f, g, o, hf, hg, ho, hpartition⟩ := partitionSlots?_eq_some hslots
    exact Or.inr ⟨f, g, o, p, q, hij, hf, hg, ho, hpartition, rfl⟩

section Slots

omit [Scalar α]

variable {buffer : Array (Fragment α)} {i k : Nat} {f : Fragment α}

theorem size_replaceSlot (buffer : Array (Fragment α)) (i : Nat) (p : Pieces α) :
    (replaceSlot buffer i p).size = buffer.size := by
  unfold replaceSlot
  split
  · rfl
  · exact Array.size_setIfInBounds

theorem getElem?_replaceSlot_of_ne (hne : i ≠ k) (p : Pieces α) :
    (replaceSlot buffer i p)[k]? = buffer[k]? := by
  unfold replaceSlot
  split
  · rfl
  · exact Array.getElem?_setIfInBounds_ne hne

theorem getElem?_replaceSlot_self (hf : buffer[i]? = some f) (p : Pieces α) :
    (replaceSlot buffer i p)[i]? = some (if p.rest.isEmpty then f else p.first) := by
  unfold replaceSlot
  split
  · exact hf
  · obtain ⟨hi, -⟩ := Array.getElem?_eq_some_iff.mp hf
    exact Array.getElem?_setIfInBounds_self_of_lt hi

theorem getElem?_replaceSlots {j : Nat} {g : Fragment α} (hij : i ≠ j) (hf : buffer[i]? = some f)
    (hg : buffer[j]? = some g) (p q : Pieces α) :
    (replaceSlot (replaceSlot buffer i p) j q)[i]? =
        some (if p.rest.isEmpty then f else p.first) ∧
      (replaceSlot (replaceSlot buffer i p) j q)[j]? =
        some (if q.rest.isEmpty then g else q.first) := by
  constructor
  · rw [getElem?_replaceSlot_of_ne hij.symm]
    exact getElem?_replaceSlot_self hf p
  · apply getElem?_replaceSlot_self
    rw [getElem?_replaceSlot_of_ne hij, hg]

end Slots

omit [Scalar α] in
theorem replaceSlot_cases {buffer : Array (Fragment α)} {i k : Nat} {p : Pieces α}
    {x : Fragment α} (hx : (replaceSlot buffer i p)[k]? = some x) :
    buffer[k]? = some x ∨ x ∈ p.toList := by
  unfold replaceSlot at hx
  split at hx
  · exact Or.inl hx
  · rw [Array.getElem?_setIfInBounds] at hx
    split at hx
    · split at hx
      · cases hx
        exact Or.inr List.mem_cons_self
      · cases hx
    · exact Or.inl hx

/-- A slot after a partition in place holds what it held, or a piece of one of the two slots. -/
theorem splitInPlace_cases {rule : SplitRule α} {buffer : Array (Fragment α)} {i j k : Nat}
    {x : Fragment α} (hx : (splitInPlace rule buffer i j).2[k]? = some x) :
    buffer[k]? = some x ∨ ∃ p q, partitionSlots? rule buffer i j = some (p, q) ∧
      (x ∈ p.toList ∨ x ∈ q.toList) := by
  unfold splitInPlace at hx
  split at hx
  · exact Or.inl hx
  · rename_i p q hslots
    simp only at hx
    rw [← Array.getElem?_toList, Array.toList_appendList, Array.toList_appendList,
      List.append_assoc, List.getElem?_append] at hx
    split at hx
    · rw [Array.getElem?_toList] at hx
      obtain hx | hx := replaceSlot_cases hx
      · obtain hx | hx := replaceSlot_cases hx
        · exact Or.inl hx
        · exact Or.inr ⟨p, q, hslots, Or.inl hx⟩
      · exact Or.inr ⟨p, q, hslots, Or.inr hx⟩
    · have hrest : x ∈ p.rest ++ q.rest := List.mem_of_getElem? hx
      refine Or.inr ⟨p, q, hslots, ?_⟩
      obtain hrest | hrest := List.mem_append.mp hrest
      · exact Or.inl (List.mem_cons_of_mem p.first hrest)
      · exact Or.inr (List.mem_cons_of_mem q.first hrest)

/-- The answers to some calls in turn, and the buffer that they leave. -/
def splitCalls (rule : SplitRule α) (buffer : Array (Fragment α)) :
    List (Nat × Nat) → List (Nat × Nat) × Array (Fragment α)
  | [] => ([], buffer)
  | call :: calls =>
    let (answer, next) := splitInPlace rule buffer call.1 call.2
    let (answers, last) := splitCalls rule next calls
    (answer :: answers, last)

theorem splitCalls_cons (rule : SplitRule α) (buffer : Array (Fragment α)) (call : Nat × Nat)
    (calls : List (Nat × Nat)) :
    splitCalls rule buffer (call :: calls) =
      ((splitInPlace rule buffer call.1 call.2).1 ::
          (splitCalls rule (splitInPlace rule buffer call.1 call.2).2 calls).1,
        (splitCalls rule (splitInPlace rule buffer call.1 call.2).2 calls).2) :=
  rfl

/-- What every call preserves, any number of calls does. -/
theorem splitCalls_invariant {rule : SplitRule α} {I : Array (Fragment α) → Prop}
    (hstep : ∀ buffer i j, I buffer → I (splitInPlace rule buffer i j).2)
    {buffer : Array (Fragment α)} (hbuffer : I buffer) (calls : List (Nat × Nat)) :
    I (splitCalls rule buffer calls).2 := by
  induction calls generalizing buffer with
  | nil => exact hbuffer
  | cons call calls ih => exact ih (hstep buffer call.1 call.2 hbuffer)

end Overlap

end PainterScene
