import PainterScene.Canvas
import PainterScene.Proofs.Generation
import PainterScene.Proofs.Lineage
import PainterScene.Proofs.PaintOrder

/-!
# Painting before and after overlaps are resolved

A canvas counts triangles, lines and markers, and writes the labels in the order of painting.
Resolving the overlaps of a list cuts triangles and appends pieces, which are triangles; whatever
else the list holds stays in its slot with its key. Two orders of painting that agree on these slots
list them alike, since the order leaves no ties between positions. So the canvas of the resolved
list differs in the number of triangles alone.
-/

namespace PainterScene

variable {α : Type}

namespace Fragment

def isPlainMarker (f : Fragment α) : Bool :=
  f.kind = .marker && f.label?.isNone

/-- Whether resolving overlaps leaves the fragment alone. -/
def isSteady (f : Fragment α) : Bool :=
  f.kind ≠ .triangle

end Fragment

variable [Stored α]

/-! ### What one fragment adds to a canvas -/

namespace Scene

def labelSet? (scene : Scene α) (id : NodeId) : Option (LabelSet α) :=
  match scene.node? id with
  | some (.labels labels) => some labels
  | _ => none

/-- The text that a fragment leaves on a canvas, if it is a label and its source a set of labels. -/
def written? (scene : Scene α) (camera : Camera α) (f : Fragment α) :
    Option String := do
  let (index, anchor) ← f.label?
  let labels ← f.source.bind scene.labelSet?
  return labels.text index f.vertices.first.screen (camera.project (anchor.extend 1)).screen

end Scene

namespace Canvas

variable {scene : Scene α} {camera : Camera α}

structure Tallies (scene : Scene α) (camera : Camera α) (fragments : List (Fragment α))
    (before after : Canvas) : Prop where
  triangles : after.triangles = before.triangles + fragments.countP fun f => f.kind = .triangle
  lines : after.lines = before.lines + fragments.countP fun f => f.kind = .segment
  markers : after.markers = before.markers + fragments.countP Fragment.isPlainMarker
  labels : after.labels.toList = before.labels.toList ++ fragments.filterMap (scene.written? camera)

theorem labelText?_eq (scene : Scene α) (camera : Camera α) {f : Fragment α}
    {index : Nat} {anchor : Vec3 α} (hkind : f.kind = .marker)
    (hpayload : f.payload = some (.label index anchor)) :
    scene.labelText? f f.vertices.first.screen (camera.project (anchor.extend 1)).screen =
      scene.written? camera f := by
  have hlabel : f.label? = some (index, anchor) := by
    simp [Fragment.label?, hkind, hpayload]
  simp only [Scene.labelText?, Scene.written?, hlabel, hpayload, bind, Option.bind_some]
  cases f.source with
  | none => rfl
  | some id =>
      simp only [Option.bind_some, Scene.labelSet?]
      cases scene.node? id with
      | none => rfl
      | some node => cases node <;> rfl

theorem written?_of_ne_marker {f : Fragment α} (hkind : f.kind ≠ .marker) :
    scene.written? camera f = none := by
  have hlabel : f.label? = none := by
    unfold Fragment.label?
    split
    · rename_i hmarker _
      exact absurd hmarker hkind
    · rfl
  simp [Scene.written?, hlabel]

theorem tallies_draw_marker (canvas : Canvas) {f : Fragment α} (hkind : f.kind = .marker) :
    Tallies scene camera [f] canvas (canvas.draw scene camera f) := by
  cases hlabel : f.label? with
  | none =>
      have hdraw : canvas.draw scene camera f = { canvas with markers := canvas.markers + 1 } := by
        unfold draw
        split <;> simp_all [Fragment.label?]
      rw [hdraw]
      constructor <;> simp [hkind, hlabel, Scene.written?, Fragment.isPlainMarker]
  | some label =>
      obtain ⟨index, anchor⟩ := label
      have hpayload : f.payload = some (.label index anchor) := by
        unfold Fragment.label? at hlabel
        split at hlabel
        · cases hlabel
          assumption
        · cases hlabel
      have htext := labelText?_eq scene camera hkind hpayload
      cases hwritten : scene.written? camera f with
      | none =>
          have hdraw : canvas.draw scene camera f = canvas := by
            simp [draw, hkind, hpayload, drawLabel, htext, hwritten]
          rw [hdraw]
          constructor <;> simp [hkind, hlabel, hwritten, Fragment.isPlainMarker]
      | some text =>
          have hdraw : canvas.draw scene camera f =
              { canvas with labels := canvas.labels.push text } := by
            simp [draw, hkind, hpayload, drawLabel, htext, hwritten]
          rw [hdraw]
          constructor <;> simp [hkind, hlabel, hwritten, Fragment.isPlainMarker]

theorem tallies_draw (canvas : Canvas) (f : Fragment α) :
    Tallies scene camera [f] canvas (canvas.draw scene camera f) := by
  have hwritten : f.kind ≠ .marker → scene.written? camera f = none := written?_of_ne_marker
  cases hkind : f.kind with
  | triangle =>
      have hdraw : canvas.draw scene camera f =
          { canvas with triangles := canvas.triangles + 1 } := by
        simp [draw, hkind]
      rw [hdraw]
      constructor <;> simp [hkind, hwritten, Fragment.isPlainMarker]
  | segment =>
      have hdraw : canvas.draw scene camera f = { canvas with lines := canvas.lines + 1 } := by
        simp [draw, hkind]
      rw [hdraw]
      constructor <;> simp [hkind, hwritten, Fragment.isPlainMarker]
  | empty =>
      have hdraw : canvas.draw scene camera f = canvas := by
        simp [draw, hkind]
      rw [hdraw]
      constructor <;> simp [hkind, hwritten, Fragment.isPlainMarker]
  | marker => exact tallies_draw_marker canvas hkind

theorem Tallies.trans {fragments fragments' : List (Fragment α)} {first second third : Canvas}
    (hfirst : Tallies scene camera fragments first second)
    (hsecond : Tallies scene camera fragments' second third) :
    Tallies scene camera (fragments ++ fragments') first third where
  triangles := by
    rw [hsecond.triangles, hfirst.triangles, List.countP_append, Nat.add_assoc]
  lines := by
    rw [hsecond.lines, hfirst.lines, List.countP_append, Nat.add_assoc]
  markers := by
    rw [hsecond.markers, hfirst.markers, List.countP_append, Nat.add_assoc]
  labels := by
    rw [hsecond.labels, hfirst.labels, List.filterMap_append, List.append_assoc]

/-- Painting adds up over the fragments. -/
theorem tallies_foldl_draw (fragments : List (Fragment α)) (canvas : Canvas) :
    Tallies scene camera fragments canvas (fragments.foldl (draw scene camera) canvas) := by
  induction fragments generalizing canvas with
  | nil => constructor <;> simp
  | cons f fragments ih => exact (tallies_draw canvas f).trans (ih (canvas.draw scene camera f))

omit [Stored α] in
theorem countP_filter_isSteady {p : Fragment α → Bool}
    (hp : ∀ f, p f = true → f.isSteady = true) (fragments : List (Fragment α)) :
    (fragments.filter Fragment.isSteady).countP p = fragments.countP p := by
  rw [List.countP_filter]
  apply List.countP_congr
  intro f _
  simpa using hp f

theorem filterMap_filter_isSteady (fragments : List (Fragment α)) :
    (fragments.filter Fragment.isSteady).filterMap (scene.written? camera) =
      fragments.filterMap (scene.written? camera) := by
  rw [List.filterMap_filter]
  apply List.filterMap_congr
  intro f _
  split
  · rfl
  · rename_i hcut
    have htriangle : f.kind = .triangle := by simpa [Fragment.isSteady] using hcut
    exact (written?_of_ne_marker (by simp [htriangle])).symm

omit [Stored α] in
theorem length_eq_triangles_add (fragments : List (Fragment α)) :
    fragments.length = (fragments.countP fun f => f.kind = .triangle) +
      (fragments.filter Fragment.isSteady).length := by
  rw [fragments.length_eq_countP_add_countP fun f => f.kind = .triangle,
    ← List.countP_eq_length_filter]
  simp only [decide_eq_true_eq]
  rfl

/-- Two lists that differ by triangles alone leave the same canvas but for the triangles counted. -/
theorem Tallies.compare {fragments fragments' : List (Fragment α)} {added : Nat}
    {canvas before after : Canvas} (hbefore : Tallies scene camera fragments canvas before)
    (hafter : Tallies scene camera fragments' canvas after)
    (hsteady : fragments'.filter Fragment.isSteady = fragments.filter Fragment.isSteady)
    (hlength : fragments'.length = fragments.length + added) :
    after.lines = before.lines ∧ after.markers = before.markers ∧ after.labels = before.labels ∧
      after.triangles = before.triangles + added := by
  have hcount : ∀ p : Fragment α → Bool, (∀ f, p f = true → f.isSteady = true) →
      fragments'.countP p = fragments.countP p := by
    intro p hp
    rw [← countP_filter_isSteady hp fragments', hsteady, countP_filter_isSteady hp fragments]
  refine ⟨?_, ?_, ?_, ?_⟩
  · rw [hafter.lines, hbefore.lines, hcount]
    intro f hf
    simp [Fragment.isSteady, of_decide_eq_true hf]
  · rw [hafter.markers, hbefore.markers, hcount]
    intro f hf
    have hkind : f.kind = .marker := of_decide_eq_true (Bool.and_eq_true_iff.mp hf).1
    simp [Fragment.isSteady, hkind]
  · apply Array.toList_inj.mp
    rw [hafter.labels, hbefore.labels, ← filterMap_filter_isSteady fragments', hsteady,
      filterMap_filter_isSteady]
  · have hold := length_eq_triangles_add fragments
    have hnew := length_eq_triangles_add fragments'
    rw [hafter.triangles, hbefore.triangles]
    rw [hsteady] at hnew
    omega

end Canvas

/-! ### The order of painting among what is not cut -/

namespace FragmentList

def steadyPositions (list : FragmentList α) : List Nat :=
  list.positions.filter fun i => list.fragments[i]?.any Fragment.isSteady

variable {list : FragmentList α}

theorem mem_steadyPositions {i : Nat} :
    i ∈ list.steadyPositions ↔ ∃ f, list.fragments[i]? = some f ∧ f.isSteady = true := by
  simp only [steadyPositions, List.mem_filter, list.perm_positions.mem_iff, List.mem_range,
    Option.any_eq_true]
  constructor
  · exact fun hi => hi.2
  · rintro ⟨f, hf, hsteady⟩
    exact ⟨(Array.getElem?_eq_some_iff.mp hf).1, f, hf, hsteady⟩

theorem nodup_steadyPositions (list : FragmentList α) : list.steadyPositions.Nodup :=
  (list.perm_positions.nodup_iff.mpr List.nodup_range).filter _

theorem PaintedBefore.asymm {i j : Nat} (hij : list.PaintedBefore i j) :
    ¬ list.PaintedBefore j i := by
  rintro ⟨g', f', hg', hf', hji⟩
  obtain ⟨f, g, hf, hg, hij⟩ := hij
  obtain rfl : f = f' := Option.some.inj (hf.symm.trans hf')
  obtain rfl : g = g' := Option.some.inj (hg.symm.trans hg')
  simp only [UInt32.lt_iff_toNat_lt, ← UInt32.toNat_inj] at hij hji
  omega

theorem inPaintOrder_eq (hfresh : list.Fresh) :
    list.inPaintOrder.1 = list.positions.filterMap fun i => list.fragments[i]? := by
  simp only [inPaintOrder, hfresh.sorted_refresh, (alike_refresh list).fragments_eq]

theorem filter_inPaintOrder (hfresh : list.Fresh) :
    list.inPaintOrder.1.filter Fragment.isSteady =
      list.steadyPositions.filterMap fun i => list.fragments[i]? := by
  rw [inPaintOrder_eq hfresh, steadyPositions, List.filter_filterMap, List.filterMap_filter]
  congr 1
  funext i
  cases list.fragments[i]? with
  | none => rfl
  | some f => rfl

/-- Every fragment is painted once. -/
theorem perm_inPaintOrder (hfresh : list.Fresh) :
    list.inPaintOrder.1.Perm list.fragments.toList := by
  have hall : ((List.range list.size).filterMap fun i => list.fragments[i]?) =
      list.fragments.toList := by
    have hmap : ((List.range list.size).map fun i => list.fragments[i]?) =
        list.fragments.toList.map some := by
      apply List.ext_getElem
      · simp [size]
      · intro i hi hi'
        simp
    calc (List.range list.size).filterMap (fun i => list.fragments[i]?)
        = ((List.range list.size).map fun i => list.fragments[i]?).filterMap id := by
          rw [List.filterMap_map]
          rfl
      _ = list.fragments.toList := by
          rw [hmap]
          simp
  rw [inPaintOrder_eq hfresh, ← hall]
  exact list.perm_positions.filterMap _

/-- Resolving leaves everything but triangles where it is, and appends triangles alone. -/
theorem getElem?_resolve_iff {list : FragmentList α} {rule : SplitRule α} {i : Nat}
    {f : Fragment α} (hsteady : f.isSteady = true) :
    (list.resolve rule).2.fragments[i]? = some f ↔ list.fragments[i]? = some f := by
  have hkind : f.kind ≠ .triangle := of_decide_eq_true hsteady
  have hrun := Resolution.descended_run rule list.fragments
  constructor
  · intro hf
    by_cases hi : i < list.fragments.size
    · obtain ⟨x, hx, heq | hcut⟩ := hrun.kept i _ (Array.getElem?_eq_getElem hi)
      · rw [Array.getElem?_eq_getElem hi, ← heq]
        exact hx.symm.trans hf
      · obtain rfl : x = f := Option.some.inj (hx.symm.trans hf)
        exact absurd hcut.kind hkind
    · obtain ⟨g, -, hcut⟩ := hrun.appended i f (Nat.le_of_not_lt hi) hf
      exact absurd hcut.kind hkind
  · intro hf
    obtain ⟨x, hx, rfl | hcut⟩ := hrun.kept i f hf
    · exact hx
    · exact absurd hcut.parent hkind

theorem steadyPositions_resolve (list : FragmentList α) (rule : SplitRule α) :
    (list.resolve rule).2.steadyPositions = list.steadyPositions := by
  have hmem : ∀ i, i ∈ (list.resolve rule).2.steadyPositions ↔ i ∈ list.steadyPositions := by
    intro i
    rw [mem_steadyPositions, mem_steadyPositions]
    exact exists_congr fun f => and_congr_left getElem?_resolve_iff
  -- the two orders are compared as orders of the resolved list
  have hbefore : list.steadyPositions.Pairwise (list.resolve rule).2.PaintedBefore := by
    refine (list.pairwise_positions.filter _).imp_of_mem ?_
    rintro i j hi hj ⟨f, g, hf, hg, hkeys⟩
    have hfsteady : f.isSteady = true := by simpa [hf] using (List.mem_filter.mp hi).2
    have hgsteady : g.isSteady = true := by simpa [hg] using (List.mem_filter.mp hj).2
    exact ⟨f, g, (getElem?_resolve_iff hfsteady).mpr hf, (getElem?_resolve_iff hgsteady).mpr hg,
      hkeys⟩
  refine List.Perm.eq_of_pairwise ?_
    ((list.resolve rule).2.pairwise_positions.filter _) hbefore ?_
  · exact fun i j _ _ hij hji => absurd hji hij.asymm
  · exact (List.perm_ext_iff_of_nodup (nodup_steadyPositions _) (nodup_steadyPositions _)).mpr hmem

/-- Resolving overlaps leaves everything but triangles where it is, in the same order of painting.
-/
theorem filter_inPaintOrder_resolve (hfresh : list.Fresh) (rule : SplitRule α) :
    (list.resolve rule).2.inPaintOrder.1.filter Fragment.isSteady =
      list.inPaintOrder.1.filter Fragment.isSteady := by
  rw [filter_inPaintOrder (fresh_of_stale rfl), filter_inPaintOrder hfresh,
    steadyPositions_resolve]
  apply List.filterMap_congr
  intro i hi
  obtain ⟨f, hf, hsteady⟩ := mem_steadyPositions.mp hi
  rw [hf, getElem?_resolve_iff hsteady, hf]

end FragmentList

namespace Canvas

theorem tallies_paint (canvas : Canvas) (scene : Scene α) (camera : Camera α)
    (list : FragmentList α) :
    Tallies scene camera list.inPaintOrder.1 canvas (canvas.paint scene camera list).1 :=
  tallies_foldl_draw list.inPaintOrder.1 canvas

/-- **Resolving overlaps disturbs nothing else that is painted.** Whatever has been done to a list,
painting it resolved counts as many lines and markers and writes the same labels in the same order
as painting it as it is, and counts just as many more triangles as fragments were added. Painting
counts each triangle, each line and each marker that is not a label once, and writes in the order of
painting one text for each label whose source is a set of labels. -/
theorem paint_resolve (requests : List (FragmentList.Request α)) (canvas : Canvas) (scene : Scene α)
    (camera : Camera α) (rule : SplitRule α) :
    let list := ((FragmentList.empty : FragmentList α).run requests).2
    let resolved := list.resolve rule
    let before := (canvas.paint scene camera list).1
    let after := (canvas.paint scene camera resolved.2).1
    after.lines = before.lines ∧ after.markers = before.markers ∧ after.labels = before.labels ∧
      after.triangles = before.triangles + resolved.1.added list.fragments ∧
      before.triangles = canvas.triangles +
        list.fragments.toList.countP (fun f => f.kind = .triangle) ∧
      before.lines = canvas.lines + list.fragments.toList.countP (fun f => f.kind = .segment) ∧
      before.markers = canvas.markers + list.fragments.toList.countP Fragment.isPlainMarker ∧
      ∃ order : List Nat, order.Perm (List.range list.size) ∧ order.Pairwise list.PaintedBefore ∧
        before.labels.toList = canvas.labels.toList ++
          order.filterMap fun i => list.fragments[i]?.bind (scene.written? camera) := by
  intro list resolved before after
  have hfresh : list.Fresh := FragmentList.fresh_empty.run requests
  have hperm := FragmentList.perm_inPaintOrder hfresh
  have hbefore := tallies_paint canvas scene camera list
  have hafter := tallies_paint canvas scene camera resolved.2
  have hlength : resolved.2.inPaintOrder.1.length =
      list.inPaintOrder.1.length + resolved.1.added list.fragments := by
    have hresolved : resolved.2.Fresh := FragmentList.fresh_of_stale rfl
    rw [hperm.length_eq, (FragmentList.perm_inPaintOrder hresolved).length_eq]
    exact FragmentList.size_resolve list rule
  obtain ⟨hlines, hmarkers, hlabels, htriangles⟩ := hbefore.compare hafter
    (FragmentList.filter_inPaintOrder_resolve hfresh rule) hlength
  refine ⟨hlines, hmarkers, hlabels, htriangles, ?_, ?_, ?_, list.positions, list.perm_positions,
    list.pairwise_positions, ?_⟩
  · rw [← hperm.countP_eq]
    exact hbefore.triangles
  · rw [← hperm.countP_eq]
    exact hbefore.lines
  · rw [← hperm.countP_eq]
    exact hbefore.markers
  · rw [← List.filterMap_filterMap, ← FragmentList.inPaintOrder_eq hfresh]
    exact hbefore.labels

end Canvas

end PainterScene
