import Mathlib
import PainterScene.Scene.Emission

/-!
# What a node generates

A node has items in its own coordinates: triangles, segments, markers and labels. Whatever its
shape, each fragment that it generates draws one of its items in the frame, under the node's own
handle and uncut. Each shape reaches this by a loop of its own; the facts about all generated
fragments follow from the four forms. All loops but the one over the surface of a height field test
what they draw once it is placed.
-/

namespace PainterScene

variable {α : Type}

/-- What a node may draw, in its own coordinates. -/
inductive Item (α : Type)
  | triangle (corners : Triple (Vec3 α))
  | segment (start stop : Vec3 α)
  | marker (point : Vec3 α) (size : α)
  /-- A label by its place in the node, its anchor and the second one that gives its direction. -/
  | label (index : Nat) (anchor direction : Vec3 α)
deriving DecidableEq

namespace Item

def kind : Item α → Kind
  | triangle _ => .triangle
  | segment _ _ => .segment
  | marker _ _ | label _ _ _ => .marker

def points : Item α → List (Vec3 α)
  | triangle corners => corners.toList
  | segment start stop => [start, stop]
  | marker point _ => [point]
  | label _ anchor _ => [anchor]

def label? : Item α → Option (Nat × Vec3 α)
  | label index _ direction => some (index, direction)
  | _ => none

end Item

def Fragment.label? (f : Fragment α) : Option (Nat × Vec3 α) :=
  match f.kind, f.payload with
  | .marker, some (.label index anchor) => some (index, anchor)
  | _, _ => none

/-! ### The items of a node -/

def HeightField.cellItems [Scalar α] (m : HeightField α) (i j : Nat) : List (Item α) :=
  [.triangle ⟨m.point i j, m.point (i + 1) j, m.point i (j + 1)⟩,
    .triangle ⟨m.point (i + 1) (j + 1), m.point (i + 1) j, m.point i (j + 1)⟩]

def HeightField.items [Scalar α] (m : HeightField α) : List (Item α) :=
  ((List.range m.columns).flatMap fun j =>
      (List.range (m.rows - 1)).map fun i => .segment (m.point i j) (m.point (i + 1) j)) ++
    ((List.range m.rows).flatMap fun i =>
      (List.range (m.columns - 1)).map fun j => .segment (m.point i j) (m.point i (j + 1))) ++
    (List.range (m.rows - 1)).flatMap fun i =>
      (List.range (m.columns - 1)).flatMap fun j => m.cellItems i j

def CellSurface.cellItems [Scalar α] (m : CellSurface α) (i1 i2 : Nat) : List (Item α) :=
  if m.fine then
    (fineTriangles.map fun t => .triangle (t.map (m.point i1 i2))) ++
      Side.all.flatMap fun side =>
        [.segment (m.point i1 i2 side.spots.first) (m.point i1 i2 side.spots.second),
          .segment (m.point i1 i2 side.spots.second) (m.point i1 i2 side.spots.third)]
  else
    (coarseTriangles.map fun t => .triangle (t.map (m.point i1 i2))) ++
      Side.all.map fun side =>
        .segment (m.point i1 i2 side.spots.first) (m.point i1 i2 side.spots.third)

def Node.items [Scalar α] : Node α → List (Item α)
  | .facet t => [.triangle t.corners]
  | .polyline l => List.zipWith .segment l.points l.points.tail
  | .segments set => set.segments.map fun s => .segment s.1 s.2
  | .heightField m => m.items
  | .cellSurface m => m.cells.flatMap fun cell => m.cellItems cell.1 cell.2
  | .scatter s => s.sizedPoints.map fun p => .marker p.1 p.2
  | .labels l => l.anchorPairs.zipIdx.map fun p => .label p.2 p.1.1 p.1.2
  | .group _ => []

/-! ### Drawing an item -/

variable [Scalar α]

def Mat4.move (m : Mat4 α) (p : Vec3 α) : Vec3 α :=
  (m.apply (p.extend 1)).truncate

/-- The fragments by which node `id` draws an item in a frame, in any style. -/
inductive Frame.Draws (frame : Frame α) (id : NodeId) : Item α → Fragment α → Prop
  | triangle (surface : Option SurfaceStyle) (corners : Triple (Vec3 α)) :
      Draws frame id (.triangle corners) (.ofTriangle id surface (corners.map frame.place))
  | segment (line : Option LineStyle) (start stop : Vec3 α) :
      Draws frame id (.segment start stop)
        (.ofSegment id line (frame.place start) (frame.place stop))
  | marker (scaleEdges : Bool) (point : Vec3 α) (size : α) (line : Option LineStyle)
      (surface : Option SurfaceStyle) :
      Draws frame id (.marker point size)
        { Fragment.ofMarker id (.outline scaleEdges) size (frame.place point) with line, surface }
  | label (index : Nat) (anchor direction : Vec3 α) :
      Draws frame id (.label index anchor direction)
        (.ofMarker id (.label index (frame.outer.move direction)) 1 (frame.place anchor))

variable {frame : Frame α} {id : NodeId} {f : Fragment α} {item : Item α}

namespace Frame.Draws

theorem source_eq (hf : frame.Draws id item f) : f.source = some id := by
  cases hf <;> rfl

theorem splitCount_eq (hf : frame.Draws id item f) : f.splitCount = 0 := by
  cases hf <;> rfl

theorem kind_eq (hf : frame.Draws id item f) : f.kind = item.kind := by
  cases hf <;> rfl

theorem controlPoints_eq (hf : frame.Draws id item f) :
    f.controlPoints = item.points.map frame.place := by
  cases hf <;> rfl

theorem positions_eq (hf : frame.Draws id item f) :
    f.controlPoints.map Vertex.position = item.points.map frame.outer.move := by
  rw [hf.controlPoints_eq, List.map_map]
  rfl

theorem label?_eq (hf : frame.Draws id item f) :
    f.label? = item.label?.map fun label => (label.1, frame.outer.move label.2) := by
  cases hf <;> rfl

end Frame.Draws

/-! ### What can be drawn -/

namespace Fragment

/-- Whether everything that the painter reads is finite: the control points that carry meaning, the
size of a marker outline and the second anchor of a label. -/
def isDrawable (f : Fragment α) : Bool :=
  f.isFinite && match f.payload with
    | none => true
    | some (.outline _) => Scalar.isFinite f.size
    | some (.label _ anchor) => anchor.isFinite

theorem isFinite_ofSegment (id : NodeId) (line : Option LineStyle) (v w : Vertex α) :
    (ofSegment id line v w).isFinite = (v.isFinite && w.isFinite) := by
  simp [isFinite, controlPoints, ofSegment, blank, Kind.pointCount, Triple.toList]

theorem isFinite_ofMarker (id : NodeId) (payload : Payload α) (size : α) (v : Vertex α) :
    (ofMarker id payload size v).isFinite = v.isFinite := by
  simp [isFinite, controlPoints, ofMarker, blank, Kind.pointCount, Triple.toList]

theorem isDrawable_of_isFinite (hpayload : f.payload = none) (hfinite : f.isFinite = true) :
    f.isDrawable = true := by
  rw [isDrawable, hpayload, hfinite]
  rfl

end Fragment

/-! ### Each shape draws its items -/

theorem Facet.exists_item {facet : Facet α} (hf : f ∈ facet.fragments frame id) :
    ∃ item ∈ (Node.facet facet).items, frame.Draws id item f ∧ f.isDrawable = true := by
  unfold fragments at hf
  split at hf
  · cases hf
  · obtain ⟨hmem, hfinite⟩ := List.mem_filter.mp hf
    obtain rfl := List.mem_singleton.mp hmem
    exact ⟨_, List.mem_singleton_self _, .triangle facet.surface facet.corners,
      Fragment.isDrawable_of_isFinite rfl hfinite⟩

theorem Polyline.exists_item {l : Polyline α} (hf : f ∈ l.fragments frame id) :
    ∃ item ∈ (Node.polyline l).items, frame.Draws id item f ∧ f.isDrawable = true := by
  obtain ⟨hmem, hfinite⟩ := List.mem_filter.mp hf
  rw [← List.map_tail, List.zipWith_map, ← List.map_uncurry_zip_eq_zipWith, List.mem_map] at hmem
  obtain ⟨⟨start, stop⟩, hpair, rfl⟩ := hmem
  refine ⟨.segment start stop, ?_, .segment l.line start stop,
    Fragment.isDrawable_of_isFinite rfl hfinite⟩
  rw [Node.items, ← List.map_uncurry_zip_eq_zipWith]
  exact List.mem_map_of_mem hpair

theorem SegmentSet.exists_item {set : SegmentSet α} (hf : f ∈ set.fragments frame id) :
    ∃ item ∈ (Node.segments set).items, frame.Draws id item f ∧ f.isDrawable = true := by
  obtain ⟨hmem, hfinite⟩ := List.mem_filter.mp hf
  obtain ⟨s, hs, rfl⟩ := List.mem_map.mp hmem
  exact ⟨_, List.mem_map_of_mem hs, .segment set.line s.1 s.2,
    Fragment.isDrawable_of_isFinite rfl hfinite⟩

theorem Scatter.exists_item {s : Scatter α} (hf : f ∈ s.fragments frame id) :
    ∃ item ∈ (Node.scatter s).items, frame.Draws id item f ∧ f.isDrawable = true := by
  obtain ⟨hmem, hfinite⟩ := List.mem_filter.mp hf
  obtain ⟨p, hp, rfl⟩ := List.mem_map.mp hmem
  exact ⟨_, List.mem_map_of_mem hp, .marker s.scaleEdges p.1 p.2 s.line s.surface, hfinite⟩

theorem LabelSet.exists_item {l : LabelSet α} (hf : f ∈ l.fragments frame id) :
    ∃ item ∈ (Node.labels l).items, frame.Draws id item f ∧ f.isDrawable = true := by
  obtain ⟨⟨pair, index⟩, hpair, hlabel⟩ := List.mem_filterMap.mp hf
  unfold fragment? at hlabel
  simp only at hlabel
  split at hlabel
  · rename_i hfinite
    cases hlabel
    exact ⟨_, List.mem_map_of_mem hpair, .label index pair.1 pair.2, hfinite⟩
  · cases hlabel

namespace HeightField

theorem exists_item_of_mem_wireframe {m : HeightField α} (hf : f ∈ m.wireframe frame id) :
    ∃ item ∈ m.items, frame.Draws id item f ∧ f.isDrawable = true := by
  unfold wireframe at hf
  split at hf
  · cases hf
  · obtain ⟨hmem, hfinite⟩ := List.mem_filter.mp hf
    obtain hmem | hmem := List.mem_append.mp hmem
    · split at hmem
      · cases hmem
      · simp only [lines1, List.mem_flatMap, List.mem_map] at hmem
        obtain ⟨j, hj, i, hi, rfl⟩ := hmem
        refine ⟨_, ?_, .segment m.line (m.point i j) (m.point (i + 1) j),
          Fragment.isDrawable_of_isFinite rfl hfinite⟩
        apply List.mem_append_left
        apply List.mem_append_left
        exact List.mem_flatMap.mpr ⟨j, hj, List.mem_map_of_mem hi⟩
    · split at hmem
      · cases hmem
      · simp only [lines2, List.mem_flatMap, List.mem_map] at hmem
        obtain ⟨i, hi, j, hj, rfl⟩ := hmem
        refine ⟨_, ?_, .segment m.line (m.point i j) (m.point i (j + 1)),
          Fragment.isDrawable_of_isFinite rfl hfinite⟩
        apply List.mem_append_left
        apply List.mem_append_right
        exact List.mem_flatMap.mpr ⟨i, hi, List.mem_map_of_mem hj⟩

theorem exists_item_of_mem_cellTriangles {m : HeightField α} {i j : Nat}
    (hf : f ∈ m.cellTriangles frame id i j) : ∃ item ∈ m.cellItems i j, frame.Draws id item f := by
  unfold cellTriangles at hf
  split at hf
  · obtain ⟨p, hp, rfl⟩ := List.mem_map.mp hf
    refine ⟨_, ?_, .triangle m.surface ⟨p, m.point (i + 1) j, m.point i (j + 1)⟩⟩
    obtain rfl | rfl := List.mem_pair.mp hp
    · exact List.mem_cons_self
    · exact List.mem_cons_of_mem _ List.mem_cons_self
  · cases hf

theorem exists_item_of_mem_triangles {m : HeightField α} (hf : f ∈ m.triangles frame id) :
    ∃ item ∈ m.items, frame.Draws id item f := by
  unfold triangles at hf
  split at hf
  · cases hf
  · simp only [List.mem_flatMap] at hf
    obtain ⟨i, hi, j, hj, hf⟩ := hf
    obtain ⟨item, hitem, hdraws⟩ := exists_item_of_mem_cellTriangles hf
    refine ⟨item, List.mem_append_right _ ?_, hdraws⟩
    exact List.mem_flatMap.mpr ⟨i, hi, List.mem_flatMap.mpr ⟨j, hj, hitem⟩⟩

theorem fragments_eq_ok_iff {m : HeightField α} {fragments : List (Fragment α)} :
    m.fragments frame id = .ok fragments ↔ m.problem? = none ∧
      fragments = m.wireframe frame id ++ m.triangles frame id := by
  rw [HeightField.fragments]
  cases m.problem? with
  | some problem => simp
  | none => simp [eq_comm]

/-- Every fragment of a height field draws one of its items; only a triangle may fail to be
drawable. -/
theorem exists_item {m : HeightField α} {fragments : List (Fragment α)}
    (hm : m.fragments frame id = .ok fragments) (hf : f ∈ fragments) :
    ∃ item ∈ m.items, frame.Draws id item f ∧
      (f.isDrawable = true ∨
        m.problem? = none ∧ f ∈ m.triangles frame id) := by
  obtain ⟨hcomplete, rfl⟩ := fragments_eq_ok_iff.mp hm
  obtain hf | hf := List.mem_append.mp hf
  · obtain ⟨item, hitem, hdraws, hdrawable⟩ := exists_item_of_mem_wireframe hf
    exact ⟨item, hitem, hdraws, Or.inl hdrawable⟩
  · obtain ⟨item, hitem, hdraws⟩ := exists_item_of_mem_triangles hf
    exact ⟨item, hitem, hdraws, Or.inr ⟨hcomplete, hf⟩⟩

end HeightField

namespace CellSurface

theorem value_patch (m : CellSurface α) (i1 i2 : Nat) (spot : Spot) :
    (m.patch frame i1 i2).value spot = frame.place (m.point i1 i2 spot) := by
  obtain ⟨i, j⟩ := spot
  fin_cases i <;> fin_cases j <;> rfl

theorem exists_item_of_mem_triangles {m : CellSurface α} {i1 i2 : Nat}
    (hf : f ∈ m.triangles id (m.patch frame i1 i2)) :
    ∃ item ∈ m.cellItems i1 i2, frame.Draws id item f ∧ f.isDrawable = true := by
  unfold triangles at hf
  split at hf
  · cases hf
  · obtain ⟨hmem, hfinite⟩ := List.mem_filter.mp hf
    obtain ⟨t, ht, rfl⟩ := List.mem_map.mp hmem
    have hdrawable := Fragment.isDrawable_of_isFinite rfl hfinite
    have hplaced : t.map (m.patch frame i1 i2).value = (t.map (m.point i1 i2)).map frame.place := by
      simp only [Triple.map, value_patch]
    rw [hplaced] at hdrawable ⊢
    refine ⟨_, ?_, .triangle m.surface (t.map (m.point i1 i2)), hdrawable⟩
    by_cases hfine : m.fine
    · rw [if_pos hfine] at ht
      rw [cellItems, if_pos hfine]
      exact List.mem_append_left _ (List.mem_map_of_mem ht)
    · rw [if_neg hfine] at ht
      rw [cellItems, if_neg hfine]
      exact List.mem_append_left _ (List.mem_map_of_mem ht)

theorem exists_item_of_mem_sideLines {m : CellSurface α} {i1 i2 : Nat} {side : Side}
    (hf : f ∈ m.sideLines id (m.patch frame i1 i2) side) :
    ∃ item ∈ m.cellItems i1 i2, frame.Draws id item f ∧ f.isDrawable = true := by
  have hside : side ∈ Side.all := by cases side <;> decide
  unfold sideLines at hf
  obtain ⟨hmem, hfinite⟩ := List.mem_filter.mp hf
  obtain ⟨s, hs, rfl⟩ := List.mem_map.mp hmem
  have hdrawable := Fragment.isDrawable_of_isFinite rfl hfinite
  simp only [Triple.map, value_patch] at hs
  by_cases hfine : m.fine
  · rw [if_pos hfine] at hs
    rw [cellItems, if_pos hfine]
    obtain rfl | rfl := List.mem_pair.mp hs
    · refine ⟨_, List.mem_append_right _ ?_, .segment m.line _ _, hdrawable⟩
      exact List.mem_flatMap.mpr ⟨side, hside, List.mem_cons_self⟩
    · refine ⟨_, List.mem_append_right _ ?_, .segment m.line _ _, hdrawable⟩
      exact List.mem_flatMap.mpr ⟨side, hside, List.mem_cons_of_mem _ List.mem_cons_self⟩
  · rw [if_neg hfine] at hs
    rw [cellItems, if_neg hfine]
    obtain rfl := List.mem_singleton.mp hs
    refine ⟨_, List.mem_append_right _ ?_, .segment m.line _ _, hdrawable⟩
    exact List.mem_map.mpr ⟨side, hside, rfl⟩

/-- A fragment of some cells belongs to the patch or to a side of one of them. -/
theorem mem_cellFragments {m : CellSurface α} {ledger : EdgeLedger} {cells : List (Nat × Nat)}
    (hf : f ∈ m.cellFragments frame id ledger cells) :
    ∃ cell ∈ cells, f ∈ m.triangles id (m.patch frame cell.1 cell.2) ∨
      ∃ side, f ∈ m.sideLines id (m.patch frame cell.1 cell.2) side := by
  fun_induction cellFragments m frame id ledger cells with
  | case1 => cases hf
  | case2 ledger i1 i2 cells hvalue patch sides next hclaim ih =>
      simp only [List.mem_append, List.mem_flatMap] at hf
      obtain (hf | ⟨side, -, hf⟩) | hf := hf
      · exact ⟨(i1, i2), List.mem_cons_self, Or.inl hf⟩
      · exact ⟨(i1, i2), List.mem_cons_self, Or.inr ⟨side, hf⟩⟩
      · obtain ⟨cell, hcell, hf⟩ := ih hf
        exact ⟨cell, List.mem_cons_of_mem _ hcell, hf⟩
  | case3 ledger i1 i2 cells hvalue ih =>
      obtain ⟨cell, hcell, hf⟩ := ih hf
      exact ⟨cell, List.mem_cons_of_mem _ hcell, hf⟩

theorem mem_fragments {m : CellSurface α} {fragments : List (Fragment α)}
    (hm : m.fragments frame id = .ok fragments) (hf : f ∈ fragments) :
    ∃ cell ∈ m.cells, f ∈ m.triangles id (m.patch frame cell.1 cell.2) ∨
      ∃ side, f ∈ m.sideLines id (m.patch frame cell.1 cell.2) side := by
  unfold CellSurface.fragments at hm
  split at hm
  · cases hm
  · cases hm
    exact mem_cellFragments hf

/-- Every fragment of a cell surface draws one of its items and is drawable. -/
theorem exists_item {m : CellSurface α} {fragments : List (Fragment α)}
    (hm : m.fragments frame id = .ok fragments) (hf : f ∈ fragments) :
    ∃ item ∈ (Node.cellSurface m).items, frame.Draws id item f ∧ f.isDrawable = true := by
  obtain ⟨cell, hcell, hf⟩ := mem_fragments hm hf
  have hitems : ∀ item ∈ m.cellItems cell.1 cell.2, item ∈ (Node.cellSurface m).items :=
    fun item hitem => List.mem_flatMap.mpr ⟨cell, hcell, hitem⟩
  obtain hf | ⟨side, hf⟩ := hf
  · obtain ⟨item, hitem, hdraws⟩ := exists_item_of_mem_triangles hf
    exact ⟨item, hitems item hitem, hdraws⟩
  · obtain ⟨item, hitem, hdraws⟩ := exists_item_of_mem_sideLines hf
    exact ⟨item, hitems item hitem, hdraws⟩

end CellSurface

omit [Scalar α] in
theorem Emission.mem_ofResult {result : Except Problem (List (Fragment α))}
    (hf : .fragment f ∈ Emission.ofResult result) : ∃ fragments, result = .ok fragments ∧
      f ∈ fragments := by
  cases result with
  | error p => simp [Emission.ofResult] at hf
  | ok fragments => simpa [Emission.ofResult] using hf

/-- Every fragment that a node emits draws one of its items, and it is drawable unless it belongs to
the surface of a height field. -/
theorem Node.exists_item {node : Node α} (hf : .fragment f ∈ node.emissions frame id) :
    ∃ item ∈ node.items, frame.Draws id item f ∧
      (f.isDrawable = true ∨ ∃ m, node = .heightField m ∧
        m.problem? = none ∧ f ∈ m.triangles frame id) := by
  have htested : (∃ item ∈ node.items, frame.Draws id item f ∧ f.isDrawable = true) →
      ∃ item ∈ node.items, frame.Draws id item f ∧
        (f.isDrawable = true ∨ ∃ m, node = .heightField m ∧
          m.problem? = none ∧ f ∈ m.triangles frame id) := by
    rintro ⟨item, hitem, hdraws, hdrawable⟩
    exact ⟨item, hitem, hdraws, Or.inl hdrawable⟩
  cases node with
  | facet t => exact htested (Facet.exists_item (by simpa [emissions] using hf))
  | polyline l => exact htested (Polyline.exists_item (by simpa [emissions] using hf))
  | segments s => exact htested (SegmentSet.exists_item (by simpa [emissions] using hf))
  | heightField m =>
      obtain ⟨fragments, hm, hf⟩ := Emission.mem_ofResult hf
      obtain ⟨item, hitem, hdraws, hcase⟩ := HeightField.exists_item hm hf
      refine ⟨item, hitem, hdraws, hcase.imp_right ?_⟩
      rintro ⟨hcomplete, hf⟩
      exact ⟨m, rfl, hcomplete, hf⟩
  | cellSurface m =>
      obtain ⟨fragments, hm, hf⟩ := Emission.mem_ofResult hf
      exact htested (CellSurface.exists_item hm hf)
  | scatter s => exact htested (Scatter.exists_item (by simpa [emissions] using hf))
  | labels l => exact htested (LabelSet.exists_item (by simpa [emissions] using hf))
  | group g => cases hf

end PainterScene
