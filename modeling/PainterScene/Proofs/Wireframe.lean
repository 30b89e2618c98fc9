import PainterScene.Proofs.GridEdges
import PainterScene.Scalar.Rational

/-!
# The grid lines of a cell surface

The cells of a surface draw their sides in turn, and a side that two cells share is drawn by the
first of them that has a value. Since both would place it in the same way, what is drawn depends on
the edge alone: every edge beside a cell with a value is drawn once, between the points that the
surface has there, and no other line is drawn.
-/

namespace PainterScene

/-- The parts in which an edge is drawn, each from one place to another in half steps of the
grid. -/
def GridEdge.spans (fine : Bool) (e : GridEdge) : List ((Nat × Nat) × (Nat × Nat)) :=
  let low := (2 * e.start.1, 2 * e.start.2)
  let middle := (e.start.1 + e.stop.1, e.start.2 + e.stop.2)
  let high := (2 * e.stop.1, 2 * e.stop.2)
  if fine then [(low, middle), (middle, high)] else [(low, high)]

namespace CellSurface

variable {α : Type} [Scalar α] (m : CellSurface α) (frame : Frame α) (id : NodeId)

/-! ### The lines along one edge -/

def edgeLines (e : GridEdge) : List (Fragment α) :=
  ((e.spans m.fine).filter fun span =>
      (frame.place (m.pointAt span.1)).isFinite && (frame.place (m.pointAt span.2)).isFinite).map
    fun span =>
      Fragment.ofSegment id m.line (frame.place (m.pointAt span.1))
        (frame.place (m.pointAt span.2))

/-- Every cell draws a side as the edge that it runs along. -/
theorem sideLines_patch (i1 i2 : Nat) (side : Side) :
    m.sideLines id (m.patch frame i1 i2) side = m.edgeLines frame id (side.edge i1 i2) := by
  let placed := fun place => frame.place (m.pointAt place)
  have hvertices : side.spots.map (m.patch frame i1 i2).value =
      (side.spots.map (spotPlace i1 i2)).map placed := by
    simp only [Triple.map, value_patch, point_eq_pointAt, placed]
  have hspans :
      (let v := side.spots.map (m.patch frame i1 i2).value
        if m.fine then [(v.first, v.second), (v.second, v.third)] else [(v.first, v.third)]) =
        ((side.edge i1 i2).spans m.fine).map fun span => (placed span.1, placed span.2) := by
    rw [hvertices, map_spotPlace_spots, GridEdge.spans, Side.stop_edge]
    split <;> rfl
  rw [sideLines, hspans, List.map_map, List.filter_map, edgeLines]
  simp only [Function.comp_def, Fragment.isFinite_ofSegment, placed]

/-! ### The run over the cells -/

/-- The edges drawn by a run over some cells when those in `taken` are drawn already. -/
def freshEdges (taken : Finset GridEdge) : List (Nat × Nat) → List GridEdge
  | [] => []
  | (i1, i2) :: cells =>
    if Scalar.isFinite (m.value i1 i2) then
      let edges := m.visibleSides.map (Side.edge i1 i2)
      edges.filter (fun e => e ∉ taken) ++ freshEdges (taken ∪ edges.toFinset) cells
    else freshEdges taken cells

omit [Scalar α] in
theorem nodup_visibleSides : m.visibleSides.Nodup := by
  have hall : Side.all.Nodup := by decide
  unfold visibleSides
  split
  · exact List.nodup_nil
  · exact hall.filter _

theorem filter_triangles (patch : Patch (Vertex α)) :
    (m.triangles id patch).filter (fun f => f.kind = .segment) = [] := by
  rw [List.filter_eq_nil_iff]
  intro f hf
  unfold triangles at hf
  split at hf
  · cases hf
  · obtain ⟨t, -, rfl⟩ := List.mem_map.mp (List.mem_filter.mp hf).1
    simp [Fragment.ofTriangle, Fragment.blank]

theorem filter_edgeLines (edges : List GridEdge) :
    (edges.flatMap (m.edgeLines frame id)).filter (fun f => f.kind = .segment) =
      edges.flatMap (m.edgeLines frame id) := by
  rw [List.filter_eq_self]
  intro f hf
  obtain ⟨e, -, hf⟩ := List.mem_flatMap.mp hf
  obtain ⟨span, -, rfl⟩ := List.mem_map.mp hf
  simp [Fragment.ofSegment, Fragment.blank]

/-- The lines of a run over some cells are those along the edges that are fresh in it. -/
theorem filter_cellFragments {ledger : EdgeLedger} {taken : Finset GridEdge}
    (hrecords : ledger.Records m.cells1 m.cells2 taken) {cells : List (Nat × Nat)}
    (hcells : ∀ cell ∈ cells, cell.1 < m.cells1 ∧ cell.2 < m.cells2) :
    (m.cellFragments frame id ledger cells).filter (fun f => f.kind = .segment) =
      (m.freshEdges taken cells).flatMap (m.edgeLines frame id) := by
  induction cells generalizing ledger taken with
  | nil => rfl
  | cons cell cells ih =>
      obtain ⟨i1, i2⟩ := cell
      obtain ⟨⟨hi1, hi2⟩, hrest⟩ := List.forall_mem_cons.mp hcells
      rw [cellFragments, freshEdges]
      by_cases hvalue : Scalar.isFinite (m.value i1 i2)
      · obtain ⟨hkept, hnext⟩ := hrecords.claimAll hi1 hi2 m.nodup_visibleSides
        have hdrawn : m.sideLines id (m.patch frame i1 i2) =
            fun side => m.edgeLines frame id (side.edge i1 i2) := by
          funext side
          exact m.sideLines_patch frame id i1 i2 side
        have hsides : (ledger.claimAll i1 i2 m.visibleSides).1.flatMap
              (m.sideLines id (m.patch frame i1 i2)) =
            ((m.visibleSides.map (Side.edge i1 i2)).filter (fun e => e ∉ taken)).flatMap
              (m.edgeLines frame id) := by
          rw [hkept, hdrawn, List.filter_map, List.flatMap_map]
          rfl
        rw [if_pos hvalue, if_pos hvalue]
        simp only [List.filter_append, filter_triangles, List.nil_append, hsides, filter_edgeLines,
          ih hnext hrest, List.flatMap_append]
      · rw [if_neg hvalue, if_neg hvalue]
        exact ih hrecords hrest

/-- The edges that are drawn: those of cells with a value that were not drawn before. -/
theorem mem_freshEdges_iff {taken : Finset GridEdge} {cells : List (Nat × Nat)} {e : GridEdge} :
    e ∈ m.freshEdges taken cells ↔ e ∉ taken ∧ ∃ cell ∈ cells,
      Scalar.isFinite (m.value cell.1 cell.2) ∧
        ∃ side ∈ m.visibleSides, side.edge cell.1 cell.2 = e := by
  induction cells generalizing taken with
  | nil => simp [freshEdges]
  | cons cell cells ih =>
      obtain ⟨i1, i2⟩ := cell
      rw [freshEdges, List.exists_mem_cons_iff]
      by_cases hvalue : Scalar.isFinite (m.value i1 i2)
      · simp only [hvalue, if_true, true_and, List.mem_append, List.mem_filter, ih,
          Finset.mem_union, List.mem_toFinset, List.mem_map, decide_eq_true_eq]
        by_cases hhere : ∃ side ∈ m.visibleSides, side.edge i1 i2 = e
        · simp [hhere]
        · simp [hhere]
      · rw [if_neg hvalue, ih]
        simp only [hvalue, Bool.false_eq_true, false_and, false_or]

theorem nodup_freshEdges (taken : Finset GridEdge) (cells : List (Nat × Nat)) :
    (m.freshEdges taken cells).Nodup := by
  induction cells generalizing taken with
  | nil => exact List.nodup_nil
  | cons cell cells ih =>
      rw [freshEdges]
      split
      · refine List.Nodup.append ?_ (ih _) ?_
        · exact (m.nodup_visibleSides.map (Side.edge_injective _ _)).filter _
        · intro e he hlater
          have hedge := (List.mem_filter.mp he).1
          exact ((mem_freshEdges_iff m).mp hlater).1 (by simp [List.mem_map.mp hedge])
      · exact ih taken

/-! ### The drawn edges -/

/-- The edges that are drawn: of a direction that is not hidden, beside a cell with a value. -/
def Shows (e : GridEdge) : Prop :=
  (if e.along1 then m.hideLines1 else m.hideLines2) = false ∧
    ∃ cell ∈ m.cells, e.Adjoins cell ∧ Scalar.isFinite (m.value cell.1 cell.2)

instance (e : GridEdge) : Decidable (m.Shows e) :=
  inferInstanceAs (Decidable (_ ∧ _))

variable {m}

omit [Scalar α] in
theorem mem_visibleSides_iff (hline : m.line.isSome) {side : Side} :
    side ∈ m.visibleSides ↔ (if side.along1 then m.hideLines1 else m.hideLines2) = false := by
  have hall : side ∈ Side.all := by cases side <;> decide
  rw [visibleSides, if_neg (by simpa [Option.isSome_iff_ne_none] using hline), List.mem_filter]
  simp [hall]

theorem mem_freshEdges_cells (hline : m.line.isSome) {e : GridEdge} :
    e ∈ m.freshEdges ∅ m.cells ↔ m.Shows e := by
  rw [mem_freshEdges_iff, Shows]
  simp only [Finset.notMem_empty, not_false_eq_true, true_and, mem_visibleSides_iff hline]
  constructor
  · rintro ⟨cell, hcell, hvalue, side, hside, rfl⟩
    exact ⟨hside, cell, hcell, Side.adjoins_iff.mpr ⟨side, rfl⟩, hvalue⟩
  · rintro ⟨hshown, cell, hcell, hadjoins, hvalue⟩
    obtain ⟨side, rfl⟩ := Side.adjoins_iff.mp hadjoins
    exact ⟨cell, hcell, hvalue, side, hshown, rfl⟩

/-! ### How many there are -/

def gridEdges (n1 n2 : Nat) : List GridEdge :=
  (List.range n1 ×ˢ List.range (n2 + 1)).map (⟨·, true⟩) ++
    (List.range (n1 + 1) ×ˢ List.range n2).map (⟨·, false⟩)

theorem nodup_gridEdges (n1 n2 : Nat) : (gridEdges n1 n2).Nodup := by
  have hdirection : ∀ along : Bool, Function.Injective fun p : Nat × Nat => GridEdge.mk p along :=
    fun along p q hpq => congrArg GridEdge.start hpq
  refine List.Nodup.append ?_ ?_ ?_
  · exact (List.nodup_range.product List.nodup_range).map (hdirection true)
  · exact (List.nodup_range.product List.nodup_range).map (hdirection false)
  · intro e htrue hfalse
    obtain ⟨p, -, rfl⟩ := List.mem_map.mp htrue
    obtain ⟨q, -, hq⟩ := List.mem_map.mp hfalse
    exact Bool.false_ne_true (congrArg GridEdge.along1 hq)

theorem length_gridEdges (n1 n2 : Nat) :
    (gridEdges n1 n2).length = n1 * (n2 + 1) + n2 * (n1 + 1) := by
  rw [gridEdges, List.length_append, List.length_map, List.length_map, List.length_product,
    List.length_product]
  simp only [List.length_range]
  ring

theorem mem_gridEdges_iff {n1 n2 : Nat} {e : GridEdge} :
    e ∈ gridEdges n1 n2 ↔ e.stop.1 ≤ n1 ∧ e.stop.2 ≤ n2 := by
  obtain ⟨⟨p1, p2⟩, along⟩ := e
  cases along <;> simp [gridEdges, GridEdge.stop, List.mem_product]

theorem shows_iff_mem_gridEdges (h1 : 1 ≤ m.cells1) (h2 : 1 ≤ m.cells2)
    (hvalues : ∀ cell ∈ m.cells, Scalar.isFinite (m.value cell.1 cell.2))
    (hhide1 : m.hideLines1 = false) (hhide2 : m.hideLines2 = false) (e : GridEdge) :
    m.Shows e ↔ e ∈ gridEdges m.cells1 m.cells2 := by
  rw [mem_gridEdges_iff]
  constructor
  · rintro ⟨-, ⟨i1, i2⟩, hcell, ⟨-, hstop1, hstop2⟩, -⟩
    obtain ⟨hi1, hi2⟩ := mem_cells_iff.mp hcell
    simp only at hstop1 hstop2
    omega
  · rintro ⟨hstop1, hstop2⟩
    -- the cell after the start, or the last one when the start is at the end of the grid
    let cell := (min e.start.1 (m.cells1 - 1), min e.start.2 (m.cells2 - 1))
    have hcell : cell ∈ m.cells := mem_cells_iff.mpr (by omega)
    refine ⟨by simp [hhide1, hhide2], cell, hcell, ?_, hvalues cell hcell⟩
    unfold GridEdge.stop at hstop1 hstop2
    unfold GridEdge.Adjoins GridEdge.IsCorner GridEdge.stop
    by_cases halong : e.along1
    · simp only [halong, if_true, cell] at hstop1 hstop2 ⊢
      omega
    · simp only [halong, if_false, Bool.false_eq_true, cell] at hstop1 hstop2 ⊢
      omega

theorem length_edgeLines {frame : Frame α} {id : NodeId} {e : GridEdge}
    (hplaced : ∀ span ∈ e.spans m.fine, (frame.place (m.pointAt span.1)).isFinite ∧
      (frame.place (m.pointAt span.2)).isFinite) :
    (m.edgeLines frame id e).length = if m.fine then 2 else 1 := by
  have hfinite : ∀ span ∈ e.spans m.fine, ((frame.place (m.pointAt span.1)).isFinite &&
      (frame.place (m.pointAt span.2)).isFinite) = true := by
    intro span hspan
    rw [Bool.and_eq_true]
    exact hplaced span hspan
  rw [edgeLines, List.length_map, List.filter_eq_self.mpr hfinite, GridEdge.spans]
  split <;> rfl

/-- **Every edge is drawn once.** The lines of a surface with a line style are those along the edges
that are shown, each edge taken once; with nothing missing or hidden these are all the edges of the
grid. -/
theorem fragments_draw_each_edge_once (m : CellSurface α) (frame : Frame α) (id : NodeId)
    (hvalid : m.problem? = none) (hcount : m.Countable) (hline : m.line.isSome) :
    ∃ (fragments : List (Fragment α)) (edges : List GridEdge),
      m.fragments frame id = .ok fragments ∧ edges.Nodup ∧
      (∀ e, e ∈ edges ↔ m.Shows e) ∧
      fragments.filter (fun f => f.kind = .segment) = edges.flatMap (m.edgeLines frame id) ∧
      (1 ≤ m.cells1 → 1 ≤ m.cells2 →
        (∀ cell ∈ m.cells, Scalar.isFinite (m.value cell.1 cell.2)) →
        (∀ e ∈ gridEdges m.cells1 m.cells2, ∀ span ∈ e.spans m.fine,
          (frame.place (m.pointAt span.1)).isFinite ∧
            (frame.place (m.pointAt span.2)).isFinite) →
        m.hideLines1 = false → m.hideLines2 = false →
        (fragments.filter fun f => f.kind = .segment).length =
          (if m.fine then 2 else 1) *
            (m.cells1 * (m.cells2 + 1) + m.cells2 * (m.cells1 + 1))) := by
  have hlines := m.filter_cellFragments frame id
    (EdgeLedger.Fits.records_ofCells hcount) fun cell hcell => mem_cells_iff.mp hcell
  have hedges : ∀ e, e ∈ m.freshEdges ∅ m.cells ↔ m.Shows e := fun e => mem_freshEdges_cells hline
  refine ⟨_, m.freshEdges ∅ m.cells, by rw [fragments, hvalid], m.nodup_freshEdges ∅ m.cells,
    hedges, hlines, ?_⟩
  intro h1 h2 hvalues hplaced hhide1 hhide2
  have hgrid : ∀ e, e ∈ m.freshEdges ∅ m.cells ↔ e ∈ gridEdges m.cells1 m.cells2 := fun e =>
    (hedges e).trans (shows_iff_mem_gridEdges h1 h2 hvalues hhide1 hhide2 e)
  have hperm : (m.freshEdges ∅ m.cells).Perm (gridEdges m.cells1 m.cells2) :=
    (List.perm_ext_iff_of_nodup (m.nodup_freshEdges ∅ m.cells) (nodup_gridEdges _ _)).mpr hgrid
  have hlength : ∀ e ∈ m.freshEdges ∅ m.cells,
      (m.edgeLines frame id e).length = if m.fine then 2 else 1 := fun e he =>
    length_edgeLines (hplaced e ((hgrid e).mp he))
  calc ((m.cellFragments frame id (EdgeLedger.ofCells m.cells1 m.cells2) m.cells).filter
          fun f => f.kind = .segment).length
      = ((m.freshEdges ∅ m.cells).map fun e => (m.edgeLines frame id e).length).sum := by
        rw [hlines, List.length_flatMap]
    _ = (m.freshEdges ∅ m.cells).length * (if m.fine then 2 else 1) := by
        rw [List.map_congr_left hlength, List.map_const', List.sum_replicate, smul_eq_mul]
    _ = (if m.fine then 2 else 1) * (m.cells1 * (m.cells2 + 1) + m.cells2 * (m.cells1 + 1)) := by
        rw [hperm.length_eq, length_gridEdges, mul_comm]

def fenced : CellSurface Float :=
  { dented with line := some ⟨0⟩ }

def ridge : CellSurface ℚ where
  edges1 := #[0, 1, 3]
  edges2 := #[0, 2]
  values := #[1, 4]
  valueAxis := .z
  axis1 := .x
  axis2 := .y
  fine := true
  line := some ⟨0⟩

/-- The missing cell of `fenced` leaves the edge to its neighbour drawn and its outer edge not
drawn; the two cells of `ridge` have seven edges of two halves each. -/
theorem fenced_ridge_edges :
    (∃ (fragments : List (Fragment Float)) (edges : List GridEdge),
      fenced.fragments ⟨.identity, .identity⟩ ⟨0⟩ = .ok fragments ∧ edges.Nodup ∧
        ⟨(1, 1), false⟩ ∈ edges ∧ ⟨(0, 1), false⟩ ∉ edges ∧
        fragments.filter (fun f => f.kind = .segment) =
          edges.flatMap (fenced.edgeLines ⟨.identity, .identity⟩ ⟨0⟩)) ∧
    ∃ fragments, ridge.fragments ⟨.identity, .identity⟩ ⟨0⟩ = .ok fragments ∧
      (fragments.filter fun f => f.kind = .segment).length = 14 := by
  constructor
  · obtain ⟨fragments, edges, hfragments, hnodup, hedges, hlines, -⟩ :=
      fragments_draw_each_edge_once fenced ⟨.identity, .identity⟩ ⟨0⟩ (by decide) (by decide)
        rfl
    refine ⟨fragments, edges, hfragments, hnodup, (hedges _).mpr ?_, mt (hedges _).mp ?_, hlines⟩
    · decide +kernel
    · decide +kernel
  · obtain ⟨fragments, edges, hfragments, -, -, -, hcount⟩ :=
      fragments_draw_each_edge_once ridge ⟨.identity, .identity⟩ ⟨0⟩ (by decide) (by decide)
        rfl
    exact ⟨fragments, hfragments, hcount (by decide) (by decide) (fun _ _ => rfl)
      (fun _ _ _ _ => ⟨rfl, rfl⟩) rfl rfl⟩

end CellSurface

end PainterScene
