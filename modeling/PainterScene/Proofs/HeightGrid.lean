import PainterScene.Proofs.Drawability
import PainterScene.Proofs.Isolation
import PainterScene.Proofs.Itemwise
import PainterScene.Proofs.Wireframe

/-!
# The grid of a height field

The lines along the first axis, the lines along the second and the cells of the surface are listed
by three loops, the first of them with the indices in the opposite order. All of them take their
points from the same grid: each edge of the grid is drawn by one line, whichever loop it belongs to,
and each cell by two triangles, row by row. The lines can also be drawn by two walks over the grid
that write one point and one fragment over and over.
-/

namespace PainterScene

def Axis.next : Axis → Axis
  | x => y
  | y => z
  | z => x

def Vec3.coord {α : Type} (v : Vec3 α) : Axis → α
  | .x => v.x
  | .y => v.y
  | .z => v.z

theorem Vec3.coord_onPlane {α : Type} (axis : Axis) (height first second : α) :
    (onPlane axis height first second).coord axis = height ∧
      (onPlane axis height first second).coord axis.next = first ∧
      (onPlane axis height first second).coord axis.next.next = second := by
  cases axis <;> exact ⟨rfl, rfl, rfl⟩

/-- No other edge has the same two ends, in either order. -/
theorem GridEdge.eq_of_ends_eq {e e' : GridEdge}
    (hends : s(e.start, e.stop) = s(e'.start, e'.stop)) : e = e' := by
  obtain ⟨⟨p1, p2⟩, along⟩ := e
  obtain ⟨⟨q1, q2⟩, along'⟩ := e'
  cases along <;> cases along' <;>
    simp only [stop, Sym2.eq_iff, Prod.mk.injEq, if_true, if_false, Bool.false_eq_true, mk.injEq,
      reduceCtorEq, and_true, and_false] at hends ⊢ <;> omega

namespace HeightField

variable {α : Type} [Scalar α] (m : HeightField α) (frame : Frame α) (id : NodeId)

def grid : Set (Nat × Nat) :=
  {p | p.1 < m.rows ∧ p.2 < m.columns}

omit [Scalar α] in
theorem ends_mem_grid {e : GridEdge} (hrow : e.stop.1 < m.rows) (hcolumn : e.stop.2 < m.columns) :
    e.start ∈ m.grid ∧ e.stop ∈ m.grid := by
  have hstart : e.start.1 ≤ e.stop.1 ∧ e.start.2 ≤ e.stop.2 := by
    unfold GridEdge.stop
    split <;> simp
  exact ⟨⟨hstart.1.trans_lt hrow, hstart.2.trans_lt hcolumn⟩, hrow, hcolumn⟩

omit [Scalar α] in
variable {m} in
theorem problem?_eq_none (hcomplete : m.rows * m.columns ≤ m.heights.size) : m.problem? = none :=
  if_neg (not_lt.mpr ((Word.wrap_le _).trans hcomplete))

/-- A point has its three coordinates from the three lists, on the axis of each. -/
theorem coord_point (hcomplete : m.rows * m.columns ≤ m.heights.size) {i j : Nat}
    (hi : i < m.rows) (hj : j < m.columns) :
    m.heights[i * m.columns + j]? = some ((m.point i j).coord m.heightAxis) ∧
      m.positions1[i]? = some ((m.point i j).coord m.heightAxis.next) ∧
      m.positions2[j]? = some ((m.point i j).coord m.heightAxis.next.next) := by
  obtain ⟨hheight, hfirst, hsecond⟩ := Vec3.coord_onPlane m.heightAxis
    (m.heights.getD (i * m.columns + j) 0) (m.positions1.getD i 0) (m.positions2.getD j 0)
  rw [point, hheight, hfirst, hsecond]
  have hplace : i * m.columns + j < m.heights.size := (place_lt hi hj).trans_le hcomplete
  exact ⟨getElem?_eq_some_getD hplace 0, getElem?_eq_some_getD hi 0, getElem?_eq_some_getD hj 0⟩

/-! ### Lines -/

def edgesAlong : Bool → List GridEdge
  | true => (List.range m.columns ×ˢ List.range (m.rows - 1)).map fun p => ⟨(p.2, p.1), true⟩
  | false => (List.range m.rows ×ˢ List.range (m.columns - 1)).map fun p => ⟨p, false⟩

def wireEdges : List GridEdge :=
  (if m.hideLines1 then [] else m.edgesAlong true) ++
    if m.hideLines2 then [] else m.edgesAlong false

theorem lines1_eq :
    m.lines1 frame id = (m.edgesAlong true).map fun e => m.edge frame id e.start e.stop := by
  simp only [edgesAlong, SProd.sprod, List.product, List.map_flatMap, List.map_map]
  rfl

theorem lines2_eq :
    m.lines2 frame id = (m.edgesAlong false).map fun e => m.edge frame id e.start e.stop := by
  simp only [edgesAlong, SProd.sprod, List.product, List.map_flatMap, List.map_map]
  rfl

section Edges

omit [Scalar α]

theorem mem_edgesAlong_iff {along1 : Bool} {e : GridEdge} :
    e ∈ m.edgesAlong along1 ↔ e.along1 = along1 ∧ e.stop.1 < m.rows ∧ e.stop.2 < m.columns := by
  obtain ⟨⟨i, j⟩, along⟩ := e
  cases along1 <;> cases along <;> simp [edgesAlong, List.mem_product, GridEdge.stop] <;> omega

theorem nodup_edgesAlong (along1 : Bool) : (m.edgesAlong along1).Nodup := by
  cases along1 with
  | true =>
      refine (List.nodup_range.product List.nodup_range).map fun p q hpq => ?_
      simpa [Prod.ext_iff, and_comm] using hpq
  | false =>
      refine (List.nodup_range.product List.nodup_range).map fun p q hpq => ?_
      simpa using hpq

theorem mem_wireEdges_iff {e : GridEdge} :
    e ∈ m.wireEdges ↔ (if e.along1 then m.hideLines1 else m.hideLines2) = false ∧
      e.stop.1 < m.rows ∧ e.stop.2 < m.columns := by
  rw [wireEdges, List.mem_append]
  cases halong : e.along1 <;> cases hhide1 : m.hideLines1 <;> cases hhide2 : m.hideLines2 <;>
    simp [mem_edgesAlong_iff, halong]

theorem nodup_wireEdges : m.wireEdges.Nodup := by
  have hshown : ∀ (hide along1 : Bool), (if hide then [] else m.edgesAlong along1).Nodup := by
    intro hide along1
    cases hide with
    | true => exact List.nodup_nil
    | false => exact m.nodup_edgesAlong along1
  refine (hshown _ true).append (hshown _ false) fun e htrue hfalse => ?_
  -- an edge of both lists would run along both axes
  split at htrue
  · cases htrue
  · split at hfalse
    · cases hfalse
    · have halong := (m.mem_edgesAlong_iff.mp htrue).1
      rw [(m.mem_edgesAlong_iff.mp hfalse).1] at halong
      cases halong

theorem length_wireEdges :
    m.wireEdges.length = (if m.hideLines1 then 0 else m.columns * (m.rows - 1)) +
      if m.hideLines2 then 0 else m.rows * (m.columns - 1) := by
  rw [wireEdges, List.length_append, apply_ite List.length, apply_ite List.length, edgesAlong,
    edgesAlong, List.length_map, List.length_map, List.length_product, List.length_product]
  simp only [List.length_range, List.length_nil]

end Edges

def reaches (e : GridEdge) : Bool :=
  (frame.place (m.point e.start.1 e.start.2)).isFinite &&
    (frame.place (m.point e.stop.1 e.stop.2)).isFinite

def drawnEdges : List GridEdge :=
  if m.line.isNone then [] else m.wireEdges.filter (m.reaches frame)

/-- The two loops over the lines draw each edge that has a line, and nothing else. -/
theorem wireframe_eq :
    m.wireframe frame id = (m.drawnEdges frame).map fun e => m.edge frame id e.start e.stop := by
  have hfinite : (Fragment.isFinite ∘ fun e => m.edge frame id e.start e.stop) =
      m.reaches frame := by
    funext e
    exact Fragment.isFinite_ofSegment id m.line _ _
  have hlines : ((if m.hideLines1 then [] else m.lines1 frame id) ++
      if m.hideLines2 then [] else m.lines2 frame id) =
        m.wireEdges.map fun e => m.edge frame id e.start e.stop := by
    rw [wireEdges, List.map_append, apply_ite (List.map _), apply_ite (List.map _), lines1_eq,
      lines2_eq, List.map_nil]
  rw [wireframe, drawnEdges, hlines, List.filter_map, hfinite]
  split <;> rfl

/-! ### Walks

The lines along one axis are drawn by a walk. It sets one coordinate of a point at the start of a
line and the other two at each place, and keeps the last vertex for the next line segment. -/

/-- The point and the fragment are written over and over, also from one walk to the next. -/
structure Walk (α : Type) where
  point : Vec3 α
  last : Option (Vertex α)
  scratch : Fragment α
  drawn : List (Fragment α)

/-- The axis that a walk steps along, and then the axis that it stays at on a line. -/
def walkAxes : Bool → Axis × Axis
  | true => (m.heightAxis.next, m.heightAxis.next.next)
  | false => (m.heightAxis.next.next, m.heightAxis.next)

def walkPositions : Bool → Array α × Array α
  | true => (m.positions1, m.positions2)
  | false => (m.positions2, m.positions1)

def walkPlace (along1 : Bool) (n k : Nat) : Nat × Nat :=
  if along1 then (k, n) else (n, k)

def walkTo (along1 : Bool) (n : Nat) (walk : Walk α) (step : α × Nat) : Walk α :=
  let place := walkPlace along1 n step.2
  let height := m.heights.getD (place.1 * m.columns + place.2) 0
  let point := (walk.point.setAxis (m.walkAxes along1).1 step.1).setAxis m.heightAxis height
  let cur := frame.place point
  match walk.last with
  | none => { walk with point, last := some cur }
  | some prev =>
    let scratch := { walk.scratch with vertices := ⟨prev, cur, walk.scratch.vertices.third⟩ }
    { point, last := some cur, scratch
      drawn := if scratch.isFinite then walk.drawn ++ [scratch] else walk.drawn }

def walkLine (along1 : Bool) (walk : Walk α) (line : α × Nat) : Walk α :=
  (m.walkPositions along1).1.toList.zipIdx.foldl (m.walkTo frame along1 line.2)
    { walk with point := walk.point.setAxis (m.walkAxes along1).2 line.1, last := none }

def walkAlong (along1 : Bool) (walk : Walk α) : Walk α :=
  (m.walkPositions along1).2.toList.zipIdx.foldl (m.walkLine frame along1)
    { walk with point := 0 }

def walkStart : Walk α where
  point := 0
  last := none
  scratch := { Fragment.blank .segment with source := some id, line := m.line }
  drawn := []

def walkedWireframe : List (Fragment α) :=
  if m.line.isNone then []
  else
    let first := if m.hideLines1 then m.walkStart id else m.walkAlong frame true (m.walkStart id)
    (if m.hideLines2 then first else m.walkAlong frame false first).drawn

/-- The walk draws segments of the field, from whatever the fragment holds of the one before. -/
def Walk.Draws (walk : Walk α) : Prop :=
  ∃ v w, walk.scratch = Fragment.ofSegment id m.line v w

def walkedLine (along1 : Bool) (n : Nat) : List (Fragment α) :=
  (List.range ((m.walkPositions along1).1.size - 1)).map fun k =>
    m.edge frame id (walkPlace along1 n k) (walkPlace along1 n (k + 1))

/-- On a line only the other two coordinates are still to be written. -/
theorem setAxis_eq_point {along1 : Bool} {v : Vec3 α} {n : Nat}
    (hline : v.coord (m.walkAxes along1).2 = (m.walkPositions along1).2.getD n 0) (k : Nat) :
    let place := walkPlace along1 n k
    (v.setAxis (m.walkAxes along1).1 ((m.walkPositions along1).1.getD k 0)).setAxis m.heightAxis
      (m.heights.getD (place.1 * m.columns + place.2) 0) = m.point place.1 place.2 := by
  revert hline
  simp only [point, walkAxes, walkPositions, walkPlace]
  cases along1 <;> cases m.heightAxis <;> rintro hline <;>
    simp_all [Axis.next, Vec3.setAxis, Vec3.coord, Vec3.onPlane]

omit [Scalar α] in
theorem coord_setAxis_setAxis (along1 : Bool) (v : Vec3 α) (step height : α) :
    ((v.setAxis (m.walkAxes along1).1 step).setAxis m.heightAxis height).coord
      (m.walkAxes along1).2 = v.coord (m.walkAxes along1).2 := by
  unfold walkAxes
  cases along1 <;> cases m.heightAxis <;> rfl

theorem segmentsAlong_toList_append (line : Option LineStyle) (last : Option (Vertex α))
    (v : Vertex α) (vertices : List (Vertex α)) :
    Fragment.segmentsAlong id line (last.toList ++ v :: vertices) =
      Fragment.segmentsAlong id line (last.toList ++ [v]) ++
        Fragment.segmentsAlong id line (v :: vertices) := by
  cases last with
  | none => rfl
  | some w =>
      simp only [Option.toList_some, List.cons_append, List.nil_append,
        Fragment.segmentsAlong_cons_cons]
      split <;> rfl

variable {m id} in
/-- One step of a walk draws the segment from the last vertex, if there is one. -/
theorem Walk.Draws.walkTo {walk : Walk α} (hwalk : walk.Draws m id) {along1 : Bool} {n : Nat}
    (hline : walk.point.coord (m.walkAxes along1).2 = (m.walkPositions along1).2.getD n 0)
    {step : α × Nat} (hstep : (m.walkPositions along1).1.getD step.2 0 = step.1) :
    let place := walkPlace along1 n step.2
    let cur := frame.place (m.point place.1 place.2)
    let next := m.walkTo frame along1 n walk step
    next.Draws m id ∧
      next.point.coord (m.walkAxes along1).2 = (m.walkPositions along1).2.getD n 0 ∧
      next.last = some cur ∧
      next.drawn = walk.drawn ++ Fragment.segmentsAlong id m.line (walk.last.toList ++ [cur]) := by
  intro place cur next
  obtain ⟨v, w, hscratch⟩ := hwalk
  have hpoint := m.setAxis_eq_point hline step.2
  rw [hstep] at hpoint
  have hcoord := (m.coord_setAxis_setAxis along1 walk.point step.1
    (m.heights.getD (place.1 * m.columns + place.2) 0)).trans hline
  cases hlast : walk.last with
  | none =>
      have hnext : next = { walk with point := m.point place.1 place.2, last := some cur } := by
        simp only [next, HeightField.walkTo, hlast, hpoint]
        rfl
      rw [hpoint] at hcoord
      rw [hnext]
      exact ⟨⟨v, w, hscratch⟩, hcoord, rfl, (List.append_nil _).symm⟩
  | some prev =>
      have hwritten : { walk.scratch with
          vertices := ⟨prev, cur, walk.scratch.vertices.third⟩ } =
            Fragment.ofSegment id m.line prev cur := by
        rw [hscratch]
        rfl
      have hnext : next = ⟨m.point place.1 place.2, some cur, Fragment.ofSegment id m.line prev cur,
          if (Fragment.ofSegment id m.line prev cur).isFinite then
            walk.drawn ++ [Fragment.ofSegment id m.line prev cur] else walk.drawn⟩ := by
        simp only [next, HeightField.walkTo, hlast, hpoint, ← hwritten]
        rfl
      rw [hpoint] at hcoord
      rw [hnext]
      refine ⟨⟨prev, cur, rfl⟩, hcoord, rfl, ?_⟩
      simp only [Option.toList_some, List.cons_append, List.nil_append,
        Fragment.segmentsAlong_cons_cons, Fragment.isFinite_ofSegment]
      split
      · rfl
      · exact (List.append_nil _).symm

variable {m id} in
/-- The rest of a line is drawn from the last vertex on. -/
theorem Walk.Draws.foldl_walkTo {walk : Walk α} (hwalk : walk.Draws m id) {along1 : Bool} {n : Nat}
    (hline : walk.point.coord (m.walkAxes along1).2 = (m.walkPositions along1).2.getD n 0)
    {steps : List (α × Nat)}
    (hsteps : ∀ step ∈ steps, (m.walkPositions along1).1.getD step.2 0 = step.1) :
    let out := steps.foldl (m.walkTo frame along1 n) walk
    out.Draws m id ∧ out.drawn = walk.drawn ++ Fragment.segmentsAlong id m.line (walk.last.toList ++
      (steps.map Prod.snd).map fun k =>
        frame.place (m.point (walkPlace along1 n k).1 (walkPlace along1 n k).2)) := by
  induction steps generalizing walk with
  | nil =>
      refine ⟨hwalk, ?_⟩
      cases walk.last <;> exact (List.append_nil _).symm
  | cons step steps ih =>
      obtain ⟨hstep, hrest⟩ := List.forall_mem_cons.mp hsteps
      obtain ⟨hnext, hpoint, hlast, hdrawn⟩ := hwalk.walkTo frame hline hstep
      obtain ⟨hout, hdrawn'⟩ := ih hnext hpoint hrest
      refine ⟨hout, ?_⟩
      rw [List.map_cons, List.map_cons, segmentsAlong_toList_append, ← List.append_assoc, ← hdrawn]
      rw [hlast] at hdrawn'
      exact hdrawn'

theorem getD_of_mem_zipIdx {β : Type} {a : Array β} {b d : β} {i : Nat}
    (h : (b, i) ∈ a.toList.zipIdx) : a.getD i d = b := by
  rw [List.mem_zipIdx_iff_getElem?, Array.getElem?_toList] at h
  rw [Array.getD_eq_getD_getElem?, h]
  rfl

theorem map_snd_zipIdx {β : Type} (a : Array β) :
    a.toList.zipIdx.map Prod.snd = List.range a.size := by
  rw [List.zipIdx_map_snd, Array.length_toList, List.range_eq_range']

variable {m id} in
theorem Walk.Draws.walkLine {walk : Walk α} (hwalk : walk.Draws m id) {along1 : Bool}
    {line : α × Nat} (hline : (m.walkPositions along1).2.getD line.2 0 = line.1) :
    let out := m.walkLine frame along1 walk line
    out.Draws m id ∧ out.drawn = walk.drawn ++
      (m.walkedLine frame id along1 line.2).filter Fragment.isFinite := by
  have hcoord : (walk.point.setAxis (m.walkAxes along1).2 line.1).coord (m.walkAxes along1).2 =
      (m.walkPositions along1).2.getD line.2 0 := by
    rw [hline]
    cases (m.walkAxes along1).2 <;> rfl
  have hstart : Walk.Draws m id
      { walk with point := walk.point.setAxis (m.walkAxes along1).2 line.1, last := none } := hwalk
  obtain ⟨hout, hdrawn⟩ :=
    hstart.foldl_walkTo frame hcoord fun step hstep => getD_of_mem_zipIdx hstep
  refine ⟨hout, hdrawn.trans ?_⟩
  rw [map_snd_zipIdx, Fragment.segmentsAlong, Option.toList_none, List.nil_append,
    zipWith_tail_map_range]
  rfl

variable {m id} in
theorem Walk.Draws.foldl_walkLine {walk : Walk α} (hwalk : walk.Draws m id) {along1 : Bool}
    {lines : List (α × Nat)}
    (hlines : ∀ line ∈ lines, (m.walkPositions along1).2.getD line.2 0 = line.1) :
    let out := lines.foldl (m.walkLine frame along1) walk
    out.Draws m id ∧ out.drawn = walk.drawn ++
      ((lines.map Prod.snd).flatMap (m.walkedLine frame id along1)).filter Fragment.isFinite := by
  induction lines generalizing walk with
  | nil => exact ⟨hwalk, (List.append_nil _).symm⟩
  | cons line lines ih =>
      obtain ⟨hline, hrest⟩ := List.forall_mem_cons.mp hlines
      obtain ⟨hnext, hdrawn⟩ := hwalk.walkLine frame hline
      obtain ⟨hout, hdrawn'⟩ := ih hnext hrest
      refine ⟨hout, hdrawn'.trans ?_⟩
      rw [hdrawn, List.map_cons, List.flatMap_cons, List.filter_append, List.append_assoc]

variable {m id} in
/-- A walk draws the lines along its axis, whatever was drawn before. -/
theorem Walk.Draws.walkAlong {walk : Walk α} (hwalk : walk.Draws m id) (along1 : Bool) :
    let out := m.walkAlong frame along1 walk
    out.Draws m id ∧ out.drawn = walk.drawn ++
      ((List.range (m.walkPositions along1).2.size).flatMap (m.walkedLine frame id along1)).filter
        Fragment.isFinite := by
  have hstart : Walk.Draws m id { walk with point := 0 } := hwalk
  obtain ⟨hout, hdrawn⟩ :=
    hstart.foldl_walkLine frame fun line hline => getD_of_mem_zipIdx hline
  refine ⟨hout, hdrawn.trans ?_⟩
  rw [map_snd_zipIdx]

/-- Nothing of a line is left in the point or the fragment when the next is drawn. -/
theorem walkedWireframe_eq : m.walkedWireframe frame id = m.wireframe frame id := by
  unfold walkedWireframe wireframe
  split
  · rfl
  · have hstart : (m.walkStart id).Draws m id := ⟨.unset, .unset, rfl⟩
    have hfirst := hstart.walkAlong frame true
    rw [List.filter_append]
    cases m.hideLines1 <;> cases m.hideLines2
    · exact (hfirst.1.walkAlong frame false).2.trans (by rw [hfirst.2]; rfl)
    · exact hfirst.2.trans (List.append_nil _).symm
    · exact (hstart.walkAlong frame false).2
    · rfl

/-! ### Cells -/

def surfaceCells : List (Nat × Nat) :=
  List.range (m.rows - 1) ×ˢ List.range (m.columns - 1)

omit [Scalar α] in
theorem mem_surfaceCells_iff {c : Nat × Nat} :
    c ∈ m.surfaceCells ↔ c.1 + 1 < m.rows ∧ c.2 + 1 < m.columns := by
  obtain ⟨i, j⟩ := c
  simp [surfaceCells, List.mem_product, Nat.lt_sub_iff_add_lt]

omit [Scalar α] in
theorem pairwise_surfaceCells : m.surfaceCells.Pairwise (Prod.Lex (· < ·) (· < ·)) := by
  simp only [surfaceCells, SProd.sprod, List.product]
  rw [List.pairwise_flatMap]
  constructor
  · intro i _
    rw [List.pairwise_map]
    exact List.pairwise_lt_range.imp fun hlt => Prod.Lex.right i hlt
  · refine List.pairwise_lt_range.imp fun hlt a ha b hb => ?_
    obtain ⟨j, -, rfl⟩ := List.mem_map.mp ha
    obtain ⟨k, -, rfl⟩ := List.mem_map.mp hb
    exact Prod.Lex.left j k hlt

def drawnCells : List (Nat × Nat) :=
  if m.surface.isNone then [] else m.surfaceCells.filter fun c => (m.cornerSum c.1 c.2).isFinite

/-- The loop over the cells draws the two triangles of each cell that has triangles. -/
theorem triangles_eq :
    m.triangles frame id = m.drawnCells.flatMap fun c => m.cellPair frame id c.1 c.2 := by
  rw [triangles, drawnCells]
  split
  · rfl
  · simp only [cellTriangles, flatMap_filter, surfaceCells, SProd.sprod, List.product,
      List.flatMap_assoc, List.flatMap_map]

/-! ### What is drawn -/

/-- An edge has a line: lines are drawn and those along its axis are not hidden, it belongs to the
grid, and both its ends are finite once placed. -/
def HasLine (e : GridEdge) : Prop :=
  m.line.isSome ∧ (if e.along1 then m.hideLines1 else m.hideLines2) = false ∧
    (e.stop.1 < m.rows ∧ e.stop.2 < m.columns) ∧
    (frame.place (m.point e.start.1 e.start.2)).isFinite ∧
    (frame.place (m.point e.stop.1 e.stop.2)).isFinite

def HasTriangles (c : Nat × Nat) : Prop :=
  m.surface.isSome ∧ (c.1 + 1 < m.rows ∧ c.2 + 1 < m.columns) ∧ (m.cornerSum c.1 c.2).isFinite

instance (e : GridEdge) : Decidable (m.HasLine frame e) :=
  inferInstanceAs (Decidable (_ ∧ _))

instance (c : Nat × Nat) : Decidable (m.HasTriangles c) :=
  inferInstanceAs (Decidable (_ ∧ _))

theorem mem_drawnEdges_iff {e : GridEdge} : e ∈ m.drawnEdges frame ↔ m.HasLine frame e := by
  unfold drawnEdges HasLine
  split
  · simp_all
  · simp_all [mem_wireEdges_iff, reaches, and_assoc, Option.isSome_iff_ne_none]

theorem nodup_drawnEdges : (m.drawnEdges frame).Nodup := by
  unfold drawnEdges
  split
  · exact List.nodup_nil
  · exact m.nodup_wireEdges.filter _

/-- Where every point can be placed, no edge is left out. -/
theorem length_drawnEdges (hline : m.line.isSome)
    (hfinite : ∀ p ∈ m.grid, (frame.place (m.point p.1 p.2)).isFinite) :
    (m.drawnEdges frame).length = m.wireEdges.length := by
  have hreaches : ∀ e ∈ m.wireEdges, m.reaches frame e = true := by
    intro e he
    obtain ⟨-, hrow, hcolumn⟩ := m.mem_wireEdges_iff.mp he
    obtain ⟨hstart, hstop⟩ := m.ends_mem_grid hrow hcolumn
    rw [reaches, hfinite _ hstart, hfinite _ hstop, Bool.and_self]
  rw [drawnEdges, if_neg (by simpa [Option.isSome_iff_ne_none] using hline),
    List.filter_eq_self.mpr hreaches]

theorem mem_drawnCells_iff {c : Nat × Nat} : c ∈ m.drawnCells ↔ m.HasTriangles c := by
  unfold drawnCells HasTriangles
  split
  · simp_all
  · simp_all [mem_surfaceCells_iff, Option.isSome_iff_ne_none]

theorem pairwise_drawnCells : m.drawnCells.Pairwise (Prod.Lex (· < ·) (· < ·)) := by
  unfold drawnCells
  split
  · exact List.Pairwise.nil
  · exact m.pairwise_surfaceCells.filter _

/-- Where the frame keeps the points of the grid apart, no two lines have the same ends. -/
theorem pairwise_ends (hplaced : Set.InjOn (fun p => frame.place (m.point p.1 p.2)) m.grid) :
    ((m.drawnEdges frame).map fun e => m.edge frame id e.start e.stop).Pairwise fun f g =>
      s(f.vertices.first, f.vertices.second) ≠ s(g.vertices.first, g.vertices.second) := by
  rw [List.pairwise_map]
  refine (m.nodup_drawnEdges frame).imp_of_mem fun {e e'} he he' hne hends => hne ?_
  obtain ⟨-, -, ⟨hrow, hcolumn⟩, -⟩ := (m.mem_drawnEdges_iff frame).mp he
  obtain ⟨-, -, ⟨hrow', hcolumn'⟩, -⟩ := (m.mem_drawnEdges_iff frame).mp he'
  obtain ⟨hstart, hstop⟩ := m.ends_mem_grid hrow hcolumn
  obtain ⟨hstart', hstop'⟩ := m.ends_mem_grid hrow' hcolumn'
  apply GridEdge.eq_of_ends_eq
  rw [Sym2.eq_iff]
  -- two lines with the same ends may run in opposite directions
  obtain ⟨hfirst, hsecond⟩ | ⟨hfirst, hsecond⟩ := Sym2.eq_iff.mp hends
  · exact Or.inl ⟨hplaced hstart hstart' hfirst, hplaced hstop hstop' hsecond⟩
  · exact Or.inr ⟨hplaced hstart hstop' hfirst, hplaced hstop hstart' hsecond⟩

/-- Two rows of three heights over the second axis, one of them missing, and a height too many. -/
def knoll : HeightField Float where
  positions1 := #[0.0, 1.0]
  positions2 := #[0.0, 2.0, 5.0]
  heights := #[1.0, 2.0, 0.0 / 0.0, 4.0, 5.0, 6.0, 9.0]
  heightAxis := .y
  line := some ⟨1⟩
  surface := some ⟨2⟩

def stairs : HeightField ℚ where
  positions1 := #[0, 1, 3]
  positions2 := #[0, 2]
  heights := #[0, 0, 1, 1, 2, 2]
  heightAxis := .z
  line := some ⟨1⟩

end HeightField

end PainterScene
