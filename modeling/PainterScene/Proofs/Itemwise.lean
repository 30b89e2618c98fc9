import PainterScene.Proofs.Accesses

/-!
# Items are drawn one by one

Connected lines, segments, markers and labels are drawn item by item. What an item adds to a pass is
a function of its own data, of the frame and of the style of its node, with nothing kept from the
items before it: a run that writes every item over the one before, in a single fragment, draws the
same.
-/

namespace PainterScene

theorem filterMap_of_mapM {ι β γ : Type} {read : ι → Option β} {l : List ι} {r : List β}
    (hread : l.mapM read = some r) (g : β → Option γ) :
    (l.filterMap fun i => (read i).bind g) = r.filterMap g := by
  induction l generalizing r with
  | nil =>
      cases hread
      rfl
  | cons i l ih =>
      rw [List.mapM_cons] at hread
      simp only [Option.bind_eq_bind, Option.bind_eq_some_iff, Option.pure_def] at hread
      obtain ⟨b, hb, r, hr, hcons⟩ := hread
      cases hcons
      rw [List.filterMap_cons, List.filterMap_cons, hb, Option.bind_some, ih hr]

variable {α : Type} [Scalar α]

/-! ### The rule of each kind of item -/

namespace Frame

def segment? (frame : Frame α) (id : NodeId) (line : Option LineStyle) (start stop : Vec3 α) :
    Option (Fragment α) :=
  if (frame.outer.move start).isFinite && (frame.outer.move stop).isFinite then
    some
      { kind := .segment, source := some id, payload := none, surface := none, line
        vertices := ⟨frame.place start, frame.place stop, .unset⟩
        size := 0, splitCount := 0, creationIndex := 0 }
  else none

def marker? (frame : Frame α) (id : NodeId) (line : Option LineStyle)
    (surface : Option SurfaceStyle) (scaleEdges : Bool) (point : Vec3 α) (size : α) :
    Option (Fragment α) :=
  if (frame.outer.move point).isFinite && Scalar.isFinite size then
    some
      { kind := .marker, source := some id, payload := some (.outline scaleEdges), surface, line
        vertices := ⟨frame.place point, .unset, .unset⟩
        size, splitCount := 0, creationIndex := 0 }
  else none

def label? (frame : Frame α) (id : NodeId) (index : Nat) (anchor direction : Vec3 α) :
    Option (Fragment α) :=
  if (frame.outer.move anchor).isFinite && (frame.outer.move direction).isFinite then
    some
      { kind := .marker, source := some id
        payload := some (.label index (frame.outer.move direction)), surface := none, line := none
        vertices := ⟨frame.place anchor, .unset, .unset⟩
        size := 1, splitCount := 0, creationIndex := 0 }
  else none

end Frame

/-! ### The items of each shape -/

variable (frame : Frame α) (id : NodeId)

def Polyline.itemFragments (l : Polyline α) : List (Fragment α) :=
  (List.range (l.points.length - 1)).filterMap fun i => do
    let start ← l.points[i]?
    let stop ← l.points[i + 1]?
    frame.segment? id l.line start stop

def SegmentSet.itemFragments (set : SegmentSet α) : List (Fragment α) :=
  (List.range set.segments.length).filterMap fun i => do
    let pair ← set.segments[i]?
    frame.segment? id set.line pair.1 pair.2

/-- The length of the shortest column; sizes count where there are any. -/
def Scatter.count (s : Scatter α) : Nat :=
  let points := min (min s.xs.length s.ys.length) s.zs.length
  if s.sizes.isEmpty then points else min points s.sizes.length

def Scatter.itemFragments (s : Scatter α) : List (Fragment α) :=
  (List.range s.count).filterMap fun i => do
    let x ← s.xs[i]?
    let y ← s.ys[i]?
    let z ← s.zs[i]?
    let size ← s.sizeAt? i
    frame.marker? id s.line s.surface s.scaleEdges ⟨x, y, z⟩ size

def LabelSet.itemFragments (l : LabelSet α) : List (Fragment α) :=
  (List.range (min l.anchors.length l.directions.length / 3)).filterMap fun i => do
    let x ← l.anchors[3 * i]?
    let y ← l.anchors[3 * i + 1]?
    let z ← l.anchors[3 * i + 2]?
    let dx ← l.directions[3 * i]?
    let dy ← l.directions[3 * i + 1]?
    let dz ← l.directions[3 * i + 2]?
    frame.label? id i ⟨x, y, z⟩ ⟨dx, dy, dz⟩

/-! ### Each shape follows the rule of its items -/

theorem Frame.segment?_eq (line : Option LineStyle) (start stop : Vec3 α) :
    frame.segment? id line start stop =
      Option.guard Fragment.isFinite
        (Fragment.ofSegment id line (frame.place start) (frame.place stop)) := by
  rw [segment?, Option.guard, Fragment.isFinite_ofSegment]
  rfl

theorem Frame.marker?_eq (s : Scatter α) (p : Vec3 α × α) :
    frame.marker? id s.line s.surface s.scaleEdges p.1 p.2 =
      Option.guard (fun f => f.isFinite && Scalar.isFinite f.size) (s.fragment frame id p) := by
  have hfinite : (s.fragment frame id p).isFinite = (frame.place p.1).isFinite :=
    Fragment.isFinite_ofMarker id (.outline s.scaleEdges) p.2 (frame.place p.1)
  have hsize : (s.fragment frame id p).size = p.2 := rfl
  rw [marker?, Option.guard, hfinite, hsize]
  rfl

theorem Frame.label?_eq (index : Nat) (pair : Vec3 α × Vec3 α) :
    frame.label? id index pair.1 pair.2 = LabelSet.fragment? frame id index pair := by
  simp only [LabelSet.fragment?, Fragment.isFinite_ofMarker]
  rfl

theorem filter_map_eq_filterMap {ι β : Type} (f : ι → β) (p : β → Bool) (l : List ι) :
    (l.map f).filter p = l.filterMap fun i => Option.guard p (f i) := by
  rw [← List.filterMap_eq_filter, List.filterMap_map]
  rfl

theorem Polyline.fragments_eq (l : Polyline α) :
    l.fragments frame id = l.itemFragments frame id := by
  have hread : (List.range (l.points.length - 1)).mapM (fun i => do
      let start ← l.points[i]?
      let stop ← l.points[i + 1]?
      return (start, stop)) = some (l.points.zip l.points.tail) := by
    apply mapM_range_eq_some
    · simp
    · rintro i ⟨start, stop⟩ hpair
      obtain ⟨hstart, hstop⟩ := List.getElem?_zip_eq_some.mp hpair
      rw [List.getElem?_tail] at hstop
      rw [hstart, hstop]
      rfl
  calc l.fragments frame id
      = (l.points.zip l.points.tail).filterMap fun p => frame.segment? id l.line p.1 p.2 := by
        rw [fragments, ← List.map_tail, List.zipWith_map, ← List.map_uncurry_zip_eq_zipWith,
          filter_map_eq_filterMap]
        simp only [Frame.segment?_eq]
        rfl
    _ = l.itemFragments frame id := by
        rw [← filterMap_of_mapM hread, itemFragments]
        simp only [Option.bind_eq_bind, Option.pure_def, Option.bind_assoc, Option.bind_some]

theorem SegmentSet.fragments_eq (set : SegmentSet α) :
    set.fragments frame id = set.itemFragments frame id := by
  have hread : (List.range set.segments.length).mapM (fun i => set.segments[i]?) =
      some set.segments := mapM_range_eq_some rfl fun _ _ hpair => hpair
  calc set.fragments frame id
      = set.segments.filterMap fun p => frame.segment? id set.line p.1 p.2 := by
        rw [fragments, filter_map_eq_filterMap]
        simp only [Frame.segment?_eq]
    _ = set.itemFragments frame id := by
        rw [← filterMap_of_mapM hread]
        rfl

theorem Scatter.fragments_eq (s : Scatter α) :
    s.fragments frame id = s.itemFragments frame id := by
  calc s.fragments frame id
      = s.sizedPoints.filterMap fun p =>
          frame.marker? id s.line s.surface s.scaleEdges p.1 p.2 := by
        rw [fragments, filter_map_eq_filterMap]
        simp only [Frame.marker?_eq]
    _ = s.itemFragments frame id := by
        rw [← filterMap_of_mapM s.sizedPoints?_eq, itemFragments]
        simp only [Vec3.atColumns?, Option.bind_eq_bind, Option.pure_def,
          Option.bind_assoc, Option.bind_some]
        rfl

theorem LabelSet.fragments_eq (l : LabelSet α) :
    l.fragments frame id = l.itemFragments frame id := by
  have hread : (List.range (min l.anchors.length l.directions.length / 3)).mapM (fun i => do
      let anchor ← Vec3.atFlat? l.anchors i
      let direction ← Vec3.atFlat? l.directions i
      return ((anchor, direction), i)) = some l.anchorPairs.zipIdx := by
    apply mapM_range_eq_some
    · rw [List.length_zipIdx, anchorPairs, List.length_zip, Vec3.length_ofFlat,
        Vec3.length_ofFlat]
      omega
    · rintro i ⟨⟨anchor, direction⟩, index⟩ hindexed
      obtain ⟨hpair, rfl⟩ : l.anchorPairs[i]? = some (anchor, direction) ∧ i = index := by
        simpa [List.getElem?_zipIdx] using hindexed
      obtain ⟨hanchor, hdirection⟩ := List.getElem?_zip_eq_some.mp hpair
      rw [Vec3.atFlat?_of_getElem? hanchor, Vec3.atFlat?_of_getElem? hdirection]
      rfl
  calc l.fragments frame id
      = l.anchorPairs.zipIdx.filterMap fun p => frame.label? id p.2 p.1.1 p.1.2 := by
        simp only [Frame.label?_eq]
        rfl
    _ = l.itemFragments frame id := by
        rw [← filterMap_of_mapM hread, itemFragments]
        simp only [Vec3.atFlat?, Option.bind_eq_bind, Option.pure_def, Option.bind_assoc,
          Option.bind_some]

/-! ### One fragment for all items

Here the items are drawn with a single fragment. Each item is written over what the items before it
left, and a copy of the fragment is drawn if it can be. -/

namespace Fragment

def writeEach {ι : Type} (write : ι → Fragment α → Fragment α) :
    Fragment α → List ι → List (Fragment α)
  | _, [] => []
  | scratch, item :: items =>
    let written := write item scratch
    if written.isDrawable then written :: writeEach write written items
    else writeEach write written items

/-- If every item overwrites whatever the others may leave, what is drawn is each item written
afresh. -/
theorem writeEach_eq {ι : Type} {write : ι → Fragment α → Fragment α} (fresh : ι → Fragment α)
    (Left : Fragment α → Prop) {items : List ι}
    (hwrite : ∀ item ∈ items, ∀ scratch, Left scratch → write item scratch = fresh item)
    (hleft : ∀ item ∈ items, Left (fresh item)) {scratch : Fragment α} (hscratch : Left scratch) :
    writeEach write scratch items = (items.map fresh).filter isDrawable := by
  induction items generalizing scratch with
  | nil => rfl
  | cons item items ih =>
      obtain ⟨hhere, hrest⟩ := List.forall_mem_cons.mp hwrite
      obtain ⟨hnext, hlater⟩ := List.forall_mem_cons.mp hleft
      rw [writeEach, hhere scratch hscratch, List.map_cons, List.filter_cons]
      simp only [ih hrest hlater hnext]

def segmentsAlong (line : Option LineStyle) (vertices : List (Vertex α)) : List (Fragment α) :=
  (List.zipWith (ofSegment id line) vertices vertices.tail).filter isFinite

theorem segmentsAlong_cons_cons (line : Option LineStyle) (v w : Vertex α)
    (vertices : List (Vertex α)) :
    segmentsAlong id line (v :: w :: vertices) =
      if v.isFinite && w.isFinite then
        ofSegment id line v w :: segmentsAlong id line (w :: vertices)
      else segmentsAlong id line (w :: vertices) := by
  rw [segmentsAlong, List.tail_cons, List.zipWith_cons_cons, List.filter_cons, isFinite_ofSegment]
  rfl

/-- A vertex that is not finite has no segment. -/
theorem segmentsAlong_of_not_finite (line : Option LineStyle) {v : Vertex α}
    (hv : v.isFinite = false) (vertices : List (Vertex α)) :
    segmentsAlong id line (v :: vertices) = segmentsAlong id line vertices := by
  cases vertices with
  | nil => rfl
  | cons w vertices => rw [segmentsAlong_cons_cons, hv, Bool.false_and, if_neg Bool.false_ne_true]

end Fragment

namespace Polyline

/-- A walk along the points that keeps the last vertex for the next segment, and forgets it where a
point is not finite. -/
def trace : Fragment α → Option (Vertex α) → List (Vec3 α) → List (Fragment α)
  | _, _, [] => []
  | scratch, prev, p :: points =>
    let cur := frame.place p
    if cur.isFinite then
      match prev with
      | none => trace scratch (some cur) points
      | some v =>
        let written := { scratch with vertices := ⟨v, cur, scratch.vertices.third⟩ }
        written :: trace written (some cur) points
    else trace scratch none points

def inPlaceFragments (l : Polyline α) : List (Fragment α) :=
  trace frame { (Fragment.blank .segment : Fragment α) with source := some id, line := l.line } none
    l.points

/-- The walk draws the segments between finite neighbours, whatever the fragment held before. -/
theorem trace_eq (line : Option LineStyle) {scratch : Fragment α}
    (hscratch : ∃ v w, scratch = Fragment.ofSegment id line v w) (points : List (Vec3 α)) :
    trace frame scratch none points = Fragment.segmentsAlong id line (points.map frame.place) ∧
      ∀ v : Vertex α, v.isFinite = true →
        trace frame scratch (some v) points =
          Fragment.segmentsAlong id line (v :: points.map frame.place) := by
  induction points generalizing scratch with
  | nil => exact ⟨rfl, fun _ _ => rfl⟩
  | cons p points ih =>
      rw [List.map_cons]
      cases hp : (frame.place p).isFinite with
      | true =>
          constructor
          · simp only [trace, hp, if_true]
            exact (ih hscratch).2 _ hp
          -- both control points are written, so nothing of the scratch fragment is left
          · intro v hv
            obtain ⟨_, _, rfl⟩ := hscratch
            have hrest := (ih ⟨v, frame.place p, rfl⟩).2 _ hp
            rw [Fragment.segmentsAlong_cons_cons, hv, hp, Bool.and_self, if_pos rfl, ← hrest]
            simp only [trace, hp, if_true]
            rfl
      -- a gap: the walk starts anew behind it, with the fragment as it is
      | false =>
          constructor
          · simp only [trace, hp, Bool.false_eq_true, if_false]
            rw [Fragment.segmentsAlong_of_not_finite id line hp]
            exact (ih hscratch).1
          · intro v _
            simp only [trace, hp, Bool.false_eq_true, if_false]
            rw [Fragment.segmentsAlong_cons_cons, hp, Bool.and_false, if_neg Bool.false_ne_true,
              Fragment.segmentsAlong_of_not_finite id line hp]
            exact (ih hscratch).1

theorem inPlaceFragments_eq (l : Polyline α) :
    l.inPlaceFragments frame id = l.fragments frame id :=
  (trace_eq frame id l.line ⟨.unset, .unset, rfl⟩ l.points).1

end Polyline

namespace SegmentSet

def inPlaceFragments (set : SegmentSet α) : List (Fragment α) :=
  Fragment.writeEach
    (fun s scratch =>
      { scratch with vertices := ⟨frame.place s.1, frame.place s.2, scratch.vertices.third⟩ })
    { (Fragment.blank .segment : Fragment α) with source := some id, line := set.line }
    set.segments

theorem inPlaceFragments_eq (set : SegmentSet α) :
    set.inPlaceFragments frame id = set.fragments frame id := by
  rw [inPlaceFragments, Fragment.writeEach_eq
    (fun s => Fragment.ofSegment id set.line (frame.place s.1) (frame.place s.2))
    (fun f => ∃ v w, f = Fragment.ofSegment id set.line v w)]
  · refine List.filter_congr fun f hf => ?_
    obtain ⟨s, -, rfl⟩ := List.mem_map.mp hf
    exact Bool.and_true _
  · rintro s - _ ⟨_, _, rfl⟩
    rfl
  · intro s _
    exact ⟨_, _, rfl⟩
  · exact ⟨.unset, .unset, rfl⟩

end SegmentSet

namespace Scatter

/-- The size stays as it is where the markers have no sizes of their own. -/
def inPlaceFragments (s : Scatter α) : List (Fragment α) :=
  Fragment.writeEach
    (fun p scratch =>
      { scratch with
        vertices := ⟨frame.place p.1, scratch.vertices.second, scratch.vertices.third⟩
        size := if s.sizes.isEmpty then scratch.size else p.2 })
    { (Fragment.blank .marker : Fragment α) with
      source := some id
      payload := some (.outline s.scaleEdges)
      surface := s.surface
      line := s.line
      size := 1 }
    s.sizedPoints

theorem inPlaceFragments_eq (s : Scatter α) :
    s.inPlaceFragments frame id = s.fragments frame id := by
  have hone : ∀ p ∈ s.sizedPoints, s.sizes.isEmpty = true → p.2 = 1 := by
    intro p hp hempty
    rw [sizedPoints, if_pos hempty] at hp
    obtain ⟨_, -, rfl⟩ := List.mem_map.mp hp
    rfl
  rw [inPlaceFragments, Fragment.writeEach_eq (s.fragment frame id) fun f =>
    ∃ (v : Vertex α) (size : α), (s.sizes.isEmpty = true → size = 1) ∧
      f = { Fragment.ofMarker id (.outline s.scaleEdges) size v with
        line := s.line, surface := s.surface }]
  · refine List.filter_congr fun f hf => ?_
    obtain ⟨p, -, rfl⟩ := List.mem_map.mp hf
    rfl
  · rintro p hp _ ⟨v, size, hsize, rfl⟩
    by_cases hempty : s.sizes.isEmpty = true
    · simp only [if_pos hempty, hsize hempty, fragment, hone p hp hempty]
      rfl
    · simp only [if_neg hempty]
      rfl
  · intro p hp
    exact ⟨_, p.2, hone p hp, rfl⟩
  · exact ⟨.unset, 1, fun _ => rfl, rfl⟩

end Scatter

namespace LabelSet

def inPlaceFragments (l : LabelSet α) : List (Fragment α) :=
  Fragment.writeEach
    (fun p scratch =>
      { scratch with
        vertices := ⟨frame.place p.1.1, scratch.vertices.second, scratch.vertices.third⟩
        payload := some (.label p.2 (frame.outer.move p.1.2)) })
    { (Fragment.blank .marker : Fragment α) with source := some id, size := 1 }
    l.anchorPairs.zipIdx

theorem inPlaceFragments_eq (l : LabelSet α) :
    l.inPlaceFragments frame id = l.fragments frame id := by
  rw [inPlaceFragments, Fragment.writeEach_eq
    (fun p => Fragment.ofMarker id (.label p.2 (frame.outer.move p.1.2)) 1 (frame.place p.1.1))
    (fun f => ∃ (payload : Option (Payload α)) (v : Vertex α),
      f = { (Fragment.blank .marker : Fragment α) with
        source := some id, payload, size := 1, vertices := ⟨v, .unset, .unset⟩ }),
    filter_map_eq_filterMap]
  · rfl
  · rintro p - _ ⟨_, _, rfl⟩
    rfl
  · intro p _
    exact ⟨_, _, rfl⟩
  · exact ⟨none, .unset, rfl⟩

end LabelSet

/-! ### What a node adds to a list -/

/-- Recording what was emitted appends these fragments, numbered on, and reports nothing. -/
def FragmentList.Appends (list : FragmentList α) (emitted : List (Emission α))
    (fragments : List (Fragment α)) : Prop :=
  let out := emitted.foldl FragmentList.record list
  out.fragments.toList = list.fragments.toList ++ numbered list.nextIndex fragments ∧
    out.problems.toList = list.problems.toList

omit [Scalar α] in
theorem FragmentList.appends_map (list : FragmentList α) (fragments : List (Fragment α)) :
    list.Appends (fragments.map .fragment) fragments := by
  have hfragments : (fragments.map Emission.fragment).filterMap Emission.fragment? = fragments := by
    rw [List.filterMap_map]
    exact List.filterMap_some
  have hproblems : (fragments.map Emission.fragment).filterMap Emission.problem? = [] := by
    rw [List.filterMap_map, List.filterMap_eq_nil_iff]
    exact fun _ _ => rfl
  obtain ⟨hout, hreported, -⟩ := foldl_record (fragments.map Emission.fragment) list
  rw [hfragments] at hout
  rw [hproblems, List.append_nil] at hreported
  exact ⟨hout, hreported⟩

/-- **Items are drawn one by one.** Connected lines, segments, markers and labels append the list of
their items' own fragments, in order, without the items that are not finite once placed. Drawing all
items with one fragment gives that list too. -/
theorem Node.emissions_itemwise (frame : Frame α) (id : NodeId) (list : FragmentList α) :
    (∀ l : Polyline α,
      list.Appends ((Node.polyline l).emissions frame id) (l.itemFragments frame id) ∧
        l.inPlaceFragments frame id = l.itemFragments frame id) ∧
    (∀ set : SegmentSet α,
      list.Appends ((Node.segments set).emissions frame id) (set.itemFragments frame id) ∧
        set.inPlaceFragments frame id = set.itemFragments frame id) ∧
    (∀ s : Scatter α,
      list.Appends ((Node.scatter s).emissions frame id) (s.itemFragments frame id) ∧
        s.inPlaceFragments frame id = s.itemFragments frame id) ∧
    ∀ l : LabelSet α,
      list.Appends ((Node.labels l).emissions frame id) (l.itemFragments frame id) ∧
        l.inPlaceFragments frame id = l.itemFragments frame id := by
  refine ⟨fun l => ?_, fun set => ?_, fun s => ?_, fun l => ?_⟩
  · rw [emissions, l.inPlaceFragments_eq, l.fragments_eq]
    exact ⟨list.appends_map _, rfl⟩
  · rw [emissions, set.inPlaceFragments_eq, set.fragments_eq]
    exact ⟨list.appends_map _, rfl⟩
  · rw [emissions, s.inPlaceFragments_eq, s.fragments_eq]
    exact ⟨list.appends_map _, rfl⟩
  · rw [emissions, l.inPlaceFragments_eq, l.fragments_eq]
    exact ⟨list.appends_map _, rfl⟩

end PainterScene
