import PainterScene.Proofs.Accesses
import PainterScene.Proofs.Visits

/-!
# Nodes that cannot be drawn

A node whose data do not fit together reports that and does nothing else. In the scene where an
empty group stands in its place, a pass visits the same leaves but this one, in the same frames and
in the same order. So all other nodes give the same fragments under the same numbers, and each visit
of the node costs one problem where the visit happens.
-/

namespace PainterScene

variable {α : Type}

namespace Node

variable {node : Node α} {p : Problem}

def problem? : Node α → Option Problem
  | heightField m => m.problem?
  | cellSurface m => m.problem?
  | _ => none

/-- The data of a node fit together: a grid has a height for each place, or three different axes and
one value for each cell. -/
def FitsTogether : Node α → Prop
  | heightField m => m.rows * m.columns ≤ m.heights.size
  | cellSurface m => Axis.isPermutation m.valueAxis m.axis1 m.axis2 = true ∧
      m.values.size = m.cells1 * m.cells2
  | _ => True

/-- Where words can count the places, a node reports a problem exactly when its data do not fit
together. -/
theorem Countable.problem?_eq_none_iff (hcount : node.Countable) :
    node.problem? = none ↔ node.FitsTogether := by
  cases node with
  | heightField m => exact HeightField.Countable.problem?_eq_none_iff hcount
  | cellSurface m =>
      have hcells : m.cellCount = m.cells1 * m.cells2 :=
        Word.wrap_of_lt (CellSurface.Countable.cells_lt hcount)
      simp only [problem?, FitsTogether, CellSurface.problem?_eq_none_iff, hcells]
  | _ => exact iff_of_true rfl trivial

theorem isGroup_of_problem? (hp : node.problem? = some p) : node.isGroup = false := by
  cases node with
  | group => cases hp
  | _ => rfl

variable [Scalar α] {frame : Frame α} {id : NodeId}

/-- A node with a problem emits the problem and nothing else. -/
theorem emissions_of_problem? (hp : node.problem? = some p) :
    node.emissions frame id = [.problem p] := by
  cases node with
  | heightField m =>
      simp only [problem?] at hp
      simp only [emissions, HeightField.fragments, hp, Emission.ofResult]
  | cellSurface m =>
      simp only [problem?] at hp
      simp only [emissions, CellSurface.fragments, hp, Emission.ofResult]
  | _ => cases hp

theorem filterMap_problem?_of_none (hnone : node.problem? = none) (frame : Frame α)
    (id : NodeId) : (node.emissions frame id).filterMap Emission.problem? = [] := by
  have hfragments : ∀ fragments : List (Fragment α),
      (fragments.map Emission.fragment).filterMap Emission.problem? = [] := by
    intro fragments
    simp [List.filterMap_map, Function.comp_def, Emission.problem?]
  cases node with
  | heightField m =>
      simp only [problem?] at hnone
      simp only [emissions, HeightField.fragments, hnone, Emission.ofResult, hfragments]
  | cellSurface m =>
      simp only [problem?] at hnone
      simp only [emissions, CellSurface.fragments, hnone, Emission.ofResult, hfragments]
  | group => rfl
  | _ => exact hfragments _

/-- A node reports the one problem that it has. -/
theorem filterMap_problem?_emissions (node : Node α) (frame : Frame α) (id : NodeId) :
    (node.emissions frame id).filterMap Emission.problem? = node.problem?.toList := by
  cases hp : node.problem? with
  | none => exact filterMap_problem?_of_none hp frame id
  | some p => rw [emissions_of_problem? hp]; rfl

end Node

variable [Scalar α]

namespace Scene

variable {scene : Scene α} {id x : NodeId} {frame : Frame α} {visits : List (List Nat × Leaf α)}

/-! ### The visits of a pass, in order -/

/-- The leaves that a pass comes to, with the routes to them, in the order of the visits. -/
structure ListsVisits (scene : Scene α) (id : NodeId) (frame : Frame α)
    (visits : List (List Nat × Leaf α)) : Prop where
  inOrder : visits.Pairwise fun a b => a.1 < b.1
  mem_iff : ∀ route leaf, (route, leaf) ∈ visits ↔
    scene.leafAt? id route = some leaf ∧ frame.Shows leaf.above

/-- There is one list of the visits. -/
theorem ListsVisits.unique {visits' : List (List Nat × Leaf α)}
    (hvisits : scene.ListsVisits id frame visits) (hvisits' : scene.ListsVisits id frame visits') :
    visits = visits' := by
  have hnodup : ∀ {l : List (List Nat × Leaf α)}, (l.Pairwise fun a b => a.1 < b.1) → l.Nodup := by
    intro l hl
    apply hl.imp
    rintro a _ hlt rfl
    exact lt_irrefl _ hlt
  apply List.Perm.eq_of_pairwise _ hvisits.inOrder hvisits'.inOrder
  · apply (List.perm_ext_iff_of_nodup (hnodup hvisits.inOrder) (hnodup hvisits'.inOrder)).mpr
    rintro ⟨route, leaf⟩
    rw [hvisits.mem_iff, hvisits'.mem_iff]
  · intro a b _ _ hab hba
    exact absurd hba hab.asymm

theorem ListsLeaves.listsVisits {leaves : List (List Nat × Leaf α)}
    (hleaves : scene.ListsLeaves id leaves) (frame : Frame α) :
    scene.ListsVisits id frame (leaves.filter fun entry => frame.Shows entry.2.above) where
  inOrder := hleaves.inOrder.filter _
  mem_iff route leaf := by
    rw [List.mem_filter, hleaves.mem_iff, decide_eq_true_iff]

theorem listsVisits_of_unknown (hnode : scene.node? id = none) :
    scene.ListsVisits id frame [] where
  inOrder := List.Pairwise.nil
  mem_iff route leaf := by
    simp [leafAt?_of_unknown hnode]

theorem Acyclic.exists_visits (hscene : scene.Acyclic) (id : NodeId) (frame : Frame α) :
    ∃ visits, scene.ListsVisits id frame visits := by
  by_cases hid : id.index < scene.size
  · obtain ⟨leaves, hleaves, -⟩ := hscene.exists_leaves id hid
    exact ⟨_, hleaves.listsVisits frame⟩
  · exact ⟨[], listsVisits_of_unknown (node?_eq_none_iff.mpr (not_lt.mp hid))⟩

def missing (scene : Scene α) (id : NodeId) : List Problem :=
  if id.index < scene.size then [] else [.unknownNode id]

/-- What a pass shows, skipped groups apart, is what the visited leaves show one after the other. -/
theorem Acyclic.filterMap_emissions (hscene : scene.Acyclic)
    (hvisits : scene.ListsVisits id frame visits) {β : Type} (view : Emission α → Option β)
    (hculled : ∀ id, view (.culled id) = none) :
    (scene.emissions id frame).filterMap view =
      ((scene.missing id).map .problem).filterMap view ++ visits.flatMap fun visit =>
        (visit.2.shape.emissions (frame.within visit.2.above) visit.2.id).filterMap view := by
  by_cases hid : id.index < scene.size
  · obtain ⟨leaves, hleaves, hview⟩ := hscene.exists_leaves id hid
    rw [hvisits.unique (hleaves.listsVisits frame), flatMap_filter, hview view hculled,
      missing, if_pos hid]
    apply List.flatMap_congr
    intro entry _
    by_cases hshows : frame.Shows entry.2.above
    · simp [Leaf.emissions, hshows]
    · simp [Leaf.emissions, hshows]
  · have hnode := node?_eq_none_iff.mpr (not_lt.mp hid)
    rw [hvisits.unique (listsVisits_of_unknown hnode), emissions_unknown hnode, missing,
      if_neg hid]
    simp

/-- A pass reports the problems of the leaves that it visits, in order, after that of its root. -/
theorem Acyclic.problems_render (hscene : scene.Acyclic) {camera : Camera α}
    (hvisits : scene.ListsVisits id camera.frame visits) :
    (scene.render id camera).problems.toList =
      scene.missing id ++ visits.flatMap fun visit => visit.2.shape.problem?.toList := by
  have hreported : (scene.render id camera).problems.toList =
      (scene.emissions id camera.frame).filterMap Emission.problem? :=
    (FragmentList.foldl_record _ .empty).2.1
  rw [hreported, hscene.filterMap_emissions hvisits Emission.problem? fun _ => rfl]
  simp [Node.filterMap_problem?_emissions, List.filterMap_map, Function.comp_def,
    Emission.problem?]

/-! ### An empty group in the place of a shape -/

section Emptied

variable {node : Node α} {empty : Group α}

omit [Scalar α]

theorem children_emptied (hx : scene.node? x = some node) (hshape : node.isGroup = false)
    (hempty : empty.children = []) (a : NodeId) :
    (scene.set x (.group empty)).children a = scene.children a := by
  by_cases ha : a = x
  · subst ha
    rw [children_of_node? (node?_set_self (index_lt_of_node? hx) _), children_of_node? hx]
    cases node with
    | group => cases hshape
    | _ => exact hempty
  · rw [children, node?_set_of_ne ha, children]

theorem Acyclic.emptied (hscene : scene.Acyclic) (hx : scene.node? x = some node)
    (hshape : node.isGroup = false) (hempty : empty.children = []) :
    (scene.set x (.group empty)).Acyclic := by
  have hsame : (scene.set x (.group empty)).HasChild = scene.HasChild := by
    funext a b
    rw [hasChild_iff, hasChild_iff, children_emptied hx hshape hempty]
  refine ⟨?_, ?_⟩
  · rw [hsame, size_set]
    exact hscene.inRange
  · rw [hsame]
    exact hscene.noCycle

/-- No route goes on from the shape, nor from the group that takes its place. -/
theorem follow_emptied (hx : scene.node? x = some node) (hshape : node.isGroup = false)
    (hempty : empty.children = []) (id : NodeId) (route : List Nat) :
    (scene.set x (.group empty)).follow id route = scene.follow id route := by
  induction route generalizing id with
  | nil => rfl
  | cons k route ih =>
      by_cases hid : id = x
      · subst hid
        have hgroup : scene.group? id = none := by
          cases node <;> simp_all [group?, Node.isGroup]
        have hgroup' : (scene.set id (.group empty)).group? id = some empty :=
          group?_eq_some_iff.mpr (node?_set_self (index_lt_of_node? hx) _)
        simp [follow, hgroup, hgroup', hempty]
      · have hgroup : (scene.set x (.group empty)).group? id = scene.group? id := by
          rw [group?, node?_set_of_ne hid, group?]
        simp only [follow, hgroup, ih]

theorem leafAt?_emptied (hx : scene.node? x = some node) (hshape : node.isGroup = false)
    (hempty : empty.children = []) {route : List Nat} {leaf : Leaf α} :
    (scene.set x (.group empty)).leafAt? id route = some leaf ↔
      scene.leafAt? id route = some leaf ∧ leaf.id ≠ x := by
  rw [leafAt?_eq_some_iff, leafAt?_eq_some_iff, follow_emptied hx hshape hempty]
  by_cases hleaf : leaf.id = x
  · rw [hleaf, node?_set_self (index_lt_of_node? hx)]
    constructor
    · rintro ⟨-, hgroup, hnot⟩
      rw [← Option.some.inj hgroup] at hnot
      cases hnot
    · rintro ⟨-, hne⟩
      exact absurd rfl hne
  · rw [node?_set_of_ne hleaf]
    simp [hleaf]

end Emptied

/-- With an empty group in the place of a leaf, only the visits of that leaf are gone. -/
theorem ListsVisits.emptied {node : Node α} {empty : Group α}
    (hvisits : scene.ListsVisits id frame visits) (hx : scene.node? x = some node)
    (hshape : node.isGroup = false) (hempty : empty.children = []) :
    (scene.set x (.group empty)).ListsVisits id frame
      (visits.filter fun visit => visit.2.id ≠ x) where
  inOrder := hvisits.inOrder.filter _
  mem_iff route leaf := by
    rw [List.mem_filter, hvisits.mem_iff, leafAt?_emptied hx hshape hempty, decide_eq_true_iff]
    tauto

theorem ListsVisits.shape_eq {visit : List Nat × Leaf α} {node : Node α}
    (hvisits : scene.ListsVisits id frame visits) (hvisit : visit ∈ visits)
    (hx : scene.node? x = some node) (hid : visit.2.id = x) : visit.2.shape = node := by
  have hleaf := ((hvisits.mem_iff visit.1 visit.2).mp hvisit).1
  have hshape := (leafAt?_eq_some_iff.mp hleaf).2.1
  rw [hid, hx] at hshape
  exact (Option.some.inj hshape).symm

/-- The visits of a node with a problem have no fragments, so none are missed. -/
theorem Acyclic.fragments_emptied (hscene : scene.Acyclic) {node : Node α} {p : Problem}
    {empty : Group α} (hx : scene.node? x = some node) (hp : node.problem? = some p)
    (hempty : empty.children = []) (frame : Frame α) :
    ((scene.set x (.group empty)).emissions id frame).filterMap Emission.fragment? =
      (scene.emissions id frame).filterMap Emission.fragment? := by
  have hshape := Node.isGroup_of_problem? hp
  obtain ⟨visits, hvisits⟩ := hscene.exists_visits id frame
  rw [(hscene.emptied hx hshape hempty).filterMap_emissions (hvisits.emptied hx hshape hempty)
      Emission.fragment? fun _ => rfl,
    hscene.filterMap_emissions hvisits Emission.fragment? fun _ => rfl, flatMap_filter, missing,
    size_set, ← missing]
  congr 1
  apply List.flatMap_congr
  intro visit hvisit
  by_cases hid : visit.2.id = x
  · rw [hvisits.shape_eq hvisit hx hid, Node.emissions_of_problem? hp]
    simp [hid, Emission.fragment?]
  · simp [hid]

theorem Acyclic.fragments_render_emptied (hscene : scene.Acyclic) {node : Node α} {p : Problem}
    {empty : Group α} (hx : scene.node? x = some node) (hp : node.problem? = some p)
    (hempty : empty.children = []) (root : NodeId) (camera : Camera α) :
    ((scene.set x (.group empty)).render root camera).fragments =
      (scene.render root camera).fragments := by
  apply Array.ext'
  calc ((scene.set x (.group empty)).render root camera).fragments.toList
      = FragmentList.numbered 0 (((scene.set x (.group empty)).emissions root
          camera.frame).filterMap Emission.fragment?) :=
        (FragmentList.foldl_record _ .empty).1
    _ = FragmentList.numbered 0
          ((scene.emissions root camera.frame).filterMap Emission.fragment?) := by
        rw [hscene.fragments_emptied hx hp hempty]
    _ = (scene.render root camera).fragments.toList :=
        (FragmentList.foldl_record _ .empty).1.symm

/-- A pass reports nothing exactly if it starts in the scene and all it meets fits together. -/
theorem Acyclic.problems_render_eq_empty_iff (hscene : scene.Acyclic) (hcount : scene.Countable)
    (root : NodeId) (camera : Camera α) :
    (scene.render root camera).problems = #[] ↔ root.index < scene.size ∧
      ∀ leaf, scene.Visits root camera.frame leaf → leaf.shape.FitsTogether := by
  obtain ⟨visits, hvisits⟩ := hscene.exists_visits root camera.frame
  have hleaves : ∀ route leaf, scene.leafAt? root route = some leaf →
      (leaf.shape.problem? = none ↔ leaf.shape.FitsTogether) := fun _ _ hleaf =>
    (hcount.node (leafAt?_eq_some_iff.mp hleaf).2.1).problem?_eq_none_iff
  rw [← Array.toList_eq_nil_iff, hscene.problems_render hvisits, List.append_eq_nil_iff,
    List.flatMap_eq_nil_iff]
  apply and_congr
  · by_cases hroot : root.index < scene.size
    · simp [missing, hroot]
    · simp [missing, hroot]
  · simp only [Option.toList_eq_nil_iff, Prod.forall, hvisits.mem_iff, hscene.visits_iff]
    constructor
    · rintro hnone leaf ⟨⟨route, hleaf⟩, hshows⟩
      exact (hleaves route leaf hleaf).mp (hnone route leaf ⟨hleaf, hshows⟩)
    · rintro hfits route leaf ⟨hleaf, hshows⟩
      exact (hleaves route leaf hleaf).mpr (hfits leaf ⟨⟨route, hleaf⟩, hshows⟩)

/-- A grid with too few heights is hung up twice, around a stroke and before a surface whose axes
are wrong. -/
def shelf : Scene ℚ where
  nodes := #[
    .group { transform := .identity, children := [⟨3⟩, ⟨1⟩, ⟨4⟩] },
    .group { transform := .shift ⟨0, 1, 0⟩, children := [⟨2⟩, ⟨3⟩] },
    .polyline { points := [⟨0, 0, -1⟩, ⟨1, 0, -2⟩] },
    .heightField { positions1 := #[0, 1], positions2 := #[0, 1], heights := #[0] },
    .cellSurface {}]

end Scene

end PainterScene
