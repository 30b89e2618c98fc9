import PainterScene.Proofs.Generation
import PainterScene.Proofs.Routes
import PainterScene.Scalar.Rational

/-!
# A pass as one flat list of leaves

In an acyclic scene a pass from a node appends what each leaf below the node emits on its own, leaf
by leaf in the order of their routes. The frame of a leaf is the product of the transforms on the
way down, from the outermost. A leaf below a group that faces away contributes nothing.
-/

namespace PainterScene

variable {α : Type}

theorem pairwise_snd_zipIdx {β : Type} (l : List β) : l.zipIdx.Pairwise fun a b => a.2 < b.2 := by
  rw [← List.pairwise_map, List.zipIdx_map_snd]
  exact List.pairwise_lt_range' _

/-- A shape, with the groups that a route passes on the way down to it. -/
structure Leaf (α : Type) where
  above : List (Group α)
  id : NodeId
  shape : Node α
deriving DecidableEq

def Leaf.under (group : Group α) (leaf : Leaf α) : Leaf α :=
  { leaf with above := group :: leaf.above }

namespace Scene

def leafAt? (scene : Scene α) (id : NodeId) (route : List Nat) : Option (Leaf α) := do
  let (above, last) ← scene.follow id route
  let shape ← scene.node? last
  if shape.isGroup then none else some ⟨above, last, shape⟩

/-- The leaves below a node, each once for every route to it, in the order of a depth-first walk. -/
structure ListsLeaves (scene : Scene α) (id : NodeId) (leaves : List (List Nat × Leaf α)) :
    Prop where
  inOrder : leaves.Pairwise fun a b => a.1 < b.1
  mem_iff : ∀ route leaf, (route, leaf) ∈ leaves ↔ scene.leafAt? id route = some leaf

variable {scene : Scene α} {id : NodeId}

theorem leafAt?_eq_some_iff {route : List Nat} {leaf : Leaf α} :
    scene.leafAt? id route = some leaf ↔
      scene.follow id route = some (leaf.above, leaf.id) ∧
        scene.node? leaf.id = some leaf.shape ∧ leaf.shape.isGroup = false := by
  simp only [leafAt?, bind, Option.bind_eq_some_iff, Prod.exists]
  constructor
  · rintro ⟨above, last, hfollow, shape, hshape, hleaf⟩
    split at hleaf
    · cases hleaf
    · cases hleaf
      exact ⟨hfollow, hshape, by simp_all⟩
  · rintro ⟨hfollow, hshape, hgroup⟩
    exact ⟨leaf.above, leaf.id, hfollow, leaf.shape, hshape, by simp [hgroup]⟩

theorem leafAt?_cons_eq_some_iff {group : Group α} (hgroup : scene.group? id = some group)
    {k : Nat} {route : List Nat} {leaf : Leaf α} :
    scene.leafAt? id (k :: route) = some leaf ↔
      ∃ child lower, group.children[k]? = some child ∧ scene.leafAt? child route = some lower ∧
        leaf = lower.under group := by
  simp only [leafAt?_eq_some_iff, follow_cons_eq_some_iff, hgroup, Option.some.injEq]
  constructor
  · rintro ⟨⟨_, child, rest, rfl, hchild, hfollow, habove⟩, hshape⟩
    refine ⟨child, ⟨rest, leaf.id, leaf.shape⟩, hchild, ⟨hfollow, hshape⟩, ?_⟩
    rw [Leaf.under, ← habove]
  · rintro ⟨child, lower, hchild, ⟨hfollow, hshape⟩, rfl⟩
    exact ⟨⟨group, child, lower.above, rfl, hchild, hfollow, rfl⟩, hshape⟩

theorem leafAt?_nil_of_group {group : Group α} (hgroup : scene.group? id = some group) :
    scene.leafAt? id [] = none := by
  rw [group?_eq_some_iff] at hgroup
  simp [leafAt?, follow, hgroup, Node.isGroup]

theorem listsLeaves_shape {node : Node α} (hnode : scene.node? id = some node)
    (hshape : node.isGroup = false) : scene.ListsLeaves id [([], ⟨[], id, node⟩)] where
  inOrder := List.pairwise_singleton _ _
  mem_iff := by
    intro route leaf
    rw [List.mem_singleton, Prod.mk.injEq]
    cases route with
    | nil =>
        simp only [leafAt?, follow, bind, Option.bind_some, hnode, hshape, true_and]
        simpa using eq_comm
    | cons k route =>
        have hgroup : scene.group? id = none := by
          cases node <;> simp_all [group?, Node.isGroup]
        simp [leafAt?, follow, hgroup]

def leavesBelow (group : Group α) (leaves : NodeId → List (List Nat × Leaf α)) :
    List (List Nat × Leaf α) :=
  group.children.zipIdx.flatMap fun child =>
    (leaves child.1).map fun entry => (child.2 :: entry.1, entry.2.under group)

/-- The leaves below a group are those below its children, child by child. -/
theorem listsLeaves_group {group : Group α} (hgroup : scene.group? id = some group)
    {leaves : NodeId → List (List Nat × Leaf α)}
    (hleaves : ∀ child ∈ group.children, scene.ListsLeaves child (leaves child)) :
    scene.ListsLeaves id (leavesBelow group leaves) where
  inOrder := by
    rw [leavesBelow, List.pairwise_flatMap]
    constructor
    · intro child hchild
      rw [List.pairwise_map]
      have hinner := (hleaves child.1 (List.fst_mem_of_mem_zipIdx hchild)).inOrder
      exact hinner.imp fun hlt => List.cons_lt_cons_iff.mpr (Or.inr ⟨rfl, hlt⟩)
    · refine (pairwise_snd_zipIdx group.children).imp ?_
      intro first second hlt a ha b hb
      obtain ⟨a, -, rfl⟩ := List.mem_map.mp ha
      obtain ⟨b, -, rfl⟩ := List.mem_map.mp hb
      exact List.cons_lt_cons_iff.mpr (Or.inl hlt)
  mem_iff := by
    intro route leaf
    simp only [leavesBelow, List.mem_flatMap, List.mem_map, Prod.exists, Prod.mk.injEq,
      List.mem_zipIdx_iff_getElem?]
    cases route with
    | nil => simp [leafAt?_nil_of_group hgroup]
    | cons k route =>
        rw [leafAt?_cons_eq_some_iff hgroup]
        constructor
        · rintro ⟨child, position, hchild, tail, lower, hmem, hroute, rfl⟩
          cases hroute
          have hlists := hleaves child (List.mem_of_getElem? hchild)
          exact ⟨child, lower, hchild, (hlists.mem_iff _ _).mp hmem, rfl⟩
        · rintro ⟨child, lower, hchild, hlower, rfl⟩
          have hlists := hleaves child (List.mem_of_getElem? hchild)
          exact ⟨child, k, hchild, route, lower, (hlists.mem_iff _ _).mpr hlower, rfl, rfl⟩

end Scene

/-! ### What a list records -/

namespace Emission

def fragment? : Emission α → Option (Fragment α)
  | fragment f => some f
  | _ => none

def problem? : Emission α → Option Problem
  | problem p => some p
  | _ => none

end Emission

/-- The fragments under consecutive creation indices from `start`, modulo `2 ^ 32`. -/
def FragmentList.numbered (start : UInt32) (fragments : List (Fragment α)) : List (Fragment α) :=
  fragments.mapIdx fun k f => { f with creationIndex := start + UInt32.ofNat k }

namespace FragmentList

theorem numbered_cons (start : UInt32) (f : Fragment α) (fragments : List (Fragment α)) :
    numbered start (f :: fragments) =
      { f with creationIndex := start } :: numbered (start + 1) fragments := by
  simp only [numbered, List.mapIdx_cons, UInt32.ofNat_add]
  congr 1
  · simp
  · congr 1
    funext k g
    rw [UInt32.add_assoc, UInt32.add_comm 1]
    rfl

/-- Another start shifts all creation indices alike. -/
theorem numbered_eq_map (start : UInt32) (fragments : List (Fragment α)) :
    numbered start fragments =
      (numbered 0 fragments).map fun f => { f with creationIndex := start + f.creationIndex } := by
  simp [numbered, List.mapIdx_eq_zipIdx_map]

/-- Recording appends the fragments, numbered from the next index on, and the problems. -/
theorem foldl_record (emitted : List (Emission α)) (list : FragmentList α) :
    let out := emitted.foldl record list
    out.fragments.toList =
        list.fragments.toList ++ numbered list.nextIndex (emitted.filterMap Emission.fragment?) ∧
      out.problems.toList = list.problems.toList ++ emitted.filterMap Emission.problem? ∧
      out.nextIndex =
        list.nextIndex + UInt32.ofNat (emitted.filterMap Emission.fragment?).length := by
  induction emitted generalizing list with
  | nil => simp [numbered]
  | cons e emitted ih =>
      obtain ⟨hfragments, hproblems, hnext⟩ := ih (list.record e)
      simp only [List.foldl_cons, hfragments, hproblems, hnext]
      cases e with
      | fragment f =>
          simp [record, push, List.filterMap_cons, Emission.fragment?, Emission.problem?,
            numbered_cons, UInt32.ofNat_add, UInt32.add_assoc, UInt32.add_comm 1]
      | problem p =>
          simp [record, report, List.filterMap_cons, Emission.fragment?, Emission.problem?]
      | culled id => simp [record, List.filterMap_cons, Emission.fragment?, Emission.problem?]

end FragmentList

variable [Scalar α]

/-! ### Frames below several groups -/

def Frame.within (frame : Frame α) (groups : List (Group α)) : Frame α :=
  { frame with outer := (groups.map Group.transform).foldl (· * ·) frame.outer }

/-- Every group on the way down is visible in the frame below its own transform. -/
def Frame.Shows (frame : Frame α) (groups : List (Group α)) : Prop :=
  ∀ i : Fin groups.length, (groups.get i).isVisible (frame.within (groups.take (i + 1))) = true

instance (frame : Frame α) (groups : List (Group α)) : Decidable (frame.Shows groups) :=
  inferInstanceAs (Decidable (∀ _, _))

theorem Frame.within_cons (frame : Frame α) (group : Group α) (groups : List (Group α)) :
    frame.within (group :: groups) = (frame.enter group.transform).within groups :=
  rfl

theorem Frame.shows_cons_iff {frame : Frame α} {group : Group α} {groups : List (Group α)} :
    frame.Shows (group :: groups) ↔
      group.isVisible (frame.enter group.transform) = true ∧
        (frame.enter group.transform).Shows groups :=
  Fin.forall_fin_succ

def Leaf.emissions (leaf : Leaf α) (frame : Frame α) : List (Emission α) :=
  if frame.Shows leaf.above then leaf.shape.emissions (frame.within leaf.above) leaf.id else []

/-- A group further up either moves the frame of a leaf or silences it. -/
theorem Leaf.emissions_under (leaf : Leaf α) (group : Group α) (frame : Frame α) :
    (leaf.under group).emissions frame =
      if group.isVisible (frame.enter group.transform) then
        leaf.emissions (frame.enter group.transform)
      else [] := by
  by_cases hvisible : group.isVisible (frame.enter group.transform) = true
  · simp [emissions, under, Frame.shows_cons_iff, Frame.within_cons, hvisible]
  · simp [emissions, under, Frame.shows_cons_iff, hvisible]

theorem Leaf.source_eq {leaf : Leaf α} {frame : Frame α} {f : Fragment α}
    (hf : .fragment f ∈ leaf.emissions frame) : f.source = some leaf.id ∧ f.splitCount = 0 := by
  unfold emissions at hf
  split at hf
  · obtain ⟨item, -, hdraws, -⟩ := Node.exists_item hf
    exact ⟨hdraws.source_eq, hdraws.splitCount_eq⟩
  · cases hf

/-! ### The pass -/

namespace Scene

variable {scene : Scene α} {id : NodeId} {β : Type}

theorem filterMap_emissions_group (hscene : scene.Acyclic) {group : Group α}
    (hgroup : scene.group? id = some group) {leaves : NodeId → List (List Nat × Leaf α)}
    (view : Emission α → Option β) (hculled : ∀ id, view (.culled id) = none) (frame : Frame α)
    (hleaves : ∀ child ∈ group.children, ∀ frame,
      (scene.emissions child frame).filterMap view =
        (leaves child).flatMap fun entry => (entry.2.emissions frame).filterMap view) :
    (scene.emissions id frame).filterMap view =
      (leavesBelow group leaves).flatMap fun entry =>
        (entry.2.emissions frame).filterMap view := by
  simp only [hscene.emissions_group hgroup, leavesBelow, List.flatMap_assoc, List.flatMap_map,
    Leaf.emissions_under]
  by_cases hvisible : group.isVisible (frame.enter group.transform) = true
  · simp only [hvisible, if_true, List.filterMap_flatMap]
    rw [List.flatMap_congr fun child hchild => hleaves child hchild _,
      ← List.zipIdx_map_fst 0 group.children, List.flatMap_map]
    simp
  · simp [hvisible, hculled]

/-- A view of the emissions that skipped groups do not show in is the same along the leaves. -/
theorem Acyclic.exists_leaves (hscene : scene.Acyclic) (id : NodeId) (hid : id.index < scene.size) :
    ∃ leaves, scene.ListsLeaves id leaves ∧
      ∀ {β : Type} (view : Emission α → Option β), (∀ id, view (.culled id) = none) →
        ∀ frame, (scene.emissions id frame).filterMap view =
          leaves.flatMap fun entry => (entry.2.emissions frame).filterMap view := by
  induction id using hscene.induction with
  | _ id ih =>
      obtain hnode | ⟨group, hgroup⟩ | ⟨node, hnode, hshape⟩ := scene.node_cases id
      · exact absurd hid (not_lt.mpr (node?_eq_none_iff.mp hnode))
      · have hchildren : ∀ child ∈ group.children, _ := fun child hchild =>
          ih child ⟨group, hgroup, hchild⟩ (hscene.inRange id child ⟨group, hgroup, hchild⟩)
        choose! leaves hlists hview using hchildren
        refine ⟨leavesBelow group leaves, listsLeaves_group hgroup hlists, ?_⟩
        intro β view hculled frame
        exact filterMap_emissions_group hscene hgroup view hculled frame
          fun child hchild frame => hview child hchild view hculled frame
      · refine ⟨[([], ⟨[], id, node⟩)], listsLeaves_shape hnode hshape, ?_⟩
        intro β view hculled frame
        have hshows : frame.Shows [] := fun i => i.elim0
        rw [emissions_shape hnode hshape, List.flatMap_singleton, Leaf.emissions, if_pos hshows]
        rfl

/-- A pass appends what the leaves emit in the order of their routes: fragments under consecutive
creation indices, each naming its leaf and uncut, and problems. The list it starts from matters only
through its next index. -/
theorem emitInto_flattens (hscene : scene.Acyclic) (hid : id.index < scene.size) :
    ∃ leaves, scene.ListsLeaves id leaves ∧ ∀ (frame : Frame α) (list : FragmentList α),
      let out := scene.emitInto id frame list
      let emitted := leaves.flatMap fun entry => entry.2.emissions frame
      let fragments := emitted.filterMap Emission.fragment?
      out.fragments.toList =
          list.fragments.toList ++ FragmentList.numbered list.nextIndex fragments ∧
        out.problems.toList = list.problems.toList ++ emitted.filterMap Emission.problem? ∧
        out.nextIndex = list.nextIndex + UInt32.ofNat fragments.length ∧
        (∀ entry ∈ leaves, ∀ f, .fragment f ∈ entry.2.emissions frame →
          f.source = some entry.2.id ∧ f.splitCount = 0) ∧
        out.fragments.toList.drop list.size =
          (scene.emitInto id frame .empty).fragments.toList.map fun f =>
            { f with creationIndex := list.nextIndex + f.creationIndex } := by
  obtain ⟨leaves, hlists, hview⟩ := hscene.exists_leaves id hid
  refine ⟨leaves, hlists, ?_⟩
  intro frame list out emitted fragments
  have hfragments : (scene.emissions id frame).filterMap Emission.fragment? = fragments := by
    rw [hview Emission.fragment? (fun _ => rfl) frame, ← List.filterMap_flatMap]
  have hproblems : (scene.emissions id frame).filterMap Emission.problem? =
      emitted.filterMap Emission.problem? := by
    rw [hview Emission.problem? (fun _ => rfl) frame, ← List.filterMap_flatMap]
  have hrecorded : ∀ list : FragmentList α,
      (scene.emitInto id frame list).fragments.toList =
        list.fragments.toList ++ FragmentList.numbered list.nextIndex fragments := by
    intro list
    rw [← hfragments]
    exact (FragmentList.foldl_record _ list).1
  refine ⟨hrecorded list, ?_, ?_, fun entry _ f hf => Leaf.source_eq hf, ?_⟩
  · rw [← hproblems]
    exact (FragmentList.foldl_record _ list).2.1
  · rw [← hfragments]
    exact (FragmentList.foldl_record _ list).2.2
  · calc out.fragments.toList.drop list.size
        = FragmentList.numbered list.nextIndex fragments := by
          rw [hrecorded list]
          exact List.drop_left
      _ = (FragmentList.numbered 0 fragments).map fun f =>
            { f with creationIndex := list.nextIndex + f.creationIndex } :=
          FragmentList.numbered_eq_map _ _
      _ = (scene.emitInto id frame .empty).fragments.toList.map fun f =>
            { f with creationIndex := list.nextIndex + f.creationIndex } := by
          rw [hrecorded .empty]
          rfl

/-- A group over a visible and a skipped one, which share a stroke and a grid of the wrong size. -/
def mobile : Scene ℚ where
  nodes := #[
    .group { transform := .shift ⟨1, 0, 0⟩, children := [⟨1⟩, ⟨2⟩, ⟨3⟩, ⟨4⟩] },
    .group { transform := .shift ⟨0, 1, 0⟩, facing := some ⟨0, 0, 1⟩, children := [⟨3⟩, ⟨3⟩] },
    .group { transform := .identity, facing := some ⟨0, 0, -1⟩, children := [⟨3⟩, ⟨4⟩] },
    .polyline { points := [⟨0, 0, -1⟩, ⟨1, 0, -2⟩, ⟨1, 1, -1⟩] },
    .heightField { positions1 := #[0, 1], positions2 := #[0, 1], heights := #[0] }]

theorem mobile_acyclic : mobile.Acyclic := by
  have hrises : ∀ a : Fin 5, ∀ b ∈ ((mobile.group? ⟨a⟩).map Group.children).getD [],
      b.index < mobile.size ∧ a < b.index := by
    decide +kernel
  have hchild : ∀ a b, mobile.HasChild a b → b.index < mobile.size ∧ a.index < b.index := by
    rintro ⟨a⟩ b ⟨group, hgroup, hb⟩
    have ha : a < 5 := index_lt_of_node? (group?_eq_some_iff.mp hgroup)
    exact hrises ⟨a, ha⟩ b (by simpa [hgroup] using hb)
  exact acyclic_of_rank NodeId.index (fun a b h => (hchild a b h).1) fun a b h => (hchild a b h).2

theorem mobile_flattens : mobile.Acyclic ∧
    ∃ leaves, mobile.ListsLeaves ⟨0⟩ leaves ∧
      let frame : Frame ℚ := ⟨.identity, .identity⟩
      let out := mobile.emitInto ⟨0⟩ frame .empty
      let emitted := leaves.flatMap fun entry => entry.2.emissions frame
      out.fragments.toList = FragmentList.numbered 0 (emitted.filterMap Emission.fragment?) ∧
        out.size = 6 ∧ out.problems.toList = emitted.filterMap Emission.problem? ∧
        out.problems.size = 1 := by
  have hsize : (⟨0⟩ : NodeId).index < mobile.size := by decide
  obtain ⟨leaves, hlists, hpass⟩ := emitInto_flattens mobile_acyclic hsize
  obtain ⟨hfragments, hproblems, -⟩ := hpass ⟨.identity, .identity⟩ .empty
  exact ⟨mobile_acyclic, leaves, hlists, hfragments, by decide +kernel, hproblems,
    by decide +kernel⟩

end Scene

end PainterScene
