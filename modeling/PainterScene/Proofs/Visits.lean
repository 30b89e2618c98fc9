import PainterScene.Proofs.Flattening

/-!
# The leaves that a pass visits

A pass follows every route down from a node, until it meets a group that faces away or has gone
down as many levels as the scene has nodes. What it appends is what the leaves emit where it ends.
Without cycles no route is cut off, and the leaves visited are those below groups that all show.
-/

namespace PainterScene

variable {α : Type} [Scalar α]

namespace Scene

variable {scene : Scene α} {id : NodeId} {frame : Frame α} {f : Fragment α} {leaf : Leaf α}

/-- A pass from `id` comes to the leaf: a route leads there, no longer than there are nodes, and
every group on the way shows. -/
def Visits (scene : Scene α) (id : NodeId) (frame : Frame α) (leaf : Leaf α) : Prop :=
  ∃ route : List Nat, route.length ≤ scene.size ∧ scene.leafAt? id route = some leaf ∧
    frame.Shows leaf.above

/-- Without cycles the length of a route need not be bounded. -/
theorem Acyclic.visits_iff (hscene : scene.Acyclic) :
    scene.Visits id frame leaf ↔
      (∃ route, scene.leafAt? id route = some leaf) ∧ frame.Shows leaf.above := by
  constructor
  · rintro ⟨route, -, hleaf, hshows⟩
    exact ⟨⟨route, hleaf⟩, hshows⟩
  · rintro ⟨⟨route, hleaf⟩, hshows⟩
    refine ⟨route, ?_, hleaf, hshows⟩
    calc route.length
        ≤ (scene.met id).card := hscene.length_le_card_met (leafAt?_eq_some_iff.mp hleaf).1
      _ ≤ scene.size := scene.card_met_le id

omit [Scalar α] in
theorem leafAt?_of_unknown (hnode : scene.node? id = none) (route : List Nat) :
    scene.leafAt? id route = none := by
  cases route with
  | nil => simp [leafAt?, follow, hnode]
  | cons k route =>
      have hgroup : scene.group? id = none := by
        unfold group?
        rw [hnode]
      simp [leafAt?, follow, hgroup]

/-- Down to a number of levels, a node emits what the leaves at the ends of shorter routes emit. -/
theorem mem_emissionsWithin_iff {depth : Nat} :
    .fragment f ∈ scene.emissionsWithin depth id frame ↔
      ∃ route leaf, route.length < depth ∧ scene.leafAt? id route = some leaf ∧
        .fragment f ∈ leaf.emissions frame := by
  induction depth generalizing id frame with
  | zero => simp [emissionsWithin]
  | succ depth ih =>
      obtain hnode | ⟨group, hgroup⟩ | ⟨node, hnode, hshape⟩ := scene.node_cases id
      · simp [emissionsWithin_unknown hnode, leafAt?_of_unknown hnode]
      · rw [emissionsWithin_group hgroup]
        -- the head of a route picks the child, and the child's leaves lie one level less deep
        constructor
        · intro hf
          split at hf
          · rename_i hvisible
            obtain ⟨child, hchild, hf⟩ := List.mem_flatMap.mp hf
            obtain ⟨k, hk⟩ := List.getElem?_of_mem hchild
            obtain ⟨route, lower, hlength, hlower, hf⟩ := ih.mp hf
            refine ⟨k :: route, lower.under group, Nat.succ_lt_succ hlength, ?_, ?_⟩
            · exact (leafAt?_cons_eq_some_iff hgroup).mpr ⟨child, lower, hk, hlower, rfl⟩
            · rwa [Leaf.emissions_under, if_pos hvisible]
          · simp at hf
        · rintro ⟨route, leaf, hlength, hleaf, hf⟩
          cases route with
          | nil =>
              rw [leafAt?_nil_of_group hgroup] at hleaf
              cases hleaf
          | cons k route =>
              obtain ⟨child, lower, hk, hlower, rfl⟩ := (leafAt?_cons_eq_some_iff hgroup).mp hleaf
              rw [Leaf.emissions_under] at hf
              split at hf
              · rename_i hvisible
                rw [if_pos hvisible]
                refine List.mem_flatMap.mpr ⟨child, List.mem_of_getElem? hk, ih.mpr ?_⟩
                exact ⟨route, lower, Nat.lt_of_succ_lt_succ hlength, hlower, hf⟩
              · cases hf
      · have hleaf := (listsLeaves_shape hnode hshape).mem_iff
        have hshows : frame.Shows [] := fun i => i.elim0
        have hemits : (⟨[], id, node⟩ : Leaf α).emissions frame = node.emissions frame id :=
          if_pos hshows
        rw [emissionsWithin_shape hnode hshape, ← hemits]
        constructor
        · intro hf
          exact ⟨[], ⟨[], id, node⟩, Nat.succ_pos _, (hleaf _ _).mp (List.mem_singleton_self _), hf⟩
        · rintro ⟨route, leaf, -, hroute, hf⟩
          cases List.mem_singleton.mp ((hleaf route leaf).mpr hroute)
          exact hf

/-- A pass emits the fragments of the leaves that it visits. -/
theorem mem_emissions_iff : .fragment f ∈ scene.emissions id frame ↔
    ∃ leaf, scene.Visits id frame leaf ∧
      .fragment f ∈ leaf.shape.emissions (frame.within leaf.above) leaf.id := by
  rw [emissions, mem_emissionsWithin_iff]
  constructor
  · rintro ⟨route, leaf, hlength, hleaf, hf⟩
    unfold Leaf.emissions at hf
    split at hf
    · exact ⟨leaf, ⟨route, Nat.le_of_lt_succ hlength, hleaf, ‹_›⟩, hf⟩
    · cases hf
  · rintro ⟨leaf, ⟨route, hlength, hleaf, hshows⟩, hf⟩
    refine ⟨route, leaf, Nat.lt_succ_of_le hlength, hleaf, ?_⟩
    rwa [Leaf.emissions, if_pos hshows]

/-! ### What a pass appends -/

def appended (scene : Scene α) (id : NodeId) (frame : Frame α) (list : FragmentList α) :
    List (Fragment α) :=
  (scene.emitInto id frame list).fragments.toList.drop list.size

theorem appended_eq (scene : Scene α) (id : NodeId) (frame : Frame α) (list : FragmentList α) :
    scene.appended id frame list = FragmentList.numbered list.nextIndex
      ((scene.emissions id frame).filterMap Emission.fragment?) := by
  rw [appended, emitInto, (FragmentList.foldl_record _ list).1]
  exact List.drop_left

omit [Scalar α] in
theorem mem_filterMap_fragment? {emitted : List (Emission α)} :
    f ∈ emitted.filterMap Emission.fragment? ↔ .fragment f ∈ emitted := by
  rw [List.mem_filterMap]
  constructor
  · rintro ⟨e, he, hf⟩
    cases e with
    | fragment g =>
        cases hf
        exact he
    | problem p => cases hf
    | culled id => cases hf
  · intro hf
    exact ⟨_, hf, rfl⟩

/-- A fragment that a pass appends is one that a leaf emits where the pass visits it, numbered. -/
theorem exists_emission_of_mem_appended {list : FragmentList α}
    (hf : f ∈ scene.appended id frame list) :
    ∃ leaf g index, scene.Visits id frame leaf ∧
      .fragment g ∈ leaf.shape.emissions (frame.within leaf.above) leaf.id ∧
        f = { g with creationIndex := index } := by
  rw [appended_eq, FragmentList.numbered, List.mem_mapIdx] at hf
  obtain ⟨k, hk, rfl⟩ := hf
  obtain ⟨leaf, hvisits, hg⟩ := mem_emissions_iff.mp
    (mem_filterMap_fragment?.mp (List.getElem_mem hk))
  exact ⟨leaf, _, _, hvisits, hg, rfl⟩

theorem exists_mem_appended (hvisits : scene.Visits id frame leaf)
    (hf : .fragment f ∈ leaf.shape.emissions (frame.within leaf.above) leaf.id)
    (list : FragmentList α) :
    ∃ index, { f with creationIndex := index } ∈ scene.appended id frame list := by
  have hmem : f ∈ (scene.emissions id frame).filterMap Emission.fragment? :=
    mem_filterMap_fragment?.mpr (mem_emissions_iff.mpr ⟨leaf, hvisits, hf⟩)
  obtain ⟨k, hk, rfl⟩ := List.getElem_of_mem hmem
  rw [appended_eq, FragmentList.numbered]
  exact ⟨_, List.mem_mapIdx.mpr ⟨k, hk, rfl⟩⟩

end Scene

end PainterScene
