import Mathlib
import PainterScene.Scene.Emission

/-!
# Routes through a scene

A route leads down from a node: each number picks a child of the group reached so far. Without
cycles a walk down from a child meets fewer nodes than one from its parent. This bounds the length
of every route by the number of nodes, and it carries inductions from the children of a node to the
node. The bound on the levels of a pass is therefore never met, and emissions follow the plain
recursion.
-/

namespace PainterScene.Scene

variable {α : Type} {scene : Scene α}

def HasChild (scene : Scene α) (a b : NodeId) : Prop :=
  ∃ group, scene.group? a = some group ∧ b ∈ group.children

/-- Every child exists, and no node lies below itself. -/
structure Acyclic (scene : Scene α) : Prop where
  inRange : ∀ a b, scene.HasChild a b → b.index < scene.size
  noCycle : ∀ a, ¬ Relation.TransGen scene.HasChild a a

/-- The groups that a route down from `id` passes, and the node where it ends. -/
def follow (scene : Scene α) : NodeId → List Nat → Option (List (Group α) × NodeId)
  | id, [] => some ([], id)
  | id, k :: route => do
    let group ← scene.group? id
    let child ← group.children[k]?
    let (groups, last) ← scene.follow child route
    return (group :: groups, last)

theorem node?_eq_none_iff {id : NodeId} : scene.node? id = none ↔ scene.size ≤ id.index :=
  Array.getElem?_eq_none_iff

theorem index_lt_of_node? {id : NodeId} {node : Node α} (hnode : scene.node? id = some node) :
    id.index < scene.size := by
  by_contra hge
  rw [node?_eq_none_iff.mpr (not_lt.mp hge)] at hnode
  cases hnode

theorem group?_eq_some_iff {id : NodeId} {group : Group α} :
    scene.group? id = some group ↔ scene.node? id = some (.group group) := by
  unfold group?
  split <;> simp_all

/-- A node is unknown, a group or a shape. -/
theorem node_cases (scene : Scene α) (id : NodeId) :
    scene.node? id = none ∨ (∃ group, scene.group? id = some group) ∨
      ∃ node, scene.node? id = some node ∧ node.isGroup = false := by
  cases hnode : scene.node? id with
  | none => exact Or.inl rfl
  | some node =>
      cases node with
      | group group => exact Or.inr (Or.inl ⟨group, group?_eq_some_iff.mpr hnode⟩)
      | _ => exact Or.inr (Or.inr ⟨_, rfl, rfl⟩)

theorem follow_cons_eq_some_iff {id last : NodeId} {k : Nat} {route : List Nat}
    {groups : List (Group α)} :
    scene.follow id (k :: route) = some (groups, last) ↔
      ∃ group child rest, scene.group? id = some group ∧ group.children[k]? = some child ∧
        scene.follow child route = some (rest, last) ∧ groups = group :: rest := by
  simp only [follow, bind, pure, Option.bind_eq_some_iff, Option.some.injEq, Prod.mk.injEq,
    Prod.exists]
  constructor
  · rintro ⟨group, hgroup, child, hchild, rest, last', hfollow, rfl, rfl⟩
    exact ⟨group, child, rest, hgroup, hchild, hfollow, rfl⟩
  · rintro ⟨group, child, rest, hgroup, hchild, hfollow, rfl⟩
    exact ⟨group, hgroup, child, hchild, rest, last, hfollow, rfl, rfl⟩

theorem hasChild_of_getElem? {id child : NodeId} {group : Group α} {k : Nat}
    (hgroup : scene.group? id = some group) (hchild : group.children[k]? = some child) :
    scene.HasChild id child :=
  ⟨group, hgroup, List.mem_of_getElem? hchild⟩

theorem exists_last_step {route : List Nat} {k : Nat} {id last : NodeId} {groups : List (Group α)}
    (hfollow : scene.follow id (route ++ [k]) = some (groups, last)) :
    ∃ upper middle group, scene.follow id route = some (upper, middle) ∧
      scene.group? middle = some group ∧ group.children[k]? = some last := by
  induction route generalizing id groups with
  | nil =>
      obtain ⟨group, child, rest, hgroup, hchild, hfollow, -⟩ := follow_cons_eq_some_iff.mp hfollow
      cases hfollow
      exact ⟨[], id, group, rfl, hgroup, hchild⟩
  | cons first route ih =>
      obtain ⟨group, child, rest, hgroup, hchild, hfollow, -⟩ := follow_cons_eq_some_iff.mp hfollow
      obtain ⟨upper, middle, below, hupper, hmiddle, hlast⟩ := ih hfollow
      refine ⟨group :: upper, middle, below, ?_, hmiddle, hlast⟩
      exact follow_cons_eq_some_iff.mpr ⟨group, child, upper, hgroup, hchild, hupper, rfl⟩

/-- A route leads down along children. -/
theorem path_of_follow {route : List Nat} {id last : NodeId} {groups : List (Group α)}
    (hfollow : scene.follow id route = some (groups, last)) :
    Relation.ReflTransGen scene.HasChild id last := by
  induction route generalizing id groups with
  | nil =>
      cases hfollow
      exact .refl
  | cons k route ih =>
      obtain ⟨group, child, rest, hgroup, hchild, hfollow, -⟩ := follow_cons_eq_some_iff.mp hfollow
      exact .head (hasChild_of_getElem? hgroup hchild) (ih hfollow)

theorem rank_lt_of_path {rank : NodeId → Nat}
    (hrank : ∀ a b, scene.HasChild a b → rank a < rank b) {a b : NodeId}
    (hpath : Relation.TransGen scene.HasChild a b) : rank a < rank b := by
  induction hpath with
  | single hchild => exact hrank _ _ hchild
  | tail _ hchild ih => exact ih.trans (hrank _ _ hchild)

/-- A scene in which some rank rises from every node to its children is acyclic. -/
theorem acyclic_of_rank (rank : NodeId → Nat)
    (hrange : ∀ a b, scene.HasChild a b → b.index < scene.size)
    (hrank : ∀ a b, scene.HasChild a b → rank a < rank b) : scene.Acyclic where
  inRange := hrange
  noCycle := fun _ hpath => lt_irrefl _ (rank_lt_of_path hrank hpath)

theorem index_lt_of_hasChild {a b : NodeId} (hchild : scene.HasChild a b) :
    a.index < scene.size := by
  obtain ⟨group, hgroup, -⟩ := hchild
  exact index_lt_of_node? (group?_eq_some_iff.mp hgroup)

open Classical in
/-- The nodes that a walk down from `id` meets, itself among them. -/
noncomputable def met (scene : Scene α) (id : NodeId) : Finset Nat :=
  (Finset.range scene.size).filter fun k => Relation.ReflTransGen scene.HasChild id ⟨k⟩

theorem mem_met_iff {id : NodeId} {k : Nat} :
    k ∈ scene.met id ↔ k < scene.size ∧ Relation.ReflTransGen scene.HasChild id ⟨k⟩ := by
  simp [met]

theorem card_met_le (scene : Scene α) (id : NodeId) : (scene.met id).card ≤ scene.size := by
  have hsub : scene.met id ⊆ Finset.range scene.size :=
    fun k hk => Finset.mem_range.mpr (mem_met_iff.mp hk).1
  calc (scene.met id).card ≤ (Finset.range scene.size).card := Finset.card_le_card hsub
    _ = scene.size := Finset.card_range _

/-- A walk from a child meets fewer nodes than one from its parent, also if the child is missing. -/
theorem card_met_lt (hcycle : ∀ a, ¬ Relation.TransGen scene.HasChild a a) {a b : NodeId}
    (hchild : scene.HasChild a b) : (scene.met b).card < (scene.met a).card := by
  apply Finset.card_lt_card
  rw [Finset.ssubset_iff_of_subset]
  · -- The child may be missing, so it is the parent itself that the child does not meet.
    refine ⟨a.index, mem_met_iff.mpr ⟨index_lt_of_hasChild hchild, .refl⟩, ?_⟩
    intro hmet
    exact hcycle a (.head' hchild (mem_met_iff.mp hmet).2)
  · intro k hk
    obtain ⟨hrange, hpath⟩ := mem_met_iff.mp hk
    exact mem_met_iff.mpr ⟨hrange, .head hchild hpath⟩

namespace Acyclic

/-- What holds of a node if it holds of its children holds of every node. -/
theorem induction (hscene : scene.Acyclic) {P : NodeId → Prop}
    (hstep : ∀ id, (∀ child, scene.HasChild id child → P child) → P id) (id : NodeId) : P id := by
  induction hcard : (scene.met id).card using Nat.strong_induction_on generalizing id with
  | _ n ih =>
      apply hstep
      intro child hchild
      exact ih _ (hcard ▸ card_met_lt hscene.noCycle hchild) child rfl

/-- Without cycles no route is longer than there are nodes to be met. -/
theorem length_le_card_met (hscene : scene.Acyclic) {route : List Nat} {id last : NodeId}
    {groups : List (Group α)} (hfollow : scene.follow id route = some (groups, last)) :
    route.length ≤ (scene.met id).card := by
  induction route generalizing id groups with
  | nil => exact Nat.zero_le _
  | cons k route ih =>
      obtain ⟨group, child, rest, hgroup, hchild, hfollow, -⟩ := follow_cons_eq_some_iff.mp hfollow
      have hlt := card_met_lt hscene.noCycle (hasChild_of_getElem? hgroup hchild)
      have hle := ih hfollow
      rw [List.length_cons]
      omega

end Acyclic

/-! ### Emissions without a bound on the levels -/

section Emissions

variable [Scalar α] {depth : Nat} {id : NodeId} {frame : Frame α}

theorem emissionsWithin_group {group : Group α} (hgroup : scene.group? id = some group) :
    scene.emissionsWithin (depth + 1) id frame =
      if group.isVisible (frame.enter group.transform) then
        group.children.flatMap fun child =>
          scene.emissionsWithin depth child (frame.enter group.transform)
      else [.culled id] := by
  rw [emissionsWithin, group?_eq_some_iff.mp hgroup]

theorem emissionsWithin_shape {node : Node α} (hnode : scene.node? id = some node)
    (hshape : node.isGroup = false) :
    scene.emissionsWithin (depth + 1) id frame = node.emissions frame id := by
  rw [emissionsWithin, hnode]
  cases node with
  | group => cases hshape
  | _ => rfl

theorem emissionsWithin_unknown (hnode : scene.node? id = none) :
    scene.emissionsWithin (depth + 1) id frame = [.problem (.unknownNode id)] := by
  rw [emissionsWithin, hnode]

/-- More levels than there are nodes to be met make no difference. -/
theorem Acyclic.emissionsWithin_eq (hscene : scene.Acyclic) {depth depth' : Nat} (id : NodeId)
    (frame : Frame α) (hdepth : (scene.met id).card < depth)
    (hdepth' : (scene.met id).card < depth') :
    scene.emissionsWithin depth id frame = scene.emissionsWithin depth' id frame := by
  induction depth generalizing depth' id frame with
  | zero => exact absurd hdepth (Nat.not_lt_zero _)
  | succ depth ih =>
      cases depth' with
      | zero => exact absurd hdepth' (Nat.not_lt_zero _)
      | succ depth' =>
          obtain hnode | ⟨group, hgroup⟩ | ⟨node, hnode, hshape⟩ := scene.node_cases id
          · rw [emissionsWithin_unknown hnode, emissionsWithin_unknown hnode]
          · have hchildren : ∀ child ∈ group.children,
                scene.emissionsWithin depth child (frame.enter group.transform) =
                  scene.emissionsWithin depth' child (frame.enter group.transform) := by
              intro child hchild
              have hlt := card_met_lt hscene.noCycle ⟨group, hgroup, hchild⟩
              exact ih child _ (by omega) (by omega)
            rw [emissionsWithin_group hgroup, emissionsWithin_group hgroup,
              List.flatMap_congr hchildren]
          · rw [emissionsWithin_shape hnode hshape, emissionsWithin_shape hnode hshape]

theorem Acyclic.emissions_group (hscene : scene.Acyclic) {group : Group α}
    (hgroup : scene.group? id = some group) :
    scene.emissions id frame =
      if group.isVisible (frame.enter group.transform) then
        group.children.flatMap fun child => scene.emissions child (frame.enter group.transform)
      else [.culled id] := by
  have hchildren : ∀ child ∈ group.children,
      scene.emissionsWithin scene.size child (frame.enter group.transform) =
        scene.emissions child (frame.enter group.transform) := by
    intro child hchild
    have hlt := card_met_lt hscene.noCycle ⟨group, hgroup, hchild⟩
    have hle := scene.card_met_le id
    exact hscene.emissionsWithin_eq child _ (by omega) (by omega)
  rw [emissions, emissionsWithin_group hgroup, List.flatMap_congr hchildren]

theorem emissions_shape {node : Node α} (hnode : scene.node? id = some node)
    (hshape : node.isGroup = false) : scene.emissions id frame = node.emissions frame id :=
  emissionsWithin_shape hnode hshape

theorem emissions_unknown (hnode : scene.node? id = none) :
    scene.emissions id frame = [.problem (.unknownNode id)] :=
  emissionsWithin_unknown hnode

end Emissions

end PainterScene.Scene
