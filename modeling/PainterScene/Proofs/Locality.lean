import PainterScene.Proofs.Topology

/-!
# A pass depends on what its root reaches

Operations on a scene write one node that exists, add one, or do both. As long as none of these
nodes is reached from the root of a pass, the nodes that the root reaches stay what they are, and
they stay the ones it reaches. Two scenes that agree on those nodes give the same pass: the walk
follows the same children with the same frames, and the larger scene only allows it more levels than
it needs.
-/

namespace PainterScene

variable {α : Type}

/-- A change of a scene. Nodes are any nodes, so a group may come with children that it shares. -/
inductive Operation (α : Type)
  | add (node : Node α)
  | addChild (parent : NodeId) (node : Node α)
  | duplicate (source : NodeId)
  /-- Any change of a node in place. -/
  | mutate (id : NodeId) (change : Node α → Node α)

namespace Scene

variable {scene next : Scene α} {root id : NodeId}

def Reaches (scene : Scene α) (root id : NodeId) : Prop :=
  Relation.ReflTransGen scene.HasChild root id

def perform (scene : Scene α) : Operation α → Scene α
  | .add node => (scene.add node).2
  | .addChild parent node =>
    match scene.addChild parent node with
    | .ok (_, grown) => grown
    | .error _ => scene
  | .duplicate source => ((scene.duplicate? source).map Prod.snd).getD scene
  | .mutate id change => ((scene.node? id).map fun node => scene.set id (change node)).getD scene

theorem set_eq_self {node : Node α} (hnode : scene.node? id = some node) :
    scene.set id node = scene := by
  have hnodes : scene.nodes.setIfInBounds id.index node = scene.nodes := by
    apply Array.ext_getElem?
    intro i
    by_cases hi : id.index = i
    · subst hi
      rw [Array.getElem?_setIfInBounds_self_of_lt (index_lt_of_node? hnode)]
      exact hnode.symm
    · rw [Array.getElem?_setIfInBounds_ne hi]
  rw [set, hnodes]

end Scene

def Edit.operation : Edit α → Operation α
  | .add node => .add node.node
  | .addChild parent node => .addChild parent node.node
  | .duplicate source => .duplicate source
  | .replace id node => .mutate id fun _ => node.node
  | .setTransform id transform => .mutate id fun
    | .group group => .group { group with transform }
    | shape => shape
  | .addPoints id xs ys zs => .mutate id fun
    | .polyline line => .polyline (line.addPoints xs ys zs)
    | other => other

namespace Scene

variable {scene next : Scene α} {root id : NodeId}

theorem edit_eq_perform (scene : Scene α) (change : Edit α) :
    scene.edit change = scene.perform change.operation := by
  cases change with
  | add node => rfl
  | addChild parent node => rfl
  | duplicate source => rfl
  | replace id node => rfl
  | setTransform id transform =>
      obtain hnode | ⟨group, hgroup⟩ | ⟨node, hnode, hshape⟩ := scene.node_cases id
      · simp [edit, setTransform?, group?, perform, Edit.operation, hnode]
      · have hnode := group?_eq_some_iff.mp hgroup
        simp [edit, setTransform?, hgroup, perform, Edit.operation, hnode]
      · have hkept := set_eq_self hnode
        cases node with
        | group => cases hshape
        | _ => simp [edit, setTransform?, group?, perform, Edit.operation, hnode, hkept]
  | addPoints id xs ys zs =>
      cases hnode : scene.node? id with
      | none => simp [edit, addPoints?, perform, Edit.operation, hnode]
      | some node =>
          have hkept := set_eq_self hnode
          cases node with
          | polyline line => simp [edit, addPoints?, perform, Edit.operation, hnode]
          | _ => simp [edit, addPoints?, perform, Edit.operation, hnode, hkept]

/-- The operation keeps off what `root` reaches. A node that is added is not reached from a node of
the scene; only a root that is still missing must not be the handle that the new node gets. -/
def Spares (scene : Scene α) (root : NodeId) : Operation α → Prop
  | .add _ => root ≠ ⟨scene.size⟩
  | .addChild parent _ => root ≠ ⟨scene.size⟩ ∧ ¬ scene.Reaches root parent
  | .duplicate _ => root ≠ ⟨scene.size⟩
  | .mutate id _ => ¬ scene.Reaches root id

def SparesAll (scene : Scene α) (root : NodeId) : List (Operation α) → Prop
  | [] => True
  | operation :: operations =>
    scene.Spares root operation ∧ (scene.perform operation).SparesAll root operations

/-! ### Agreement on what a root reaches -/

def AgreesBelow (scene next : Scene α) (root : NodeId) : Prop :=
  ∀ id, scene.Reaches root id → next.node? id = scene.node? id

namespace AgreesBelow

theorem children_eq (hagree : AgreesBelow scene next root) (hid : scene.Reaches root id) :
    next.children id = scene.children id := by
  rw [children, hagree id hid, children]

theorem child (hagree : AgreesBelow scene next root) {child : NodeId}
    (hchild : scene.HasChild root child) : AgreesBelow scene next child :=
  fun id hid => hagree id (.head hchild hid)

theorem reaches_iff (hagree : AgreesBelow scene next root) :
    next.Reaches root id ↔ scene.Reaches root id := by
  constructor
  · intro hpath
    induction hpath with
    | refl => exact .refl
    | tail _ hchild ih =>
        rw [hasChild_iff, hagree.children_eq ih, ← hasChild_iff] at hchild
        exact .tail ih hchild
  · intro hpath
    induction hpath with
    | refl => exact .refl
    | tail hpath hchild ih =>
        rw [hasChild_iff, ← hagree.children_eq hpath, ← hasChild_iff] at hchild
        exact .tail ih hchild

theorem trans {last : Scene α} (hagree : AgreesBelow scene next root)
    (hnext : AgreesBelow next last root) : AgreesBelow scene last root := by
  intro id hid
  rw [hnext id (hagree.reaches_iff.mpr hid), hagree id hid]

variable [Scalar α]

/-- A pass reads only the nodes that it reaches. -/
theorem emissionsWithin_eq (hagree : AgreesBelow scene next root) (depth : Nat)
    (frame : Frame α) :
    next.emissionsWithin depth root frame = scene.emissionsWithin depth root frame := by
  induction depth generalizing root frame with
  | zero => rfl
  | succ depth ih =>
      have hroot := hagree root .refl
      obtain hnode | ⟨group, hgroup⟩ | ⟨node, hnode, hshape⟩ := scene.node_cases root
      · rw [emissionsWithin_unknown hnode, emissionsWithin_unknown (hroot.trans hnode)]
      · have hgroup' : next.group? root = some group := by
          rw [group?_eq_some_iff, hroot, ← group?_eq_some_iff, hgroup]
        have hchildren : ∀ child ∈ group.children,
            next.emissionsWithin depth child (frame.enter group.transform) =
              scene.emissionsWithin depth child (frame.enter group.transform) :=
          fun child hchild => ih (hagree.child ⟨group, hgroup, hchild⟩) _
        rw [emissionsWithin_group hgroup, emissionsWithin_group hgroup',
          List.flatMap_congr hchildren]
      · rw [emissionsWithin_shape hnode hshape,
          emissionsWithin_shape (hroot.trans hnode) hshape]

theorem render_eq (hagree : AgreesBelow scene next root) (hscene : scene.Acyclic)
    (hsize : scene.size ≤ next.size) (camera : Camera α) :
    next.render root camera = scene.render root camera := by
  have hle := scene.card_met_le root
  have hemissions : next.emissions root camera.frame = scene.emissions root camera.frame := by
    calc next.emissionsWithin (next.size + 1) root camera.frame
        = scene.emissionsWithin (next.size + 1) root camera.frame :=
          hagree.emissionsWithin_eq _ _
      _ = scene.emissionsWithin (scene.size + 1) root camera.frame :=
          hscene.emissionsWithin_eq root camera.frame (by omega) (by omega)
  rw [render, emitInto, hemissions]
  rfl

end AgreesBelow

/-! ### What an operation writes -/

theorem size_le_perform (scene : Scene α) (operation : Operation α) :
    scene.size ≤ (scene.perform operation).size := by
  cases operation with
  | add node => exact (size_add node).ge.trans' (Nat.le_succ _)
  | addChild parent node =>
      obtain ⟨-, hadd⟩ | ⟨_, -, -, hadd⟩ | ⟨group, grown, -, hadd, hgrows⟩ :=
        scene.addChild_cases parent node
      · simp only [perform, hadd, le_refl]
      · simp only [perform, hadd, le_refl]
      · simp only [perform, hadd, hgrows.size_eq]
        exact Nat.le_succ _
  | duplicate source =>
      cases hgroup : scene.group? source with
      | none => simp [perform, duplicate?, hgroup]
      | some group =>
          simp only [perform, duplicate?, hgroup, Option.map_some, Option.getD_some, size_add]
          exact Nat.le_succ _
  | mutate id change =>
      cases hnode : scene.node? id with
      | none => simp [perform, hnode]
      | some node => simp [perform, hnode, size_set]

/-- An operation that spares the root leaves every node below it alone, since the handle of a new
node is not yet reached. -/
theorem agreesBelow_perform {operation : Operation α} (hspares : scene.Spares root operation)
    (hfresh : root ≠ ⟨scene.size⟩ → ¬ scene.Reaches root ⟨scene.size⟩) :
    AgreesBelow scene (scene.perform operation) root := by
  have hadd : root ≠ ⟨scene.size⟩ → ∀ node, AgreesBelow scene (scene.add node).2 root := by
    intro hroot node id hid
    apply node?_add_of_ne
    rintro rfl
    exact hfresh hroot hid
  intro id hid
  cases operation with
  | add node => exact hadd hspares node id hid
  | addChild parent node =>
      obtain ⟨hroot, hparent⟩ := hspares
      obtain ⟨-, hfail⟩ | ⟨_, -, -, hfail⟩ | ⟨group, grown, -, hok, hgrows⟩ :=
        scene.addChild_cases parent node
      · simp only [perform, hfail]
      · simp only [perform, hfail]
      · simp only [perform, hok]
        apply hgrows.other_eq id
        · rintro rfl
          exact hparent hid
        · rintro rfl
          exact hfresh hroot hid
  | duplicate source =>
      cases hgroup : scene.group? source with
      | none => simp [perform, duplicate?, hgroup]
      | some group =>
          simp only [perform, duplicate?, hgroup, Option.map_some, Option.getD_some]
          exact hadd hspares _ id hid
  | mutate target change =>
      cases hnode : scene.node? target with
      | none => simp [perform, hnode]
      | some node =>
          simp only [perform, hnode, Option.map_some, Option.getD_some]
          apply node?_set_of_ne
          rintro rfl
          exact hspares hid

theorem Acyclic.index_lt_of_reaches (hscene : scene.Acyclic) (hid : scene.Reaches root id)
    (hne : root ≠ id) : id.index < scene.size := by
  obtain heq | hpath := Relation.reflTransGen_iff_eq_or_transGen.mp hid
  · exact absurd heq.symm hne
  · obtain ⟨parent, -, hchild⟩ := Relation.TransGen.tail'_iff.mp hpath
    exact hscene.inRange parent id hchild

/-- Along operations that spare the root, the scene grows around what the root reaches. -/
theorem Acyclic.agreesBelow_foldl (hscene : scene.Acyclic) {operations : List (Operation α)}
    (hagree : AgreesBelow scene next root) (hsize : scene.size ≤ next.size)
    (hspares : next.SparesAll root operations) :
    AgreesBelow scene (operations.foldl perform next) root ∧
      scene.size ≤ (operations.foldl perform next).size := by
  induction operations generalizing next with
  | nil => exact ⟨hagree, hsize⟩
  | cons operation operations ih =>
      obtain ⟨hfirst, hrest⟩ := hspares
      have hfresh : root ≠ ⟨next.size⟩ → ¬ next.Reaches root ⟨next.size⟩ := by
        intro hne hreaches
        have hlt := hscene.index_lt_of_reaches (hagree.reaches_iff.mp hreaches) hne
        exact absurd hlt (not_lt.mpr hsize)
      apply ih
      · exact hagree.trans (agreesBelow_perform hfirst hfresh)
      · exact hsize.trans (next.size_le_perform operation)
      · exact hrest

variable [Scalar α]

/-- **A pass depends on what its root reaches.** Operations that add nodes, or write nodes that the
root does not reach, leave the whole result of a pass as it was, and so do the edits that amount to
such operations. -/
theorem render_foldl_perform (hscene : scene.Acyclic) (root : NodeId) (camera : Camera α) :
    (∀ operations, scene.SparesAll root operations →
      (operations.foldl perform scene).render root camera = scene.render root camera) ∧
    ∀ edits : List (Edit α), scene.SparesAll root (edits.map Edit.operation) →
      (edits.foldl edit scene).render root camera = scene.render root camera := by
  have hrender : ∀ operations, scene.SparesAll root operations →
      (operations.foldl perform scene).render root camera = scene.render root camera := by
    intro operations hspares
    obtain ⟨hagree, hsize⟩ := hscene.agreesBelow_foldl (fun _ _ => rfl) le_rfl hspares
    exact hagree.render_eq hscene hsize camera
  refine ⟨hrender, fun edits hspares => ?_⟩
  have hedits : edits.foldl edit scene = (edits.map Edit.operation).foldl perform scene := by
    simp only [List.foldl_map, ← edit_eq_perform]
  rw [hedits]
  exact hrender _ hspares

omit [Scalar α] in
/-- A root reaches no node outside a list that has the children of all its members. -/
theorem not_reaches_of_closed (nodes : List NodeId) (hroot : root ∈ nodes)
    (hclosed : ∀ a ∈ nodes, ∀ b ∈ scene.children a, b ∈ nodes) (hid : id ∉ nodes) :
    ¬ scene.Reaches root id := by
  have hmem : ∀ {a}, scene.Reaches root a → a ∈ nodes := by
    intro a hpath
    induction hpath with
    | refl => exact hroot
    | tail _ hchild ih => exact hclosed _ ih _ (hasChild_iff.mp hchild)
  exact fun hpath => hid (hmem hpath)

/-- A group with a stroke, and a copy of the group that shares the stroke and has one of its own. -/
def pendant : Scene ℚ :=
  history [.add ⟨.group { transform := .shift ⟨1, 0, 0⟩ }, rfl⟩,
    .addChild ⟨0⟩ ⟨.polyline { points := [⟨0, 0, -1⟩, ⟨1, 0, -2⟩] }, rfl⟩, .duplicate ⟨0⟩,
    .addChild ⟨2⟩ ⟨.polyline { points := [⟨0, 0, -1⟩, ⟨0, 1, -2⟩] }, rfl⟩]

/-- Another copy, a new child below the first one, and a loop from its own stroke back to it. -/
def pendantOperations : List (Operation ℚ) :=
  [.duplicate ⟨0⟩, .addChild ⟨2⟩ (.polyline {}),
    .mutate ⟨3⟩ fun _ => .group { transform := .identity, children := [⟨0⟩, ⟨2⟩] }]

theorem render_pendant : pendant.Acyclic ∧ pendant.SparesAll ⟨0⟩ pendantOperations ∧
    let camera : Camera ℚ := ⟨.identity, .identity⟩
    let changed := pendantOperations.foldl perform pendant
    changed.children ⟨3⟩ = [⟨0⟩, ⟨2⟩] ∧ (pendant.render ⟨0⟩ camera).size = 1 ∧
      changed.render ⟨0⟩ camera = pendant.render ⟨0⟩ camera := by
  have hacyclic : pendant.Acyclic := by
    obtain ⟨home, hhomes⟩ : ∃ home, Homes pendant home := Homes.empty.foldl_edit _
    exact hhomes.acyclic
  have hspares : pendant.SparesAll ⟨0⟩ pendantOperations := by
    have hfirst : (⟨0⟩ : NodeId) ≠ ⟨pendant.size⟩ := by decide +kernel
    have hsecond : (⟨0⟩ : NodeId) ≠ ⟨(pendant.perform (.duplicate ⟨0⟩)).size⟩ := by decide +kernel
    refine ⟨hfirst, ⟨hsecond, ?_⟩, ?_, trivial⟩
    · exact not_reaches_of_closed [⟨0⟩, ⟨1⟩] (by decide) (by decide +kernel) (by decide)
    · exact not_reaches_of_closed [⟨0⟩, ⟨1⟩] (by decide) (by decide +kernel) (by decide)
  exact ⟨hacyclic, hspares, by decide +kernel, by decide +kernel,
    (render_foldl_perform hacyclic ⟨0⟩ _).1 _ hspares⟩

end Scene

end PainterScene
