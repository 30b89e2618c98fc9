import PainterScene.Proofs.Flattening

/-!
# The shape of an edited scene

Scenes are built by adding childless nodes, alone or below a group, by copying groups, and by
changing nodes in place. A copy shares the children of its source, so a node may have several
parents, and a child may be older than a parent. What every edit keeps is finer: each node has a
home, which is the node itself or, for a copy, the home of its source. Children are never copies,
they are younger than the homes of their parents, and the parents of a child share one home.
-/

namespace PainterScene

variable {α : Type}

def Node.children : Node α → List NodeId
  | group g => g.children
  | _ => []

structure Childless (α : Type) where
  node : Node α
  children_eq : node.children = []

/-- A change of a scene that may give a group a new child, but never one that exists. -/
inductive Edit (α : Type)
  | add (node : Childless α)
  | addChild (parent : NodeId) (node : Childless α)
  | duplicate (source : NodeId)
  | replace (id : NodeId) (node : Childless α)
  | setTransform (id : NodeId) (transform : Mat4 α)
  | addPoints (id : NodeId) (xs ys zs : List α)

namespace Scene

def edit (scene : Scene α) : Edit α → Scene α
  | .add node => (scene.add node.node).2
  | .addChild parent node =>
    match scene.addChild parent node.node with
    | .ok (_, grown) => grown
    | .error _ => scene
  | .duplicate source => ((scene.duplicate? source).map Prod.snd).getD scene
  | .replace id node => (scene.replace? id node.node).getD scene
  | .setTransform id transform => (scene.setTransform? id transform).getD scene
  | .addPoints id xs ys zs => ((scene.addPoints? id xs ys zs).map Prod.snd).getD scene

def history (edits : List (Edit α)) : Scene α :=
  edits.foldl edit {}

/-- The children of a node; a shape and a handle without a node have none. -/
def children (scene : Scene α) (id : NodeId) : List NodeId :=
  ((scene.node? id).map Node.children).getD []

variable {scene next : Scene α} {home : NodeId → NodeId}

theorem children_of_node? {id : NodeId} {node : Node α} (hnode : scene.node? id = some node) :
    scene.children id = node.children := by
  rw [children, hnode]
  rfl

theorem children_of_group? {id : NodeId} {group : Group α} (hgroup : scene.group? id = some group) :
    scene.children id = group.children :=
  children_of_node? (group?_eq_some_iff.mp hgroup)

theorem hasChild_iff {a b : NodeId} : scene.HasChild a b ↔ b ∈ scene.children a := by
  constructor
  · rintro ⟨group, hgroup, hb⟩
    rwa [children_of_group? hgroup]
  · intro hb
    cases hnode : scene.node? a with
    | none => simp [children, hnode] at hb
    | some node =>
        rw [children_of_node? hnode] at hb
        cases node with
        | group group => exact ⟨group, group?_eq_some_iff.mpr hnode, hb⟩
        | _ => cases hb

/-- There is no cycle if every child has a higher index than its parents. -/
theorem noCycle_of_rising (hrises : ∀ a < scene.size, ∀ b ∈ scene.children ⟨a⟩, a < b.index)
    (a : NodeId) : ¬ Relation.TransGen scene.HasChild a a := by
  intro hpath
  refine lt_irrefl a.index (rank_lt_of_path (fun a b hchild => ?_) hpath)
  exact hrises a.index (index_lt_of_hasChild hchild) b (hasChild_iff.mp hchild)

theorem acyclic_of_rising (hrises : ∀ a < scene.size, ∀ b ∈ scene.children ⟨a⟩,
    a < b.index ∧ b.index < scene.size) : scene.Acyclic where
  inRange := by
    intro a b hchild
    exact (hrises a.index (index_lt_of_hasChild hchild) b (hasChild_iff.mp hchild)).2
  noCycle := noCycle_of_rising fun a ha b hb => (hrises a ha b hb).1

theorem children_fresh : scene.children ⟨scene.size⟩ = [] := by
  have hnone : scene.node? ⟨scene.size⟩ = none := node?_eq_none_iff.mpr le_rfl
  rw [children, hnone]
  rfl

/-! ### What one change does -/

theorem node?_add_fresh (node : Node α) : (scene.add node).2.node? ⟨scene.size⟩ = some node :=
  Array.getElem?_push_size

theorem node?_add_of_ne {node : Node α} {id : NodeId} (hne : id ≠ ⟨scene.size⟩) :
    (scene.add node).2.node? id = scene.node? id := by
  have hindex : id.index ≠ scene.nodes.size := fun h => hne (congrArg NodeId.mk h)
  simp [add, node?, Array.getElem?_push, hindex]

theorem node?_set_self {id : NodeId} (hid : id.index < scene.size) (node : Node α) :
    (scene.set id node).node? id = some node :=
  Array.getElem?_setIfInBounds_self_of_lt hid

theorem node?_set_of_ne {id other : NodeId} (hne : other ≠ id) (node : Node α) :
    (scene.set id node).node? other = scene.node? other := by
  have hindex : id.index ≠ other.index := fun h => hne (congrArg NodeId.mk h.symm)
  exact Array.getElem?_setIfInBounds_ne hindex

theorem size_add (node : Node α) : (scene.add node).2.size = scene.size + 1 :=
  Array.size_push _

theorem size_set (id : NodeId) (node : Node α) : (scene.set id node).size = scene.size :=
  Array.size_setIfInBounds

inductive Step (scene next : Scene α) : Prop
  | kept (hsize : next.size = scene.size)
      (hchildren : ∀ a, next.children a = scene.children a ∨ next.children a = [])
  /-- A new node with the children of `source`, which are none if `source` is the new handle. -/
  | copied (source : NodeId) (hsource : source.index ≤ scene.size)
      (hsize : next.size = scene.size + 1)
      (hnew : next.children ⟨scene.size⟩ = scene.children source)
      (hold : ∀ a, a ≠ ⟨scene.size⟩ → next.children a = scene.children a)
  | attached (parent : NodeId) (hparent : parent.index < scene.size)
      (hsize : next.size = scene.size + 1)
      (hnew : next.children parent = scene.children parent ++ [⟨scene.size⟩])
      (hold : ∀ a, a ≠ parent → next.children a = scene.children a)

theorem Step.refl (scene : Scene α) : Step scene scene :=
  .kept rfl fun _ => Or.inl rfl

theorem step_add {node : Node α} {source : NodeId} (hsource : source.index ≤ scene.size)
    (hnode : node.children = scene.children source) : Step scene (scene.add node).2 := by
  refine .copied source hsource (size_add node) ?_ ?_
  · rw [children_of_node? (node?_add_fresh node), hnode]
  · intro a ha
    rw [children, node?_add_of_ne ha, children]

theorem step_set {id : NodeId} {node : Node α} (hid : id.index < scene.size)
    (hnode : node.children = scene.children id ∨ node.children = []) :
    Step scene (scene.set id node) := by
  refine .kept (size_set id node) ?_
  intro a
  by_cases ha : a = id
  · rw [ha, children_of_node? (node?_set_self hid node)]
    exact hnode
  · rw [children, node?_set_of_ne ha, children]
    exact Or.inl rfl

/-- `grown` has one node more, which is the last child of `parent`; all else is as it was. -/
structure GrowsBelow (scene grown : Scene α) (parent : NodeId) (group : Group α) (node : Node α) :
    Prop where
  size_eq : grown.size = scene.size + 1
  fresh_eq : grown.node? ⟨scene.size⟩ = some node
  parent_eq :
    grown.group? parent = some { group with children := group.children ++ [⟨scene.size⟩] }
  other_eq : ∀ other, other ≠ parent → other ≠ ⟨scene.size⟩ →
    grown.node? other = scene.node? other

theorem addChild_cases (scene : Scene α) (parent : NodeId) (node : Node α) :
    (scene.node? parent = none ∧ scene.addChild parent node = .error (.unknownNode parent)) ∨
      (∃ shape, scene.node? parent = some shape ∧ shape.isGroup = false ∧
        scene.addChild parent node = .error (.notAGroup parent)) ∨
      ∃ group grown, scene.group? parent = some group ∧
        scene.addChild parent node = .ok (⟨scene.size⟩, grown) ∧
        scene.GrowsBelow grown parent group node := by
  obtain hnode | ⟨group, hgroup⟩ | ⟨shape, hshape, hleaf⟩ := scene.node_cases parent
  · exact Or.inl ⟨hnode, by simp [addChild, hnode]⟩
  · have hparent := index_lt_of_node? (group?_eq_some_iff.mp hgroup)
    have hne : (⟨scene.size⟩ : NodeId) ≠ parent := by
      rintro rfl
      exact lt_irrefl _ hparent
    let longer : Group α := { group with children := group.children ++ [⟨scene.size⟩] }
    refine Or.inr (Or.inr ⟨group, (scene.add node).2.set parent (.group longer), hgroup, ?_, ?_⟩)
    · simp only [addChild, group?_eq_some_iff.mp hgroup]
      rfl
    · refine ⟨?_, ?_, ?_, ?_⟩
      · rw [size_set, size_add]
      · rw [node?_set_of_ne hne, node?_add_fresh]
      · rw [group?_eq_some_iff, node?_set_self (by rw [size_add]; omega)]
      · intro other hother hfresh
        rw [node?_set_of_ne hother, node?_add_of_ne hfresh]
  · refine Or.inr (Or.inl ⟨shape, hshape, hleaf, ?_⟩)
    cases shape with
    | group => cases hleaf
    | _ => simp [addChild, hshape]

/-- A new child goes to a group and to nothing else; a request that fails changes nothing. -/
theorem edit_addChild_cases (scene : Scene α) (parent : NodeId) (node : Childless α) :
    let next := scene.edit (.addChild parent node)
    (scene.node? parent = none ∧
        scene.addChild parent node.node = .error (.unknownNode parent) ∧ next = scene) ∨
      (∃ shape, scene.node? parent = some shape ∧ shape.isGroup = false ∧
        scene.addChild parent node.node = .error (.notAGroup parent) ∧ next = scene) ∨
      ∃ group, scene.group? parent = some group ∧
        scene.addChild parent node.node = .ok (⟨scene.size⟩, next) ∧
        scene.GrowsBelow next parent group node.node := by
  obtain ⟨hnode, hadd⟩ | ⟨shape, hshape, hleaf, hadd⟩ | ⟨group, grown, hgroup, hadd, hgrows⟩ :=
    scene.addChild_cases parent node.node
  · exact Or.inl ⟨hnode, hadd, by simp only [edit, hadd]⟩
  · exact Or.inr (Or.inl ⟨shape, hshape, hleaf, hadd, by simp only [edit, hadd]⟩)
  · have hnext : scene.edit (.addChild parent node) = grown := by simp only [edit, hadd]
    exact Or.inr (Or.inr ⟨group, hgroup, hnext ▸ hadd, hnext ▸ hgrows⟩)

theorem step_addChild (parent : NodeId) (node : Childless α) :
    Step scene (scene.edit (.addChild parent node)) := by
  obtain ⟨-, -, hnext⟩ | ⟨_, -, -, -, hnext⟩ | ⟨group, hgroup, -, hgrows⟩ :=
    scene.edit_addChild_cases parent node
  · rw [hnext]
    exact Step.refl scene
  · rw [hnext]
    exact Step.refl scene
  · have hparent := index_lt_of_node? (group?_eq_some_iff.mp hgroup)
    refine .attached parent hparent hgrows.size_eq ?_ ?_
    · rw [children_of_group? hgrows.parent_eq, children_of_group? hgroup]
    · intro a ha
      by_cases hfresh : a = ⟨scene.size⟩
      · rw [hfresh, children_of_node? hgrows.fresh_eq, node.children_eq, children_fresh]
      · rw [children, hgrows.other_eq a ha hfresh, children]

/-- Every change is one of these steps. -/
theorem step_edit (scene : Scene α) (change : Edit α) : Step scene (scene.edit change) := by
  cases change with
  | add node =>
      have hnone : node.node.children = scene.children ⟨scene.size⟩ := by
        rw [node.children_eq, children_fresh]
      exact step_add le_rfl hnone
  | addChild parent node => exact step_addChild parent node
  | duplicate source =>
      simp only [edit, duplicate?]
      cases hgroup : scene.group? source with
      | none => exact Step.refl scene
      | some group =>
          have hsource := index_lt_of_node? (group?_eq_some_iff.mp hgroup)
          exact step_add hsource.le (children_of_group? hgroup).symm
  | replace id node =>
      simp only [edit, replace?]
      cases hnode : scene.node? id with
      | none => exact Step.refl scene
      | some old => exact step_set (index_lt_of_node? hnode) (Or.inr node.children_eq)
  | setTransform id transform =>
      simp only [edit, setTransform?]
      cases hgroup : scene.group? id with
      | none => exact Step.refl scene
      | some group =>
          have hid := index_lt_of_node? (group?_eq_some_iff.mp hgroup)
          exact step_set hid (Or.inl (children_of_group? hgroup).symm)
  | addPoints id xs ys zs =>
      simp only [edit, addPoints?]
      split
      next line hnode => exact step_set (index_lt_of_node? hnode) (Or.inr rfl)
      next => exact Step.refl scene

/-! ### Homes -/

/-- `home` leads from a copy to the node that it was first copied from. -/
structure Homes (scene : Scene α) (home : NodeId → NodeId) : Prop where
  inRange : ∀ a b, b ∈ scene.children a → b.index < scene.size
  rises : ∀ a b, b ∈ scene.children a → (home a).index < b.index
  child_home : ∀ a b, b ∈ scene.children a → home b = b
  shared : ∀ a a' b, b ∈ scene.children a → b ∈ scene.children a' → home a = home a'
  nodup : ∀ a, (scene.children a).Nodup
  home_le : ∀ a, (home a).index ≤ a.index
  home_fresh : ∀ a, scene.size ≤ a.index → home a = a

namespace Homes

theorem empty : Homes ({} : Scene α) id where
  inRange a b hb := by cases hb
  rises a b hb := by cases hb
  child_home a b hb := by cases hb
  shared a a' b hb := by cases hb
  nodup a := List.nodup_nil
  home_le a := le_rfl
  home_fresh a ha := rfl

theorem kept (hhomes : Homes scene home) (hsize : next.size = scene.size)
    (hchildren : ∀ a, next.children a = scene.children a ∨ next.children a = []) :
    Homes next home := by
  have hedge : ∀ a b, b ∈ next.children a → b ∈ scene.children a := by
    intro a b hb
    obtain hsame | hnone := hchildren a
    · rwa [hsame] at hb
    · rw [hnone] at hb
      cases hb
  exact {
    inRange := fun a b hb => hsize ▸ hhomes.inRange a b (hedge a b hb)
    rises := fun a b hb => hhomes.rises a b (hedge a b hb)
    child_home := fun a b hb => hhomes.child_home a b (hedge a b hb)
    shared := fun a a' b hb hb' => hhomes.shared a a' b (hedge a b hb) (hedge a' b hb')
    nodup := by
      intro a
      obtain hsame | hnone := hchildren a
      · rw [hsame]
        exact hhomes.nodup a
      · rw [hnone]
        exact List.nodup_nil
    home_le := hhomes.home_le
    home_fresh := fun a ha => hhomes.home_fresh a (hsize ▸ ha) }

theorem copied (hhomes : Homes scene home) {source : NodeId}
    (hsource : source.index ≤ scene.size) (hsize : next.size = scene.size + 1)
    (hnew : next.children ⟨scene.size⟩ = scene.children source)
    (hold : ∀ a, a ≠ ⟨scene.size⟩ → next.children a = scene.children a) :
    Homes next (Function.update home ⟨scene.size⟩ (home source)) := by
  -- Every edge of the new scene is one of the old, from a parent with the same home.
  have hedge : ∀ a, ∃ old, next.children a = scene.children old ∧
      Function.update home ⟨scene.size⟩ (home source) a = home old := by
    intro a
    by_cases ha : a = ⟨scene.size⟩
    · exact ⟨source, by rw [ha, hnew], by rw [ha, Function.update_self]⟩
    · exact ⟨a, hold a ha, Function.update_of_ne ha _ _⟩
  have hchild : ∀ b : NodeId, b.index < scene.size →
      Function.update home ⟨scene.size⟩ (home source) b = home b := by
    intro b hb
    apply Function.update_of_ne
    rintro rfl
    exact lt_irrefl _ hb
  refine ⟨?_, ?_, ?_, ?_, ?_, ?_, ?_⟩
  · intro a b hb
    obtain ⟨old, hchildren, -⟩ := hedge a
    have hlt := hhomes.inRange old b (hchildren ▸ hb)
    omega
  · intro a b hb
    obtain ⟨old, hchildren, hhome⟩ := hedge a
    rw [hhome]
    exact hhomes.rises old b (hchildren ▸ hb)
  · intro a b hb
    obtain ⟨old, hchildren, -⟩ := hedge a
    rw [hchildren] at hb
    rw [hchild b (hhomes.inRange old b hb)]
    exact hhomes.child_home old b hb
  · intro a a' b hb hb'
    obtain ⟨old, hchildren, hhome⟩ := hedge a
    obtain ⟨old', hchildren', hhome'⟩ := hedge a'
    rw [hhome, hhome']
    exact hhomes.shared old old' b (hchildren ▸ hb) (hchildren' ▸ hb')
  · intro a
    obtain ⟨old, hchildren, -⟩ := hedge a
    rw [hchildren]
    exact hhomes.nodup old
  · intro a
    by_cases ha : a = ⟨scene.size⟩
    · rw [ha, Function.update_self]
      exact (hhomes.home_le source).trans hsource
    · rw [Function.update_of_ne ha]
      exact hhomes.home_le a
  · intro a ha
    have hne : a ≠ ⟨scene.size⟩ := by
      rintro rfl
      exact absurd ha (by simp [hsize])
    rw [Function.update_of_ne hne]
    exact hhomes.home_fresh a (by omega)

theorem attached (hhomes : Homes scene home) {parent : NodeId}
    (hparent : parent.index < scene.size) (hsize : next.size = scene.size + 1)
    (hnew : next.children parent = scene.children parent ++ [⟨scene.size⟩])
    (hold : ∀ a, a ≠ parent → next.children a = scene.children a) : Homes next home := by
  have hedge : ∀ a b, b ∈ next.children a →
      b ∈ scene.children a ∨ a = parent ∧ b = ⟨scene.size⟩ := by
    intro a b hb
    by_cases ha : a = parent
    · rw [ha, hnew, List.mem_append, List.mem_singleton] at hb
      exact hb.imp (fun hb => ha ▸ hb) fun hb => ⟨ha, hb⟩
    · exact Or.inl (hold a ha ▸ hb)
  have hfresh : ∀ a, (⟨scene.size⟩ : NodeId) ∉ scene.children a :=
    fun a hb => lt_irrefl _ (hhomes.inRange a _ hb)
  refine ⟨?_, ?_, ?_, ?_, ?_, hhomes.home_le, ?_⟩
  · intro a b hb
    obtain hb | ⟨-, rfl⟩ := hedge a b hb
    · have hlt := hhomes.inRange a b hb
      omega
    · exact hsize ▸ Nat.lt_succ_self _
  · intro a b hb
    obtain hb | ⟨rfl, rfl⟩ := hedge a b hb
    · exact hhomes.rises a b hb
    · exact (hhomes.home_le a).trans_lt hparent
  · intro a b hb
    obtain hb | ⟨-, rfl⟩ := hedge a b hb
    · exact hhomes.child_home a b hb
    · exact hhomes.home_fresh _ le_rfl
  · intro a a' b hb hb'
    obtain hb | ⟨rfl, rfl⟩ := hedge a b hb
    · obtain hb' | ⟨-, rfl⟩ := hedge a' b hb'
      · exact hhomes.shared a a' b hb hb'
      · exact absurd hb (hfresh a)
    · obtain hb' | ⟨rfl, -⟩ := hedge a' _ hb'
      · exact absurd hb' (hfresh a')
      · rfl
  · intro a
    by_cases ha : a = parent
    · rw [ha, hnew, ← List.concat_eq_append]
      exact (hhomes.nodup parent).concat (hfresh parent)
    · rw [hold a ha]
      exact hhomes.nodup a
  · intro a ha
    exact hhomes.home_fresh a (by omega)

/-- A step keeps the invariant, with a home for the new node. -/
theorem step (hhomes : Homes scene home) (hstep : Step scene next) :
    ∃ home, Homes next home := by
  cases hstep with
  | kept hsize hchildren => exact ⟨_, hhomes.kept hsize hchildren⟩
  | copied source hsource hsize hnew hold => exact ⟨_, hhomes.copied hsource hsize hnew hold⟩
  | attached parent hparent hsize hnew hold =>
      exact ⟨_, hhomes.attached hparent hsize hnew hold⟩

/-- So do any changes. -/
theorem foldl_edit (hhomes : Homes scene home) (edits : List (Edit α)) :
    ∃ home, Homes (edits.foldl edit scene) home := by
  induction edits generalizing scene home with
  | nil => exact ⟨home, hhomes⟩
  | cons change edits ih =>
      obtain ⟨home, hnext⟩ := hhomes.step (scene.step_edit change)
      exact ih hnext

theorem home_lt (hhomes : Homes scene home) {a b : NodeId} (hchild : scene.HasChild a b) :
    (home a).index < (home b).index := by
  rw [hasChild_iff] at hchild
  rw [hhomes.child_home a b hchild]
  exact hhomes.rises a b hchild

/-- Children lie at later places than the homes of their parents, so no way down comes back. -/
theorem acyclic (hhomes : Homes scene home) : scene.Acyclic := by
  apply acyclic_of_rank fun a => (home a).index
  · intro a b hchild
    exact hhomes.inRange a b (hasChild_iff.mp hchild)
  · intro a b hchild
    exact hhomes.home_lt hchild

theorem home_eq_of_path (hhomes : Homes scene home) {a b : NodeId}
    (hpath : Relation.TransGen scene.HasChild a b) : home b = b := by
  obtain ⟨c, -, hchild⟩ := Relation.TransGen.tail'_iff.mp hpath
  exact hhomes.child_home c b (hasChild_iff.mp hchild)

/-- Below one node no child has two parents: the parents share a home, and of the nodes on the way
down only the first can be away from home. -/
theorem parent_unique (hhomes : Homes scene home) {root a a' b : NodeId}
    (hpath : Relation.ReflTransGen scene.HasChild root a)
    (hpath' : Relation.ReflTransGen scene.HasChild root a') (hchild : scene.HasChild a b)
    (hchild' : scene.HasChild a' b) : a = a' := by
  have hhome : home a = home a' :=
    hhomes.shared a a' b (hasChild_iff.mp hchild) (hasChild_iff.mp hchild')
  have hrise : ∀ {c}, Relation.TransGen scene.HasChild root c → home root ≠ home c := by
    intro c hpath heq
    have hlt := rank_lt_of_path (fun _ _ => hhomes.home_lt) hpath
    rw [heq] at hlt
    exact lt_irrefl _ hlt
  obtain rfl | hbelow := Relation.reflTransGen_iff_eq_or_transGen.mp hpath
  · obtain rfl | hbelow' := Relation.reflTransGen_iff_eq_or_transGen.mp hpath'
    · rfl
    · exact absurd hhome (hrise hbelow')
  · obtain rfl | hbelow' := Relation.reflTransGen_iff_eq_or_transGen.mp hpath'
    · exact absurd hhome.symm (hrise hbelow)
    · calc a = home a := (hhomes.home_eq_of_path hbelow).symm
        _ = home a' := hhome
        _ = a' := hhomes.home_eq_of_path hbelow'

theorem not_follow_self (hhomes : Homes scene home) {root : NodeId} {route : List Nat} {k : Nat}
    {groups : List (Group α)} : scene.follow root (route ++ [k]) ≠ some (groups, root) := by
  intro hfollow
  obtain ⟨upper, middle, group, hupper, hgroup, hlast⟩ := exists_last_step hfollow
  have hpath := Relation.TransGen.tail' (path_of_follow hupper) (hasChild_of_getElem? hgroup hlast)
  exact hhomes.acyclic.noCycle root hpath

/-- Two routes down from a node end at one node only if they are the same. -/
theorem route_unique (hhomes : Homes scene home) {root last : NodeId} {route route' : List Nat}
    {groups groups' : List (Group α)} (hfollow : scene.follow root route = some (groups, last))
    (hfollow' : scene.follow root route' = some (groups', last)) : route = route' := by
  -- From the end of the routes: their last parents agree, hence the routes to these do.
  induction route using List.reverseRecOn generalizing route' groups groups' last with
  | nil =>
      cases hfollow
      cases route' using List.reverseRecOn with
      | nil => rfl
      | append_singleton route' k' => exact absurd hfollow' hhomes.not_follow_self
  | append_singleton route k ih =>
      cases route' using List.reverseRecOn with
      | nil =>
          cases hfollow'
          exact absurd hfollow hhomes.not_follow_self
      | append_singleton route' k' =>
          obtain ⟨upper, middle, group, hupper, hgroup, hlast⟩ := exists_last_step hfollow
          obtain ⟨upper', middle', group', hupper', hgroup', hlast'⟩ := exists_last_step hfollow'
          obtain rfl := hhomes.parent_unique (path_of_follow hupper) (path_of_follow hupper')
            (hasChild_of_getElem? hgroup hlast) (hasChild_of_getElem? hgroup' hlast')
          obtain rfl := Option.some.inj (hgroup.symm.trans hgroup')
          have hnodup := children_of_group? hgroup ▸ hhomes.nodup middle
          have hk : k < group.children.length := (List.getElem?_eq_some_iff.mp hlast).1
          have hlast_eq : group.children[k]? = group.children[k']? := hlast.trans hlast'.symm
          rw [ih hupper hupper', (List.getElem?_inj hk hnodup).mp hlast_eq]

end Homes

/-! ### Unknown nodes -/

variable [Scalar α]

theorem not_unknownNode_of_shape (node : Node α) (frame : Frame α) (id x : NodeId) :
    .problem (.unknownNode x) ∉ node.emissions frame id := by
  cases node with
  | heightField m =>
      simp only [Node.emissions, HeightField.fragments, HeightField.problem?]
      split_ifs <;> simp [Emission.ofResult]
  | cellSurface m =>
      simp only [Node.emissions, CellSurface.fragments, CellSurface.problem?]
      split_ifs <;> simp [Emission.ofResult]
  | _ => simp [Node.emissions]

/-- A pass meets no unknown node but the one that it starts from. -/
theorem Acyclic.unknownNode_mem_iff (hscene : scene.Acyclic) (id : NodeId) (frame : Frame α)
    (x : NodeId) : .problem (.unknownNode x) ∈ scene.emissions id frame ↔
      x = id ∧ scene.size ≤ id.index := by
  induction id using hscene.induction generalizing frame with
  | _ id ih =>
      obtain hnode | ⟨group, hgroup⟩ | ⟨node, hnode, hshape⟩ := scene.node_cases id
      · simp [emissions_unknown hnode, node?_eq_none_iff.mp hnode]
      · have hid := index_lt_of_node? (group?_eq_some_iff.mp hgroup)
        have hnone : .problem (.unknownNode x) ∉ scene.emissions id frame := by
          rw [hscene.emissions_group hgroup]
          split
          · intro hmem
            obtain ⟨child, hchild, hmem⟩ := List.mem_flatMap.mp hmem
            have hunknown := (ih child ⟨group, hgroup, hchild⟩ _).mp hmem
            have hrange := hscene.inRange id child ⟨group, hgroup, hchild⟩
            omega
          · simp
        exact iff_of_false hnone fun h => absurd h.2 (not_le.mpr hid)
      · have hnone := not_unknownNode_of_shape node frame id x
        rw [← emissions_shape hnode hshape] at hnone
        exact iff_of_false hnone fun h => absurd h.2 (not_le.mpr (index_lt_of_node? hnode))

/-- Whatever edits made it, a scene has all its children in range, no cycle and no repeated child,
and different routes from a node end at different nodes. A pass therefore comes to its end by
itself, and the only node it can miss is the one it starts from. A new child is appended to the list
of its parent and changes nothing else; where that fails the scene stays as it was. -/
theorem history_keeps_topology (edits : List (Edit α)) :
    let scene := history edits
    (∀ a b, scene.HasChild a b → b.index < scene.size) ∧
      (∀ a, ¬ Relation.TransGen scene.HasChild a a) ∧
      (∀ id group, scene.group? id = some group → group.children.Nodup) ∧
      (∀ root last route groups, scene.follow root route = some (groups, last) →
        route.length ≤ scene.size ∧
          ∀ route' groups', scene.follow root route' = some (groups', last) → route = route') ∧
      (∀ id frame depth, scene.size < depth →
        scene.emissionsWithin depth id frame = scene.emissions id frame) ∧
      (∀ id frame list, ∃ reported,
        (scene.emitInto id frame list).problems.toList = list.problems.toList ++ reported ∧
          ∀ x, .unknownNode x ∈ reported ↔ x = id ∧ scene.size ≤ id.index) ∧
      ∀ parent (node : Childless α), let next := scene.edit (.addChild parent node)
        (scene.node? parent = none ∧
            scene.addChild parent node.node = .error (.unknownNode parent) ∧ next = scene) ∨
          (∃ shape, scene.node? parent = some shape ∧ shape.isGroup = false ∧
            scene.addChild parent node.node = .error (.notAGroup parent) ∧ next = scene) ∨
          ∃ group, scene.group? parent = some group ∧
            scene.addChild parent node.node = .ok (⟨scene.size⟩, next) ∧
            scene.GrowsBelow next parent group node.node := by
  intro scene
  obtain ⟨home, hhomes⟩ : ∃ home, Homes scene home := Homes.empty.foldl_edit edits
  have hscene := hhomes.acyclic
  refine ⟨hscene.inRange, hscene.noCycle, ?_, ?_, ?_, ?_, scene.edit_addChild_cases⟩
  · intro id group hgroup
    rw [← children_of_group? hgroup]
    exact hhomes.nodup id
  · intro root last route groups hfollow
    refine ⟨(hscene.length_le_card_met hfollow).trans (scene.card_met_le root), ?_⟩
    intro route' groups' hfollow'
    exact hhomes.route_unique hfollow hfollow'
  · intro id frame depth hdepth
    have hle := scene.card_met_le id
    exact hscene.emissionsWithin_eq id frame (by omega) (by omega)
  · intro id frame list
    refine ⟨_, (FragmentList.foldl_record _ list).2.1, ?_⟩
    intro x
    rw [← hscene.unknownNode_mem_iff id frame x, List.mem_filterMap]
    constructor
    · rintro ⟨e, he, hproblem⟩
      cases e <;> simp_all [Emission.problem?]
    · intro he
      exact ⟨_, he, rfl⟩

-- A copy keeps the child that its source has lost, which is older than the copy.
example :
    let scene : Scene ℚ := history [.add ⟨.group { transform := .identity }, rfl⟩,
      .addChild ⟨0⟩ ⟨.polyline {}, rfl⟩, .duplicate ⟨0⟩, .addChild ⟨2⟩ ⟨.polyline {}, rfl⟩,
      .replace ⟨0⟩ ⟨.group { transform := .identity }, rfl⟩, .addChild ⟨0⟩ ⟨.polyline {}, rfl⟩]
    scene.children ⟨0⟩ = [⟨4⟩] ∧ scene.children ⟨2⟩ = [⟨1⟩, ⟨3⟩] := by
  decide +kernel

end Scene

end PainterScene
