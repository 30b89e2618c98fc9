import PainterScene.Proofs.Reprojection
import PainterScene.Proofs.Visits

/-!
# Generated fragments project onto themselves

A generated vertex is the projection of a homogeneous image, while projecting it anew starts from
the stored position at `w = 1`. An affine matrix keeps `w`, and products of affine matrices are
affine, so below any nest of affine groups the image of a point has `w = 1` and the two agree.
-/

namespace PainterScene

namespace Mat4

/-- The bottom row is 0, 0, 0, 1. -/
structure IsAffine (m : Mat4 ℚ) : Prop where
  x : m.x.w = 0
  y : m.y.w = 0
  z : m.z.w = 0
  w : m.w.w = 1

instance (m : Mat4 ℚ) : Decidable m.IsAffine :=
  decidable_of_iff (m.x.w = 0 ∧ m.y.w = 0 ∧ m.z.w = 0 ∧ m.w.w = 1)
    ⟨fun ⟨hx, hy, hz, hw⟩ => ⟨hx, hy, hz, hw⟩, fun h => ⟨h.x, h.y, h.z, h.w⟩⟩

namespace IsAffine

variable {m n : Mat4 ℚ}

theorem w_apply (hm : m.IsAffine) (v : Vec4 ℚ) : (m.apply v).w = v.w := by
  calc (m.apply v).w = m.x.w * v.x + m.y.w * v.y + m.z.w * v.z + m.w.w * v.w := rfl
    _ = v.w := by
      rw [hm.x, hm.y, hm.z, hm.w]
      ring

theorem mul (hm : m.IsAffine) (hn : n.IsAffine) : (m * n).IsAffine where
  x := (hm.w_apply n.x).trans hn.x
  y := (hm.w_apply n.y).trans hn.y
  z := (hm.w_apply n.z).trans hn.z
  w := (hm.w_apply n.w).trans hn.w

theorem foldl_mul {transforms : List (Mat4 ℚ)} (hm : m.IsAffine)
    (htransforms : ∀ t ∈ transforms, t.IsAffine) : (transforms.foldl (· * ·) m).IsAffine := by
  induction transforms generalizing m with
  | nil => exact hm
  | cons t transforms ih =>
      rw [List.forall_mem_cons] at htransforms
      exact ih (hm.mul htransforms.1) htransforms.2

/-- The homogeneous image of a point is its moved position at `w = 1`. -/
theorem apply_extend (hm : m.IsAffine) (p : Vec3 ℚ) :
    m.apply (p.extend 1) = (m.move p).extend 1 :=
  Vec4.ext rfl rfl rfl (hm.w_apply (p.extend 1))

end IsAffine

end Mat4

variable {frame : Frame ℚ} {f : Fragment ℚ}

/-- Below affine transforms the last coordinate is 1, so the projection of a placed point can be had
again from its position. -/
theorem Frame.reproject_place (hframe : frame.outer.IsAffine) (p : Vec3 ℚ) :
    (frame.place p).reproject frame.perspective = frame.place p := by
  have himage := hframe.apply_extend p
  rw [Vertex.reproject, place, himage]
  rfl

theorem Fragment.reproject_of_forall {m : Mat4 ℚ}
    (hf : ∀ v ∈ f.controlPoints, v.reproject m = v) : f.reproject m = f := by
  have hvertices : f.vertices.mapFirst f.kind.pointCount (Vertex.reproject m) = f.vertices := by
    obtain ⟨kind, _, _, _, _, ⟨a, b, c⟩, _⟩ := f
    cases kind <;>
      simp_all [controlPoints, Kind.pointCount, Triple.mapFirst, Triple.toList]
  rw [reproject, hvertices]

namespace Scene

variable {scene : Scene ℚ} {id last : NodeId} {groups : List (Group ℚ)}

theorem exists_group?_of_follow {route : List Nat}
    (hfollow : scene.follow id route = some (groups, last)) :
    ∀ group ∈ groups, ∃ id, scene.group? id = some group := by
  induction route generalizing id groups with
  | nil =>
      cases hfollow
      simp
  | cons k route ih =>
      obtain ⟨group, child, rest, hgroup, -, hbelow, rfl⟩ := follow_cons_eq_some_iff.mp hfollow
      exact List.forall_mem_cons.mpr ⟨⟨id, hgroup⟩, ih hbelow⟩

/-- Below affine groups, the transforms on the way to a leaf multiply to an affine one. -/
theorem Visits.isAffine {leaf : Leaf ℚ} (hvisits : scene.Visits id frame leaf)
    (houter : frame.outer.IsAffine)
    (hgroups : ∀ id group, scene.group? id = some group → group.transform.IsAffine) :
    (frame.within leaf.above).outer.IsAffine := by
  obtain ⟨route, -, hleaf, -⟩ := hvisits
  refine houter.foldl_mul ?_
  intro t ht
  obtain ⟨group, hgroup, rfl⟩ := List.mem_map.mp ht
  obtain ⟨above, hmem⟩ := exists_group?_of_follow (leafAt?_eq_some_iff.mp hleaf).1 group hgroup
  exact hgroups above group hmem

/-- With affine transforms throughout, every fragment that a pass appends stays as it is when it is
projected anew. It stores the points of an item of the leaf that it names as its source, moved by
the product of the transforms on the way down, and a label its second anchor moved alike. -/
theorem appended_reproject (scene : Scene ℚ) (outer : Mat4 ℚ) (camera : Camera ℚ)
    (houter : outer.IsAffine)
    (hgroups : ∀ id group, scene.group? id = some group → group.transform.IsAffine) (id : NodeId)
    (list : FragmentList ℚ) :
    ∀ f ∈ scene.appended id ⟨outer, camera.perspective⟩ list,
      f.reproject camera.perspective = f ∧
        ∃ leaf, scene.Visits id ⟨outer, camera.perspective⟩ leaf ∧ f.source = some leaf.id ∧
          let total := (leaf.above.map Group.transform).foldl (· * ·) outer
          ∃ item ∈ leaf.shape.items, f.kind = item.kind ∧
            f.controlPoints.map Vertex.position = item.points.map total.move ∧
            f.label? = item.label?.map fun label => (label.1, total.move label.2) := by
  intro f hf
  obtain ⟨leaf, g, index, hvisits, hg, rfl⟩ := exists_emission_of_mem_appended hf
  obtain ⟨item, hitem, hdraws, -⟩ := Node.exists_item hg
  have haffine := hvisits.isAffine houter hgroups
  refine ⟨Fragment.reproject_of_forall ?_, leaf, hvisits, hdraws.source_eq, item, hitem,
    hdraws.kind_eq, hdraws.positions_eq, hdraws.label?_eq⟩
  intro v hv
  obtain ⟨p, -, rfl⟩ := List.mem_map.mp (hdraws.controlPoints_eq ▸ hv)
  exact Frame.reproject_place haffine p

/-- Labels on a raised board and a grid, both on an easel that leans and widens. -/
def easel : Scene ℚ where
  nodes := #[
    .group {
      transform := ⟨⟨2, 0, 0, 0⟩, ⟨1, 1, 0, 0⟩, ⟨0, 0, 1, 0⟩, ⟨0, 0, -1, 1⟩⟩
      children := [⟨1⟩, ⟨3⟩] },
    .group { transform := .shift ⟨0, 1, 0⟩, facing := some ⟨0, 0, 1⟩, children := [⟨2⟩] },
    .labels {
      anchors := [0, 0, 0, 1, 1, 0], directions := [1, 0, 0, 2, 1, 0], names := ["a", "b"] },
    .heightField {
      positions1 := #[0, 1], positions2 := #[0, 1], heights := #[0, 1, 2, 3], heightAxis := .z,
      line := some ⟨0⟩, surface := some ⟨1⟩ }]

def quarterTurn : Mat4 ℚ :=
  ⟨⟨0, 1, 0, 0⟩, ⟨-1, 0, 0, 0⟩, ⟨0, 0, 1, 0⟩, ⟨0, 0, -4, 1⟩⟩

theorem appended_easel_reproject :
    quarterTurn.IsAffine ∧
      (∀ id group, easel.group? id = some group → group.transform.IsAffine) ∧
      (easel.appended ⟨0⟩ ⟨quarterTurn, Overlap.lens⟩ .empty).length = 8 ∧
      ∀ f ∈ easel.appended ⟨0⟩ ⟨quarterTurn, Overlap.lens⟩ .empty,
        f.reproject Overlap.lens = f ∧
          ∃ leaf, easel.Visits ⟨0⟩ ⟨quarterTurn, Overlap.lens⟩ leaf ∧ f.source = some leaf.id ∧
            let total := (leaf.above.map Group.transform).foldl (· * ·) quarterTurn
            ∃ item ∈ leaf.shape.items, f.kind = item.kind ∧
              f.controlPoints.map Vertex.position = item.points.map total.move ∧
              f.label? = item.label?.map fun label => (label.1, total.move label.2) := by
  have houter : quarterTurn.IsAffine := by decide +kernel
  have hindices : ∀ k : Fin 4, ∀ group ∈ easel.group? ⟨k⟩, group.transform.IsAffine := by
    decide +kernel
  have hgroups : ∀ id group, easel.group? id = some group → group.transform.IsAffine := by
    rintro ⟨k⟩ group hgroup
    have hk : k < 4 := index_lt_of_node? (group?_eq_some_iff.mp hgroup)
    exact hindices ⟨k, hk⟩ group hgroup
  have hlength : (easel.appended ⟨0⟩ ⟨quarterTurn, Overlap.lens⟩ .empty).length = 8 := by
    decide +kernel
  exact ⟨houter, hgroups, hlength,
    appended_reproject easel quarterTurn ⟨.identity, Overlap.lens⟩ houter hgroups ⟨0⟩ .empty⟩

end Scene

end PainterScene
