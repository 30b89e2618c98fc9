import PainterScene.Camera
import PainterScene.Proofs.Visits

/-!
# Which fragments can be drawn

Missing data never reaches the list. A sum of floats is finite only if all summands are, so a cell
of a height field with a missing corner has no triangles, and everything else is tested once it is
placed. The surface of a height field is not tested again then. A cell whose finite corners overflow
on the way to camera space therefore leaves fragments that cannot be drawn, and no other fragment of
a pass is like that.
-/

namespace PainterScene

/-! ### Finite sums -/

section Sums

open Float.Model

theorem unpackedAdd_cases {a b : UnpackedFloat} (hab : a.isFinite = false ∨ b.isFinite = false) :
    UnpackedFloat.add Format.binary64 a b = .notANumber ∨
      ∃ sign, UnpackedFloat.add Format.binary64 a b = .infinity sign := by
  cases a <;> cases b <;> simp_all [UnpackedFloat.isFinite, UnpackedFloat.add]
  -- what is left are two infinities, which cancel if their signs differ
  rename_i s t
  by_cases hsigns : s = t <;> simp [hsigns]

/-- A sum of floats is finite only if both of them are. -/
theorem isFinite_of_isFinite_add {a b : Float} (hsum : (a + b).isFinite = true) :
    a.isFinite = true ∧ b.isFinite = true := by
  have hnan : (Float.Model.pack .notANumber).unpack.isFinite = false := by decide +kernel
  have hinfinity : ∀ sign, (Float.Model.pack (.infinity sign)).unpack.isFinite = false := by
    intro sign
    cases sign <;> decide +kernel
  have hpacked : (Float.Model.pack (UnpackedFloat.add Format.binary64 a.toModel.unpack
      b.toModel.unpack)).unpack.isFinite = true := hsum
  by_contra hnot
  rw [not_and_or, Bool.not_eq_true, Bool.not_eq_true] at hnot
  obtain hresult | ⟨sign, hresult⟩ := unpackedAdd_cases hnot
  · rw [hresult, hnan] at hpacked
    cases hpacked
  · rw [hresult, hinfinity] at hpacked
    cases hpacked

theorem Stored.isFinite_of_isFinite_add {α : Type} [Stored α] {a b : α}
    (hsum : Scalar.isFinite (a + b) = true) :
    Scalar.isFinite a = true ∧ Scalar.isFinite b = true := by
  rw [isFinite_eq, toFloat_add] at hsum
  rw [isFinite_eq, isFinite_eq]
  exact PainterScene.isFinite_of_isFinite_add hsum

theorem Vec3.isFinite_of_isFinite_add {α : Type} [Stored α] {a b : Vec3 α}
    (hsum : (a + b).isFinite = true) : a.isFinite = true ∧ b.isFinite = true := by
  simp only [isFinite, Bool.and_eq_true] at hsum ⊢
  obtain ⟨⟨hx, hy⟩, hz⟩ := hsum
  obtain ⟨hax, hbx⟩ := Stored.isFinite_of_isFinite_add hx
  obtain ⟨hay, hby⟩ := Stored.isFinite_of_isFinite_add hy
  obtain ⟨haz, hbz⟩ := Stored.isFinite_of_isFinite_add hz
  exact ⟨⟨⟨hax, hay⟩, haz⟩, ⟨hbx, hby⟩, hbz⟩

end Sums

/-! ### The surface of a height field -/

section Surface

variable {α : Type} [Scalar α] {frame : Frame α} {id : NodeId} {f : Fragment α} {item : Item α}

theorem Frame.Draws.isFinite_eq (hf : frame.Draws id item f) :
    f.isFinite = item.points.all fun p => (frame.outer.move p).isFinite := by
  rw [Fragment.isFinite, hf.controlPoints_eq, List.all_map]
  rfl

theorem Fragment.isDrawable_eq_false (hf : f.isFinite = false) : f.isDrawable = false := by
  rw [isDrawable, hf, Bool.false_and]

namespace HeightField

variable {m : HeightField α} {i j : Nat}

def corners (m : HeightField α) (i j : Nat) : List (Vec3 α) :=
  [m.point i j, m.point (i + 1) j, m.point i (j + 1), m.point (i + 1) (j + 1)]

/-- The cell is drawn, since its corners have a finite sum, but some corner is not finite once it is
placed. -/
structure Overflows (m : HeightField α) (frame : Frame α) (i j : Nat) : Prop where
  row : i + 1 < m.rows
  column : j + 1 < m.columns
  surface : m.surface.isSome = true
  complete : m.problem? = none
  sum : (m.cornerSum i j).isFinite = true
  corner : ∃ p ∈ m.corners i j, (frame.outer.move p).isFinite = false

theorem mem_triangles_iff : f ∈ m.triangles frame id ↔ m.surface.isSome = true ∧
    ∃ i j, i + 1 < m.rows ∧ j + 1 < m.columns ∧ f ∈ m.cellTriangles frame id i j := by
  unfold triangles
  split
  · simp_all
  · rename_i hsurface
    rw [Bool.not_eq_true, Option.isNone_eq_false_iff] at hsurface
    simp only [List.mem_flatMap, List.mem_range, hsurface, true_and, Nat.lt_sub_iff_add_lt]
    constructor
    · rintro ⟨i, hi, j, hj, hf⟩
      exact ⟨i, j, hi, hj, hf⟩
    · rintro ⟨i, j, hi, hj, hf⟩
      exact ⟨i, hi, j, hj, hf⟩

theorem mem_corners_iff {p : Vec3 α} :
    p ∈ m.corners i j ↔ ∃ item ∈ m.cellItems i j, p ∈ item.points := by
  simp only [corners, cellItems, List.mem_cons, List.not_mem_nil, or_false, exists_eq_or_imp,
    exists_eq_left, Item.points, Triple.toList]
  tauto

theorem isFinite_cornerSum (hf : f ∈ m.cellTriangles frame id i j) :
    (m.cornerSum i j).isFinite = true := by
  unfold cellTriangles at hf
  split at hf
  · assumption
  · cases hf

/-- A cell whose corners have a finite sum draws both of its triangles. -/
theorem exists_mem_cellTriangles (hsum : (m.cornerSum i j).isFinite = true)
    (hitem : item ∈ m.cellItems i j) (frame : Frame α) (id : NodeId) :
    ∃ f ∈ m.cellTriangles frame id i j, frame.Draws id item f := by
  rw [cellTriangles, if_pos hsum, cellPair]
  obtain rfl | rfl := List.mem_pair.mp hitem
  · exact ⟨_, List.mem_map_of_mem List.mem_cons_self, .triangle m.surface _⟩
  · exact ⟨_, List.mem_map_of_mem (List.mem_cons_of_mem _ List.mem_cons_self),
      .triangle m.surface _⟩

/-- A fragment of the surface that cannot be drawn comes from a cell that overflows. -/
theorem overflows_of_mem_triangles (hcomplete : m.problem? = none)
    (hf : f ∈ m.triangles frame id) (hdrawable : f.isDrawable = false) :
    ∃ i j, m.Overflows frame i j ∧ ∃ item ∈ m.cellItems i j, frame.Draws id item f := by
  obtain ⟨hsurface, i, j, hi, hj, hf⟩ := mem_triangles_iff.mp hf
  obtain ⟨item, hitem, hdraws⟩ := exists_item_of_mem_cellTriangles hf
  have hinfinite : f.isFinite = false := by
    by_contra hfinite
    rw [Bool.not_eq_false] at hfinite
    have hpayload : f.payload = none := by
      obtain rfl | rfl := List.mem_pair.mp hitem <;> cases hdraws <;> rfl
    rw [Fragment.isDrawable_of_isFinite hpayload hfinite] at hdrawable
    cases hdrawable
  rw [hdraws.isFinite_eq, List.all_eq_false] at hinfinite
  obtain ⟨p, hp, hplaced⟩ := hinfinite
  have hcorner : p ∈ m.corners i j := mem_corners_iff.mpr ⟨item, hitem, hp⟩
  exact ⟨i, j, ⟨hi, hj, hsurface, hcomplete, isFinite_cornerSum hf,
    ⟨p, hcorner, Bool.not_eq_true _ ▸ hplaced⟩⟩, item, hitem, hdraws⟩

/-- A cell that overflows leaves a fragment that cannot be drawn. -/
theorem Overflows.exists_fragment (hcell : m.Overflows frame i j) (id : NodeId) :
    ∃ f, .fragment f ∈ (Node.heightField m).emissions frame id ∧ f.isDrawable = false := by
  obtain ⟨p, hcorner, hplaced⟩ := hcell.corner
  obtain ⟨item, hitem, hp⟩ := mem_corners_iff.mp hcorner
  obtain ⟨f, hf, hdraws⟩ := exists_mem_cellTriangles hcell.sum hitem frame id
  have hinfinite : f.isFinite = false := by
    rw [hdraws.isFinite_eq, List.all_eq_false]
    exact ⟨p, hp, by simp [hplaced]⟩
  have htriangles : f ∈ m.triangles frame id :=
    mem_triangles_iff.mpr ⟨hcell.surface, i, j, hcell.row, hcell.column, hf⟩
  have hfragments : m.fragments frame id = .ok (m.wireframe frame id ++ m.triangles frame id) :=
    fragments_eq_ok_iff.mpr ⟨hcell.complete, rfl⟩
  refine ⟨f, ?_, Fragment.isDrawable_eq_false hinfinite⟩
  rw [Node.emissions, hfragments]
  exact List.mem_map_of_mem (List.mem_append_right _ htriangles)

theorem Overflows.isFinite_of_mem_corners {α : Type} [Stored α] {m : HeightField α}
    {frame : Frame α} (hcell : m.Overflows frame i j) {p : Vec3 α} (hp : p ∈ m.corners i j) :
    p.isFinite = true := by
  obtain ⟨hfirst, h3⟩ := Vec3.isFinite_of_isFinite_add hcell.sum
  obtain ⟨hfirst, h2⟩ := Vec3.isFinite_of_isFinite_add hfirst
  obtain ⟨h0, h1⟩ := Vec3.isFinite_of_isFinite_add hfirst
  simp only [corners, List.mem_cons, List.not_mem_nil, or_false] at hp
  obtain rfl | rfl | rfl | rfl := hp
  · exact h0
  · exact h1
  · exact h2
  · exact h3

end HeightField

end Surface

namespace Scene

variable {α : Type} [Stored α]

/-- Every fragment that cannot be drawn is a triangle of a visited cell that overflows. -/
theorem overflow_of_mem_appended {scene : Scene α} {id : NodeId} {frame : Frame α}
    {list : FragmentList α} {f : Fragment α} (hf : f ∈ scene.appended id frame list)
    (hdrawable : f.isDrawable = false) :
    f.kind = .triangle ∧ ∃ leaf m i j, scene.Visits id frame leaf ∧
      leaf.shape = .heightField m ∧ f.source = some leaf.id ∧
      m.Overflows (frame.within leaf.above) i j ∧ (∀ p ∈ m.corners i j, p.isFinite = true) ∧
      ∃ item ∈ m.cellItems i j, f.controlPoints.map Vertex.position =
        item.points.map (frame.within leaf.above).outer.move := by
  obtain ⟨leaf, g, index, hvisits, hg, rfl⟩ := exists_emission_of_mem_appended hf
  obtain ⟨-, -, -, htested | ⟨m, hshape, hcomplete, hg⟩⟩ := Node.exists_item hg
  · cases htested.symm.trans hdrawable
  · obtain ⟨i, j, hcell, item, hitem, hdraws⟩ :=
      HeightField.overflows_of_mem_triangles hcomplete hg hdrawable
    have hkind : item.kind = .triangle := by
      obtain rfl | rfl := List.mem_pair.mp hitem <;> rfl
    exact ⟨hdraws.kind_eq.trans hkind, leaf, m, i, j, hvisits, hshape, hdraws.source_eq, hcell,
      fun p hp => hcell.isFinite_of_mem_corners hp, item, hitem, hdraws.positions_eq⟩

/-- A pass appends only fragments that can be drawn if and only if it visits no height field with a
cell that overflows. A fragment that cannot be drawn is a triangle of such a cell, whose corners are
all finite before they are placed. -/
theorem appended_isDrawable_iff (scene : Scene α) (id : NodeId) (outer : Mat4 α)
    (camera : Camera α) (list : FragmentList α) :
    let frame : Frame α := ⟨outer, camera.perspective⟩
    ((∀ f ∈ scene.appended id frame list, f.isDrawable = true) ↔
      ∀ leaf m i j, scene.Visits id frame leaf → leaf.shape = .heightField m →
        ¬ m.Overflows (frame.within leaf.above) i j) ∧
      ∀ f ∈ scene.appended id frame list, f.isDrawable = false →
        f.kind = .triangle ∧ ∃ leaf m i j, scene.Visits id frame leaf ∧
          leaf.shape = .heightField m ∧ f.source = some leaf.id ∧
          m.Overflows (frame.within leaf.above) i j ∧
          (∀ p ∈ m.corners i j, p.isFinite = true) ∧
          ∃ item ∈ m.cellItems i j, f.controlPoints.map Vertex.position =
            item.points.map (frame.within leaf.above).outer.move := by
  intro frame
  refine ⟨⟨?_, ?_⟩, fun f hf hdrawable => overflow_of_mem_appended hf hdrawable⟩
  · intro hall leaf m i j hvisits hshape hcell
    obtain ⟨f, hf, hdrawable⟩ := hcell.exists_fragment leaf.id
    obtain ⟨index, hmem⟩ := exists_mem_appended hvisits (hshape ▸ hf) list
    cases (hall _ hmem).symm.trans hdrawable
  · intro hcells f hf
    by_contra hdrawable
    obtain ⟨-, leaf, m, i, j, hvisits, hshape, -, hcell, -⟩ :=
      overflow_of_mem_appended hf (Bool.not_eq_true _ ▸ hdrawable)
    exact hcells leaf m i j hvisits hshape hcell

/-- A surface of one cell with a tip at 2 ^ 1023. -/
def spire : Scene Float where
  nodes := #[
    .heightField {
      positions1 := #[0, 1], positions2 := #[0, 1], heightAxis := .z, surface := some ⟨0⟩,
      heights := #[0, 0, Float.ofBits 0x7fe0000000000000, 0] }]

def tenfold : Mat4 Float :=
  ⟨⟨10, 0, 0, 0⟩, ⟨0, 10, 0, 0⟩, ⟨0, 0, 10, 0⟩, ⟨0, 0, 0, 1⟩⟩

/-- Enlarged tenfold, the tip overflows, and both triangles that share it are appended. -/
theorem spire_not_drawable :
    (spire.appended ⟨0⟩ ⟨tenfold, Camera.standard.perspective⟩ .empty).map Fragment.isDrawable =
      [false, false] := by
  decide +kernel

end Scene

end PainterScene
