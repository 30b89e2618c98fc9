import PainterScene.Proofs.Corners
import PainterScene.Proofs.FloatDistances

/-!
# Merging neighbours

Merging goes over a polygon once, comparing each vertex with the last one kept, and then takes
vertices from the end while they lie close to the first. Closeness is not transitive, yet the result
has no close neighbours anywhere on its boundary, and all that was dropped can be dropped one vertex
at a time, each next to a vertex that it is close to. In floating point this holds of the distances
as they are computed.
-/

namespace PainterScene.Polygon

section Scalars

variable {α : Type}

/-- Vertex `b` comes after `a` on the boundary, at another place; the first comes after the last. -/
def Follows (poly : Polygon α) (a b : Vec2 α) : Prop :=
  ∃ i j, i ≠ j ∧ j = (i + 1) % poly.length ∧ poly[i]? = some a ∧ poly[j]? = some b

variable [Scalar α]

/-- A vertex is dropped that lies within `tol` of the one before it, or the last one if it lies
within `tol` of the first. -/
inductive MergeStep (tol : α) : Polygon α → Polygon α → Prop
  | next (before after : Polygon α) {a b : Vec2 α} (hclose : a.distSq b ≤ tol * tol) :
      MergeStep tol (before ++ a :: b :: after) (before ++ a :: after)
  | ends (between : Polygon α) {p q : Vec2 α} (hclose : p.distSq q ≤ tol * tol) :
      MergeStep tol (p :: (between ++ [q])) (p :: between)

variable {tol : α} {poly : Polygon α}

theorem head?_merge (tol : α) (poly : Polygon α) : (merge tol poly).head? = poly.head? := by
  cases poly with
  | nil => rfl
  | cons p rest => rfl

/-! ### One vertex at a time -/

/-- Dropping repeats is a sequence of steps; the vertices before the current one are carried along.
-/
theorem reflTransGen_dropRepeats (tol : α) (before : Polygon α) (kept : Vec2 α)
    (poly : Polygon α) :
    Relation.ReflTransGen (MergeStep tol) (before ++ kept :: poly)
      (before ++ kept :: dropRepeats tol kept poly) := by
  induction poly generalizing before kept with
  | nil => exact .refl
  | cons p rest ih =>
      rw [dropRepeats]
      split
      · rename_i hclose
        exact .head (.next before rest hclose) (ih before kept)
      · have hkept := ih (before ++ [kept]) p
        simpa using hkept

theorem reflTransGen_trimEnd {first : Vec2 α}
    (hdecided : ∀ q ∈ poly, first.distSq q ≤ tol * tol ∨ tol * tol < first.distSq q) :
    Relation.ReflTransGen (MergeStep tol) (first :: poly) (first :: trimEnd tol first poly) := by
  rw [trimEnd_eq_rdropWhile]
  induction poly using List.reverseRecOn with
  | nil => exact .refl
  | append_singleton poly q ih =>
      rw [List.rdropWhile_concat]
      split
      · rename_i hnotFar
        have hclose : first.distSq q ≤ tol * tol :=
          (hdecided q (by simp)).resolve_right (by simpa using hnotFar)
        refine .head (.ends poly hclose) (ih fun r hr => hdecided r (by simp [hr]))
      · exact .refl

/-- Where distances are decided, merging drops one vertex after another. -/
theorem reflTransGen_merge
    (hdecided : ∀ p ∈ poly, ∀ q ∈ poly, p.distSq q ≤ tol * tol ∨ tol * tol < p.distSq q) :
    Relation.ReflTransGen (MergeStep tol) poly (merge tol poly) := by
  cases poly with
  | nil => exact .refl
  | cons p rest =>
      refine (reflTransGen_dropRepeats tol [] p rest).trans (reflTransGen_trimEnd fun q hq => ?_)
      have hmem : q ∈ rest := (dropRepeats_sublist tol p rest).subset hq
      exact hdecided p List.mem_cons_self q (List.mem_cons_of_mem p hmem)

/-! ### Nothing is left to merge -/

theorem dropRepeats_eq_self {kept : Vec2 α}
    (hchain : (kept :: poly).IsChain fun a b => ¬ a.distSq b ≤ tol * tol) :
    dropRepeats tol kept poly = poly := by
  induction poly generalizing kept with
  | nil => rfl
  | cons p rest ih =>
      obtain ⟨hfar, hrest⟩ := List.isChain_cons_cons.mp hchain
      rw [dropRepeats, if_neg hfar, ih hrest]

/-- What is left by merging is not merged any further. -/
theorem merge_merge (tol : α) (poly : Polygon α) : merge tol (merge tol poly) = merge tol poly := by
  have hchain := isChain_merge tol poly
  cases poly with
  | nil => rfl
  | cons p rest =>
      rw [merge] at hchain ⊢
      rw [merge, dropRepeats_eq_self hchain, trimEnd_eq_rdropWhile, trimEnd_eq_rdropWhile,
        List.rdropWhile_idempotent]

/-- Along the list the test of the first pass has failed; back to the first vertex that of the
second has succeeded. -/
theorem Follows.far_of_merge {a b : Vec2 α} (hfollows : (merge tol poly).Follows a b) :
    ¬ a.distSq b ≤ tol * tol ∨ tol * tol < b.distSq a := by
  obtain ⟨i, j, hij, hj, ha, hb⟩ := hfollows
  obtain ⟨hi, hvertex⟩ := List.getElem?_eq_some_iff.mp ha
  obtain ⟨hj', hvertex'⟩ := List.getElem?_eq_some_iff.mp hb
  obtain hinner | hlast := Nat.lt_or_eq_of_le (Nat.succ_le_of_lt hi)
  · obtain rfl : j = i + 1 := hj.trans (Nat.mod_eq_of_lt hinner)
    have hfar := (isChain_merge tol poly).getElem i hinner
    rw [hvertex, hvertex'] at hfar
    exact Or.inl hfar
  · have hlength : (merge tol poly).length = i + 1 := hlast.symm
    obtain rfl : j = 0 := by rw [hj, hlength, Nat.mod_self]
    cases hmerge : merge tol poly with
    | nil => simp [hmerge] at hlength
    | cons p rest =>
        rw [hmerge] at ha hb hlength
        obtain rfl : p = b := by simpa using hb
        obtain rfl | ⟨l, q, rfl⟩ := rest.eq_nil_or_concat'
        · exact absurd (Nat.succ.inj hlength).symm hij
        · obtain rfl : i = l.length + 1 := by simpa using hlength.symm
          obtain rfl : q = a := by simpa using ha
          exact Or.inr (lt_distSq_ends_merge hmerge)

end Scalars

/-! ### Distances as computed -/

section Computed

variable {α : Type} [Stored α]

theorem isNaN_mergeDistance_sq :
    (Stored.toFloat (mergeDistance * mergeDistance : α)).isNaN = false := by
  rw [Stored.toFloat_mul, mergeDistance, Stored.toFloat_ofScientific]
  decide +kernel

/-- Merging keeps the first vertex and some of the others, leaves no two neighbours within the
distance of each other, changes nothing when it is repeated, and drops no vertex but next to one
within that distance. -/
theorem merge_leaves_neighbours_apart (poly : Polygon α)
    (hfinite : ∀ v ∈ poly, v.isFinite = true) :
    (merge mergeDistance poly).Sublist poly ∧
      (merge mergeDistance poly).head? = poly.head? ∧
      (∀ a b, (merge mergeDistance poly).Follows a b →
        ¬ a.distSq b ≤ mergeDistance * mergeDistance ∧
          ¬ b.distSq a ≤ mergeDistance * mergeDistance) ∧
      merge mergeDistance (merge mergeDistance poly) = merge mergeDistance poly ∧
      Relation.ReflTransGen (MergeStep mergeDistance) poly (merge mergeDistance poly) := by
  refine ⟨merge_sublist _ _, head?_merge _ _, fun a b hfollows => ?_, merge_merge _ _,
    reflTransGen_merge fun p hp q hq => ?_⟩
  · rw [b.distSq_le_comm a, and_self]
    obtain hfar | hfar := hfollows.far_of_merge
    · exact hfar
    · rw [a.distSq_le_comm b]
      exact Vec2.not_distSq_le_of_lt hfar
  · exact Vec2.le_or_lt_distSq isNaN_mergeDistance_sq (hfinite p hp) (hfinite q hq)

end Computed

/-- The last two vertices are too far from each other to be merged, and both are close to the
first. -/
def pinched : Polygon Float :=
  [⟨0, 0⟩, ⟨1, 0⟩, ⟨0, 9e-13⟩, ⟨0, -9e-13⟩]

theorem merge_pinched :
    (∀ v ∈ pinched, v.isFinite = true) ∧ merge mergeDistance pinched = [⟨0, 0⟩, ⟨1, 0⟩] ∧
      ¬ (⟨0, 9e-13⟩ : Vec2 Float).distSq ⟨0, -9e-13⟩ ≤ mergeDistance * mergeDistance ∧
      Relation.ReflTransGen (MergeStep mergeDistance) pinched [⟨0, 0⟩, ⟨1, 0⟩] := by
  have hfinite : ∀ v ∈ pinched, v.isFinite = true := by decide +kernel
  have hmerge : merge mergeDistance pinched = [⟨0, 0⟩, ⟨1, 0⟩] := by decide +kernel
  obtain ⟨-, -, -, -, hsteps⟩ := merge_leaves_neighbours_apart pinched hfinite
  exact ⟨hfinite, hmerge, by decide +kernel, hmerge ▸ hsteps⟩

end PainterScene.Polygon
