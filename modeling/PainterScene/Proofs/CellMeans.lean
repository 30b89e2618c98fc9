import PainterScene.Proofs.Wireframe
import PainterScene.Scalar.Reading

/-!
# Heights are means

A spot of a cell has the mean of the values of the cells around it, those outside the grid replaced
by the outermost cell. Along one axis the cell that is met is then the same on both sides, so all
cells around a place are met equally often: the mean is that of the cells of the grid that touch the
place, each counted once, and those without a value left out.
-/

namespace PainterScene

/-! ### Means of readings -/

namespace Reading

def amount (r : Reading) : ℚ :=
  r.value?.getD 0

def weight (r : Reading) : ℚ :=
  if r.value?.isSome then 1 else 0

theorem foldl_add_filter (l : List Reading) (q : ℚ) :
    (l.filter Scalar.isFinite).foldl (· + ·) (known q) = known (q + (l.map amount).sum) := by
  induction l generalizing q with
  | nil => simp
  | cons r l ih =>
      cases r with
      | missing => simp [ih, amount, value?]
      | known a => simp [List.filter_cons, ih, known_add, amount, value?, add_assoc]

theorem length_filter_isFinite (l : List Reading) :
    ((l.filter Scalar.isFinite).length : ℚ) = (l.map weight).sum := by
  induction l with
  | nil => rfl
  | cons r l ih =>
      cases r with
      | missing => simp [ih, weight, value?]
      | known a => simp [List.filter_cons, ih, weight, value?, add_comm]

/-- The mean of the known readings is their sum over their number. -/
theorem mean_filter {l : List Reading} (hknown : (l.map weight).sum ≠ 0) :
    Scalar.mean (l.filter Scalar.isFinite) = known ((l.map amount).sum / (l.map weight).sum) := by
  rw [← length_filter_isFinite] at hknown ⊢
  rw [Scalar.mean, zero_eq, foldl_add_filter, natCast_eq, known_div _ hknown, zero_add]

end Reading

namespace CellSurface

/-! ### Cells around a place -/

/-- The cells of a row of `n` that touch the place `k` half steps along it. -/
def touchedAt (n k : Nat) : Finset Nat :=
  (Finset.range n).filter fun c => 2 * c ≤ k ∧ k ≤ 2 * c + 2

theorem touchedAt_eq {n k : Nat} (hn : 0 < n) (hk : k ≤ 2 * n) :
    touchedAt n k = (cellsAt n k).toFinset := by
  ext c
  unfold touchedAt cellsAt
  split
  · simp
    omega
  · simp
    omega

/-- Along a row, the cells that touch a place are met equally often: once each, or twice where one
cell stands in for its missing neighbour. -/
theorem exists_sum_map_cellsAt {n k : Nat} (hn : 0 < n) (hk : k ≤ 2 * n) :
    ∃ times : ℚ, 0 < times ∧
      ∀ f : Nat → ℚ, ((cellsAt n k).map f).sum = times * ∑ c ∈ touchedAt n k, f c := by
  rw [touchedAt_eq hn hk]
  unfold cellsAt
  split
  · exact ⟨1, one_pos, fun f => by simp⟩
  · generalize min (k / 2 - 1) (n - 1) = before
    generalize min (k / 2) (n - 1) = after
    -- at a border both entries are the outermost cell
    by_cases hsame : before = after
    · refine ⟨2, two_pos, fun f => ?_⟩
      simp [hsame, two_mul]
    · refine ⟨1, one_pos, fun f => ?_⟩
      simp [hsame]

/-- Around a spot, the cells of the grid that touch it are met equally often. -/
theorem exists_sum_touchingValues {m : CellSurface Reading} {i1 i2 : Nat} (hi1 : i1 < m.cells1)
    (hi2 : i2 < m.cells2) (spot : Spot) :
    let place := spotPlace i1 i2 spot
    ∃ times : ℚ, 0 < times ∧ ∀ f : Reading → ℚ,
      ((m.touchingValues i1 i2 spot).map f).sum =
        times * ∑ c ∈ touchedAt m.cells1 place.1 ×ˢ touchedAt m.cells2 place.2,
          f (m.value c.1 c.2) := by
  intro place
  have hplace1 : place.1 ≤ 2 * m.cells1 := by
    simp only [place, spotPlace]
    omega
  have hplace2 : place.2 ≤ 2 * m.cells2 := by
    simp only [place, spotPlace]
    omega
  obtain ⟨times1, hpos1, hsum1⟩ := exists_sum_map_cellsAt (Nat.zero_lt_of_lt hi1) hplace1
  obtain ⟨times2, hpos2, hsum2⟩ := exists_sum_map_cellsAt (Nat.zero_lt_of_lt hi2) hplace2
  refine ⟨times1 * times2, mul_pos hpos1 hpos2, fun f => ?_⟩
  calc ((m.touchingValues i1 i2 spot).map f).sum
      = ((cellsAt m.cells1 place.1).map fun c1 =>
          ((cellsAt m.cells2 place.2).map fun c2 => f (m.value c1 c2)).sum).sum := by
        rw [touchingValues_eq, map_neighbour, map_neighbour, List.map_flatMap, List.flatMap_def,
          List.sum_flatten, List.map_map]
        simp only [Function.comp_def, List.map_map]
        rfl
    _ = times1 * ∑ c1 ∈ touchedAt m.cells1 place.1,
          times2 * ∑ c2 ∈ touchedAt m.cells2 place.2, f (m.value c1 c2) := by
        simp only [hsum2, hsum1]
    _ = times1 * times2 * ∑ c ∈ touchedAt m.cells1 place.1 ×ˢ touchedAt m.cells2 place.2,
          f (m.value c.1 c.2) := by
        rw [Finset.sum_product, ← Finset.mul_sum, mul_assoc]

def Touches (cell place : Nat × Nat) : Prop :=
  (2 * cell.1 ≤ place.1 ∧ place.1 ≤ 2 * cell.1 + 2) ∧
    2 * cell.2 ≤ place.2 ∧ place.2 ≤ 2 * cell.2 + 2

instance (cell place : Nat × Nat) : Decidable (Touches cell place) :=
  inferInstanceAs (Decidable (_ ∧ _))

theorem touches_spotPlace (i1 i2 : Nat) (spot : Spot) :
    Touches (i1, i2) (spotPlace i1 i2 spot) := by
  unfold Touches spotPlace
  simp only
  omega

/-! ### The mean over the cells around a spot -/

/-- The number stored for a cell, if it has one. -/
def measured? (m : CellSurface Reading) (cell : Nat × Nat) : Option ℚ :=
  (m.value? cell.1 cell.2).bind Reading.value?

def measuredAround (m : CellSurface Reading) (place : Nat × Nat) : Finset (Nat × Nat) :=
  (Finset.range m.cells1 ×ˢ Finset.range m.cells2).filter fun cell =>
    Touches cell place ∧ (m.measured? cell).isSome

section Complete

variable {m : CellSurface Reading} (hcomplete : m.values.size = m.cells1 * m.cells2)

include hcomplete

/-- In a complete surface every cell of the grid has an entry. -/
theorem measured?_eq {cell : Nat × Nat} (h1 : cell.1 < m.cells1) (h2 : cell.2 < m.cells2) :
    m.measured? cell = (m.value cell.1 cell.2).value? := by
  rw [measured?, value?_eq hcomplete h1 h2, Option.bind_some]

theorem measuredAround_eq (place : Nat × Nat) :
    m.measuredAround place =
      (touchedAt m.cells1 place.1 ×ˢ touchedAt m.cells2 place.2).filter fun cell =>
        (m.value cell.1 cell.2).value?.isSome := by
  ext cell
  simp only [measuredAround, touchedAt, Finset.mem_filter, Finset.mem_product, Finset.mem_range]
  constructor
  · rintro ⟨⟨h1, h2⟩, ⟨htouch1, htouch2⟩, hmeasured⟩
    rw [measured?_eq hcomplete h1 h2] at hmeasured
    exact ⟨⟨⟨h1, htouch1⟩, h2, htouch2⟩, hmeasured⟩
  · rintro ⟨⟨⟨h1, htouch1⟩, h2, htouch2⟩, hmeasured⟩
    rw [← measured?_eq hcomplete h1 h2] at hmeasured
    exact ⟨⟨h1, h2⟩, ⟨htouch1, htouch2⟩, hmeasured⟩

theorem card_measuredAround (place : Nat × Nat) :
    ((m.measuredAround place).card : ℚ) =
      ∑ c ∈ touchedAt m.cells1 place.1 ×ˢ touchedAt m.cells2 place.2, (m.value c.1 c.2).weight := by
  rw [measuredAround_eq hcomplete, Finset.natCast_card_filter]
  rfl

theorem sum_measuredAround (place : Nat × Nat) :
    ∑ c ∈ m.measuredAround place, (m.measured? c).getD 0 =
      ∑ c ∈ touchedAt m.cells1 place.1 ×ˢ touchedAt m.cells2 place.2, (m.value c.1 c.2).amount := by
  rw [measuredAround_eq hcomplete, Finset.sum_filter]
  refine Finset.sum_congr rfl fun c hc => ?_
  obtain ⟨h1, h2⟩ := Finset.mem_product.mp hc
  rw [measured?_eq hcomplete (Finset.mem_range.mp (Finset.mem_filter.mp h1).1)
    (Finset.mem_range.mp (Finset.mem_filter.mp h2).1), Reading.amount]
  cases (m.value c.1 c.2).value? <;> rfl

end Complete

/-- The centre of a cell with a value has the mean of that value alone. -/
theorem height_eq_mean_touching {m : CellSurface Reading} {i1 i2 : Nat} (hi1 : i1 < m.cells1)
    (hi2 : i2 < m.cells2) {q : ℚ} (hvalue : m.value i1 i2 = .known q) (spot : Spot) :
    m.height i1 i2 spot = Scalar.mean ((m.touchingValues i1 i2 spot).filter Scalar.isFinite) := by
  unfold height
  split
  · rename_i hcentre
    have hself1 : neighbour m.cells1 i1 1 = i1 := by
      unfold neighbour
      omega
    have hself2 : neighbour m.cells2 i2 1 = i2 := by
      unfold neighbour
      omega
    have hvalues : m.touchingValues i1 i2 (1, 1) = [.known q] := by
      simp [touchingValues, touching, hself1, hself2, hvalue]
    rw [hcentre, hvalues, Reading.mean_filter (by simp [Reading.weight, Reading.value?]), hvalue]
    simp [Reading.amount, Reading.weight, Reading.value?]
  · rfl

/-- **Heights are means.** On a surface with a value for each cell, missing ones included, every
spot of a cell with a value has the mean of the values of the cells of the grid that touch the spot,
each counted once. -/
theorem height_eq_mean_around (m : CellSurface Reading)
    (hcomplete : m.values.size = m.cells1 * m.cells2) (i1 i2 : Nat)
    (hi1 : i1 < m.cells1) (hi2 : i2 < m.cells2) (hmeasured : (m.measured? (i1, i2)).isSome)
    (spot : Spot) :
    let around := m.measuredAround (spotPlace i1 i2 spot)
    (i1, i2) ∈ around ∧
      m.height i1 i2 spot = .known ((∑ c ∈ around, (m.measured? c).getD 0) / around.card) := by
  intro around
  have hmem : (i1, i2) ∈ around := by
    refine Finset.mem_filter.mpr ⟨?_, touches_spotPlace i1 i2 spot, hmeasured⟩
    exact Finset.mem_product.mpr ⟨Finset.mem_range.mpr hi1, Finset.mem_range.mpr hi2⟩
  have hcard : (around.card : ℚ) ≠ 0 := by
    exact_mod_cast Finset.card_ne_zero_of_mem hmem
  obtain ⟨q, hvalue⟩ : ∃ q, m.value i1 i2 = .known q := by
    rw [measured?_eq hcomplete hi1 hi2] at hmeasured
    cases hvalue : m.value i1 i2 with
    | missing => simp [hvalue, Reading.value?] at hmeasured
    | known q => exact ⟨q, rfl⟩
  obtain ⟨times, hpos, hsum⟩ := exists_sum_touchingValues hi1 hi2 spot
  have hweights : ((m.touchingValues i1 i2 spot).map Reading.weight).sum = times * around.card := by
    rw [hsum, card_measuredAround hcomplete]
  have hamounts : ((m.touchingValues i1 i2 spot).map Reading.amount).sum =
      times * ∑ c ∈ around, (m.measured? c).getD 0 := by
    rw [hsum, sum_measuredAround hcomplete]
  have hknown : ((m.touchingValues i1 i2 spot).map Reading.weight).sum ≠ 0 := by
    rw [hweights]
    exact mul_ne_zero hpos.ne' hcard
  refine ⟨hmem, ?_⟩
  rw [height_eq_mean_touching hi1 hi2 hvalue, Reading.mean_filter hknown, hamounts, hweights,
    mul_div_mul_left _ _ hpos.ne']

/-- Three cells by two. The cell in the corner has a neighbour without a value. -/
def terrace : CellSurface Reading where
  edges1 := #[.known 0, .known 1, .known 2, .known 4]
  edges2 := #[.known 0, .known 1, .known 3]
  values := #[.known 1, .known 4, .missing, .known 2, .known 7, .known 5]
  valueAxis := .z
  axis1 := .x
  axis2 := .y

/-- At the corner that four cells share the missing value is left out, and at the border of the grid
the cell does not count twice. -/
theorem terrace_heights :
    terrace.problem? = none ∧ terrace.values.size = terrace.cells1 * terrace.cells2 ∧
    terrace.measured? (0, 0) = some 1 ∧
    terrace.measured? (1, 0) = none ∧
    terrace.measuredAround (spotPlace 0 0 (2, 2)) = {(0, 0), (0, 1), (1, 1)} ∧
    terrace.height 0 0 (2, 2) = .known (7 / 3) ∧
    terrace.measuredAround (spotPlace 0 0 (0, 2)) = {(0, 0), (0, 1)} ∧
    terrace.height 0 0 (0, 2) = .known (5 / 2) := by
  have hinner := height_eq_mean_around terrace (by decide) 0 0 (by decide) (by decide)
    (by decide) (2, 2)
  have hborder := height_eq_mean_around terrace (by decide) 0 0 (by decide) (by decide)
    (by decide) (0, 2)
  have haround : terrace.measuredAround (spotPlace 0 0 (2, 2)) = {(0, 0), (0, 1), (1, 1)} := by
    decide
  have haround' : terrace.measuredAround (spotPlace 0 0 (0, 2)) = {(0, 0), (0, 1)} := by
    decide
  refine ⟨by decide, by decide, by decide, by decide, haround, ?_, haround', ?_⟩
  · rw [hinner.2, haround]
    decide +kernel
  · rw [hborder.2, haround']
    decide +kernel

end CellSurface

end PainterScene
