import PainterScene.Proofs.Accesses
import PainterScene.Proofs.Continuity

/-!
# Grid edges and the ledger

An edge of a grid is one step from a grid point along an axis, whichever cell it is seen from. The
ledger of claims files the sides of a cell under the edges they run along: two sides have the same
entry exactly when they are the same edge, so a claim succeeds once for each edge.
-/

namespace PainterScene

/-- One step from a grid point, along the first axis or along the second. -/
@[ext]
structure GridEdge where
  start : Nat × Nat
  along1 : Bool
deriving DecidableEq

namespace GridEdge

def stop (e : GridEdge) : Nat × Nat :=
  if e.along1 then (e.start.1 + 1, e.start.2) else (e.start.1, e.start.2 + 1)

def IsCorner (cell point : Nat × Nat) : Prop :=
  (point.1 = cell.1 ∨ point.1 = cell.1 + 1) ∧ (point.2 = cell.2 ∨ point.2 = cell.2 + 1)

instance (cell point : Nat × Nat) : Decidable (IsCorner cell point) :=
  inferInstanceAs (Decidable (_ ∧ _))

/-- An edge adjoins the cells that have both its ends as corners. -/
def Adjoins (e : GridEdge) (cell : Nat × Nat) : Prop :=
  IsCorner cell e.start ∧ IsCorner cell e.stop

instance (e : GridEdge) (cell : Nat × Nat) : Decidable (e.Adjoins cell) :=
  inferInstanceAs (Decidable (_ ∧ _))

end GridEdge

namespace Side

def edge (i1 i2 : Nat) (side : Side) : GridEdge :=
  ⟨(side.ends i1 i2).1, side.along1⟩

theorem stop_edge (i1 i2 : Nat) (side : Side) :
    (side.edge i1 i2).stop = (side.ends i1 i2).2 := by
  cases side <;> rfl

theorem edge_injective (i1 i2 : Nat) : Function.Injective (edge i1 i2) := by
  intro side side' hedge
  cases side <;> cases side' <;> simp [edge, ends, along1] at hedge ⊢

/-- The edges that adjoin a cell are those along its sides. -/
theorem adjoins_iff {e : GridEdge} {i1 i2 : Nat} :
    e.Adjoins (i1, i2) ↔ ∃ side : Side, side.edge i1 i2 = e := by
  obtain ⟨⟨p1, p2⟩, along⟩ := e
  constructor
  · rintro ⟨⟨hstart1, hstart2⟩, hstop⟩
    cases along with
    | true =>
        -- an edge along the first axis starts at the low bound of the cell there
        have hlow : p1 = i1 := by
          have hstop1 : p1 + 1 = i1 ∨ p1 + 1 = i1 + 1 := hstop.1
          simp only at hstart1
          omega
        obtain h2 | h2 := hstart2
        · exact ⟨low2, by simp_all [edge, ends, along1]⟩
        · exact ⟨high2, by simp_all [edge, ends, along1]⟩
    | false =>
        have hlow : p2 = i2 := by
          have hstop2 : p2 + 1 = i2 ∨ p2 + 1 = i2 + 1 := hstop.2
          simp only at hstart2
          omega
        obtain h1 | h1 := hstart1
        · exact ⟨low1, by simp_all [edge, ends, along1]⟩
        · exact ⟨high1, by simp_all [edge, ends, along1]⟩
  · rintro ⟨side, hside⟩
    rw [← hside]
    refine ⟨?_, ?_⟩
    · cases side <;> simp [GridEdge.IsCorner, edge, ends]
    · rw [stop_edge]
      cases side <;> simp [GridEdge.IsCorner, ends]

end Side

namespace EdgeLedger

variable {ledger : EdgeLedger} {n1 n2 i1 i2 j1 j2 : Nat} {taken : Finset GridEdge}

theorem entry_eq (ledger : EdgeLedger) (i1 i2 : Nat) (side : Side) :
    ledger.entry i1 i2 side =
      2 * ledger.place (side.edge i1 i2).start.1 (side.edge i1 i2).start.2 +
        if (side.edge i1 i2).along1 then 0 else 1 := by
  cases side <;> rfl

theorem start_le (hi1 : i1 < n1) (hi2 : i2 < n2) (side : Side) :
    (side.edge i1 i2).start.1 ≤ n1 ∧ (side.edge i1 i2).start.2 ≤ n2 := by
  cases side <;> simp [Side.edge, Side.ends] <;> omega

/-- Points of the grid have different places. -/
theorem Covers.place_inj (hledger : ledger.Covers n1 n2) {v w : Nat × Nat}
    (hv : v.1 ≤ n1 ∧ v.2 ≤ n2) (hw : w.1 ≤ n1 ∧ w.2 ≤ n2) :
    ledger.place v.1 v.2 = ledger.place w.1 w.2 ↔ v = w := by
  rw [(hledger.place_eq hv.1 hv.2).1, (hledger.place_eq hw.1 hw.2).1]
  constructor
  · intro hplace
    have hsecond : v.2 = w.2 := by
      have hmod := congrArg (· % (n2 + 1)) hplace
      simpa [Nat.mul_add_mod', Nat.mod_eq_of_lt (Nat.lt_succ_of_le hv.2),
        Nat.mod_eq_of_lt (Nat.lt_succ_of_le hw.2)] using hmod
    rw [hsecond] at hplace
    exact Prod.ext (Nat.eq_of_mul_eq_mul_right n2.succ_pos (Nat.add_right_cancel hplace)) hsecond
  · rintro rfl
    rfl

/-- Sides share an entry exactly when they run along the same edge. -/
theorem entry_eq_entry_iff (hledger : ledger.Covers n1 n2) (hi : i1 < n1 ∧ i2 < n2)
    (hj : j1 < n1 ∧ j2 < n2) (side side' : Side) :
    ledger.entry i1 i2 side = ledger.entry j1 j2 side' ↔ side.edge i1 i2 = side'.edge j1 j2 := by
  constructor
  · intro hentry
    rw [entry_eq, entry_eq] at hentry
    have hstart := start_le hi.1 hi.2 side
    have hstart' := start_le hj.1 hj.2 side'
    generalize side.edge i1 i2 = e at hentry hstart
    generalize side'.edge j1 j2 = e' at hentry hstart'
    have halong : e.along1 = e'.along1 := by
      cases he : e.along1 <;> cases he' : e'.along1 <;> simp [he, he'] at hentry ⊢ <;> omega
    have hplace : ledger.place e.start.1 e.start.2 = ledger.place e'.start.1 e'.start.2 := by
      rw [halong] at hentry
      omega
    exact GridEdge.ext ((hledger.place_inj hstart hstart').mp hplace) halong
  · intro hedge
    rw [entry_eq, entry_eq, hedge]

/-- The ledger covers the grid, and the edges claimed in it are those taken. -/
structure Records (ledger : EdgeLedger) (n1 n2 : Nat) (taken : Finset GridEdge) : Prop
    extends ledger.Covers n1 n2 where
  claimed_eq : ∀ i1 < n1, ∀ i2 < n2, ∀ side : Side,
    ledger.claimed[ledger.entry i1 i2 side]? = some (decide (side.edge i1 i2 ∈ taken))

theorem Fits.records_ofCells (hfits : Fits n1 n2) : (ofCells n1 n2).Records n1 n2 ∅ where
  toCovers := hfits.covers_ofCells
  claimed_eq := by
    intro i1 hi1 i2 hi2 side
    have hentry := hfits.covers_ofCells.entry_lt hi1 hi2 side
    rw [Array.getElem?_eq_getElem hentry]
    simp [ofCells]

/-- A claim succeeds if its edge was free, and from then on the edge is taken. -/
theorem Records.claim? (hrecords : ledger.Records n1 n2 taken) (hi1 : i1 < n1) (hi2 : i2 < n2)
    (side : Side) :
    ∃ next, ledger.claim? i1 i2 side = some (decide (side.edge i1 i2 ∉ taken), next) ∧
      next.Records n1 n2 (insert (side.edge i1 i2) taken) := by
  have hentry := hrecords.entry_lt hi1 hi2 side
  refine ⟨{ ledger with claimed := ledger.claimed.setIfInBounds (ledger.entry i1 i2 side) true },
    ?_, ⟨⟨hrecords.fits, hrecords.stride_eq, ?_⟩, ?_⟩⟩
  · rw [EdgeLedger.claim?, hrecords.claimed_eq i1 hi1 i2 hi2, Option.map_some, decide_not]
  · rw [Array.size_setIfInBounds, hrecords.size_eq]
  · intro j1 hj1 j2 hj2 other
    change (ledger.claimed.setIfInBounds (ledger.entry i1 i2 side) true)[
      ledger.entry j1 j2 other]? = _
    by_cases hsame : ledger.entry i1 i2 side = ledger.entry j1 j2 other
    · have hedge := (entry_eq_entry_iff hrecords.toCovers ⟨hi1, hi2⟩ ⟨hj1, hj2⟩ side other).mp hsame
      rw [← hsame, Array.getElem?_setIfInBounds_self_of_lt hentry, ← hedge]
      simp
    · have hedge := mt (entry_eq_entry_iff hrecords.toCovers ⟨hi1, hi2⟩ ⟨hj1, hj2⟩ side other).mpr
        hsame
      rw [Array.getElem?_setIfInBounds_ne hsame, hrecords.claimed_eq j1 hj1 j2 hj2]
      simp [Finset.mem_insert, Ne.symm hedge]

/-- Of different sides of a cell, those whose edges were not taken are kept. -/
theorem Records.claimAll (hrecords : ledger.Records n1 n2 taken) (hi1 : i1 < n1) (hi2 : i2 < n2)
    {sides : List Side} (hsides : sides.Nodup) :
    (ledger.claimAll i1 i2 sides).1 = sides.filter (fun side => side.edge i1 i2 ∉ taken) ∧
      (ledger.claimAll i1 i2 sides).2.Records n1 n2
        (taken ∪ (sides.map (Side.edge i1 i2)).toFinset) := by
  induction sides generalizing ledger taken with
  | nil => simpa [EdgeLedger.claimAll] using hrecords
  | cons side sides ih =>
      obtain ⟨hfirst, hrest⟩ := List.nodup_cons.mp hsides
      obtain ⟨next, hclaim, hnext⟩ := hrecords.claim? hi1 hi2 side
      obtain ⟨hkept, hfinal⟩ := ih hnext hrest
      have hothers : sides.filter (fun other => other.edge i1 i2 ∉ insert (side.edge i1 i2) taken) =
          sides.filter (fun other => other.edge i1 i2 ∉ taken) := by
        refine List.filter_congr fun other hother => ?_
        have hne : other.edge i1 i2 ≠ side.edge i1 i2 := by
          intro hedge
          exact hfirst (Side.edge_injective i1 i2 hedge ▸ hother)
        simp [Finset.mem_insert, hne]
      rw [EdgeLedger.claimAll, hclaim]
      constructor
      · simp only [hkept, hothers, List.filter_cons]
      · simpa [Finset.insert_union, Finset.union_insert] using hfinal

end EdgeLedger

end PainterScene
