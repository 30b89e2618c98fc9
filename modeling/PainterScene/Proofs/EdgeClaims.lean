import PainterScene.Proofs.GridEdges

/-!
# Sequences of edge claims

An edge inside a grid has two names, one in each of the cells that share it: the high side of a cell
is the low side of the next one. Claims made one after the other are answered as if they named the
edges themselves. A claim succeeds exactly when none before it named the same edge, from whichever
cell. The points of the grid must not be more than a list can have entries: past that there is no
ledger, or one in which places are missing.
-/

namespace PainterScene

/-- A claim to an edge of cell `(i1, i2)`, by the number of the side in the order in which a cell
draws them. -/
structure EdgeClaim where
  i1 : Nat
  i2 : Nat
  edge : Nat
deriving DecidableEq

namespace EdgeClaim

def InGrid (n1 n2 : Nat) (c : EdgeClaim) : Prop :=
  c.i1 < n1 ∧ c.i2 < n2 ∧ c.edge < 4

instance (n1 n2 : Nat) (c : EdgeClaim) : Decidable (c.InGrid n1 n2) :=
  inferInstanceAs (Decidable (_ ∧ _ ∧ _))

/-- The edge of `c` is on the high side of its cell, and `d` names it from the cell beyond. -/
def Faces (c d : EdgeClaim) : Prop :=
  (c.edge = 2 ∧ d = ⟨c.i1 + 1, c.i2, 0⟩) ∨ (c.edge = 1 ∧ d = ⟨c.i1, c.i2 + 1, 3⟩)

instance (c d : EdgeClaim) : Decidable (c.Faces d) :=
  inferInstanceAs (Decidable (_ ∨ _))

/-- The claims name the same edge, from one cell or from the two that share it. -/
def SameEdge (c d : EdgeClaim) : Prop :=
  c = d ∨ c.Faces d ∨ d.Faces c

instance (c d : EdgeClaim) : Decidable (c.SameEdge d) :=
  inferInstanceAs (Decidable (_ ∨ _))

def side (c : EdgeClaim) : Side :=
  Side.ofIndex c.edge

def gridEdge (c : EdgeClaim) : GridEdge :=
  c.side.edge c.i1 c.i2

variable {c d : EdgeClaim}

/-- Seen from the cell beyond, an edge is the same edge of the grid. -/
theorem Faces.gridEdge_eq (hfaces : c.Faces d) : c.gridEdge = d.gridEdge := by
  obtain ⟨i1, i2, edge⟩ := c
  obtain ⟨rfl, rfl⟩ | ⟨rfl, rfl⟩ := hfaces
  · rfl
  · rfl

/-- Names of one edge differ only where two cells share it. -/
theorem sameEdge_iff (hc : c.edge < 4) (hd : d.edge < 4) :
    c.SameEdge d ↔ c.gridEdge = d.gridEdge := by
  constructor
  · rintro (rfl | hfaces | hfaces)
    · rfl
    · exact hfaces.gridEdge_eq
    · exact hfaces.gridEdge_eq.symm
  · intro hedge
    obtain ⟨i1, i2, edge⟩ := c
    obtain ⟨j1, j2, edge'⟩ := d
    simp only at hc hd
    -- edges of different directions differ; otherwise the starts tell how the cells lie
    interval_cases edge <;> interval_cases edge' <;>
      simp_all [gridEdge, side, Side.ofIndex, Side.edge, Side.ends, Side.along1, SameEdge, Faces]

end EdgeClaim

namespace EdgeLedger

def claimEach? (ledger : EdgeLedger) : List EdgeClaim → Option (List Bool × EdgeLedger)
  | [] => some ([], ledger)
  | c :: claims => do
    let (free, next) ← ledger.claim? c.i1 c.i2 c.side
    let (answers, final) ← next.claimEach? claims
    return (free :: answers, final)

variable {ledger : EdgeLedger} {n1 n2 : Nat} {taken : Finset GridEdge}

/-- From a ledger with some edges taken, a claim succeeds if its edge is not among them and no claim
before it named that edge. -/
theorem Records.claimEach? (hrecords : ledger.Records n1 n2 taken) {claims : List EdgeClaim}
    (hclaims : ∀ c ∈ claims, c.InGrid n1 n2) :
    ∃ answers final, ledger.claimEach? claims = some (answers, final) ∧
      answers.length = claims.length ∧
      ∀ k (hk : k < claims.length), answers[k]? = some true ↔
        claims[k].gridEdge ∉ taken ∧ ∀ c ∈ claims.take k, c.gridEdge ≠ claims[k].gridEdge := by
  induction claims generalizing ledger taken with
  | nil => exact ⟨[], ledger, rfl, rfl, by simp⟩
  | cons c claims ih =>
      obtain ⟨⟨hi1, hi2, -⟩, hrest⟩ := List.forall_mem_cons.mp hclaims
      obtain ⟨next, hclaim, hnext⟩ := hrecords.claim? hi1 hi2 c.side
      obtain ⟨answers, final, hrun, hlength, hanswers⟩ := ih hnext hrest
      refine ⟨decide (c.gridEdge ∉ taken) :: answers, final, ?_, by simp [hlength], ?_⟩
      · rw [EdgeLedger.claimEach?, hclaim]
        simp only [Option.bind_eq_bind, Option.bind_some, hrun]
        rfl
      · intro k hk
        cases k with
        | zero => simp
        | succ k =>
            -- the edge of the first claim is taken for all that follow
            have hk' : k < claims.length := Nat.lt_of_succ_lt_succ hk
            have hlater : answers[k]? = some true ↔
                claims[k].gridEdge ∉ insert c.gridEdge taken ∧
                  ∀ d ∈ claims.take k, d.gridEdge ≠ claims[k].gridEdge :=
              hanswers k hk'
            rw [List.getElem?_cons_succ, List.getElem_cons_succ, List.take_succ_cons,
              List.forall_mem_cons, hlater, Finset.mem_insert, not_or, and_assoc, and_left_comm,
              ← ne_eq, ne_comm]

def answers? (n1 n2 : Nat) (claims : List EdgeClaim) : Option (List Bool) := do
  let ledger ← ofCells? n1 n2
  let (answers, _) ← ledger.claimEach? claims
  return answers

/-- Claims in a grid of two by three cells: each of the first two pairs names an edge from both its
cells, and the last two claims name an edge at the far corner of the grid twice. -/
def crossClaims : List EdgeClaim :=
  [⟨0, 1, 2⟩, ⟨1, 1, 0⟩, ⟨1, 2, 3⟩, ⟨1, 1, 1⟩, ⟨1, 2, 1⟩, ⟨1, 2, 1⟩]

end EdgeLedger

end PainterScene
