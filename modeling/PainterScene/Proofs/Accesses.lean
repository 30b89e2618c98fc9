import PainterScene.Proofs.Topology

/-!
# Reads stay in range

The shapes read their lists with a default for the places that a list does not have, and subtract
indices down to zero. Here they are drawn once more with every read and every index subtraction
checked: one that misses leaves the whole pass without an answer. A pass over a scene without cycles
does not miss, and has the same answer as without the checks.

Grids are counted in machine words. A count that does not fit either wraps around or stops the pass.
A machine that wraps takes a grid with more places than words for a small one and reads on where
there is nothing, so there the scene must have countable grids. A machine that stops does so before
it reads.
-/

namespace PainterScene

/-- Why a checked pass has no answer: it stopped at a count that has no room, or it missed. -/
inductive Fault
  | capacity
  | read
deriving DecidableEq

section Lists

variable {β γ : Type}

theorem mapM_eq_some_of_forall₂ {f : β → Option γ} {l : List β} {r : List γ}
    (h : List.Forall₂ (fun b c => f b = some c) l r) : l.mapM f = some r := by
  induction h with
  | nil => rfl
  | cons hhead _ ih =>
      rw [List.mapM_cons, hhead, ih]
      rfl

theorem mapM_eq_some_map {f : β → Option γ} {g : β → γ} {l : List β}
    (h : ∀ b ∈ l, f b = some (g b)) : l.mapM f = some (l.map g) := by
  apply mapM_eq_some_of_forall₂
  rw [List.forall₂_map_right_iff, List.forall₂_same]
  exact h

/-- Reading every place of a list in turn gives the list. -/
theorem mapM_range_eq_some {read : Nat → Option β} {l : List β} {n : Nat} (hlength : l.length = n)
    (hread : ∀ i b, l[i]? = some b → read i = some b) : (List.range n).mapM read = some l := by
  subst hlength
  apply mapM_eq_some_of_forall₂
  rw [List.forall₂_iff_get]
  refine ⟨List.length_range, fun i hi hl => ?_⟩
  rw [List.get_eq_getElem, List.getElem_range]
  exact hread i _ (List.getElem?_eq_getElem hl)

def gather {m : Type → Type} [Monad m] (l : List β) (f : β → m (List γ)) : m (List γ) :=
  List.flatten <$> l.mapM f

theorem gather_eq_some {f : β → Option (List γ)} {g : β → List γ} {l : List β}
    (h : ∀ b ∈ l, f b = some (g b)) : gather l f = some (l.flatMap g) := by
  rw [gather, mapM_eq_some_map h, Option.map_eq_map, Option.map_some, List.flatMap_def]

theorem gather_cons (b : β) (l : List β) (f : β → Except Fault (List γ)) :
    gather (b :: l) f = (do return (← f b) ++ (← gather l f)) := by
  simp [gather, List.mapM_cons]

/-- The run has this answer, unless it stopped for want of room, which it does only if `P` fails. -/
def Answers (P : Prop) (run : Except Fault β) (answer : β) : Prop :=
  run = .ok answer ∨ run = .error .capacity ∧ ¬ P

theorem Answers.map {P : Prop} {run : Except Fault β} {answer : β} (h : Answers P run answer)
    (f : β → γ) : Answers P (f <$> run) (f answer) := by
  obtain rfl | ⟨rfl, hP⟩ := h
  · exact Or.inl rfl
  · exact Or.inr ⟨rfl, hP⟩

/-- If every entry answers or stops, so does the run over all of them. -/
theorem gather_answers {P : Prop} {f : β → Except Fault (List γ)} {g : β → List γ} {l : List β}
    (h : ∀ b ∈ l, Answers P (f b) (g b)) : Answers P (gather l f) (l.flatMap g) := by
  induction l with
  | nil => exact Or.inl rfl
  | cons b l ih =>
      obtain ⟨hfirst, hrest⟩ := List.forall_mem_cons.mp h
      rw [gather_cons, List.flatMap_cons]
      obtain hfirst | ⟨hfirst, hP⟩ := hfirst
      · obtain hrest | ⟨hrest, hP⟩ := ih hrest
        · exact Or.inl (by rw [hfirst, hrest]; rfl)
        · exact Or.inr ⟨by rw [hfirst, hrest]; rfl, hP⟩
      · exact Or.inr ⟨by rw [hfirst]; rfl, hP⟩

theorem zipWith_tail_map_range (f : β → β → γ) (g : Nat → β) (n : Nat) :
    List.zipWith f ((List.range n).map g) ((List.range n).map g).tail =
      (List.range (n - 1)).map fun i => f (g i) (g (i + 1)) := by
  apply List.ext_getElem
  · simp
  · intro i _ _
    simp

theorem flatMap_filter (p : β → Bool) (f : β → List γ) (l : List β) :
    (l.filter p).flatMap f = l.flatMap fun b => if p b then f b else [] := by
  induction l with
  | nil => rfl
  | cons b l ih =>
      by_cases hb : p b = true
      · simp [hb, ih]
      · simp [hb, ih]

theorem getElem?_eq_some_getD {a : Array β} {i : Nat} (hi : i < a.size) (d : β) :
    a[i]? = some (a.getD i d) := by
  rw [Array.getElem?_eq_getElem hi, Array.getD, dif_pos hi]
  rfl

end Lists

/-- The place of `(i, j)` in a grid that is stored row by row. -/
theorem place_lt {i j m n : Nat} (hi : i < m) (hj : j < n) : i * n + j < m * n :=
  calc i * n + j < i * n + n := Nat.add_lt_add_left hj _
    _ = (i + 1) * n := (Nat.succ_mul i n).symm
    _ ≤ m * n := Nat.mul_le_mul_right n hi

def checkedSub (a b : Nat) : Option Nat :=
  if b ≤ a then some (a - b) else none

def Fault.ofReads {β : Type} : Option β → Except Fault β
  | some b => .ok b
  | none => .error .read

/-- What a machine does with a count that no word holds. -/
inductive Overflow
  | wraps
  | stops
deriving DecidableEq

namespace Overflow

def check (rule : Overflow) (n : Nat) : Except Fault Unit :=
  if rule = stops ∧ Word.size ≤ n then .error .capacity else .ok ()

/-- A count that has room passes. One that has none may pass, but not where counts stop. -/
theorem check_cases (rule : Overflow) (n : Nat) :
    rule.check n = .ok () ∧ (rule = wraps ∨ n < Word.size) ∨
      rule.check n = .error .capacity ∧ Word.size ≤ n := by
  unfold check
  split
  next h => exact Or.inr ⟨rfl, h.2⟩
  next h =>
      refine Or.inl ⟨rfl, ?_⟩
      cases rule with
      | wraps => exact Or.inl rfl
      | stops => exact Or.inr (by simpa using h)

end Overflow

variable {α : Type}

/-! ### Columns and flat coordinates -/

namespace Vec3

def atColumns? (xs ys zs : List α) (i : Nat) : Option (Vec3 α) := do
  let x ← xs[i]?
  let y ← ys[i]?
  let z ← zs[i]?
  return ⟨x, y, z⟩

def atFlat? (coordinates : List α) (i : Nat) : Option (Vec3 α) := do
  let x ← coordinates[3 * i]?
  let y ← coordinates[3 * i + 1]?
  let z ← coordinates[3 * i + 2]?
  return ⟨x, y, z⟩

theorem length_ofColumns (xs ys zs : List α) :
    (ofColumns xs ys zs).length = min (min xs.length ys.length) zs.length := by
  simp [ofColumns, min_assoc]

theorem atColumns?_of_getElem? {xs ys zs : List α} {i : Nat} {p : Vec3 α}
    (hp : (ofColumns xs ys zs)[i]? = some p) : atColumns? xs ys zs i = some p := by
  rw [ofColumns, List.getElem?_map, Option.map_eq_some_iff] at hp
  obtain ⟨⟨x, y, z⟩, hp, rfl⟩ := hp
  obtain ⟨hx, hyz⟩ := List.getElem?_zip_eq_some.mp hp
  obtain ⟨hy, hz⟩ := List.getElem?_zip_eq_some.mp hyz
  simp only at hx hy hz
  rw [atColumns?, hx, hy, hz]
  rfl

theorem length_ofFlat (coordinates : List α) :
    (ofFlat coordinates).length = coordinates.length / 3 := by
  fun_induction ofFlat coordinates with
  | case1 x y z rest ih =>
      simp only [List.length_cons, ih]
      omega
  | case2 coordinates hshort =>
      match coordinates with
      | [] | [_] | [_, _] => simp
      | x :: y :: z :: rest => exact absurd rfl (hshort x y z rest)

theorem atFlat?_of_getElem? {coordinates : List α} {i : Nat} {p : Vec3 α}
    (hp : (ofFlat coordinates)[i]? = some p) : atFlat? coordinates i = some p := by
  fun_induction ofFlat coordinates generalizing i with
  | case1 x y z rest ih =>
      cases i with
      | zero => exact hp
      | succ i => exact ih hp
  | case2 => cases hp

end Vec3

def Polyline.addPoints? (l : Polyline α) (xs ys zs : List α) : Option (Polyline α) := do
  let points ← (List.range (min (min xs.length ys.length) zs.length)).mapM
    (Vec3.atColumns? xs ys zs)
  return { l with points := l.points ++ points }

theorem Polyline.addPoints?_eq (l : Polyline α) (xs ys zs : List α) :
    l.addPoints? xs ys zs = some (l.addPoints xs ys zs) := by
  have hpoints : (List.range (min (min xs.length ys.length) zs.length)).mapM
      (Vec3.atColumns? xs ys zs) = some (Vec3.ofColumns xs ys zs) :=
    mapM_range_eq_some (Vec3.length_ofColumns xs ys zs) fun _ _ => Vec3.atColumns?_of_getElem?
  rw [addPoints?, hpoints]
  rfl

def readPairs (n : Nat) (first second : Nat → Option (Vec3 α)) : Option (List (Vec3 α × Vec3 α)) :=
  (List.range n).mapM fun i => do
    let a ← first i
    let b ← second i
    return (a, b)

theorem readPairs_eq {first second : Nat → Option (Vec3 α)} {as bs : List (Vec3 α)} {n : Nat}
    (hlength : min as.length bs.length = n) (hfirst : ∀ i a, as[i]? = some a → first i = some a)
    (hsecond : ∀ i b, bs[i]? = some b → second i = some b) :
    readPairs n first second = some (as.zip bs) := by
  apply mapM_range_eq_some
  · rw [List.length_zip, hlength]
  · rintro i ⟨a, b⟩ hpair
    obtain ⟨ha, hb⟩ := List.getElem?_zip_eq_some.mp hpair
    rw [hfirst i a ha, hsecond i b hb]
    rfl

namespace SegmentSet

def ofColumns? (xs ys zs xs' ys' zs' : List α) (line : Option LineStyle) :
    Option (SegmentSet α) := do
  let segments ← readPairs
    (min (min (min xs.length ys.length) zs.length) (min (min xs'.length ys'.length) zs'.length))
    (Vec3.atColumns? xs ys zs) (Vec3.atColumns? xs' ys' zs')
  return ⟨segments, line⟩

def ofFlat? (starts stops : List α) (line : Option LineStyle) : Option (SegmentSet α) := do
  let segments ← readPairs (min (starts.length / 3) (stops.length / 3)) (Vec3.atFlat? starts)
    (Vec3.atFlat? stops)
  return ⟨segments, line⟩

theorem ofColumns?_eq (xs ys zs xs' ys' zs' : List α) (line : Option LineStyle) :
    ofColumns? xs ys zs xs' ys' zs' line = some (ofColumns xs ys zs xs' ys' zs' line) := by
  have hsegments := readPairs_eq
    (congrArg₂ min (Vec3.length_ofColumns xs ys zs) (Vec3.length_ofColumns xs' ys' zs'))
    (fun _ _ => Vec3.atColumns?_of_getElem?) (fun _ _ => Vec3.atColumns?_of_getElem?)
  rw [ofColumns?, hsegments]
  rfl

theorem ofFlat?_eq (starts stops : List α) (line : Option LineStyle) :
    ofFlat? starts stops line = some (ofFlat starts stops line) := by
  have hsegments := readPairs_eq
    (congrArg₂ min (Vec3.length_ofFlat starts) (Vec3.length_ofFlat stops))
    (fun _ _ => Vec3.atFlat?_of_getElem?) (fun _ _ => Vec3.atFlat?_of_getElem?)
  rw [ofFlat?, hsegments]
  rfl

end SegmentSet

variable [Scalar α]

namespace Scatter

def sizeAt? (s : Scatter α) (i : Nat) : Option α :=
  if s.sizes.isEmpty then some 1 else s.sizes[i]?

def sizedPoints? (s : Scatter α) : Option (List (Vec3 α × α)) :=
  let points := min (min s.xs.length s.ys.length) s.zs.length
  let count := if s.sizes.isEmpty then points else min points s.sizes.length
  (List.range count).mapM fun i => do
    let p ← Vec3.atColumns? s.xs s.ys s.zs i
    let size ← s.sizeAt? i
    return (p, size)

def fragments? (s : Scatter α) (frame : Frame α) (id : NodeId) : Option (List (Fragment α)) := do
  let points ← s.sizedPoints?
  return (points.map (s.fragment frame id)).filter fun f => f.isFinite && Scalar.isFinite f.size

theorem sizedPoints?_eq (s : Scatter α) : s.sizedPoints? = some s.sizedPoints := by
  apply mapM_range_eq_some
  · by_cases hsizes : s.sizes.isEmpty
    · rw [sizedPoints, if_pos hsizes, if_pos hsizes, List.length_map, Vec3.length_ofColumns]
    · rw [sizedPoints, if_neg hsizes, if_neg hsizes, List.length_zip, Vec3.length_ofColumns]
  · rintro i ⟨p, size⟩ hpoint
    by_cases hsizes : s.sizes.isEmpty
    · rw [sizedPoints, if_pos hsizes, List.getElem?_map, Option.map_eq_some_iff] at hpoint
      obtain ⟨p, hp, heq⟩ := hpoint
      cases heq
      rw [Vec3.atColumns?_of_getElem? hp, sizeAt?, if_pos hsizes]
      rfl
    · rw [sizedPoints, if_neg hsizes] at hpoint
      obtain ⟨hp, hsize⟩ := List.getElem?_zip_eq_some.mp hpoint
      rw [Vec3.atColumns?_of_getElem? hp, sizeAt?, if_neg hsizes, hsize]
      rfl

theorem fragments?_eq (s : Scatter α) (frame : Frame α) (id : NodeId) :
    s.fragments? frame id = some (s.fragments frame id) := by
  rw [fragments?, sizedPoints?_eq]
  rfl

end Scatter

namespace LabelSet

def fragments? (l : LabelSet α) (frame : Frame α) (id : NodeId) : Option (List (Fragment α)) := do
  let pairs ← readPairs l.size (Vec3.atFlat? l.anchors) (Vec3.atFlat? l.directions)
  return pairs.zipIdx.filterMap fun p => fragment? frame id p.2 p.1

theorem fragments?_eq (l : LabelSet α) (frame : Frame α) (id : NodeId) :
    l.fragments? frame id = some (l.fragments frame id) := by
  have hsize : min (Vec3.ofFlat l.anchors).length (Vec3.ofFlat l.directions).length = l.size := by
    rw [Vec3.length_ofFlat, Vec3.length_ofFlat, size]
    omega
  have hpairs := readPairs_eq hsize (fun _ _ => Vec3.atFlat?_of_getElem?)
    (fun _ _ => Vec3.atFlat?_of_getElem?)
  rw [fragments?, hpairs]
  rfl

end LabelSet

/-! ### Height fields -/

namespace HeightField

variable (m : HeightField α) (frame : Frame α) (id : NodeId)

def point? (i j : Nat) : Option (Vec3 α) := do
  let height ← m.heights[i * m.columns + j]?
  let first ← m.positions1[i]?
  let second ← m.positions2[j]?
  return Vec3.onPlane m.heightAxis height first second

/-- The segments of a grid line through `n` places, each read once, also when it is the only one. -/
def gridLine? (n : Nat) (place : Nat → Nat × Nat) : Option (List (Fragment α)) := do
  let points ← (List.range n).mapM fun k => m.point? (place k).1 (place k).2
  let vertices := points.map frame.place
  return List.zipWith (Fragment.ofSegment id m.line) vertices vertices.tail

def wireframe? : Option (List (Fragment α)) :=
  if m.line.isNone then some []
  else do
    let lines1 ←
      if m.hideLines1 then some []
      else gather (List.range m.columns) fun j => m.gridLine? frame id m.rows fun i => (i, j)
    let lines2 ←
      if m.hideLines2 then some []
      else gather (List.range m.rows) fun i => m.gridLine? frame id m.columns fun j => (i, j)
    return (lines1 ++ lines2).filter Fragment.isFinite

def cellTriangles? (i j : Nat) : Option (List (Fragment α)) := do
  let p0 ← m.point? i j
  let p1 ← m.point? (i + 1) j
  let p2 ← m.point? i (j + 1)
  let p3 ← m.point? (i + 1) (j + 1)
  return if (p0 + p1 + p2 + p3).isFinite then
    [p0, p3].map fun p =>
      Fragment.ofTriangle id m.surface ⟨frame.place p, frame.place p1, frame.place p2⟩
  else []

def triangles? : Option (List (Fragment α)) :=
  if m.surface.isNone then some []
  else
    gather (List.range (m.rows - 1)) fun i =>
      gather (List.range (m.columns - 1)) fun j => m.cellTriangles? frame id i j

def drawn? : Option (List (Fragment α)) := do
  let wireframe ← m.wireframe? frame id
  let triangles ← m.triangles? frame id
  return wireframe ++ triangles

def fragments? (rule : Overflow) : Except Fault (Except Problem (List (Fragment α))) := do
  rule.check (m.rows * m.columns)
  match m.problem? with
  | some problem => return .error problem
  | none => return .ok (← Fault.ofReads (m.drawn? frame id))

def Countable : Prop :=
  m.rows * m.columns < Word.size

instance : Decidable m.Countable :=
  inferInstanceAs (Decidable (_ < _))

omit [Scalar α] in
variable {m} in
theorem Countable.problem?_eq_none_iff (hcount : m.Countable) :
    m.problem? = none ↔ m.rows * m.columns ≤ m.heights.size := by
  rw [problem?, places, Word.wrap_of_lt hcount]
  simp

variable {m} (hcomplete : m.rows * m.columns ≤ m.heights.size)

include hcomplete

theorem point?_eq {i j : Nat} (hi : i < m.rows) (hj : j < m.columns) :
    m.point? i j = some (m.point i j) := by
  have hplace : i * m.columns + j < m.heights.size := (place_lt hi hj).trans_le hcomplete
  rw [point?, getElem?_eq_some_getD hplace 0, getElem?_eq_some_getD hi 0,
    getElem?_eq_some_getD hj 0]
  rfl

theorem gridLine?_eq {n : Nat} {place : Nat → Nat × Nat}
    (hplace : ∀ k < n, (place k).1 < m.rows ∧ (place k).2 < m.columns) :
    m.gridLine? frame id n place =
      some ((List.range (n - 1)).map fun k => m.edge frame id (place k) (place (k + 1))) := by
  have hpoints : (List.range n).mapM (fun k => m.point? (place k).1 (place k).2) =
      some ((List.range n).map fun k => m.point (place k).1 (place k).2) := by
    apply mapM_eq_some_map
    intro k hk
    obtain ⟨hi, hj⟩ := hplace k (List.mem_range.mp hk)
    exact point?_eq hcomplete hi hj
  rw [gridLine?, hpoints]
  simp only [Option.bind_eq_bind, Option.bind_some, Option.pure_def, List.map_map,
    zipWith_tail_map_range]
  rfl

theorem wireframe?_eq : m.wireframe? frame id = some (m.wireframe frame id) := by
  have hlines1 : gather (List.range m.columns)
      (fun j => m.gridLine? frame id m.rows fun i => (i, j)) = some (m.lines1 frame id) := by
    apply gather_eq_some
    intro j hj
    exact gridLine?_eq frame id hcomplete fun i hi => ⟨hi, List.mem_range.mp hj⟩
  have hlines2 : gather (List.range m.rows)
      (fun i => m.gridLine? frame id m.columns fun j => (i, j)) = some (m.lines2 frame id) := by
    apply gather_eq_some
    intro i hi
    exact gridLine?_eq frame id hcomplete fun j hj => ⟨List.mem_range.mp hi, hj⟩
  rw [wireframe?, wireframe, hlines1, hlines2]
  cases m.line.isNone <;> cases m.hideLines1 <;> cases m.hideLines2 <;> rfl

theorem cellTriangles?_eq {i j : Nat} (hi : i + 1 < m.rows) (hj : j + 1 < m.columns) :
    m.cellTriangles? frame id i j = some (m.cellTriangles frame id i j) := by
  rw [cellTriangles?, point?_eq hcomplete (Nat.lt_of_succ_lt hi) (Nat.lt_of_succ_lt hj),
    point?_eq hcomplete hi (Nat.lt_of_succ_lt hj), point?_eq hcomplete (Nat.lt_of_succ_lt hi) hj,
    point?_eq hcomplete hi hj]
  rfl

theorem triangles?_eq : m.triangles? frame id = some (m.triangles frame id) := by
  rw [triangles?, triangles]
  by_cases hsurface : m.surface.isNone
  · rw [if_pos hsurface, if_pos hsurface]
  · rw [if_neg hsurface, if_neg hsurface]
    apply gather_eq_some
    intro i hi
    apply gather_eq_some
    intro j hj
    rw [List.mem_range] at hi hj
    exact cellTriangles?_eq frame id hcomplete (by omega) (by omega)

omit hcomplete in
/-- A height field is drawn without a miss, unless it stops at the count of its places. -/
theorem fragments?_answers {rule : Overflow} (hrule : rule = .wraps → m.Countable) :
    Answers m.Countable (m.fragments? frame id rule) (m.fragments frame id) := by
  obtain ⟨hcheck, hroom⟩ | ⟨hcheck, hfull⟩ := rule.check_cases (m.rows * m.columns)
  · have hcount : m.Countable := hroom.elim hrule fun hlt => hlt
    rw [fragments?, hcheck, fragments]
    cases hproblem : m.problem? with
    | some problem => exact Or.inl rfl
    | none =>
        have hcomplete := hcount.problem?_eq_none_iff.mp hproblem
        have hdrawn : m.drawn? frame id = some (m.wireframe frame id ++ m.triangles frame id) := by
          rw [drawn?, wireframe?_eq frame id hcomplete, triangles?_eq frame id hcomplete]
          rfl
        exact Or.inl (by simp only [hdrawn]; rfl)
  · refine Or.inr ⟨?_, not_lt.mpr hfull⟩
    rw [fragments?, hcheck]
    rfl

end HeightField

/-! ### Claims on grid edges -/

namespace EdgeLedger

def claimAll? (ledger : EdgeLedger) (i1 i2 : Nat) : List Side → Option (List Side × EdgeLedger)
  | [] => some ([], ledger)
  | side :: sides => do
    let (free, next) ← ledger.claim? i1 i2 side
    let (kept, final) ← next.claimAll? i1 i2 sides
    return (if free then side :: kept else kept, final)

/-- There can be a list with a byte for each point of a grid of `n1` by `n2` cells. -/
def Fits (n1 n2 : Nat) : Prop :=
  (n1 + 1) * (n2 + 1) ≤ Word.maxLength

instance (n1 n2 : Nat) : Decidable (Fits n1 n2) :=
  inferInstanceAs (Decidable (_ ≤ _))

/-- The ledger has every edge of a grid of `n1` by `n2` cells, and words count its points. -/
structure Covers (ledger : EdgeLedger) (n1 n2 : Nat) : Prop where
  fits : Fits n1 n2
  stride_eq : ledger.stride = n2 + 1
  size_eq : ledger.claimed.size = 2 * ((n1 + 1) * (n2 + 1))

variable {ledger : EdgeLedger} {n1 n2 i1 i2 : Nat}

theorem Fits.points_eq (hfits : Fits n1 n2) : points n1 n2 = (n1 + 1) * (n2 + 1) :=
  Word.wrap_of_lt (hfits.trans_lt Word.maxLength_lt_size)

theorem Fits.ofCells? (hfits : Fits n1 n2) : ofCells? n1 n2 = some (ofCells n1 n2) := by
  rw [EdgeLedger.ofCells?, hfits.points_eq]
  exact if_pos hfits

theorem Fits.covers_ofCells (hfits : Fits n1 n2) : (ofCells n1 n2).Covers n1 n2 where
  fits := hfits
  stride_eq := by
    have hle : n2 + 1 ≤ (n1 + 1) * (n2 + 1) := Nat.le_mul_of_pos_left _ n1.succ_pos
    exact Word.wrap_of_lt ((hle.trans hfits).trans_lt Word.maxLength_lt_size)
  size_eq := by
    rw [ofCells, Array.size_replicate, hfits.points_eq]

theorem Covers.place_eq (hledger : ledger.Covers n1 n2) {v1 v2 : Nat} (hv1 : v1 ≤ n1)
    (hv2 : v2 ≤ n2) :
    ledger.place v1 v2 = v1 * (n2 + 1) + v2 ∧
      v1 * (n2 + 1) + v2 < (n1 + 1) * (n2 + 1) := by
  have hlt : v1 * (n2 + 1) + v2 < (n1 + 1) * (n2 + 1) := place_lt (by omega) (by omega)
  have hsize := Word.maxLength_lt_size
  have hfits : (n1 + 1) * (n2 + 1) ≤ Word.maxLength := hledger.fits
  refine ⟨?_, hlt⟩
  rw [place, hledger.stride_eq, Word.wrap_of_lt (by omega)]

theorem Covers.entry_lt (hledger : ledger.Covers n1 n2) (hi1 : i1 < n1) (hi2 : i2 < n2)
    (side : Side) : ledger.entry i1 i2 side < ledger.claimed.size := by
  have hplace : ∀ {v1 v2}, v1 ≤ n1 → v2 ≤ n2 → ledger.place v1 v2 < (n1 + 1) * (n2 + 1) := by
    intro v1 v2 hv1 hv2
    obtain ⟨heq, hlt⟩ := hledger.place_eq hv1 hv2
    rwa [heq]
  have hlow := hplace hi1.le hi2.le
  have hhigh2 : ledger.place i1 (i2 + 1) < _ := hplace hi1.le hi2
  have hhigh1 : ledger.place (i1 + 1) i2 < _ := hplace hi1 hi2.le
  rw [hledger.size_eq]
  cases side <;> simp only [entry] <;> omega

theorem Covers.claim? (hledger : ledger.Covers n1 n2) (hi1 : i1 < n1) (hi2 : i2 < n2)
    (side : Side) :
    ∃ free next, ledger.claim? i1 i2 side = some (free, next) ∧ next.Covers n1 n2 := by
  have hentry := hledger.entry_lt hi1 hi2 side
  rw [EdgeLedger.claim?, Array.getElem?_eq_getElem hentry]
  refine ⟨_, _, rfl, hledger.fits, hledger.stride_eq, ?_⟩
  rw [Array.size_setIfInBounds, hledger.size_eq]

/-- No claim to a side of a cell misses, and the ledger still covers the grid. -/
theorem Covers.claimAll? (hledger : ledger.Covers n1 n2) (hi1 : i1 < n1) (hi2 : i2 < n2)
    (sides : List Side) :
    ledger.claimAll? i1 i2 sides = some (ledger.claimAll i1 i2 sides) ∧
      (ledger.claimAll i1 i2 sides).2.Covers n1 n2 := by
  induction sides generalizing ledger with
  | nil => exact ⟨rfl, hledger⟩
  | cons side sides ih =>
      obtain ⟨free, next, hclaim, hnext⟩ := hledger.claim? hi1 hi2 side
      obtain ⟨hrest, hfinal⟩ := ih hnext
      rw [EdgeLedger.claimAll?, claimAll, hclaim]
      refine ⟨?_, hfinal⟩
      simp only [Option.bind_eq_bind, Option.bind_some, hrest]
      rfl

end EdgeLedger

/-! ### Cell surfaces -/

def Triple.all? {β : Type} (t : Triple (Option β)) : Option (Triple β) := do
  let first ← t.first
  let second ← t.second
  let third ← t.third
  return ⟨first, second, third⟩

namespace CellSurface

/-- The cell before, this one or the one after, with the last cell of the row found by a
subtraction that must not go below zero. -/
def neighbour? (n i step : Nat) : Option Nat := do
  let last ← checkedSub n 1
  return min (i + step - 1) last

theorem neighbour?_eq {n i : Nat} (hi : i < n) (step : Nat) :
    neighbour? n i step = some (neighbour n i step) := by
  rw [neighbour?, checkedSub, if_pos (Nat.one_le_of_lt hi)]
  rfl

theorem neighbour_lt {n i : Nat} (hi : i < n) (step : Nat) : neighbour n i step < n := by
  rw [neighbour]
  omega

variable (m : CellSurface α) (frame : Frame α) (id : NodeId)

def value? (i1 i2 : Nat) : Option α :=
  m.values[i1 * m.cells2 + i2]?

def touchingValues? (i1 i2 : Nat) (spot : Spot) : Option (List α) :=
  gather (touching spot.1) fun step1 =>
    (touching spot.2).mapM fun step2 => do
      let c1 ← neighbour? m.cells1 i1 step1
      let c2 ← neighbour? m.cells2 i2 step2
      m.value? c1 c2

def height? (i1 i2 : Nat) (spot : Spot) : Option α :=
  if spot.1.val = 1 ∧ spot.2.val = 1 then m.value? i1 i2
  else do
    let values ← m.touchingValues? i1 i2 spot
    return Scalar.mean (values.filter Scalar.isFinite)

def bounds? (edges : Array α) (i : Nat) : Option (Triple α) := do
  let low ← edges[i]?
  let high ← edges[i + 1]?
  return ⟨low, 0.5 * (low + high), high⟩

def point? (i1 i2 : Nat) (spot : Spot) : Option (Vec3 α) := do
  let height ← m.height? i1 i2 spot
  let bounds1 ← bounds? m.edges1 i1
  let bounds2 ← bounds? m.edges2 i2
  return (((0 : Vec3 α).setAxis m.valueAxis height).setAxis m.axis1 (bounds1.get spot.1)).setAxis
    m.axis2 (bounds2.get spot.2)

def patch? (i1 i2 : Nat) : Option (Patch (Vertex α)) :=
  ((Patch.ofSpots fun spot => (m.point? i1 i2 spot).map frame.place).map Triple.all?).all?

def cellFragments? (ledger : EdgeLedger) : List (Nat × Nat) → Option (List (Fragment α))
  | [] => some []
  | (i1, i2) :: cells => do
    let value ← m.value? i1 i2
    if Scalar.isFinite value then
      let patch ← m.patch? frame i1 i2
      let (sides, next) ← ledger.claimAll? i1 i2 m.visibleSides
      let rest ← cellFragments? next cells
      return m.triangles id patch ++ sides.flatMap (m.sideLines id patch) ++ rest
    else cellFragments? ledger cells

def ledger? (rule : Overflow) : Except Fault EdgeLedger := do
  rule.check ((m.cells1 + 1) * (m.cells2 + 1))
  match EdgeLedger.ofCells? m.cells1 m.cells2 with
  | some ledger => return ledger
  | none => throw .capacity

/-- The cells are counted once the axes are known to be right. -/
def checkCells (rule : Overflow) : Except Fault Unit :=
  if Axis.isPermutation m.valueAxis m.axis1 m.axis2 then rule.check (m.cells1 * m.cells2)
  else .ok ()

def fragments? (rule : Overflow) : Except Fault (Except Problem (List (Fragment α))) := do
  m.checkCells rule
  match m.problem? with
  | some problem => return .error problem
  | none =>
    let ledger ← m.ledger? rule
    return .ok (← Fault.ofReads (m.cellFragments? frame id ledger m.cells))

/-- There can be a list with a byte for each grid point. -/
def Countable : Prop :=
  EdgeLedger.Fits m.cells1 m.cells2

instance : Decidable m.Countable :=
  inferInstanceAs (Decidable (EdgeLedger.Fits _ _))

variable {m} {i1 i2 : Nat}

theorem bounds?_eq {edges : Array α} {i : Nat} (hi : i < edges.size - 1) :
    bounds? edges i = some (bounds edges i) := by
  have hlow : i < edges.size := by omega
  have hhigh : i + 1 < edges.size := by omega
  rw [bounds?, getElem?_eq_some_getD hlow 0, getElem?_eq_some_getD hhigh 0]
  rfl

omit [Scalar α] in
theorem mem_cells_iff : (i1, i2) ∈ m.cells ↔ i1 < m.cells1 ∧ i2 < m.cells2 := by
  simp [cells]

omit [Scalar α] in
theorem problem?_eq_none_iff : m.problem? = none ↔
    Axis.isPermutation m.valueAxis m.axis1 m.axis2 = true ∧ m.values.size = m.cellCount := by
  unfold problem?
  split_ifs with haxes hsize
  · simp [show Axis.isPermutation m.valueAxis m.axis1 m.axis2 = false by simpa using haxes]
  · simp [Ne.symm hsize]
  · simp [show Axis.isPermutation m.valueAxis m.axis1 m.axis2 = true by simpa using haxes,
      not_not.mp hsize]

omit [Scalar α] in
theorem Countable.cells_lt (hcount : m.Countable) : m.cells1 * m.cells2 < Word.size :=
  calc m.cells1 * m.cells2
      ≤ (m.cells1 + 1) * (m.cells2 + 1) := Nat.mul_le_mul (Nat.le_succ _) (Nat.le_succ _)
    _ ≤ Word.maxLength := hcount
    _ < Word.size := Word.maxLength_lt_size

omit [Scalar α] in
theorem Countable.size_values (hcount : m.Countable) (hvalid : m.problem? = none) :
    m.values.size = m.cells1 * m.cells2 := by
  rw [(problem?_eq_none_iff.mp hvalid).2, cellCount, Word.wrap_of_lt hcount.cells_lt]

section Complete

variable (hcomplete : m.values.size = m.cells1 * m.cells2) (hi1 : i1 < m.cells1)
  (hi2 : i2 < m.cells2)

include hcomplete hi1 hi2

theorem value?_eq : m.value? i1 i2 = some (m.value i1 i2) :=
  getElem?_eq_some_getD (hcomplete ▸ place_lt hi1 hi2) 0

theorem touchingValues?_eq (spot : Spot) :
    m.touchingValues? i1 i2 spot = some (m.touchingValues i1 i2 spot) := by
  apply gather_eq_some
  intro step1 _
  apply mapM_eq_some_map
  intro step2 _
  rw [neighbour?_eq hi1, neighbour?_eq hi2]
  exact value?_eq hcomplete (neighbour_lt hi1 step1) (neighbour_lt hi2 step2)

theorem height?_eq (spot : Spot) : m.height? i1 i2 spot = some (m.height i1 i2 spot) := by
  have hcentre : spot.1.val = 1 ∧ spot.2.val = 1 ↔ spot = (1, 1) := by
    rw [Prod.ext_iff, Fin.ext_iff, Fin.ext_iff]
    rfl
  rw [height?, height, value?_eq hcomplete hi1 hi2, touchingValues?_eq hcomplete hi1 hi2]
  by_cases hspot : spot = (1, 1)
  · rw [if_pos (hcentre.mpr hspot), if_pos hspot]
  · rw [if_neg (mt hcentre.mp hspot), if_neg hspot]
    rfl

theorem point?_eq (spot : Spot) : m.point? i1 i2 spot = some (m.point i1 i2 spot) := by
  rw [point?, height?_eq hcomplete hi1 hi2, bounds?_eq hi1, bounds?_eq hi2]
  rfl

theorem patch?_eq : m.patch? frame i1 i2 = some (m.patch frame i1 i2) := by
  simp only [patch?, point?_eq hcomplete hi1 hi2]
  rfl

end Complete

/-- The cells in turn, from a ledger that has all their sides. -/
theorem cellFragments?_eq (hcomplete : m.values.size = m.cells1 * m.cells2) {ledger : EdgeLedger}
    (hledger : ledger.Covers m.cells1 m.cells2) {cells : List (Nat × Nat)}
    (hcells : ∀ cell ∈ cells, cell.1 < m.cells1 ∧ cell.2 < m.cells2) :
    m.cellFragments? frame id ledger cells = some (m.cellFragments frame id ledger cells) := by
  induction cells generalizing ledger with
  | nil => rfl
  | cons cell cells ih =>
      obtain ⟨i1, i2⟩ := cell
      obtain ⟨⟨hi1, hi2⟩, hrest⟩ := List.forall_mem_cons.mp hcells
      rw [cellFragments?, cellFragments, value?_eq hcomplete hi1 hi2]
      simp only [Option.bind_eq_bind, Option.bind_some]
      by_cases hvalue : Scalar.isFinite (m.value i1 i2)
      · obtain ⟨hclaims, hnext⟩ := hledger.claimAll? hi1 hi2 m.visibleSides
        rw [if_pos hvalue, if_pos hvalue, patch?_eq frame hcomplete hi1 hi2, hclaims]
        simp only [Option.bind_some, ih hnext hrest]
        rfl
      · rw [if_neg hvalue, if_neg hvalue]
        exact ih hledger hrest

omit [Scalar α] in
theorem checkCells_cases (m : CellSurface α) (rule : Overflow) :
    m.checkCells rule = .ok () ∨ m.checkCells rule = .error .capacity ∧ ¬ m.Countable := by
  unfold checkCells
  split
  · obtain ⟨hcheck, -⟩ | ⟨hcheck, hfull⟩ := rule.check_cases (m.cells1 * m.cells2)
    · exact Or.inl hcheck
    · exact Or.inr ⟨hcheck, fun hcount => absurd hcount.cells_lt (not_lt.mpr hfull)⟩
  · exact Or.inl rfl

omit [Scalar α] in
theorem ledger?_cases {rule : Overflow} (hrule : rule = .wraps → m.Countable) :
    m.ledger? rule = .ok (EdgeLedger.ofCells m.cells1 m.cells2) ∧ m.Countable ∨
      m.ledger? rule = .error .capacity ∧ ¬ m.Countable := by
  obtain ⟨hcheck, hroom⟩ | ⟨hcheck, hfull⟩ := rule.check_cases ((m.cells1 + 1) * (m.cells2 + 1))
  · by_cases hcount : m.Countable
    · exact Or.inl ⟨by rw [ledger?, hcheck, EdgeLedger.Fits.ofCells? hcount]; rfl, hcount⟩
    · -- a word holds the number of points, but no list is that long
      have hlt := hroom.resolve_left fun hwraps => hcount (hrule hwraps)
      have hnone : EdgeLedger.ofCells? m.cells1 m.cells2 = none := by
        rw [EdgeLedger.ofCells?, EdgeLedger.points, Word.wrap_of_lt hlt]
        exact if_neg hcount
      exact Or.inr ⟨by rw [ledger?, hcheck, hnone]; rfl, hcount⟩
  · refine Or.inr ⟨by rw [ledger?, hcheck]; rfl, fun hcount => ?_⟩
    exact absurd (hcount.trans_lt Word.maxLength_lt_size) (not_lt.mpr hfull)

/-- A cell surface is drawn without a miss, unless it stops at the count of its cells or for want of
a ledger. -/
theorem fragments?_answers {rule : Overflow} (hrule : rule = .wraps → m.Countable) :
    Answers m.Countable (m.fragments? frame id rule) (m.fragments frame id) := by
  obtain hcheck | ⟨hcheck, hcount⟩ := m.checkCells_cases rule
  · rw [fragments?, hcheck, fragments]
    cases hproblem : m.problem? with
    | some problem => exact Or.inl rfl
    | none =>
        obtain ⟨hledger, hcount⟩ | ⟨hledger, hcount⟩ := ledger?_cases hrule
        · have hfragments := cellFragments?_eq frame id (hcount.size_values hproblem)
            (EdgeLedger.Fits.covers_ofCells hcount) fun cell hcell => mem_cells_iff.mp hcell
          exact Or.inl (by simp only [hledger, bind, Except.bind, hfragments]; rfl)
        · exact Or.inr ⟨by simp only [hledger]; rfl, hcount⟩
  · exact Or.inr ⟨by rw [fragments?, hcheck]; rfl, hcount⟩

end CellSurface

/-! ### Passes -/

namespace Node

def emissions? (rule : Overflow) (node : Node α) (frame : Frame α) (id : NodeId) :
    Except Fault (List (Emission α)) :=
  match node with
  | .facet t => .ok ((t.fragments frame id).map .fragment)
  | .polyline l => .ok ((l.fragments frame id).map .fragment)
  | .segments s => .ok ((s.fragments frame id).map .fragment)
  | .heightField m => Emission.ofResult <$> m.fragments? frame id rule
  | .cellSurface m => Emission.ofResult <$> m.fragments? frame id rule
  | .scatter s => List.map .fragment <$> Fault.ofReads (s.fragments? frame id)
  | .labels l => List.map .fragment <$> Fault.ofReads (l.fragments? frame id)
  | .group _ => .ok []

def Countable : Node α → Prop
  | heightField m => m.Countable
  | cellSurface m => m.Countable
  | _ => True

instance (node : Node α) : Decidable node.Countable :=
  match node with
  | heightField m => inferInstanceAs (Decidable m.Countable)
  | cellSurface m => inferInstanceAs (Decidable m.Countable)
  | facet _ | polyline _ | segments _ | scatter _ | labels _ | group _ => isTrue trivial

/-- What a single node reads is there. -/
theorem emissions?_answers {rule : Overflow} (node : Node α)
    (hrule : rule = .wraps → node.Countable) (frame : Frame α) (id : NodeId) :
    Answers node.Countable (node.emissions? rule frame id) (node.emissions frame id) := by
  cases node with
  | heightField m => exact (HeightField.fragments?_answers frame id hrule).map Emission.ofResult
  | cellSurface m => exact (CellSurface.fragments?_answers frame id hrule).map Emission.ofResult
  | scatter s =>
      rw [emissions?, s.fragments?_eq]
      exact Or.inl rfl
  | labels l =>
      rw [emissions?, l.fragments?_eq]
      exact Or.inl rfl
  | _ => exact Or.inl rfl

end Node

namespace Scene

/-- A checked pass, which misses as well if it has to go below the last level. -/
def emissionsWithin? (rule : Overflow) (scene : Scene α) :
    Nat → NodeId → Frame α → Except Fault (List (Emission α))
  | 0, _, _ => .error .read
  | depth + 1, id, frame =>
    match scene.node? id with
    | none => .ok [.problem (.unknownNode id)]
    | some (.group group) =>
      let below := frame.enter group.transform
      if group.isVisible below then
        gather group.children fun child => emissionsWithin? rule scene depth child below
      else .ok [.culled id]
    | some shape => shape.emissions? rule frame id

def emissions? (rule : Overflow) (scene : Scene α) (id : NodeId) (frame : Frame α) :
    Except Fault (List (Emission α)) :=
  scene.emissionsWithin? rule (scene.size + 1) id frame

def Countable (scene : Scene α) : Prop :=
  ∀ node ∈ scene.nodes, node.Countable

variable {scene : Scene α}

omit [Scalar α] in
theorem Countable.node (hcount : scene.Countable) {id : NodeId} {node : Node α}
    (hnode : scene.node? id = some node) : node.Countable :=
  hcount node (Array.mem_of_getElem? hnode)

/-- The induction is on the levels: each level down leaves fewer nodes to be met, so the pass does
not come to the last one. -/
theorem emissionsWithin?_answers (hcycle : ∀ a, ¬ Relation.TransGen scene.HasChild a a)
    {rule : Overflow} (hrule : rule = .wraps → scene.Countable) {depth : Nat} (id : NodeId)
    (frame : Frame α) (hdepth : (scene.met id).card < depth) :
    Answers scene.Countable (scene.emissionsWithin? rule depth id frame)
      (scene.emissionsWithin depth id frame) := by
  induction depth generalizing id frame with
  | zero => exact absurd hdepth (Nat.not_lt_zero _)
  | succ depth ih =>
      obtain hnode | ⟨group, hgroup⟩ | ⟨node, hnode, hshape⟩ := scene.node_cases id
      · rw [emissionsWithin_unknown hnode, emissionsWithin?, hnode]
        exact Or.inl rfl
      · rw [emissionsWithin_group hgroup, emissionsWithin?, group?_eq_some_iff.mp hgroup]
        simp only
        by_cases hvisible : group.isVisible (frame.enter group.transform)
        · rw [if_pos hvisible, if_pos hvisible]
          apply gather_answers
          intro child hchild
          have hlt := card_met_lt hcycle ⟨group, hgroup, hchild⟩
          exact ih child _ (by omega)
        · rw [if_neg hvisible, if_neg hvisible]
          exact Or.inl rfl
      · have hanswers := node.emissions?_answers (fun hwraps => (hrule hwraps).node hnode) frame id
        have hchecked : scene.emissionsWithin? rule (depth + 1) id frame =
            node.emissions? rule frame id := by
          rw [emissionsWithin?, hnode]
          cases node with
          | group => cases hshape
          | _ => rfl
        rw [emissionsWithin_shape hnode hshape, hchecked]
        exact hanswers.imp_right fun ⟨hstopped, hlarge⟩ =>
          ⟨hstopped, fun hcount => hlarge (hcount.node hnode)⟩

/-- Columns and coordinates of unequal lengths, a grid with a single row, a surface without cells
and a child that does not exist. -/
def oddments : Scene ℚ where
  nodes := #[
    .group { transform := .identity, children := [⟨1⟩, ⟨2⟩, ⟨3⟩, ⟨4⟩, ⟨5⟩, ⟨6⟩, ⟨9⟩] },
    .scatter { xs := [0, 1, 2], ys := [0, 1], zs := [-1, -2, -3], sizes := [1, 2, 3, 4] },
    .labels { anchors := [0, 0, -1, 1, 1], directions := [1, 0, -1, 2, 1, -1] },
    .heightField
      { positions1 := #[0], positions2 := #[0, 1], heights := #[-1, -2, -3], line := some ⟨0⟩ },
    .cellSurface
      { edges1 := #[0, 1, 2], edges2 := #[0, 1], values := #[-1, -2], axis1 := .y, axis2 := .z,
        fine := true, line := some ⟨0⟩, surface := some ⟨0⟩ },
    .cellSurface { edges1 := #[0], axis1 := .y, axis2 := .z },
    .heightField { positions1 := #[0, 1], positions2 := #[0, 1], heights := #[0] }]

end Scene

end PainterScene
