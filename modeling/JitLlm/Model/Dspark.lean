import Mathlib.Data.List.Nodup
import Mathlib.Data.List.Range

/-!
# The drafter's ring

`model/dspark.cc`: the ring of cells that the drafter attends. A committed position's K is injected
into the cell of its position modulo the ring's size; a draft writes its own rows past the last
committed position, and a verify injects rows that may be withdrawn. Since the ring holds a window
and a block, no write reaches a cell whose position a later draft can still see.
-/

namespace JitLlm.Model

/-- What `DsparkState` and `DsparkBlock` read of a `DsparkProfile`. -/
structure DsparkProfile where
  ring : Nat
  window : Nat
  blockSize : Nat

/-- `DsparkState`'s check, with the layout's `max_rows`. -/
def DsparkProfile.accepts (p : DsparkProfile) (maxRows : Nat) : Bool :=
  !(maxRows == 0 || p.ring == 0 || p.ring % 256 != 0 || decide (p.ring < p.window + p.blockSize))

/-- `DsparkInject`: the first row injected, and the cells from it on. -/
def dsparkInject (ring past rows : Nat) : Nat × List Nat :=
  let injected := min rows ring
  (rows - injected, (List.range injected).map fun i => (past + (rows - injected + i)) % ring)

/-- The position cell `c` holds once a block that ends at `stop` is written. -/
def heldPosition (ring stop c : Nat) : Nat := c + (stop - 1 - c) / ring * ring

/-- `DsparkBlock`'s mask: whether row `i` admits cell `c`. -/
def admits (p : DsparkProfile) (pos0 rows i c : Nat) : Bool :=
  let stop := pos0 + rows
  decide (c < stop) &&
    (decide (heldPosition p.ring stop c > pos0 + i) ||
      decide ((pos0 + i) - heldPosition p.ring stop c < p.window))

/-- `DsparkBlock`'s cells. -/
def blockCells (p : DsparkProfile) (pos0 rows : Nat) : List Nat :=
  (List.range rows).map fun i => (pos0 + i) % p.ring

/-! ## Runs -/

/-- What a cell holds: the K injected for a position, or that of a draft's row. -/
inductive Content where
  | injected (position : Nat)
  | drafted (position : Nat)
deriving DecidableEq

structure Ring where
  cells : Nat → Option Content
  past : Nat

def Ring.cleared : Ring := ⟨fun _ => none, 0⟩

/-- The cells with `content p` written for the positions from `first` to before `stop`. -/
def written (ring first stop : Nat) (content : Nat → Content) (cells : Nat → Option Content)
    (c : Nat) : Option Content :=
  match (List.range (stop - first)).find? (fun i => (first + i) % ring == c) with
  | some i => some (content (first + i))
  | none => cells c

def injectedInto (p : DsparkProfile) (past rows : Nat) (cells : Nat → Option Content) :
    Nat → Option Content :=
  written p.ring (past + (rows - min rows p.ring)) (past + rows) .injected cells

/-- A job on the ring. A verify's rows from `keep` on are restored before the next job. -/
inductive Job where
  | chunk (rows : Nat)
  | draft (rows : Nat)
  | verify (rows keep : Nat)
deriving DecidableEq

def Job.allowed (p : DsparkProfile) : Job → Bool
  | .chunk _ => true
  | .draft rows => decide (0 < rows ∧ rows ≤ p.blockSize)
  | .verify rows keep => decide (rows ≤ p.blockSize + 1 ∧ keep ≤ rows)

/-- Whether cell `c` is that of an injected row from `keep` on. -/
def rejectedCell (p : DsparkProfile) (past rows keep c : Nat) : Bool :=
  (List.range rows).any fun i =>
    decide (keep ≤ i ∧ (dsparkInject p.ring past rows).1 ≤ i) && ((past + i) % p.ring == c)

def step (p : DsparkProfile) (r : Ring) : Job → Ring
  | .chunk rows => ⟨injectedInto p r.past rows r.cells, r.past + rows⟩
  | .draft rows => ⟨written p.ring r.past (r.past + rows) .drafted r.cells, r.past⟩
  | .verify rows keep =>
    ⟨fun c => if rejectedCell p r.past rows keep c then r.cells c
      else injectedInto p r.past rows r.cells c, r.past + keep⟩

def run (p : DsparkProfile) (jobs : List Job) : Ring := jobs.foldl (step p) Ring.cleared

/-! ## Cells and positions -/

theorem mod_inj {ring a b : Nat} (h : a % ring = b % ring) (hab : a < b + ring)
    (hba : b < a + ring) : a = b := by
  have key : ∀ {x y : Nat}, x % ring = y % ring → x ≤ y → y < x + ring → x = y := by
    intro x y hxy hle hlt
    have hz : (y - x) % ring = 0 := Nat.sub_mod_eq_zero_of_mod_eq hxy.symm
    rw [Nat.mod_eq_of_lt (by omega)] at hz
    omega
  rcases Nat.le_total a b with hle | hle
  · exact key h hle hba
  · exact (key h.symm hle hab).symm

variable {ring first stop q c : Nat} {content : Nat → Content} {cells : Nat → Option Content}
    {p : DsparkProfile}

theorem written_at (hlen : stop ≤ first + ring) (h1 : first ≤ q) (h2 : q < stop) :
    written ring first stop content cells (q % ring) = some (content q) := by
  unfold written
  split
  next i hi =>
    have hcell := List.find?_some hi
    have hmem := List.mem_range.mp (List.mem_of_find?_eq_some hi)
    rw [beq_iff_eq] at hcell
    rw [mod_inj hcell (by omega) (by omega)]
  rename_i hnone
  rw [List.find?_eq_none] at hnone
  have := hnone (q - first) (List.mem_range.mpr (by omega))
  rw [Nat.add_sub_cancel' h1] at this
  simp at this

theorem written_off (h : ∀ p, first ≤ p → p < stop → p % ring ≠ c) :
    written ring first stop content cells c = cells c := by
  unfold written
  split
  next i hi =>
    have hcell := List.find?_some hi
    have hmem := List.mem_range.mp (List.mem_of_find?_eq_some hi)
    rw [beq_iff_eq] at hcell
    exact absurd hcell (h _ (by omega) (by omega))
  next => rfl

theorem cells_nodup {n : Nat} (first : Nat) (hn : n ≤ ring) :
    ((List.range n).map fun i => (first + i) % ring).Nodup := by
  refine List.Nodup.map_on ?_ List.nodup_range
  intro i hi j hj h
  have hi := List.mem_range.mp hi
  have hj := List.mem_range.mp hj
  have := mod_inj h (by omega) (by omega)
  omega

theorem heldPosition_spec (hc : c < ring) (hstop : c < stop) : heldPosition ring stop c % ring = c ∧
    heldPosition ring stop c < stop ∧ stop ≤ heldPosition ring stop c + ring := by
  unfold heldPosition
  have hdiv := Nat.div_add_mod (stop - 1 - c) ring
  have hmod := Nat.mod_lt (stop - 1 - c) (show 0 < ring by omega)
  rw [Nat.mul_comm] at hdiv
  refine ⟨?_, by omega, by omega⟩
  rw [Nat.add_mul_mod_self_right, Nat.mod_eq_of_lt hc]

/-! ## What a draft sees -/

theorem accepts_holds {maxRows : Nat} (h : p.accepts maxRows = true) :
    0 < p.ring ∧ p.window + p.blockSize ≤ p.ring := by
  simp only [DsparkProfile.accepts, Bool.not_eq_true', Bool.or_eq_false_iff, beq_eq_false_iff_ne,
    bne_eq_false_iff_eq, decide_eq_false_iff_not] at h
  omega

theorem admits_iff (hring : p.window + p.blockSize ≤ p.ring) {pos0 rows i : Nat}
    (hrows : rows ≤ p.blockSize) (hc : c < p.ring) : admits p pos0 rows i c = true ↔
      ∃ q, pos0 + i + 1 - p.window ≤ q ∧ q < pos0 + rows ∧ q % p.ring = c := by
  simp only [admits, Bool.and_eq_true, Bool.or_eq_true, decide_eq_true_eq]
  constructor
  · intro ⟨hstop, hseen⟩
    obtain ⟨hmod, hlt, -⟩ := heldPosition_spec hc hstop
    exact ⟨_, by omega, hlt, hmod⟩
  intro ⟨q, hlo, hhi, hq⟩
  have hle : c ≤ q := hq ▸ Nat.mod_le q p.ring
  obtain ⟨hmod, hlt, hnear⟩ := heldPosition_spec hc (show c < pos0 + rows by omega)
  have heq := mod_inj (hmod.trans hq.symm) (by omega) (by omega)
  exact ⟨by omega, by omega⟩

def Visible (p : DsparkProfile) (r : Ring) : Prop :=
  ∀ q < r.past, r.past < q + p.window → r.cells (q % p.ring) = some (.injected q)

theorem Visible.step (hring : 0 < p.ring ∧ p.window + p.blockSize ≤ p.ring) {r : Ring}
    (h : Visible p r) {j : Job} (hj : j.allowed p = true) : Visible p (step p r j) := by
  intro q hq hsee
  cases j with
  | chunk rows =>
    simp only [Model.step, injectedInto] at hq hsee ⊢
    by_cases hnew : r.past ≤ q
    · exact written_at (by omega) (by omega) hq
    rw [written_off]
    · exact h q (by omega) (by omega)
    intro a h1 h2 hcell
    have := mod_inj hcell (by omega) (by omega)
    omega
  | draft rows =>
    simp only [Job.allowed, decide_eq_true_eq] at hj
    simp only [Model.step] at hq hsee ⊢
    rw [written_off]
    · exact h q hq hsee
    intro a h1 h2 hcell
    have := mod_inj hcell (by omega) (by omega)
    omega
  | verify rows keep =>
    simp only [Job.allowed, decide_eq_true_eq] at hj
    simp only [Model.step, injectedInto] at hq hsee ⊢
    -- A rejected row is past the kept ones, and within the ring's size of every visible position.
    have hkeep : rejectedCell p r.past rows keep (q % p.ring) = false := by
      simp only [rejectedCell, List.any_eq_false, List.mem_range, Bool.and_eq_true,
        decide_eq_true_eq, beq_iff_eq, not_and]
      intro i hi hrej hcell
      have := mod_inj hcell (by omega) (by omega)
      omega
    rw [hkeep, if_neg (by decide)]
    by_cases hnew : r.past ≤ q
    · exact written_at (by omega) (by omega) (by omega)
    rw [written_off]
    · exact h q (by omega) (by omega)
    intro a h1 h2 hcell
    have := mod_inj hcell (by omega) (by omega)
    omega

theorem Visible.run (hring : 0 < p.ring ∧ p.window + p.blockSize ≤ p.ring) {jobs : List Job}
    (hjobs : ∀ j ∈ jobs, j.allowed p = true) : Visible p (run p jobs) := by
  have key : ∀ (jobs : List Job) (r : Ring), Visible p r → (∀ j ∈ jobs, j.allowed p = true) →
      Visible p (jobs.foldl (Model.step p) r) := by
    intro jobs
    induction jobs with
    | nil => intro r h _; exact h
    | cons j jobs ih =>
      intro r h hall
      exact ih _ (h.step hring (hall j List.mem_cons_self))
        fun j hj => hall j (List.mem_cons_of_mem _ hj)
  exact key jobs Ring.cleared (fun q hq => absurd hq (Nat.not_lt_zero q)) hjobs

/-- The drafter attends exactly the committed window: after any jobs, a draft's row admits the cells
    of the positions in its window, once each, and those of committed positions hold what was
    injected for them; the cells one draft or one injection writes are distinct. -/
theorem drafts_attend_committed (p : DsparkProfile) (maxRows : Nat)
    (haccepts : p.accepts maxRows = true) (jobs : List Job) (hjobs : ∀ j ∈ jobs, j.allowed p = true)
    (rows : Nat) (hrows : 0 < rows ∧ rows ≤ p.blockSize ∧ rows ≤ maxRows) : let r := run p jobs
    (∀ i < rows,
      (∀ c < p.ring, admits p r.past rows i c = true ↔
        ∃ q, r.past + i + 1 - p.window ≤ q ∧ q < r.past + rows ∧ q % p.ring = c) ∧
      (∀ q q', r.past + i + 1 - p.window ≤ q → q < r.past + rows →
        r.past + i + 1 - p.window ≤ q' → q' < r.past + rows → q % p.ring = q' % p.ring → q = q') ∧
      ∀ q, r.past + i + 1 - p.window ≤ q → q < r.past →
        (step p r (.draft rows)).cells (q % p.ring) = some (.injected q)) ∧
    (blockCells p r.past rows).Nodup ∧
    ∀ past n, (dsparkInject p.ring past n).2.Nodup := by
  intro r
  have hring := accepts_holds haccepts
  have hvis : Visible p (step p r (.draft rows)) :=
    (Visible.run hring hjobs).step hring (by simp [Job.allowed, hrows.1, hrows.2.1])
  refine ⟨?_, cells_nodup _ (by omega), ?_⟩
  · intro i hi
    refine ⟨fun c hc => admits_iff hring.2 hrows.2.1 hc, ?_, ?_⟩
    · intro q q' h1 h2 h3 h4 hcell
      exact mod_inj hcell (by omega) (by omega)
    intro q h1 h2
    exact hvis q h2 (by show r.past < _; omega)
  intro past n
  simp only [dsparkInject, ← Nat.add_assoc]
  exact cells_nodup _ (Nat.min_le_right n p.ring)

/-- A prompt, a draft and a verify that keeps one row of three, and the next draft. -/
theorem drafts_attend_committed_rejected :
    (step ⟨256, 128, 4⟩ (run ⟨256, 128, 4⟩ [.chunk 300, .draft 2, .verify 3 1]) (.draft 2)).cells
      (300 % 256) = some (.injected 300) :=
  ((drafts_attend_committed ⟨256, 128, 4⟩ 4 (by decide) [.chunk 300, .draft 2, .verify 3 1]
    (by decide) 2 (by decide)).1 0 (by decide)).2.2 300 (by decide) (by decide)

end JitLlm.Model
