import Mathlib.Data.List.Basic

/-!
# The streams the drafter is fed

`Qwen38Runner`'s speculation: which position's target streams each row of the drafter's buffer
holds, and from which each cell of its caches was written. An injecting chunk reads the buffer from
row 0, where the chunk before left its last row's; a draft reads it from row 1, where a verify
leaves its own. Nothing moves a verify's last kept row to row 0, so the first chunk of a turn that
follows a generating one is fed the streams of an older position.
-/

namespace JitLlm.Engine.Drafting

/-- What a cell was last written from: a row of the buffer, with the position whose target streams
    it held, or a pass's own streams. -/
inductive Source where
  | streams (position : Option Nat)
  | drafted
deriving DecidableEq

/-- The drafter's state, `pending_rows_`, the rows of a verify that awaits its `Accept`, and the
    length of `Llm`'s history: the positions the target's state holds. -/
structure Runner where
  streams : Nat → Option Nat
  cells : Nat → Option Source
  pendingRows : Nat
  verifyRows : Nat
  past : Nat

structure Options where
  draftRows : Nat
  maxRows : Nat
  context : Nat

/-- A row of a drafter pass: its position, the buffer's row it reads (none in a further pass), the
    cells it attends, and how many positions are committed. -/
structure Row where
  position : Nat
  reads : Option (Option Nat)
  cells : Nat → Option Source
  committed : Nat

/-- A row is fed right: the streams it reads are its position's, and so are those that each
    committed position's cell it attends was written from. -/
def Row.Right (r : Row) : Prop :=
  (∀ held, r.reads = some held → held = some r.position) ∧
    ∀ c ≤ r.position, c < r.committed → r.cells c = some (.streams (some c))

/-- `Clear`: the regions are zeroed. -/
def Runner.cleared : Runner := ⟨fun _ => none, fun _ => none, 0, 0, 0⟩

def exported (s : Runner) (rows : Nat) : Nat → Option Nat := fun i =>
  if 1 ≤ i ∧ i ≤ rows then some (s.past + (i - 1)) else s.streams i

/-- The cells behind a pass over `rows` positions from `first` on that reads the buffer from
    `hiddenRow` on. -/
def passed (streams : Nat → Option Nat) (first rows hiddenRow : Nat)
    (cells : Nat → Option Source) : Nat → Option Source := fun c =>
  if first ≤ c ∧ c < first + rows then some (.streams (streams (hiddenRow + (c - first))))
  else cells c

def passRows (streams : Nat → Option Nat) (first rows hiddenRow committed : Nat)
    (cells : Nat → Option Source) : List Row :=
  (List.range rows).map fun j => ⟨first + j, some (streams (hiddenRow + j)),
    passed streams first rows hiddenRow cells, committed⟩

/-- The cells behind the first `j` further passes, one row each, from `n` on. -/
def further (n j : Nat) (cells : Nat → Option Source) : Nat → Option Source := fun c =>
  if n ≤ c ∧ c < n + j then some .drafted else cells c

/-- `Chunk` with the injection, of `rows` rows at `past`. -/
def chunk (x : Options) (rows : Nat) (s : Runner) : Option (List Row × Runner) :=
  if s.verifyRows ≠ 0 then none
  else if rows = 0 ∨ x.maxRows < rows ∨ x.context < s.past + rows then none
  else
    let streams := exported s rows
    let mrows := if 0 < s.past then rows else rows - 1
    let first := if 0 < s.past then s.past - 1 else 0
    let hiddenRow := if 0 < s.past then 0 else 1
    some (passRows streams first mrows hiddenRow (s.past + rows) s.cells,
      { s with
        -- the last row's streams become the pending row
        streams := fun i => if i ≤ 1 then streams rows else streams i
        cells := passed streams first mrows hiddenRow s.cells
        pendingRows := 1
        past := s.past + rows })

/-- `Draft`, the anchor at `past`. -/
def draft (x : Options) (s : Runner) : Option (List Row × Runner) :=
  let rows := s.pendingRows
  let n := s.past
  if s.verifyRows ≠ 0 then none
  else if rows = 0 ∨ n < rows then none
  else if x.draftRows = 0 ∨ x.context < n + x.draftRows - 1 then none
  else
    let cells := passed s.streams (n - rows) rows 1 s.cells
    some (passRows s.streams (n - rows) rows 1 n s.cells ++
        (List.range (x.draftRows - 1)).map fun j => ⟨n + j, none, further n (j + 1) cells, n⟩,
      { s with cells := further n (x.draftRows - 1) cells })

/-- `Verify` of `rows` rows at `past`. -/
def verify (x : Options) (rows : Nat) (s : Runner) : Option Runner :=
  if s.verifyRows ≠ 0 then none
  else if rows = 0 ∨ x.draftRows + 1 < rows ∨ x.maxRows < rows ∨ x.context < s.past + rows then none
  else some { s with streams := exported s rows, verifyRows := rows }

/-- `Accept`, and the history `Llm` goes on with. -/
def accept (keep : Nat) (s : Runner) : Option Runner :=
  if s.verifyRows = 0 ∨ keep = 0 ∨ s.verifyRows < keep then none
  else some { s with pendingRows := keep, verifyRows := 0, past := s.past + keep }

/-! ## Runs -/

/-- What `Llm` has the runner do: `Clear`, a prefill's chunk, or a step (`SpecStep`). -/
inductive Event where
  | clear
  | chunk (rows : Nat)
  | step (rows keep : Nat)

/-- An event whose calls are all answered, with the rows of its drafter passes. After a call that
    fails `Llm` clears. -/
def Event.run (x : Options) (s : Runner) : Event → Option (List Row × Runner)
  | .clear => some ([], .cleared)
  | .chunk rows => Drafting.chunk x rows s
  | .step rows keep => do
    let (passes, s) ← draft x s
    let s ← verify x rows s
    let s ← accept keep s
    pure (passes, s)

def run (x : Options) : List Event → Runner → Option (List Row)
  | [], _ => some []
  | e :: es, s => do
    let (passes, s) ← e.run x s
    let rest ← run x es s
    pure (passes ++ rest)

/-- No chunk follows a step but behind a `Clear`; `generated` says that one came before. -/
def oneTurn : Bool → List Event → Bool
  | _, [] => true
  | _, .clear :: es => oneTurn false es
  | generated, .chunk _ :: es => !generated && oneTurn generated es
  | _, .step _ _ :: es => oneTurn true es

/-! ## A pass that is fed right -/

variable {x : Options} {s s' : Runner} {passes : List Row} {rows : Nat} {generated : Bool}

theorem exported_row {i : Nat} (h : 1 ≤ i ∧ i ≤ rows) :
    exported s rows i = some (s.past + (i - 1)) := if_pos h

theorem exported_first : exported s rows 0 = s.streams 0 := if_neg (by omega)

section Pass

variable {streams : Nat → Option Nat} {first hiddenRow : Nat} {cells : Nat → Option Source}
  (hreads : ∀ j < rows, streams (hiddenRow + j) = some (first + j))
  (hcells : ∀ c < first, cells c = some (.streams (some c)))

include hreads hcells

theorem passed_target {c : Nat} (hc : c < first + rows) :
    passed streams first rows hiddenRow cells c = some (.streams (some c)) := by
  unfold passed
  split
  next h =>
    rw [hreads _ (by omega), Nat.add_sub_cancel' h.1]
  next h => exact hcells c (by omega)

theorem passRows_right {committed : Nat} :
    ∀ r ∈ passRows streams first rows hiddenRow committed cells, r.Right := by
  intro r hr
  obtain ⟨j, hj, rfl⟩ := List.mem_map.mp hr
  have hj := List.mem_range.mp hj
  refine ⟨?_, ?_⟩
  · rintro held ⟨⟩
    exact hreads j hj
  intro c hc _
  have hc : c ≤ first + j := hc
  exact passed_target hreads hcells (by omega)

end Pass

/-! ## What a run keeps -/

/-- Between two events the pending rows hold the last positions' streams, and the cells before them
    were written from their own; row 0 holds the last position's until a step, and then an older
    one's. -/
structure Fed (generated : Bool) (s : Runner) : Prop where
  idle : s.verifyRows = 0
  le : s.pendingRows ≤ s.past
  begun : generated = true → 0 < s.past
  pending : ∀ j < s.pendingRows, s.streams (1 + j) = some (s.past - s.pendingRows + j)
  cells : ∀ c < s.past - s.pendingRows, s.cells c = some (.streams (some c))
  first : 0 < s.past → ∃ a, s.streams 0 = some a ∧ a + 1 ≤ s.past ∧
    (generated = false ↔ a + 1 = s.past) ∧ (generated = false → s.pendingRows = 1)

theorem Fed.cleared : Fed false .cleared := ⟨rfl, Nat.le_refl 0, nofun, nofun, nofun, nofun⟩

theorem Fed.chunk (h : Fed false s) (hrun : chunk x rows s = some (passes, s')) :
    (∀ r ∈ passes, r.Right) ∧ Fed false s' := by
  unfold Drafting.chunk at hrun
  split at hrun
  · cases hrun
  split at hrun
  · cases hrun
  rename_i hrows
  obtain ⟨rfl, rfl⟩ := Prod.mk.inj (Option.some.inj hrun)
  -- the pass covers the positions before the chunk's last
  have hcover : (if 0 < s.past then s.past - 1 else 0) +
      (if 0 < s.past then rows else rows - 1) = s.past + rows - 1 := by
    split <;> omega
  have hreads : ∀ j < (if 0 < s.past then rows else rows - 1),
      exported s rows ((if 0 < s.past then 0 else 1) + j) =
        some ((if 0 < s.past then s.past - 1 else 0) + j) := by
    intro j hj
    split at hj
    next hpast =>
      obtain ⟨a, ha, -, hlast, -⟩ := h.first hpast
      have hlast := hlast.mp rfl
      rw [if_pos hpast, if_pos hpast, Nat.zero_add]
      rcases Nat.eq_zero_or_pos j with rfl | hj0
      · rw [exported_first, ha]
        congr 1
        omega
      rw [exported_row (by omega)]
      congr 1
      omega
    rename_i hpast
    rw [if_neg hpast, if_neg hpast, exported_row (by omega)]
    congr 1
    omega
  have hcells : ∀ c < (if 0 < s.past then s.past - 1 else 0),
      s.cells c = some (.streams (some c)) := by
    intro c hc
    split at hc
    next hpast =>
      obtain ⟨-, -, -, -, hone⟩ := h.first hpast
      exact h.cells c (by rw [hone rfl]; exact hc)
    next => omega
  have hcar : ∀ i ≤ 1, (if i ≤ 1 then exported s rows rows else exported s rows i) =
      some (s.past + rows - 1) := by
    intro i hi
    rw [if_pos hi, exported_row (by omega)]
    congr 1
    omega
  refine ⟨passRows_right hreads hcells, h.idle, ?_, nofun, ?_, ?_, ?_⟩
  · show 1 ≤ s.past + rows
    omega
  · intro j hj
    have hj : j < 1 := hj
    obtain rfl : j = 0 := by omega
    exact hcar 1 (by omega)
  · intro c hc
    have hc : c < s.past + rows - 1 := hc
    exact passed_target hreads hcells (by omega)
  intro _
  refine ⟨_, hcar 0 (by omega), ?_, ?_, fun _ => rfl⟩
  · show s.past + rows - 1 + 1 ≤ s.past + rows
    omega
  show false = false ↔ s.past + rows - 1 + 1 = s.past + rows
  simp only [true_iff]
  omega

theorem chunk_wrong (h : Fed true s) (hrun : chunk x rows s = some (passes, s')) :
    ¬ ∀ r ∈ passes, r.Right := by
  have hpast := h.begun rfl
  obtain ⟨a, ha, -, hold, -⟩ := h.first hpast
  unfold chunk at hrun
  split at hrun
  · cases hrun
  split at hrun
  · cases hrun
  rename_i hrows
  obtain ⟨rfl, -⟩ := Prod.mk.inj (Option.some.inj hrun)
  intro hall
  have hzero := List.mem_map_of_mem (f := fun j => (⟨s.past - 1 + j,
    some (exported s rows (0 + j)), passed (exported s rows) (s.past - 1) rows 0 s.cells,
    s.past + rows⟩ : Row)) (List.mem_range.mpr (show 0 < rows by omega))
  have hread := (hall _ (by simpa only [if_pos hpast, passRows] using hzero)).1 _ rfl
  rw [exported_first, ha] at hread
  have heq : a = s.past - 1 + 0 := Option.some.inj hread
  have hfalse := hold.mpr (by omega)
  cases hfalse

theorem Fed.draft (h : Fed generated s) (hrun : draft x s = some (passes, s')) :
    (∀ r ∈ passes, r.Right) ∧ 0 < s.past ∧ s'.past = s.past ∧
      s'.streams = s.streams ∧ ∀ c < s.past, s'.cells c = some (.streams (some c)) := by
  unfold Drafting.draft at hrun
  dsimp only at hrun
  split at hrun
  · cases hrun
  split at hrun
  · cases hrun
  rename_i hpen
  split at hrun
  · cases hrun
  obtain ⟨rfl, rfl⟩ := Prod.mk.inj (Option.some.inj hrun)
  have hcells : ∀ j, ∀ c < s.past,
      further s.past j (passed s.streams (s.past - s.pendingRows) s.pendingRows 1 s.cells) c =
        some (.streams (some c)) := by
    intro j c hc
    unfold further
    rw [if_neg (by omega)]
    exact passed_target h.pending h.cells (by omega)
  refine ⟨?_, by omega, rfl, rfl, hcells _⟩
  intro r hr
  rcases List.mem_append.mp hr with hr | hr
  · exact passRows_right h.pending h.cells r hr
  obtain ⟨j, -, rfl⟩ := List.mem_map.mp hr
  exact ⟨nofun, fun c _ hc => hcells _ c hc⟩

theorem Fed.step {keep : Nat} (h : Fed generated s)
    (hrun : (Event.step rows keep).run x s = some (passes, s')) :
    (∀ r ∈ passes, r.Right) ∧ Fed true s' := by
  obtain ⟨⟨_, s1⟩, hdraft, hrun⟩ := Option.bind_eq_some_iff.mp hrun
  obtain ⟨s2, hver, hrun⟩ := Option.bind_eq_some_iff.mp hrun
  obtain ⟨s3, hacc, hrun⟩ := Option.bind_eq_some_iff.mp hrun
  cases hrun
  obtain ⟨hright, hpast, hsame, hstreams, hcells⟩ := h.draft hdraft
  obtain ⟨a, ha, hle, -⟩ := h.first hpast
  unfold verify at hver
  split at hver
  · cases hver
  split at hver
  · cases hver
  cases hver
  unfold accept at hacc
  split at hacc
  · cases hacc
  rename_i hkeep
  cases hacc
  dsimp only at hkeep
  refine ⟨hright, rfl, Nat.le_add_left .., fun _ => ?_, ?_, ?_, fun _ => ⟨a, ?_, ?_, ?_, nofun⟩⟩
  · show 0 < s1.past + keep
    omega
  · intro j hj
    have hj : j < keep := hj
    show exported s1 rows (1 + j) = some (s1.past + keep - keep + j)
    rw [exported_row (by omega), Nat.add_sub_cancel, Nat.add_sub_cancel_left]
  · intro c hc
    have hc : c < s1.past + keep - keep := hc
    exact hcells c (by omega)
  · show exported s1 rows 0 = some a
    rw [exported_first, hstreams, ha]
  · show a + 1 ≤ s1.past + keep
    omega
  show true = false ↔ a + 1 = s1.past + keep
  simp only [Bool.true_eq_false, false_iff]
  omega

theorem run_right_iff (events : List Event) :
    ∀ {generated : Bool} {s : Runner} {passes : List Row}, Fed generated s →
      run x events s = some passes → ((∀ r ∈ passes, r.Right) ↔ oneTurn generated events = true) := by
  induction events with
  | nil =>
    intro generated s passes _ hrun
    cases hrun
    simp [oneTurn]
  | cons e es ih =>
    intro generated s passes h hrun
    obtain ⟨⟨now, s'⟩, hnow, hrun⟩ := Option.bind_eq_some_iff.mp hrun
    obtain ⟨rest, hrest, hrun⟩ := Option.bind_eq_some_iff.mp hrun
    cases hrun
    -- an event that is fed right leaves the rest of the run to decide
    have key : ∀ {g : Bool}, (∀ r ∈ now, r.Right) → Fed g s' →
        ((∀ r ∈ now ++ rest, r.Right) ↔ oneTurn g es = true) := by
      intro g hright hfed
      rw [← ih hfed hrest, List.forall_mem_append]
      exact and_iff_right hright
    cases e with
    | clear =>
      cases hnow
      exact key nofun .cleared
    | chunk n =>
      rcases generated with _ | _
      · exact key (h.chunk hnow).1 (h.chunk hnow).2
      refine iff_of_false ?_ (by simp [oneTurn])
      intro hall
      exact chunk_wrong h hnow fun r hr => hall r (List.mem_append_left _ hr)
    | step n keep => exact key (h.step hnow).1 (h.step hnow).2

/-- In a run from a cleared state, every drafter pass reads the streams of its positions, and
    attends committed cells written from theirs, exactly when no chunk comes behind a step without
    a `Clear` between them. -/
theorem fed_right_iff {events : List Event} (hrun : run x events .cleared = some passes) :
    (∀ r ∈ passes, r.Right) ↔ oneTurn false events = true := run_right_iff events .cleared hrun

/-- A prefill in two chunks, and two steps. -/
theorem fed_right_iff_turn :
    (run ⟨3, 8, 64⟩ [.chunk 4, .chunk 2, .step 4 3, .step 4 1] .cleared).isSome = true ∧
      ∀ passes, run ⟨3, 8, 64⟩ [.chunk 4, .chunk 2, .step 4 3, .step 4 1] .cleared = some passes →
        ∀ r ∈ passes, r.Right :=
  ⟨by decide, fun _ hrun => (fed_right_iff hrun).mpr (by decide)⟩

/-- A prefill of four tokens, a step that keeps two rows, and the next turn's chunk: its pass reads
    position 3's streams for position 5. -/
theorem next_turn_fed_wrong : ∃ passes,
    run ⟨3, 8, 64⟩ [.chunk 4, .step 4 2, .chunk 2] .cleared = some passes ∧
      ∃ r ∈ passes, r.position = 5 ∧ r.position < r.committed ∧ r.reads = some (some 3) ∧
        ¬ r.Right := by
  refine ⟨_, rfl, ?_⟩
  refine ⟨_, List.mem_append_right _ (List.mem_append_right _ (List.mem_append_left _ (.head _))),
    rfl, by decide, rfl, ?_⟩
  intro h
  have := h.1 _ rfl
  cases this

end JitLlm.Engine.Drafting
