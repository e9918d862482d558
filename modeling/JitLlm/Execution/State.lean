import JitLlm.Execution.Planning

/-!
# `model/state.cc` — a request's live state

A cursor counts the positions a request has written and committed, within the bound it was admitted
through, and the snapshots it may rewind to. What it holds is within what was planned for it.
-/

namespace JitLlm.Execution

open Base List

inductive StateError
  | invalid | unsupported | exceedsBound | belowCommitted | beyondWritten | noSnapshot
  | snapshotsFull
deriving DecidableEq

structure StateCursor where
  representation : StateRepresentation
  bound : Nat
  allowance : Bytes
  committed : Nat := 0
  written : Nat := 0
  snapshots : List Nat := []

namespace StateCursor

def create (representation : StateRepresentation) (bound : UInt64) :
    Except StateError StateCursor :=
  if !representation.isValid then .error .invalid
  else
    match representation.allowance bound.toNat with
    | none => .error .exceedsBound
    | some allowance => .ok { representation, bound := bound.toNat, allowance }

/-- In 64 unsigned bits, as all of the cursor's counts. -/
def room (c : StateCursor) : Nat := (c.bound + 2 ^ 64 - c.written) % 2 ^ 64

def blocks (c : StateCursor) : Nat := c.representation.blocksFor c.written

/-! A call answers with an error or none, and leaves a cursor. -/

def append (c : StateCursor) (positions : Nat) : Option StateError × StateCursor :=
  if !c.representation.canAppend then (some .unsupported, c)
  else if positions > c.room then (some .exceedsBound, c)
  else (none, { c with written := (c.written + positions) % 2 ^ 64 })

def commit (c : StateCursor) (positions : Nat) : Option StateError × StateCursor :=
  if positions > (c.written + 2 ^ 64 - c.committed) % 2 ^ 64 then (some .beyondWritten, c)
  else
    let committed := (c.committed + positions) % 2 ^ 64
    (none, { c with committed, snapshots := c.snapshots.filter fun p => !(p < committed) })

/-- `std::ranges::binary_search`, over what is ascending, is membership. -/
def truncate (c : StateCursor) (position : Nat) : Option StateError × StateCursor :=
  if position < c.committed then (some .belowCommitted, c)
  else if position > c.written then (some .beyondWritten, c)
  else if position = c.written then (none, c)
  else if !c.representation.canTruncateAny && !c.representation.canTruncateAtSnapshot then
    (some .unsupported, c)
  else if !c.representation.canTruncateAny && !c.snapshots.contains position then
    (some .noSnapshot, c)
  else
    (none, { c with
      written := position
      snapshots := c.snapshots.filter fun p => !(p > position) })

def snapshot (c : StateCursor) : Option StateError × StateCursor :=
  if !c.representation.canTruncateAtSnapshot then (some .unsupported, c)
  else if c.snapshots.getLast? = some c.written then (none, c)
  else if c.snapshots.length ≥ c.representation.maxSnapshots then (some .snapshotsFull, c)
  else (none, { c with snapshots := c.snapshots ++ [c.written] })

inductive Call
  | append (positions : Nat)
  | commit (positions : Nat)
  | truncate (position : Nat)
  | snapshot

def call (c : StateCursor) : Call → Option StateError × StateCursor
  | .append positions => c.append positions
  | .commit positions => c.commit positions
  | .truncate position => c.truncate position
  | .snapshot => c.snapshot

def run (c : StateCursor) (calls : List Call) : StateCursor :=
  calls.foldl (fun c x => (c.call x).2) c

/-! ## What every cursor keeps -/

structure Kept (rep : StateRepresentation) (limit : Nat) (c : StateCursor) : Prop where
  representation : c.representation = rep
  bound : c.bound = limit
  planned : rep.allowance limit = some c.allowance
  committed : c.committed ≤ c.written
  written : c.written ≤ limit
  ascending : c.snapshots.Pairwise (· < ·)
  within : ∀ p ∈ c.snapshots, c.committed ≤ p ∧ p ≤ c.written
  most : c.snapshots.length ≤ rep.maxSnapshots

variable {rep : StateRepresentation} {limit : Nat} {c : StateCursor}

theorem Kept.dropped (h : Kept rep limit c) (keep : Nat → Bool) {committed written : Nat}
    (hle : committed ≤ written) (hlimit : written ≤ limit)
    (hkeep : ∀ p ∈ c.snapshots, keep p = true → committed ≤ p ∧ p ≤ written) : Kept rep limit
      { c with committed, written, snapshots := c.snapshots.filter keep } where
  representation := h.representation
  bound := h.bound
  planned := h.planned
  committed := hle
  written := hlimit
  ascending := h.ascending.filter _
  within p hp := hkeep p (mem_filter.mp hp).1 (mem_filter.mp hp).2
  most := (length_filter_le _ _).trans h.most

theorem Kept.append (h : Kept rep limit c) (hlimit : limit < 2 ^ 64) (positions : Nat) :
    Kept rep limit (c.append positions).2 := by
  unfold StateCursor.append room
  split
  · exact h
  split
  · exact h
  rename_i hroom
  have hw := h.written
  have hc := h.committed
  rw [h.bound] at hroom
  have hsum : c.written + positions ≤ limit := by omega
  rw [Nat.mod_eq_of_lt (by omega)]
  exact { h with
    committed := by dsimp only; omega
    written := hsum
    within := fun p hp => ⟨(h.within p hp).1, by have := (h.within p hp).2; dsimp only; omega⟩ }

theorem Kept.commit (h : Kept rep limit c) (hlimit : limit < 2 ^ 64) (positions : Nat) :
    Kept rep limit (c.commit positions).2 := by
  unfold StateCursor.commit
  split
  · exact h
  rename_i hmore
  have hw := h.written
  have hc := h.committed
  rw [Nat.mod_eq_of_lt (by omega : c.committed + positions < 2 ^ 64)]
  refine h.dropped _ (by omega) hw fun p hp hkeep => ⟨?_, (h.within p hp).2⟩
  simpa using hkeep

theorem Kept.truncate (h : Kept rep limit c) (position : Nat) :
    Kept rep limit (c.truncate position).2 := by
  unfold StateCursor.truncate
  split
  · exact h
  rename_i hlow
  split
  · exact h
  rename_i hhigh
  have hw := h.written
  split
  · exact h
  split
  · exact h
  split
  · exact h
  refine h.dropped _ (by omega) (by omega) fun p hp hkeep => ⟨(h.within p hp).1, ?_⟩
  simpa using hkeep

theorem Kept.snapshot (h : Kept rep limit c) : Kept rep limit c.snapshot.2 := by
  unfold StateCursor.snapshot
  split
  · exact h
  split
  · exact h
  rename_i hlast
  split
  · exact h
  rename_i hroom
  have hbelow : ∀ p ∈ c.snapshots, p < c.written := by
    intro p hp
    refine lt_of_le_of_ne (h.within p hp).2 ?_
    intro heq
    rcases eq_nil_or_concat c.snapshots with hnil | ⟨front, last, hsplit⟩
    · rw [hnil] at hp
      cases hp
    have hasc := h.ascending
    rw [hsplit] at hlast hp hasc
    rw [concat_eq_append] at hlast hp hasc hsplit
    rcases mem_append.mp hp with hp | hp
    · have hlt := (pairwise_append.mp hasc).2.2 p hp last (by simp)
      have hle := (h.within last (by simp [hsplit])).2
      omega
    rw [mem_singleton.mp hp] at heq
    exact hlast (by simp [heq])
  rw [h.representation] at hroom
  exact { h with
    ascending := by
      refine pairwise_append.mpr ⟨h.ascending, pairwise_singleton _ _, fun p hp q hq => ?_⟩
      rw [mem_singleton.mp hq]
      exact hbelow p hp
    within := fun p hp => by
      rcases mem_append.mp hp with hp | hp
      · exact h.within p hp
      rw [mem_singleton.mp hp]
      exact ⟨h.committed, Nat.le_refl _⟩
    most := by
      rw [length_append, length_singleton]
      omega }

theorem Kept.run (h : Kept rep limit c) (hlimit : limit < 2 ^ 64) (calls : List Call) :
    Kept rep limit (c.run calls) := by
  induction calls generalizing c with
  | nil => exact h
  | cons x calls ih =>
    refine ih ?_
    cases x with
    | append positions => exact h.append hlimit positions
    | commit positions => exact h.commit hlimit positions
    | truncate position => exact h.truncate position
    | snapshot => exact h.snapshot

theorem call_refused (c : StateCursor) (x : Call) : (c.call x).1 = none ∨ (c.call x).2 = c := by
  cases x with
  | append positions =>
    simp only [call, append]
    split
    · exact Or.inr rfl
    split
    · exact Or.inr rfl
    · exact Or.inl rfl
  | commit positions =>
    simp only [call, commit]
    split
    · exact Or.inr rfl
    · exact Or.inl rfl
  | truncate position =>
    simp only [call, truncate]
    split
    · exact Or.inr rfl
    split
    · exact Or.inr rfl
    split
    · exact Or.inr rfl
    split
    · exact Or.inr rfl
    split
    · exact Or.inr rfl
    · exact Or.inl rfl
  | snapshot =>
    simp only [call, snapshot]
    split
    · exact Or.inr rfl
    split
    · exact Or.inr rfl
    split
    · exact Or.inr rfl
    · exact Or.inl rfl

/-! ## The allowance -/

theorem blocksFor_mono (rep : StateRepresentation) {p q : Nat} (h : p ≤ q) :
    rep.blocksFor p ≤ rep.blocksFor q := by
  unfold StateRepresentation.blocksFor
  split
  · exact Nat.le_refl _
  unfold ceilDiv
  have hdiv := Nat.div_le_div_right (c := rep.blockPositions) h
  have hp := Nat.div_add_mod p rep.blockPositions
  have hq := Nat.div_add_mod q rep.blockPositions
  by_cases heq : p / rep.blockPositions = q / rep.blockPositions
  · rw [heq] at hp ⊢
    split <;> split <;> omega
  · split <;> split <;> omega

theorem allowance_value {positions : Nat} {b : Bytes} (h : rep.allowance positions = some b) :
    b.value = rep.blockBytes.value * rep.blocksFor positions +
      rep.snapshotBytes.value * rep.maxSnapshots := by
  obtain ⟨blocks, hblocks, h⟩ := Option.bind_eq_some_iff.mp h
  obtain ⟨snapshots, hsnapshots, h⟩ := Option.bind_eq_some_iff.mp h
  rw [Bytes.plus_eq_some.mp h, times_eq_some hblocks, times_eq_some hsnapshots]

/-- What the blocks and the snapshots take. -/
def held (c : StateCursor) : Nat :=
  c.blocks * c.representation.blockBytes.value +
    c.snapshots.length * c.representation.snapshotBytes.value

theorem Kept.held_le (h : Kept rep limit c) : c.held ≤ c.allowance.value := by
  rw [allowance_value h.planned, held, blocks, h.representation, Nat.mul_comm,
    Nat.mul_comm c.snapshots.length]
  exact Nat.add_le_add (Nat.mul_le_mul_left _ (blocksFor_mono _ h.written))
    (Nat.mul_le_mul_left _ h.most)

theorem create_kept {bound : UInt64} (h : create rep bound = .ok c) : Kept rep bound.toNat c := by
  unfold create at h
  split at h
  · cases h
  split at h
  · cases h
  rename_i hplan
  cases h
  exact ⟨rfl, rfl, hplan, Nat.le_refl _, Nat.zero_le _, .nil, by simp, Nat.zero_le _⟩

/-- Whatever is called, the counts stay in order and within the bound, what is held within the
    allowance planned for it, and a refused call changes nothing. -/
theorem run_within_allowance {bound : UInt64} (h : create rep bound = .ok c) (calls : List Call) :
    Kept rep bound.toNat (c.run calls) ∧ (c.run calls).allowance = c.allowance ∧
      (c.run calls).held ≤ c.allowance.value ∧ c.allowance.value ≤ uint64Max ∧
      ∀ x e, ((c.run calls).call x).1 = some e → ((c.run calls).call x).2 = c.run calls := by
  have hstart := create_kept h
  have hrun := hstart.run bound.toNat_lt calls
  have hsame : (c.run calls).allowance = c.allowance :=
    Option.some.inj (hrun.planned.symm.trans hstart.planned)
  exact ⟨hrun, hsame, hsame ▸ hrun.held_le, c.allowance.bound,
    fun x e he => (call_refused _ x).resolve_left (by simp [he])⟩

def sampleState : StateRepresentation where
  name := "kv"
  blockPositions := 16
  blockBytes := .ofNat 4096
  canAppend := true
  canTruncateAtSnapshot := true
  maxSnapshots := 2
  snapshotBytes := .ofNat 512

/-- Rewound to a snapshot in its second block. -/
theorem run_within_allowance_rewound : ∃ c, create sampleState 40 = .ok c ∧
      (c.run [.append 20, .snapshot, .append 15, .truncate 20]).written = 20 ∧
      (c.run [.append 20, .snapshot, .append 15, .truncate 20]).held ≤ c.allowance.value :=
  ⟨_, rfl, rfl, (run_within_allowance (show create sampleState 40 = .ok _ from rfl) _).2.2.1⟩

end StateCursor
end JitLlm.Execution
