import JitLlm.Engine.LiveState

/-!
# A rejected or failed verify leaves no trace

The runs of a conversation's state: chunks, verifies, `Accept`, `Rollback` and `Clear` in any
order and with any failures. Beside the state goes what it should hold: the memory the last
`Clear` left, and the turns since, each a chunk that was answered or the kept rows of an
accepted verify. While the state is not quarantined and no verify awaits its `Accept`, what is
owed, applied to the device's bytes, gives exactly that.
-/

namespace JitLlm.Engine

open List

variable {B : Type} {x : Setup B} {reads : Nat → Prop} {l l' l1 : LiveState} {d d' : Device B}
    {wrote : Bool} {r : StateRange} {u : Unit} {saved : List Saved} {launch : Launched B}
    {what : Queued} {e : String} {P : Bytemap B} {owedBy : Nat} {c : Chunk B} {a : ChunkAnswers B}
    {p : Posting} {result : JobResult} {fills : Nat → Option (Work B)}

/-- `m` and `m'` hold the same bytes at the addresses of `p`. -/
def AgreeOn (p : Nat → Prop) (m m' : Bytemap B) : Prop := ∀ a, p a → m a = m' a

theorem AgreeOn.trans {p : Nat → Prop} {m m' m'' : Bytemap B} (h : AgreeOn p m m')
    (h' : AgreeOn p m' m'') : AgreeOn p m m'' := fun a ha => (h a ha).trans (h' a ha)

def Setup.State (x : Setup B) (a : Nat) : Prop := ∃ r ∈ x.regions, Inside a r.1 r.2

def Setup.Snapshot (x : Setup B) (a : Nat) : Prop := Inside a x.snapshotBase x.snapshotBytes

/-! ## What the state should hold -/

/-- A chunk that was answered, or the first `keep` rows of an accepted verify. -/
inductive Turn (B : Type) where
  | plain (work : Work B)
  | kept (work : Work B) (ranges : List StateRange) (keep : Nat)

/-- A row that `Accept keep` does not keep. -/
def rejects (keep : Nat) (row : Int) : Bool := row < 0 || row ≥ keep

/-- `a` is in a range of a row that is not kept. -/
def Rejected (ranges : List StateRange) (keep : Nat) (a : Nat) : Prop :=
  ∃ r ∈ ranges, rejects keep r.row = true ∧ Inside a r.address r.bytes

instance (ranges : List StateRange) (keep a : Nat) : Decidable (Rejected ranges keep a) :=
  inferInstanceAs (Decidable (∃ r ∈ ranges, _))

/-- What a turn makes of the memory. A verify's kept rows: its own work, less what it wrote for
    the others, and then the model's commit. -/
def Turn.apply (x : Setup B) (t : Turn B) (m : Bytemap B) : Bytemap B :=
  match t with
  | .plain work => work.run m
  | .kept work ranges keep =>
    let left : Bytemap B := fun a => if Rejected ranges keep a then m a else work.run m a
    match x.commit with
    | some commit => (commit keep).run left
    | none => left

/-- The turns (newest first) applied to `origin`. -/
def produced (x : Setup B) (origin : Bytemap B) (turns : List (Turn B)) : Bytemap B :=
  turns.foldr (Turn.apply x) origin

/-- `m` with what is owed applied: the restores, then the commit. -/
def owedBytes (x : Setup B) (l : LiveState) (m : Bytemap B) : Bytemap B :=
  match x.commit with
  | some commit =>
    if l.commitKeep ≠ 0 then (commit l.commitKeep).run (m.copyAll l.restore)
    else m.copyAll l.restore
  | none => m.copyAll l.restore

/-! ## Runs -/

/-- A call on the runner, with everything it meets outside the state. -/
inductive Call (B : Type) where
  | chunk (c : Chunk B) (a : ChunkAnswers B)
  | accept (keep : Nat)
  | rollback (p : Posting) (a : LiveState.OwedAnswers B)
  | clear (p : Posting) (fills : Nat → Option (Work B))

def lastSaved : List Queued → Nat
  | [] => 0
  | .saved _ :: rest => rest.length + 1
  | _ :: rest => lastSaved rest

/-- The state and the device, with what the state should hold, the verify that awaits its
    `Accept`, and the saves that the owed restores were made from. -/
structure World (B : Type) where
  live : LiveState
  device : Device B
  origin : Bytemap B
  turns : List (Turn B) := []
  verified : Option (Work B × List StateRange) := none
  owedBy : Nat := 0

/-- The world after a call that left the state at `l` and the device at `d`. -/
def World.after (w : World B) (call : Call B) (answer : Status) (l : LiveState) (d : Device B)
    (zero : B) : World B :=
  match call, answer with
  | .chunk c _, .ok _ =>
    match c.verify with
    | some (_, ranges) => { w with live := l, device := d, verified := some (c.work, ranges) }
    | none => { w with live := l, device := d, turns := .plain c.work :: w.turns }
  | .chunk c _, .error _ =>
    { w with
      live := l, device := d
      owedBy := if c.verify.isSome ∧ lastSaved d.log ≠ lastSaved w.device.log then
        lastSaved d.log else w.owedBy }
  | .accept keep, .ok _ =>
    match w.verified with
    | some (work, ranges) =>
      { w with
        live := l, device := d, turns := .kept work ranges keep :: w.turns, verified := none
        owedBy := lastSaved d.log }
    | none => { w with live := l, device := d }
  | .clear .., .ok _ =>
    { w with live := l, device := d, origin := fun _ => zero, turns := [], verified := none }
  | _, _ => { w with live := l, device := d }

def Call.run (x : Setup B) (call : Call B) (l : LiveState) (d : Device B) :
    Status × LiveState × Device B :=
  match call with
  | .chunk c a => Engine.chunk x c a l d
  | .accept keep => ((l.accept x keep).1, (l.accept x keep).2, d)
  | .rollback p a => l.rollback x p a d
  | .clear p fills => l.clear x p fills d

def World.call (x : Setup B) (w : World B) (call : Call B) : Status × World B :=
  let r := call.run x w.live w.device
  (r.1, w.after call r.1 r.2.1 r.2.2 x.zero)

/-! ## What the calls rely on -/

/-- The memory the state rests on: regions and snapshot are apart, in 64-bit addresses (none in
    the first or the last page), and a commit's effect on the state depends on the state and on
    `reads`, the working memory that the verify left it. -/
structure Setup.Sane (x : Setup B) (reads : Nat → Prop) : Prop where
  apart : ∀ a, x.State a → ¬ x.Snapshot a
  mapped : ∀ a, x.State a ∨ x.Snapshot a → 4096 ≤ a ∧ a + 4096 < 2 ^ 64
  base : x.snapshotBase < 2 ^ 64
  commit : ∀ commit, x.commit = some commit → ∀ keep m m',
    AgreeOn (fun a => x.State a ∨ reads a) m m' →
      AgreeOn x.State ((commit keep).run m) ((commit keep).run m')

/-- Work that writes, of the state, only `ranges`, and nothing of the snapshot. -/
def Work.Within (x : Setup B) (ranges : List StateRange) (w : Work B) : Prop :=
  ∀ a, w.writes a = true →
    ¬ x.Snapshot a ∧ (x.State a → ∃ r ∈ ranges, Inside a r.address r.bytes)

/-- A verify whose writes stay inside its ranges, these being pairwise disjoint parts of the
    state, and whose results depend on the state alone. -/
structure Verify (x : Setup B) (reads : Nat → Prop) (work : Work B) (ranges : List StateRange) :
    Prop where
  state : ∀ r ∈ ranges, ∀ a, Inside a r.address r.bytes → x.State a
  apart : ranges.Pairwise fun r r' => Apart r.address r.bytes r'.address r'.bytes
  within : work.Within x ranges
  determined : ∀ m m', AgreeOn x.State m m' →
    AgreeOn (fun a => x.State a ∨ reads a) (work.run m) (work.run m')

/-- What a call brings: a chunk's work depends on the state alone, a verify is a `Verify` of at
    least one row, also where only a first part of it was queued. -/
def Call.Fits (x : Setup B) (reads : Nat → Prop) : Call B → Prop
  | .chunk c a =>
    match c.verify with
    | some (rows, ranges) =>
      0 < rows ∧ Verify x reads c.work ranges ∧
        ∀ e first, a.queue = .rejected e (some first) → first.Within x ranges
    | none => ∀ m m', AgreeOn x.State m m' → AgreeOn x.State (c.work.run m) (c.work.run m')
  | _ => True

/-- What a run from the memory `bytes` can reach. -/
inductive Reachable (x : Setup B) (reads : Nat → Prop) : World B → Prop where
  | initial (bytes : Bytemap B) (writer : Nat → Nat) :
      Reachable x reads { live := {}, device := ⟨bytes, writer, []⟩, origin := bytes }
  | call {w : World B} {c : Call B} (h : Reachable x reads w) (fits : c.Fits x reads) :
      Reachable x reads (w.call x c).2

/-! ## The saves -/

/-- A verify's saves as `Save` lays them out: each range's copy inside the snapshot's first
    `upto` bytes, apart from the others'. -/
structure Laid (x : Setup B) (saved : List Saved) (upto : Nat) : Prop where
  inside : ∀ s ∈ saved, x.snapshotBase ≤ s.saved ∧ s.saved + s.bytes ≤ x.snapshotBase + upto ∧
    s.saved + s.bytes ≤ x.snapshotBase + x.snapshotBytes
  apart : saved.Pairwise fun s s' => Apart s.saved s.bytes s'.saved s'.bytes

theorem round_256 {n : Nat} (h : n + 255 < 2 ^ 64) :
    n ≤ LiveState.round n 256 ∧ LiveState.round n 256 ≤ n + 255 := by
  unfold LiveState.round
  omega

theorem Setup.Sane.room (h : x.Sane reads) (hr : ∀ a, Inside a r.address r.bytes → x.State a) :
    r.bytes + x.snapshotBytes + 4096 ≤ 2 ^ 64 := by
  rcases Nat.eq_zero_or_pos r.bytes with hzero | hpos
  · rcases Nat.eq_zero_or_pos x.snapshotBytes with hnone | hsome
    · omega
    have := h.mapped (x.snapshotBase + (x.snapshotBytes - 1)) (Or.inr (Inside.add (by omega)))
    omega
  have hlast := h.mapped _ (Or.inl (hr _ (Inside.add (show r.bytes - 1 < r.bytes by omega))))
  rcases Nat.eq_zero_or_pos x.snapshotBytes with hnone | hsome
  · omega
  have hlast' := h.mapped (x.snapshotBase + (x.snapshotBytes - 1)) (Or.inr (Inside.add (by omega)))
  -- The later of the two starts would be a byte of both.
  by_contra hover
  have hboth : Inside (max r.address x.snapshotBase) r.address r.bytes ∧
      Inside (max r.address x.snapshotBase) x.snapshotBase x.snapshotBytes := by
    unfold Inside
    omega
  exact h.apart _ (hr _ hboth.1) hboth.2

/-- The saves queued so far are those of `ranges`, laid out. -/
structure Saves (x : Setup B) (l : LiveState) (ranges : List StateRange) : Prop where
  laid : Laid x l.saved l.saveAt
  upto : l.saveAt ≤ x.snapshotBytes + 255
  ranges : l.saved.map (fun s => ⟨s.address, s.bytes, s.row⟩) = ranges
  save : l.save = l.saved.map fun s => ⟨s.address, s.saved, s.bytes⟩

/-- `BeginSaves`, `Save` and a job before its end change the saves alone. -/
structure SameOwed (l l' : LiveState) : Prop where
  quarantined : l'.quarantined = l.quarantined
  restore : l'.restore = l.restore
  commitKeep : l'.commitKeep = l.commitKeep
  verifyRows : l'.verifyRows = l.verifyRows

theorem SameOwed.refl (l : LiveState) : SameOwed l l := ⟨rfl, rfl, rfl, rfl⟩

theorem SameOwed.trans {l l' l'' : LiveState} (h : SameOwed l l') (h' : SameOwed l' l'') :
    SameOwed l l'' :=
  ⟨h'.quarantined.trans h.quarantined, h'.restore.trans h.restore,
    h'.commitKeep.trans h.commitKeep, h'.verifyRows.trans h.verifyRows⟩

theorem saveRange_same (r : StateRange) : SameOwed l (l.saveRange x r).2 := by
  unfold LiveState.saveRange
  split
  · exact .refl l
  · exact ⟨rfl, rfl, rfl, rfl⟩

theorem saveRanges_same (ranges : List StateRange) :
    ∀ l : LiveState, SameOwed l (l.saveRanges x ranges).2 := by
  induction ranges with
  | nil => exact fun l => .refl l
  | cons r rest ih =>
    intro l
    have hfirst : SameOwed l (l.saveRange x r).2 := saveRange_same r
    unfold LiveState.saveRanges
    split
    next hsave =>
      rwa [hsave] at hfirst
    rename_i l' hsave
    rw [hsave] at hfirst
    exact hfirst.trans (ih l')

theorem saveRange_saves (h : x.Sane reads) {ranges : List StateRange}
    (hl : Saves x l ranges) (hr : ∀ a, Inside a r.address r.bytes → x.State a)
    (hsave : l.saveRange x r = (.ok u, l')) : Saves x l' (ranges ++ [r]) := by
  have hroom := h.room hr
  have hupto := hl.upto
  unfold LiveState.saveRange at hsave
  split at hsave
  · cases hsave
  rename_i hfits
  cases hsave
  obtain ⟨-, hfits⟩ := not_or.mp hfits
  have hround := round_256 (show r.bytes + 255 < 2 ^ 64 by omega)
  have hbase : x.snapshotBase + l.saveAt < 2 ^ 64 := by
    rcases Nat.eq_zero_or_pos x.snapshotBytes with hnone | hsome
    · have := h.base
      omega
    have := h.mapped (x.snapshotBase + (x.snapshotBytes - 1)) (Or.inr (Inside.add (by omega)))
    omega
  have hat : (l.saveAt + LiveState.round r.bytes 256) % 2 ^ 64 =
      l.saveAt + LiveState.round r.bytes 256 := Nat.mod_eq_of_lt (by omega)
  refine ⟨⟨?_, ?_⟩, by simp only [hat]; omega, ?_, ?_⟩
  · intro s hs
    simp only [hat]
    rcases List.mem_append.mp hs with hold | hnew
    · have := hl.laid.inside s hold
      omega
    cases List.mem_singleton.mp hnew
    dsimp only
    omega
  · refine List.pairwise_append.mpr ⟨hl.laid.apart, pairwise_singleton .., ?_⟩
    intro s hs s' hs' a hin hin'
    cases List.mem_singleton.mp hs'
    -- Every earlier copy ends where the new one begins, at the latest.
    have := (hl.laid.inside s hs).2.1
    unfold Inside at hin hin'
    dsimp only at hin'
    omega
  · simp only [map_append, hl.ranges, map_cons, map_nil]
  · simp only [map_append, hl.save, map_cons, map_nil]

theorem saveRanges_saves (h : x.Sane reads) {rest : List StateRange} :
    ∀ {l l' : LiveState} {ranges : List StateRange} {u : Unit}, Saves x l ranges →
      (∀ r ∈ rest, ∀ a, Inside a r.address r.bytes → x.State a) →
      l.saveRanges x rest = (.ok u, l') → Saves x l' (ranges ++ rest) := by
  induction rest with
  | nil =>
    intro l l' ranges u hl _ hsave
    cases hsave
    rwa [append_nil]
  | cons r rest ih =>
    intro l l' ranges u hl hr hsave
    unfold LiveState.saveRanges at hsave
    split at hsave
    · cases hsave
    rename_i l1 hfirst
    have hl1 := saveRange_saves h hl (hr r mem_cons_self) hfirst
    have := ih hl1 (fun r' hr' => hr r' (mem_cons_of_mem _ hr')) hsave
    rwa [append_assoc, singleton_append] at this

theorem beginSaves_saves : Saves x l.beginSaves [] :=
  ⟨⟨fun _ hs => (not_mem_nil hs).elim, List.Pairwise.nil⟩, Nat.zero_le _, rfl, rfl⟩

/-! ## The restores -/

theorem mem_restoresOf {p : Saved → Bool} {c : RangeCopy} : c ∈ LiveState.restoresOf saved p ↔
      ∃ s ∈ saved, p s = true ∧ (⟨s.saved, s.address, s.bytes⟩ : RangeCopy) = c := by
  simp only [LiveState.restoresOf, mem_map, mem_filter, and_assoc]

theorem Saves.address {ranges : List StateRange} {work : Work B} (hl : Saves x l ranges)
    (v : Verify x reads work ranges) :
    (∀ s ∈ l.saved, ∀ a, Inside a s.address s.bytes → x.State a) ∧
      l.saved.Pairwise fun s s' => Apart s.address s.bytes s'.address s'.bytes := by
  refine ⟨fun s hs a ha => ?_, ?_⟩
  · have hmem : (⟨s.address, s.bytes, s.row⟩ : StateRange) ∈ ranges := by
      rw [← hl.ranges]
      exact mem_map_of_mem hs
    exact v.state _ hmem a ha
  have hapart := v.apart
  rw [← hl.ranges, pairwise_map] at hapart
  exact hapart

theorem Laid.snapshot {upto : Nat} (h : Laid x saved upto) {s : Saved}
    (hs : s ∈ saved) {a : Nat} (ha : Inside a s.saved s.bytes) : x.Snapshot a := by
  have := h.inside s hs
  unfold Setup.Snapshot Inside at *
  omega

theorem Saves.separate {ranges : List StateRange} {work : Work B} (h : x.Sane reads)
    (hl : Saves x l ranges) (v : Verify x reads work ranges) (p : Saved → Bool) :
    Bytemap.Separate (LiveState.restoresOf l.saved p) := by
  obtain ⟨hstate, hapart⟩ := hl.address v
  refine ⟨?_, ?_⟩
  · rw [LiveState.restoresOf, pairwise_map]
    exact hapart.sublist (filter_sublist ..)
  intro c hc c' hc' a ha ha'
  obtain ⟨s, hs, -, rfl⟩ := mem_restoresOf.mp hc
  obtain ⟨s', hs', -, rfl⟩ := mem_restoresOf.mp hc'
  exact h.apart a (hstate s' hs' a ha') (hl.laid.snapshot hs ha)

theorem Saves.separateSaves {ranges : List StateRange} {work : Work B} (h : x.Sane reads)
    (hl : Saves x l ranges) (v : Verify x reads work ranges) : Bytemap.Separate l.save := by
  obtain ⟨hstate, -⟩ := hl.address v
  rw [hl.save]
  refine ⟨?_, ?_⟩
  · rw [pairwise_map]
    exact hl.laid.apart
  intro c hc c' hc' a ha ha'
  obtain ⟨s, hs, rfl⟩ := List.mem_map.mp hc
  obtain ⟨s', hs', rfl⟩ := List.mem_map.mp hc'
  exact h.apart a (hstate s hs a ha) (hl.laid.snapshot hs' ha')

/-! ## `QueueOwed` -/

theorem copyRanges_ok {ranges : List RangeCopy}
    (h : copyRanges launch what ranges d = (.ok u, d')) :
    (ranges = [] ∧ d' = d) ∨ (ranges ≠ [] ∧ d' = d.queue what (.copies ranges)) := by
  unfold copyRanges at h
  split at h
  next hnone =>
    cases h
    exact Or.inl ⟨List.length_eq_zero_iff.mp hnone, rfl⟩
  rename_i hsome
  refine Or.inr ⟨fun hnil => hsome (List.length_eq_zero_iff.mpr hnil), ?_⟩
  split at h
  · cases h
  split at h
  · cases h
  cases launch with
  | queued => cases h; rfl
  | rejected | unknown => cases h

theorem run_error {w : Work B} (h : launch.run what w d = (.error e, d')) :
    d' = d ∨ ∃ left, d' = d.queue .unknown left := by
  cases launch with
  | queued => cases h
  | rejected => cases h; exact Or.inl rfl
  | unknown detail left => cases h; exact Or.inr ⟨left, rfl⟩

theorem copyRanges_error {ranges : List RangeCopy}
    (h : copyRanges launch what ranges d = (.error e, d')) :
    d' = d ∨ ∃ left, d' = d.queue .unknown left := by
  unfold copyRanges at h
  split at h
  · cases h
  split at h
  · cases h; exact Or.inl rfl
  split at h
  · cases h; exact Or.inl rfl
  · exact run_error h

/-- What `QueueOwed` can do: each part that is no longer owed was queued, and nothing else was,
    but for a launch of unknown effect. -/
structure Paid (l : LiveState) (d : Device B) (l' : LiveState) (d' : Device B)
    (notes : List Queued) : Prop where
  log : d'.log = notes ++ d.log
  only : ∀ q ∈ notes, q = .restored l.restore ∨ q = .committed l.commitKeep ∨ q = .unknown
  restore : l'.restore = l.restore ∨ .restored l.restore ∈ notes
  commit : l'.commitKeep = l.commitKeep ∨ .committed l.commitKeep ∈ notes
  rest : l' = { l with restore := l'.restore, commitKeep := l'.commitKeep }

def Commits (x : Setup B) (l : LiveState) : Prop := x.commit = none → l.commitKeep = 0

theorem queueCommit_ok (hkeep : Commits x l) (h : l.queueCommit x launch d = (.ok u, l', d')) :
    l' = { l with commitKeep := 0 } ∧
      ((l.commitKeep = 0 ∧ d' = d) ∨ ∃ commit, x.commit = some commit ∧ l.commitKeep ≠ 0 ∧
        d' = d.queue (.committed l.commitKeep) (commit l.commitKeep)) := by
  unfold LiveState.queueCommit at h
  split at h
  next commit hcom =>
    split at h
    next howed =>
      cases launch with
      | queued => cases h; exact ⟨rfl, Or.inr ⟨commit, hcom, howed, rfl⟩⟩
      | rejected | unknown => cases h
    rename_i hnone
    cases h
    have hzero : l.commitKeep = 0 := not_not.mp hnone
    refine ⟨?_, Or.inl ⟨hzero, rfl⟩⟩
    rw [← hzero]
  rename_i hcom
  cases h
  have hzero : l.commitKeep = 0 := hkeep hcom
  refine ⟨?_, Or.inl ⟨hzero, rfl⟩⟩
  rw [← hzero]

theorem queueCommit_error (h : l.queueCommit x launch d = (.error e, l', d')) :
    l' = l ∧ (d' = d ∨ ∃ left, d' = d.queue .unknown left) := by
  unfold LiveState.queueCommit at h
  split at h
  · split at h
    · split at h
      next hrun =>
        cases h
        exact ⟨rfl, run_error hrun⟩
      · cases h
    · cases h
  · cases h

theorem queueOwed_ok (hkeep : Commits x l) {a : LiveState.OwedAnswers B}
    (h : l.queueOwed x a d = (.ok u, l', d')) :
    l' = { l with restore := [], commitKeep := 0 } ∧ d'.bytes = owedBytes x l d.bytes ∧
      ∃ notes, Paid l d l' d' notes ∧ .unknown ∉ notes := by
  have hbytes : ∀ {d1 d2 : Device B}, d1.bytes = d.bytes.copyAll l.restore →
      ((l.commitKeep = 0 ∧ d2 = d1) ∨ ∃ commit, x.commit = some commit ∧ l.commitKeep ≠ 0 ∧
        d2 = d1.queue (.committed l.commitKeep) (commit l.commitKeep)) →
      d2.bytes = owedBytes x l d.bytes := by
    rintro d1 d2 hd (⟨hzero, rfl⟩ | ⟨commit, hcom, hne, rfl⟩)
    · unfold owedBytes
      rw [hd]
      split
      · rw [if_neg (not_not.mpr hzero)]
      · rfl
    · simp only [owedBytes, hcom, if_pos hne, Device.queue, hd]
  unfold LiveState.queueOwed at h
  split at h
  next hsome =>
    split at h
    · cases h
    rename_i d1 hcopy
    rcases copyRanges_ok hcopy with ⟨hnil, -⟩ | ⟨-, rfl⟩
    · exact absurd (List.length_eq_zero_iff.mpr hnil) hsome
    have hkeep' : Commits x { l with restore := [] } := hkeep
    obtain ⟨rfl, hd⟩ := queueCommit_ok hkeep' h
    refine ⟨rfl, hbytes rfl hd, ?_⟩
    rcases hd with ⟨hzero, rfl⟩ | ⟨commit, hcom, hne, rfl⟩
    · exact ⟨[.restored l.restore], ⟨rfl, by simp, Or.inr (by simp), Or.inl hzero.symm, rfl⟩,
        by simp⟩
    exact ⟨[.committed l.commitKeep, .restored l.restore],
      ⟨rfl, by simp, Or.inr (by simp), Or.inr (by simp), rfl⟩, by simp⟩
  rename_i hnone
  have hnil : l.restore = [] := List.length_eq_zero_iff.mp (not_not.mp hnone)
  obtain ⟨rfl, hd⟩ := queueCommit_ok hkeep h
  refine ⟨by rw [hnil], hbytes (by rw [hnil]; rfl) hd, ?_⟩
  rcases hd with ⟨hzero, rfl⟩ | ⟨commit, hcom, hne, rfl⟩
  · exact ⟨[], ⟨rfl, by simp, Or.inl rfl, Or.inl hzero.symm, rfl⟩, by simp⟩
  exact ⟨[.committed l.commitKeep], ⟨rfl, by simp, Or.inl rfl, Or.inr (by simp), rfl⟩, by simp⟩

theorem queueOwed_error {a : LiveState.OwedAnswers B} (h : l.queueOwed x a d = (.error e, l', d')) :
    l'.commitKeep = l.commitKeep ∧ ∃ notes, Paid l d l' d' notes := by
  unfold LiveState.queueOwed at h
  split at h
  · split at h
    next hcopy =>
      cases h
      rcases copyRanges_error hcopy with rfl | ⟨left, rfl⟩
      · exact ⟨rfl, [], rfl, by simp, Or.inl rfl, Or.inl rfl, rfl⟩
      · exact ⟨rfl, [.unknown], rfl, by simp, Or.inl rfl, Or.inl rfl, rfl⟩
    rename_i hsome _ _ d1 hcopy
    rcases copyRanges_ok hcopy with ⟨hnil, -⟩ | ⟨-, rfl⟩
    · exact absurd (List.length_eq_zero_iff.mpr hnil) hsome
    obtain ⟨rfl, rfl | ⟨left, rfl⟩⟩ := queueCommit_error h
    · exact ⟨rfl, [.restored l.restore], rfl, by simp, Or.inr (by simp), Or.inl rfl, rfl⟩
    exact ⟨rfl, [.unknown, .restored l.restore], rfl, by simp, Or.inr (by simp), Or.inl rfl, rfl⟩
  obtain ⟨rfl, rfl | ⟨left, rfl⟩⟩ := queueCommit_error h
  · exact ⟨rfl, [], rfl, by simp, Or.inl rfl, Or.inl rfl, rfl⟩
  · exact ⟨rfl, [.unknown], rfl, by simp, Or.inl rfl, Or.inl rfl, rfl⟩

/-! ## A chunk's job -/

/-- No verify awaits and the state is not quarantined: what is owed gives `P`, and every restore
    is from the saves it was made of. -/
structure Quiet (x : Setup B) (l : LiveState) (d : Device B) (P : Bytemap B) (owedBy : Nat) :
    Prop where
  bytes : AgreeOn x.State (owedBytes x l d.bytes) P
  writer : ∀ c ∈ l.restore, ∀ i < c.bytes, d.writer (c.source + i) = owedBy

/-- A verify of `ranges` whose saves were queued, and then at most its own work: what it wrote
    can be undone to `P`. -/
structure Undoable (x : Setup B) (l : LiveState) (d : Device B) (P : Bytemap B)
    (ranges : List StateRange) : Prop where
  restore : l.restore = []
  commitKeep : l.commitKeep = 0
  outside : ∀ a, x.State a → (∀ r ∈ ranges, ¬ Inside a r.address r.bytes) → d.bytes a = P a
  snapshot : ∀ s ∈ l.saved, ∀ i < s.bytes,
    d.bytes (s.saved + i) = P (s.address + i) ∧ d.writer (s.saved + i) = lastSaved d.log

/-- The verify ran whole and awaits its `Accept`. -/
structure Awaits (x : Setup B) (reads : Nat → Prop) (l : LiveState) (d : Device B)
    (P : Bytemap B) (work : Work B) (ranges : List StateRange) : Prop where
  undoable : Undoable x l d P ranges
  saves : Saves x l ranges
  verify : Verify x reads work ranges
  now : AgreeOn (fun a => x.State a ∨ reads a) d.bytes (work.run P)

theorem owedBytes_none (hres : l.restore = []) (hkeep : l.commitKeep = 0) (m : Bytemap B) :
    owedBytes x l m = m := by
  unfold owedBytes
  rw [hres]
  split
  · rw [if_neg (not_not.mpr hkeep)]
    rfl
  · rfl

theorem Quiet.same (h : Quiet x l d P owedBy) (hsame : SameOwed l l') : Quiet x l' d P owedBy := by
  refine ⟨?_, ?_⟩
  · have : owedBytes x l' d.bytes = owedBytes x l d.bytes := by
      unfold owedBytes
      rw [hsame.restore, hsame.commitKeep]
    rw [this]
    exact h.bytes
  rw [hsame.restore]
  exact h.writer

theorem Undoable.undone {work : Work B} {ranges : List StateRange} (hx : x.Sane reads)
    (h : Undoable x l d P ranges) (hl : Saves x l ranges) (v : Verify x reads work ranges) :
    Quiet x (l.settle true wrote false) d P (lastSaved d.log) := by
  have hsep := hl.separate hx v fun _ => true
  refine ⟨?_, ?_⟩
  · intro a ha
    have howed : owedBytes x (l.settle true wrote false) d.bytes =
        d.bytes.copyAll (LiveState.restoresOf l.saved fun _ => true) := by
      unfold owedBytes
      split <;> rfl
    rw [howed]
    by_cases hin : ∃ s ∈ l.saved, Inside a s.address s.bytes
    · obtain ⟨s, hs, hin⟩ := hin
      have hc : (⟨s.saved, s.address, s.bytes⟩ : RangeCopy) ∈
          LiveState.restoresOf l.saved fun _ => true := mem_restoresOf.mpr ⟨s, hs, rfl, rfl⟩
      obtain ⟨i, rfl⟩ := Nat.exists_eq_add_of_le hin.1
      have hi : i < s.bytes := by
        have := hin.2
        omega
      exact (Bytemap.copyAll_inside hc hi hsep).trans (h.snapshot s hs i hi).1
    have hout : ∀ c ∈ LiveState.restoresOf l.saved fun _ => true, ¬ Inside a c.target c.bytes := by
      intro c hc hin'
      obtain ⟨s, hs, -, rfl⟩ := mem_restoresOf.mp hc
      exact hin ⟨s, hs, hin'⟩
    rw [Bytemap.copyAll_outside hout]
    refine h.outside a ha fun r hr hin' => ?_
    rw [← hl.ranges] at hr
    obtain ⟨s, hs, rfl⟩ := List.mem_map.mp hr
    exact hin ⟨s, hs, hin'⟩
  intro c hc i hi
  obtain ⟨s, hs, -, rfl⟩ := mem_restoresOf.mp hc
  exact (h.snapshot s hs i hi).2

theorem Awaits.accepted {work : Work B} {ranges : List StateRange} {keep : Nat}
    (hx : x.Sane reads) (h : Awaits x reads l d P work ranges) (hkeep : keep ≠ 0)
    (hres : l'.restore = LiveState.restoresOf l.saved fun s => rejects keep s.row)
    (hcom : l'.commitKeep = if x.commit.isSome then keep else 0) :
    Quiet x l' d (Turn.apply x (.kept work ranges keep) P) (lastSaved d.log) := by
  have hsep := h.saves.separate hx h.verify fun s => rejects keep s.row
  have hleft : AgreeOn (fun a => x.State a ∨ reads a) (d.bytes.copyAll l'.restore)
      (fun a => if Rejected ranges keep a then P a else work.run P a) := by
    intro a ha
    rw [hres]
    by_cases hin : Rejected ranges keep a
    · simp only [if_pos hin]
      obtain ⟨r, hr, hrow, hin⟩ := hin
      rw [← h.saves.ranges] at hr
      obtain ⟨s, hs, rfl⟩ := List.mem_map.mp hr
      have hc : (⟨s.saved, s.address, s.bytes⟩ : RangeCopy) ∈
          LiveState.restoresOf l.saved fun s => rejects keep s.row :=
        mem_restoresOf.mpr ⟨s, hs, hrow, rfl⟩
      obtain ⟨i, rfl⟩ := Nat.exists_eq_add_of_le hin.1
      have hi : i < s.bytes := by
        have : s.address + i < s.address + s.bytes := hin.2
        omega
      exact (Bytemap.copyAll_inside hc hi hsep).trans (h.undoable.snapshot s hs i hi).1
    simp only [if_neg hin]
    refine (Bytemap.copyAll_outside ?_).trans (h.now a ha)
    intro c hc hin'
    obtain ⟨s, hs, hrow, rfl⟩ := mem_restoresOf.mp hc
    refine hin ⟨⟨s.address, s.bytes, s.row⟩, ?_, hrow, hin'⟩
    rw [← h.saves.ranges]
    exact mem_map_of_mem hs
  refine ⟨?_, ?_⟩
  · unfold owedBytes Turn.apply
    rcases hc : x.commit with _ | commit
    · exact fun a ha => hleft a (Or.inl ha)
    rw [hc] at hcom
    have hk : l'.commitKeep = keep := hcom
    simp only [hk, if_pos hkeep]
    exact hx.commit commit hc keep _ _ hleft
  intro c hc i hi
  rw [hres] at hc
  obtain ⟨s, hs, -, rfl⟩ := mem_restoresOf.mp hc
  exact (h.undoable.snapshot s hs i hi).2

/-- What a call queued, and what became of what was owed: a part no longer owed was queued,
    and no other restores were. -/
structure Kept (l : LiveState) (d : Device B) (l' : LiveState) (d' : Device B)
    (notes : List Queued) : Prop where
  log : d'.log = notes ++ d.log
  restored : ∀ cs, .restored cs ∈ notes → cs = l.restore
  restore : l.restore ≠ [] → l'.restore = l.restore ∨ .restored l.restore ∈ notes
  commit : l.commitKeep ≠ 0 → l'.commitKeep = l.commitKeep ∨ .committed l.commitKeep ∈ notes

theorem Kept.refl (l : LiveState) (d : Device B) : Kept l d l d [] :=
  ⟨rfl, fun _ h => (not_mem_nil h).elim, fun _ => Or.inl rfl, fun _ => Or.inl rfl⟩

theorem Kept.same {l0 l' : LiveState} {notes : List Queued}
    (h : Kept l d l' d' notes) (hsame : SameOwed l0 l) : Kept l0 d l' d' notes := by
  obtain ⟨hlog, hres, hrest, hcom⟩ := h
  rw [hsame.restore] at hres hrest
  rw [hsame.commitKeep] at hcom
  exact ⟨hlog, hres, hrest, hcom⟩

theorem Paid.kept {notes : List Queued} (h : Paid l d l' d' notes) : Kept l d l' d' notes := by
  refine ⟨h.log, fun cs hcs => ?_, fun _ => h.restore, fun _ => h.commit⟩
  rcases h.only _ hcs with heq | heq | heq
  · cases heq
    rfl
  · cases heq
  · cases heq

theorem Paid.more {l' l'' : LiveState} {d' d'' : Device B} {notes more : List Queued}
    (h : Paid l d l' d' notes) (hnone : l'.restore = [] ∧ l'.commitKeep = 0)
    (hlog : d''.log = more ++ d'.log) (hmore : ∀ cs, .restored cs ∉ more) :
    Kept l d l'' d'' (more ++ notes) := by
  refine ⟨by rw [hlog, h.log, append_assoc], fun cs hcs => ?_, fun hne => ?_, fun hne => ?_⟩
  · rcases List.mem_append.mp hcs with hnew | hold
    · exact absurd hnew (hmore cs)
    · exact h.kept.restored cs hold
  · rcases h.restore with heq | hmem
    · exact absurd (heq.symm.trans hnone.1) hne
    · exact Or.inr (mem_append_right _ hmem)
  rcases h.commit with heq | hmem
  · exact absurd (heq.symm.trans hnone.2) hne
  · exact Or.inr (mem_append_right _ hmem)

/-- What `ownWork` can do. -/
inductive OwnWork (c : Chunk B) (a : ChunkAnswers B) (saved : Bool) (d : Device B) :
    JobResult × Ran × Device B → Prop where
  | nothing {result : JobResult} {e : String} (h : result ≠ .queued) :
      OwnWork c a saved d (result, { saved, ran := .error e }, d)
  | all : OwnWork c a saved d (.queued, { saved, wrote := true }, d.queue .work c.work)
  | part {e : String} {first : Work B} (h : a.queue = .rejected e (some first)) :
      OwnWork c a saved d
        (.failed, { saved, wrote := true, ran := .error e }, d.queue .work first)
  | unknown {e : String} {before : Bool} {left : Work B} :
      OwnWork c a saved d (.unknown, { saved, wrote := before, unknown := true, ran := .error e },
        d.queue .unknown left)

theorem ownWork_cases (c : Chunk B) (a : ChunkAnswers B) (before saved : Bool) (d : Device B) :
    OwnWork c a saved d (ownWork c a before saved d) := by
  have hstop : (if before then JobResult.failed else JobResult.notStarted) ≠ .queued := by
    split <;> simp
  unfold ownWork
  dsimp only
  split
  · exact .nothing hstop
  split
  · exact .all
  · exact .nothing hstop
  · exact .part ‹_›
  · exact .unknown

theorem lastSaved_cons {q : Queued} {log : List Queued} (h : ∀ cs, q ≠ .saved cs) :
    lastSaved (q :: log) = lastSaved log := by
  cases q with
  | saved cs => exact absurd rfl (h cs)
  | _ => rfl

theorem lastSaved_append {notes log : List Queued} (h : ∀ cs, .saved cs ∉ notes) :
    lastSaved (notes ++ log) = lastSaved log := by
  induction notes with
  | nil => rfl
  | cons q notes ih =>
    have hrest : ∀ cs, .saved cs ∉ notes := fun cs hcs => h cs (mem_cons_of_mem _ hcs)
    have hq : ∀ cs, q ≠ .saved cs := fun cs heq => h cs (heq ▸ mem_cons_self)
    rw [cons_append, lastSaved_cons hq, ih hrest]

theorem lastSaved_le (log : List Queued) : lastSaved log ≤ log.length := by
  induction log with
  | nil => exact Nat.le_refl _
  | cons q log ih =>
    cases q with
    | saved => exact Nat.le_refl _
    | _ => exact Nat.le_succ_of_le ih

/-- What any job of a chunk leaves, run or not, from a state that owes `P`. -/
structure JobLeaves (x : Setup B) (reads : Nat → Prop) (c : Chunk B) (P : Bytemap B)
    (owedBy : Nat) (l : LiveState) (d : Device B) (result : JobResult) (ran : Ran)
    (l' : LiveState) (d' : Device B) : Prop where
  rest : l' = { l with restore := l'.restore, commitKeep := l'.commitKeep }
  commits : Commits x l'
  notes : ∃ notes, Kept l d l' d' notes ∧ (.unknown ∈ notes → ran.unknown = true) ∧
    (.work ∈ notes → ran.unknown = true ∨ ran.wrote = true) ∧
    (ran.saved = true → l'.restore = [] ∧ l'.commitKeep = 0)
  plain : c.verify = none → ran.saved = false
  queued : result = .queued → ran.unknown = false ∧ l'.restore = [] ∧ l'.commitKeep = 0 ∧
    (c.verify = none → AgreeOn x.State d'.bytes (c.work.run P)) ∧
    ∀ rows ranges, c.verify = some (rows, ranges) → Awaits x reads l' d' P c.work ranges
  undo : ran.unknown = false → ran.saved = true → ∃ rows ranges, c.verify = some (rows, ranges) ∧
    Undoable x l' d' P ranges ∧ (l'.saved ≠ [] → lastSaved d'.log ≠ lastSaved d.log)
  quiet : ran.unknown = false → ran.saved = false → ran.wrote = false →
    Quiet x l' d' P owedBy ∧ lastSaved d'.log = lastSaved d.log

theorem queueSaves_undoable {work : Work B} {ranges : List StateRange}
    (hx : x.Sane reads) (hl : Saves x l ranges) (v : Verify x reads work ranges)
    (hnone : l.restore = [] ∧ l.commitKeep = 0) (hbytes : AgreeOn x.State d.bytes P)
    (h : l.queueSaves launch d = (.ok u, d')) :
    Undoable x l d' P ranges ∧ AgreeOn x.State d'.bytes P ∧
      ∃ more, d'.log = more ++ d.log ∧ (∀ q ∈ more, q = .saved l.save) ∧
        (l.saved ≠ [] → lastSaved d'.log ≠ lastSaved d.log) := by
  obtain ⟨hstate, -⟩ := hl.address v
  rcases copyRanges_ok h with ⟨hnil, rfl⟩ | ⟨hne, rfl⟩
  · have hsaved : l.saved = [] := by
      rw [hl.save] at hnil
      exact List.map_eq_nil_iff.mp hnil
    refine ⟨⟨hnone.1, hnone.2, fun a ha _ => hbytes a ha, ?_⟩, hbytes, [], rfl, by simp, by simp [hsaved]⟩
    rw [hsaved]
    exact fun s hs => (not_mem_nil hs).elim
  have hsep := hl.separateSaves hx v
  have hin : ∀ s ∈ l.saved, (⟨s.address, s.saved, s.bytes⟩ : RangeCopy) ∈ l.save := by
    intro s hs
    rw [hl.save]
    exact mem_map_of_mem hs
  have hkept : AgreeOn x.State (d.bytes.copyAll l.save) d.bytes := by
    intro a ha
    refine Bytemap.copyAll_outside fun c hc hin' => ?_
    rw [hl.save] at hc
    obtain ⟨s, hs, rfl⟩ := List.mem_map.mp hc
    exact hx.apart a ha (hl.laid.snapshot hs hin')
  have hnow : AgreeOn x.State (d.bytes.copyAll l.save) P := hkept.trans hbytes
  refine ⟨⟨hnone.1, hnone.2, fun a ha _ => hnow a ha, fun s hs i hi => ⟨?_, ?_⟩⟩, hnow,
    [.saved l.save], rfl, by simp, fun _ => ?_⟩
  · have hstate' := hstate s hs _ (Inside.add hi)
    exact (Bytemap.copyAll_inside (hin s hs) hi hsep).trans (hbytes _ hstate')
  · have hwrites : (Work.copies l.save : Work B).writes (s.saved + i) = true :=
      List.any_eq_true.mpr ⟨_, hin s hs, decide_eq_true (Inside.add hi)⟩
    simp only [Device.queue, if_pos hwrites, lastSaved]
  have := lastSaved_le d.log
  simp only [Device.queue, lastSaved]
  omega

theorem Undoable.work {ranges : List StateRange} {own : Work B}
    (h : Undoable x l d P ranges) (hl : Laid x l.saved l.saveAt) (hown : own.Within x ranges) :
    Undoable x l (d.queue .work own) P ranges := by
  refine ⟨h.restore, h.commitKeep, fun a ha hout => ?_, fun s hs i hi => ?_⟩
  · have hkeeps : own.writes a = false := by
      rw [← Bool.not_eq_true]
      intro hw
      obtain ⟨r, hr, hin⟩ := (hown a hw).2 ha
      exact hout r hr hin
    exact (own.frame _ a hkeeps).trans (h.outside a ha hout)
  have hkeeps : own.writes (s.saved + i) = false := by
    rw [← Bool.not_eq_true]
    exact fun hw => (hown _ hw).1 (hl.snapshot hs (Inside.add hi))
  obtain ⟨hbytes, hwriter⟩ := h.snapshot s hs i hi
  refine ⟨(own.frame _ _ hkeeps).trans hbytes, ?_⟩
  simp only [Device.queue, hkeeps, lastSaved]
  exact hwriter

theorem verifyJob_leaves {owedBy rows : Nat} {ranges : List StateRange} (hx : x.Sane reads)
    (hkeep : Commits x l) (hquiet : Quiet x l d P owedBy) (hl : Saves x l ranges)
    (hv : c.verify = some (rows, ranges)) (v : Verify x reads c.work ranges)
    (hfirst : ∀ e first, a.queue = .rejected e (some first) → first.Within x ranges)
    {d1 d2 : Device B} (howed : l.queueOwed x a.owed d = (.ok u, l1, d1))
    (hsaves : l1.queueSaves a.saves d1 = (.ok u, d2)) :
    JobLeaves x reads c P owedBy l d (ownWork c a true true d2).1 (ownWork c a true true d2).2.1
      l1 (ownWork c a true true d2).2.2 := by
  obtain ⟨rfl, hbytes, notes, hpaid, hknown⟩ := queueOwed_ok hkeep howed
  have hl1 : Saves x { l with restore := [], commitKeep := 0 } ranges :=
    ⟨hl.laid, hl.upto, hl.ranges, hl.save⟩
  have hbef : AgreeOn x.State d1.bytes P := by
    rw [hbytes]
    exact hquiet.bytes
  obtain ⟨hundo, hnow, more, hlog, hmore, hlast⟩ :=
    queueSaves_undoable hx hl1 v ⟨rfl, rfl⟩ hbef hsaves
  have hnos : ∀ cs, .saved cs ∉ notes := by
    intro cs hcs
    rcases hpaid.only _ hcs with heq | heq | heq <;> cases heq
  have hlast1 : lastSaved d1.log = lastSaved d.log := by
    rw [hpaid.log, lastSaved_append hnos]
  have hnotes : ∀ own : List Queued, (∀ cs, .restored cs ∉ own) → ∀ d' : Device B,
      d'.log = own ++ d2.log →
        Kept l d { l with restore := [], commitKeep := 0 } d' ((own ++ more) ++ notes) := by
    intro own hown d' hd'
    refine hpaid.more ⟨rfl, rfl⟩ (by rw [hd', hlog, append_assoc]) fun cs hcs => ?_
    rcases List.mem_append.mp hcs with hnew | hold
    · exact hown cs hnew
    · cases hmore _ hold
  have hunk : ∀ own : List Queued, .unknown ∉ own → .unknown ∉ (own ++ more) ++ notes := by
    intro own hown hmem
    rcases List.mem_append.mp hmem with hmem | hmem
    · rcases List.mem_append.mp hmem with hmem | hmem
      · exact hown hmem
      · cases hmore _ hmem
    · exact hknown hmem
  have hwork : .work ∉ ([] ++ more) ++ notes := by
    intro hmem
    rcases List.mem_append.mp hmem with hmem | hmem
    · cases hmore _ (by simpa using hmem)
    · rcases hpaid.only _ hmem with heq | heq | heq <;> cases heq
  have hown := ownWork_cases c a true true d2
  generalize ownWork c a true true d2 = r at hown ⊢
  cases hown with
  | nothing hres =>
    refine ⟨rfl, fun _ => rfl, ⟨_, hnotes [] (by simp) d2 rfl,
      fun hmem => absurd hmem (hunk [] (by simp)), fun hmem => absurd hmem hwork,
      fun _ => ⟨rfl, rfl⟩⟩, fun hnone => by simp [hv] at hnone, fun heq => absurd heq hres,
      fun _ _ => ⟨rows, ranges, hv, hundo, fun hne => ?_⟩, fun _ hsaved => by simp at hsaved⟩
    rw [← hlast1]
    exact hlast hne
  | all =>
    refine ⟨rfl, fun _ => rfl, ⟨_, hnotes [.work] (by simp) _ rfl,
      fun hmem => absurd hmem (hunk [.work] (by simp)), fun _ => Or.inr rfl,
      fun _ => ⟨rfl, rfl⟩⟩, fun hnone => by simp [hv] at hnone, fun _ => ⟨rfl, rfl, rfl, ?_, ?_⟩,
      fun _ _ => ⟨rows, ranges, hv, hundo.work hl1.laid v.within, fun hne => ?_⟩,
      fun _ hsaved => by simp at hsaved⟩
    · intro hnone
      simp [hv] at hnone
    · intro rows' ranges' hv'
      cases hv.symm.trans hv'
      exact ⟨hundo.work hl1.laid v.within, hl1, v, v.determined _ _ hnow⟩
    rw [← hlast1]
    exact hlast hne
  | part hqueue =>
    refine ⟨rfl, fun _ => rfl, ⟨_, hnotes [.work] (by simp) _ rfl,
      fun hmem => absurd hmem (hunk [.work] (by simp)), fun _ => Or.inr rfl,
      fun _ => ⟨rfl, rfl⟩⟩, fun hnone => by simp [hv] at hnone, nofun,
      fun _ _ => ⟨rows, ranges, hv, hundo.work hl1.laid (hfirst _ _ hqueue), fun hne => ?_⟩,
      fun _ hsaved => by simp at hsaved⟩
    rw [← hlast1]
    exact hlast hne
  | unknown =>
    exact ⟨rfl, fun _ => rfl, ⟨_, hnotes [.unknown] (by simp) _ rfl, fun _ => rfl,
      fun _ => Or.inl rfl, fun _ => ⟨rfl, rfl⟩⟩, fun hnone => by simp [hv] at hnone,
      nofun, nofun,
      nofun⟩

theorem plainJob_leaves {before : Bool} (hkeep : Commits x l) (hquiet : Quiet x l d P owedBy)
    (hv : c.verify = none)
    (hwork : ∀ m m', AgreeOn x.State m m' → AgreeOn x.State (c.work.run m) (c.work.run m'))
    {d1 : Device B} (howed : l.queueOwed x a.owed d = (.ok u, l1, d1)) :
    JobLeaves x reads c P owedBy l d (ownWork c a before false d1).1
      (ownWork c a before false d1).2.1 l1 (ownWork c a before false d1).2.2 := by
  obtain ⟨rfl, hbytes, notes, hpaid, hknown⟩ := queueOwed_ok hkeep howed
  have hnow : AgreeOn x.State d1.bytes P := by
    rw [hbytes]
    exact hquiet.bytes
  have hnos : ∀ cs, .saved cs ∉ notes := by
    intro cs hcs
    rcases hpaid.only _ hcs with heq | heq | heq <;> cases heq
  have hnowork : .work ∉ notes := by
    intro hmem
    rcases hpaid.only _ hmem with heq | heq | heq <;> cases heq
  have hnotes : ∀ q : Queued, (∀ cs, .restored cs ≠ q) → ∀ d' : Device B, d'.log = q :: d1.log →
      Kept l d { l with restore := [], commitKeep := 0 } d' ([q] ++ notes) := by
    intro q hq d' hd'
    refine hpaid.more ⟨rfl, rfl⟩ hd' fun cs hcs => ?_
    exact hq cs (List.mem_singleton.mp hcs)
  have hver : ∀ rows ranges, c.verify = some (rows, ranges) →
      Awaits x reads { l with restore := [], commitKeep := 0 } (d1.queue .work c.work) P c.work
        ranges := by
    intro rows ranges heq
    cases hv.symm.trans heq
  have hown := ownWork_cases c a before false d1
  generalize ownWork c a before false d1 = r at hown ⊢
  cases hown with
  | nothing hres =>
    refine ⟨rfl, fun _ => rfl, ⟨notes, hpaid.kept, fun hmem => absurd hmem hknown,
      fun hmem => absurd hmem hnowork, nofun⟩, fun _ => rfl,
      fun heq => absurd heq hres, nofun, fun _ _ _ => ⟨⟨?_, ?_⟩, ?_⟩⟩
    · rw [owedBytes_none rfl rfl]
      exact hnow
    · exact fun c' hc' => (not_mem_nil hc').elim
    · rw [hpaid.log, lastSaved_append hnos]
  | all =>
    refine ⟨rfl, fun _ => rfl, ⟨_, hnotes .work (by simp) _ rfl, fun hmem => ?_,
      fun _ => Or.inr rfl, nofun⟩, fun _ => rfl,
      fun _ => ⟨rfl, rfl, rfl, fun _ => hwork _ _ hnow, hver⟩, nofun,
      nofun⟩
    exact absurd hmem (by simpa using hknown)
  | part =>
    refine ⟨rfl, fun _ => rfl, ⟨_, hnotes .work (by simp) _ rfl, fun hmem => ?_,
      fun _ => Or.inr rfl, nofun⟩, fun _ => rfl, nofun,
      nofun, nofun⟩
    exact absurd hmem (by simpa using hknown)
  | unknown =>
    exact ⟨rfl, fun _ => rfl, ⟨_, hnotes .unknown (by simp) _ rfl, fun _ => rfl,
      fun _ => Or.inl rfl, nofun⟩, fun _ => rfl, nofun,
      nofun, nofun⟩

/-- A chunk as its job meets it: a verify's ranges are saved, and its call fits. -/
structure Planned (x : Setup B) (reads : Nat → Prop) (c : Chunk B) (a : ChunkAnswers B)
    (l : LiveState) : Prop where
  plain : c.verify = none →
    ∀ m m', AgreeOn x.State m m' → AgreeOn x.State (c.work.run m) (c.work.run m')
  verify : ∀ rows ranges, c.verify = some (rows, ranges) → 0 < rows ∧ Saves x l ranges ∧
    Verify x reads c.work ranges ∧
      ∀ e first, a.queue = .rejected e (some first) → first.Within x ranges

theorem jobLeaves_unknown {notes : List Queued} (hkept : Kept l d l' d' notes)
    (hkeep : Commits x l')
    (hrest : l' = { l with restore := l'.restore, commitKeep := l'.commitKeep }) :
    JobLeaves x reads c P owedBy l d .unknown { unknown := true, ran := .error e } l' d' :=
  ⟨hrest, hkeep, ⟨notes, hkept, fun _ => rfl, fun _ => Or.inl rfl, nofun⟩,
    fun _ => rfl, nofun, nofun, nofun⟩

theorem chunkJob_leaves (hx : x.Sane reads) (hkeep : Commits x l) (hquiet : Quiet x l d P owedBy)
    (hc : Planned x reads c a l) :
    JobLeaves x reads c P owedBy l d (chunkJob x c a l d).1 (chunkJob x c a l d).2.1
      (chunkJob x c a l d).2.2.1 (chunkJob x c a l d).2.2.2 := by
  unfold chunkJob
  split
  next l1 d1 howed =>
    obtain ⟨hcom, notes, hpaid⟩ := queueOwed_error howed
    exact jobLeaves_unknown hpaid.kept (fun hnone => hcom.trans (hkeep hnone)) hpaid.rest
  rename_i l1 d1 howed
  cases hv : c.verify with
  | some v =>
    obtain ⟨rows, ranges⟩ := v
    obtain ⟨-, hl, v, hfirst⟩ := hc.verify rows ranges hv
    simp only [Option.isSome_some, if_true]
    split
    next hsaves =>
      obtain ⟨rfl, -, notes, hpaid, -⟩ := queueOwed_ok hkeep howed
      rcases copyRanges_error hsaves with rfl | ⟨left, rfl⟩
      · exact jobLeaves_unknown hpaid.kept (fun _ => rfl) rfl
      exact jobLeaves_unknown (hpaid.more ⟨rfl, rfl⟩
        (show (d1.queue .unknown left).log = [.unknown] ++ d1.log from rfl) (by simp))
        (fun _ => rfl) rfl
    rename_i hsaves
    exact verifyJob_leaves hx hkeep hquiet hl hv v hfirst howed hsaves
  | none =>
    exact plainJob_leaves hkeep hquiet hv (hc.plain hv) howed

/-! ## The calls -/

/-- A world whose state is what it should be, unless it is quarantined. -/
structure Held (x : Setup B) (reads : Nat → Prop) (w : World B) : Prop where
  commits : Commits x w.live
  quiet : w.live.quarantined = false → w.live.verifyRows = 0 →
    Quiet x w.live w.device (produced x w.origin w.turns) w.owedBy
  awaits : w.live.quarantined = false → w.live.verifyRows ≠ 0 → ∃ work ranges,
    w.verified = some (work, ranges) ∧
      Awaits x reads w.live w.device (produced x w.origin w.turns) work ranges

/-- The call may have written the state with nothing to say so: a launch of unknown effect, or a
    plain chunk that failed with some of its own work queued. -/
def Unrecorded (call : Call B) (answer : Status) (notes : List Queued) : Prop :=
  .unknown ∈ notes ∨
    (.work ∈ notes ∧ (∃ e, answer = .error e) ∧ ∃ c a, call = .chunk c a ∧ c.verify = none)

structure Leads (x : Setup B) (reads : Nat → Prop) (w : World B) (call : Call B)
    (answer : Status) (w' : World B) : Prop where
  held : Held x reads w'
  notes : (∀ p fills, call ≠ .clear p fills) → ∃ notes,
    Kept w.live w.device w'.live w'.device notes ∧
      (Unrecorded call answer notes → w'.live.quarantined = true)

variable {w : World B}

theorem Held.refused {c : Call B} {answer : Status}
    (h : Held x reads w) (hsame : SameOwed w.live l')
    (hsaved : w.live.verifyRows ≠ 0 → l' = w.live) (howed : owedBy = w.owedBy) :
    Leads x reads w c answer { w with live := l', owedBy } := by
  subst howed
  refine ⟨⟨fun hnone => hsame.commitKeep.trans (h.commits hnone), fun hq hrows => ?_,
    fun hq hrows => ?_⟩, fun _ => ⟨[], ?_, ?_⟩⟩
  · rw [hsame.quarantined] at hq
    rw [hsame.verifyRows] at hrows
    exact (h.quiet hq hrows).same hsame
  · rw [hsame.quarantined] at hq
    rw [hsame.verifyRows] at hrows
    simp only [hsaved hrows]
    exact h.awaits hq hrows
  · exact ⟨rfl, fun _ hmem => (not_mem_nil hmem).elim, fun _ => Or.inl hsame.restore,
      fun _ => Or.inl hsame.commitKeep⟩
  · rintro (hmem | ⟨hmem, -⟩) <;> exact (not_mem_nil hmem).elim

/-- What `Settle` makes of the state after a failed job. -/
inductive Settling (l : LiveState) (ran : Ran) (unknown : Bool) : LiveState → Prop where
  | quarantined (h : unknown = true ∨ (ran.saved = false ∧ ran.wrote = true)) :
      Settling l ran unknown { l with verifyRows := 0, quarantined := true }
  | undone (hsaved : ran.saved = true) (hknown : unknown = false) :
      Settling l ran unknown (l.settle true ran.wrote false)
  | untouched (hknown : unknown = false) (hsaved : ran.saved = false) (hwrote : ran.wrote = false) :
      Settling l ran unknown { l with verifyRows := 0 }

theorem settle_cases (l : LiveState) (ran : Ran) (unknown : Bool) :
    Settling l ran unknown (l.settle ran.saved ran.wrote unknown) := by
  cases unknown with
  | true => exact .quarantined (Or.inl rfl)
  | false =>
    cases hsaved : ran.saved with
    | true => exact .undone hsaved rfl
    | false =>
      cases hwrote : ran.wrote with
      | true => exact .quarantined (Or.inr ⟨hsaved, hwrote⟩)
      | false => exact .untouched rfl hsaved hwrote

theorem posted_ok {what : String}
    (h : p.posted result what = .ok u) : p.runs = true ∧ result = .queued := by
  unfold Posting.posted at h
  split at h
  next hall =>
    exact ⟨hall.1, hall.2.1⟩
  · cases h

theorem JobLeaves.settled {l' l1 : LiveState} {ran : Ran} {faulted : Bool} (hx : x.Sane reads)
    (hc : Planned x reads c a l1) (hsame : SameOwed w.live l1)
    (h : JobLeaves x reads c (produced x w.origin w.turns) w.owedBy l1 w.device result ran l' d') :
    Leads x reads w (.chunk c a) (.error e)
      (w.after (.chunk c a) (.error e) (l'.settle ran.saved ran.wrote (ran.unknown || faulted)) d'
        x.zero) := by
  obtain ⟨notes, hkept, hunk, hwork, hsaved⟩ := h.notes
  have hfirst := hkept.same hsame
  have hset := settle_cases l' ran (ran.unknown || faulted)
  generalize l'.settle ran.saved ran.wrote (ran.unknown || faulted) = l'' at hset ⊢
  cases hset with
  | quarantined =>
    exact ⟨⟨h.commits, nofun, nofun⟩,
      fun _ => ⟨notes, ⟨hfirst.log, hfirst.restored, hfirst.restore, hfirst.commit⟩, fun _ => rfl⟩⟩
  | undone hwas hknown =>
    obtain ⟨hknown, -⟩ := Bool.or_eq_false_iff.mp hknown
    obtain ⟨rows, ranges, hv, hundo, hlast⟩ := h.undo hknown hwas
    obtain ⟨-, hl, v, -⟩ := hc.verify rows ranges hv
    have hl' : Saves x l' ranges := by
      rw [h.rest]
      exact ⟨hl.laid, hl.upto, hl.ranges, hl.save⟩
    obtain ⟨hnone, hzero⟩ := hsaved hwas
    refine ⟨⟨fun _ => rfl, fun _ _ => ?_, fun _ hrows => absurd rfl hrows⟩,
      fun _ => ⟨notes, ⟨hfirst.log, hfirst.restored, fun hne => ?_, fun hne => ?_⟩, ?_⟩⟩
    · have hquiet : Quiet x (l'.settle true ran.wrote false) d' _ (lastSaved d'.log) :=
        hundo.undone hx hl' v
      refine ⟨hquiet.bytes, fun c' hc' i hi => ?_⟩
      have hne : l'.saved ≠ [] := by
        intro hnil
        obtain ⟨s, hs, -⟩ := mem_restoresOf.mp hc'
        rw [hnil] at hs
        exact not_mem_nil hs
      have howed : (if c.verify.isSome ∧ lastSaved d'.log ≠ lastSaved w.device.log then
          lastSaved d'.log else w.owedBy) = lastSaved d'.log :=
        if_pos ⟨by rw [hv]; rfl, hlast hne⟩
      exact (hquiet.writer c' hc' i hi).trans howed.symm
    · rcases hfirst.restore hne with heq | hmem
      · exact absurd (heq.symm.trans hnone) hne
      · exact Or.inr hmem
    · rcases hfirst.commit hne with heq | hmem
      · exact absurd (heq.symm.trans hzero) hne
      · exact Or.inr hmem
    rintro (hmem | ⟨-, -, c', a', heq, hplain⟩)
    · exact absurd (hunk hmem) (by simp [hknown])
    cases heq
    cases hv.symm.trans hplain
  | untouched hknown hwas hwrote =>
    obtain ⟨hknown, -⟩ := Bool.or_eq_false_iff.mp hknown
    obtain ⟨hquiet, hlast⟩ := h.quiet hknown hwas hwrote
    refine ⟨⟨h.commits, fun _ _ => ?_, fun _ hrows => absurd rfl hrows⟩,
      fun _ => ⟨notes, ⟨hfirst.log, hfirst.restored, hfirst.restore, hfirst.commit⟩, ?_⟩⟩
    · have howed : (if c.verify.isSome ∧ lastSaved d'.log ≠ lastSaved w.device.log then
          lastSaved d'.log else w.owedBy) = w.owedBy := if_neg fun hnew => hnew.2 hlast
      refine ⟨hquiet.bytes, fun c' hc' i hi => ?_⟩
      exact (hquiet.writer c' hc' i hi).trans howed.symm
    rintro (hmem | ⟨hmem, -⟩)
    · exact absurd (hunk hmem) (by simp [hknown])
    rcases hwork hmem with hbad | hbad
    · exact absurd hbad (by simp [hknown])
    · exact absurd hbad (by simp [hwrote])

theorem postChunk_leads (hx : x.Sane reads) (h : Held x reads w) (hq : w.live.quarantined = false)
    (hrows : w.live.verifyRows = 0) (hc : Planned x reads c a l1) (hsame : SameOwed w.live l1) :
    Leads x reads w (.chunk c a) (postChunk x c a l1 w.device).1
      (w.after (.chunk c a) (postChunk x c a l1 w.device).1 (postChunk x c a l1 w.device).2.1
        (postChunk x c a l1 w.device).2.2 x.zero) := by
  have hquiet := (h.quiet hq hrows).same hsame
  have hkeep : Commits x l1 := fun hnone => hsame.commitKeep.trans (h.commits hnone)
  unfold postChunk
  have hran : JobLeaves x reads c (produced x w.origin w.turns) w.owedBy l1 w.device
      (if a.post.runs then chunkJob x c a l1 w.device else (.notStarted, {}, l1, w.device)).1
      (if a.post.runs then chunkJob x c a l1 w.device else (.notStarted, {}, l1, w.device)).2.1
      (if a.post.runs then chunkJob x c a l1 w.device else (.notStarted, {}, l1, w.device)).2.2.1
      (if a.post.runs then chunkJob x c a l1 w.device
        else (.notStarted, {}, l1, w.device)).2.2.2 := by
    split
    · exact chunkJob_leaves hx hkeep hquiet hc
    exact ⟨rfl, hkeep, ⟨[], Kept.refl _ _, by simp, by simp, nofun⟩, fun _ => rfl,
      nofun, nofun, fun _ _ _ => ⟨hquiet, rfl⟩⟩
  generalize (if a.post.runs then chunkJob x c a l1 w.device
    else (.notStarted, {}, l1, w.device)) = ran at hran ⊢
  obtain ⟨result, flags, l', d'⟩ := ran
  dsimp only at hran ⊢
  split
  next hposted _ _ _ =>
    obtain ⟨hknown, hnone, hzero, hplain, hver⟩ := hran.queued (posted_ok hposted).2
    obtain ⟨notes, hkept, hunk, -, -⟩ := hran.notes
    have hfirst := hkept.same hsame
    have hrec : ∀ {q : Bool}, Unrecorded (.chunk c a) (.ok ()) notes → q = true := by
      rintro q (hmem | ⟨-, ⟨e, he⟩, -⟩)
      · exact absurd (hunk hmem) (by simp [hknown])
      · cases he
    cases hv : c.verify with
    | none =>
      have hafter : w.after (.chunk c a) (.ok ()) l' d' x.zero =
          { w with live := l', device := d', turns := .plain c.work :: w.turns } := by
        simp only [World.after, hv]
      rw [hafter]
      refine ⟨⟨fun _ => hzero, fun _ _ => ⟨?_, ?_⟩, fun _ hne => ?_⟩,
        fun _ => ⟨notes, hfirst, hrec⟩⟩
      · rw [owedBytes_none hnone hzero]
        exact hplain hv
      · rw [hnone]
        exact fun c' hc' => (not_mem_nil hc').elim
      have hzero' : l'.verifyRows = 0 := by
        rw [hran.rest]
        exact hsame.verifyRows.trans hrows
      exact absurd hzero' hne
    | some v =>
      obtain ⟨rows, ranges⟩ := v
      have hafter : w.after (.chunk c a) (.ok ()) { l' with verifyRows := rows } d' x.zero =
          { w with
            live := { l' with verifyRows := rows }, device := d'
            verified := some (c.work, ranges) } := by
        simp only [World.after, hv]
      obtain ⟨hpos, -⟩ := hc.verify rows ranges hv
      obtain ⟨hundo, hl, v, hnow⟩ := hver rows ranges hv
      rw [hafter]
      refine ⟨⟨fun _ => hzero, fun _ hno => absurd hno (by simp; omega), fun _ _ => ?_⟩,
        fun _ => ⟨notes, ⟨hfirst.log, hfirst.restored, hfirst.restore, hfirst.commit⟩, hrec⟩⟩
      exact ⟨c.work, ranges, rfl, ⟨hundo.restore, hundo.commitKeep, hundo.outside, hundo.snapshot⟩,
        ⟨hl.laid, hl.upto, hl.ranges, hl.save⟩, v, hnow⟩
  · exact hran.settled hx hc hsame

theorem usable_ok (h : l.usable x = .ok u) : l.quarantined = false := by
  unfold LiveState.usable at h
  split at h
  · cases h
  rename_i hq
  exact Bool.eq_false_iff.mpr hq

theorem usable_quarantined (h : l.quarantined = true) : ∃ e, l.usable x = .error e := by
  unfold LiveState.usable
  rw [if_pos h]
  exact ⟨_, rfl⟩

theorem planSnapshot_same (c : Chunk B) : SameOwed l (planSnapshot x c l).2 := by
  unfold planSnapshot
  split
  next ranges _ =>
    have hbegin : SameOwed l l.beginSaves := ⟨rfl, rfl, rfl, rfl⟩
    exact hbegin.trans (saveRanges_same ranges _)
  · exact .refl l

theorem planSnapshot_planned (hx : x.Sane reads) (fits : (Call.chunk c a).Fits x reads)
    (h : planSnapshot x c l = (.ok u, l1)) : Planned x reads c a l1 := by
  refine ⟨fun hv => ?_, fun rows ranges hv => ?_⟩
  · simpa only [Call.Fits, hv] using fits
  simp only [Call.Fits, hv] at fits
  simp only [planSnapshot, hv] at h
  obtain ⟨hpos, v, hfirst⟩ := fits
  exact ⟨hpos, saveRanges_saves hx beginSaves_saves v.state h, v, hfirst⟩

theorem chunk_leads (hx : x.Sane reads)
    (h : Held x reads w) (fits : (Call.chunk c a).Fits x reads) :
    Leads x reads w (.chunk c a) (w.call x (.chunk c a)).1 (w.call x (.chunk c a)).2 := by
  have href : ∀ {e : String} {l' : LiveState}, SameOwed w.live l' →
      (w.live.verifyRows ≠ 0 → l' = w.live) →
      Leads x reads w (.chunk c a) (.error e)
        (w.after (.chunk c a) (.error e) l' w.device x.zero) := by
    intro e l' hsame hsaved
    exact h.refused hsame hsaved (if_neg fun hnew => hnew.2 rfl)
  simp only [World.call, Call.run]
  unfold chunk
  split
  · exact href (.refl _) fun _ => rfl
  rename_i husa
  split
  · exact href (.refl _) fun _ => rfl
  rename_i hawa
  have hrows : w.live.verifyRows = 0 := by
    unfold LiveState.awaitingAccept at hawa
    split at hawa
    · cases hawa
    · exact not_not.mp ‹_›
  have hsame := planSnapshot_same (x := x) (l := w.live) c
  split
  · exact href (.refl _) fun _ => rfl
  split
  next hplan =>
    rw [hplan] at hsame
    exact href hsame fun hne => absurd hrows hne
  rename_i l1 hplan
  rw [hplan] at hsame
  split
  · exact href hsame fun hne => absurd hrows hne
  exact postChunk_leads hx h (usable_ok husa) hrows (planSnapshot_planned hx fits hplan) hsame

theorem accept_leads {keep : Nat} (hx : x.Sane reads) (h : Held x reads w) :
    Leads x reads w (.accept keep) (w.call x (.accept keep)).1 (w.call x (.accept keep)).2 := by
  simp only [World.call, Call.run]
  unfold LiveState.accept
  split
  · exact h.refused (.refl _) (fun _ => rfl) rfl
  rename_i husa
  split
  · exact h.refused (.refl _) (fun _ => rfl) rfl
  rename_i hfit
  obtain ⟨hrows, hfit⟩ := not_or.mp hfit
  obtain ⟨hkeep, -⟩ := not_or.mp hfit
  obtain ⟨work, ranges, hver, hawa⟩ := h.awaits (usable_ok husa) hrows
  have hafter : ∀ l' : LiveState, w.after (.accept keep) (.ok ()) l' w.device x.zero =
      { w with
        live := l', turns := .kept work ranges keep :: w.turns, verified := none
        owedBy := lastSaved w.device.log } := by
    intro l'
    simp only [World.after, hver]
  rw [hafter]
  refine ⟨⟨fun hnone => ?_, fun _ _ => ?_, fun _ hne => absurd rfl hne⟩,
    fun _ => ⟨[], ⟨rfl, by simp, fun hne => ?_, fun hne => ?_⟩, ?_⟩⟩
  · simp [hnone]
  · exact hawa.accepted hx hkeep rfl rfl
  · exact absurd hawa.undoable.restore hne
  · exact absurd hawa.undoable.commitKeep hne
  · rintro (hmem | ⟨hmem, -⟩) <;> exact (not_mem_nil hmem).elim

/-- What `Rollback`'s job can do. -/
inductive RollbackJob (x : Setup B) (l : LiveState) (d : Device B) :
    JobResult × Option String × LiveState × Device B → Prop where
  | notRun : RollbackJob x l d (.notStarted, none, l, d)
  | failed {e : String} {l' : LiveState} {d' : Device B} {notes : List Queued}
      (paid : Paid l d l' d' notes) (commit : l'.commitKeep = l.commitKeep) :
      RollbackJob x l d (.unknown, some e, l', d')
  | done {d' : Device B} {notes : List Queued}
      (paid : Paid l d { l with restore := [], commitKeep := 0 } d' notes)
      (known : .unknown ∉ notes) (bytes : d'.bytes = owedBytes x l d.bytes) :
      RollbackJob x l d (.queued, none, { l with restore := [], commitKeep := 0 }, d')

theorem rollbackJob_cases (hkeep : Commits x l) (p : Posting) (a : LiveState.OwedAnswers B)
    (d : Device B) : RollbackJob x l d (l.rollbackJob x p a d) := by
  unfold LiveState.rollbackJob
  split
  · split
    next hfail =>
      obtain ⟨hcom, notes, hpaid⟩ := queueOwed_error hfail
      exact .failed hpaid hcom
    rename_i hdone
    obtain ⟨rfl, hbytes, notes, hpaid, hknown⟩ := queueOwed_ok hkeep hdone
    exact .done hpaid hknown hbytes
  · exact .notRun

theorem rollback_leads {a : LiveState.OwedAnswers B} (h : Held x reads w) :
    Leads x reads w (.rollback p a) (w.call x (.rollback p a)).1 (w.call x (.rollback p a)).2 := by
  simp only [World.call, Call.run]
  unfold LiveState.rollback
  split
  · exact h.refused (.refl _) (fun _ => rfl) rfl
  rename_i husa
  have hq := usable_ok husa
  split
  · exact h.refused (.refl _) (fun _ => rfl) rfl
  rename_i howed
  -- While a verify awaits its `Accept` nothing is owed.
  have hrows : w.live.verifyRows = 0 := by
    by_contra hrows
    obtain ⟨work, ranges, -, hawa⟩ := h.awaits hq hrows
    apply howed
    simp [LiveState.owed, hawa.undoable.restore, hawa.undoable.commitKeep]
  have hquiet := h.quiet hq hrows
  have hjob := rollbackJob_cases h.commits p a w.device
  generalize w.live.rollbackJob x p a w.device = ran at hjob ⊢
  cases hjob with
  | notRun =>
    simp only [Posting.posted, reduceCtorEq, false_and, and_false, if_false, Option.isSome_none,
      Bool.false_or]
    cases p.faulted with
    | true =>
      exact ⟨⟨h.commits, nofun, nofun⟩,
        fun _ => ⟨[], ⟨rfl, by simp, fun _ => Or.inl rfl, fun _ => Or.inl rfl⟩, fun _ => rfl⟩⟩
    | false => exact h.refused ⟨rfl, rfl, rfl, hrows.symm⟩ (fun hne => absurd hrows hne) rfl
  | failed hpaid hcom =>
    simp only [Posting.posted, reduceCtorEq, false_and, and_false, if_false, Option.isSome_some,
      Bool.true_or]
    exact ⟨⟨fun hnone => hcom.trans (h.commits hnone), nofun,
      nofun⟩, fun _ => ⟨_, ⟨hpaid.log, hpaid.kept.restored,
        hpaid.kept.restore, hpaid.kept.commit⟩, fun _ => rfl⟩⟩
  | @done d' notes hpaid hknown hbytes =>
    have hrec : ∀ {answer : Status} {q : Bool},
        Unrecorded (.rollback p a) answer notes → q = true := by
      rintro answer q (hmem | ⟨hmem, -⟩)
      · exact absurd hmem hknown
      · rcases hpaid.only _ hmem with heq | heq | heq <;> cases heq
    have hnow : Quiet x { w.live with restore := [], commitKeep := 0 } d'
        (produced x w.origin w.turns) w.owedBy := by
      refine ⟨?_, fun c hc => (not_mem_nil hc).elim⟩
      rw [owedBytes_none rfl rfl, hbytes]
      exact hquiet.bytes
    dsimp only
    split
    · exact ⟨⟨fun _ => rfl, fun _ _ => hnow, fun _ hne => absurd hrows hne⟩,
        fun _ => ⟨notes, hpaid.kept, hrec⟩⟩
    simp only [Option.isSome_none, Bool.false_or]
    cases p.faulted with
    | true =>
      exact ⟨⟨fun _ => rfl, nofun, nofun⟩,
        fun _ => ⟨notes, ⟨hpaid.log, hpaid.kept.restored, hpaid.kept.restore,
          hpaid.kept.commit⟩, fun _ => rfl⟩⟩
    | false =>
      exact ⟨⟨fun _ => rfl, fun _ _ => ⟨hnow.bytes, hnow.writer⟩,
        fun _ hne => absurd rfl hne⟩, fun _ => ⟨notes, ⟨hpaid.log, hpaid.kept.restored,
          hpaid.kept.restore, hpaid.kept.commit⟩, hrec⟩⟩

theorem fillRegions_zero {zero : B} {a : Nat} :
    ∀ {regions : List (Nat × Nat)} {i : Nat} {d d' : Device B},
      fillRegions zero fills i regions d = (.queued, d') →
      ((∃ r ∈ regions, Inside a r.1 r.2) ∨ d.bytes a = zero) → d'.bytes a = zero := by
  intro regions
  induction regions with
  | nil =>
    rintro i d d' h (⟨r, hr, -⟩ | hzero)
    · exact (not_mem_nil hr).elim
    cases h
    exact hzero
  | cons region rest ih =>
    obtain ⟨base, bytes⟩ := region
    intro i d d' h hin
    unfold fillRegions at h
    split at h
    · cases h
    refine ih h ?_
    by_cases hhere : Inside a base bytes
    · exact Or.inr (if_pos hhere)
    rcases hin with ⟨r, hr, hin⟩ | hzero
    · rcases List.mem_cons.mp hr with rfl | hr
      · exact absurd hin hhere
      · exact Or.inl ⟨r, hr, hin⟩
    · exact Or.inr ((if_neg hhere).trans hzero)

theorem clear_cases (p : Posting) (fills : Nat → Option (Work B)) :
    ((∃ e, (l.clear x p fills d).1 = .error e) ∧ (l.clear x p fills d).2.1.quarantined = true ∧
        (l.clear x p fills d).2.1.commitKeep = 0) ∨
      ((l.clear x p fills d).1 = .ok () ∧ (l.clear x p fills d).2.1.restore = [] ∧
        (l.clear x p fills d).2.1.commitKeep = 0 ∧ (l.clear x p fills d).2.1.verifyRows = 0 ∧
        fillRegions x.zero fills 0 x.regions d = (.queued, (l.clear x p fills d).2.2)) := by
  unfold LiveState.clear
  dsimp only
  cases hpos : p.posted (if p.runs then fillRegions x.zero fills 0 x.regions d
      else (.notStarted, d)).1 "clearing the state" with
  | error e => exact Or.inl ⟨⟨e, rfl⟩, rfl, rfl⟩
  | ok u =>
    refine Or.inr ⟨rfl, rfl, rfl, rfl, ?_⟩
    obtain ⟨hruns, hres⟩ := posted_ok hpos
    rw [if_pos hruns] at hres ⊢
    exact Prod.ext hres rfl

theorem clear_leads : Leads x reads w (.clear p fills) (w.call x (.clear p fills)).1
      (w.call x (.clear p fills)).2 := by
  refine ⟨?_, fun hne => absurd rfl (hne p fills)⟩
  simp only [World.call, Call.run]
  rcases clear_cases (x := x) (l := w.live) (d := w.device) p fills with
    ⟨⟨e, he⟩, hq, hzero⟩ | ⟨hok, hnone, hzero, hrows, hfil⟩
  · rw [he]
    refine ⟨fun _ => hzero, fun hfalse => ?_, fun hfalse => ?_⟩ <;>
      exact nomatch hq.symm.trans hfalse
  rw [hok]
  refine ⟨fun _ => hzero, fun _ _ => ⟨fun a ha => ?_, ?_⟩, fun _ hne => absurd hrows hne⟩
  · simp only [World.after]
    rw [owedBytes_none hnone hzero]
    exact fillRegions_zero hfil (Or.inl ha)
  simp only [World.after, hnone]
  exact fun c hc => (not_mem_nil hc).elim

theorem Held.call {c : Call B} (hx : x.Sane reads) (h : Held x reads w)
    (fits : c.Fits x reads) : Leads x reads w c (w.call x c).1 (w.call x c).2 := by
  cases c with
  | chunk => exact chunk_leads hx h fits
  | accept => exact accept_leads hx h
  | rollback => exact rollback_leads h
  | clear => exact clear_leads

theorem Reachable.held (hx : x.Sane reads) (h : Reachable x reads w) : Held x reads w := by
  induction h with
  | initial =>
    refine ⟨fun _ => rfl, fun _ _ => ⟨fun a _ => ?_, fun c hc => (not_mem_nil hc).elim⟩,
      fun _ hne => absurd rfl hne⟩
    rw [owedBytes_none rfl rfl]
    rfl
  | call _ fits ih => exact (ih.call hx fits).held

theorem call_quarantined {c : Call B} (h : w.live.quarantined = true)
    (hc : ∀ p fills, c ≠ .clear p fills) :
    (∃ e, (w.call x c).1 = .error e) ∧ (w.call x c).2.live = w.live ∧
      (w.call x c).2.device = w.device := by
  obtain ⟨e, he⟩ := usable_quarantined (x := x) h
  cases c with
  | chunk =>
    simp only [World.call, Call.run, chunk, he]
    exact ⟨⟨e, rfl⟩, rfl, rfl⟩
  | accept =>
    simp only [World.call, Call.run, LiveState.accept, he]
    exact ⟨⟨e, rfl⟩, rfl, rfl⟩
  | rollback =>
    simp only [World.call, Call.run, LiveState.rollback, he]
    exact ⟨⟨e, rfl⟩, rfl, rfl⟩
  | clear p fills => exact absurd rfl (hc p fills)

theorem clear_quarantined (h : (w.call x (.clear p fills)).1 = .error e) :
    (w.call x (.clear p fills)).2.live.quarantined = true := by
  simp only [World.call, Call.run] at h ⊢
  rcases clear_cases (x := x) (l := w.live) (d := w.device) p fills with
    ⟨⟨e', he⟩, hq, -⟩ | ⟨hok, -⟩
  · rw [he]
    exact hq
  · cases hok.symm.trans h

/-- In every run, of chunks, verifies, `Accept`, `Rollback` and `Clear` with any failures:
    while the state is not quarantined and no verify awaits its `Accept`, what is owed, applied,
    gives what the answered chunks and the kept rows of the accepted verifies produce in order.
    Every owed restore reads bytes that the saves it was made of wrote last; no call but `Clear`
    drops what is owed without queueing it, and the restores it queues are the owed ones. A
    write that nothing records leaves the state quarantined, and a quarantined state refuses
    every call and stays as it is until a `Clear` has run. -/
theorem reachable_traceless (hx : x.Sane reads) {w : World B} (h : Reachable x reads w) :
    (w.live.quarantined = false → w.live.verifyRows = 0 → ∀ a, x.State a →
      owedBytes x w.live w.device.bytes a = produced x w.origin w.turns a) ∧
    (w.live.quarantined = false → ∀ c ∈ w.live.restore, ∀ i < c.bytes,
      w.device.writer (c.source + i) = w.owedBy) ∧
    (∀ c : Call B, c.Fits x reads → (∀ p fills, c ≠ .clear p fills) → ∃ notes,
      Kept w.live w.device (w.call x c).2.live (w.call x c).2.device notes ∧
        (Unrecorded c (w.call x c).1 notes → (w.call x c).2.live.quarantined = true)) ∧
    (w.live.quarantined = true → ∀ c : Call B, (∀ p fills, c ≠ .clear p fills) →
      (∃ e, (w.call x c).1 = .error e) ∧ (w.call x c).2.live = w.live ∧
        (w.call x c).2.device = w.device) ∧ (∀ p fills e, (w.call x (.clear p fills)).1 = .error e →
      (w.call x (.clear p fills)).2.live.quarantined = true) := by
  have hheld := h.held hx
  refine ⟨fun hq hrows => (hheld.quiet hq hrows).bytes, fun hq c hc => ?_,
    fun c fits hclear => (hheld.call hx fits).notes hclear, fun hq c => call_quarantined hq,
    fun p fills e => clear_quarantined⟩
  by_cases hrows : w.live.verifyRows = 0
  · exact (hheld.quiet hq hrows).writer c hc
  obtain ⟨work, ranges, -, hawa⟩ := hheld.awaits hq hrows
  rw [hawa.undoable.restore] at hc
  exact (not_mem_nil hc).elim

/-! A region of 64 bytes, and a verify of two rows that is accepted for its first. -/

def smallSetup : Setup Nat where
  model := "DeepSeek"
  zero := 0
  regions := [(8192, 64)]
  snapshotBase := 16384
  snapshotBytes := 512
  capacity := 4
  commit := none

def twoRows : Work Nat where
  run m a := if Inside a 8192 16 then 7 else if Inside a 8208 16 then 9 else m a
  writes a := decide (Inside a 8192 32)
  frame m a h := by
    have hout : ¬ Inside a 8192 32 := of_decide_eq_false h
    unfold Inside at hout
    rw [if_neg (by unfold Inside; omega), if_neg (by unfold Inside; omega)]

def twoRowsChunk : Chunk Nat := ⟨twoRows, some (2, [⟨8192, 16, 0⟩, ⟨8208, 16, 1⟩])⟩

def allDone : ChunkAnswers Nat where
  checked := .ok ()
  planned := .ok ()
  owed := ⟨.queued, .queued⟩
  saves := .queued
  inputs := .ok ()
  queue := .queued
  post := ⟨true, true, false⟩
  alongside := .ok ()

def acceptedWorld : World Nat :=
  let w : World Nat :=
    { live := {}, device := ⟨fun _ => 1, fun _ => 0, []⟩, origin := fun _ => 1 }
  ((w.call smallSetup (.chunk twoRowsChunk allDone)).2.call smallSetup (.accept 1)).2

theorem smallSetup_sane : smallSetup.Sane fun _ => False := by
  refine ⟨fun a ha hs => ?_, fun a ha => ?_, by decide, fun commit h => nomatch h⟩
  · obtain ⟨r, hr, hin⟩ := ha
    cases List.mem_singleton.mp hr
    unfold Setup.Snapshot Inside at *
    simp only [smallSetup] at hs
    omega
  rcases ha with ⟨r, hr, hin⟩ | hs
  · cases List.mem_singleton.mp hr
    unfold Inside at hin
    omega
  unfold Setup.Snapshot Inside at hs
  simp only [smallSetup] at hs
  omega

theorem twoRows_fits : (Call.chunk twoRowsChunk allDone).Fits smallSetup fun _ => False := by
  have hin : ∀ a, Inside a 8192 32 → smallSetup.State a := by
    intro a ha
    refine ⟨(8192, 64), List.mem_singleton.mpr rfl, ?_⟩
    unfold Inside at *
    omega
  refine ⟨by decide, ⟨fun r hr a ha => hin a ?_, ?_, fun a ha => ⟨fun hs => ?_, fun _ => ?_⟩, ?_⟩,
    fun e first h => nomatch h⟩
  · rcases List.mem_cons.mp hr with rfl | hr
    · unfold Inside at *
      dsimp only at ha
      omega
    cases List.mem_singleton.mp hr
    unfold Inside at *
    dsimp only at ha
    omega
  · refine List.pairwise_pair.mpr fun a ha ha' => ?_
    unfold Inside at *
    dsimp only at *
    omega
  · have hw : Inside a 8192 32 := of_decide_eq_true ha
    unfold Setup.Snapshot Inside at *
    simp only [smallSetup] at hs
    omega
  · have hw : Inside a 8192 32 := of_decide_eq_true ha
    by_cases hfirst : Inside a 8192 16
    · exact ⟨⟨8192, 16, 0⟩, by simp, hfirst⟩
    refine ⟨⟨8208, 16, 1⟩, by simp, ?_⟩
    unfold Inside at *
    dsimp only
    omega
  rintro m m' h a (ha | ha)
  · simp only [twoRowsChunk, twoRows]
    rw [h a ha]
  · exact ha.elim

theorem reachable_traceless_accepted : acceptedWorld.live.restore.length = 1 ∧
      owedBytes smallSetup acceptedWorld.live acceptedWorld.device.bytes 8192 = 7 ∧
      owedBytes smallSetup acceptedWorld.live acceptedWorld.device.bytes 8208 = 1 := by
  have hreach : Reachable smallSetup (fun _ => False) acceptedWorld :=
    .call (.call (.initial _ _) twoRows_fits) trivial
  have hstate : ∀ a, Inside a 8192 64 → smallSetup.State a := fun a ha =>
    ⟨(8192, 64), List.mem_singleton.mpr rfl, ha⟩
  have h := (reachable_traceless smallSetup_sane hreach).1 (by decide) (by decide)
  refine ⟨by decide, ?_, ?_⟩
  · rw [h 8192 (hstate _ (by decide))]
    decide
  rw [h 8208 (hstate _ (by decide))]
  decide

end JitLlm.Engine
