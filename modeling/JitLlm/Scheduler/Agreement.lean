import JitLlm.Scheduler.Worlds

/-!
# The scheduler and the catalog agree

Every world a run reaches is fine, from the constructor on. What that says of the catalog: an
extent loads or evicts exactly while the scheduler has its entry, under the entry's ticket, and
an entry's operation and its record name each other. No check of a page-in's own can fire.
-/

namespace JitLlm.Scheduler

open Base Lib List Option
open Catalog hiding Operation Reachable

variable {x : Config} {w w' : World} {f : Fatal}

/-! ## The constructor -/

theorem initial_catalog : Catalog.Reachable (initial x).catalog := .start

theorem initial_mailboxes : Mailboxes (initial x).board (initial x).operations (initial x).log := by
  have hbox : ∀ (i : Nat) m, (initial x).board.mailboxes[i]? = some m →
      m = { generation := x.firstGeneration } := by
    intro i m hm
    exact (mem_replicate.mp (mem_of_getElem? hm)).2
  have hnone : ∀ (i : Nat) op, (initial x).operations[i]? ≠ some (some op) := by
    intro i op hop
    have := (mem_replicate.mp (mem_of_getElem? hop)).2
    cases this
  constructor
  · simp [initial, CompletionBoard.ofMailboxes]
  · intro i m hm
    rw [hbox i m hm]
    exact x.board.2.2.1
  · intro i op hop
    exact absurd hop (hnone i op)
  · intro i m hm hopen
    rw [hbox i m hm] at hopen
    cases hopen
  · intro i m hm hret
    rw [hbox i m hm] at hret
    cases hret
  · exact nodup_range
  · intro i hi
    have hlt : i < x.mailboxes := mem_range.mp hi
    refine ⟨{ generation := x.firstGeneration }, ?_, rfl, rfl, rfl, rfl, rfl⟩
    simp [initial, CompletionBoard.ofMailboxes, hlt]
  · intro id command htook
    cases htook
  · intro i op hop
    exact absurd hop (hnone i op)
  · simp [initial, CompletionBoard.ofMailboxes]

theorem initial_find (id : OperationId) : (initial x).find id = none := by
  cases hfound : (initial x).find id with
  | none => rfl
  | some =>
    exact absurd hfound (by simp [Scheduler.find, initial, getElem?_replicate])

theorem initial_good : Good x (initial x) [] none none where
  reach := initial_catalog
  mailboxes := initial_mailboxes
  slots := by simp [initial]
  load := fun _ _ _ h => nomatch h
  eviction := fun _ _ _ h => nomatch h
  settled := fun e _ _ _ => .inl ⟨rfl, fun r hr => by
    simp [initial, SlotTable.find?, SlotTable.empty] at hr⟩
  owned := fun id op hop => by
    simp [stageOp, initial_find] at hop
  holder := fun e e' i _ _ h => by
    rcases h with ⟨l, hl, -⟩ | ⟨v, hv, -⟩
    · cases hl
    · cases hv
  busy := fun i hi => by
    have := (mem_replicate.mp (mem_of_getElem? hi)).2
    cases this
  mine := fun _ hi => nomatch hi
  queued := ⟨nodup_nil, fun _ he => nomatch he⟩
  slotWaiters := ⟨nodup_nil, fun _ he => nomatch he⟩
  blocked := ⟨nodup_nil, fun _ he => nomatch he⟩
  release := ⟨nodup_nil, fun _ he => nomatch he⟩
  nodup := nodup_nil
  gripped := fun _ he => nomatch he
  calls := by
    refine ⟨fun h => ?_, fun id hid => ?_, fun id hid => ?_⟩
    · cases h
    · cases hid
    · cases hid

theorem initial_describe (t : TaskId) : (initial x).tasks.describe t = none := by
  have hfind : (initial x).tasks.tasks.find? t = none := by
    rcases hfound : (initial x).tasks.tasks.find? t with _ | _
    · rfl
    have hcell := SlotTable.find?_eq_some.mp hfound
    have hslot := (mem_replicate.mp (mem_of_getElem? hcell)).2
    simp at hslot
  simp [TaskTable.describe, hfind]

theorem initial_roster : Roster (initial x) [] where
  length := by simp [initial, TaskTable.ofCapacity]
  filed := fun i r hr => by
    have := (mem_replicate.mp (mem_of_getElem? hr)).2
    cases this
  known := fun t r hr => by
    exfalso
    simp [record?, initial, getElem?_replicate] at hr
  recorded := fun t v hv => by
    rw [initial_describe] at hv
    cases hv
  parent := fun t v p hv => by
    rw [initial_describe] at hv
    cases hv
  owner := fun i op hop => by
    exfalso
    simp [workCells, initial, getElem?_replicate] at hop
  operations := fun t v hv => by
    rw [initial_describe] at hv
    cases hv
  children := fun t v hv => by
    rw [initial_describe] at hv
    cases hv
  due := fun t v hv => by
    rw [initial_describe] at hv
    cases hv
  order := ⟨fun _ => 0, fun t v p hv => by
    rw [initial_describe] at hv
    cases hv⟩
  live := by
    simp [TaskTable.tally, SlotTable.sum, initial, TaskTable.ofCapacity, SlotTable.ofCapacity]

theorem initial_fine : Fine x { state := initial x } where
  good := initial_good
  roster := initial_roster
  sources := fun _ _ h => nomatch h
  shaped := .inl fun _ hc => nomatch hc
  running := fun _ ht => nomatch ht
  told := fun _ hseen => nomatch hseen

theorem Reachable.fine (h : Reachable x w) : Fine x w := by
  induction h with
  | start => exact initial_fine
  | step label _ hstep ih => exact ((ih.step label).val hstep _ rfl).fine

/-! ## Which checks a step may end on -/

/-- The checks of `pagein.cc`. -/
def Fatal.ofPageIn : Fatal → Bool
  | .loadingNoPageIn | .ownRefused | .proceedStage | .mapUnmanaged | .readNoSlot | .copyNoSlot
  | .openWaiting | .lostLoad | .pastReadNoSlot | .stageWaits | .endNotInFlight | .endHolding
  | .settleLoad | .quarantineLoad | .freeNotBusy | .freshEvict | .writeBackPast | .copyOutNoSlot
  | .writeNoSlot | .unmapUnmanaged | .evictOpenWaiting | .lostEviction | .evictStageWaits
  | .notParked | .evictNotInFlight | .evictHolding | .settleEvict | .quarantineEvict
  | .noEntry => true
  | _ => false

theorem readyQueue_fatal {q : ReadyQueue} {t : TaskId} {priority : Nat}
    (h : q.makeReady t priority = .error f) : Fatal.ofPageIn f = false := by
  have hout := (readyQueue_makeReady_outside q t priority).err h
  cases f <;> simp [Fatal.outside] at hout <;> rfl

variable {s : Scheduler}

theorem wake_fatal {t : TaskId} {failed : Bool}
    (h : s.wake t failed = .error f) : Fatal.ofPageIn f = false := by
  unfold wake at h
  split at h
  · cases h
  split at h
  · cases h
  split at h
  · dsimp only at h
    split at h
    · unfold makeReady at h
      split at h
      · cases h
      cases hready : TaskTable.makeReady _ _ _ with
      | error =>
        rw [hready] at h
        cases h
        unfold TaskTable.makeReady at hready
        split at hready
        · cases hready
        split at hready
        · cases hready
        cases hq : ReadyQueue.makeReady _ _ _ with
        | error =>
          rw [hq] at hready
          cases hready
          exact readyQueue_fatal hq
        | ok =>
          rw [hq] at hready
          cases hready
      | ok y =>
        rw [hready] at h
        obtain ⟨answer, tasks⟩ := y
        cases answer with
        | ok => cases h
        | error =>
          cases h
          rfl
    · cases h
  cases h
  rfl

theorem Roster.retires {k : List Debt} (h : Roster s k) {op work : Operation}
    (hfound : s.find op.id = some op) (hwork : op.work = some work) :
    ∃ tasks, s.tasks.retireOperation op.task = .ok (.ok (), tasks) := by
  obtain ⟨hcell, -⟩ := find_eq_some.mp hfound
  have hat := workCells_at hcell hwork
  have htask : work.task = op.task := by rw [(work_eq hwork).1]
  obtain ⟨v, hv⟩ := h.owner _ work hat
  rw [htask] at hv
  have hcount := h.operations op.task v hv
  have hone : 1 ≤ cellSum (workOf op.task) s.workCells := by
    have := le_cellSum (workOf op.task) hat
    simpa [workOf, htask] using this
  unfold TaskTable.describe at hv
  rcases hfind : s.tasks.tasks.find? op.task with _ | _
  · simp [hfind] at hv
  rw [hfind] at hv
  cases hv
  unfold TaskTable.retireOperation
  simp only [hfind]
  rw [if_pos (by omega)]
  exact ⟨_, rfl⟩

theorem Halts.pageIn {k : List Debt} (h : Halts x s k f)
    (hros : Roster s k) : Fatal.ofPageIn f = false := by
  rcases h with hout | ⟨s1, k1, hways, hfires⟩
  · cases f <;> simp [Fatal.outside] at hout <;> rfl
  have hros1 := hros.ways hways
  cases hfires with
  | wake fires => exact wake_fatal fires
  | lease => rfl
  | retires found work running refused =>
    obtain ⟨tasks, hok⟩ := hros1.retires found work
    rcases refused with herr | ⟨error, tasks', herr⟩
    · cases hok.symm.trans herr
    · cases hok.symm.trans herr
  | counted | used | released => rfl

/-! ## The agreement -/

def OpenFor (s : Scheduler) (kind : Kind) (e : ExtentId) (id : OperationId) : Prop :=
  ∃ op, s.find id = some op ∧ op.quarantined = false ∧ op.kind = kind ∧ op.extent = e ∧
    ∃ m, s.board.mailboxes[id.index]? = some m ∧ m.isOpen = true ∧ m.generation = id.generation

/-- What the scheduler's entries and the catalog say of each other. -/
structure Agrees (s : Scheduler) : Prop where
  /-- An extent is LOADING if and only if it has a load, whose ticket is the extent's current
      operation; EVICTING the same of evictions; and none has both. -/
  loading : ∀ e, (∃ r, s.catalog.extents.find? e = some r ∧ r.view.state = .loading) ↔
    ∃ l, s.loads.find? e = some l
  loadTicket : ∀ e l, s.loads.find? e = some l → ∃ r, Catalog.Loads s.catalog e l.ticket r
  evicting : ∀ e, (∃ r, s.catalog.extents.find? e = some r ∧ r.view.state = .evicting) ↔
    ∃ v, s.evictions.find? e = some v
  evictTicket : ∀ e v, s.evictions.find? e = some v → ∃ r, Catalog.Evicts s.catalog e v.ticket r
  apart : ∀ e, s.loads.find? e = none ∨ s.evictions.find? e = none
  /-- The operation of an entry is the one open operation of its kind that names the extent. -/
  loadOperation : ∀ e l id, s.loads.find? e = some l → l.operation = some id →
    OpenFor s .load e id ∧ ∀ id', OpenFor s .load e id' → id' = id
  evictOperation : ∀ e v id, s.evictions.find? e = some v → v.operation = some id →
    OpenFor s .evict e id ∧ ∀ id', OpenFor s .evict e id' → id' = id
  /-- And every such operation is its entry's. -/
  loadOwned : ∀ e id, OpenFor s .load e id →
    ∃ l, s.loads.find? e = some l ∧ l.operation = some id
  evictOwned : ∀ e id, OpenFor s .evict e id →
    ∃ v, s.evictions.find? e = some v ∧ v.operation = some id

section Agree

variable {s : Scheduler} {work : List Work} {id : OperationId} {e : ExtentId}

theorem Good.mailbox (h : Good x s work none none) {op : Operation}
    (hfound : s.find id = some op) : ∃ m, s.board.mailboxes[id.index]? = some m ∧
      m.isOpen = true ∧ m.generation = id.generation := by
  obtain ⟨hcell, rfl, -⟩ := find_eq_some.mp hfound
  obtain ⟨-, m, hm, hopen, hgen, -⟩ := h.mailboxes.record _ op hcell
  exact ⟨m, hm, hopen, hgen⟩

theorem Good.openFor (h : Good x s work none none) {op : StageOp}
    (hop : s.stageOp id = some op) : OpenFor s op.kind op.extent id := by
  obtain ⟨record, hfound, hstage⟩ := bind_eq_some_iff.mp hop
  unfold Operation.stage at hstage
  split at hstage
  · cases hstage
  rename_i hrun
  simp only [Bool.not_eq_true] at hrun
  split at hstage
  · cases hstage
    exact ⟨record, hfound, hrun, rfl, rfl, h.mailbox hfound⟩
  · cases hstage
    exact ⟨record, hfound, hrun, rfl, rfl, h.mailbox hfound⟩
  · cases hstage
  · cases hstage

theorem OpenFor.stage {kind : Kind} (h : OpenFor s kind e id)
    (hkind : kind = .load ∨ kind = .evict) :
    ∃ op, s.stageOp id = some op ∧ op.kind = kind ∧ op.extent = e := by
  obtain ⟨op, hfound, hrun, rfl, rfl, -⟩ := h
  unfold stageOp
  rw [hfound]
  simp only [bind_some, Operation.stage, hrun]
  rcases hkind with hkind | hkind <;> rw [hkind] <;> exact ⟨_, rfl, rfl, rfl⟩

theorem Good.loadOwned (h : Good x s work none none)
    (hop : OpenFor s .load e id) : ∃ l, s.loads.find? e = some l ∧ l.operation = some id := by
  obtain ⟨op, hstage, hkind, rfl⟩ := hop.stage (.inl rfl)
  have howned := (h.owned id op hstage).2
  unfold Owned at howned
  rw [hkind] at howned
  exact howned

theorem Good.evictOwned (h : Good x s work none none)
    (hop : OpenFor s .evict e id) : ∃ v, s.evictions.find? e = some v ∧ v.operation = some id := by
  obtain ⟨op, hstage, hkind, rfl⟩ := hop.stage (.inr rfl)
  have howned := (h.owned id op hstage).2
  unfold Owned at howned
  rw [hkind] at howned
  exact howned

theorem Good.agrees (h : Good x s work none none) : Agrees s := by
  have hload : ∀ e l, s.loads.find? e = some l → s.evictions.find? e = none ∧
      (∃ r, Catalog.Loads s.catalog e l.ticket r) ∧
      ∀ id, l.operation = some id → OpenFor s .load e id := by
    intro e l hl
    obtain ⟨p, hloading, -, -, -, hope⟩ := (h.load e l (by simp) hl).loading
    refine ⟨hloading.eviction, hloading.ticket, fun id hid => ?_⟩
    unfold Load.operates at hope
    rw [hid] at hope
    obtain ⟨route, command, hop, -⟩ := hope
    exact h.openFor hop
  have hevict : ∀ e v, s.evictions.find? e = some v →
      (∃ r, Catalog.Evicts s.catalog e v.ticket r) ∧
      ∀ id, v.operation = some id → OpenFor s .evict e id := by
    intro e v hv
    obtain ⟨place, p, hevi, -, -, hope⟩ := (h.eviction e v (by simp) hv).evicting
    obtain ⟨r, hr, -⟩ := hevi.ticket
    refine ⟨⟨r, hr⟩, fun id hid => ?_⟩
    unfold Eviction.operates at hope
    rw [hid] at hope
    obtain ⟨route, command, hop, -⟩ := hope
    exact h.openFor hop
  have hset : ∀ e r, s.catalog.extents.find? e = some r → s.loads.find? e = none →
      s.evictions.find? e = none → r.view.state ≠ .loading ∧ r.view.state ≠ .evicting := by
    intro e r hr hl hv
    rcases h.settled e (by simp) hl hv with ⟨-, hidle⟩ | ⟨-, r', hr', hlost⟩
    · exact hidle r hr
    cases hr.symm.trans hr'
    rw [hlost]
    exact ⟨by simp, by simp⟩
  constructor
  · intro e
    constructor
    · rintro ⟨r, hr, hstate⟩
      cases hl : s.loads.find? e with
      | some l => exact ⟨l, rfl⟩
      | none =>
        rcases hv : s.evictions.find? e with _ | v
        · exact absurd hstate (hset e r hr hl hv).1
        obtain ⟨⟨r', hr'⟩, -⟩ := hevict e v hv
        cases hr.symm.trans hr'.found
        cases hstate.symm.trans hr'.state
    rintro ⟨l, hl⟩
    obtain ⟨-, ⟨r, hr⟩, -⟩ := hload e l hl
    exact ⟨r, hr.found, hr.state⟩
  · intro e l hl
    exact (hload e l hl).2.1
  · intro e
    constructor
    · rintro ⟨r, hr, hstate⟩
      cases hv : s.evictions.find? e with
      | some v => exact ⟨v, rfl⟩
      | none =>
        rcases hl : s.loads.find? e with _ | l
        · exact absurd hstate (hset e r hr hl hv).2
        obtain ⟨-, ⟨r', hr'⟩, -⟩ := hload e l hl
        cases hr.symm.trans hr'.found
        cases hstate.symm.trans hr'.state
    rintro ⟨v, hv⟩
    obtain ⟨⟨r, hr⟩, -⟩ := hevict e v hv
    exact ⟨r, hr.found, hr.state⟩
  · intro e v hv
    exact (hevict e v hv).1
  · intro e
    cases hl : s.loads.find? e with
    | none => exact .inl rfl
    | some l => exact .inr (hload e l hl).1
  · intro e l id hl hid
    refine ⟨(hload e l hl).2.2 id hid, fun id' hid' => ?_⟩
    obtain ⟨l', hl', hop⟩ := h.loadOwned hid'
    cases hl.symm.trans hl'
    exact some.inj (hop.symm.trans hid)
  · intro e v id hv hid
    refine ⟨(hevict e v hv).2 id hid, fun id' hid' => ?_⟩
    obtain ⟨v', hv', hop⟩ := h.evictOwned hid'
    cases hv.symm.trans hv'
    exact some.inj (hop.symm.trans hid)
  · intro e id hop
    exact h.loadOwned hop
  intro e id hop
  exact h.evictOwned hop

end Agree

/-- **The scheduler and the catalog agree in every state a run reaches, and no step from there
    ends on a check of a page-in's own.** -/
theorem reachable_agrees (h : Reachable x w) : Agrees w.state ∧
    ∀ label f, step x w label = .error f → Fatal.ofPageIn f = false := by
  refine ⟨h.fine.good.agrees, fun label f hstep => ?_⟩
  exact Halts.pageIn ((h.fine.step label).err hstep) h.fine.roster

/-- **Every open operation has its mailbox, and no other mailbox is open.** One whose command no
    lane took has nothing published to it. -/
theorem reachable_boxes_kept (h : Reachable x w) (i : Nat) :
    (∀ op, w.state.operations[i]? = some (some op) → op.id.index = i ∧
      ∃ m, w.state.board.mailboxes[i]? = some m ∧ m.isOpen = true ∧
        m.generation = op.id.generation ∧ (op.published = false → m.clean) ∧
        (op.published = true → ∃ command, Event.took op.id command ∈ w.state.log)) ∧
    ∀ m, w.state.board.mailboxes[i]? = some m → m.isOpen = true →
      ∃ op, w.state.operations[i]? = some (some op) := by
  have hbox := h.fine.good.mailboxes
  refine ⟨fun op hop => ?_, hbox.filled i⟩
  obtain ⟨hid, m, hm, hopen, hgen, hclean⟩ := hbox.record i op hop
  exact ⟨hid, m, hm, hopen, hgen, hclean, (hbox.asked i op hop).1⟩

/-- The labels in turn; `none` where one does not come next or ends the process. -/
def runLabels (x : Config) (w : World) : List Label → Option World
  | [] => some w
  | label :: rest =>
    match step x w label with
    | .ok (some w') => runLabels x w' rest
    | _ => none

theorem runLabels_reachable {w' : World} :
    ∀ {labels : List Label} {w : World}, Reachable x w → runLabels x w labels = some w' →
      Reachable x w' := by
  intro labels
  induction labels with
  | nil =>
    intro w h hrun
    cases hrun
    exact h
  | cons label rest ih =>
    intro w h hrun
    unfold runLabels at hrun
    split at hrun
    next w1 hstep =>
      exact ih (.step label h hstep) hrun
    · cases hrun

def twoMib : Bytes := .ofNat 2097152

def oneLane : Config where
  settings := { tasks := 4, priorities := 1, budget := twoMib }
  lanes := { storage := true }
  mailboxes := 2

def pageInLabels : List Label :=
  [.catalog (.addDomain "device"),
    .catalog (.addExtent { domain := ⟨0, 1⟩, memoryClass := .weights, recovery := .fromArtifact,
                           size := twoMib } false),
    .setSource ⟨0, 1⟩ { read := { fd := 3, offset := 0, memory := 4096, length := 2097152 } },
    .start 1 true 0, .next, .call (.materialize { extents := [(⟨0, 1⟩, 1)] }),
    .control .accepted, .work .accepted, .work .accepted]

theorem reachable_agrees_pageIn : ∃ w,
    runLabels oneLane { state := initial oneLane } pageInLabels = some w ∧ Agrees w.state ∧
      ∀ label f, step oneLane w label = .error f → Fatal.ofPageIn f = false := by
  have hsome : (runLabels oneLane { state := initial oneLane } pageInLabels).isSome = true := by
    decide +kernel
  obtain ⟨w, hw⟩ := isSome_iff_exists.mp hsome
  exact ⟨w, hw, reachable_agrees (runLabels_reachable .start hw)⟩

theorem pageIn_reached : ∃ w v,
    runLabels oneLane { state := initial oneLane } pageInLabels = some w ∧ Reachable oneLane w ∧
      w.state.tasks.describe ⟨0, 1⟩ = some v := by
  have hsome : ((runLabels oneLane { state := initial oneLane } pageInLabels).bind fun w =>
      w.state.tasks.describe ⟨0, 1⟩).isSome = true := by decide +kernel
  obtain ⟨v, hv⟩ := isSome_iff_exists.mp hsome
  obtain ⟨w, hw, hv⟩ := bind_eq_some_iff.mp hv
  exact ⟨w, v, hw, runLabels_reachable .start hw, hv⟩

theorem reachable_boxes_kept_pageIn : ∃ w, Reachable oneLane w ∧
    ∀ m, w.state.board.mailboxes[0]? = some m → m.isOpen = true →
      ∃ op, w.state.operations[0]? = some (some op) :=
  have ⟨w, _, _, h, _⟩ := pageIn_reached
  ⟨w, h, (reachable_boxes_kept h 0).2⟩

example : (runLabels oneLane { state := initial oneLane } pageInLabels).bind
    (fun w => (w.state.loads.find? ⟨0, 1⟩).map fun l => (l.stage, l.operation)) =
      some (.reading, some ⟨0, 1⟩) := by decide +kernel

end JitLlm.Scheduler
