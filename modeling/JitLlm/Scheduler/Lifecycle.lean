import JitLlm.Scheduler.Evictions

/-!
# The end of an operation

What a result says of the load or eviction whose stage it ends (`Load.after`, `Eviction.after`),
and the walk over `scheduler.cc`'s operation lifecycle: concluding, rolling back, quarantining and
observing run. An operation's extent is taken in hand with it, since nothing else names it.
-/

namespace JitLlm.Scheduler

open Base Lib Option Prod
open Catalog hiding Operation Reachable

variable {x : Config} {s s' : Scheduler} {rest : List Work} {e : ExtentId} {l : Load}
    {command : Command} {id : OperationId} {call : Checked Scheduler} {v : Eviction}

/-! ## What a result says -/

theorem Load.settles {p : LoadPhase} {route : Route} (outcome : Outcome)
    (bytes : Nat) (hflags : l.flags) (hstands : l.stands x .free p.progress)
    (hsource : p.source = l.source) (hreuse : p.reuse = l.reuse) (hmap : p.mapped = l.mapped)
    (hcom : stageCommand x l = .ok (route, command)) :
    l.after x outcome bytes { p.settle command outcome bytes with operation := none } := by
  obtain ⟨-, hflags⟩ := hflags
  unfold Load.after
  cases hstage : l.stage with
  | queued | slot => simp [stageCommand, hstage] at hcom
  | mapping =>
    simp only [Load.stands, hstage] at hstands
    obtain ⟨place, hplace⟩ := isSome_iff_exists.mp hstands.2
    simp only [stageCommand, hstage, hplace, Except.ok.injEq] at hcom
    obtain ⟨-, rfl⟩ := hcom
    by_cases hok : outcome = .succeeded
    · simp [LoadPhase.settle, hok, hstands.1, hplace]
    · simp [LoadPhase.settle, hok, hstands.1, hmap, hreuse]
  | unmapping =>
    simp only [hstage] at hflags
    obtain ⟨place, hplace⟩ := isSome_iff_exists.mp hflags.2.2.2
    simp only [stageCommand, hstage, hplace, Except.ok.injEq] at hcom
    obtain ⟨-, rfl⟩ := hcom
    by_cases hok : outcome = .succeeded
    · simp [LoadPhase.settle, hok, hreuse]
    · simp [LoadPhase.settle, hok, hmap, hreuse]
  | releasing =>
    simp only [hstage] at hflags
    obtain ⟨place, hplace⟩ := isSome_iff_exists.mp hflags.2.2.2
    simp only [stageCommand, hstage, hplace, Except.ok.injEq] at hcom
    obtain ⟨-, rfl⟩ := hcom
    by_cases hok : outcome = .succeeded
    · simp [LoadPhase.settle, hok, hmap]
    · simp [LoadPhase.settle, hok, hmap, hreuse]
  | reading =>
    simp only [Load.stands, hstage] at hstands
    by_cases hlan : l.source.landed = true
    · obtain ⟨i, hi⟩ := isSome_iff_exists.mp (hstands.2 hlan)
      rcases ha : x.settings.landing.slots[i]? with _ | _
      · simp [stageCommand, hstage, hlan, hi, slotAddress, ha, require] at hcom
      simp only [stageCommand, hstage, hlan, if_true, hi, slotAddress, ha, require, ok_bind,
        pure, Except.pure, Except.ok.injEq] at hcom
      obtain ⟨-, rfl⟩ := hcom
      by_cases hok : outcome = .succeeded
      · by_cases hb : bytes = l.source.read.length
        · simp [LoadPhase.settle, hok, hb, hmap, hreuse, hsource, hlan, hi, ha]
        · simp [LoadPhase.settle, hok, hb, hmap, hreuse, hlan, hi]
      · simp [LoadPhase.settle, hok, hmap, hreuse, hi]
    simp only [stageCommand, hstage, if_neg hlan, Except.ok.injEq] at hcom
    obtain ⟨-, rfl⟩ := hcom
    by_cases hok : outcome = .succeeded
    · by_cases hb : bytes = l.source.read.length
      · simp [LoadPhase.settle, hok, hb, hmap, hreuse, hsource, hlan]
      · simp [LoadPhase.settle, hok, hb, hmap, hreuse, hlan]
    · simp [LoadPhase.settle, hok, hmap, hreuse, hlan]
  | copying =>
    simp only [Load.stands, hstage] at hstands
    obtain ⟨i, a, hi, ha, -⟩ := hstands
    simp only [stageCommand, hstage, hi, slotAddress, ha, require, ok_bind, pure, Except.pure,
      Except.ok.injEq] at hcom
    obtain ⟨-, rfl⟩ := hcom
    by_cases hok : outcome = .succeeded
    · simp [LoadPhase.settle, hok, hmap, hreuse, hi]
    · simp [LoadPhase.settle, hok, hmap, hreuse, hi]

theorem Eviction.settles {place : PageSource} {p : EvictPhase} {route : Route}
    (outcome : Outcome) (bytes : Nat) (hstands : v.stands x .free place p.progress)
    (hcom : evictCommand x v place = .ok (route, command)) :
    v.after x place outcome bytes { p.settle command outcome bytes with operation := none } := by
  unfold Eviction.after
  cases hstage : v.stage with
  | slot | parked => simp [evictCommand, hstage] at hcom
  | copyOut =>
    simp only [Eviction.stands, hstage] at hstands
    obtain ⟨i, hi⟩ := Option.isSome_iff_exists.mp hstands.2
    rcases ha : x.settings.landing.slots[i]? with _ | _
    · simp [evictCommand, hstage, hi, slotAddress, ha, require] at hcom
    simp only [evictCommand, hstage, hi, slotAddress, ha, require, ok_bind, pure, Except.pure,
      Except.ok.injEq, Prod.mk.injEq] at hcom
    obtain ⟨-, rfl⟩ := hcom
    by_cases hok : outcome = .succeeded
    · simp [EvictPhase.settle, EvictPhase.untouched, DeviceWork.target, hok, hi, ha]
    · simp [EvictPhase.settle, EvictPhase.untouched, hok, hi, hstands.1]
  | writing =>
    simp only [Eviction.stands, hstage] at hstands
    have hp : p.progress ≠ .kept ∧ p.progress ≠ .released := by
      split at hstands
      · obtain ⟨i, a, -, -, hprog⟩ := hstands
        simp [hprog]
      · simp [hstands]
    have hread : ∃ spec, command = .read spec ∧ spec.length = place.read.length := by
      unfold evictCommand at hcom
      simp only [hstage] at hcom
      split at hcom
      · split at hcom
        · cases hcom
        obtain ⟨a, -, ha⟩ := bind_ok hcom
        simp only [pure, Except.pure, Except.ok.injEq, Prod.mk.injEq] at ha
        exact ⟨_, ha.2.symm, rfl⟩
      simp only [Except.ok.injEq, Prod.mk.injEq] at hcom
      exact ⟨_, hcom.2.symm, rfl⟩
    obtain ⟨spec, rfl, hlen⟩ := hread
    by_cases hok : outcome = .succeeded
    · by_cases hb : bytes = place.read.length
      · simp [EvictPhase.settle, EvictPhase.untouched, hok, hb, hlen]
      · simp [EvictPhase.settle, EvictPhase.untouched, hok, hb, hlen, hp]
    · simp [EvictPhase.settle, EvictPhase.untouched, hok, hp]
  | unmapping =>
    simp only [Eviction.stands, hstage] at hstands
    have hp : p.progress ≠ .kept ∧ p.progress ≠ .released := by
      split at hstands <;> simp [hstands]
    rcases hback : place.backing with _ | _
    · simp [evictCommand, hstage, hback] at hcom
    simp only [evictCommand, hstage, hback, Except.ok.injEq, Prod.mk.injEq] at hcom
    obtain ⟨-, rfl⟩ := hcom
    by_cases hok : outcome = .succeeded
    · simp [EvictPhase.settle, hok]
    · simp [EvictPhase.settle, EvictPhase.untouched, hok, hp]
  | releasing =>
    rcases hback : place.backing with _ | _
    · simp [evictCommand, hstage, hback] at hcom
    simp only [evictCommand, hstage, hback, Except.ok.injEq, Prod.mk.injEq] at hcom
    obtain ⟨-, rfl⟩ := hcom
    intro hok
    simp [EvictPhase.settle, hok]

/-! ## Taking an operation's extent in hand -/

/-- The extent waits for the operation and for nothing else, and no call holds it. -/
structure InFlight (s : Scheduler) (work : List Work) (id : OperationId) (e : ExtentId) : Prop where
  free : grip work e = .free
  own : ∀ id' op, s.stageOp id' = some op → (op.extent = e ↔ id' = id)
  queued : e ∉ s.queued
  slotWaiters : e ∉ s.slotWaiters
  blocked : e ∉ s.blocked
  release : e ∉ s.releaseQueue

variable {work : List Work} {op : Operation}

theorem Good.flight (h : Good x s work none none) {stage : StageOp}
    (hstage : s.stageOp id = some stage) (hfree : grip work stage.extent = .free)
    (hload : ∀ l, s.loads.find? stage.extent = some l → l.operation = some id ∧ l.stage.opens = true)
    (hevict : ∀ v, s.evictions.find? stage.extent = some v →
      v.operation = some id ∧ v.stage.opens = true) : InFlight s work id stage.extent := by
  refine ⟨hfree, fun id' op' hop' => ⟨fun heq => ?_, ?_⟩, fun hmem => ?_, fun hmem => ?_,
    fun hmem => ?_, fun hmem => ?_⟩
  · obtain ⟨-, how⟩ := h.owned id' op' hop'
    unfold Owned at how
    rw [heq] at how
    split at how
    · obtain ⟨l, hl, hid⟩ := how
      exact some.inj (hid.symm.trans (hload l hl).1)
    obtain ⟨v, hv, hid⟩ := how
    exact some.inj (hid.symm.trans (hevict v hv).1)
  · rintro rfl
    cases hstage.symm.trans hop'
    rfl
  · obtain ⟨l, hl, hqueued⟩ := (h.queued.each _ hmem).2.2
    exact absurd (hload l hl).2 (by simp [hqueued, Stage.opens])
  · rcases (h.slotWaiters.each _ hmem).2.2 with ⟨l, hl, hslot⟩ | ⟨v, hv, hslot⟩
    · exact absurd (hload l hl).2 (by simp [hslot, Stage.opens])
    · exact absurd (hevict v hv).2 (by simp [hslot, EvictStage.opens])
  · rcases (h.blocked.each _ hmem).2.2 with ⟨l, hl, hnone, -⟩ | ⟨v, hv, hnone, -⟩
    · cases hnone.symm.trans (hload l hl).1
    · cases hnone.symm.trans (hevict v hv).1
  obtain ⟨v, hv, hnone, -⟩ := (h.release.each _ hmem).2.2
  cases hnone.symm.trans (hevict v hv).1

theorem Good.loadOp (h : Good x s work none none) (hf : s.find id = some op)
    (hkind : op.kind = .load) (hrun : op.quarantined = false) :
    ∃ l, s.loads.find? op.extent = some l ∧ l.operation = some id ∧
      LoadOk x s .free op.extent l ∧ InFlight s work id op.extent := by
  have hstage : s.stageOp id = some ⟨.load, op.extent, op.route, op.command⟩ := by
    simp [stageOp, hf, Operation.stage, hrun, hkind]
  obtain ⟨-, l, hl, hid⟩ := h.owned id _ hstage
  have hok := h.load op.extent l (by simp) hl
  obtain ⟨p, hp, -⟩ := hok.loading
  have hfree : grip work op.extent = .free := by
    by_contra hg
    cases (hok.held hg).symm.trans hid
  rw [hfree] at hok
  refine ⟨l, hl, hid, hok, h.flight hstage hfree (fun l' hl' => ?_) fun v hv => ?_⟩
  · cases hl.symm.trans hl'
    cases ho : l.stage.opens with
    | true => exact ⟨hid, rfl⟩
    | false => cases (hok.idle ho).symm.trans hid
  · cases hp.eviction.symm.trans hv

theorem Good.evictOp (h : Good x s work none none) (hf : s.find id = some op)
    (hkind : op.kind = .evict) (hrun : op.quarantined = false) :
    ∃ v, s.evictions.find? op.extent = some v ∧ v.operation = some id ∧
      EvictOk x s .free op.extent v ∧ InFlight s work id op.extent := by
  have hstage : s.stageOp id = some ⟨.evict, op.extent, op.route, op.command⟩ := by
    simp [stageOp, hf, Operation.stage, hrun, hkind]
  obtain ⟨-, v, hv, hid⟩ := h.owned id _ hstage
  have hok := h.eviction op.extent v (by simp) hv
  obtain ⟨place, p, hp, -⟩ := hok.evicting
  have hfree : grip work op.extent = .free := by
    by_contra hg
    cases (hok.held hg).symm.trans hid
  rw [hfree] at hok
  refine ⟨v, hv, hid, hok, h.flight hstage hfree (fun l hl => ?_) fun v' hv' => ?_⟩
  · cases hp.load.symm.trans hl
  · cases hv.symm.trans hv'
    cases ho : v.stage.opens with
    | true => exact ⟨hid, rfl⟩
    | false => cases (hok.idle ho).symm.trans hid

/-- The operation's record changed, or is gone, and no stage sees it any more. -/
structure Retires (id : OperationId) (e : ExtentId) (s s' : Scheduler) : Prop where
  entries : ∀ e', e' ≠ e → SameAt e' s s'
  ops : ∀ id', s'.stageOp id' = if id' = id then none else s.stageOp id'
  slots : s'.slots = s.slots
  queued : s'.queued = s.queued
  slotWaiters : s'.slotWaiters = s.slotWaiters
  blocked : s'.blocked = s.blocked
  release : s'.releaseQueue = s.releaseQueue

theorem Good.retire {slot : Option Nat} (h : Good x s rest none none)
    (hq : quiet rest) (hf : InFlight s rest id e) (hs : Retires id e s s')
    (hslot : ∀ i, slot = some i ↔ holdsSlot s e i) (hr : Catalog.Reachable s'.catalog)
    (hm : Mailboxes s'.board s'.operations s'.log) : Good x s' rest (some e) slot := by
  refine h.take ⟨hs.entries, fun id' op hop => ?_, fun id' op hop hne => ?_, hs.slots,
    ?_, ?_, ?_, ?_⟩ (.free hf.free) hq hslot hr hm
  · rw [hs.ops] at hop
    split at hop
    · cases hop
    rename_i hid
    exact ⟨hop, fun heq => hid ((hf.own id' op hop).mp heq)⟩
  · rw [hs.ops, if_neg fun heq => hne ((hf.own id' op hop).mpr heq)]
    exact hop
  · rw [hs.queued]; exact ⟨.refl _, hf.queued⟩
  · rw [hs.slotWaiters]; exact ⟨.refl _, hf.slotWaiters⟩
  · rw [hs.blocked]; exact ⟨.refl _, hf.blocked⟩
  · rw [hs.release]; exact ⟨.refl _, hf.release⟩

/-! ## Records of operations -/

theorem stageOp_set {cell : Option Operation}
    (hf : s.find id = some op) (hops : s'.operations = s.operations.set id.index cell)
    (hcell : ∀ op', cell = some op' → op'.id = id) (id' : OperationId) :
    s'.stageOp id' = if id' = id then cell.bind Operation.stage else s.stageOp id' := by
  obtain ⟨hop, hid, hvalid⟩ := find_eq_some.mp hf
  have hfind := find_set (s := s) hcell hvalid (List.getElem?_eq_some_iff.mp hop).1 (fun op' hop' => by
    cases some.inj (hop.symm.trans hop')
    exact hid) id'
  unfold stageOp
  have hsame : s'.find id' = find { s with operations := s.operations.set id.index cell } id' := by
    unfold find
    rw [hops]
  rw [hsame, hfind]
  split <;> rfl

theorem LoadPhase.settle_source (p : LoadPhase) (command : Command) (outcome : Outcome)
    (bytes : Nat) : (p.settle command outcome bytes).source = p.source := by
  unfold LoadPhase.settle
  split
  · cases command with
    | backing | read => simp only; split <;> rfl
    | _ => rfl
  · rfl

theorem EvictPhase.settle_place (p : EvictPhase) (command : Command) (outcome : Outcome)
    (bytes : Nat) : (p.settle command outcome bytes).place = p.place ∧
      (p.settle command outcome bytes).writeBack = p.writeBack ∧
      (p.settle command outcome bytes).handoff = p.handoff := by
  unfold EvictPhase.settle
  split
  · cases command with
    | backing | read => simp only; split <;> exact ⟨rfl, rfl, rfl⟩
    | _ => exact ⟨rfl, rfl, rfl⟩
  · exact ⟨rfl, rfl, rfl⟩

/-! ## Concluding -/

section Conclude

variable {op : Operation} {outcome : Outcome} {bytes : Nat} {proven : Bool}
  {board : CompletionBoard}

/-- The state `Conclude` goes on from: the mailbox closed, the record gone. -/
def concluded (s : Scheduler) (op : Operation) (outcome : Outcome) (bytes : Nat) (proven : Bool)
    (board : CompletionBoard) : Scheduler :=
  { s with
    board
    operations := s.operations.set op.id.index none
    log := .concluded op.id op.kind op.extent outcome bytes proven :: s.log }

theorem concluded_moves (outcome : Outcome) (bytes : Nat) (proven : Bool) (board : CompletionBoard)
    (hf : s.find op.id = some op) (hkind : op.kind = .load ∨ op.kind = .evict) :
    Moves x s [] (concluded s op outcome bytes proven board) [] := by
  refine .tail .refl (.keep (.mk rfl rfl rfl rfl) (sameWork_set (find_eq_some.mp hf).1 ?_ rfl)
    ⟨fun _ => rfl, fun _ => rfl⟩ rfl ⟨[_], rfl, ?_⟩)
  · rcases hkind with hkind | hkind <;> simp [Operation.work, hkind]
  · rcases hkind with hkind | hkind <;> simp [hkind, Event.staged]

theorem concluded_retires (hf : s.find op.id = some op)
    (hkind : op.kind = .load ∨ op.kind = .evict) :
    Retires op.id op.extent s (concluded s op outcome bytes proven board) := by
  refine ⟨fun e' hne => .of rfl rfl rfl rfl (phase_cons_of_ne _ ?_), fun id' => ?_, rfl, rfl, rfl,
    rfl, rfl⟩
  · rcases hkind with hkind | hkind <;> simpa [hkind, Event.about] using fun heq => hne heq.symm
  have hops : (concluded s op outcome bytes proven board).operations =
      s.operations.set op.id.index none := rfl
  exact stageOp_set hf hops (by simp) id'

section

variable (h : Good x s rest none none) (hq : quiet rest) (hf : s.find op.id = some op)
    (hrun : op.quarantined = false)
include h hq hf hrun

theorem concludeLoad_runs (hkind : op.kind = .load) (hproof : outcome = .succeeded → proven = true)
    (hm : Mailboxes board (s.operations.set op.id.index none) s.log) : Runs x s rest
      (onStage x (concluded s op outcome bytes proven board) op.extent outcome bytes) := by
  obtain ⟨l, hl, hid, hok, hfl⟩ := h.loadOp hf hkind hrun
  obtain ⟨p, hp, hreuse, hmap, hstands, hop⟩ := hok.loading
  simp only [Load.operates, hid] at hop
  obtain ⟨route, command, -, hcom, hpop⟩ := hop
  refine Runs.after (concluded_moves outcome bytes proven board hf (.inl hkind)) ?_
  have hgood : Good x (concluded s op outcome bytes proven board) rest (some op.extent) l.slot :=
    h.retire hq hfl (concluded_retires hf (.inl hkind)) (holdsSlot_load hl hp.eviction) h.reach
      (hm.cons (by simp))
  refine onStage_runs hgood hl (p := { p.settle command outcome bytes with operation := none })
    ⟨hp.eviction, hp.ticket, ?_, (LoadPhase.settle_source ..).trans hp.source⟩ rfl hok.flags
    (Load.settles outcome bytes hok.flags hstands hp.source hreuse hmap hcom)
  show phase op.extent (.concluded op.id op.kind op.extent outcome bytes proven :: s.log) = _
  rw [hkind, phase_cons _ rfl, hp.phase]
  by_cases hs : outcome = .succeeded
  · simp [Phase.step, LoadPhase.step, hpop, hs, hproof hs]
  · simp [Phase.step, LoadPhase.step, hpop, hs]

theorem concludeEvict_runs (hkind : op.kind = .evict)
    (hproof : outcome = .succeeded → proven = true)
    (hm : Mailboxes board (s.operations.set op.id.index none) s.log) : Runs x s rest
      (onEvicted x (concluded s op outcome bytes proven board) op.extent outcome bytes) := by
  obtain ⟨v, hv, hid, hok, hfl⟩ := h.evictOp hf hkind hrun
  obtain ⟨place, p, hp, hflags, hstands, hop⟩ := hok.evicting
  simp only [Eviction.operates, hid] at hop
  obtain ⟨route, command, -, hcom, hpop⟩ := hop
  refine Runs.after (concluded_moves outcome bytes proven board hf (.inr hkind)) ?_
  have hgood : Good x (concluded s op outcome bytes proven board) rest (some op.extent) v.slot :=
    h.retire hq hfl (concluded_retires hf (.inr hkind)) (holdsSlot_eviction hp.load hv) h.reach
      (hm.cons (by simp))
  obtain ⟨hplace, hwb, hhand⟩ := EvictPhase.settle_place p command outcome bytes
  refine onEvicted_runs hgood hv (p := { p.settle command outcome bytes with operation := none })
    ⟨hp.load, hp.ticket, hp.source, ?_, hplace.trans hp.placed, hwb.trans hp.writeBack,
      hhand.trans hp.handoff⟩ rfl hflags (Eviction.settles outcome bytes hstands hcom)
  show phase op.extent (.concluded op.id op.kind op.extent outcome bytes proven :: s.log) = _
  rw [hkind, phase_cons _ rfl, hp.phase]
  by_cases hs : outcome = .succeeded
  · simp [Phase.step, EvictPhase.step, hpop, hs, hproof hs]
  · simp [Phase.step, EvictPhase.step, hpop, hs]

end

end Conclude

/-! ## The task table's checks -/

/-- A computation that ends the process on no check but those `Fatal.outside` lists. -/
def Outside {α : Type} (call : Checked α) : Prop :=
  Sat (fun f => Fatal.outside f = true) (fun _ => True) call

theorem Outside.bind {α β : Type} {call : Checked α} {f : α → Checked β} (h : Outside call)
    (hf : ∀ a, Outside (f a)) : Outside (call >>= f) := Sat.bind h fun a _ => hf a

theorem modify_outside (t : TaskTable) (id : TaskId) (f : Task → Task) : Outside (t.modify id f) := by
  unfold TaskTable.modify
  split
  · rfl
  · trivial

theorem create_outside (t : TaskTable) (parent : Option TaskId) : Outside (t.create parent) := by
  unfold TaskTable.create
  cases t.parentError parent with
  | some => trivial
  | none =>
    simp only
    split
    · trivial
    rcases t.tasks.insert { view := { parent } } with _ | p
    · trivial
    simp only
    split
    · rcases parent with _ | parent
      · trivial
      refine Outside.bind ?_ fun _ => trivial
      refine Outside.bind ?_ fun found => Outside.bind (modify_outside _ _ _) fun t1 => ?_
      · cases p.2.find? parent with
        | none => rfl
        | some => trivial
      cases found.firstChild with
      | none => exact modify_outside _ _ _
      | some => exact (modify_outside _ _ _).bind fun _ => modify_outside _ _ _
    · rfl

theorem prepareOperation_outside (t : TaskTable) (id : TaskId) : Outside (t.prepareOperation id) := by
  unfold TaskTable.prepareOperation
  rcases t.tasks.find? id with _ | _
  · trivial
  simp only
  split
  · trivial
  split
  · trivial
  · rfl

theorem cancelWalk_outside (root : TaskId) (fuel : Nat) (walk : TaskTable.Walk)
    (tasks : SlotTable .task Task) : Outside (TaskTable.cancelWalk root fuel walk tasks) := by
  induction fuel generalizing walk tasks with
  | zero => exact rfl
  | succ fuel ih =>
    cases walk with
    | down id =>
      unfold TaskTable.cancelWalk
      rcases tasks.find? id with _ | task
      · rfl
      simp only
      cases task.firstChild with
      | none | some => exact ih _ _
    | climb id =>
      unfold TaskTable.cancelWalk
      split
      · trivial
      rcases tasks.find? id with _ | task
      · rfl
      simp only
      cases task.nextSibling with
      | none | some => exact ih _ _

theorem cancel_outside (t : TaskTable) (id : TaskId) : Outside (t.cancel id) := by
  unfold TaskTable.cancel
  cases t.tasks.find? id with
  | none => trivial
  | some => exact (cancelWalk_outside _ _ _ _).bind fun _ => trivial

theorem finish_outside (t : TaskTable) (id : TaskId) (outcome : TaskOutcome) :
    Outside (t.finish id outcome) := by
  unfold TaskTable.finish
  rcases t.tasks.find? id with _ | task
  · trivial
  simp only
  split
  · trivial
  rcases task.view.parent with _ | _
  · trivial
  simp only
  generalize (if task.view.cancelled = true ∧ outcome = .succeeded then .cancelled
    else outcome : TaskOutcome) = outcome
  split
  · exact (modify_outside _ _ _).bind fun _ => trivial
  · trivial

theorem retire_outside (t : TaskTable) (id : TaskId) : Outside (t.retire id) := by
  unfold TaskTable.retire
  rcases t.tasks.find? id with _ | task
  · trivial
  simp only
  split
  · trivial
  split
  · trivial
  rcases task.view.parent with _ | _
  · trivial
  refine Outside.bind ?_ fun _ => trivial
  unfold TaskTable.unlink
  cases task.previousSibling <;> cases task.nextSibling <;>
    refine Outside.bind (modify_outside _ _ _) fun t1 => ?_ <;>
    first
      | exact modify_outside _ _ _
      | exact (modify_outside _ _ _).bind fun _ => modify_outside _ _ _

theorem readyQueue_makeReady_outside (q : ReadyQueue) (t : TaskId) (priority : Nat) :
    Outside (q.makeReady t priority) := by
  unfold ReadyQueue.makeReady
  split
  · split
    · rfl
    split
    · trivial
    split
    · rfl
    split
    · trivial
    · rfl
  · rfl

/-! ## Requests' leases and tasks let go -/

variable {k : List Debt}

theorem expect_ends {α : Type} {P : Catalog.Result α × Catalog → Prop} {fatal : Fatal}
    {call : Checked (Catalog.Result α × Catalog)} (h : Sat Catalog.Own P call)
    (hf : (∃ error c, call = .ok (.error error, c)) → Ends x s k fatal) :
    Sat (Ends x s k) (fun y => call = .ok (.ok y.1, y.2) ∧ P (.ok y.1, y.2)) (expect fatal call) := by
  rcases call with _ | y
  · exact .ofOwn h
  obtain ⟨answer, c⟩ := y
  cases answer with
  | error error => exact hf ⟨error, c, rfl⟩
  | ok => exact ⟨rfl, h⟩

/-- What a function leaves that pays `k'` of what is owed: `Good`, and moves that owe no more. -/
def Leaves (x : Config) (s : Scheduler) (k k' : List Debt) (rest : List Work) :
    Checked Scheduler → Prop :=
  Sat (Ends x s k) fun s' => Good x s' rest none none ∧ Moves x s k s' k'

variable {k k1 k' : List Debt}

theorem Leaves.after {s1 : Scheduler}
    (hm : Moves x s k s1 k1) (h : Leaves x s1 k1 k' rest call) : Leaves x s k k' rest call :=
  Sat.mono h (fun _ hf => hf.after hm) fun _ hs' => ⟨hs'.1, hm.trans hs'.2⟩

theorem Leaves.bind {f : Scheduler → Checked Scheduler} (h : Leaves x s k k1 rest call)
    (hf : ∀ s1, Good x s1 rest none none → Leaves x s1 k1 k' rest (f s1)) :
    Leaves x s k k' rest (call >>= f) := by
  refine Sat.bind h ?_
  rintro s1 ⟨hgood, hm⟩
  exact (hf s1 hgood).after hm

theorem releaseHeld_leaves {lease : LeaseId} {held : Held}
    (h : Good x s rest none none) (found : s.held.find? lease = some held)
    (ending : held.ending = true) (hnone : held.operations = 0) :
    Leaves x s (.release lease :: k) k rest (s.releaseHeld lease held) := by
  refine Sat.bind (expect_ends (call_sat h.reach (.recordUse lease s.turn) rfl
    (recordUse_sat lease s.turn)) fun href => .ofFires (.used found href)) ?_
  rintro ⟨u, c1⟩ ⟨hused, ⟨-, halike⟩, hreach⟩
  refine Sat.bind (expect_ends (call_sat hreach (.releaseLease lease) rfl
    (releaseLease_sat lease)) fun href => .ofFires (.released found hused href)) ?_
  rintro ⟨u', c2⟩ ⟨hrel, hcase, hreach2⟩
  have htouch : Touches s.catalog c2 := by
    rcases hcase with ⟨-, heq⟩ | ⟨held', -, -, -, halike2⟩
    · rw [show c2 = c1 from heq]
      exact halike.touches
    · exact (halike.trans halike2).touches
  have hgood : Good x { s with
      catalog := c2, held := s.held.erase lease, log := .released lease :: s.log } rest none none :=
    Good.other (s := (({ s with catalog := c2 } : Scheduler).emit (.released lease)))
      ((h.touches htouch hreach2).emit rfl (h.mailboxes.cons (by simp))) rfl
  have hmove : Moves x s (.release lease :: k) { s with
      catalog := c2, held := s.held.erase lease, log := .released lease :: s.log }
      (wakes held.waiters ++ k) := .tail .refl (.release found ending hnone hused hrel)
  exact (wakeAll_moves held.waiters _).mono (fun f hf => hf.after hmove) fun s' hs' =>
    ⟨hgood.woken hs'.2, hmove.trans hs'.1⟩

theorem tryRetire_leaves (h : Good x s rest none none) (t : TaskId) :
    Leaves x s (.retire t :: k) k rest (s.tryRetire t) := by
  unfold tryRetire
  generalize s.records.length + 1 = fuel
  induction fuel generalizing s t with
  | zero => exact .inl rfl
  | succ fuel ih =>
    unfold retireFrom
    split
    next view r hview hr =>
      refine Sat.bind (P := fun y => s.tasks.retire t = .ok y) ?_ ?_
      · cases hret : s.tasks.retire t with
        | error => exact .inl ((retire_outside s.tasks t).err hret)
        | ok => exact rfl
      rintro ⟨answer, tasks⟩ hret
      rcases answer with error | _
      · exact ⟨h, .tail .refl (.task (.stay (.inr (.inr ⟨error, tasks, hret⟩))))⟩
      have hmove : Moves x s (.retire t :: k)
          { s with tasks, records := s.records.set t.index none }
          (view.parent.toList.map .retire ++ k) :=
        .tail .refl (.task (.retire hr hview hret))
      have hgood : Good x { s with tasks, records := s.records.set t.index none } rest none
          none := h.other rfl
      cases hpar : view.parent with
      | none =>
        rw [hpar] at hmove
        exact ⟨hgood, hmove⟩
      | some parent =>
        rw [hpar] at hmove
        exact Leaves.after hmove (ih hgood parent)
    next hnone =>
      refine ⟨h, .tail .refl (.task (.stay ?_))⟩
      rcases hview : s.tasks.describe t with _ | view
      · exact .inl rfl
      cases hr : s.record? t with
      | none => exact .inr (.inl rfl)
      | some r => exact absurd hr (hnone view r hview)

theorem wake_leaves {t : TaskId} (failed : Bool) (hgood : Good x s rest none none) :
    Leaves x s (.wake t :: k) k rest (s.wake t failed) := by
  cases hwake : s.wake t failed with
  | error => exact .ofFires (.wake hwake)
  | ok => exact ⟨hgood.woken ((wake_woken t failed).val hwake), .tail .refl (.wake t failed hwake)⟩

/-! ## Device and CPU work -/

section Work

variable {op work : Operation} {outcome : Outcome} {bytes : Nat} {proven : Bool}
    {b board : CompletionBoard}

theorem Operation.kind_of_work (h : op.work = some work) : op.kind = .device ∨ op.kind = .cpu := by
  unfold Operation.work at h
  cases hkind : op.kind <;> simp [hkind] at h ⊢

theorem Operation.stage_of_work (h : op.work = some work) : op.stage = none := by
  unfold Operation.stage
  rcases Operation.kind_of_work h with hkind | hkind <;> simp [hkind]

theorem Good.endWork {c : Catalog} {tasks : TaskTable} {held : OrdMap LeaseId Held}
    (h : Good x s rest none none) (hq : quiet rest) (hf : s.find op.id = some op)
    (hwork : op.work = some work) (ht : Touches s.catalog c) (hr : Catalog.Reachable c)
    (hm : Mailboxes board (s.operations.set op.id.index none) s.log) : Good x { s with
      board, tasks, held
      catalog := c
      operations := s.operations.set op.id.index none
      log := .concluded op.id op.kind op.extent outcome bytes proven :: s.log } rest none none := by
  refine h.same ⟨fun e _ => ⟨(ht e).steady, rfl, rfl, rfl, phase_cons_of_ne _ ?_⟩, fun id' => ?_, rfl,
    .refl _, .refl _, .refl _, .refl _⟩ hr
    (hm.cons (by simp)) fun id hid => absurd (List.mem_of_mem_head? hid) (hq id)
  · rcases Operation.kind_of_work hwork with hkind | hkind <;> simp [hkind, Event.about]
  have hops : ({ s with operations := s.operations.set op.id.index none } : Scheduler).operations =
      s.operations.set op.id.index none := rfl
  refine (stageOp_set hf hops (by simp) id').trans ?_
  split
  next heq =>
    rw [heq]
    simp [stageOp, hf, Operation.stage_of_work hwork]
  · rfl

theorem wakeRetire_leaves {t : TaskId} (failed : Bool) (hgood : Good x s rest none none) :
    Leaves x s [.wake t, .retire t] [] rest (do
      let s ← s.wake t failed
      s.tryRetire t) :=
  (wake_leaves failed hgood).bind fun _ hgood => tryRetire_leaves hgood t

theorem concludeWork_leaves (h : Good x s rest none none) (hq : quiet rest)
    (hf : s.find op.id = some op) (hrun : op.quarantined = false) (hwork : op.work = some work)
    (hm : Mailboxes board (s.operations.set op.id.index none) s.log) :
    Leaves x s [] [] rest (concludeWork { s with
      board, log := .concluded op.id op.kind op.extent outcome bytes proven :: s.log } op outcome) := by
  have hret : Sat (Ends x s []) (fun y => s.tasks.retireOperation op.task = .ok y)
      (s.tasks.retireOperation op.task) := by
    cases hreti : s.tasks.retireOperation op.task with
    | error => exact .ofFires (.retires hf hwork hrun (.inl hreti))
    | ok => exact rfl
  unfold concludeWork
  cases hheld : op.held with
  | none =>
    rcases hlease : op.lease with _ | lease
    · refine .ofFires (.lease hf hwork hrun hheld fun lease hsome => ?_)
      cases hlease.symm.trans hsome
    simp only [require, ok_bind, pure_bind]
    refine Sat.bind (expect_ends (call_sat h.reach (.releaseLease lease) rfl
      (releaseLease_sat lease)) fun href => .ofFires (.lease hf hwork hrun hheld ?_)) ?_
    · intro lease' hsome
      cases hlease.symm.trans hsome
      exact href
    rintro ⟨u, c⟩ ⟨hrel, hcase, hreach⟩
    have htouch : Touches s.catalog c := by
      rcases hcase with ⟨-, heq⟩ | ⟨found, -, -, -, halike⟩
      · rw [show c = s.catalog from heq]
        exact fun _ => .refl _
      · exact halike.touches
    refine Sat.bind hret ?_
    rintro ⟨answer, tasks⟩ hretired
    rcases answer with error | _
    · exact .ofFires (.retires hf hwork hrun (.inr ⟨error, tasks, hretired⟩))
    have hmove : Moves x s [] { s with
        board, tasks
        catalog := c
        operations := s.operations.set op.id.index none
        log := .concluded op.id op.kind op.extent outcome bytes proven :: s.log }
        ([] ++ [.wake op.task, .retire op.task]) := by
      refine .tail .refl (.endWork hf hwork hrun hretired (fun _ => ⟨lease, hlease, hrel⟩)
        (fun hne => absurd hheld hne) rfl ?_)
      rw [hheld]
      exact ⟨rfl, rfl⟩
    exact Leaves.after hmove (wakeRetire_leaves _ (h.endWork hq hf hwork htouch hreach hm))
  | some lease =>
    simp only [pure_bind]
    refine Sat.bind hret ?_
    rintro ⟨answer, tasks⟩ hretired
    rcases answer with error | u'
    · exact .ofFires (.retires hf hwork hrun (.inr ⟨error, tasks, hretired⟩))
    simp only
    unfold concludeHeld eraseOperation
    rcases hfound : s.held.find? lease with _ | held
    · refine .ofFires (.counted hf hwork hrun hheld fun held hsome => ?_)
      cases hfound.symm.trans hsome
    simp only
    split
    next hcount =>
      have hgood : Good x { s with
          board, tasks
          operations := s.operations.set op.id.index none
          log := .concluded op.id op.kind op.extent outcome bytes proven :: s.log
          held := s.held.insert lease { held with operations := held.operations - 1 } }
          rest none none :=
        h.endWork hq hf hwork (fun _ => .refl _) h.reach hm
      have hmove : Moves x s [] { s with
          board, tasks
          operations := s.operations.set op.id.index none
          log := .concluded op.id op.kind op.extent outcome bytes proven :: s.log
          held := s.held.insert lease { held with operations := held.operations - 1 } }
          ({ held with operations := held.operations - 1 }.due lease ++
            [.wake op.task, .retire op.task]) := by
        refine .tail .refl (.endWork hf hwork hrun hretired (fun hne => absurd (hheld.symm.trans hne)
          (by simp)) (fun _ => rfl) rfl ?_)
        rw [hheld]
        exact ⟨held, hfound, hcount, rfl, rfl⟩
      split
      next hend =>
        -- The request's lease goes with its last operation, then the task is woken.
        rw [Held.due, if_pos hend] at hmove
        exact Leaves.after hmove ((releaseHeld_leaves hgood (OrdMap.find?_insert_self ..) hend.1
          hend.2).bind fun _ hgood1 => wakeRetire_leaves _ hgood1)
      rename_i hend
      rw [Held.due, if_neg hend] at hmove
      exact Leaves.after hmove (wakeRetire_leaves _ hgood)
    next hcount =>
      refine .ofFires (.counted hf hwork hrun hheld fun held' hsome => ?_)
      cases hfound.symm.trans hsome
      exact Nat.eq_zero_of_not_pos hcount

/-! ## Quarantining, concluding, rolling back -/

/-- The state `Quarantine` goes on from. -/
def quarantining (s : Scheduler) (op : Operation) (fault : Fault) : Scheduler :=
  { s.setOperation { op with quarantined := true } with
    quarantined := s.quarantined + 1
    log := .quarantined op.id :: s.log }.fail fault

theorem quarantine_eq (s : Scheduler) (op : Operation) (fault : Fault) :
    s.quarantine op fault = match op.kind with
      | .load => (quarantining s op fault).quarantineLoad op.extent fault
      | .evict => (quarantining s op fault).quarantineEvicting op.extent fault
      | .device | .cpu => do return (← (quarantining s op fault).wake op.task true, []) := rfl

theorem quarantining_boxes (h : Good x s rest none none) (hf : s.find op.id = some op)
    (hpub : op.published = true) (fault : Fault) :
    Mailboxes (quarantining s op fault).board (quarantining s op fault).operations
      (quarantining s op fault).log := by
  obtain ⟨hop, -, -⟩ := find_eq_some.mp hf
  have hset : Mailboxes s.board
      (s.operations.set op.id.index (some { op with quarantined := true })) s.log :=
    h.mailboxes.setRecord hop rfl (fun hpub => hpub)
      ⟨(h.mailboxes.asked _ op hop).1, fun _ => hpub⟩ (fun _ hmem => hmem)
      fun _ _ hmem => .inl hmem
  exact hset.cons (by simp)

section

variable (hf : s.find op.id = some op) (fault : Fault)
include hf fault

theorem quarantining_ops (id' : OperationId) :
    (quarantining s op fault).stageOp id' = if id' = op.id then none else s.stageOp id' := by
  have hops : (quarantining s op fault).operations =
      s.operations.set op.id.index (some { op with quarantined := true }) := rfl
  refine (stageOp_set hf hops (fun op' hop' => ?_) id').trans ?_
  · exact (some.inj hop') ▸ rfl
  · simp [Operation.stage]

theorem quarantining_moves (hkind : op.kind = .load ∨ op.kind = .evict) :
    Moves x s [] (quarantining s op fault) [] := by
  refine .tail .refl (.keep ⟨rfl, rfl, rfl, rfl, by simp [quarantining, Scheduler.fail]⟩
    (sameWork_set (find_eq_some.mp hf).1
    (c := some { op with quarantined := true }) ?_ rfl)
    ⟨fun _ => rfl, fun _ => rfl⟩ rfl ⟨[_], rfl, by simp [Event.staged]⟩)
  rcases hkind with hkind | hkind <;> simp [Operation.work, hkind]

theorem quarantining_retires : Retires op.id op.extent s (quarantining s op fault) :=
  ⟨fun _ _ => .of rfl rfl rfl rfl (phase_cons_of_ne _ (by simp [Event.about])),
    quarantining_ops hf fault, rfl, rfl, rfl, rfl, rfl⟩

end

theorem quarantine_runs (h : Good x s rest none none) (hq : quiet rest)
    (hf : s.find op.id = some op) (hrun : op.quarantined = false) (hpub : op.published = true)
    (fault : Fault) : Runs x s rest (s.quarantine op fault) := by
  have hboxes := quarantining_boxes h hf hpub fault
  -- Device or CPU work: nothing of a stage changes, and its task is woken.
  have hwork : ∀ work, op.work = some work →
      Runs x s rest (do return (← (quarantining s op fault).wake op.task true, [])) := by
    intro work hwork
    have hgood : Good x (quarantining s op fault) rest none none := by
      refine h.same ⟨fun _ _ => .of rfl rfl rfl rfl (phase_cons_of_ne _ (by simp [Event.about])),
        fun id' => ?_, rfl, .refl _, .refl _, .refl _,
        .refl _⟩ h.reach hboxes fun id hid => absurd (List.mem_of_mem_head? hid) (hq id)
      rw [quarantining_ops hf]
      split
      next heq =>
        rw [heq]
        simp [stageOp, hf, Operation.stage_of_work hwork]
      · rfl
    exact Sat.bind (Leaves.after (.tail .refl (.loseWork fault hf hwork hrun))
      (wake_leaves true hgood)) fun _ hs' => hs'
  rw [quarantine_eq]
  split <;> rename_i hkind
  · obtain ⟨l, hl, -, hok, hfl⟩ := h.loadOp hf hkind hrun
    obtain ⟨p, hp, -⟩ := hok.loading
    have hphase : phase op.extent (quarantining s op fault).log = phase op.extent s.log :=
      phase_cons_of_ne _ (by simp [Event.about])
    refine Runs.after (quarantining_moves hf fault (.inl hkind)) (quarantineLoad_runs
      (h.retire hq hfl (quarantining_retires hf fault) (holdsSlot_load hl hp.eviction) h.reach
        hboxes) hl (hp.same (.of rfl rfl rfl rfl hphase)) fault)
  · obtain ⟨v, hv, -, hok, hfl⟩ := h.evictOp hf hkind hrun
    obtain ⟨place, p, hp, hflags, -⟩ := hok.evicting
    have hphase : phase op.extent (quarantining s op fault).log = phase op.extent s.log :=
      phase_cons_of_ne _ (by simp [Event.about])
    refine Runs.after (quarantining_moves hf fault (.inr hkind)) (quarantineEvicting_runs
      (h.retire hq hfl (quarantining_retires hf fault) (holdsSlot_eviction hp.load hv) h.reach
        hboxes) hv (hp.same (.of rfl rfl rfl rfl hphase)) hflags.2.1 fault)
  · exact hwork { op with published := false } (by simp [Operation.work, hkind])
  · exact hwork { op with published := false } (by simp [Operation.work, hkind])

theorem conclude_eq (hclose : b.close op.id = (true, board)) :
    conclude x { s with board := b } op outcome bytes proven = match op.kind with
      | .load => onStage x (concluded s op outcome bytes proven board) op.extent outcome bytes
      | .evict => onEvicted x (concluded s op outcome bytes proven board) op.extent outcome bytes
      | .device | .cpu => do
        return (← concludeWork { s with
          board, log := .concluded op.id op.kind op.extent outcome bytes proven :: s.log }
          op outcome, []) := by
  unfold conclude concluded
  simp only [hclose]
  cases op.kind <;> rfl

section

variable (h : Good x s rest none none) (hq : quiet rest) (hf : s.find op.id = some op)
    (hrun : op.quarantined = false)
include h hq hf hrun

theorem concluded_runs (hproof : outcome = .succeeded → proven = true)
    (hm : Mailboxes board (s.operations.set op.id.index none) s.log)
    (hclose : b.close op.id = (true, board)) :
    Runs x s rest (conclude x { s with board := b } op outcome bytes proven) := by
  rw [conclude_eq hclose]
  split <;> rename_i hkind
  · exact concludeLoad_runs h hq hf hrun hkind hproof hm
  · exact concludeEvict_runs h hq hf hrun hkind hproof hm
  · exact Sat.bind (concludeWork_leaves h hq hf hrun
      (show op.work = some { op with published := false } by simp [Operation.work, hkind]) hm) fun _ hs' => hs'
  exact Sat.bind (concludeWork_leaves h hq hf hrun
    (show op.work = some { op with published := false } by simp [Operation.work, hkind]) hm) fun _ hs' => hs'

theorem conclude_runs (hpub : op.published = true) (hproof : outcome = .succeeded → proven = true) :
    Runs x s rest (conclude x s op outcome bytes proven) := by
  obtain ⟨hop, -, -⟩ := find_eq_some.mp hf
  cases hclose : s.board.close op.id with
  | mk closed =>
    cases closed with
    | true => exact concluded_runs h hq hf hrun hproof (h.mailboxes.close hop rfl hclose) hclose
    | false =>
      unfold conclude
      rw [hclose]
      exact quarantine_runs h hq hf hrun hpub .contradiction

theorem rollBack_runs (hpub : op.published = false) : Runs x s rest (rollBack x s op) := by
  obtain ⟨hop, -, hvalid⟩ := find_eq_some.mp hf
  refine Sat.bind (Sat.allow (h.mailboxes.acceptNotStarted hop rfl hvalid hpub) ?_) ?_
  · rintro f (rfl | rfl) <;> exact .inl rfl
  rintro ⟨published, board1⟩ ⟨hrec, board, hclose, hm⟩
  simp only at hrec hclose
  simp only [check, hrec, decide_true, if_true, ok_bind]
  exact concluded_runs h hq hf hrun (by simp) hm hclose

end

def Observation.told (seen : Observation) (log : List Event) : Prop :=
  (seen.acceptance = .none ∧ seen.terminal = none ∧ seen.contradictory = false) ∨
    ∃ command, Event.took seen.operation command ∈ log

theorem observe_runs (h : Good x s rest none none) (hq : quiet rest) (seen : Observation)
    (htold : seen.told s.log) : Runs x s rest (observe x s seen) := by
  unfold observe
  rcases hf : s.find seen.operation with _ | op
  · exact ⟨h, .refl⟩
  obtain ⟨hop, hid, -⟩ := find_eq_some.mp hf
  rw [← hid] at hf
  simp only
  split
  · exact ⟨h, .refl⟩
  rename_i hrun
  have hrun : op.quarantined = false := by simpa using hrun
  rcases htold with ⟨hacc, hterm, hcon⟩ | ⟨command, hmem⟩
  · simp only [hacc, hterm, hcon]
    exact ⟨h, .refl⟩
  have hpub : op.published = true := h.mailboxes.published hop (hid ▸ hmem)
  split
  · exact quarantine_runs h hq hf hrun hpub .contradiction
  split
  · exact conclude_runs h hq hf hrun hpub (by simp)
  split
  · exact ⟨h, .refl⟩
  · exact ⟨h, .refl⟩
  split
  · exact quarantine_runs h hq hf hrun hpub .unproven
  rename_i hproof
  exact conclude_runs h hq hf hrun hpub fun _ => by simpa using hproof

/-! ## Publishing -/

theorem taken_runs (h : Good x s rest none none) (hq : quiet rest) (hf : s.find op.id = some op) :
    Good x (s.taken op) rest none none ∧ Moves x s [] (s.taken op) [] := by
  obtain ⟨hop, -, -⟩ := find_eq_some.mp hf
  constructor
  · refine h.same ⟨fun _ _ => .of rfl rfl rfl rfl (phase_cons_of_ne _ (by simp [Event.about])),
      fun id' => ?_, rfl, .refl _, .refl _, .refl _,
      .refl _⟩ h.reach (h.mailboxes.taken hop rfl (by rfl) rfl op.command)
      fun id hid => absurd (List.mem_of_mem_head? hid) (hq id)
    have hops : (s.taken op).operations =
        s.operations.set op.id.index (some { op with published := true }) := rfl
    refine (stageOp_set hf hops (fun op' hop' => (some.inj hop') ▸ rfl) id').trans ?_
    split
    next heq =>
      rw [heq]
      simp [stageOp, hf, Operation.stage]
    · rfl
  refine .tail .refl (.keep (.mk rfl rfl rfl rfl) (sameWork_set hop
    (c := some { op with published := true }) ?_ rfl) ⟨fun _ => rfl, fun _ => rfl⟩ rfl
    ⟨[_], rfl, by simp [Event.staged]⟩)
  simp only [bind_some, Operation.work]

theorem setPending_runs (h : Good x s rest none none) (route : Route) (ids : List OperationId) :
    Good x (s.setPending route ids) rest none none ∧ Moves x s [] (s.setPending route ids) [] :=
  ⟨h.other rfl, .idle rfl⟩

theorem publish_runs {id : OperationId} (h : Good x s (.publish id :: rest) none none)
    (answer : PushResult) : Runs x s rest (publish x s id answer) := by
  have hq : quiet rest := h.calls.2.1
  obtain ⟨op, hf, hpub, hrun⟩ := h.calls.2.2 id rfl
  replace h : Good x s rest none none := h.drop rfl
  have hid := (find_eq_some.mp hf).2.1
  unfold publish
  rw [hf]
  simp only [require, ok_bind]
  rw [← hid] at hf
  split
  · exact setPending_runs h op.route _
  split
  · exact taken_runs h hq hf
  · exact setPending_runs h op.route _
  · exact rollBack_runs h hq hf hrun hpub

theorem runWork_runs {w : Scheduler.Work} (h : Good x s (w :: rest) none none) (answer : PushResult) :
    Runs x s rest (runWork x s answer w) := by
  cases w with
  | publish => exact publish_runs h answer
  | proceed => exact proceed_runs h
  | unwind => exact unwindCall_runs h
  | endLoad => exact endLoadCall_runs h
  | startQueued => exact startQueued_runs h
  | proceedEviction => exact proceedEviction_runs h
  | wroteBack => exact wroteBackCall_runs h
  | abandon => exact abandonCall_runs h
  | pumpReleases => exact pumpRelease_runs h

end Work
end JitLlm.Scheduler
