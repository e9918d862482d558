import JitLlm.Scheduler.Basic

/-!
# `scheduler/pagein.cc` — the stages of page-ins and evictions

A load runs in stages, each an operation of its own, and moves from one to the next only on what
the previous stage's completion proved; an eviction likewise. A function that enters a stage does
so last, so the calls it ends in are its answer's `Work`.
-/

namespace JitLlm.Scheduler

open Base Lib
open Catalog hiding Operation

variable (x : Config) (s : Scheduler)

/-! ## Loads -/

def backingRoute : Route := if x.lanes.backing then .backing else .device

def copyRoute : Route := if x.lanes.copy then .copy else .device

def canCopy : Bool := x.lanes.copy || x.lanes.device

/-- `settings_.landing.slots.at(slot)`. -/
def slotAddress (slot : Nat) : Checked Nat := require .noEntry x.settings.landing.slots[slot]?

def quarantineLoad (e : ExtentId) (fault : Fault) : Ran :=
  let s := s.fail fault
  match s.loads.find? e with
  | none => .ok (s, [])
  | some load => do
    let slots ← s.quarantineSlot load.slot
    let ((), catalog) ← expect .quarantineLoad (s.catalog.failLoad load.ticket false)
    let s := { s with
      catalog, slots
      log := .lost e :: s.log
      loads := s.loads.erase e
      queued := remove s.queued e
      slotWaiters := remove s.slotWaiters e
      blocked := remove s.blocked e }
    let s ← s.wakeAll load.waiters fun _ => true
    let s := { s with started := if load.started then s.started - 1 else s.started }
    return (s, [.startQueued])

/-- The command a load's stage publishes, and the lane it goes to (`OpenStage`'s switch). -/
def stageCommand (load : Load) : Checked (Route × Command) :=
  match load.stage with
  | .mapping | .unmapping | .releasing =>
    match load.source.backing with
    | none => .error .mapUnmanaged
    | some place =>
      .ok (backingRoute x, .backing
        { kind := match load.stage with
            | .mapping => .map
            | .releasing => .release
            | _ => .unmap
          reservation := place.reservation
          offset := place.offset
          size := place.size
          allocationClass := place.allocationClass
          reuse := load.stage = .mapping && load.reuse })
  | .reading =>
    if load.source.landed then
      match load.slot with
      | none => .error .readNoSlot
      | some slot => do
        return (.storage, .read { load.source.read with memory := ← slotAddress x slot })
    else .ok (.storage, .read load.source.read)
  | .copying =>
    match load.slot with
    | none => .error .copyNoSlot
    | some slot => do
      let address ← slotAddress x slot
      let copies := match load.source.pieces with
        | [] => [⟨load.source.destination, address, load.source.read.length⟩]
        | pieces => pieces.map fun p => ⟨p.destination, address + p.slotOffset, p.length⟩
      return (copyRoute x, .copies { stream := x.settings.landing.stream, copies })
  | .queued | .slot => .error .openWaiting

/-- `OpenStage`; `none` is its `false`: no mailbox is free. -/
def openStage (e : ExtentId) (load : Load) : Checked (Option (Scheduler × List Work)) :=
  if s.board.available = 0 then
    if s.noMailboxEver then do return some (← s.quarantineLoad e .exhausted)
    else return none
  else do
    let (route, command) ← stageCommand x load
    let (id, s) ← s.openOperation fun id => { id, kind := .load, route, extent := e, command }
    return some (s.setLoad e { load with operation := some id }, [.publish id])

/-- A stage entered: opened, or left in `blocked_` for a later turn to retry. -/
def openOrBlock (e : ExtentId) (load : Load) : Ran := do
  match ← openStage x s e load with
  | some ran => return ran
  | none => return ({ s with blocked := s.blocked ++ [e] }, [])

def endLoad (e : ExtentId) (loaded : Bool) : Ran := do
  let load ← require .endNotInFlight (s.loads.find? e)
  check (load.slot.isNone && (loaded || !load.mapped) && !load.reuse) .endHolding
  let ((), catalog) ← expect .settleLoad
    (if loaded then s.catalog.completeLoad load.ticket else s.catalog.failLoad load.ticket true)
  let s := { s with
    catalog
    loads := s.loads.erase e
    log := (if loaded then .resident e else .failed e) :: s.log }
  -- One that joined after every other waiter left waited for the drain, not the contents.
  let s ← s.wakeAll load.waiters fun _ => !loaded && !load.cancelling
  let s := { s with started := if load.started then s.started - 1 else s.started }
  return (s, [.startQueued])

/-- `Unwind`: what the load mapped or took is given back before it ends. -/
def unwind (e : ExtentId) : Ran := do
  let load ← require .noEntry (s.loads.find? e)
  let load := { load with failed := true }
  if !load.mapped && !load.reuse then endLoad (s.setLoad e load) e false
  else
    let load := { load with stage := if load.mapped then .unmapping else .releasing }
    openOrBlock x (s.setLoad e load) e load

/-- The next in `slot_waiters_` that takes a slot freed, and the queue without those before it:
    a withdrawn load starts no read, and its `CancelPageIn` unwinds it. -/
def nextSlotWaiter : List ExtentId → Option Work × List ExtentId
  | [] => (none, [])
  | e :: rest =>
    if (s.loads.find? e).any (!·.cancelling) then (some (.proceed e), rest)
    else if (s.evictions.find? e).any (·.stage = .slot) then (some (.proceedEviction e), rest)
    else nextSlotWaiter rest

/-- `FreeSlot`: the slot goes to the next that waits for one. -/
def freeSlot (slot : Nat) : Ran :=
  if s.slots[slot]? = some .busy then
    let (next, slotWaiters) := s.nextSlotWaiter s.slotWaiters
    .ok ({ s with slots := s.slots.set slot .free, slotWaiters }, next.toList)
  else .error .freeNotBusy

/-- `OnStage`: a stage of the load ended, with an outcome known. -/
def onStage (e : ExtentId) (outcome : Outcome) (bytes : Nat) : Ran := do
  let load ← require .lostLoad (s.loads.find? e)
  let load := { load with operation := none }
  let succeeded := outcome = .succeeded
  match load.stage with
  | .mapping =>
    if ¬ succeeded then unwind x (s.setLoad e load) e
    else
      let load := { load with mapped := load.source.backing.isSome, reuse := false }
      if load.cancelling then unwind x (s.setLoad e load) e
      else if load.source.landed then
        return (s.setLoad e { load with stage := .slot }, [.proceed e])
      else
        let load := { load with stage := .reading }
        openOrBlock x (s.setLoad e load) e load
  | .reading =>
    -- Published only if the read moved the whole range.
    let whole := succeeded ∧ bytes = load.source.read.length
    if load.source.landed = false then
      if whole then endLoad (s.setLoad e load) e true
      else unwind x (s.setLoad e { load with failed := true }) e
    else if whole ∧ load.cancelling = false then
      let load := { load with stage := .copying }
      openOrBlock x (s.setLoad e load) e load
    else do
      let slot ← require .pastReadNoSlot load.slot
      let (s, freed) ← freeSlot (s.setLoad e { load with slot := none, failed := true }) slot
      return (s, freed ++ [.unwind e])
  | .copying => do
    -- The copy's fence has completed, or it never started: the slot is free.
    let slot ← require .pastReadNoSlot load.slot
    let (s, freed) ← freeSlot (s.setLoad e { load with slot := none }) slot
    return (s, freed ++ [if succeeded then .endLoad e else .unwind e])
  | .unmapping =>
    if succeeded then endLoad (s.setLoad e { load with mapped := false }) e false
    else quarantineLoad (s.setLoad e load) e .backing
  | .releasing =>
    if succeeded then endLoad (s.setLoad e { load with reuse := false }) e false
    else quarantineLoad (s.setLoad e load) e .backing
  | .queued | .slot => .error .stageWaits

/-- `Proceed`: the load's next stage, from where it stands. -/
def proceed (e : ExtentId) : Ran :=
  match s.loads.find? e with
  | none => .ok (s, [])
  | some load =>
    match load.stage with
    | .queued =>
      -- Starting: counted among the landed loads in flight.
      let started := if load.source.landed then s.started + 1 else s.started
      let load := { load with
        started := load.started || load.source.landed
        stage := .mapping }
      let s := { s with started }.setLoad e load
      if load.source.backing.isSome then openOrBlock x s e load
      else onStage x s e .succeeded 0
    | .slot =>
      match s.freeSlot? with
      | none => .ok ({ s with slotWaiters := s.slotWaiters ++ [e] }, [])
      | some slot =>
        let load := { load with slot := some slot, stage := .reading }
        let s := { s with slots := s.slots.set slot .busy }.setLoad e load
        openOrBlock x s e load
    | _ => .error .proceedStage

/-- One turn of `StartQueued`'s loop. -/
def startQueued : Ran :=
  match s.queued with
  | [] => .ok (s, [])
  | e :: queued =>
    if s.started < 2 * s.slots.length then
      let s := { s with queued }
      if (s.loads.find? e).any (!·.cancelling) then .ok (s, [.proceed e, .startQueued])
      else .ok (s, [.startQueued])
    else .ok (s, [])

/-! ## Evictions -/

/-- `PumpReleases`: nothing if its loop is running already. -/
def pumpReleases : Scheduler × List Work :=
  if s.pumpingReleases then (s, []) else ({ s with pumpingReleases := true }, [.pumpReleases])

def releaseDone (eviction : Eviction) : Scheduler × List Work :=
  if eviction.releaseOpen then pumpReleases { s with releasesOpen := s.releasesOpen - 1 }
  else (s, [])

def endEviction (e : ExtentId) (evicted : Bool) : Ran := do
  let eviction ← require .evictNotInFlight (s.evictions.find? e)
  check eviction.slot.isNone .evictHolding
  let ((), catalog) ← expect .settleEvict
    (if evicted then s.catalog.completeEvict eviction.ticket
     else s.catalog.cancelEvict eviction.ticket)
  let s := { s with
    catalog
    evictions := s.evictions.erase e
    log := (if evicted then .evicted e eviction.writeBack else .abandoned e) :: s.log }
  -- Only the evictor is told of a refusal.
  let s ← s.wakeAll eviction.waiters fun t => !evicted && t = eviction.evictor
  return s.releaseDone eviction

def quarantineEvicting (e : ExtentId) (fault : Fault) : Ran :=
  let s := s.fail fault
  match s.evictions.find? e with
  | none => .ok (s, [])
  | some eviction => do
    let slots ← s.quarantineSlot eviction.slot
    let ((), catalog) ← expect .quarantineEvict (s.catalog.quarantineEviction eviction.ticket)
    let s := { s with
      catalog, slots
      log := .lost e :: s.log
      evictions := s.evictions.erase e
      slotWaiters := remove s.slotWaiters e
      blocked := remove s.blocked e
      releaseQueue := remove s.releaseQueue e }
    let s ← s.wakeAll eviction.waiters fun _ => true
    return s.releaseDone eviction

/-- The command an eviction's stage publishes, and the lane it goes to (`OpenEvictStage`'s
    switch). -/
def evictCommand (eviction : Eviction) (place : PageSource) : Checked (Route × Command) :=
  match eviction.stage with
  | .copyOut =>
    match eviction.slot with
    | none => .error .copyOutNoSlot
    | some slot => do
      let address ← slotAddress x slot
      return (copyRoute x, .copies
        { stream := x.settings.landing.stream
          copies := [⟨address, place.destination, place.read.length⟩] })
  | .writing =>
    if place.landed then
      match eviction.slot with
      | none => .error .writeNoSlot
      | some slot => do
        return (.storage,
          .read { place.read with kind := .write, memory := ← slotAddress x slot })
    else .ok (.storage, .read { place.read with kind := .write })
  | .unmapping | .releasing =>
    match place.backing with
    | none => .error .unmapUnmanaged
    | some backing =>
      .ok (backingRoute x, .backing
        { kind := if eviction.stage = .unmapping then .unmap else .release
          reservation := backing.reservation
          offset := backing.offset
          size := backing.size
          allocationClass := backing.allocationClass
          retain := eviction.stage = .unmapping && eviction.handoff })
  | .slot | .parked => .error .evictOpenWaiting

/-- `OpenEvictStage`; `none` is its `false`: no mailbox is free. One that can never get a mailbox
    is abandoned, unless it is to release kept backing, which then stays charged. -/
def openEvictStage (e : ExtentId) (eviction : Eviction) :
    Checked (Option (Scheduler × List Work)) :=
  if s.board.available = 0 then
    if s.noMailboxEver = false then return none
    else if eviction.stage = .releasing then do
      return some (← s.quarantineEvicting e .exhausted)
    else if eviction.stage = .unmapping ∧ eviction.writeBack = false then do
      return some (← s.endEviction e false)
    else match eviction.slot with
      | none => do return some (← s.endEviction e false)
      | some slot => do
        let (s, freed) ← freeSlot (s.setEviction e { eviction with slot := none }) slot
        return some (s, freed ++ [.abandon e])
  else do
    let place ← require .noEntry (s.sources.find? e)
    let (route, command) ← evictCommand x eviction place
    let (id, s) ← s.openOperation fun id => { id, kind := .evict, route, extent := e, command }
    return some (s.setEviction e { eviction with operation := some id }, [.publish id])

/-- As `openOrBlock`, for an eviction's stage. -/
def openEvictOrBlock (e : ExtentId) (eviction : Eviction) : Ran := do
  match ← openEvictStage x s e eviction with
  | some ran => return ran
  | none => return ({ s with blocked := s.blocked ++ [e] }, [])

/-- `ProceedEviction`: a write-back's slot, in order. -/
def proceedEviction (e : ExtentId) : Ran :=
  match s.evictions.find? e with
  | none => .ok (s, [])
  | some eviction =>
    if eviction.stage = .slot then
      match s.freeSlot? with
      | none => .ok ({ s with slotWaiters := s.slotWaiters ++ [e] }, [])
      | some slot =>
        let eviction := { eviction with slot := some slot, stage := .copyOut }
        let s := { s with slots := s.slots.set slot .busy }.setEviction e eviction
        openEvictOrBlock x s e eviction
    else .error .writeBackPast

/-- The extents of parked evictions `task` asked for; with none, of every one. -/
def parkedBy (task : Option TaskId) : List ExtentId :=
  (s.evictions.entries.filter fun p =>
    p.2.stage = .parked && (task.isNone || task = some p.2.evictor)).map Prod.fst

/-- `ReleaseParked`'s step for one extent. -/
def queueRelease (s : Scheduler) (e : ExtentId) : Checked Scheduler := do
  let eviction ← require .noEntry (s.evictions.find? e)
  return { s.setEviction e { eviction with stage := .releasing } with
    parkedCount := s.parkedCount - 1
    releaseQueue := s.releaseQueue ++ [e] }

def releaseParked (task : Option TaskId) : Ran := do
  let s ← (s.parkedBy task).foldlM queueRelease s
  return s.pumpReleases

/-- One turn of `PumpReleases`' loop. -/
def pumpRelease : Ran :=
  match s.releaseQueue with
  | [] => .ok ({ s with pumpingReleases := false }, [])
  | e :: releaseQueue =>
    if s.releasesOpen < kReleaseWindow then
      let s := { s with releaseQueue }
      match s.evictions.find? e with
      | none => .ok (s, [.pumpReleases])
      | some eviction =>
        if eviction.stage ≠ .releasing ∨ eviction.releaseOpen then .ok (s, [.pumpReleases])
        else do
          let eviction := { eviction with releaseOpen := true }
          let s := { s with releasesOpen := s.releasesOpen + 1 }.setEviction e eviction
          let (s, opened) ← openEvictOrBlock x s e eviction
          return (s, opened ++ [.pumpReleases])
    else .ok ({ s with pumpingReleases := false }, [])

/-- `Park`: unmapped, its backing kept; as far as its waiters go it is done. -/
def park (e : ExtentId) : Ran := do
  let eviction ← require .noEntry (s.evictions.find? e)
  let source ← require .noEntry (s.sources.find? e)
  let key := (source.backing.map BackingPlace.key).getD (toLex (0, 0))
  let s := { s.setEviction e { eviction with stage := .parked, waiters := [] } with
    parkedCount := s.parkedCount + 1
    parked := s.parked.insert key ((s.parked.find? key).getD [] ++ [e]) }
  let s ← s.wakeAll eviction.waiters fun _ => false
  -- An evictor that finished while the unmap ran will not release it.
  if (s.record? eviction.evictor).all TaskRecord.finished then
    s.releaseParked (some eviction.evictor)
  else return (s, [])

/-- `OnEvicted` from where the write's slot is free: the contents are preserved only if the
    write moved the whole range. -/
def wroteBack (e : ExtentId) (whole : Bool) : Ran := do
  let eviction ← require .noEntry (s.evictions.find? e)
  let place ← require .noEntry (s.sources.find? e)
  if !whole then s.endEviction e false
  else if place.backing.isNone then s.endEviction e true
  else
    let eviction := { eviction with stage := .unmapping }
    openEvictOrBlock x (s.setEviction e eviction) e eviction

/-- `OnEvicted`: a stage of the eviction ended, with an outcome known. -/
def onEvicted (e : ExtentId) (outcome : Outcome) (bytes : Nat) : Ran := do
  let eviction ← require .lostEviction (s.evictions.find? e)
  let place ← require .noEntry (s.sources.find? e)
  let eviction := { eviction with operation := none }
  let succeeded := outcome = .succeeded
  match eviction.stage with
  | .copyOut | .writing =>
    if eviction.stage = .copyOut ∧ succeeded then
      let eviction := { eviction with stage := .writing }
      openEvictOrBlock x (s.setEviction e eviction) e eviction
    else
      let whole := eviction.stage = .writing ∧ succeeded ∧ bytes = place.read.length
      match eviction.slot with
      | none => wroteBack x (s.setEviction e eviction) e (decide whole)
      | some slot => do
        let (s, freed) ← freeSlot (s.setEviction e { eviction with slot := none }) slot
        return (s, freed ++ [.wroteBack e (decide whole)])
  | .unmapping =>
    if succeeded ∧ eviction.handoff then park (s.setEviction e eviction) e
    else endEviction (s.setEviction e eviction) e (decide succeeded)
  | .releasing =>
    if succeeded then endEviction (s.setEviction e eviction) e true
    else quarantineEvicting (s.setEviction e eviction) e .backing
  | .slot | .parked => .error .evictStageWaits

/-- The scan of `Donor` over one queue: the first entry that can give, and the queue without the
    stale entries before it. -/
def scanDonors (place : BackingPlace) (domain : DomainId) :
    List ExtentId → Option ExtentId × List ExtentId
  | [] => (none, [])
  | e :: rest =>
    match s.evictions.find? e, s.sources.find? e, s.catalog.describe e with
    | some eviction, some source, .ok view =>
      let fits := source.backing.any fun b =>
        b.allocationClass = place.allocationClass && b.size = place.size
      if eviction.stage ≠ .parked ∨ !fits ∨ view.descriptor.size ≠ place.size then
        scanDonors place domain rest
      else if view.descriptor.domain = domain then (some e, e :: rest)
      else
        let (found, queue) := scanDonors place domain rest
        (found, e :: queue)
    | _, _, _ => scanDonors place domain rest

def donor (place : BackingPlace) (domain : DomainId) : Option ExtentId × Scheduler :=
  match s.parked.find? place.key with
  | none => (none, s)
  | some queue =>
    let (found, queue) := s.scanDonors place domain queue
    let parked := if found.isNone ∧ queue = [] then s.parked.erase place.key
      else s.parked.insert place.key queue
    (found, { s with parked })

def endParked (e : ExtentId) : Ran := do
  let eviction ← require .noEntry (s.evictions.find? e)
  check (eviction.stage = .parked && eviction.waiters.isEmpty) .notParked
  endEviction { s with parkedCount := s.parkedCount - 1 } e true

/-! ## Beginning -/

def join (e : ExtentId) (load : Load) (r : TaskRecord) : Scheduler :=
  (s.setLoad e { load with waiters := load.waiters ++ [r.id] }).addWaiting r

/-- `BeginPageIn`. With `own`, the extent's own parked eviction has just ended and its kept
    backing is the load's. -/
def beginPageIn (r : TaskRecord) (e : ExtentId) (source : PageSource) (own : Bool) :
    Checked (Except WorkError Unit × Scheduler × List Work) := do
  let view := s.catalog.describe e
  -- Only where the extent's charge is its backing's size does moving a charge move the bytes kept.
  let (giver, s) := match own, source.backing, view with
    | false, some place, .ok view =>
      if view.descriptor.size = place.size then s.donor place view.descriptor.domain
      else (none, s)
    | _, _, _ => (none, s)
  let budget := match giver, source.backing with
    | some _, some place => (x.settings.budget.plus place.size).getD x.settings.budget
    | _, _ => x.settings.budget
  match ← s.catalog.beginLoad e budget with
  | (.error error, _) =>
    if own then .error .ownRefused
    else return (.error (errorOf error), s, [])
  | (.ok ticket, catalog) =>
    let preserved := match view with
      | .ok view => view.preserved
      | .error _ => false
    let reuse := own || giver.isSome
    let s := { s with catalog, log := .begun e source preserved reuse :: s.log }
    let (s, ended) ← match giver with
      | some e' => s.endParked e'
      | none => pure (s, [])
    let load : Load := { ticket, source, reuse }
    let s := s.join e load r
    if source.landed ∧ s.started ≥ 2 * s.slots.length then
      return (.ok (), { s with queued := s.queued ++ [e] }, ended)
    else return (.ok (), s, ended ++ [.proceed e])

end JitLlm.Scheduler
