import JitLlm.Scheduler.Operations

/-!
# What a task, its request and the scheduler's owner ask

`TaskContext`'s calls, the sources and pins, and the parts of finishing a task that are
straight-line. The loops over tasks and queues, whose bodies enter stages, are the machine's
(`Scheduler/Machine.lean`).
-/

namespace JitLlm.Scheduler

open Base Lib
open Catalog hiding Operation

variable (x : Config) (s : Scheduler)

/-! ## Tasks -/

/-- `StartTask`; `hasProgram` is that its program is not null. -/
def startTask (request : Nat) (hasProgram : Bool) (priority : Nat) (parent : Option TaskId) :
    Checked (Except StartError TaskId × Scheduler) :=
  if !hasProgram ∨ priority ≥ x.settings.priorities then .ok (.error .invalid, s)
  else if parent.isNone ∧
      (s.stopping ∨ s.fault.isSome ∨ s.tasks.exhausted ∨ s.board.exhausted) then
    .ok (.error .stopped, s)
  else do
    match ← s.tasks.create parent with
    | (.error .full, _) => return (.error .full, s)
    | (.error _, _) => return (.error .closed, s)
    | (.ok id, tasks) =>
      let r : TaskRecord := { id, request, priority }
      let s := { s with tasks }.setRecord r
      let s ← match parent with
        | none => pure s
        | some parent => do
          let p ← require .missing (s.record? parent)
          pure (s.addWaiting p)
      return (.ok id, ← s.makeReady r)

/-- `Signal`'s step for one record: a root of the request, unfinished. -/
def signalRecord (request : Nat) (s : Scheduler) (i : Nat) : Checked Scheduler :=
  match s.records[i]? with
  | some (some r) =>
    if r.request ≠ request ∨ r.finished then .ok s
    else do
      let view ← s.viewOf r.id
      if view.parent.isSome then return s
      else
        let awaiting := r.awaitingSignal
        let s := s.setRecord { r with signalled := true, awaitingSignal := false }
        if awaiting then s.wake r.id false else return s
  | _ => .ok s

def signal (request : Nat) : Checked Scheduler :=
  (List.range s.records.length).foldlM (signalRecord request) s

def awaitSignal (t : TaskId) : Except WorkError Readiness × Scheduler :=
  match s.openRecord t with
  | none => (.error .closed, s)
  | some r =>
    if r.signalled then (.ok .ready, s.setRecord { r with signalled := false })
    else if r.awaitingSignal then (.ok .waiting, s)
    else (.ok .waiting, s.setRecord { r with awaitingSignal := true, waiting := r.waiting + 1 })

def takeFailure (t : TaskId) : Bool × Scheduler :=
  match s.record? t with
  | none => (false, s)
  | some r => (r.failed, s.setRecord { r with failed := false })

/-! ## Work -/

/-- `Submit`'s first test: the work is well formed and its lane is there. -/
def validWork : Command → Bool
  | .copies work =>
    x.lanes.device && 0 < work.copies.length && work.copies.length ≤ kMaxDeviceCopies
  | .launch _ hasJob => x.lanes.device && hasJob
  | .job hasJob => x.lanes.cpu && hasJob
  | _ => false

/-- What an operation is submitted over: a closure it leases itself, or a request's lease. -/
inductive Over
  | closure (closure : Closure)
  | held (lease : LeaseId)

/-- `Submit`'s preparation: the lease of its own, or one more operation under the request's. -/
def lease (t : TaskId) : Over → Checked (Except WorkError (Option LeaseId × Option LeaseId) × Scheduler)
  | .held lease =>
    match s.held.find? lease with
    | none => .ok (.error .invalid, s)
    | some held =>
      if held.task ≠ t then .ok (.error .invalid, s)
      else if held.ending then .ok (.error .closed, s)
      else if s.board.available = 0 then .ok (.error s.noMailboxError, s)
      else .ok (.ok (none, some lease),
        { s with held := s.held.insert lease { held with operations := held.operations + 1 } })
  | .closure closure =>
    if s.board.available = 0 then .ok (.error s.noMailboxError, s)
    else do
      match ← s.catalog.acquireLease closure with
      | (.error e, _) => return (.error (errorOf e), s)
      | (.ok lease, catalog) =>
        let ((), catalog) ← expect .freshUse (catalog.recordUse lease s.turn)
        return (.ok (some lease, none), { s with catalog })

def submission (id : OperationId) (own : Option LeaseId) : Over → Event
  | .held lease => .submittedUnder id lease
  | .closure closure => .submitted id (own.getD {}) closure.extents

def submit (t : TaskId) (basis : Over) (command : Command) :
    Checked (Except WorkError OperationId × Scheduler × List Work) :=
  if !validWork x command then .ok (.error .invalid, s, [])
  else match s.openRecord t with
    | none => .ok (.error .closed, s, [])
    | some r => do
      match ← s.lease t basis with
      | (.error e, s) => return (.error e, s, [])
      | (.ok (own, held), s) =>
        let tasks ← do
          match ← s.tasks.prepareOperation t with
          | (.ok (), tasks) => pure tasks
          | (.error _, _) => .error .taskNotOpen
        let (kind, route) : Kind × Route := match command with
          | .job _ => (.cpu, .cpu)
          | _ => (.device, .device)
        let (id, s) ← { s with tasks }.openOperation fun id =>
          { id, kind, route, task := t, lease := own, held, command }
        let s := (s.addWaiting r).emit (submission id own basis)
        return (.ok id, s, [.publish id])

def holdLease (t : TaskId) (closure : Closure) : Checked (Except WorkError LeaseId × Scheduler) :=
  match s.openRecord t with
  | none => .ok (.error .closed, s)
  | some _ =>
    if s.held.size ≥ x.settings.tasks then .ok (.error .busy, s)
    else do
      match ← s.catalog.acquireLease closure with
      | (.error e, _) => return (.error (errorOf e), s)
      | (.ok lease, catalog) =>
        let ((), catalog) ← expect .freshUse (catalog.recordUse lease s.turn)
        let held : Held := { task := t, extents := sortUnique (closure.extents.map Prod.fst) }
        return (.ok lease, { s with
          catalog
          held := s.held.insert lease held
          log := .leased lease t closure.extents :: s.log })

def endLease (t : TaskId) (lease : LeaseId) : Checked (Except WorkError Readiness × Scheduler) :=
  match s.record? t, s.held.find? lease with
  | some r, some held =>
    if held.task ≠ t then .ok (.error .invalid, s)
    else
      let held := { held with ending := true }
      let s := { s with held := s.held.insert lease held }
      if held.operations = 0 then do return (.ok .ready, ← s.releaseHeld lease held)
      else if !r.finished && !held.waiters.contains t then
        let held := { held with waiters := held.waiters ++ [t] }
        .ok (.ok .waiting, { s with held := s.held.insert lease held }.addWaiting r)
      else .ok (.ok .waiting, s)
  | _, _ => .ok (.error .invalid, s)

def holds (t : TaskId) : Bool := s.held.entries.any fun p => p.2.task = t && !p.2.ending

/-- `AwaitRelease`'s walk up the ancestors: whether one, or the task itself, holds such a lease.
    The chain of live parents is no longer than the table. -/
def ancestorHolds : Nat → TaskId → Checked Bool
  | 0, _ => .error .endless
  | fuel + 1, t =>
    if s.holds t then .ok true
    else match (s.tasks.describe t).bind TaskView.parent with
      | none => .ok false
      | some parent => ancestorHolds fuel parent

/-- `AwaitRelease`'s second loop: the first other request's lease over one of the extents. -/
def overlapping (t : TaskId) (extents : List ExtentId) : Option (LeaseId × Held) :=
  s.held.entries.find? fun p => p.2.task ≠ t && extents.any (p.2.extents.contains ·)

def awaitRelease (t : TaskId) (extents : List ExtentId) :
    Checked (Except WorkError Readiness × Scheduler) :=
  match s.openRecord t with
  | none => .ok (.error .closed, s)
  | some r => do
    if ← s.ancestorHolds (s.records.length + 1) t then return (.error .invalid, s)
    else match s.overlapping t extents with
      | none => return (.ok .ready, s)
      | some (lease, held) =>
        if held.waiters.contains t then return (.ok .waiting, s)
        else if held.waiters.length ≥ x.settings.waiters then return (.error .busy, s)
        else
          let held := { held with waiters := held.waiters ++ [t] }
          return (.ok .waiting, { s with held := s.held.insert lease held }.addWaiting r)

/-! ## Sources -/

/-- `SetSource`'s test of the pieces: only landed, never for write-back, each inside the read. -/
def piecesValid (source : PageSource) : Bool :=
  source.pieces.length ≤ kMaxDeviceCopies &&
  (source.pieces.isEmpty || (source.landed && !source.writeBack)) &&
  source.pieces.all fun p =>
    0 < p.length && p.destination ≠ 0 && p.slotOffset ≤ source.read.length &&
      p.length ≤ source.read.length - p.slotOffset

/-- `SetSource`'s test of the source alone. -/
def validSource (source : PageSource) : Bool :=
  source.read.length ≠ 0 && source.read.kind = .read && piecesValid source &&
  !(source.landed && (s.slots.isEmpty || (source.pieces.isEmpty && source.destination = 0) ||
    source.read.length > x.settings.landing.slotBytes.value)) &&
  !(!source.landed && source.read.memory = 0) &&
  !source.backing.any fun b => b.size = Bytes.zero

def samePlace (a b : PageSource) : Bool :=
  a.backing = b.backing && a.landed = b.landed &&
  if !a.landed then a.read.memory = b.read.memory
  else a.destination = b.destination && a.pieces.length = b.pieces.length &&
    (a.pieces.zip b.pieces).all fun p =>
      p.1.destination = p.2.destination && p.1.length = p.2.length

/-- `SetSource`'s test of a source for an extent that is not nonresident, against the one it has:
    the backing cannot move, nor, for a write-back place, the contents. -/
def keepsPlace (old source : PageSource) : Bool :=
  old.backing = source.backing &&
  !(source.writeBack && (old.landed ≠ source.landed ||
    (if source.landed then old.destination ≠ source.destination
     else old.read.memory ≠ source.read.memory)))

/-- `SetSource`'s test of a source for an extent whose contents are preserved. -/
def keepsRange (old source : PageSource) : Bool :=
  source.writeBack && old.writeBack && old.read.fd = source.read.fd &&
    old.read.offset = source.read.offset && old.read.length = source.read.length

def setSource (e : ExtentId) (source : PageSource) : Except WorkError Unit × Scheduler :=
  if !validSource x s source then (.error .invalid, s)
  else if s.loads.contains e ∨ s.evictions.contains e then (.error .busy, s)
  else match s.catalog.describe e with
    | .error _ => (.error .unavailable, s)
    | .ok view =>
      if source.writeBack ∧ view.descriptor.recovery ≠ .preserve then (.error .invalid, s)
      else
        let old := s.sources.find? e
        if s.pinned.contains e ∧ !old.any (samePlace · source) then (.error .busy, s)
        else if view.state ≠ .nonresident ∧ !old.all (keepsPlace · source) then (.error .busy, s)
        else if view.state = .nonresident ∧ view.preserved ∧ !old.any (keepsRange · source) then
          (.error .busy, s)
        else (.ok (), { s with
          sources := s.sources.insert e source
          log := .registered e source :: s.log })

def pinPlaces (extents : List ExtentId) : Except WorkError Unit × Scheduler :=
  if extents.all (s.sources.contains ·) then
    (.ok (), { s with pinned := extents.foldl (fun pinned e =>
      pinned.insert e ((pinned.find? e).getD 0 + 1)) s.pinned })
  else (.error .unavailable, s)

def unpinPlaces (extents : List ExtentId) : Scheduler :=
  { s with pinned := extents.foldl (fun pinned e =>
      match pinned.find? e with
      | none => pinned
      | some n => if n - 1 = 0 then pinned.erase e else pinned.insert e (n - 1)) s.pinned }

/-! ## Materializing and evicting -/

/-- Whether a load from the source has its lanes; the VMM lane is asked for only where a backing
    is to be created. -/
def canLoad (source : PageSource) : Bool :=
  x.lanes.storage && !(source.landed && !canCopy x)

/-- `Materialize`'s step for one extent of the closure: whether the task, whose record is `r`,
    waits for it. -/
def materializeOne (t : TaskId) (r : TaskRecord) (e : ExtentId) (generation : Nat) :
    Checked (Except WorkError Bool × Scheduler × List Work) :=
  match s.catalog.describe e with
  | .error _ => .ok (.error .unavailable, s, [])
  | .ok view =>
    match view.state with
    | .resident =>
      if view.contentGeneration ≠ generation ∨ view.discarded then
        .ok (.error .stale, s, [])
      else .ok (.ok false, s, [])
    | .loading => do
      let load ← require .loadingNoPageIn (s.loads.find? e)
      if load.waiters.contains t then return (.ok true, s, [])
      else if load.waiters.length ≥ x.settings.waiters then return (.error .busy, s, [])
      else return (.ok true, s.join e load r, [])
    | .nonresident =>
      match s.sources.find? e with
      | none => .ok (.error .unavailable, s, [])
      | some source =>
        if !canLoad x source ∨
            (source.backing.isSome ∧ !x.lanes.device ∧ !x.lanes.backing) then
          .ok (.error .unavailable, s, [])
        else if view.contentGeneration ≠ generation then .ok (.error .stale, s, [])
        else if source.writeBack ∧ !view.preserved then .ok (.error .unavailable, s, [])
        else if s.board.available = 0 then .ok (.error s.noMailboxError, s, [])
        else do
          let (begun, s, work) ← beginPageIn x s r e source false
          return (begun.map fun _ => true, s, work)
    | .evicting =>
      match s.evictions.find? e with
      | none => .ok (.error .busy, s, [])
      | some eviction =>
        if eviction.stage = .parked then
          -- Its own backing back, if the eviction keeps the contents' generation.
          let keeps := view.descriptor.recovery = .fromArtifact ∨ eviction.writeBack
          if ¬ keeps ∨ view.contentGeneration ≠ generation then .ok (.error .stale, s, [])
          else match s.sources.find? e with
            | none => .ok (.error .unavailable, s, [])
            | some source =>
              if !canLoad x source then .ok (.error .unavailable, s, [])
              else if s.board.available = 0 then .ok (.error s.noMailboxError, s, [])
              else do
                let total ← (s.catalog.occupancyOf view.descriptor.domain).total
                if total.value > x.settings.budget.value then
                  return (.error .overBudget, s, [])
                else
                  let (s, ended) ← s.endParked e
                  let (begun, s, work) ← beginPageIn x s r e source true
                  return (begun.map fun _ => true, s, ended ++ work)
        else if eviction.waiters.contains t then .ok (.ok true, s, [])
        else if eviction.waiters.length ≥ x.settings.waiters then .ok (.error .busy, s, [])
        else
          let s := s.setEviction e { eviction with waiters := eviction.waiters ++ [t] }
          .ok (.ok true, s.addWaiting r, [])
    | .quarantined => .ok (.error .unavailable, s, [])

/-- `Evict`'s end: the eviction recorded, and its first stage entered. -/
def startEviction (r : TaskRecord) (e : ExtentId) (place : PageSource) (writeBack handoff : Bool)
    (ticket : Ticket) : Ran :=
  let eviction : Eviction :=
    { ticket, evictor := r.id, waiters := [r.id], writeBack
      handoff := handoff && place.backing.isSome
      stage := if writeBack && place.landed then .slot
        else if writeBack then .writing else .unmapping }
  let s := ((s.setEviction e eviction).addWaiting r).emit
    (.evicting e (some place) writeBack eviction.handoff)
  if eviction.stage = .slot then .ok (s, [.proceedEviction e])
  else openEvictOrBlock x s e eviction

def evict (t : TaskId) (e : ExtentId) (handoff : Bool) :
    Checked (Except WorkError Readiness × Scheduler × List Work) :=
  match s.openRecord t, s.catalog.describe e with
  | none, _ => .ok (.error .closed, s, [])
  | some _, .error _ => .ok (.error .unavailable, s, [])
  | some r, .ok view =>
    let source := s.sources.find? e
    let writeBack := source.any PageSource.writeBack &&
      decide (view.descriptor.recovery = .preserve) && !view.discarded
    match source, writeBack || source.any (·.backing.isSome) with
    | some place, true =>
      if writeBack ∧ !canLoad x place then .ok (.error .invalid, s, [])
      else if place.backing.isSome ∧ !x.lanes.device ∧ !x.lanes.backing then
        .ok (.error .invalid, s, [])
      else if s.board.available = 0 then .ok (.error s.noMailboxError, s, [])
      else do
        match ← s.catalog.beginEvict e writeBack with
        | (.error error, _) => return (.error (errorOf error), s, [])
        | (.ok ticket, catalog) =>
          let (s, work) ←
            startEviction x { s with catalog } r e place writeBack handoff ticket
          return (.ok .waiting, s, work)
    | _, _ => do
      -- Unmanaged backing: the catalog alone records it.
      match ← s.catalog.beginEvict e false with
      | (.error error, _) => return (.error (errorOf error), s, [])
      | (.ok ticket, catalog) =>
        let ((), catalog) ← expect .freshEvict (catalog.completeEvict ticket)
        return (.ok .ready,
          { s with catalog
                   log := .evicted e false :: .evicting e source false false :: s.log }, [])

/-! ## Withdrawing -/

def Load.leave (load : Load) (t : TaskId) : Load :=
  if load.waiters.contains t then
    let waiters := load.waiters.erase t
    { load with waiters, cancelling := load.cancelling || waiters.isEmpty }
  else load

def withdrawnBy (t : TaskId) : List ExtentId :=
  (s.loads.entries.filter fun p =>
    p.2.waiters.contains t && (p.2.waiters.erase t).isEmpty && !p.2.cancelling).map Prod.fst

def abandonable : List ExtentId :=
  (s.evictions.entries.filter fun p => p.2.waiters.isEmpty && p.2.stage = .slot).map Prod.fst

/-- `Withdraw`'s abandoning of one. -/
def abandon (ran : Scheduler × List Work) (e : ExtentId) : Ran := do
  let (s, work) ← endEviction { ran.1 with slotWaiters := remove ran.1.slotWaiters e } e false
  return (s, ran.2 ++ work)

def Held.leave (held : Held) (t : TaskId) : Held :=
  { held with waiters := held.waiters.filter (· ≠ t), ending := held.ending || held.task = t }

def endedBy (t : TaskId) : List LeaseId :=
  (s.held.entries.filter fun p => p.2.task = t && p.2.operations = 0).map Prod.fst

/-- `Withdraw`'s release of one. -/
def releaseEnded (s : Scheduler) (lease : LeaseId) : Checked Scheduler := do
  let held ← require .missing (s.held.find? lease)
  s.releaseHeld lease held

/-- `Withdraw`, but for the cancelling of the loads left without waiters, which comes after: they
    are marked before any is cancelled, so that no drain hands a slot on to one. -/
def withdraw (t : TaskId) : Ran := do
  let s := { s with
    loads := s.loads.mapVals fun _ load => load.leave t
    evictions := s.evictions.mapVals fun _ eviction =>
      { eviction with waiters := eviction.waiters.filter (· ≠ t) } }
  let (s, abandoned) ← s.abandonable.foldlM abandon (s, [])
  let s := { s with held := s.held.mapVals fun _ held => held.leave t }
  let s ← (s.endedBy t).foldlM releaseEnded s
  let (s, work) ← s.releaseParked (some t)
  return (s, abandoned ++ work)

/-- `CancelPageIn`; `answer` is the storage lane's, if a read in flight is asked to be
    withdrawn. -/
def cancelPageIn (e : ExtentId) (load : Load) (answer : PushResult) : Ran := do
  let load := { load with cancelling := true }
  let s := s.setLoad e load
  match load.stage with
  | .queued => unwind x { s with queued := remove s.queued e } e
  | .slot => unwind x { s with slotWaiters := remove s.slotWaiters e } e
  | .mapping | .reading | .copying =>
    match load.operation.bind s.find with
    | none => onStage x { s with blocked := remove s.blocked e } e .failed 0
    | some op =>
      if !op.published then rollBack x s op
      else if load.stage = .reading then do
        check x.lanes.storage .missing
        return (if answer = .full then { s with cancels := s.cancels ++ [op.id] } else s, [])
      else return (s, [])
  | .unmapping | .releasing => return (s, [])

/-! ## Finishing -/

/-- `FinishTask`'s start: the task is finished and leaves what it waits for. -/
def beginFinish (t : TaskId) (outcome : TaskOutcome) :
    Checked (Option (TaskView × List ExtentId × Scheduler × List Work)) :=
  match s.record? t with
  | none => .ok none
  | some r =>
    if r.finished then .ok none
    else do
      let tasks ← do
        match ← s.tasks.finish t outcome with
        | (.ok (), tasks) => pure tasks
        | (.error _, _) => .error .finishNotLive
      let s := { s with tasks }.setRecord { r with finished := true }
      let view ← s.viewOf t
      let withdrawn := s.withdrawnBy t
      let (s, work) ← s.withdraw t
      return some (view, withdrawn, s, work)

end JitLlm.Scheduler
