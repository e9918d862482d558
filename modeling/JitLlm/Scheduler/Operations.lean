import JitLlm.Scheduler.PageIn

/-!
# `scheduler/scheduler.cc` — the operation lifecycle

An operation is opened with a mailbox, published to its lane (or kept while the lane is full),
observed, and concluded once its result proves no further access; a closed lane rolls it back,
and what cannot be proven is quarantined.
-/

namespace JitLlm.Scheduler

open Base Lib
open Catalog hiding Operation

variable (x : Config) (s : Scheduler)

/-! ## Requests' leases and tasks an operation lets go -/

def releaseHeld (lease : LeaseId) (held : Held) : Checked Scheduler := do
  let ((), catalog) ← expect .heldUse (s.catalog.recordUse lease s.turn)
  let ((), catalog) ← expect .heldRelease (catalog.releaseLease lease)
  let s := { s with catalog, held := s.held.erase lease, log := .released lease :: s.log }
  s.wakeAll held.waiters fun _ => false

def concludeHeld (lease : LeaseId) : Checked Scheduler :=
  match s.held.find? lease with
  | none => .error .heldNotCounted
  | some held =>
    if held.operations > 0 then
      let held := { held with operations := held.operations - 1 }
      let s := { s with held := s.held.insert lease held }
      if held.ending ∧ held.operations = 0 then s.releaseHeld lease held else .ok s
    else .error .heldNotCounted

/-- `TryRetire`'s loop, up the parents; each turn retires a task, so there are no more than the
    table has. -/
def retireFrom : Nat → TaskId → Scheduler → Checked Scheduler
  | 0, _, _ => .error .endless
  | fuel + 1, t, s =>
    match s.tasks.describe t, s.record? t with
    | some view, some _ => do
      match ← s.tasks.retire t with
      | (.error _, _) => return s
      | (.ok (), tasks) =>
        let s := { s with tasks, records := s.records.set t.index none }
        match view.parent with
        | none => return s
        | some parent => retireFrom fuel parent s
    | _, _ => .ok s

def tryRetire (t : TaskId) : Checked Scheduler := retireFrom (s.records.length + 1) t s

/-! ## Ending an operation -/

/-- `Quarantine`: everything it holds stays. -/
def quarantine (op : Operation) (fault : Fault) : Ran :=
  let s := { s.setOperation { op with quarantined := true } with
    quarantined := s.quarantined + 1
    log := .quarantined op.id :: s.log }.fail fault
  match op.kind with
  | .load => s.quarantineLoad op.extent fault
  | .evict => s.quarantineEvicting op.extent fault
  | .device | .cpu => do return (← s.wake op.task true, [])

/-- `Conclude` of device or CPU work, its mailbox closed. -/
def concludeWork (op : Operation) (outcome : Outcome) : Checked Scheduler := do
  let catalog ← match op.held with
    | some _ => pure s.catalog
    | none => do
      let lease ← require .leaseRelease op.lease
      let ((), catalog) ← expect .leaseRelease (s.catalog.releaseLease lease)
      pure catalog
  let tasks ← do
    match ← s.tasks.retireOperation op.task with
    | (.ok (), tasks) => pure tasks
    | (.error _, _) => .error .operationRetire
  let s := { s with catalog, tasks }.eraseOperation op.id
  let s ← match op.held with
    | some held => s.concludeHeld held
    | none => pure s
  let s ← s.wake op.task (outcome ≠ .succeeded)
  s.tryRetire op.task

/-- `Conclude`: the board must agree the operation is reconciled before anything it holds is
    released. `proven`, for the history alone, is that its result came with the proof of no
    further access; without one it never started. -/
def conclude (op : Operation) (outcome : Outcome) (bytes : Nat) (proven : Bool) : Ran :=
  match s.board.close op.id with
  | (false, _) => s.quarantine op .contradiction
  | (true, board) =>
    let s := { s with
      board, log := .concluded op.id op.kind op.extent outcome bytes proven :: s.log }
    match op.kind with
    | .device | .cpu => do return (← s.concludeWork op outcome, [])
    | .load => onStage x (s.eraseOperation op.id) op.extent outcome bytes
    | .evict => onEvicted x (s.eraseOperation op.id) op.extent outcome bytes

/-- `RollBack`: no lane took the command, so the scheduler itself proves it never started. -/
def rollBack (op : Operation) : Ran := do
  let (published, board) ← s.board.accept op.id .notStarted
  check (published = .recorded) .rollBackSeen
  conclude x { s with board } op .failed 0 false

def observe (seen : Observation) : Ran :=
  match s.find seen.operation with
  | none => .ok (s, [])
  | some op =>
    if op.quarantined then .ok (s, [])
    else if seen.contradictory then s.quarantine op .contradiction
    else if seen.acceptance = .notStarted then conclude x s op .failed 0 false
    else match seen.acceptance, seen.terminal with
      | .none, _ => .ok (s, [])
      | _, none => .ok (s, [])
      | _, some terminal =>
        if !terminal.noFurtherAccess then s.quarantine op .unproven
        else conclude x s op terminal.outcome terminal.bytes terminal.noFurtherAccess

/-! ## Publishing -/

def Lanes.has (lanes : Lanes) : Route → Bool
  | .storage => lanes.storage
  | .device => lanes.device
  | .cpu => lanes.cpu
  | .backing => lanes.backing
  | .copy => lanes.copy

/-- `Push`: the lane's answer; an absent lane refuses as closed. -/
def push (route : Route) (answer : PushResult) : PushResult :=
  if x.lanes.has route then answer else .closed

def setPending (route : Route) (ids : List OperationId) : Scheduler :=
  { s with pending := fun r => if r = route then ids else s.pending r }

def taken (op : Operation) : Scheduler :=
  { s.setOperation { op with published := true } with log := .took op.id op.command :: s.log }

/-- `Publish`, the lane answering `answer` if it is asked. -/
def publish (id : OperationId) (answer : PushResult) : Ran := do
  let op ← require .missing (s.find id)
  if s.pending op.route ≠ [] then
    return (s.setPending op.route (s.pending op.route ++ [id]), [])
  else match push x op.route answer with
    | .accepted => return (s.taken op, [])
    | .full => return (s.setPending op.route (s.pending op.route ++ [id]), [])
    | .closed => rollBack x s op

/-! ## The calls a function ends in -/

def runWork (answer : PushResult) : Work → Ran
  | .publish id => publish x s id answer
  | .proceed e => proceed x s e
  | .unwind e => unwind x s e
  | .endLoad e => s.endLoad e true
  | .startQueued => s.startQueued
  | .proceedEviction e => proceedEviction x s e
  | .wroteBack e whole => wroteBack x s e whole
  | .abandon e => s.endEviction e false
  | .pumpReleases => pumpRelease x s

end JitLlm.Scheduler
