import JitLlm.Scheduler.State

/-!
# The scheduler's small helpers

Lookups, wakeups, mailboxes and the catalog calls that must succeed. Each is straight-line: it
changes the state it is given and enters no stage.
-/

namespace JitLlm.Scheduler

open Base Lib
open Catalog hiding Operation

/-- What is left to do, after the call in hand, before the caller goes on.

    Publishing a stage can roll it back at once (a closed lane), which runs the load's next step
    before `Publish` returns, and that step may enter another's stage. The source makes those
    calls on the C++ stack; here a function answers with the calls it ends in, first one first,
    and the machine makes them before anything below. -/
inductive Work
  | publish (id : OperationId)
  | proceed (extent : ExtentId)
  | unwind (extent : ExtentId)
  | endLoad (extent : ExtentId)
  | startQueued
  | proceedEviction (extent : ExtentId)
  | wroteBack (extent : ExtentId) (whole : Bool)
  | abandon (extent : ExtentId)
  | pumpReleases
deriving DecidableEq

/-- A function of the scheduler: the state after it, and the calls it ends in. -/
abbrev Ran := Checked (Scheduler × List Work)

def expect {α : Type} (fatal : Fatal) (x : Checked (Result α × Catalog)) :
    Checked (α × Catalog) := do
  match ← x with
  | (.ok a, c) => return (a, c)
  | (.error _, _) => .error fatal

def errorOf : CatalogError → WorkError
  | .notResident => .notResident
  | .staleContent => .stale
  | .overBudget => .overBudget
  | .exhausted | .held | .wrongState => .busy
  | _ => .unavailable

variable (s : Scheduler)

/-- `Record`. -/
def record? (t : TaskId) : Option TaskRecord :=
  match s.records[t.index]? with
  | some (some r) => if t.valid ∧ r.id = t then some r else none
  | _ => none

/-- Writing through the pointer `Record` gave. -/
def setRecord (r : TaskRecord) : Scheduler :=
  { s with records := s.records.set r.id.index (some r) }

def find (id : OperationId) : Option Operation :=
  match s.operations[id.index]? with
  | some (some op) => if id.valid ∧ op.id = id then some op else none
  | _ => none

/-- Writing through the pointer `Find` gave. -/
def setOperation (op : Operation) : Scheduler :=
  { s with operations := s.operations.set op.id.index (some op) }

/-- `operations_[id.index()].reset()`. -/
def eraseOperation (id : OperationId) : Scheduler :=
  { s with operations := s.operations.set id.index none }

def setLoad (e : ExtentId) (load : Load) : Scheduler :=
  { s with loads := s.loads.insert e load }

def setEviction (e : ExtentId) (eviction : Eviction) : Scheduler :=
  { s with evictions := s.evictions.insert e eviction }

def emit (event : Event) : Scheduler := { s with log := event :: s.log }

/-- A live, uncancelled, unfinished task's record: what every `TaskContext` call asks first. -/
def openRecord (t : TaskId) : Option TaskRecord :=
  match s.record? t, s.tasks.describe t with
  | some r, some view => if r.finished || view.cancelled then none else some r
  | _, _ => none

def viewOf (t : TaskId) : Checked TaskView := require .viewNotLive (s.tasks.describe t)

/-- `Fail`: the first fault stays. -/
def fail (fault : Fault) : Scheduler := { s with fault := some (s.fault.getD fault) }

def noMailboxEver : Bool :=
  s.board.available = 0 && (s.board.exhausted || s.board.openCount ≤ s.quarantined)

def noMailboxError : WorkError := if s.noMailboxEver then .unavailable else .busy

def makeReady (r : TaskRecord) : Checked Scheduler :=
  if r.finished then .ok s
  else do
    match ← s.tasks.makeReady r.id r.priority with
    | (.ok _, tasks) => return { s with tasks }
    | (.error _, _) => .error .makeReady

def addWaiting (r : TaskRecord) : Scheduler := s.setRecord { r with waiting := r.waiting + 1 }

def wake (t : TaskId) (failed : Bool) : Checked Scheduler :=
  match s.record? t with
  | none => .ok s
  | some r =>
    if r.finished then .ok s
    else if r.waiting > 0 then
      let r := { r with waiting := r.waiting - 1, failed := r.failed || failed }
      if r.waiting = 0 then (s.setRecord r).makeReady r else .ok (s.setRecord r)
    else .error .notWaiting

def wakeAll (waiters : List TaskId) (failed : TaskId → Bool) : Checked Scheduler :=
  waiters.foldlM (fun s t => s.wake t (failed t)) s

/-- `Open`, with the operation's fields filled in. -/
def openOperation (make : OperationId → Operation) : Checked (OperationId × Scheduler) :=
  match s.board.open with
  | none => .error .pastCapacity
  | some (id, board) =>
    let op := make id
    .ok (id, { s with
      board
      operations := s.operations.set id.index (some op)
      log := .opened id op.kind op.extent op.command :: s.log })

/-- `Remove`: every entry of the extent. -/
def remove (queue : List ExtentId) (e : ExtentId) : List ExtentId := queue.filter (· ≠ e)

/-- The slots once a load or eviction is quarantined: a read or copy may still touch its slot, so
    it is never reused. -/
def quarantineSlot : Option Nat → Checked (List SlotState)
  | none => .ok s.slots
  | some i => do
    let _ ← require .noEntry s.slots[i]?
    return s.slots.set i .quarantined

def freeSlot? : Option Nat := s.slots.findIdx? (· = .free)

end JitLlm.Scheduler
