import JitLlm.Catalog.Catalog
import JitLlm.Scheduler.Completions
import JitLlm.Scheduler.Tasks
import Mathlib.Data.Prod.Lex

/-!
# `scheduler/scheduler.h`, `scheduler/commands.h` — the scheduler's data

The single writer of task states, loads and leases. `Config` is what the constructor is given
and never changes: the settings the functions read, and which lanes there are.

A task's program is any code that calls its `TaskContext`, so a record has none: the machine
(`Scheduler/Machine.lean`) lets the program of a running task make any call next. Times, polls,
`stats_`, `critical_` and the page-in observer decide nothing but when the thread sleeps or what
is reported, and are left out.

`log` is not in the source: it is the history of the run, newest event first, written where the
event happens and read by no function. The properties over whole runs are stated on it.
-/

namespace JitLlm
namespace Scheduler

open Base Lib
open Catalog hiding Operation

/-! ## Commands -/

inductive IoKind
  | read | write
deriving DecidableEq

/-- `providers::ReadSpec`; an address of 0 is the null pointer. -/
structure ReadSpec where
  fd : Int := -1
  offset : Nat := 0
  memory : Nat := 0
  length : Nat := 0
  kind : IoKind := .read
deriving DecidableEq

structure DeviceCopy where
  destination : Nat
  source : Nat
  size : Nat
deriving DecidableEq

def kMaxDeviceCopies : Nat := 4

/-- The copies are the first `count` of the source's array. -/
structure DeviceWork where
  stream : Nat := 0
  copies : List DeviceCopy := []
deriving DecidableEq

inductive BackingWork.Kind
  | map | unmap | release
deriving DecidableEq

structure BackingWork where
  kind : BackingWork.Kind
  reservation : Id .reservation
  offset : Bytes
  size : Bytes
  allocationClass : Nat
  retain : Bool := false
  reuse : Bool := false
deriving DecidableEq

/-- What a lane is given. A launch's and a CPU job's code is outside the scheduler; whether there
    is one is all that is asked of it. -/
inductive Command
  | read (spec : ReadSpec)
  | copies (work : DeviceWork)
  | backing (work : BackingWork)
  | launch (stream : Nat) (hasJob : Bool)
  | job (hasJob : Bool)
deriving DecidableEq

/-! ## Sources -/

structure BackingPlace where
  reservation : Id .reservation
  offset : Bytes
  size : Bytes
  allocationClass : Nat := 0
deriving DecidableEq

structure LandedPiece where
  slotOffset : Nat
  destination : Nat
  length : Nat
deriving DecidableEq

/-- The pieces are the first `piece_count` of the source's array. -/
structure PageSource where
  read : ReadSpec
  landed : Bool := false
  destination : Nat := 0
  pieces : List LandedPiece := []
  backing : Option BackingPlace := none
  writeBack : Bool := false
deriving DecidableEq

/-! ## Settings -/

structure LandingZone where
  slots : List Nat := []
  slotBytes : Bytes := Bytes.zero
  stream : Nat := 0

structure SchedulerSettings where
  tasks : Nat := 64
  priorities : Nat := 2
  agingLimit : Nat := 4
  waiters : Nat := 8
  budget : Bytes := Bytes.zero
  landing : LandingZone := {}

structure Lanes where
  storage : Bool := false
  device : Bool := false
  cpu : Bool := false
  backing : Bool := false
  copy : Bool := false

/-- What the scheduler and its board are built from, with the conditions their constructors
    check (those on times aside). -/
structure Config where
  settings : SchedulerSettings
  lanes : Lanes
  mailboxes : Nat
  firstGeneration : Nat := 1
  board : 0 < mailboxes ∧ mailboxes ≤ uint32Max ∧
    0 < firstGeneration ∧ firstGeneration ≤ uint32Max := by decide
  queues : 0 < settings.tasks ∧ 0 < settings.priorities ∧ 0 < settings.waiters := by decide
  landing : settings.landing.slots = [] ∨
    (0 < settings.landing.slotBytes.value ∧ (lanes.copy ∨ lanes.device)) := by decide

/-! ## Answers -/

inductive WorkError
  | closed | busy | notResident | stale | overBudget | unavailable | invalid
deriving DecidableEq

inductive Readiness
  | ready | waiting
deriving DecidableEq

inductive Fault
  | contradiction | unproven | backing | exhausted
deriving DecidableEq

inductive StartError
  | stopped | full | closed | invalid
deriving DecidableEq

inductive PushResult
  | accepted | full | closed
deriving DecidableEq

inductive StepKind
  | yield | wait | finish
deriving DecidableEq

/-! ## Records -/

inductive Kind
  | load | evict | device | cpu
deriving DecidableEq

inductive Route
  | storage | device | cpu | backing | copy
deriving DecidableEq

def Route.all : List Route := [.storage, .device, .cpu, .backing, .copy]

inductive Stage
  | queued | mapping | slot | reading | copying | unmapping | releasing
deriving DecidableEq

inductive EvictStage
  | slot | copyOut | writing | unmapping | parked | releasing
deriving DecidableEq

inductive SlotState
  | free | busy | quarantined
deriving DecidableEq

/-- A page-in; the source's invalid `operation` is `none`. -/
structure Load where
  ticket : Ticket
  source : PageSource
  stage : Stage := .queued
  operation : Option OperationId := none
  slot : Option Nat := none
  waiters : List TaskId := []
  cancelling : Bool := false
  started : Bool := false
  mapped : Bool := false
  failed : Bool := false
  reuse : Bool := false

structure Eviction where
  ticket : Ticket
  operation : Option OperationId := none
  evictor : TaskId
  waiters : List TaskId := []
  stage : EvictStage := .unmapping
  slot : Option Nat := none
  writeBack : Bool := false
  handoff : Bool := false
  releaseOpen : Bool := false

def kReleaseWindow : Nat := 16

/-- `BackingKey`: allocation class, bytes. -/
abbrev BackingKey := Nat ×ₗ Nat

def BackingPlace.key (place : BackingPlace) : BackingKey :=
  toLex (place.allocationClass, place.size.value)

structure TaskRecord where
  id : TaskId
  request : Nat := 0
  priority : Nat := 0
  waiting : Nat := 0
  failed : Bool := false
  finished : Bool := false
  signalled : Bool := false
  awaitingSignal : Bool := false

structure Held where
  task : TaskId
  extents : List ExtentId := []
  operations : Nat := 0
  ending : Bool := false
  waiters : List TaskId := []

/-- `Scheduler::Operation`. A page-in's or an eviction's names its extent; device and CPU work
    its task, with the lease of its own or the request's lease it is submitted under. -/
structure Operation where
  id : OperationId
  kind : Kind
  route : Route
  published : Bool := false
  quarantined : Bool := false
  extent : ExtentId := {}
  task : TaskId := {}
  lease : Option LeaseId := none
  held : Option LeaseId := none
  command : Command

/-! ## The history of a run -/

/-- What happened, as far as some property of whole runs asks. -/
inductive Event
  | opened (id : OperationId) (kind : Kind) (extent : ExtentId) (command : Command)
  | took (id : OperationId) (command : Command)
  | concluded (id : OperationId) (kind : Kind) (extent : ExtentId) (outcome : Outcome) (bytes : Nat)
      (proven : Bool)
  | quarantined (id : OperationId)
  | registered (extent : ExtentId) (source : PageSource)
  | begun (extent : ExtentId) (source : PageSource) (preserved reuse : Bool)
  | resident (extent : ExtentId)
  | failed (extent : ExtentId)
  | evicting (extent : ExtentId) (place : Option PageSource) (writeBack handoff : Bool)
  | evicted (extent : ExtentId) (preserved : Bool)
  | abandoned (extent : ExtentId)
  | lost (extent : ExtentId)
  | leased (lease : LeaseId) (task : TaskId) (closure : List (ExtentId × Nat))
  | submitted (id : OperationId) (lease : LeaseId) (closure : List (ExtentId × Nat))
  | submittedUnder (id : OperationId) (held : LeaseId)
  | released (lease : LeaseId)
  | replaced (extent : ExtentId)
deriving DecidableEq

end Scheduler

open Base Lib Scheduler in
open Catalog hiding Operation in
structure Scheduler where
  catalog : Catalog
  board : CompletionBoard
  tasks : TaskTable
  records : List (Option TaskRecord)
  operations : List (Option Operation)
  loads : OrdMap ExtentId Load := OrdMap.empty
  evictions : OrdMap ExtentId Eviction := OrdMap.empty
  parked : OrdMap BackingKey (List ExtentId) := OrdMap.empty
  parkedCount : Nat := 0
  releaseQueue : List ExtentId := []
  releasesOpen : Nat := 0
  pumpingReleases : Bool := false
  sources : OrdMap ExtentId PageSource := OrdMap.empty
  pinned : OrdMap ExtentId Nat := OrdMap.empty
  held : OrdMap LeaseId Held := OrdMap.empty
  slots : List SlotState
  started : Nat := 0
  queued : List ExtentId := []
  slotWaiters : List ExtentId := []
  blocked : List ExtentId := []
  pending : Route → List OperationId := fun _ => []
  cancels : List OperationId := []
  quarantined : Nat := 0
  fault : Option Fault := none
  stopping : Bool := false
  turn : Nat := 0
  log : List Event := []

end JitLlm
