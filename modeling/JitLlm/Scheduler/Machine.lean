import JitLlm.Catalog.Ops
import JitLlm.Scheduler.Requests

/-!
# The scheduler as a machine

A `World` is the scheduler between two of its instructions: its state, the calls the function in
hand still ends in (`work`, made before anything below), and the loops they were made from
(`control`). One `step` makes the first of them, or, with nothing in hand, begins what a turn
does next. What is not the scheduler's to decide is in the step's `Label`: a lane's answer, a
publication on the board, the next call of the running task's program, and the calls of the
scheduler's owner.

A turn applies controls, harvests, flushes and steps tasks, in that order; here each may come
next, in any order, so a property of every reachable world is one of every turn.

Lanes publish only for operations whose command they took. The owner may make any call of the
catalog but those that begin and end loads and evictions, which are the scheduler's, and the
release of a lease the scheduler holds.
-/

namespace JitLlm.Scheduler

open Base Lib
open Catalog hiding Operation

/-! ## Worlds -/

/-- The answer of the last `TaskContext` call. -/
inductive Reply
  | none
  | readiness (answer : Except WorkError Readiness)
  | operation (answer : Except WorkError OperationId)
  | lease (answer : Except WorkError LeaseId)
  | child (answer : Except StartError TaskId)
  | failed (answer : Bool)

inductive Control
  | observe (seen : Observation)
  | flushRoute (route : Route)
  | retryBlocked (n : Nat)
  | flushCancels (i : Nat)
  | finish (t : TaskId) (outcome : TaskOutcome)
  | cancelPageIns (extents : List ExtentId)
  | rollBackRoutes (t : TaskId) (routes : List Route)
  | rollBackIds (t : TaskId) (ids : List OperationId)
  | finished (t : TaskId) (parent : Option TaskId)
  | finishCancelled (i : Nat)
  | cancelRequest (request : Nat) (i : Nat)
  | stopFrom (i : Nat)
  | materialize (t : TaskId) (closure : List (ExtentId × Nat)) (waiting : Bool)
  | answer (reply : Reply)
  | program (t : TaskId)

structure World where
  state : Scheduler
  work : List Work := []
  control : List Control := []
  reply : Reply := .none

/-- A `TaskContext` call. -/
inductive Call
  | materialize (closure : Closure)
  | submit (basis : Over) (command : Command)
  | holdLease (closure : Closure)
  | endLease (lease : LeaseId)
  | awaitRelease (extents : List ExtentId)
  | awaitSignal
  | spawn (hasProgram : Bool) (priority : Nat)
  | evict (extent : ExtentId) (handoff : Bool)
  | takeFailure

inductive Label
  -- The scheduler goes on; a lane asked to take something answers `answer`.
  | work (answer : PushResult)
  | control (answer : PushResult)
  -- The running task's program makes a call, or its step ends.
  | call (call : Call)
  | yield (kind : StepKind) (outcome : TaskOutcome)
  -- With nothing in hand, what a turn does.
  | start (request : Nat) (hasProgram : Bool) (priority : Nat)
  | cancel (request : Nat)
  | signal (request : Nat)
  | stop
  | turn
  | harvest (limit : Nat)
  | flush
  | next
  -- A lane publishes.
  | accept (id : OperationId) (acceptance : Acceptance)
  | complete (id : OperationId) (terminal : Terminal)
  -- The owner, or the running task's program, calls the scheduler or the catalog.
  | setSource (extent : ExtentId) (source : PageSource)
  | pinPlaces (extents : List ExtentId)
  | unpinPlaces (extents : List ExtentId)
  | catalog (op : Catalog.Op)

variable (x : Config)

def initial : Scheduler where
  catalog := {}
  board := CompletionBoard.ofMailboxes x.mailboxes x.firstGeneration
  tasks := TaskTable.ofCapacity x.settings.tasks x.settings.priorities x.settings.agingLimit
  records := List.replicate x.settings.tasks none
  operations := List.replicate x.mailboxes none
  slots := List.replicate x.settings.landing.slots.length .free

/-! ## The loops -/

/-- `CancelTask`: the subtree is closed, then every task in it finished. -/
def cancelTask (s : Scheduler) (t : TaskId) : Checked Scheduler := do
  match ← s.tasks.cancel t with
  | (.ok (), tasks) => return { s with tasks }
  | (.error _, _) => .error .cancelNotLive

/-- One turn of `Flush`'s loop over a lane's pending commands. -/
def flushRoute (s : Scheduler) (route : Route) (answer : PushResult) :
    Checked (Scheduler × List Work × Bool) :=
  match s.pending route with
  | [] => .ok (s, [], false)
  | id :: rest =>
    match s.find id with
    | none => .ok (s.setPending route rest, [], true)
    | some op =>
      if op.published then .ok (s.setPending route rest, [], true)
      else match push x op.route answer with
        | .full => .ok (s, [], false)
        | .accepted => .ok ((s.setPending route rest).taken op, [], true)
        | .closed => do
          let (s, work) ← rollBack x (s.setPending route rest) op
          return (s, work, true)

/-- One turn of `RetryBlocked`'s loop; `false` if it ends there. -/
def retryBlocked (s : Scheduler) : Checked (Scheduler × List Work × Bool) :=
  match s.blocked with
  | [] => .ok (s, [], false)
  | e :: blocked => do
    let popped := { s with blocked }
    let opened ← match s.loads.find? e, s.evictions.find? e with
      | some load, _ => do pure (some (← openStage x popped e load))
      | none, some eviction =>
        if eviction.operation.isNone then do pure (some (← openEvictStage x popped e eviction))
        else pure none
      | none, none => pure none
    match opened with
    | none => return (popped, [], true)
    | some none => return (s, [], false)
    | some (some (s, work)) => return (s, work, true)

/-- One turn of `Flush`'s loop over the cancellations to ask again: where it stands after. -/
def flushCancel (s : Scheduler) (i : Nat) (answer : PushResult) :
    Checked (Scheduler × Option Nat) :=
  match s.cancels[i]? with
  | none => .ok (s, none)
  | some id =>
    let gone := ({ s with cancels := s.cancels.eraseIdx i }, some i)
    match s.find id with
    | none => .ok gone
    | some op =>
      if op.quarantined then .ok gone
      else do
        check x.lanes.storage .missing
        if answer = .full then return (s, some (i + 1)) else return gone

/-- `FinishTask`: what is left of it once the task has left what it waits for. -/
def finishTask (s : Scheduler) (t : TaskId) (outcome : TaskOutcome) :
    Checked (Scheduler × List Work × List Control) := do
  match ← s.beginFinish t outcome with
  | none => return (s, [], [])
  | some (view, withdrawn, s, work) =>
    let rollBacks := if view.outcome.getD outcome = .cancelled then
      [.rollBackRoutes t Route.all] else []
    return (s, work, [.cancelPageIns withdrawn] ++ rollBacks ++ [.finished t view.parent])

/-- One turn of the loop in hand: the state, the calls it makes, and the loops it goes on with.
    A program's next call is not the scheduler's to make. -/
def runControl (s : Scheduler) (answer : PushResult) :
    Control → Checked (Scheduler × List Work × List Control)
  | .observe seen => do
    let (s, work) ← observe x s seen
    return (s, work, [])
  | .flushRoute route => do
    let (s, work, more) ← flushRoute x s route answer
    return (s, work, if more then [.flushRoute route] else [])
  | .retryBlocked 0 => .ok (s, [], [])
  | .retryBlocked (n + 1) => do
    let (s, work, more) ← retryBlocked x s
    return (s, work, if more then [.retryBlocked n] else [])
  | .flushCancels i => do
    let (s, next) ← flushCancel x s i answer
    return (s, [], next.toList.map .flushCancels)
  | .finish t outcome => finishTask s t outcome
  | .cancelPageIns [] => .ok (s, [], [])
  | .cancelPageIns (e :: rest) =>
    match s.loads.find? e with
    | none => .ok (s, [], [.cancelPageIns rest])
    | some load => do
      let (s, work) ← cancelPageIn x s e load answer
      return (s, work, [.cancelPageIns rest])
  | .rollBackRoutes _ [] => .ok (s, [], [])
  | .rollBackRoutes t (route :: rest) =>
    .ok (s, [], [.rollBackIds t (s.pending route), .rollBackRoutes t rest])
  | .rollBackIds _ [] => .ok (s, [], [])
  | .rollBackIds t (id :: rest) =>
    match s.find id with
    | none => .ok (s, [], [.rollBackIds t rest])
    | some op =>
      if !op.published ∧ (op.kind = .device ∨ op.kind = .cpu) ∧ op.task = t then do
        let (s, work) ← rollBack x s op
        return (s, work, [.rollBackIds t rest])
      else .ok (s, [], [.rollBackIds t rest])
  | .finished t parent => do
    let s ← match parent with
      | none => pure s
      | some parent => s.wake parent false
    return (← s.tryRetire t, [], [])
  | .finishCancelled i =>
    match s.records[i]? with
    | none => .ok (s, [], [])
    | some none => .ok (s, [], [.finishCancelled (i + 1)])
    | some (some r) =>
      if r.finished then .ok (s, [], [.finishCancelled (i + 1)])
      else do
        let view ← s.viewOf r.id
        if view.cancelled then
          return (s, [], [.finish r.id .cancelled, .finishCancelled (i + 1)])
        else return (s, [], [.finishCancelled (i + 1)])
  | .cancelRequest request i =>
    match s.records[i]? with
    | none => .ok (s, [], [])
    | some none => .ok (s, [], [.cancelRequest request (i + 1)])
    | some (some r) =>
      if r.request ≠ request then .ok (s, [], [.cancelRequest request (i + 1)])
      else do
        let view ← s.viewOf r.id
        if view.parent.isSome then return (s, [], [.cancelRequest request (i + 1)])
        else return (← s.cancelTask r.id, [], [.finishCancelled 0, .cancelRequest request (i + 1)])
  | .stopFrom i =>
    match s.records[i]? with
    | none => .ok (s, [], [])
    | some none => .ok (s, [], [.stopFrom (i + 1)])
    | some (some r) =>
      if r.finished then .ok (s, [], [.stopFrom (i + 1)])
      else do
        return (← s.cancelTask r.id, [], [.finishCancelled 0, .stopFrom (i + 1)])
  | .materialize _ [] waiting =>
    .ok (s, [], [.answer (.readiness (.ok (if waiting then .waiting else .ready)))])
  | .materialize t ((e, generation) :: rest) waiting => do
    let r ← require .missing (s.record? t)
    match ← materializeOne x s t r e generation with
    | (.error error, s, work) => return (s, work, [.answer (.readiness (.error error))])
    | (.ok waits, s, work) => return (s, work, [.materialize t rest (waiting || waits)])
  | .answer _ => .ok (s, [], [])
  | .program t => .ok (s, [], [.program t])

/-! ## Calls -/

/-- A call of task `t`'s program: the state, the calls it makes, the loop it goes on with, and
    its answer (for a `Materialize`, once its loop ends). -/
def runCall (s : Scheduler) (t : TaskId) :
    Call → Checked (Scheduler × List Work × List Control × Reply)
  | .materialize closure =>
    match s.openRecord t with
    | none => .ok (s, [], [], .readiness (.error .closed))
    | some _ => .ok (s, [], [.materialize t closure.extents false], .none)
  | .submit basis command => do
    let (answer, s, work) ← submit x s t basis command
    return (s, work, [], .operation answer)
  | .holdLease closure => do
    let (answer, s) ← holdLease x s t closure
    return (s, [], [], .lease answer)
  | .endLease lease => do
    let (answer, s) ← s.endLease t lease
    return (s, [], [], .readiness answer)
  | .awaitRelease extents => do
    let (answer, s) ← awaitRelease x s t extents
    return (s, [], [], .readiness answer)
  | .awaitSignal =>
    let (answer, s) := s.awaitSignal t
    .ok (s, [], [], .readiness answer)
  | .spawn hasProgram priority => do
    let (answer, s) ← startTask x s 0 hasProgram priority (some t)
    return (s, [], [], .child answer)
  | .evict e handoff => do
    let (answer, s, work) ← evict x s t e handoff
    return (s, work, [], .readiness answer)
  | .takeFailure =>
    let (answer, s) := s.takeFailure t
    .ok (s, [], [], .failed answer)

/-- The end of a task's step (`StepTask`). -/
def endStep (s : Scheduler) (t : TaskId) (kind : StepKind) (outcome : TaskOutcome) :
    Checked (Scheduler × List Control) := do
  let r ← require .missing (s.record? t)
  match kind with
  | .yield => return (← s.makeReady r, [])
  | .wait => if r.waiting = 0 then return (← s.makeReady r, []) else return (s, [])
  | .finish => return (s, [.finish t outcome])

/-! ## The owner's calls -/

def ownerMay (s : Scheduler) : Catalog.Op → Bool
  | .beginLoad _ _ | .completeLoad _ | .failLoad _ _ | .beginEvict _ _ | .completeEvict _
  | .cancelEvict _ | .quarantineEviction _ => false
  | .releaseLease lease =>
    !s.held.contains lease && s.operations.all fun op => op.all (·.lease ≠ some lease)
  | _ => true

def ownerCall (s : Scheduler) : Catalog.Op → Checked Scheduler
  | .replaceContents e => do
    match ← s.catalog.replaceContents e with
    | (.ok (), catalog) => return { s with catalog, log := .replaced e :: s.log }
    | (.error _, catalog) => return { s with catalog }
  | op => do return { s with catalog := ← op.run s.catalog }

def tookBy (id : OperationId) : Event → Bool
  | .took id' _ => id' = id
  | _ => false

/-! ## Steps -/

def World.idle (w : World) : Bool := w.work.isEmpty && w.control.isEmpty

def World.running (w : World) : Option TaskId :=
  match w.work, w.control with
  | [], .program t :: _ => some t
  | _, _ => none

def World.open (w : World) : Bool := w.idle || w.running.isSome

/-- A step of the world; `none` where the label's does not come next. -/
def step (w : World) : Label → Checked (Option World)
  | .work answer =>
    match w.work with
    | [] => return none
    | call :: rest => do
      let (state, work) ← runWork x w.state answer call
      return some { w with state, work := work ++ rest }
  | .control answer =>
    match w.work, w.control with
    | [], loop :: rest => do
      let (state, work, control) ← runControl x w.state answer loop
      let reply := match loop with
        | .answer reply => reply
        | _ => w.reply
      return some { state, work, control := control ++ rest, reply }
    | _, _ => return none
  | .call call =>
    match w.running with
    | none => return none
    | some t => do
      let (state, work, control, reply) ← runCall x w.state t call
      return some { state, work, control := control ++ w.control, reply }
  | .yield kind outcome =>
    match w.running with
    | none => return none
    | some t => do
      let (state, control) ← w.state.endStep t kind outcome
      return some { state, control := control ++ w.control.tail }
  | .start request hasProgram priority =>
    if w.idle then do
      let (_, state) ← startTask x w.state request hasProgram priority none
      return some { w with state }
    else return none
  | .cancel request =>
    if w.idle then return some { w with control := [.cancelRequest request 0] } else return none
  | .signal request =>
    if w.idle then do return some { w with state := ← w.state.signal request } else return none
  | .stop =>
    if w.idle then
      if w.state.stopping then return some w
      else return some { w with
        state := { w.state with stopping := true }, control := [.stopFrom 0] }
    else return none
  | .turn =>
    if w.idle then return some { w with state := { w.state with turn := w.state.turn + 1 } }
    else return none
  | .harvest limit =>
    if w.idle then
      let (seen, board) := w.state.board.harvest limit
      return some { w with state := { w.state with board }, control := seen.map .observe }
    else return none
  | .flush =>
    if w.idle then
      return some { w with control := Route.all.map .flushRoute ++
        [.retryBlocked w.state.blocked.length, .flushCancels 0] }
    else return none
  | .next =>
    if w.idle then do
      match ← w.state.tasks.ready.next with
      | none => return some w
      | some (t, ready) =>
        let state := { w.state with tasks := { w.state.tasks with ready } }
        match state.record? t with
        | none => return some { w with state }
        | some r =>
          if r.finished then return some { w with state }
          else return some { state, control := [.program t] }
    else return none
  | .accept id acceptance =>
    if acceptance ≠ .none ∧ w.state.log.any (tookBy id) then do
      let (_, board) ← w.state.board.accept id acceptance
      return some { w with state := { w.state with board } }
    else return none
  | .complete id terminal =>
    if w.state.log.any (tookBy id) then do
      let (_, board) ← w.state.board.complete id terminal
      return some { w with state := { w.state with board } }
    else return none
  | .setSource e source =>
    if w.open then return some { w with state := (setSource x w.state e source).2 }
    else return none
  | .pinPlaces extents =>
    if w.open then return some { w with state := (w.state.pinPlaces extents).2 } else return none
  | .unpinPlaces extents =>
    if w.open then return some { w with state := w.state.unpinPlaces extents } else return none
  | .catalog op =>
    if w.open ∧ w.state.ownerMay op then do
      return some { w with state := ← w.state.ownerCall op }
    else return none

inductive Reachable : World → Prop
  | start : Reachable { state := initial x }
  | step {w w' : World} (label : Label) :
      Reachable w → step x w label = .ok (some w') → Reachable w'

end JitLlm.Scheduler
