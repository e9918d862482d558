import JitLlm.Scheduler.Controls
import JitLlm.Providers.DeviceMemory

/-!
# `scheduler/services.cc` — the device service

`DeviceService`: the submission lane takes commands, gives their copies and jobs to the
provider, records a fence after them and hands it over; the completion lane watches the fences
it was handed and publishes what they prove. Between the lanes stand a bounded queue of fences
and, when it is full, one fence that waits (`unhanded`).

The provider's answers are inputs of the functions here. What the lanes publish, and what was
queued, recorded and seen complete at the provider, is kept in `log`, newest first; the
publications are not in the source's state but on the completion board. Clocks, the wake flags
and the expected lengths are left out: they decide when a lane looks, never what it finds.
-/

namespace JitLlm.Scheduler.Device

open Base Controls Providers

inductive DeviceFatal
  | launchWhileWaiting  -- "a launch while a fence waits for the completion lane"
  | handedAfterFinish   -- "a fence handed over after the lane finished"
  | refusedFence        -- "the device refused a fence its completion lane holds"
  | refusedRelease      -- "the device refused to release a fence seen complete"
deriving DecidableEq

variable {Fence : Type}

/-! ## Commands -/

structure DeviceCopy where
  destination : Nat
  source : Nat
  size : Bytes
deriving DecidableEq

def kMaxDeviceCopies : Nat := 4

/-- `DeviceWork`: its first `count` copies. -/
structure DeviceWork where
  stream : Nat
  copies : List DeviceCopy
deriving DecidableEq

inductive JobResult
  | notStarted | queued | failed | unknown
deriving DecidableEq

/-- `LaunchWork`; whether it has a job. -/
structure LaunchWork where
  stream : Nat
  job : Bool
deriving DecidableEq

inductive BackingWork.Kind
  | map | unmap | release
deriving DecidableEq

structure BackingWork where
  kind : BackingWork.Kind
  reservation : ReservationId
  offset : Bytes
  size : Bytes
  allocationClass : Nat
  retain : Bool := false
  reuse : Bool := false
deriving DecidableEq

inductive Work
  | copies (work : DeviceWork)
  | backing (work : BackingWork)
  | launch (work : LaunchWork)
deriving DecidableEq

def Work.fenced : Work → Bool
  | .backing _ => false
  | _ => true

structure DeviceCommand where
  operation : OperationId
  work : Work
deriving DecidableEq

/-! ## The history -/

inductive Event (Fence : Type)
  -- a copy or a job's work of the operation that was queued on the stream, or may have been
  | queued (operation : OperationId) (stream : Nat)
  | recorded (fence : Fence) (stream : Nat)
  -- a query saw the fence complete
  | seen (fence : Fence)
  | accepted (operation : OperationId) (acceptance : Acceptance)
  | completed (operation : OperationId) (terminal : Terminal)
deriving DecidableEq

/-! ## VMM work -/

structure HandoffEntry where
  allocationClass : Nat
  size : Bytes
  backing : BackingId
deriving DecidableEq

/-- `HandoffStash`, the most recently kept first. -/
abbrev HandoffStash := List HandoffEntry

def HandoffStash.put (stash : HandoffStash) (allocationClass : Nat) (size : Bytes)
    (backing : BackingId) : HandoffStash := ⟨allocationClass, size, backing⟩ :: stash

def HandoffStash.take (allocationClass : Nat) (size : Bytes) :
    HandoffStash → Option (BackingId × HandoffStash)
  | [] => none
  | entry :: rest =>
    if entry.allocationClass = allocationClass ∧ entry.size = size then
      some (entry.backing, rest)
    else (HandoffStash.take allocationClass size rest).map fun r => (r.1, entry :: r.2)

/-- The provider of device memory, if there is one, and what each of its calls answers; no path
    makes one of them twice. -/
structure BackingAnswers where
  memory : Bool
  create : Except ProviderError BackingId
  map : Except ProviderError Unit
  setAccess : Except ProviderError Unit
  unmap : Except ProviderError Unit
  release : Except ProviderError Unit
  mappedAt : Option BackingId

section CarryOut

variable (operation : OperationId) (work : BackingWork) (a : BackingAnswers)

def notStarted : List (Event Fence) := [.accepted operation .notStarted]

/-- `unproven`; newest first. -/
def unproven (acceptance : Acceptance) : List (Event Fence) :=
  [.completed operation { outcome := .failed }, .accepted operation acceptance]

/-- The end of `CarryOut`. -/
def carriedOut : List (Event Fence) :=
  [.completed operation { bytes := work.size.value, noFurtherAccess := true },
    .accepted operation .accepted]

def failedCall (error : ProviderError) (stash kept : HandoffStash) :
    List (Event Fence) × HandoffStash :=
  if error = .unknown then (unproven operation .unknown, stash) else (notStarted operation, kept)

/-- `kRelease`. -/
def carryRelease (stash : HandoffStash) : List (Event Fence) × HandoffStash :=
  match HandoffStash.take work.allocationClass work.size stash with
  | none => (notStarted operation, stash)
  | some (kept, rest) =>
    match a.release with
    | .error error =>
      failedCall operation error rest (rest.put work.allocationClass work.size kept)
    | .ok _ => (carriedOut operation work, rest)

/-- `undo`: whether it succeeded, and the stash. -/
def undo (backing : BackingId) (stash : HandoffStash) : Bool × HandoffStash :=
  if work.reuse then (true, stash.put work.allocationClass work.size backing)
  else (a.release.toBool, stash)

/-- `kMap` once it has its backing. -/
def mapBacking (backing : BackingId) (stash : HandoffStash) : List (Event Fence) × HandoffStash :=
  match a.map with
  | .error error =>
    if error = .unknown then (unproven operation .unknown, stash)
    else
      let undone := undo work a backing stash
      (if undone.1 then notStarted operation else unproven operation .accepted, undone.2)
  | .ok _ =>
    match a.setAccess with
    | .error error =>
      if error = .unknown then (unproven operation .unknown, stash)
      else
        match a.unmap with
        | .error _ => (unproven operation .accepted, stash)
        | .ok _ =>
          let undone := undo work a backing stash
          (if undone.1 then notStarted operation else unproven operation .accepted, undone.2)
    | .ok _ => (carriedOut operation work, stash)

/-- `kMap`. -/
def carryMap (stash : HandoffStash) : List (Event Fence) × HandoffStash :=
  if work.reuse then
    match HandoffStash.take work.allocationClass work.size stash with
    | none => (notStarted operation, stash)
    | some (backing, rest) => mapBacking operation work a backing rest
  else
    match a.create with
    | .error error => failedCall operation error stash stash
    | .ok backing => mapBacking operation work a backing stash

/-- `kUnmap`. -/
def carryUnmap (stash : HandoffStash) : List (Event Fence) × HandoffStash :=
  match a.mappedAt with
  | none => (notStarted operation, stash)
  | some backing =>
    match a.unmap with
    | .error error =>
      if error = .undetermined then (unproven operation .accepted, stash)
      else failedCall operation error stash stash
    | .ok _ =>
      if work.retain then
        (carriedOut operation work, stash.put work.allocationClass work.size backing)
      else
        match a.release with
        | .error error =>
          (unproven operation (if error = .unknown then .unknown else .accepted), stash)
        | .ok _ => (carriedOut operation work, stash)

def carryOut (stash : HandoffStash) : List (Event Fence) × HandoffStash :=
  if a.memory = false then (notStarted operation, stash)
  else
    match work.kind with
    | .release => carryRelease operation work a stash
    | .map => carryMap operation work a stash
    | .unmap => carryUnmap operation work a stash

end CarryOut

/-! ## The lanes -/

/-- `Watch`; no operation for a fence that only balances its stream. -/
structure Watch (Fence : Type) where
  operation : Option OperationId
  fence : Fence
  outcome : Outcome
  bytes : Nat
  refusals : Nat
  stream : Nat
deriving DecidableEq

structure Release (Fence : Type) where
  fence : Fence
  refusals : Nat
deriving DecidableEq

/-- `DeviceSettings` and the number of streams. -/
structure DeviceSettings where
  streams : Nat
  batch : Nat
  handoff : Nat
  refusals : Nat

structure DeviceService (Fence : Type) where
  queue : BoundedQueue DeviceCommand
  handoff : BoundedQueue (Watch Fence)
  unhanded : Option (Watch Fence) := none
  finished : Bool := false
  watches : List (Watch Fence) := []
  releases : List (Release Fence) := []
  stash : HandoffStash := []
  log : List (Event Fence) := []

def DeviceService.create (x : DeviceSettings) (capacity reserved : Nat) :
    Option (DeviceService Fence) :=
  if x.batch > 0 ∧ x.streams ≠ 0 ∧ x.refusals > 0 then do
    let queue ← BoundedQueue.create capacity reserved
    let handoff ← BoundedQueue.create x.handoff 0
    return { queue, handoff }
  else none

/-- What a command's provider calls answer: each copy, the stream's handle, the job, the fence's
    record, and the memory. -/
structure LaunchAnswers (Fence : Type) where
  copies : Nat → Except ProviderError Unit
  submission : Except ProviderError Unit
  job : JobResult
  record : Except ProviderError Fence
  backing : BackingAnswers

/-- `queued`, `refused`, `unknown` and `bytes`, with what was queued or may have been. -/
structure Issued (Fence : Type) where
  queued : Bool := false
  refused : Bool := false
  unknown : Bool := false
  bytes : Nat := 0
  events : List (Event Fence) := []

/-- `Copy`'s loop. -/
def issueCopies (operation : OperationId) (stream : Nat) (answers : Nat → Except ProviderError Unit) :
    Nat → List DeviceCopy → Issued Fence → Issued Fence
  | _, [], issued => issued
  | i, copy :: rest, issued =>
    match answers i with
    | .ok _ =>
      issueCopies operation stream answers (i + 1) rest { issued with
        queued := true
        bytes := (issued.bytes + copy.size.value) % 2 ^ 64
        events := .queued operation stream :: issued.events }
    | .error error =>
      -- A known refusal queued nothing; an unknown outcome may have.
      if error = .unknown then
        { issued with
          refused := true, unknown := true, events := .queued operation stream :: issued.events }
      else { issued with refused := true }

/-- What `Run`'s job says, given a stream's handle to queue on. -/
def LaunchAnswers.result (a : LaunchAnswers Fence) : JobResult :=
  match a.submission with
  | .ok _ => a.job
  | .error error => if error = .unknown then .unknown else .notStarted

/-- `Run`'s job. -/
def issueJob (operation : OperationId) (stream : Nat) (a : LaunchAnswers Fence) : Issued Fence :=
  let result := a.result
  { queued := result = .queued || result = .failed
    refused := result = .failed || result = .unknown
    unknown := result = .unknown
    events := if result = .notStarted then [] else [.queued operation stream] }

namespace DeviceService

variable (x : DeviceSettings)

def hand (s : DeviceService Fence) (watch : Watch Fence) :
    Except DeviceFatal (DeviceService Fence) :=
  if s.unhanded.isSome then .error .launchWhileWaiting
  else
    match s.handoff.tryPush watch .ordinary with
    | (.closed, _) => .error .handedAfterFinish
    | (.full, _) => .ok { s with unhanded := some watch }
    | (.accepted, handoff) => .ok { s with handoff }

def handPending (s : DeviceService Fence) : Except DeviceFatal (Bool × DeviceService Fence) :=
  match s.unhanded with
  | none => .ok (false, s)
  | some watch =>
    match s.handoff.tryPush watch .ordinary with
    | (.closed, _) => .error .handedAfterFinish
    | (.full, _) => .ok (false, s)
    | (.accepted, handoff) => .ok (true, { s with handoff, unhanded := none })

def note (s : DeviceService Fence) (events : List (Event Fence)) : DeviceService Fence :=
  { s with log := events ++ s.log }

def fence (s : DeviceService Fence) (operation : OperationId) (stream : Nat)
    (record : Except ProviderError Fence) (issued : Issued Fence) :
    Except DeviceFatal (DeviceService Fence) :=
  let s := s.note issued.events
  let s := match record with
    | .ok fence => s.note [.recorded fence stream]
    | .error _ => s
  if issued.queued = false ∧ issued.unknown = false then
    let s := s.note [.accepted operation .notStarted]
    match record with
    | .ok fence => s.hand
        { operation := none, fence, outcome := .failed, bytes := 0, refusals := 0, stream }
    | .error _ => .ok s
  else
    let s := s.note [.accepted operation (if issued.unknown then .unknown else .accepted)]
    match record with
    | .error _ =>
      -- Nothing can show when the queued work ends.
      .ok (s.note [.completed operation { outcome := .failed, bytes := issued.bytes }])
    | .ok fence => s.hand
        { operation := some operation, fence
          outcome := if issued.refused then .failed else .succeeded
          bytes := issued.bytes, refusals := 0, stream }

def copy (s : DeviceService Fence) (operation : OperationId) (work : DeviceWork)
    (a : LaunchAnswers Fence) : Except DeviceFatal (DeviceService Fence) :=
  if work.stream ≥ x.streams ∨ work.copies.length = 0 ∨ work.copies.length > kMaxDeviceCopies then
    .ok (s.note [.accepted operation .notStarted])
  else
    s.fence operation work.stream a.record
      (issueCopies operation work.stream a.copies 0 work.copies {})

def run (s : DeviceService Fence) (operation : OperationId) (work : LaunchWork)
    (a : LaunchAnswers Fence) : Except DeviceFatal (DeviceService Fence) :=
  if work.stream ≥ x.streams ∨ work.job = false then
    .ok (s.note [.accepted operation .notStarted])
  else s.fence operation work.stream a.record (issueJob operation work.stream a)

def back (s : DeviceService Fence) (operation : OperationId) (work : BackingWork)
    (a : LaunchAnswers Fence) : DeviceService Fence :=
  let carried := carryOut operation work a.backing s.stash
  { s.note carried.1 with stash := carried.2 }

def launch (s : DeviceService Fence) (command : DeviceCommand) (a : LaunchAnswers Fence) :
    Except DeviceFatal (DeviceService Fence) :=
  match command.work with
  | .copies work => s.copy x command.operation work a
  | .launch work => s.run x command.operation work a
  | .backing work => .ok (s.back command.operation work a)

def takeOne (s : DeviceService Fence) (a : LaunchAnswers Fence) :
    Except DeviceFatal (DeviceService Fence) :=
  if s.unhanded.isSome then .ok s
  else
    match s.queue.tryPop with
    | none => .ok s
    | some (command, queue) => launch x { s with queue } command a

def drained (s : DeviceService Fence) : Bool := s.queue.closed && s.queue.items.isEmpty

def finish (s : DeviceService Fence) : DeviceService Fence :=
  if s.finished then s else { s with finished := true, handoff := s.handoff.close }

def endSubmission (s : DeviceService Fence) : DeviceService Fence :=
  if s.unhanded.isNone ∧ s.drained then s.finish else s

/-- `SubmissionTurn`'s loop, one answer for each command it may take. -/
def takeAll (s : DeviceService Fence) :
    List (LaunchAnswers Fence) → Except DeviceFatal (DeviceService Fence)
  | [] => .ok s
  | a :: rest => do takeAll (← s.takeOne x a) rest

/-- `SubmissionTurn`; `answers` are for the `batch` commands it may take. -/
def submissionTurn (s : DeviceService Fence) (answers : List (LaunchAnswers Fence)) :
    Except DeviceFatal (DeviceService Fence) := do
  let (_, s) ← s.handPending
  return (← s.takeAll x (answers.take x.batch)).endSubmission

def submit (s : DeviceService Fence) (command : DeviceCommand) (kind : PushKind) :
    PushResult × DeviceService Fence :=
  let pushed := s.queue.tryPush command kind
  (pushed.1, { s with queue := pushed.2 })

def close (s : DeviceService Fence) : DeviceService Fence := { s with queue := s.queue.close }

/-! ### The completion lane -/

inductive FenceState
  | pending | complete
deriving DecidableEq

/-- One round of `CompletionTurn`'s first loop. -/
def takeFence (s : DeviceService Fence) : DeviceService Fence :=
  if s.watches.length + s.releases.length < x.handoff then
    match s.handoff.tryPop with
    | none => s
    | some (watch, handoff) => { s with handoff, watches := s.watches ++ [watch] }
  else s

/-- What becomes of a watch that was asked about: it stays, as it is now, or it goes, seen
    complete or unproven. -/
inductive Asked (Fence : Type)
  | stays (watch : Watch Fence)
  | complete
  | unproven

/-- `Query`'s answer on a watch. -/
def ask (watch : Watch Fence) (state : Except ProviderError FenceState) :
    Except DeviceFatal (Asked Fence) :=
  match state with
  | .ok .pending => .ok (.stays { watch with refusals := 0 })
  | .ok .complete => .ok .complete
  | .error error =>
    if error = .unknown then .ok .unproven
    else if error = .failed then
      if watch.refusals + 1 ≥ x.refusals then .ok .unproven
      else .ok (.stays { watch with refusals := watch.refusals + 1 })
    else .error .refusedFence

def publish (watch : Watch Fence) (terminal : Terminal) : List (Event Fence) :=
  match watch.operation with
  | some operation => [.completed operation terminal]
  | none => []

/-- The watch at place `i` asked about, as `CompletionTurn`'s second loop does. -/
def query (s : DeviceService Fence) (i : Nat) (state : Except ProviderError FenceState) :
    Except DeviceFatal (DeviceService Fence) :=
  match s.watches[i]? with
  | none => .ok s
  | some watch =>
    match ask x watch state with
    | .error fatal => .error fatal
    | .ok (.stays watch) => .ok { s with watches := s.watches.set i watch }
    | .ok .complete =>
      .ok { s.note (publish watch
          { outcome := watch.outcome, bytes := watch.bytes, noFurtherAccess := true } ++
            [.seen watch.fence]) with
        watches := s.watches.eraseIdx i
        releases := s.releases ++ [⟨watch.fence, 0⟩] }
    | .ok .unproven =>
      .ok { s.note (publish watch { outcome := .failed, bytes := watch.bytes }) with
        watches := s.watches.eraseIdx i }

/-- The fence at place `i` of `releases` given back, as `CompletionTurn`'s last loop does. -/
def release (s : DeviceService Fence) (i : Nat) (answer : Except ProviderError Unit) :
    Except DeviceFatal (DeviceService Fence) :=
  match s.releases[i]? with
  | none => .ok s
  | some release =>
    match answer with
    | .ok _ => .ok { s with releases := s.releases.eraseIdx i }
    | .error error =>
      if error = .failed ∧ release.refusals + 1 < x.refusals then
        .ok { s with releases := s.releases.set i { release with refusals := release.refusals + 1 } }
      else if error = .unknown ∨ error = .failed then
        .ok { s with releases := s.releases.eraseIdx i }
      else .error .refusedRelease

def takeFences (s : DeviceService Fence) : Nat → DeviceService Fence
  | 0 => s
  | n + 1 => takeFences (s.takeFence x) n

/-- The second loop from place `i` on, one answer for each watch that is left. -/
def queryFrom (s : DeviceService Fence) (i : Nat) :
    List (Except ProviderError FenceState) → Except DeviceFatal (DeviceService Fence)
  | [] => .ok s
  | state :: rest => do
    let s' ← s.query x i state
    queryFrom s' (if s'.watches.length < s.watches.length then i else i + 1) rest

/-- The last loop from place `i` on. -/
def releaseFrom (s : DeviceService Fence) (i : Nat) :
    List (Except ProviderError Unit) → Except DeviceFatal (DeviceService Fence)
  | [] => .ok s
  | answer :: rest => do
    let s' ← s.release x i answer
    releaseFrom s' (if s'.releases.length < s.releases.length then i else i + 1) rest

/-- `CompletionTurn`: the answers of its queries and releases; whether it got the lock that the
    submission lane holds around its provider calls. -/
def completionTurn (s : DeviceService Fence) (states : List (Except ProviderError FenceState))
    (locked : Bool) (answers : List (Except ProviderError Unit)) :
    Except DeviceFatal (DeviceService Fence) := do
  let s := s.takeFences x x.handoff
  let s ← s.queryFrom x 0 (states.take s.watches.length)
  if locked then s.releaseFrom x 0 (answers.take s.releases.length) else return s

end DeviceService
end JitLlm.Scheduler.Device
