import JitLlm.Memory.Commitment

/-!
# `scheduler/admission.h`, `admission.cc` — admission and the execution slot

A request is refused, queued, or admitted with a grant in the commitment ledger. One admitted
request holds the slot until it retires, unless the policy pauses it at a boundary for one
substitute; others may join it.

A pointer `requests_.Find` gave and the code follows is `request`, which ends the process if the
request is not there. The loops that erase as they walk (`Drain`'s two and `WaitAhead`'s replay)
are bounded by the length of the list they consume, which they cannot exceed. Ticks are natural
numbers: every sum of them is `plus`, which is refused past 2^64 - 1, and every difference is
guarded by the source or stays at zero. `ToString` and the queries are left out.
-/

namespace JitLlm.Admission

open Base Lib Memory

abbrev RequestId := Id .request
abbrev Tick := Nat

inductive RequestClass
  | background | interactive
deriving DecidableEq

def RequestClass.rank : RequestClass → Nat
  | .background => 0
  | .interactive => 1

inductive SwitchingPolicy
  | priorityAware | runToCompletion | timeSlicing
deriving DecidableEq

structure PolicySettings where
  policy : SwitchingPolicy := .priorityAware
  minimumRun : Tick := 0
  pauseCap : Nat := 1
  timeSlice : Tick := 0
  agingLimit : Nat := 4
  queueLimit : Nat := 64
  queueWaitLimit : Option Tick := none

structure RequestSpec where
  requestClass : RequestClass := .interactive
  envelope : Envelope := {}
  work : Tick := 0
  switchCost : Tick := 0
  deadline : Option Tick := none

inductive AdmissionError
  | impossible | deadline | queueFull | queueTimeout | deferred | refused | unknownRequest
  | wrongState
deriving DecidableEq

inductive RequestState
  | queued | waiting | running | paused | retired
deriving DecidableEq

structure Decision where
  run : Option RequestId := none
  paused : Option RequestId := none
  refused : List (RequestId × AdmissionError) := []

structure Submitted where
  id : RequestId
  decision : Decision

structure Request where
  spec : RequestSpec := {}
  state : RequestState := .queued
  grant : Option GrantId := none
  submitted : Tick := 0
  runStarted : Tick := 0
  done : Tick := 0
  pauses : Nat := 0
  passedOver : Nat := 0
  sequence : Nat := 0

/-- `Plus`: a wait beyond the tick range cannot meet a representable deadline. -/
def plus (a b : Tick) : Option Tick := if a > uint64Max - b then none else some (a + b)

/-- `Since`: a clock that went backwards counts as none. -/
def since (now before : Tick) : Tick := if now > before then now - before else 0

def erase (list : List RequestId) (id : RequestId) : List RequestId := list.filter (· ≠ id)

/-- `FromLedger`: a change that breaks only the promised resumption waits for it. -/
def fromLedger : CommitmentError → AdmissionError
  | .breaksResumption => .deferred
  | _ => .refused

end Admission

open Base Admission Memory in
structure Admission where
  ledger : CommitmentLedger
  domain : DomainId
  settings : PolicySettings := {}
  requests : SlotTable .request Request := SlotTable.empty
  queued : List RequestId := []
  waiting : List RequestId := []
  running : List RequestId := []
  paused : Option RequestId := none
  substitute : Option RequestId := none
  nextSequence : Nat := 0

namespace Admission

open Base Lib Memory

abbrev Answer (α : Type) := Except AdmissionError α × Admission

def ensure (fatal : Fatal) (y : Result Unit × CommitmentLedger) : Checked CommitmentLedger :=
  match y with
  | (.ok (), ledger) => .ok ledger
  | (.error _, _) => .error fatal

def create (ledger : CommitmentLedger) (domain : DomainId) (settings : PolicySettings) :
    Checked Admission := do
  check (ledger.totals domain).isSome .unheldDomain
  return { ledger, domain, settings }

variable (a : Admission)

def totals : Checked CommitmentTotals := require .unheldDomain (a.ledger.totals a.domain)

/-- `*requests_.Find(id)`. -/
def request (id : RequestId) : Checked Request := require .missing (a.requests.find? id)

/-- Writing through the pointer `requests_.Find(id)` gave. -/
def modify (id : RequestId) (f : Request → Request) : Checked Admission := do
  let request ← a.request id
  return { a with requests := a.requests.set id (f request) }

def grantOf (id : RequestId) : Checked GrantId :=
  require .noGrant ((a.requests.find? id).bind Request.grant)

def grants (requests : List RequestId) : Checked (List GrantId) := requests.mapM a.grantOf

def syncCohort : Checked Admission := do
  let ledger ← ensure .lostDomain (a.ledger.clearResumption a.domain)
  let cohort ← a.grants a.running
  let ledger ← ensure .runningUnfit (ledger.setCohort a.domain cohort)
  match a.paused, a.substitute with
  | some paused, some substitute =>
    let resumption ← a.grants (erase a.running substitute ++ [paused])
    let grant ← a.grantOf substitute
    let ledger ← ensure .resumptionUnfit (ledger.setResumption a.domain resumption grant)
    return { a with ledger }
  | _, _ => return { a with ledger }

def fitsAlone (spec : RequestSpec) : Checked Bool := do
  let totals ← a.totals
  match (totals.fixed.plus spec.envelope.retained).bind fun b => b.plus spec.envelope.phase with
  | none => return false
  | some required => return required.value ≤ totals.budget.value

/-! ## The estimated wait -/

def before (settings : PolicySettings) (candidate other : Request) : Bool :=
  let candidateAged : Bool := candidate.passedOver ≥ settings.agingLimit
  let otherAged : Bool := other.passedOver ≥ settings.agingLimit
  if candidateAged ≠ otherAged then candidateAged
  else if !candidateAged ∧ candidate.spec.requestClass ≠ other.spec.requestClass then
    candidate.spec.requestClass.rank > other.spec.requestClass.rank
  else candidate.sequence < other.sequence

/-- A choice of class `chosen` passed it over. -/
def passOver (chosen : RequestClass) (request : Request) : Request :=
  if request.spec.requestClass.rank < chosen.rank ∧ request.passedOver < uint32Max then
    { request with passedOver := request.passedOver + 1 }
  else request

def deadlineAllows (running substitute : Request) (now : Tick) : Bool :=
  match running.spec.deadline with
  | none => true
  | some deadline =>
    let finish := (((plus now (running.spec.work - running.done)).bind fun value =>
      plus value substitute.spec.work).bind fun value =>
      plus value running.spec.switchCost).bind fun value =>
      plus value substitute.spec.switchCost
    match finish with
    | none => false
    | some finish => finish ≤ deadline

/-- `WaitAhead`'s `add_work`: what is left of the request, and switching to it. -/
def addWork (wait : Option Tick) (request : Request) : Option Tick :=
  (wait.bind fun value => plus value (request.spec.work - request.done)).bind fun value =>
    plus value request.spec.switchCost

/-- `std::ranges::min_element`: the first of the smallest, and where it is. -/
def minElement (settings : PolicySettings) (choices : List Request) : Option (Request × Nat) :=
  choices.zipIdx.foldl (fun smallest next =>
    match smallest with
    | none => some next
    | some best => if before settings next.1 best.1 then some next else some best) none

/-- The replay of known choices, up to the request of this sequence: the work ahead of it, and
    whether nothing is. -/
def replay (settings : PolicySettings) (sequence : Nat) :
    Nat → List Request → Option Tick → Bool → Option Tick × Bool
  | 0, _, ahead, immediate => (ahead, immediate)
  | fuel + 1, choices, ahead, immediate =>
    match minElement settings choices with
    | none => (ahead, immediate)
    | some (next, i) =>
      if next.sequence = sequence then (ahead, immediate)
      else replay settings sequence fuel
        ((choices.eraseIdx i).map (passOver next.spec.requestClass)) (addWork ahead next) false

/-- What `WaitAhead` knows after each running request: when the slot is free, and the earliest
    pause point. -/
def waitForSlot (target : Request) (immediate : Bool) (now : Tick)
    (soFar : Option Tick × Option Tick) (id : RequestId) : Checked (Option Tick × Option Tick) := do
  let running ← a.request id
  let finish := addWork (some 0) running
  let slot := soFar.1.bind fun slot => finish.map fun finish => Nat.max slot finish
  let higher : Bool := target.spec.requestClass.rank > running.spec.requestClass.rank
  let pausable := immediate && a.paused.isNone && running.pauses < a.settings.pauseCap &&
    (a.settings.policy = .timeSlicing || (a.settings.policy = .priorityAware && higher))
  if !pausable || !deadlineAllows running target now then return (slot, soFar.2)
  else
    let peers ← a.grants (erase a.running id)
    match a.ledger.check a.domain
        { add := some target.spec.envelope, addToCohort := true, cohort := some peers } with
    | .error _ => return (slot, soFar.2)
    | .ok () =>
      let hold := if a.settings.policy = .timeSlicing
        then Nat.max a.settings.minimumRun a.settings.timeSlice else a.settings.minimumRun
      match plus (hold - Nat.min hold (since now running.runStarted)) running.spec.switchCost with
      | none => return (slot, soFar.2)
      | some point => return (slot, some (Nat.min (soFar.2.getD point) point))

/-- `WaitAhead`. Every request in the three lists is followed on every path. -/
def waitAhead (spec : RequestSpec) (sequence : Nat) (now : Tick) : Checked (Option Tick) := do
  let target : Request := { spec, sequence }
  let queued ← a.queued.mapM a.request
  let waiting ← a.waiting.mapM a.request
  let queuedBefore := queued.any fun other => other.sequence < sequence
  let fits := (a.ledger.check a.domain { add := some spec.envelope }).isOk
  let (ahead, immediate) :=
    -- No bypass at admission: every queue predecessor may need to finish.
    if queuedBefore || !fits then
      ((queued.filter fun other => other.sequence < sequence).foldl addWork
        (waiting.foldl addWork (some 0)), false)
    else replay a.settings sequence (waiting.length + 1) (waiting ++ [target]) (some 0) true
  -- Later requests of a higher class may overtake this one in the same batch.
  let overtaking := queued.filter fun other =>
    other.sequence > sequence ∧ other.spec.requestClass.rank > spec.requestClass.rank
  let ahead := overtaking.foldl addWork ahead
  let immediate := immediate && overtaking.isEmpty
  let (slot, pausePoint) ← a.running.foldlM (a.waitForSlot target immediate now) (some 0, none)
  let wait := match pausePoint, slot with
    | some point, some slot => if point < slot then some point else some slot
    | some point, none => some point
    | none, slot => slot
  let wait ← match a.paused with
    | none => pure wait
    | some paused => pure (addWork wait (← a.request paused))
  return wait.bind fun value => ahead.bind fun prior => plus value prior

def unrunnable (request : Request) (now : Tick) : Checked (Option AdmissionError) := do
  if !(← a.fitsAlone request.spec) then return some .impossible
  else if a.settings.queueWaitLimit.any fun limit => since now request.submitted > limit then
    return some .queueTimeout
  else match request.spec.deadline with
    | none => return none
    | some deadline =>
      let wait ← a.waitAhead request.spec request.sequence now
      let finish := ((wait.bind fun wait => plus now wait).bind fun value =>
        plus value request.spec.work).bind fun value => plus value request.spec.switchCost
      match finish with
      | none => return some .deadline
      | some finish => if finish > deadline then return some .deadline else return none

/-! ## The slot -/

def peekNext : Checked (Option RequestId) := do
  let chosen ← a.waiting.foldlM (fun (chosen : RequestId) id => do
    if !chosen.valid then return id
    else if before a.settings (← a.request id) (← a.request chosen) then return id
    else return chosen) {}
  return if chosen.valid then some chosen else none

/-- `ChooseNext`: also ages those it passes over. -/
def chooseNext : Checked (Option RequestId × Admission) := do
  match ← a.peekNext with
  | none => return (none, a)
  | some chosen =>
    let chosenClass := (← a.request chosen).spec.requestClass
    let aged ← a.waiting.foldlM (fun (a : Admission) id =>
      a.modify id fun request =>
        if id ≠ chosen then passOver chosenClass request else request) a
    return (some chosen, aged)

def start (now : Tick) (request : Request) : Request :=
  { request with state := .running, runStarted := now, passedOver := 0 }

def giveSlot (now : Tick) : Checked (Decision × Admission) := do
  if !a.running.isEmpty || a.paused.isSome then return ({}, a)
  else
    match ← a.chooseNext with
    | (none, a) => return ({}, a)
    | (some next, a) =>
      let a ← a.modify next (start now)
      let a ← syncCohort
        { a with waiting := erase a.waiting next, running := a.running ++ [next] }
      return ({ run := some next }, a)

/-! ## The events -/

def submit (spec : RequestSpec) (now : Tick) : Checked (Answer Submitted) := do
  let request : Request := { spec, submitted := now, sequence := a.nextSequence }
  match ← a.unrunnable request now with
  | some why => return (.error why, a)
  | none =>
    let (grant, ledger) := if a.queued.isEmpty
      then match a.ledger.grant a.domain spec.envelope with
        | (.ok grant, ledger) => (some grant, ledger)
        | (.error _, ledger) => (none, ledger)
      else (none, a.ledger)
    let a := { a with ledger }
    match grant with
    | none =>
      if a.queued.length ≥ a.settings.queueLimit then return (.error .queueFull, a)
      else match a.requests.insert request with
        | none => return (.error .queueFull, a)
        | some (id, requests) =>
          return (.ok { id, decision := {} },
            { a with
              requests
              nextSequence := (a.nextSequence + 1) % 2 ^ 64
              queued := a.queued ++ [id] })
    | some grant =>
      match a.requests.insert { request with grant := some grant, state := .waiting } with
      | none =>
        let ledger ← ensure .freshGrant (a.ledger.retire grant)
        return (.error .queueFull, { a with ledger })
      | some (id, requests) =>
        let (decision, a) ← giveSlot
          { a with
            requests
            nextSequence := (a.nextSequence + 1) % 2 ^ 64
            waiting := a.waiting ++ [id] } now
        return (.ok { id, decision }, a)

/-- The waiting request that would take the slot at this boundary of `request`, if the policy
    lets one: the guards of `Boundary`, in its order. -/
def candidateAt (request : Request) (now : Tick) : Checked (Option RequestId) := do
  if a.paused.isSome || a.settings.policy = .runToCompletion || a.waiting.isEmpty then return none
  else
    let ran := since now request.runStarted
    if ran < a.settings.minimumRun || request.pauses ≥ a.settings.pauseCap then return none
    else match ← a.peekNext with
      | none => return none
      | some candidate =>
        let other ← a.request candidate
        let eligible : Bool := if a.settings.policy = .timeSlicing
          then ran ≥ a.settings.timeSlice
          else other.spec.requestClass.rank > request.spec.requestClass.rank
        if !eligible || !deadlineAllows request other now then return none
        else return some candidate

/-- `Boundary`, once the candidate's cohort fits: the request pauses and the candidate runs. -/
def pauseFor (id candidate : RequestId) (now : Tick) : Checked (Decision × Admission) := do
  let (chosen, a) ← a.chooseNext
  check (chosen = some candidate) .choiceChanged
  let a ← a.modify id fun request =>
    { request with state := .paused, pauses := request.pauses + 1 }
  let a ← a.modify candidate (start now)
  let a ← syncCohort
    { a with
      running := erase a.running id ++ [candidate]
      paused := some id
      substitute := some candidate
      waiting := erase a.waiting candidate }
  return ({ run := some candidate, paused := some id }, a)

def boundary (id : RequestId) (done now : Tick) : Checked (Answer Decision) := do
  match a.requests.find? id with
  | none => return (.error .unknownRequest, a)
  | some request =>
    if request.state ≠ .running then return (.error .wrongState, a)
    else
      let request := { request with done := Nat.max request.done done }
      let a := { a with requests := a.requests.set id request }
      match ← a.candidateAt request now with
      | none => return (.ok {}, a)
      | some candidate =>
        let after ← a.grants (erase a.running id ++ [candidate])
        match a.ledger.check a.domain { cohort := some after } with
        | .error _ => return (.ok {}, a)
        | .ok () =>
          let (decision, a) ← a.pauseFor id candidate now
          return (.ok decision, a)

/-- `Drain`'s first loop, from the `i`-th of the queue on: what can no longer run is refused. -/
def refuseQueued (now : Tick) :
    Nat → Nat → List (RequestId × AdmissionError) → Admission →
      Checked (List (RequestId × AdmissionError) × Admission)
  | 0, _, refused, a => .ok (refused, a)
  | fuel + 1, i, refused, a =>
    match a.queued[i]? with
    | none => .ok (refused, a)
    | some id => do
      match ← a.unrunnable (← a.request id) now with
      | some why =>
        refuseQueued now fuel i (refused ++ [(id, why)])
          { a with queued := a.queued.eraseIdx i, requests := a.requests.erase id }
      | none => refuseQueued now fuel (i + 1) refused a

/-- `Drain`'s second loop: admit in arrival order, up to the first that does not fit. -/
def admitQueued : Nat → Admission → Checked Admission
  | 0, a => .ok a
  | fuel + 1, a =>
    match a.queued with
    | [] => .ok a
    | id :: rest => do
      let request ← a.request id
      match a.ledger.grant a.domain request.spec.envelope with
      | (.error _, ledger) => return { a with ledger }
      | (.ok grant, ledger) =>
        admitQueued fuel
          { a with
            ledger
            requests := a.requests.set id { request with grant := some grant, state := .waiting }
            queued := rest
            waiting := a.waiting ++ [id] }

def drain (now : Tick) : Checked (Decision × Admission) := do
  let (refused, a) ← refuseQueued now a.queued.length 0 [] a
  let a ← admitQueued a.queued.length a
  let (slot, a) ← a.giveSlot now
  return ({ run := slot.run, refused }, a)

def drained (decision : Decision) (now : Tick) : Checked (Decision × Admission) := do
  let (drained, a) ← a.drain now
  return ({ decision with
    run := decision.run.orElse fun _ => drained.run
    refused := decision.refused ++ drained.refused }, a)

def endRunning (id : RequestId) (now : Tick) : Checked (Decision × Admission) := do
  let a := { a with running := erase a.running id }
  if a.substitute = some id then
    match a.paused with
    | none => .error .nonePaused
    | some resumed =>
      check resumed.valid .nonePaused
      let a ← a.modify resumed fun paused =>
        { paused with state := .running, runStarted := now }
      let a ← syncCohort
        { a with running := a.running ++ [resumed], paused := none, substitute := none }
      return ({ run := some resumed }, a)
  else return ({}, ← a.syncCohort)

/-- `Retire`'s switch: the request leaves the list its state says. -/
def leave (id : RequestId) (now : Tick) : RequestState → Checked (Option (Decision × Admission))
  | .queued => .ok (some ({}, { a with queued := erase a.queued id }))
  | .waiting => .ok (some ({}, { a with waiting := erase a.waiting id }))
  | .paused => do return some ({}, ← syncCohort { a with paused := none, substitute := none })
  | .running => do return some (← a.endRunning id now)
  | .retired => .ok none

def retire (id : RequestId) (now : Tick) : Checked (Answer Decision) := do
  match a.requests.find? id with
  | none => return (.error .unknownRequest, a)
  | some request =>
    let ledger ← match request.grant with
      | none => pure a.ledger
      | some grant => ensure .grantMissing (a.ledger.retire grant)
    match ← leave { a with ledger } id now request.state with
    | none => return (.error .wrongState, { a with ledger })
    | some (decision, a) =>
      let (decision, a) ← drained { a with requests := a.requests.erase id } decision now
      return (.ok decision, a)

def join (id : RequestId) (now : Tick) : Checked (Answer Unit) := do
  match a.requests.find? id with
  | none => return (.error .unknownRequest, a)
  | some request =>
    if request.state ≠ .waiting then return (.error .wrongState, a)
    else if a.paused.isSome then return (.error .deferred, a)
    else
      let cohort ← a.grants (a.running ++ [id])
      match a.ledger.check a.domain { cohort := some cohort } with
      | .error error => return (.error (fromLedger error), a)
      | .ok () =>
        let a ← syncCohort
          { a with
            waiting := erase a.waiting id
            requests := a.requests.set id { request with state := .running, runStarted := now }
            running := a.running ++ [id] }
        return (.ok (), a)

/-! ## Capacity-changing transactions -/

/-- A transaction of the ledger, then a drain; `refusal` answers for one it refused. -/
def transaction (refusal : CommitmentError → AdmissionError) (y : Result Unit × CommitmentLedger)
    (now : Tick) : Checked (Answer Decision) := do
  match y with
  | (.error error, ledger) => return (.error (refusal error), { a with ledger })
  | (.ok (), ledger) =>
    let (decision, a) ← drained { a with ledger } {} now
    return (.ok decision, a)

def replaceEnvelope (id : RequestId) (envelope : Envelope) (now : Tick) : Checked (Answer Decision) := do
  match a.requests.find? id with
  | none => return (.error .unknownRequest, a)
  | some request =>
    match request.grant with
    | none => return (.error .wrongState, a)
    | some grant =>
      match a.ledger.replace grant envelope with
      | (.error error, ledger) => return (.error (fromLedger error), { a with ledger })
      | (.ok (), ledger) =>
        let spec := { request.spec with envelope }
        let (decision, a) ← drained
          { a with ledger, requests := a.requests.set id { request with spec } } {} now
        return (.ok decision, a)

def addFixed (bytes : Bytes) (now : Tick) : Checked (Answer Decision) :=
  a.transaction fromLedger (a.ledger.addFixed a.domain bytes) now

def addBackground (bytes : Bytes) (now : Tick) : Checked (Answer Decision) :=
  a.transaction fromLedger (a.ledger.addBackground a.domain bytes) now

def setBudget (budget : Bytes) (now : Tick) : Checked (Answer Decision) :=
  a.transaction fromLedger (a.ledger.setBudget a.domain budget) now

def releaseFixed (bytes : Bytes) (now : Tick) : Checked (Answer Decision) :=
  a.transaction (fun _ => .refused) (a.ledger.releaseFixed a.domain bytes) now

def releaseBackground (bytes : Bytes) (now : Tick) : Checked (Answer Decision) :=
  a.transaction (fun _ => .refused) (a.ledger.releaseBackground a.domain bytes) now

end JitLlm.Admission
