import JitLlm.Memory.Commitment

/-!
# `execution/program.cc` — request programs

`PlanProgram` turns a contract and a finite request into the request's envelope: what it retains,
itemised, and the largest phase above that; or it rejects them. The cursor and the output buffer
hold a running program to its plan.

The plan is built in the source's order: the mode, the output's bound, the retained items, each
phase kind's widths and closure, then each kind's envelope. Positions are natural numbers; the two
places where the source adds or multiplies them unchecked wrap as it does. `model/context.cc` and
`model/state.cc` are here as far as planning reads them.
-/

namespace JitLlm

open Base Lib

namespace Execution

open Catalog
open Memory (Envelope)

/-! ## Contexts and states -/

inductive ComponentRole
  | main | drafter | encoder
deriving DecidableEq

def ComponentRole.text : ComponentRole → String
  | .main => "main"
  | .drafter => "drafter"
  | .encoder => "encoder"

structure Component where
  role : ComponentRole := .main
  resources : List ResourceId

/-- `ModelContext`; its identity is not read here. -/
structure ModelContext where
  components : List Component

def ModelContext.resourcesOf (context : ModelContext) (roles : List ComponentRole) :
    List ResourceId :=
  sortUnique ((context.components.filter fun c => c.role ∈ roles).flatMap Component.resources)

def ModelContext.closureOf (context : ModelContext) (catalog : Catalog)
    (roles : List ComponentRole) : Checked (Result Closure) :=
  catalog.closureOf (context.resourcesOf roles)

structure StateRepresentation where
  name : String
  blockPositions : Nat := 0
  blockBytes : Bytes := Bytes.zero
  canAppend : Bool := false
  canTruncateAny : Bool := false
  canTruncateAtSnapshot : Bool := false
  maxSnapshots : Nat := 0
  snapshotBytes : Bytes := Bytes.zero

namespace StateRepresentation

def canTruncate (state : StateRepresentation) : Bool :=
  state.canTruncateAny || state.canTruncateAtSnapshot

def isValid (state : StateRepresentation) : Bool :=
  let snapshots := state.maxSnapshots ≠ 0
  state.blockBytes ≠ Bytes.zero &&
    (decide snapshots == decide (state.snapshotBytes ≠ Bytes.zero)) &&
    (!snapshots || state.canTruncateAtSnapshot)

end StateRepresentation

/-! ## Checked arithmetic -/

def multiply (a b : Nat) : Option Nat := if a * b ≤ uint64Max then some (a * b) else none

def ceilDiv (a b : Nat) : Nat := a / b + if a % b ≠ 0 then 1 else 0

def times (a b : Nat) : Option Bytes :=
  if h : a * b ≤ uint64Max then some ⟨a * b, h⟩ else none

/-- `RoundUp`: whole units of the granularity. -/
def roundUp (bytes granularity : Bytes) : Option Bytes :=
  times (ceilDiv bytes.value granularity.value) granularity.value

def whole (bytes granularity : Bytes) : Bool := bytes.value % granularity.value = 0

def StateRepresentation.blocksFor (state : StateRepresentation) (positions : Nat) : Nat :=
  if state.blockPositions = 0 then 1 else ceilDiv positions state.blockPositions

/-- `StateAllowance`. -/
def StateRepresentation.allowance (state : StateRepresentation) (positions : Nat) :
    Option Bytes := do
  let blocks ← times state.blockBytes.value (state.blocksFor positions)
  let snapshots ← times state.snapshotBytes.value state.maxSnapshots
  blocks.plus snapshots

/-! ## Contracts and requests -/

inductive WidthRule
  | chunk | one | draft | verify | block
deriving DecidableEq

inductive Repeat
  | promptChunks | outputSteps | blockSteps | blocks
deriving DecidableEq

structure PhaseWidth where
  positions : Nat
  working : Bytes

structure PhaseKind where
  name : String
  components : List ComponentRole
  widths : List PhaseWidth
  rule : WidthRule := .one
  repeats : Repeat := .outputSteps
  appends : Bool := false
  emits : Bool := false

inductive OutputUnit
  | token | acceptedRun | block
deriving DecidableEq

structure DecodingMode where
  name : String
  unit : OutputUnit := .token
  maxDraft : Nat := 0
  block : Nat := 0
  maxSteps : Nat := 0
  wirePerPosition : Bytes := Bytes.zero

def DecodingMode.speculative (mode : DecodingMode) : Bool := mode.maxDraft ≠ 0

def DecodingMode.blocky (mode : DecodingMode) : Bool := mode.block ≠ 0

structure WorkingState where
  name : String
  bytes : Bytes

structure ProgramContract where
  contextLimit : Nat
  limitBound : contextLimit ≤ uint64Max
  states : List StateRepresentation
  working : List WorkingState
  phases : List PhaseKind
  mode : DecodingMode

structure ProgramRequest where
  prompt : Nat
  maxOutput : Nat
  draftDepth : Nat := 0
  steps : Nat := 0

inductive ProgramError
  | invalid | unsupported | contextExhausted | doesNotFit | overflow | catalog | beyondProgram
  | wrongState | outputFull
deriving DecidableEq

structure ProgramRejection where
  error : ProgramError
  phase : String := ""
  width : Nat := 0
  required : Bytes := Bytes.zero
  shortfall : Bytes := Bytes.zero
  detail : String := ""
deriving DecidableEq

structure PlannedPhase where
  kind : String
  width : Nat
  widths : List Nat
  closure : Bytes
  working : Bytes
  envelope : Bytes
  maxCount : Nat

structure RetainedItem where
  name : String
  bytes : Bytes

structure ProgramPlan where
  envelope : Envelope
  prompt : Nat
  output : Nat
  stateBound : Nat
  blocks : Nat
  phases : List PlannedPhase
  retained : List RetainedItem
  outputCapacity : Bytes
  maxPhases : Nat

/-! ## Planning -/

abbrev Planned (α : Type) := Except ProgramRejection α

def reject {α : Type} (error : ProgramError) (detail : String) (phase : String := "")
    (width : Nat := 0) : Planned α :=
  .error { error, detail, phase, width }

def DecodingMode.expectedUnit (mode : DecodingMode) : OutputUnit :=
  if mode.speculative then .acceptedRun else if mode.blocky then .block else .token

def suits (on : Bool) (asked most : Nat) : Bool :=
  if on then asked ≠ 0 && asked ≤ most else asked = 0

def checkMode (mode : DecodingMode) (request : ProgramRequest) : Planned Unit :=
  if (mode.speculative && mode.blocky) || mode.unit ≠ mode.expectedUnit ||
      (mode.blocky && mode.maxSteps = 0) then
    reject .invalid ("decoding mode " ++ mode.name ++ " is not one consistent mode")
  else if request.prompt = 0 || request.maxOutput = 0 then
    reject .invalid "a request needs a prompt and an output bound"
  else if !suits mode.speculative request.draftDepth mode.maxDraft then
    reject .unsupported
      ("draft depth " ++ toString request.draftDepth ++ " under decoding mode " ++ mode.name)
  else if !suits mode.blocky request.steps mode.maxSteps then
    reject .unsupported
      (toString request.steps ++ " denoising steps under decoding mode " ++ mode.name)
  else .ok ()

def outputBound (contract : ProgramContract) (request : ProgramRequest) : Planned (Nat × Nat) :=
  if request.prompt ≥ contract.contextLimit then
    reject .contextExhausted "the prompt fills the context"
  else
    let room := contract.contextLimit - request.prompt
    if contract.mode.blocky then
      let held := room / contract.mode.block
      if held = 0 then reject .contextExhausted "no whole block fits after the prompt"
      else
        let blocks := min held (ceilDiv request.maxOutput contract.mode.block)
        .ok (blocks, min request.maxOutput (blocks * contract.mode.block % 2 ^ 64))
    else if request.maxOutput > room then
      reject .contextExhausted "the output bound exceeds the context"
    else .ok (0, request.maxOutput)

def retainState (contract : ProgramContract) (request : ProgramRequest) (granularity : Bytes)
    (bound : Nat) (names : List String) (state : StateRepresentation) : Planned RetainedItem :=
  if state.name = "" || names.contains state.name then
    reject .invalid ("state " ++ state.name ++ " is not uniquely named")
  else if !state.isValid || !whole state.blockBytes granularity ||
      !whole state.snapshotBytes granularity then
    reject .invalid ("state " ++ state.name ++ " is not whole backing blocks")
  else if contract.phases.any PhaseKind.appends && !state.canAppend then
    reject .unsupported ("state " ++ state.name ++ " cannot append")
  else if contract.mode.speculative && (!state.canTruncate ||
      (!state.canTruncateAny && state.maxSnapshots ≤ request.draftDepth)) then
    reject .unsupported ("speculative decoding needs state " ++ state.name ++
      " to truncate after a rejected draft of " ++ toString request.draftDepth)
  else
    match state.allowance bound with
    | none => reject .overflow ("state " ++ state.name)
    | some bytes => .ok { name := state.name, bytes }

def retainWorking (granularity : Bytes) (names : List String) (working : WorkingState) :
    Planned RetainedItem :=
  match roundUp working.bytes granularity with
  | some bytes =>
    if working.name = "" || names.contains working.name then
      reject .invalid ("working state " ++ working.name)
    else .ok { name := working.name, bytes }
  | none => reject .invalid ("working state " ++ working.name)

def retainAll {α : Type} (item : List String → α → Planned RetainedItem) :
    List String → List α → Planned (List String × List RetainedItem)
  | names, [] => .ok (names, [])
  | names, a :: rest => do
    let kept ← item names a
    let (names, items) ← retainAll item (names ++ [kept.name]) rest
    return (names, kept :: items)

def kOutputName : String := "output"

def fixedWidth (mode : DecodingMode) (request : ProgramRequest) : WidthRule → Nat
  | .chunk | .one => 1
  | .draft => request.draftDepth
  | .verify => request.draftDepth + 1
  | .block => mode.block

/-- A phase kind being planned: the widths it may run at, once chosen. -/
structure Candidate where
  kind : PhaseKind
  allowed : List Nat
  closure : Bytes

def PhaseKind.needsBlock (kind : PhaseKind) : Bool :=
  kind.rule = .block || kind.repeats = .blockSteps || kind.repeats = .blocks

def PhaseKind.needsDraft (kind : PhaseKind) : Bool := kind.rule = .draft || kind.rule = .verify

def ascending : List PhaseWidth → Bool
  | a :: b :: rest => a.positions < b.positions && ascending (b :: rest)
  | _ => true

def PhaseKind.positions (kind : PhaseKind) : List Nat := kind.widths.map PhaseWidth.positions

def PhaseKind.missing (kind : PhaseKind) (context : ModelContext) : Option ComponentRole :=
  kind.components.find? fun role => !(context.components.any fun c => c.role = role)

def checkKind (contract : ProgramContract) (context : ModelContext) (names : List String)
    (kind : PhaseKind) : Planned Unit :=
  if kind.name = "" || names.contains kind.name then
    reject .invalid "a phase kind needs a unique name" kind.name
  else if kind.widths.isEmpty || kind.positions.head? = some 0 || !ascending kind.widths then
    reject .invalid "validated widths must be positive and strictly ascending" kind.name
  else
    match kind.missing context with
    | some role => reject .invalid ("the context has no " ++ role.text ++ " component") kind.name
    | none =>
      if (kind.needsBlock && !contract.mode.blocky) ||
          (kind.needsDraft && !contract.mode.speculative) ||
          (kind.rule = .chunk && kind.emits) then
        reject .invalid ("its width or repeat rule does not suit decoding mode " ++
          contract.mode.name) kind.name
      else .ok ()

def PhaseKind.narrowed (kind : PhaseKind) (width : Nat) : List Nat :=
  if kind.rule = .block then [width] else kind.positions.filter fun w => w ≤ width

def PhaseKind.unvalidated (kind : PhaseKind) (width : Nat) : Option Nat :=
  if kind.needsDraft then
    ((List.range width).map (· + 1)).find? fun w => !(kind.narrowed width).contains w
  else none

def allow (contract : ProgramContract) (request : ProgramRequest) (capacity : Bytes)
    (kind : PhaseKind) : Planned (List Nat × Bytes) :=
  if kind.rule = .chunk then .ok (kind.positions, capacity)
  else
    let width := fixedWidth contract.mode request kind.rule
    if !kind.positions.contains width then
      reject .unsupported "no validated plan at this width" kind.name width
    else
      match kind.unvalidated width with
      | some w =>
        reject .unsupported "a clamped draft or verify needs every narrower width" kind.name w
      | none =>
        if !kind.emits then .ok (kind.narrowed width, capacity)
        else
          match times width contract.mode.wirePerPosition.value with
          | none => reject .overflow "the output buffer" kind.name width
          | some bytes => .ok (kind.narrowed width, capacity.max bytes)

/-- `catalog::ToString`. -/
def catalogText : CatalogError → String
  | .unknownDomain => "unknown memory domain"
  | .unknownId => "stale or unknown identity"
  | .wrongState => "the extent is not in the state this transition needs"
  | .staleTicket => "the ticket names an earlier or different operation"
  | .staleContent => "the closure recorded contents that have since changed"
  | .held => "the extent is leased or registered"
  | .notEvictable => "the extent is not evictable"
  | .notResident => "an extent of the closure is not resident"
  | .badRange => "a range lies outside its extent or spans domains, or a descriptor is invalid"
  | .overBudget => "the domain's occupancy would exceed its budget"
  | .exhausted => "an identity table is exhausted"

def closureBytes (domain : DomainId) (kind : PhaseKind) : Result Closure → Planned Bytes
  | .error e => reject .catalog (catalogText e) kind.name
  | .ok closure =>
    if closure.bytesByDomain.entries.any fun e => e.1 ≠ domain && e.2 ≠ Bytes.zero then
      reject .unsupported "its closure reaches another memory domain" kind.name
    else .ok ((closure.bytesByDomain.find? domain).getD Bytes.zero)

section Plan

variable (contract : ProgramContract) (context : ModelContext) (catalog : Catalog)
  (domain : DomainId) (request : ProgramRequest) (available granularity : Bytes)

def candidates : List String → Bytes → List PhaseKind → Checked (Planned (List Candidate × Bytes))
  | _, capacity, [] => .ok (.ok ([], capacity))
  | names, capacity, kind :: rest =>
    match checkKind contract context names kind with
    | .error e => .ok (.error e)
    | .ok () =>
      match allow contract request capacity kind with
      | .error e => .ok (.error e)
      | .ok (allowed, capacity) => do
        match closureBytes domain kind (← context.closureOf catalog kind.components) with
        | .error e => return .error e
        | .ok closure =>
          match ← candidates (names ++ [kind.name]) capacity rest with
          | .error e => return .error e
          | .ok (more, capacity) => return .ok (⟨kind, allowed, closure⟩ :: more, capacity)

def retainedSum : Bytes → List RetainedItem → Planned Bytes
  | sum, [] => .ok sum
  | sum, item :: rest =>
    match sum.plus item.bytes with
    | none => reject .overflow ("retained state " ++ item.name)
    | some sum => retainedSum sum rest

/-- `WorkingAt`: the largest rounded working set among the widths. -/
def workingAt (widths : List Nat) : Bytes → List PhaseWidth → Option Bytes
  | largest, [] => some largest
  | largest, width :: rest =>
    if widths.contains width.positions then
      match roundUp width.working granularity with
      | none => none
      | some bytes => workingAt widths (largest.max bytes) rest
    else workingAt widths largest rest

def phaseCount (output blocks : Nat) (kind : PhaseKind) (allowed : List Nat) : Option Nat :=
  match kind.repeats with
  | .promptChunks => some (ceilDiv request.prompt (allowed.headD 0))
  | .outputSteps => some output
  | .blockSteps => multiply blocks request.steps
  | .blocks => some blocks

/-- A kind at some widths: `none` where it does not fit, with what it would need. -/
def planAt (output blocks : Nat) (retained : Bytes) (candidate : Candidate) (allowed : List Nat) :
    Planned (PlannedPhase ⊕ ProgramRejection) :=
  let kind := candidate.kind
  let sums := do
    let working ← workingAt granularity allowed Bytes.zero kind.widths
    let envelope ← candidate.closure.plus working
    let required ← retained.plus envelope
    return (working, envelope, required)
  match sums with
  | none => reject .overflow "the phase envelope" kind.name (allowed.getLastD 0)
  | some (working, envelope, required) =>
    if required.value > available.value then
      .ok (.inr {
        error := .doesNotFit
        phase := kind.name
        width := allowed.getLastD 0
        required
        shortfall := (required.minus available).getD Bytes.zero })
    else
      match phaseCount request output blocks kind allowed with
      | none => reject .overflow "the phase count" kind.name (allowed.getLastD 0)
      | some maxCount =>
        .ok (.inl {
          kind := kind.name
          width := allowed.getLastD 0
          widths := allowed
          closure := candidate.closure
          working
          envelope
          maxCount })

def planWidths (output blocks : Nat) (retained : Bytes) (candidate : Candidate) :
    Nat → Nat → Option ProgramRejection → Planned PlannedPhase
  | 0, _, narrowest => .error (narrowest.getD { error := .doesNotFit })
  | tries + 1, i, _ => do
    match ← planAt request available granularity output blocks retained candidate
        (candidate.allowed.take (candidate.allowed.length - i)) with
    | .inl planned => return planned
    | .inr rejection => planWidths output blocks retained candidate tries (i + 1) (some rejection)

def Candidate.tries (candidate : Candidate) : Nat :=
  if candidate.kind.rule = .chunk then candidate.allowed.length else 1

def planPhases (output blocks : Nat) (retained : Bytes) :
    Bytes → Nat → List Candidate → Planned (List PlannedPhase × Bytes × Nat)
  | largest, count, [] => .ok ([], largest, count)
  | largest, count, candidate :: rest => do
    let planned ← planWidths request available granularity output blocks retained candidate
      candidate.tries 0 none
    if count > uint64Max - planned.maxCount then
      reject .overflow "the phase count" candidate.kind.name
    else do
      let (more, largest, count) ← planPhases output blocks retained
        (largest.max planned.envelope) (count + planned.maxCount) rest
      return (planned :: more, largest, count)

def retainedItems (bound : Nat) : Planned (List RetainedItem) := do
  let (names, states) ← retainAll (retainState contract request granularity bound) [kOutputName]
    contract.states
  let (_, working) ← retainAll (retainWorking granularity) names contract.working
  return states ++ working

def checkPhases : Planned Unit :=
  if contract.phases.isEmpty then reject .invalid "a contract needs a phase kind"
  else if !contract.phases.any PhaseKind.emits || contract.mode.wirePerPosition = Bytes.zero then
    reject .invalid ("no phase kind emits output under decoding mode " ++ contract.mode.name)
  else .ok ()

/-- The last part of `PlanProgram`: the buffer, the sum and the phases. -/
def planEnvelopes (blocks output bound : Nat) (items : List RetainedItem)
    (kinds : List Candidate) (capacity : Bytes) : Planned ProgramPlan :=
  match roundUp capacity granularity with
  | none => reject .overflow "the output buffer"
  | some buffer => do
    let items := items ++ [{ name := kOutputName, bytes := buffer }]
    let retained ← retainedSum Bytes.zero items
    let (phases, phase, maxPhases) ← planPhases request available granularity output blocks
      retained Bytes.zero 0 kinds
    return {
      envelope := { retained, phase }
      prompt := request.prompt
      output
      stateBound := bound
      blocks
      phases
      retained := items
      outputCapacity := capacity
      maxPhases }

/-- `PlanProgram`, before the closures are taken: the blocks, the output's bound, the states' bound
    and the retained items. -/
def planBounds : Planned (Nat × Nat × Nat × List RetainedItem) :=
  if granularity = Bytes.zero then reject .invalid "no backing granularity"
  else do
    checkMode contract.mode request
    let (blocks, output) ← outputBound contract request
    let bound := (request.prompt + output) % 2 ^ 64
    let items ← retainedItems contract request granularity bound
    checkPhases contract
    return (blocks, output, bound, items)

def planProgram : Checked (Planned ProgramPlan) :=
  match planBounds contract request granularity with
  | .error e => .ok (.error e)
  | .ok (blocks, output, bound, items) => do
    match ← candidates contract context catalog domain request [] Bytes.zero contract.phases with
    | .error e => return .error e
    | .ok (kinds, capacity) =>
      return planEnvelopes request available granularity blocks output bound items kinds
        capacity

end Plan

end Execution
end JitLlm
