import JitLlm.Base.Check
import JitLlm.Base.Ids
import JitLlm.Lib.OrdMap
import JitLlm.Lib.SortUnique

/-!
# `catalog/catalog.h`, `catalog/catalog.cc` — the resource catalog

Every managed backing extent with its state, the resources placed in them, leases,
registrations, and the occupancy ledger of each memory domain.

Each public operation is a function of the catalog that answers `Checked (Result α × Catalog)`:
the outer layer is the process ended by a failed check, the inner one the operation's own
`std::expected`. A refusal hands the catalog back as it was.

The source's enumerators out of range (a `memory_class` cast from an integer) have no
counterpart: the types exclude them, and with them the two comparisons in `AddExtent` that
refuse them.
-/

namespace JitLlm

open Base Lib

namespace Catalog

abbrev DomainId := Id .domain
abbrev ExtentId := Id .extent
abbrev ResourceId := Id .resource
abbrev LeaseId := Id .lease
abbrev RegistrationId := Id .registration

/-! ## Data model -/

inductive MemoryClass
  | weights | routedExperts | liveState | retainedState | scratch | runtime | communication
  | staging | unknown
deriving DecidableEq

/-- The classes in the source's order: `by_class` has one entry for each. -/
def MemoryClass.all : List MemoryClass :=
  [.weights, .routedExperts, .liveState, .retainedState, .scratch, .runtime, .communication,
    .staging, .unknown]

inductive Recovery
  | fromArtifact | discardable | preserve | pinned
deriving DecidableEq

inductive ExtentState
  | nonresident | loading | resident | evicting | quarantined
deriving DecidableEq

structure ContentKey where
  artifact : Vector UInt8 32 := Vector.replicate 32 0
  group : Nat := 0
  chunk : Nat := 0
deriving DecidableEq

structure ExtentDescriptor where
  domain : DomainId
  memoryClass : MemoryClass := .unknown
  recovery : Recovery := .pinned
  size : Bytes
  content : ContentKey := {}
deriving DecidableEq

/-- The occupancy buckets; the source's `kNone` is `Option.none` of these. -/
inductive Bucket
  | held | idle | pinned | loading | evicting | quarantined
deriving DecidableEq

/-- The buckets in the order `Total` adds them. -/
def Bucket.all : List Bucket := [.held, .idle, .pinned, .loading, .evicting, .quarantined]

/-- `Occupancy`: the six named counts, by bucket, and `by_class`. -/
structure Occupancy where
  part : Bucket → Bytes := fun _ => Bytes.zero
  byClass : MemoryClass → Bytes := fun _ => Bytes.zero

inductive CatalogError
  | unknownDomain | unknownId | wrongState | staleTicket | staleContent | held | notEvictable
  | notResident | badRange | overBudget | exhausted
deriving DecidableEq

inductive Operation
  | load | evict
deriving DecidableEq

structure Ticket where
  extent : ExtentId
  operation : Operation := .load
  serial : Nat := 0
deriving DecidableEq

structure ExtentView where
  descriptor : ExtentDescriptor
  state : ExtentState := .nonresident
  backingGeneration : Nat := 1
  contentGeneration : Nat := 1
  discarded : Bool := false
  preserved : Bool := false
  leases : Nat := 0
  registrations : Nat := 0
  lastUse : Nat := 0
deriving DecidableEq

structure Range where
  extent : ExtentId
  offset : Bytes
  length : Bytes
deriving DecidableEq

structure Closure where
  extents : List (ExtentId × Nat)
  bytesByDomain : OrdMap DomainId Bytes := OrdMap.empty

structure Domain where
  name : String
  occupancy : Occupancy := {}
  registered : Bytes := Bytes.zero

structure ExtentRecord where
  view : ExtentView
  resources : Nat := 0
  operations : Nat := 0
  operation : Operation := .load
  writingBack : Bool := false
deriving DecidableEq

structure Resource where
  ranges : List Range

structure Lease where
  extents : List ExtentId

structure Registration where
  extent : ExtentId

end Catalog

open Catalog in
structure Catalog where
  domains : SlotTable .domain Domain := SlotTable.empty
  extents : SlotTable .extent ExtentRecord := SlotTable.empty
  resources : SlotTable .resource Resource := SlotTable.empty
  leases : SlotTable .lease Lease := SlotTable.empty
  registrations : SlotTable .registration Registration := SlotTable.empty

namespace Catalog

abbrev Result := Except CatalogError

def refuse {α : Type} (error : CatalogError) (c : Catalog) : Checked (Result α × Catalog) :=
  .ok (.error error, c)

def accept {α : Type} (a : α) (c : Catalog) : Checked (Result α × Catalog) := .ok (.ok a, c)

/-! ## Private helpers -/

def add (a b : Bytes) : Checked Bytes :=
  match a.plus b with
  | some sum => .ok sum
  | none => .error .occupancyOverflow

def subtract (a b : Bytes) : Checked Bytes :=
  match a.minus b with
  | some difference => .ok difference
  | none => .error .occupancyUnderflow

/-- `Advance`: a 64-bit generation plus one. -/
def advance (generation : Nat) : Checked Nat :=
  if generation < uint64Max then .ok (generation + 1) else .error .generationExhausted

def Occupancy.total (o : Occupancy) : Checked Bytes :=
  Bucket.all.foldlM (fun total b => add total (o.part b)) Bytes.zero

def Occupancy.setPart (o : Occupancy) (b : Bucket) (v : Bytes) : Occupancy :=
  { o with part := fun b' => if b' = b then v else o.part b' }

def Occupancy.setClass (o : Occupancy) (k : MemoryClass) (v : Bytes) : Occupancy :=
  { o with byClass := fun k' => if k' = k then v else o.byClass k' }

def evictable (extent : ExtentView) : Bool :=
  if extent.state ≠ .resident ∨ extent.leases ≠ 0 ∨ extent.registrations ≠ 0 ∨
      extent.descriptor.memoryClass = .unknown then false
  else match extent.descriptor.recovery with
    | .fromArtifact => true
    | .discardable => true
    | .preserve => extent.discarded
    | .pinned => false

def bucketOf (view : ExtentView) : Option Bucket :=
  match view.state with
  | .nonresident => none
  | .loading => some .loading
  | .evicting => some .evicting
  | .quarantined => some .quarantined
  | .resident =>
    if view.descriptor.recovery = .pinned then some .pinned
    else if view.leases > 0 ∨ view.registrations > 0 then some .held
    else some .idle

/-- `Recount`'s first half: the bytes leave their bucket, or their backing starts to exist. -/
def Occupancy.leave (o : Occupancy) (k : MemoryClass) (size : Bytes) :
    Option Bucket → Checked Occupancy
  | some b => do return o.setPart b (← subtract (o.part b) size)
  | none => do return o.setClass k (← add (o.byClass k) size)

/-- `Recount`'s second half: the bytes enter their bucket, or their backing is gone. -/
def Occupancy.enter (o : Occupancy) (k : MemoryClass) (size : Bytes) :
    Option Bucket → Checked Occupancy
  | some b => do return o.setPart b (← add (o.part b) size)
  | none => do return o.setClass k (← subtract (o.byClass k) size)

def Occupancy.move (o : Occupancy) (k : MemoryClass) (size : Bytes)
    (before after : Option Bucket) : Checked Occupancy := do
  let left ← o.leave k size before
  left.enter k size after

/-- `Recount`: moves a record's bytes from bucket `before` to the one it is in now. -/
def recount (c : Catalog) (record : ExtentRecord) (before : Option Bucket) :
    Checked Catalog :=
  let after := bucketOf record.view
  if before = after then .ok c
  else
    let descriptor := record.view.descriptor
    match c.domains.find? descriptor.domain with
    | none => .error .unknownDomain
    | some domain => do
      let occupancy ←
        domain.occupancy.move descriptor.memoryClass descriptor.size before after
      return { c with domains := c.domains.set descriptor.domain { domain with occupancy } }

/-- What every transition of an extent does: the record changes in place, and its bytes are
    recounted from the bucket it was in before. -/
def change (c : Catalog) (id : ExtentId) (record record' : ExtentRecord) :
    Checked Catalog := do
  let counted ← c.recount record' (bucketOf record.view)
  return { counted with extents := counted.extents.set id record' }

/-- `Begin`: a new operation of the extent, and its ticket. -/
def begin (id : ExtentId) (record : ExtentRecord) (operation : Operation) :
    Checked (Ticket × ExtentRecord) :=
  if record.operations < uint64Max then
    .ok ({ extent := id, operation := operation, serial := record.operations + 1 },
      { record with operations := record.operations + 1, operation := operation })
  else .error .operationCounter

/-- `Current`: the record a ticket's operation is still in progress on, or the error. -/
def current (c : Catalog) (ticket : Ticket) (operation : Operation)
    (state : ExtentState) : Result ExtentRecord :=
  match c.extents.find? ticket.extent with
  | none => .error .unknownId
  | some record =>
    if ticket.operation ≠ operation ∨ ticket.operation ≠ record.operation ∨
        ticket.serial ≠ record.operations then .error .staleTicket
    else if record.view.state ≠ state then .error .wrongState
    else .ok record

/-! ## Domains and extents -/

/-- `AddDomain`; the source's invalid identity is `none`. -/
def addDomain (c : Catalog) (name : String) : Option DomainId × Catalog :=
  match c.domains.insert { name := name } with
  | none => (none, c)
  | some (id, domains) => (some id, { c with domains })

def occupancyOf (c : Catalog) (domain : DomainId) : Occupancy :=
  match c.domains.find? domain with
  | none => {}
  | some found => found.occupancy

def addExtent (c : Catalog) (descriptor : ExtentDescriptor) (resident : Bool) :
    Checked (Result ExtentId × Catalog) :=
  match c.domains.find? descriptor.domain with
  | none => refuse .unknownDomain c
  | some domain =>
    if descriptor.size = Bytes.zero ∨
        (descriptor.memoryClass = .unknown ∧ descriptor.recovery ≠ .pinned) then
      refuse .badRange c
    else match domain.registered.plus descriptor.size with
      | none => refuse .badRange c
      | some registered =>
        let record : ExtentRecord := { view := { descriptor := descriptor } }
        match c.extents.insert record with
        | none => refuse .exhausted c
        | some (id, extents) =>
          let c : Catalog := { c with
            extents
            domains := c.domains.set descriptor.domain { domain with registered } }
          if resident then do
            let c ← c.change id record
              { record with view := { record.view with state := .resident } }
            accept id c
          else accept id c

def removeExtent (c : Catalog) (extent : ExtentId) : Checked (Result Unit × Catalog) :=
  match c.extents.find? extent with
  | none => refuse .unknownId c
  | some record =>
    if record.view.state ≠ .nonresident ∨ record.resources ≠ 0 then refuse .wrongState c
    else match c.domains.find? record.view.descriptor.domain with
      | none => .error .missing
      | some domain => do
        let registered ← subtract domain.registered record.view.descriptor.size
        accept () { c with
          domains := c.domains.set record.view.descriptor.domain { domain with registered }
          extents := c.extents.erase extent }

def releasePinned (c : Catalog) (extent : ExtentId) : Checked (Result Unit × Catalog) :=
  match c.extents.find? extent with
  | none => refuse .unknownId c
  | some record =>
    let view := record.view
    if view.state ≠ .resident ∨ view.descriptor.recovery ≠ .pinned then refuse .wrongState c
    else if view.leases > 0 ∨ view.registrations > 0 then refuse .held c
    else do
      let backingGeneration ← advance view.backingGeneration
      let contentGeneration ← advance view.contentGeneration
      let c ← c.change extent record { record with
        view := { view with state := .nonresident, backingGeneration, contentGeneration } }
      accept () c

/-! ## Resources and closures -/

/-- The loop of `AddResource` that checks the ranges; `domain` is the one seen so far. -/
def checkRanges (c : Catalog) : Option DomainId → List Range → Result Unit
  | _, [] => .ok ()
  | domain, range :: rest =>
    match c.extents.find? range.extent with
    | none => .error .unknownId
    | some record =>
      match range.offset.plus range.length with
      | none => .error .badRange
      | some last =>
        if range.length = Bytes.zero ∨ last.value > record.view.descriptor.size.value then
          .error .badRange
        else if domain.isSome ∧ domain ≠ some record.view.descriptor.domain then
          .error .badRange
        else c.checkRanges (some record.view.descriptor.domain) rest

def ExtentRecord.place (record : ExtentRecord) : ExtentRecord :=
  { record with resources := (record.resources + 1) % 2 ^ 32 }

/-- `++Extent(range.extent)->resources`. -/
def placeResource (c : Catalog) (range : Range) : Checked Catalog :=
  match c.extents.find? range.extent with
  | none => .error .missing
  | some record => .ok { c with extents := c.extents.set range.extent record.place }

def addResource (c : Catalog) (ranges : List Range) :
    Checked (Result ResourceId × Catalog) :=
  if ranges.isEmpty then refuse .badRange c
  else match c.checkRanges none ranges with
    | .error e => refuse e c
    | .ok () =>
      match c.resources.insert { ranges := ranges } with
      | none => refuse .exhausted c
      | some (id, resources) => do
        let c ← ranges.foldlM placeResource { c with resources }
        accept id c

/-- `RemoveResource`'s step for one range. -/
def displaceResource (c : Catalog) (range : Range) : Checked Catalog :=
  match c.extents.find? range.extent with
  | none => .error .missingExtent
  | some record =>
    if record.resources > 0 then
      .ok { c with
        extents := c.extents.set range.extent { record with resources := record.resources - 1 } }
    else .error .missingExtent

def removeResource (c : Catalog) (resource : ResourceId) :
    Checked (Result Unit × Catalog) :=
  match c.resources.find? resource with
  | none => refuse .unknownId c
  | some found => do
    let c ← found.ranges.foldlM displaceResource c
    accept () { c with resources := c.resources.erase resource }

/-- `ClosureOfExtents`' loop over the sorted, distinct extents. -/
def gather (c : Catalog) : Closure → List ExtentId → Checked (Result Closure)
  | closure, [] => .ok (.ok closure)
  | closure, extent :: rest =>
    match c.extents.find? extent with
    | none => .ok (.error .unknownId)
    | some record => do
      let domain := record.view.descriptor.domain
      let bytes ← add ((closure.bytesByDomain.find? domain).getD Bytes.zero)
        record.view.descriptor.size
      c.gather
        { extents := closure.extents ++ [(extent, record.view.contentGeneration)]
          bytesByDomain := closure.bytesByDomain.insert domain bytes } rest

def closureOfExtents (c : Catalog) (extents : List ExtentId) : Checked (Result Closure) :=
  c.gather { extents := [] } (sortUnique extents)

/-- `ClosureOf`'s loop: the extents of the resources' ranges, in order. -/
def extentsOfResources (c : Catalog) : List ResourceId → Result (List ExtentId)
  | [] => .ok []
  | resource :: rest =>
    match c.resources.find? resource with
    | none => .error .unknownId
    | some found => do return found.ranges.map Range.extent ++ (← c.extentsOfResources rest)

def closureOf (c : Catalog) (resources : List ResourceId) : Checked (Result Closure) :=
  match c.extentsOfResources resources with
  | .error e => .ok (.error e)
  | .ok extents => c.closureOfExtents extents

/-! ## Loads -/

def beginLoad (c : Catalog) (extent : ExtentId) (budget : Bytes) :
    Checked (Result Ticket × Catalog) :=
  match c.extents.find? extent with
  | none => refuse .unknownId c
  | some record =>
    let view := record.view
    if view.state ≠ .nonresident then refuse .wrongState c
    else do
      let total ← (c.occupancyOf view.descriptor.domain).total
      match total.plus view.descriptor.size with
      | none => refuse .overBudget c
      | some after =>
        if after.value > budget.value then refuse .overBudget c
        else
          let (ticket, record') ←
            begin extent { record with view := { view with state := .loading } } .load
          let c ← c.change extent record record'
          accept ticket c

def completeLoad (c : Catalog) (ticket : Ticket) : Checked (Result Unit × Catalog) :=
  match c.current ticket .load .loading with
  | .error e => refuse e c
  | .ok record => do
    let c ← c.change ticket.extent record { record with
      view := { record.view with state := .resident, discarded := false, preserved := false } }
    accept () c

def failLoad (c : Catalog) (ticket : Ticket) (completionKnown : Bool) :
    Checked (Result Unit × Catalog) :=
  match c.current ticket .load .loading with
  | .error e => refuse e c
  | .ok record =>
    if completionKnown then do
      let backingGeneration ← advance record.view.backingGeneration
      let c ← c.change ticket.extent record { record with
        view := { record.view with state := .nonresident, backingGeneration } }
      accept () c
    else do
      let c ← c.change ticket.extent record { record with
        view := { record.view with state := .quarantined } }
      accept () c

/-! ## Leases and registrations -/

/-- `AcquireLease`'s first loop: every extent resident, at the contents recorded. -/
def checkClosure (c : Catalog) : List (ExtentId × Nat) → Result (List ExtentId)
  | [] => .ok []
  | (extent, contentGeneration) :: rest =>
    match c.extents.find? extent with
    | none => .error .unknownId
    | some record =>
      if record.view.state ≠ .resident then .error .notResident
      else if record.view.contentGeneration ≠ contentGeneration ∨ record.view.discarded then
        .error .staleContent
      else do return extent :: (← c.checkClosure rest)

def hold (c : Catalog) (extent : ExtentId) : Checked Catalog :=
  match c.extents.find? extent with
  | none => .error .missing
  | some record =>
    if record.view.leases < uint32Max then
      c.change extent record
        { record with view := { record.view with leases := record.view.leases + 1 } }
    else .error .leaseOverflow

def acquireLease (c : Catalog) (closure : Closure) : Checked (Result LeaseId × Catalog) :=
  match c.checkClosure closure.extents with
  | .error e => refuse e c
  | .ok found =>
    let extents := sortUnique found
    match c.leases.insert { extents := extents } with
    | none => refuse .exhausted c
    | some (lease, leases) => do
      let c ← extents.foldlM hold { c with leases }
      accept lease c

def unhold (c : Catalog) (extent : ExtentId) : Checked Catalog :=
  match c.extents.find? extent with
  | none => .error .leaseNotHeld
  | some record =>
    if record.view.leases > 0 then
      c.change extent record
        { record with view := { record.view with leases := record.view.leases - 1 } }
    else .error .leaseNotHeld

def releaseLease (c : Catalog) (lease : LeaseId) : Checked (Result Unit × Catalog) :=
  match c.leases.find? lease with
  | none => refuse .unknownId c
  | some found => do
    let c ← found.extents.foldlM unhold c
    accept () { c with leases := c.leases.erase lease }

/-- `RecordUse`'s step for one extent. -/
def touch (tick : Nat) (c : Catalog) (extent : ExtentId) : Checked Catalog :=
  match c.extents.find? extent with
  | none => .error .missing
  | some record => .ok { c with
      extents := c.extents.set extent { record with
        view := { record.view with lastUse := max record.view.lastUse tick } } }

def recordUse (c : Catalog) (lease : LeaseId) (tick : Nat) :
    Checked (Result Unit × Catalog) :=
  match c.leases.find? lease with
  | none => refuse .unknownId c
  | some found => do
    let c ← found.extents.foldlM (touch tick) c
    accept () c

def addRegistration (c : Catalog) (extent : ExtentId) :
    Checked (Result RegistrationId × Catalog) :=
  match c.extents.find? extent with
  | none => refuse .unknownId c
  | some record =>
    if record.view.state ≠ .resident then refuse .notResident c
    else match c.registrations.insert { extent := extent } with
      | none => refuse .exhausted c
      | some (registration, registrations) =>
        if record.view.registrations < uint32Max then do
          let c : Catalog := { c with registrations }
          let c ← c.change extent record { record with
            view := { record.view with registrations := record.view.registrations + 1 } }
          accept registration c
        else .error .registrationOverflow

def retireRegistration (c : Catalog) (registration : RegistrationId) :
    Checked (Result Unit × Catalog) :=
  match c.registrations.find? registration with
  | none => refuse .unknownId c
  | some found =>
    match c.extents.find? found.extent with
    | none => .error .registrationNotHeld
    | some record =>
      if record.view.registrations > 0 then do
        let c ← c.change found.extent record { record with
          view := { record.view with registrations := record.view.registrations - 1 } }
        accept () { c with registrations := c.registrations.erase registration }
      else .error .registrationNotHeld

/-! ## Contents -/

def invalidateContents (c : Catalog) (extent : ExtentId) :
    Checked (Result Unit × Catalog) :=
  match c.extents.find? extent with
  | none => refuse .unknownId c
  | some record =>
    let view := record.view
    if view.state ≠ .resident ∨ view.descriptor.recovery = .pinned ∨
        view.descriptor.recovery = .fromArtifact then refuse .wrongState c
    else if view.leases > 0 ∨ view.registrations > 0 then refuse .held c
    else do
      let contentGeneration ← advance view.contentGeneration
      accept () { c with
        extents := c.extents.set extent { record with
          view := { view with contentGeneration, discarded := true } } }

def replaceContents (c : Catalog) (extent : ExtentId) :
    Checked (Result Unit × Catalog) :=
  match c.extents.find? extent with
  | none => refuse .unknownId c
  | some record =>
    let view := record.view
    if view.state ≠ .resident ∨ view.descriptor.recovery ≠ .preserve ∨ view.leases = 0 then
      refuse .wrongState c
    else if view.leases ≠ 1 ∨ view.registrations ≠ 0 then refuse .held c
    else do
      let contentGeneration ← advance view.contentGeneration
      accept () { c with
        extents := c.extents.set extent { record with
          view := { view with contentGeneration, discarded := false } } }

/-! ## Evictions -/

/-- What `BeginEvict` asks of the contents: to be written back, live; else evictable. -/
def mayEvict (view : ExtentView) (writeBack : Bool) : Bool :=
  if writeBack then
    view.descriptor.recovery = .preserve && !view.discarded &&
      view.descriptor.memoryClass ≠ .unknown
  else evictable view

def beginEvict (c : Catalog) (extent : ExtentId) (writeBack : Bool) :
    Checked (Result Ticket × Catalog) :=
  match c.extents.find? extent with
  | none => refuse .unknownId c
  | some record =>
    let view := record.view
    if view.state ≠ .resident then refuse .wrongState c
    else if view.leases > 0 ∨ view.registrations > 0 then refuse .held c
    else if !mayEvict view writeBack then refuse .notEvictable c
    else do
      let (ticket, record') ← begin extent
        { record with view := { view with state := .evicting }, writingBack := writeBack } .evict
      let c ← c.change extent record record'
      accept ticket c

def completeEvict (c : Catalog) (ticket : Ticket) : Checked (Result Unit × Catalog) :=
  match c.current ticket .evict .evicting with
  | .error e => refuse e c
  | .ok record => do
    let view := record.view
    let preserved := record.writingBack
    let backingGeneration ← advance view.backingGeneration
    let contentGeneration ←
      if view.descriptor.recovery ≠ .fromArtifact ∧ !preserved then
        advance view.contentGeneration
      else pure view.contentGeneration
    let c ← c.change ticket.extent record { record with
      view := { view with
        state := .nonresident, backingGeneration, contentGeneration, discarded := false, preserved }
      writingBack := false }
    accept () c

def cancelEvict (c : Catalog) (ticket : Ticket) : Checked (Result Unit × Catalog) :=
  match c.current ticket .evict .evicting with
  | .error e => refuse e c
  | .ok record => do
    let c ← c.change ticket.extent record { record with
      view := { record.view with state := .resident }, writingBack := false }
    accept () c

def quarantineEviction (c : Catalog) (ticket : Ticket) :
    Checked (Result Unit × Catalog) :=
  match c.current ticket .evict .evicting with
  | .error e => refuse e c
  | .ok record => do
    let c ← c.change ticket.extent record { record with
      view := { record.view with state := .quarantined }, writingBack := false }
    accept () c

def describe (c : Catalog) (extent : ExtentId) : Result ExtentView :=
  match c.extents.find? extent with
  | none => .error .unknownId
  | some record => .ok record.view

end Catalog
end JitLlm
