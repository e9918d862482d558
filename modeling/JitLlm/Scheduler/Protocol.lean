import JitLlm.Scheduler.PageIn

/-!
# The life of an extent, as its events tell it

The abstract side of page-ins and evictions: no mailboxes, queues, waiters or turns, only what a
lane was told and answered about one extent, in order. `phase e log` is where the extent `e`
stands after the history `log` (newest first), and an event out of order leaves it `broken`.

What the component is for is in the guards. A load is `whole` only once its read moved the whole
range and, landed, a copy out of the very memory it was read into was concluded succeeded, each
with the proof that nothing touches the memory any more; only then may the extent become resident.
An eviction that writes back unmaps only once `written`, and is abandoned only while its backing was
not touched.

That the code's stages refine this is proved with their invariant (`Scheduler/Invariant.lean`):
no event of a run is ever out of order.
-/

namespace JitLlm.Scheduler

open Base Lib
open Catalog hiding Operation

/-! ## Phases -/

inductive Progress
  | fresh
  | read (memory : Nat)
  | whole
deriving DecidableEq

structure LoadPhase where
  source : PageSource
  preserved : Bool
  reuse : Bool
  mapped : Bool := false
  operation : Option (OperationId × Command) := none
  progress : Progress := .fresh
deriving DecidableEq

inductive EvictProgress
  | fresh
  | copied (memory : Nat)
  | written
  | kept
  | released
deriving DecidableEq

structure EvictPhase where
  place : Option PageSource
  writeBack : Bool
  handoff : Bool
  operation : Option (OperationId × Command) := none
  progress : EvictProgress := .fresh
deriving DecidableEq

inductive Phase
  | idle
  | loading (p : LoadPhase)
  | evicting (p : EvictPhase)
  | lost
  | broken
deriving DecidableEq

/-! ## Loads -/

def BackingWork.isAt (work : BackingWork) (place : BackingPlace) : Bool :=
  work.reservation = place.reservation && work.offset = place.offset && work.size = place.size &&
    work.allocationClass = place.allocationClass

/-- The copies that put what was read at `memory` in its place: the one range, or every piece. -/
def PageSource.copiesFrom (source : PageSource) (memory : Nat) : List DeviceCopy :=
  match source.pieces with
  | [] => [⟨source.destination, memory, source.read.length⟩]
  | pieces => pieces.map fun p => ⟨p.destination, memory + p.slotOffset, p.length⟩

def PageSource.ranges (source : PageSource) (spec : ReadSpec) (kind : IoKind) : Bool :=
  spec.kind = kind && spec.fd = source.read.fd && spec.offset = source.read.offset &&
    spec.length = source.read.length && (source.landed || spec.memory = source.read.memory)

def LoadPhase.opens (p : LoadPhase) : Command → Bool
  | .backing work =>
    p.source.backing.any work.isAt &&
    match work.kind with
    | .map => !p.mapped && p.progress = .fresh && work.reuse = p.reuse
    | .unmap => p.mapped
    | .release => p.reuse && !p.mapped
  | .read spec =>
    p.progress = .fresh && p.source.ranges spec .read &&
      (p.source.backing.isNone || p.mapped) && !p.reuse
  | .copies work =>
    p.source.landed && match p.progress with
    | .read memory => work.copies = p.source.copiesFrom memory
    | _ => false
  | _ => false

def LoadPhase.settle (p : LoadPhase) (command : Command) (outcome : Outcome) (bytes : Nat) :
    LoadPhase :=
  if outcome = .succeeded then
    match command with
    | .backing work =>
      match work.kind with
      | .map => { p with mapped := true, reuse := false }
      | .unmap => { p with mapped := false }
      | .release => { p with reuse := false }
    | .read spec =>
      if bytes = spec.length then
        { p with progress := if p.source.landed then .read spec.memory else .whole }
      else p
    | .copies _ => { p with progress := .whole }
    | _ => p
  else p

def LoadPhase.step (p : LoadPhase) : Event → Phase
  | .opened id .load _ command =>
    if p.operation.isNone && p.opens command then
      .loading { p with operation := some (id, command) }
    else .broken
  | .concluded id .load _ outcome bytes proven =>
    match p.operation with
    | none => .broken
    | some (id', command) =>
      if id' = id && (proven || outcome ≠ .succeeded) then
        .loading { p.settle command outcome bytes with operation := none }
      else .broken
  | .resident _ => if p.operation.isNone && p.progress = .whole then .idle else .broken
  | .failed _ => if p.operation.isNone && !p.mapped && !p.reuse then .idle else .broken
  | .lost _ => .lost
  | _ => .broken

/-! ## Evictions -/

def EvictPhase.managed (p : EvictPhase) : Bool := p.place.any (·.backing.isSome)

/-- The copy-out of the one range, into the slot at `memory`. -/
def PageSource.copyOut (source : PageSource) (memory : Nat) : List DeviceCopy :=
  [⟨memory, source.destination, source.read.length⟩]

def DeviceWork.target (work : DeviceWork) : Nat := (work.copies.head?.map (·.destination)).getD 0

def EvictPhase.opens (p : EvictPhase) : Command → Bool
  | .backing work =>
    (p.place.bind (·.backing)).any work.isAt &&
    match work.kind with
    | .map => false
    | .unmap => (if p.writeBack then p.progress = .written else p.progress = .fresh) &&
        work.retain = p.handoff
    | .release => p.progress = .kept
  | .copies work =>
    p.writeBack && p.progress = .fresh &&
      p.place.any fun place => place.landed && work.copies = place.copyOut work.target
  | .read spec =>
    p.writeBack && p.place.any fun place => place.ranges spec .write &&
      if place.landed then p.progress = .copied spec.memory else p.progress = .fresh
  | _ => false

def EvictPhase.settle (p : EvictPhase) (command : Command) (outcome : Outcome) (bytes : Nat) :
    EvictPhase :=
  if outcome = .succeeded then
    match command with
    | .backing work =>
      match work.kind with
      | .unmap => { p with progress := if work.retain then .kept else .released }
      | _ => { p with progress := .released }
    | .copies work => { p with progress := .copied work.target }
    | .read spec => if bytes = spec.length then { p with progress := .written } else p
    | _ => p
  else p

def EvictPhase.untouched (p : EvictPhase) : Bool :=
  p.progress ≠ .kept && p.progress ≠ .released

def EvictPhase.done (p : EvictPhase) : Bool :=
  if p.managed then !p.untouched
  else if p.writeBack then p.progress = .written else p.progress = .fresh

def EvictPhase.step (p : EvictPhase) : Event → Phase
  | .opened id .evict _ command =>
    if p.operation.isNone && p.opens command then
      .evicting { p with operation := some (id, command) }
    else .broken
  | .concluded id .evict _ outcome bytes proven =>
    match p.operation with
    | none => .broken
    | some (id', command) =>
      if id' = id && (proven || outcome ≠ .succeeded) then
        .evicting { p.settle command outcome bytes with operation := none }
      else .broken
  | .evicted _ preserved =>
    if p.operation.isNone && p.done && preserved = p.writeBack then .idle else .broken
  | .abandoned _ => if p.operation.isNone && p.untouched then .idle else .broken
  | .lost _ => .lost
  | _ => .broken

/-! ## Histories -/

def Event.about : Event → Option ExtentId
  | .opened _ .load e _ | .opened _ .evict e _ | .concluded _ .load e _ _ _
  | .concluded _ .evict e _ _ _ | .begun e _ _ _ | .resident e | .failed e | .evicting e _ _ _
  | .evicted e _ | .abandoned e | .lost e => some e
  | _ => none

def Phase.step : Phase → Event → Phase
  | .idle, .begun _ source preserved reuse => .loading { source, preserved, reuse }
  | .idle, .evicting _ place writeBack handoff => .evicting { place, writeBack, handoff }
  | .loading p, event => p.step event
  | .evicting p, event => p.step event
  | _, _ => .broken

def phase (e : ExtentId) : List Event → Phase
  | [] => .idle
  | event :: log => if event.about = some e then (phase e log).step event else phase e log

theorem phase_cons_of_ne {e : ExtentId} {event : Event} (log : List Event)
    (h : event.about ≠ some e) : phase e (event :: log) = phase e log := by
  simp [phase, h]

theorem phase_cons_other {e e' : ExtentId} {event : Event} {log : List Event}
    (h : event.about = some e) (hne : e' ≠ e) : phase e' (event :: log) = phase e' log :=
  phase_cons_of_ne log fun heq => hne (Option.some.inj (heq.symm.trans h))

theorem phase_cons {e : ExtentId} {event : Event} (log : List Event)
    (h : event.about = some e) : phase e (event :: log) = (phase e log).step event := by
  simp [phase, h]

end JitLlm.Scheduler
