import JitLlm.Catalog.Occupancy
import JitLlm.Catalog.Transitions
import JitLlm.Scheduler.Operations
import JitLlm.Scheduler.Protocol

/-!
# What holds of loads, evictions and operations between two calls

`Good x s work skip mine` ties the scheduler's tables to each other, to the catalog and to the
history: every load and eviction has the extent in the state it needs under its own ticket, at
most one operation of its own in flight, and stands in `phase` where its stage says.

The calls still to be made (`work`) are part of it. A call that names an extent holds it: nothing
else will touch its load or eviction before, so some of what its stage promises may be missing —
a load about to be unwound has no slot any more. `Grip` says which. An extent *in hand*, `skip`,
is one a function has taken out and not yet put back: nothing is said of its entry, except that
no queue, call or operation names it; `mine` is a slot in hand, busy and no entry's.

Everything is stated of the tables, never of the tasks: waking a waiter changes nothing here.
-/

namespace JitLlm.Scheduler

open Base Lib
open Catalog hiding Operation Reachable

/-! ## Calls and what they hold -/

inductive Grip
  | free
  | proceed
  | unwind
  | endLoad
  | proceedEviction
  | wroteBack (whole : Bool)
  | abandon
deriving DecidableEq

def Work.grips : Work → Option (ExtentId × Grip)
  | .proceed e => some (e, .proceed)
  | .unwind e => some (e, .unwind)
  | .endLoad e => some (e, .endLoad)
  | .proceedEviction e => some (e, .proceedEviction)
  | .wroteBack e whole => some (e, .wroteBack whole)
  | .abandon e => some (e, .abandon)
  | _ => none

def gripped (work : List Work) : List ExtentId := work.filterMap fun w => w.grips.map Prod.fst

def grip : List Work → ExtentId → Grip
  | [], _ => .free
  | w :: rest, e =>
    match w.grips with
    | none => grip rest e
    | some (e', g) => if e' = e then g else grip rest e

/-- No call is a `Publish`. -/
def quiet (work : List Work) : Prop := ∀ id, Work.publish id ∉ work

/-! ## Operations and mailboxes -/

/-- An operation some load or eviction waits for, as its stage sees it. -/
structure StageOp where
  kind : Kind
  extent : ExtentId
  route : Route
  command : Command
deriving DecidableEq

/-- What a record is to loads and evictions; one quarantined, or of device or CPU work, is
    nothing. -/
def Operation.stage (op : Operation) : Option StageOp :=
  if op.quarantined then none
  else match op.kind with
    | .load | .evict => some ⟨op.kind, op.extent, op.route, op.command⟩
    | .device | .cpu => none

def stageOp (s : Scheduler) (id : OperationId) : Option StageOp := (s.find id).bind Operation.stage

def Mailbox.clean (m : Mailbox) : Prop :=
  m.acceptance = .none ∧ m.terminal = none ∧ m.contradictory = false ∧ m.retired = false

/-- The records of operations are those of the open mailboxes, and a lane publishes only for one
    it took. -/
structure Mailboxes (board : CompletionBoard) (operations : List (Option Operation))
    (log : List Event) : Prop where
  length : operations.length = board.mailboxes.length
  generation : ∀ (i : Nat) m, board.mailboxes[i]? = some m → 0 < m.generation
  record : ∀ (i : Nat) op, operations[i]? = some (some op) → op.id.index = i ∧
    ∃ m, board.mailboxes[i]? = some m ∧ m.isOpen = true ∧ m.generation = op.id.generation ∧
      (op.published = false → m.clean)
  filled : ∀ (i : Nat) m, board.mailboxes[i]? = some m → m.isOpen = true →
    ∃ op, operations[i]? = some (some op)
  retired : ∀ (i : Nat) m, board.mailboxes[i]? = some m → m.retired = true →
    m.acceptance ≠ .none ∧ m.terminal.isSome = true
  nodup : board.free.Nodup
  free : ∀ i ∈ board.free, ∃ m, board.mailboxes[i]? = some m ∧ m.isOpen = false ∧ m.clean
  took : ∀ id command, Event.took id command ∈ log → ∃ m, board.mailboxes[id.index]? = some m ∧
    (id.generation < m.generation ∨ id.generation = m.generation ∧
      (m.retired = true ∨ ∃ op, operations[id.index]? = some (some op) ∧ op.id = id ∧
        op.published = true))
  asked : ∀ (i : Nat) op, operations[i]? = some (some op) →
    (op.published = true → ∃ command, Event.took op.id command ∈ log) ∧
      (op.quarantined = true → op.published = true)
  count : (board.mailboxes.map fun m => m.isOpen.toNat).sum = board.openCount

def Unpublished (s : Scheduler) (id : OperationId) : Prop :=
  ∃ op, s.find id = some op ∧ op.published = false ∧ op.quarantined = false

/-! ## Loads -/

def Load.flags (l : Load) : Prop :=
  l.source.read.kind = .read ∧
  match l.stage with
  | .queued | .mapping =>
    l.mapped = false ∧ l.slot = none ∧ (l.reuse = true → l.source.backing.isSome = true)
  | .slot =>
    l.mapped = l.source.backing.isSome ∧ l.reuse = false ∧ l.slot = none ∧
      l.source.landed = true
  | .reading =>
    l.mapped = l.source.backing.isSome ∧ l.reuse = false ∧
      (l.slot.isSome = true → l.source.landed = true)
  | .copying =>
    l.mapped = l.source.backing.isSome ∧ l.reuse = false ∧ l.source.landed = true
  | .unmapping =>
    l.mapped = true ∧ l.reuse = false ∧ l.slot = none ∧ l.source.backing.isSome = true
  | .releasing =>
    l.mapped = false ∧ l.reuse = true ∧ l.slot = none ∧ l.source.backing.isSome = true

def Load.stands (x : Config) (g : Grip) (l : Load) (progress : Progress) : Prop :=
  match g with
  | .free =>
    match l.stage with
    | .queued | .slot => progress = .fresh
    | .mapping => progress = .fresh ∧ l.source.backing.isSome = true
    | .reading => progress = .fresh ∧ (l.source.landed = true → l.slot.isSome = true)
    | .copying => ∃ i a, l.slot = some i ∧ x.settings.landing.slots[i]? = some a ∧
        progress = .read a
    | .unmapping | .releasing => True
  | .proceed => (l.stage = .queued ∨ l.stage = .slot) ∧ progress = .fresh
  | .unwind => l.slot = none ∧ (l.stage = .reading ∨ l.stage = .copying)
  | .endLoad => l.slot = none ∧ l.stage = .copying ∧ progress = .whole
  | _ => False

def Load.operates (x : Config) (ops : OperationId → Option StageOp) (e : ExtentId) (l : Load)
    (operation : Option (OperationId × Command)) : Prop :=
  match l.operation with
  | none => operation = none
  | some id => ∃ route command, ops id = some ⟨.load, e, route, command⟩ ∧
      stageCommand x l = .ok (route, command) ∧ operation = some (id, command)

/-- The extent is loading, as the catalog and the history tell it. -/
structure Loading (s : Scheduler) (e : ExtentId) (l : Load) (p : LoadPhase) : Prop where
  eviction : s.evictions.find? e = none
  ticket : ∃ r, Catalog.Loads s.catalog e l.ticket r
  phase : phase e s.log = .loading p
  source : p.source = l.source

structure LoadOk (x : Config) (s : Scheduler) (g : Grip) (e : ExtentId) (l : Load) : Prop where
  flags : l.flags
  held : g ≠ .free → l.operation = none
  slot : ∀ i, l.slot = some i → s.slots[i]? = some .busy
  loading : ∃ p, Loading s e l p ∧ p.reuse = l.reuse ∧ p.mapped = l.mapped ∧
    l.stands x g p.progress ∧ l.operates x s.stageOp e p.operation

/-! ## Evictions -/

def Eviction.flags (v : Eviction) (place : PageSource) : Prop :=
  (v.handoff = true → place.backing.isSome = true) ∧
  (v.writeBack = true → place.writeBack = true) ∧
  (v.releaseOpen = true → v.stage = .releasing) ∧
  match v.stage with
  | .slot => v.writeBack = true ∧ place.landed = true ∧ v.slot = none
  | .copyOut => v.writeBack = true ∧ place.landed = true
  | .writing => v.writeBack = true ∧ (v.slot.isSome = true → place.landed = true)
  | .unmapping => place.backing.isSome = true ∧ v.slot = none
  | .parked => place.backing.isSome = true ∧ v.slot = none ∧ v.handoff = true ∧ v.waiters = [] ∧
      v.operation = none
  | .releasing => place.backing.isSome = true ∧ v.slot = none ∧ v.handoff = true

def Eviction.stands (x : Config) (g : Grip) (v : Eviction) (place : PageSource)
    (progress : EvictProgress) : Prop :=
  match g with
  | .free =>
    match v.stage with
    | .slot => progress = .fresh
    | .copyOut => progress = .fresh ∧ v.slot.isSome = true
    | .writing =>
      if place.landed then ∃ i a, v.slot = some i ∧
        x.settings.landing.slots[i]? = some a ∧ progress = .copied a
      else progress = .fresh
    | .unmapping => if v.writeBack then progress = .written else progress = .fresh
    | .parked | .releasing => progress = .kept
  | .proceedEviction => v.stage = .slot ∧ progress = .fresh
  | .wroteBack whole =>
    v.slot = none ∧ (v.stage = .copyOut ∨ v.stage = .writing) ∧
      progress ≠ .kept ∧ progress ≠ .released ∧ (whole = true → progress = .written)
  | .abandon =>
    v.slot = none ∧ (v.stage = .copyOut ∨ v.stage = .writing) ∧
      progress ≠ .kept ∧ progress ≠ .released
  | _ => False

def Eviction.operates (x : Config) (ops : OperationId → Option StageOp) (e : ExtentId)
    (v : Eviction) (place : PageSource) (operation : Option (OperationId × Command)) : Prop :=
  match v.operation with
  | none => operation = none
  | some id => ∃ route command, ops id = some ⟨.evict, e, route, command⟩ ∧
      evictCommand x v place = .ok (route, command) ∧ operation = some (id, command)

/-- The extent is evicting, as the catalog and the history tell it. -/
structure Evicting (s : Scheduler) (e : ExtentId) (v : Eviction) (place : PageSource)
    (p : EvictPhase) : Prop where
  load : s.loads.find? e = none
  ticket : ∃ r, Catalog.Evicts s.catalog e v.ticket r ∧ r.writingBack = v.writeBack
  source : s.sources.find? e = some place
  phase : phase e s.log = .evicting p
  placed : p.place = some place
  writeBack : p.writeBack = v.writeBack
  handoff : p.handoff = v.handoff

structure EvictOk (x : Config) (s : Scheduler) (g : Grip) (e : ExtentId) (v : Eviction) :
    Prop where
  held : g ≠ .free → v.operation = none
  slot : ∀ i, v.slot = some i → s.slots[i]? = some .busy
  evicting : ∃ place p, Evicting s e v place p ∧ v.flags place ∧
    v.stands x g place p.progress ∧ v.operates x s.stageOp e place p.operation

/-! ## The whole -/

def holdsSlot (s : Scheduler) (e : ExtentId) (i : Nat) : Prop :=
  (∃ l, s.loads.find? e = some l ∧ l.slot = some i) ∨
    ∃ v, s.evictions.find? e = some v ∧ v.slot = some i

def Settled (s : Scheduler) (e : ExtentId) : Prop :=
  (phase e s.log = .idle ∧ ∀ r, s.catalog.extents.find? e = some r →
      r.view.state ≠ .loading ∧ r.view.state ≠ .evicting) ∨
    (phase e s.log = .lost ∧ ∃ r, s.catalog.extents.find? e = some r ∧
      r.view.state = .quarantined)

def Stage.opens : Stage → Bool
  | .queued | .slot => false
  | _ => true

def EvictStage.opens : EvictStage → Bool
  | .slot | .parked => false
  | _ => true

def Owned (s : Scheduler) (id : OperationId) (op : StageOp) : Prop :=
  match op.kind with
  | .load => ∃ l, s.loads.find? op.extent = some l ∧ l.operation = some id
  | _ => ∃ v, s.evictions.find? op.extent = some v ∧ v.operation = some id

/-- A queue of extents that no call holds, each once, each as the queue needs it. -/
structure Lined (work : List Work) (skip : Option ExtentId) (queue : List ExtentId)
    (P : ExtentId → Prop) : Prop where
  nodup : queue.Nodup
  each : ∀ e ∈ queue, skip ≠ some e ∧ grip work e = .free ∧ P e

def InQueue (s : Scheduler) (e : ExtentId) : Prop :=
  ∃ l, s.loads.find? e = some l ∧ l.stage = .queued

def ForSlot (s : Scheduler) (e : ExtentId) : Prop :=
  (∃ l, s.loads.find? e = some l ∧ l.stage = .slot) ∨
    ∃ v, s.evictions.find? e = some v ∧ v.stage = .slot

def ForMailbox (s : Scheduler) (e : ExtentId) : Prop :=
  (∃ l, s.loads.find? e = some l ∧ l.operation = none ∧ l.stage.opens = true) ∨
    ∃ v, s.evictions.find? e = some v ∧ v.operation = none ∧ v.stage.opens = true ∧
      (v.stage = .releasing → v.releaseOpen = true)

def ForRelease (s : Scheduler) (e : ExtentId) : Prop :=
  ∃ v, s.evictions.find? e = some v ∧ v.operation = none ∧ v.stage = .releasing ∧
    v.releaseOpen = false

structure Good (x : Config) (s : Scheduler) (work : List Work) (skip : Option ExtentId)
    (mine : Option Nat) : Prop where
  reach : Catalog.Reachable s.catalog
  mailboxes : Mailboxes s.board s.operations s.log
  slots : s.slots.length = x.settings.landing.slots.length
  load : ∀ e l, skip ≠ some e → s.loads.find? e = some l → LoadOk x s (grip work e) e l
  eviction : ∀ e v, skip ≠ some e → s.evictions.find? e = some v → EvictOk x s (grip work e) e v
  settled : ∀ e, skip ≠ some e → s.loads.find? e = none → s.evictions.find? e = none → Settled s e
  owned : ∀ id op, s.stageOp id = some op → skip ≠ some op.extent ∧ Owned s id op
  holder : ∀ e e' i, skip ≠ some e → skip ≠ some e' → holdsSlot s e i → holdsSlot s e' i → e = e'
  busy : ∀ i, s.slots[i]? = some .busy → mine = some i ∨ ∃ e, skip ≠ some e ∧ holdsSlot s e i
  mine : ∀ i, mine = some i → s.slots[i]? = some .busy ∧ ∀ e, skip ≠ some e → ¬ holdsSlot s e i
  queued : Lined work skip s.queued (InQueue s)
  slotWaiters : Lined work skip s.slotWaiters (ForSlot s)
  blocked : Lined work skip s.blocked (ForMailbox s)
  release : Lined work skip s.releaseQueue (ForRelease s)
  nodup : (gripped work).Nodup
  gripped : ∀ e ∈ gripped work, skip ≠ some e ∧
    ((∃ l, s.loads.find? e = some l) ∨ ∃ v, s.evictions.find? e = some v)
  calls : (skip.isSome = true → quiet work) ∧ quiet work.tail ∧
    ∀ id, work.head? = some (.publish id) → Unpublished s id

end JitLlm.Scheduler
