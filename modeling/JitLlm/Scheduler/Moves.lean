import JitLlm.Scheduler.Frame
import JitLlm.Scheduler.Mailboxes
import JitLlm.Scheduler.Requests

/-!
# What a call of the scheduler may do

Every function that enters stages is a sequence of a few moves, however its calls nest: an entry
changes with nothing of tasks, leases or the catalog touched, a load or an eviction ends, a task
is woken. `Move` lists them, each with what was known when it was made, and the stages' walk shows
once that a function is such a sequence (`Runs`). What holds of whole runs is then proved move by
move, without reading the functions again.

A move is from a state and what is still owed in it (`Debt`): what ends owes its waiters a wakeup,
a request's lease that no operation is under any more owes its release, a task that lost its last
operation or child an attempt to retire it, and one that finished is to leave what it waits for;
and a move pays the first of them. A function that owes
nothing at its start owes nothing at its end. No move finishes a task: that is the machine's.
-/

namespace JitLlm.Scheduler

open Base Lib List
open Catalog hiding Operation Reachable

/-! ## What stays -/

def Operation.work (op : Operation) : Option Operation :=
  match op.kind with
  | .device | .cpu => some { op with published := false }
  | .load | .evict => none

def workCells (s : Scheduler) : List (Option Operation) :=
  s.operations.map (·.bind Operation.work)

/-- Tasks, leases and sources are the same, and nothing is quarantined without a fault. -/
structure Still (s s' : Scheduler) : Prop where
  tasks : s'.tasks = s.tasks
  records : s'.records = s.records
  held : s'.held = s.held
  sources : s'.sources = s.sources
  fault : s'.fault = none → s.fault = none ∧ s'.quarantined = s.quarantined := by
    exact fun h => ⟨h, rfl⟩

def SameWork (s s' : Scheduler) : Prop := s'.workCells = s.workCells

structure Waits (s s' : Scheduler) : Prop where
  loads : ∀ e, (s'.loads.find? e).map Load.waiters = (s.loads.find? e).map Load.waiters
  evictions : ∀ e,
    (s'.evictions.find? e).map Eviction.waiters = (s.evictions.find? e).map Eviction.waiters

def Event.staged : Event → Bool
  | .opened _ .load _ _ | .opened _ .evict _ _ | .concluded _ .load _ _ _ _
  | .concluded _ .evict _ _ _ _ | .took _ _ | .quarantined _ => true
  | _ => false

theorem sameWork_set {s s' : Scheduler} {i : Nat} {cell c : Option Operation}
    (hcell : s.operations[i]? = some cell)
    (hwork : c.bind Operation.work = cell.bind Operation.work)
    (hops : s'.operations = s.operations.set i c) : SameWork s s' := by
  unfold SameWork workCells
  rw [hops, map_set, hwork]
  refine ext_getElem? fun j => ?_
  by_cases hj : i = j
  · subst hj
    rw [getElem?_set_self (by simpa using (List.getElem?_eq_some_iff.mp hcell).1),
      getElem?_map, hcell]
    rfl
  · rw [getElem?_set_ne hj]

/-! ## Endings -/

/-- How a load that stands at `p`, its record `r`, may end: the record after, and the event. -/
inductive LoadEnd (e : ExtentId) (p : LoadPhase) (r : ExtentRecord) : ExtentRecord → Event → Prop
  | whole (idle : p.operation = none) (whole : p.progress = .whole) :
      LoadEnd e p r r.loaded (.resident e)
  | failed (g : Nat) (idle : p.operation = none) (unmapped : p.mapped = false)
      (given : p.reuse = false) :
      LoadEnd e p r { r with view := { r.view with state := .nonresident, backingGeneration := g } }
        (.failed e)
  | lost : LoadEnd e p r r.quarantined (.lost e)

structure Evicted (r r' : ExtentRecord) : Prop where
  state : r'.view.state = .nonresident
  preserved : r'.view.preserved = r.writingBack
  descriptor : r'.view.descriptor = r.view.descriptor
  leases : r'.view.leases = r.view.leases
  registrations : r'.view.registrations = r.view.registrations
  generation : r.view.descriptor.recovery = .fromArtifact ∨ r.writingBack = true →
    r'.view.contentGeneration = r.view.contentGeneration

/-- How an eviction that stands at `p`, its record `r`, may end. -/
inductive EvictEnd (e : ExtentId) (p : EvictPhase) (r : ExtentRecord) :
    ExtentRecord → Event → Prop
  | evicted {r' : ExtentRecord} (idle : p.operation = none) (done : p.done = true)
      (record : Evicted r r') : EvictEnd e p r r' (.evicted e r.writingBack)
  | abandoned (idle : p.operation = none) (untouched : p.untouched = true) :
      EvictEnd e p r r.kept (.abandoned e)
  | lost : EvictEnd e p r { r.quarantined with writingBack := false } (.lost e)

/-- An eviction, its entry `v` standing at `p`, is over: its record was `r` and is `r'`. -/
structure EvictionEnds (s s' : Scheduler) (e : ExtentId) (v : Eviction) (place : PageSource)
    (p : EvictPhase) (r r' : ExtentRecord) (event : Event) : Prop where
  still : Still s s'
  work : SameWork s s'
  found : s.evictions.find? e = some v
  evictions : s'.evictions = s.evictions.erase e
  loads : s'.loads = s.loads
  evicting : Evicting s e v place p
  writeBack : v.writeBack = true → place.writeBack = true
  ticket : Catalog.Evicts s.catalog e v.ticket r
  writing : r.writingBack = v.writeBack
  edit : Catalog.Edit s.catalog e r' s'.catalog
  ending : EvictEnd e p r r' event
  log : s'.log = event :: s.log

structure Handed (s s' : Scheduler) (e : ExtentId) (v : Eviction) (place : PageSource)
    (p : EvictPhase) (r r' : ExtentRecord) : Prop where
  ends : EvictionEnds s s' e v place p r r' (.evicted e r.writingBack)
  stage : v.stage = .parked
  waiters : v.waiters = []
  kept : p.progress = .kept

/-! ## Beginnings -/

/-- The extent's load begins: the catalog's part of it, within `budget`. -/
structure LoadBegins (s s' : Scheduler) (e : ExtentId) (load : Load) (r : ExtentRecord)
    (budget : Nat) : Prop where
  still : Still s s'
  work : SameWork s s'
  loads : s'.loads = s.loads
  evictions : s'.evictions = s.evictions
  noLoad : s.loads.find? e = none
  noEviction : s.evictions.find? e = none
  idle : phase e s.log = .idle
  source : s.sources.find? e = some load.source
  fresh : load = { ticket := load.ticket, source := load.source, reuse := load.reuse }
  found : s.catalog.extents.find? e = some r
  state : r.view.state = .nonresident
  charge : Catalog.bytesOf s.catalog r.view.descriptor.domain Catalog.occupies +
    r.view.descriptor.size.value ≤ budget
  edit : Catalog.Edit s.catalog e r.loading s'.catalog
  ticket : Catalog.Loads s'.catalog e load.ticket r.loading
  log : s'.log = .begun e load.source r.view.preserved load.reuse :: s.log

def Asks (s : Scheduler) (r : TaskRecord) : Prop := s.record? r.id = some r ∧ r.finished = false

/-! ## Debts -/

inductive Debt
  | wake (t : TaskId)
  | release (lease : LeaseId)
  | retire (t : TaskId)
  | leave (t : TaskId)
  | leaveHeld (t : TaskId)
deriving DecidableEq

def released (k : List Debt) : Prop := ∀ lease, Debt.release lease ∉ k

def wakes (waiters : List TaskId) : List Debt := waiters.map .wake

def Held.due (lease : LeaseId) (held : Held) : List Debt :=
  if held.ending ∧ held.operations = 0 then [.release lease] else []

/-! ## Tasks -/

/-- The records and the task table change, and nothing else. -/
inductive TaskMove : Scheduler → List Debt → Scheduler → List Debt → Prop
  | start {s s' : Scheduler} {k : List Debt} {tasks : TaskTable} {r : TaskRecord}
      (created : s.tasks.create none = .ok (.ok r.id, tasks))
      (fresh : r = { id := r.id, request := r.request, priority := r.priority })
      (ready : ({ s with tasks }.setRecord r).makeReady r = .ok s') : TaskMove s k s' k
  | spawn {s s' : Scheduler} {k : List Debt} {tasks : TaskTable} {r p : TaskRecord}
      (created : s.tasks.create (some p.id) = .ok (.ok r.id, tasks))
      (fresh : r = { id := r.id, request := r.request, priority := r.priority })
      (parent : ({ s with tasks }.setRecord r).record? p.id = some p)
      (ready : (({ s with tasks }.setRecord r).addWaiting p).makeReady r = .ok s') :
      TaskMove s k s' k
  | awaitSignal {s : Scheduler} {k : List Debt} {r : TaskRecord} (asked : Asks s r)
      (fresh : r.awaitingSignal = false) :
      TaskMove s k (s.setRecord { r with awaitingSignal := true, waiting := r.waiting + 1 }) k
  | signal {s : Scheduler} {k : List Debt} {r : TaskRecord} (asked : Asks s r) :
      TaskMove s k (s.setRecord { r with signalled := true, awaitingSignal := false })
        (if r.awaitingSignal then .wake r.id :: k else k)
  | note {s : Scheduler} {k : List Debt} {r : TaskRecord} (found : s.record? r.id = some r)
      (failed signalled : Bool) : TaskMove s k (s.setRecord { r with failed, signalled }) k
  | ready {s s' : Scheduler} {k : List Debt} {r : TaskRecord} (found : s.record? r.id = some r)
      (ready : s.makeReady r = .ok s') : TaskMove s k s' k
  | cancel {s : Scheduler} {k : List Debt} {tasks : TaskTable} (t : TaskId)
      (cancelled : s.tasks.cancel t = .ok (.ok (), tasks)) : TaskMove s k { s with tasks } k
  | retire {s : Scheduler} {k : List Debt} {tasks : TaskTable} {t : TaskId} {r : TaskRecord}
      {view : TaskView} (found : s.record? t = some r) (described : s.tasks.describe t = some view)
      (retired : s.tasks.retire t = .ok (.ok (), tasks)) :
      TaskMove s (.retire t :: k) { s with tasks, records := s.records.set t.index none }
        (view.parent.toList.map .retire ++ k)
  | stay {s : Scheduler} {k : List Debt} {t : TaskId}
      (kept : s.tasks.describe t = none ∨ s.record? t = none ∨
        ∃ error tasks, s.tasks.retire t = .ok (.error error, tasks)) :
      TaskMove s (.retire t :: k) s k

/-! ## Moves -/

inductive Move (x : Config) : Scheduler → List Debt → Scheduler → List Debt → Prop
  | keep {s s' : Scheduler} {k : List Debt} (still : Still s s') (work : SameWork s s')
      (waits : Waits s s') (catalog : s'.catalog = s.catalog)
      (log : ∃ events, s'.log = events ++ s.log ∧ ∀ event ∈ events, event.staged = true) :
      Move x s k s' k
  | wake {s s' : Scheduler} {k : List Debt} (t : TaskId) (failed : Bool)
      (woken : s.wake t failed = .ok s') : Move x s (.wake t :: k) s' k
  | task {s s' : Scheduler} {k k' : List Debt} (moved : TaskMove s k s' k') : Move x s k s' k'
  -- Loads.
  | load {s s₁ : Scheduler} {k : List Debt} {e : ExtentId} {load : Load} {r : ExtentRecord}
      {asker : TaskRecord} (begins : LoadBegins s s₁ e load r x.settings.budget.value)
      (reuse : load.reuse = false) (asked : Asks s asker) : Move x s k (s₁.join e load asker) k
  | loadOwn {s s₁ s₂ : Scheduler} {k : List Debt} {e : ExtentId} {load : Load}
      {r r₁ r' : ExtentRecord} {asker : TaskRecord} {v : Eviction} {place : PageSource}
      {p : EvictPhase} (handed : Handed s s₁ e v place p r r₁)
      (begins : LoadBegins s₁ s₂ e load r' x.settings.budget.value) (reuse : load.reuse = true)
      (asked : Asks s asker) : Move x s k (s₂.join e load asker) k
  | loadFrom {s s₁ s₂ : Scheduler} {k : List Debt} {e e' : ExtentId} {load : Load}
      {r r₁ r' : ExtentRecord} {asker : TaskRecord} {v : Eviction} {place : PageSource}
      {p : EvictPhase} {backing given : BackingPlace} (other : e' ≠ e)
      (begins : LoadBegins s s₁ e load r (x.settings.budget.value + r.view.descriptor.size.value))
      (reuse : load.reuse = true) (handed : Handed s₁ s₂ e' v place p r₁ r')
      (wants : load.source.backing = some backing) (gives : place.backing = some given)
      (fits : given.key = backing.key) (charged : r₁.view.descriptor.size = backing.size)
      (charge : r.view.descriptor.size = backing.size)
      (domain : r₁.view.descriptor.domain = r.view.descriptor.domain) (asked : Asks s asker) :
      Move x s k (s₂.join e load asker) k
  | joinLoad {s : Scheduler} {k : List Debt} {e : ExtentId} {l : Load} {asker : TaskRecord}
      (found : s.loads.find? e = some l) (fresh : asker.id ∉ l.waiters) (asked : Asks s asker) :
      Move x s k (s.join e l asker) k
  | endLoad {s s' : Scheduler} {k : List Debt} {e : ExtentId} {l : Load} {p : LoadPhase}
      {r r' : ExtentRecord} {event : Event} (still : Still s s') (work : SameWork s s')
      (found : s.loads.find? e = some l) (loads : s'.loads = s.loads.erase e)
      (evictions : s'.evictions = s.evictions) (loading : Loading s e l p)
      (ticket : Catalog.Loads s.catalog e l.ticket r)
      (edit : Catalog.Edit s.catalog e r' s'.catalog) (ending : LoadEnd e p r r' event)
      (log : s'.log = event :: s.log) : Move x s k s' (wakes l.waiters ++ k)
  -- Evictions.
  | evict {s s₁ : Scheduler} {k : List Debt} {e : ExtentId} {v : Eviction} {place : PageSource}
      {r : ExtentRecord} {asker : TaskRecord} (catalog : s₁ = { s with catalog := s₁.catalog })
      (noLoad : s.loads.find? e = none) (noEviction : s.evictions.find? e = none)
      (idle : phase e s.log = .idle) (source : s.sources.find? e = some place)
      (found : s.catalog.extents.find? e = some r) (state : r.view.state = .resident)
      (unheld : r.view.leases = 0) (writeBack : v.writeBack = true → place.writeBack = true)
      (edit : Catalog.Edit s.catalog e (r.evicting v.writeBack) s₁.catalog)
      (ticket : Catalog.Evicts s₁.catalog e v.ticket (r.evicting v.writeBack))
      (waiters : v.waiters = [asker.id]) (asked : Asks s asker) :
      Move x s k (((s₁.setEviction e v).addWaiting asker).emit
        (.evicting e (some place) v.writeBack v.handoff)) k
  | evictOnce {s s' : Scheduler} {k : List Debt} {e : ExtentId} {c : Catalog}
      {r r' : ExtentRecord} (catalog : s' = { s with
        catalog := s'.catalog
        log := .evicted e false :: .evicting e (s.sources.find? e) false false :: s.log })
      (noLoad : s.loads.find? e = none) (noEviction : s.evictions.find? e = none)
      (idle : phase e s.log = .idle) (found : s.catalog.extents.find? e = some r)
      (state : r.view.state = .resident) (unheld : r.view.leases = 0)
      (unmanaged : (s.sources.find? e).all fun place => place.backing.isNone)
      (edit : Catalog.Edit s.catalog e (r.evicting false) c) (record : Evicted (r.evicting false) r')
      (edit' : Catalog.Edit c e r' s'.catalog) : Move x s k s' k
  | joinEviction {s : Scheduler} {k : List Debt} {e : ExtentId} {v : Eviction}
      {asker : TaskRecord} (found : s.evictions.find? e = some v) (fresh : asker.id ∉ v.waiters)
      (asked : Asks s asker) : Move x s k
        ((s.setEviction e { v with waiters := v.waiters ++ [asker.id] }).addWaiting asker) k
  | endEviction {s s' : Scheduler} {k : List Debt} {e : ExtentId} {v : Eviction}
      {place : PageSource} {p : EvictPhase} {r r' : ExtentRecord} {event : Event}
      (ends : EvictionEnds s s' e v place p r r' event) (given : p.progress = .kept → event = .lost e) :
      Move x s k s' (wakes v.waiters ++ k)
  | park {s s' : Scheduler} {k : List Debt} {e : ExtentId} {v v' : Eviction}
      (still : Still s s') (work : SameWork s s') (found : s.evictions.find? e = some v)
      (evictions : s'.evictions = s.evictions.insert e v') (none : v'.waiters = [])
      (loads : s'.loads = s.loads) (catalog : s'.catalog = s.catalog) (log : s'.log = s.log) :
      Move x s k s' (wakes v.waiters ++ k)
  -- Device and CPU work.
  | submit {s s₁ s' : Scheduler} {k : List Debt} {r : TaskRecord} {basis : Over}
      {own held : Option LeaseId} {tasks : TaskTable} {id : OperationId} {op : Operation}
      (asked : Asks s r)
      (leased : s.lease r.id basis = .ok (.ok (own, held), s₁))
      (prepared : s₁.tasks.prepareOperation r.id = .ok (.ok (), tasks))
      (work : op.work = some op) (running : op.quarantined = false)
      (made : op = { op with id, task := r.id, lease := own, held })
      (cell : s.operations[id.index]? = some none) (absent : s.find id = none)
      (opened : s' = (({ s₁ with
          tasks
          board := s'.board
          operations := s.operations.set id.index (some op)
          log := .opened id op.kind op.extent op.command :: s.log }.addWaiting r).emit
        (submission id own basis))) : Move x s k s' k
  | loseWork {s : Scheduler} {k : List Debt} {op work : Operation} (fault : Fault)
      (found : s.find op.id = some op) (work : op.work = some work)
      (running : op.quarantined = false) :
      Move x s k ({ s.setOperation { op with quarantined := true } with
        quarantined := s.quarantined + 1
        log := .quarantined op.id :: s.log }.fail fault) (.wake op.task :: k)
  | endWork {s s' : Scheduler} {k : List Debt} {op work : Operation} {outcome : Outcome}
      {bytes : Nat} {proven : Bool} {tasks : TaskTable} {board : CompletionBoard}
      {catalog : Catalog} {due : List Debt} (found : s.find op.id = some op)
      (work : op.work = some work) (running : op.quarantined = false)
      (retired : s.tasks.retireOperation op.task = .ok (.ok (), tasks))
      (lease : op.held = none → ∃ lease, op.lease = some lease ∧
        s.catalog.releaseLease lease = .ok (.ok (), catalog))
      (kept : op.held ≠ none → catalog = s.catalog)
      (ends : s' = { s with
        board, tasks, catalog
        operations := s.operations.set op.id.index none
        log := .concluded op.id op.kind op.extent outcome bytes proven :: s.log
        held := s'.held })
      (held : match op.held with
        | none => s'.held = s.held ∧ due = []
        | some lease => ∃ held, s.held.find? lease = some held ∧ 0 < held.operations ∧
            s'.held = s.held.insert lease { held with operations := held.operations - 1 } ∧
            due = { held with operations := held.operations - 1 }.due lease) :
      Move x s k s' (due ++ .wake op.task :: .retire op.task :: k)
  -- Requests' leases.
  | hold {s : Scheduler} {k : List Debt} {c catalog : Catalog} {closure : Closure}
      {lease : LeaseId} {r : TaskRecord} (asked : Asks s r)
      (acquired : s.catalog.acquireLease closure = .ok (.ok lease, c))
      (used : c.recordUse lease s.turn = .ok (.ok (), catalog)) :
      Move x s k { s with
        catalog
        held := s.held.insert lease
          { task := r.id, extents := sortUnique (closure.extents.map Prod.fst) }
        log := .leased lease r.id closure.extents :: s.log } k
  | ending {s : Scheduler} {k : List Debt} {lease : LeaseId} {held : Held}
      (found : s.held.find? lease = some held) :
      Move x s k { s with held := s.held.insert lease { held with ending := true } }
        ({ held with ending := true }.due lease ++ k)
  | waitOwn {s : Scheduler} {k : List Debt} {lease : LeaseId} {held : Held} {r : TaskRecord}
      (found : s.held.find? lease = some held) (own : held.task = r.id) (ending : held.ending = true)
      (operations : held.operations ≠ 0) (fresh : r.id ∉ held.waiters) (asked : Asks s r) :
      Move x s k ({ s with
        held := s.held.insert lease { held with waiters := held.waiters ++ [r.id] } }.addWaiting r) k
  | waitRelease {s : Scheduler} {k : List Debt} {lease : LeaseId} {held : Held} {r : TaskRecord}
      (found : s.held.find? lease = some held) (other : held.task ≠ r.id)
      (free : s.ancestorHolds (s.records.length + 1) r.id = .ok false)
      (fresh : r.id ∉ held.waiters) (asked : Asks s r) :
      Move x s k ({ s with
        held := s.held.insert lease { held with waiters := held.waiters ++ [r.id] } }.addWaiting r) k
  | release {s : Scheduler} {k : List Debt} {lease : LeaseId} {held : Held} {c catalog : Catalog}
      (found : s.held.find? lease = some held) (ending : held.ending = true)
      (none : held.operations = 0) (used : s.catalog.recordUse lease s.turn = .ok (.ok (), c))
      (released : c.releaseLease lease = .ok (.ok (), catalog)) :
      Move x s (.release lease :: k)
        { s with catalog, held := s.held.erase lease, log := .released lease :: s.log }
        (wakes held.waiters ++ k)
  -- A task leaves what it waits for.
  | leave {s : Scheduler} {k : List Debt} {t : TaskId} :
      Move x s (.leave t :: k) { s with
        loads := s.loads.mapVals fun _ load => load.leave t
        evictions := s.evictions.mapVals fun _ eviction =>
          { eviction with waiters := eviction.waiters.filter (· ≠ t) } } k
  | leaveHeld {s : Scheduler} {k : List Debt} {t : TaskId} (clear : released k) :
      Move x s (.leaveHeld t :: k) { s with held := s.held.mapVals fun _ held => held.leave t }
        ((endedBy { s with held := s.held.mapVals fun _ held => held.leave t } t).map .release ++ k)

inductive Moves (x : Config) (s : Scheduler) (k : List Debt) :
    Scheduler → List Debt → Prop
  | refl : Moves x s k s k
  | tail {s₁ s' : Scheduler} {k₁ k' : List Debt} :
      Moves x s k s₁ k₁ → Move x s₁ k₁ s' k' → Moves x s k s' k'

variable {x : Config} {s s₁ s' : Scheduler} {k k₁ k' j : List Debt} {f : Fatal}

theorem Move.moves (h : Move x s k s' k') : Moves x s k s' k' := .tail .refl h

theorem Moves.trans (h : Moves x s k s₁ k₁) (h' : Moves x s₁ k₁ s' k') : Moves x s k s' k' := by
  induction h' with
  | refl => exact h
  | tail _ hm ih => exact .tail ih hm

theorem TaskMove.lift (h : TaskMove s k s' k') (j : List Debt) :
    TaskMove s (k ++ j) s' (k' ++ j) := by
  cases h with
  | start created fresh ready => exact .start created fresh ready
  | spawn created fresh parent ready => exact .spawn created fresh parent ready
  | awaitSignal asked fresh => exact .awaitSignal asked fresh
  | signal asked =>
    rw [apply_ite (· ++ j)]
    exact .signal asked
  | note found failed signalled => exact .note found failed signalled
  | ready found ready => exact .ready found ready
  | cancel t cancelled => exact .cancel t cancelled
  | retire found described retired =>
    rw [cons_append, append_assoc]
    exact .retire found described retired
  | stay kept => exact .stay kept

theorem released.append (h : released k) (hj : released j) : released (k ++ j) :=
  fun lease hmem => (List.mem_append.mp hmem).elim (h lease) (hj lease)

theorem Move.lift (h : Move x s k s' k') (hj : released j) : Move x s (k ++ j) s' (k' ++ j) := by
  cases h with
  | keep still work waits catalog log => exact .keep still work waits catalog log
  | wake t failed woken => exact .wake t failed woken
  | task moved => exact .task (moved.lift j)
  | load begins reuse asked => exact .load begins reuse asked
  | loadOwn handed begins reuse asked => exact .loadOwn handed begins reuse asked
  | loadFrom other begins reuse handed wants gives fits charged charge domain asked =>
    exact .loadFrom other begins reuse handed wants gives fits charged charge domain asked
  | joinLoad found fresh asked => exact .joinLoad found fresh asked
  | endLoad still work found loads evictions loading ticket edit ending log =>
    rw [append_assoc]
    exact .endLoad still work found loads evictions loading ticket edit ending log
  | evict catalog noLoad noEviction idle source found state unheld wb edit ticket waiters asked =>
    exact .evict catalog noLoad noEviction idle source found state unheld wb edit ticket waiters
      asked
  | evictOnce catalog noLoad noEviction idle found state unheld unmanaged edit record edit' =>
    exact .evictOnce catalog noLoad noEviction idle found state unheld unmanaged edit record edit'
  | joinEviction found fresh asked => exact .joinEviction found fresh asked
  | endEviction ends given =>
    rw [append_assoc]
    exact .endEviction ends given
  | park still work found evictions none loads catalog log =>
    rw [append_assoc]
    exact .park still work found evictions none loads catalog log
  | submit asked leased prepared work running made cell absent opened =>
    exact .submit asked leased prepared work running made cell absent opened
  | loseWork fault found work running => exact .loseWork fault found work running
  | endWork found work running retired lease kept ends held =>
    rw [append_assoc]
    exact .endWork found work running retired lease kept ends held
  | hold asked acquired used => exact .hold asked acquired used
  | ending found =>
    rw [append_assoc]
    exact .ending found
  | waitOwn found own ending operations fresh asked =>
    exact .waitOwn found own ending operations fresh asked
  | waitRelease found other free fresh asked => exact .waitRelease found other free fresh asked
  | release found ending none used released =>
    rw [cons_append, append_assoc]
    exact .release found ending none used released
  | leave => exact .leave
  | leaveHeld clear =>
    rw [append_assoc]
    exact .leaveHeld (clear.append hj)

theorem Moves.lift (h : Moves x s k s' k') (hj : released j) : Moves x s (k ++ j) s' (k' ++ j) := by
  induction h with
  | refl => exact .refl
  | tail _ hm ih => exact .tail ih (hm.lift hj)

theorem Moves.keep (still : Still s s') (work : SameWork s s') (waits : Waits s s')
    (catalog : s'.catalog = s.catalog) (log : s'.log = s.log) : Moves x s k s' k :=
  (Move.keep still work waits catalog ⟨[], log, by simp⟩).moves

theorem Moves.idle (hs : s' = { s with
      board := s'.board, slots := s'.slots, queued := s'.queued, slotWaiters := s'.slotWaiters
      blocked := s'.blocked, releaseQueue := s'.releaseQueue, parked := s'.parked
      parkedCount := s'.parkedCount, releasesOpen := s'.releasesOpen, pumpingReleases := s'.pumpingReleases
      pinned := s'.pinned, started := s'.started, pending := s'.pending, cancels := s'.cancels
      stopping := s'.stopping, turn := s'.turn }) : Moves x s k s' k := by
  rw [hs]
  exact .keep (.mk rfl rfl rfl rfl) rfl ⟨fun _ => rfl, fun _ => rfl⟩ rfl rfl

/-! ## Runs -/

/-- A check outside the reach of this: of the catalog's own counters, of the board's news, inside
    the task table and its ready queue, and a walk or an `at` the source cannot fail. A page-in's
    own checks, the rolling back of what a lane may have seen, an operation past the board's
    capacity and the checks of leases and wakeups are not among them. -/
def Fatal.outside : Fatal → Bool
  | .occupancyOverflow | .occupancyUnderflow | .generationExhausted | .operationCounter
  | .unknownDomain | .missingExtent | .leaseOverflow | .leaseNotHeld | .registrationOverflow
  | .registrationNotHeld | .newsOverflow | .taskSlot | .operationCount | .readyBounds
  | .readyRetired | .readyOverflow | .missing | .endless => true
  | _ => false

/-- A check of leases, wakeups or a task's operations that fires, in the state it fires in. -/
inductive Fires (s : Scheduler) : List Debt → Fatal → Prop
  | wake {k : List Debt} {f : Fatal} {t : TaskId} {failed : Bool} (fires : s.wake t failed = .error f) :
      Fires s (.wake t :: k) f
  | lease {k : List Debt} {op work : Operation} (found : s.find op.id = some op)
      (work : op.work = some work) (running : op.quarantined = false) (own : op.held = none)
      (refused : ∀ lease, op.lease = some lease →
        ∃ error c, s.catalog.releaseLease lease = .ok (.error error, c)) : Fires s k .leaseRelease
  | retires {k : List Debt} {f : Fatal} {op work : Operation} (found : s.find op.id = some op)
      (work : op.work = some work) (running : op.quarantined = false)
      (refused : s.tasks.retireOperation op.task = .error f ∨
        ∃ error tasks, s.tasks.retireOperation op.task = .ok (.error error, tasks)) : Fires s k f
  | counted {k : List Debt} {op work : Operation} {lease : LeaseId}
      (found : s.find op.id = some op) (work : op.work = some work)
      (running : op.quarantined = false) (under : op.held = some lease)
      (none : ∀ held, s.held.find? lease = some held → held.operations = 0) :
      Fires s k .heldNotCounted
  | used {k : List Debt} {lease : LeaseId} {held : Held} (found : s.held.find? lease = some held)
      (refused : ∃ error c, s.catalog.recordUse lease s.turn = .ok (.error error, c)) :
      Fires s (.release lease :: k) .heldUse
  | released {k : List Debt} {lease : LeaseId} {held : Held} {c : Catalog}
      (found : s.held.find? lease = some held)
      (used : s.catalog.recordUse lease s.turn = .ok (.ok (), c))
      (refused : ∃ error c', c.releaseLease lease = .ok (.error error, c')) :
      Fires s (.release lease :: k) .heldRelease

/-- How a function may end the process: on a check out of reach, or, after some moves, on one of
    leases, wakeups or a task's operations. -/
def Ends (x : Config) (s : Scheduler) (k : List Debt) (f : Fatal) : Prop :=
  Fatal.outside f = true ∨ ∃ s₁ k₁, Moves x s k s₁ k₁ ∧ Fires s₁ k₁ f

theorem Ends.after (h : Moves x s k s₁ k₁) (hf : Ends x s₁ k₁ f) : Ends x s k f := by
  refine hf.imp_right ?_
  rintro ⟨s2, k2, hm, hfires⟩
  exact ⟨s2, k2, h.trans hm, hfires⟩

theorem Fires.lift (h : Fires s k f) (j : List Debt) : Fires s (k ++ j) f := by
  cases h with
  | wake fires => exact .wake fires
  | lease found work running own refused => exact .lease found work running own refused
  | retires found work running refused => exact .retires found work running refused
  | counted found work running under none => exact .counted found work running under none
  | used found refused => exact .used found refused
  | released found used refused => exact .released found used refused

theorem Ends.lift (h : Ends x s k f) (hj : released j) : Ends x s (k ++ j) f := by
  refine h.imp_right ?_
  rintro ⟨s₁, k₁, hm, hfires⟩
  exact ⟨s₁, k₁ ++ j, hm.lift hj, hfires.lift j⟩

theorem Ends.ofFires (h : Fires s k f) : Ends x s k f := Or.inr ⟨s, k, .refl, h⟩

theorem Ends.ofOwn (h : Catalog.Own f) : Ends x s k f := by
  left
  revert h
  cases f <;> simp [Catalog.Own, Fatal.ofCatalog, Fatal.outside]

theorem owned {α : Type} {P : α → Prop} {r : Checked α} (h : Sat Catalog.Own P r) :
    Sat (Ends x s k) P r :=
  h.allow fun _ hf => .ofOwn hf

/-- A function of the scheduler, called with `rest` to be done after it: nothing it does is out
    of place, and it leaves `Good`. -/
def Runs (x : Config) (s : Scheduler) (rest : List Work) : Ran → Prop :=
  Sat (Ends x s []) fun y => Good x y.1 (y.2 ++ rest) none none ∧ Moves x s [] y.1 []

theorem Runs.after {rest : List Work} {ran : Ran} (h : Moves x s [] s₁ [])
    (hr : Runs x s₁ rest ran) : Runs x s rest ran :=
  Sat.mono hr (fun _ hf => hf.after h) fun _ hy => ⟨hy.1, h.trans hy.2⟩

/-! ## Waking -/

structure Woken (s s' : Scheduler) : Prop where
  eq : ∃ records ready, s' = { s with records, tasks := { s.tasks with ready } }

theorem Woken.refl (s : Scheduler) : Woken s s := ⟨_, _, rfl⟩

theorem Woken.trans (h : Woken s s₁) (h' : Woken s₁ s') : Woken s s' := by
  obtain ⟨records, ready, rfl⟩ := h.eq
  obtain ⟨records', ready', rfl⟩ := h'.eq
  exact ⟨_, _, rfl⟩

theorem makeReady_woken (r : TaskRecord) : Sat (fun _ => True) (Woken s) (s.makeReady r) := by
  unfold makeReady
  split
  · exact .refl s
  unfold TaskTable.makeReady
  rcases s.tasks.tasks.find? r.id with _ | _
  · trivial
  simp only
  split
  · trivial
  cases s.tasks.ready.makeReady r.id r.priority with
  | error => trivial
  | ok => exact ⟨_, _, rfl⟩

theorem wake_woken (t : TaskId) (failed : Bool) : Sat (fun _ => True) (Woken s) (s.wake t failed) := by
  unfold wake
  rcases s.record? t with _ | _
  · exact .refl s
  simp only
  split
  · exact .refl s
  split
  · split
    · refine (makeReady_woken _).imp fun s' hs' => ?_
      obtain ⟨records, ready, rfl⟩ := hs'.eq
      exact ⟨_, _, rfl⟩
    · exact ⟨_, _, rfl⟩
  · trivial

theorem wakeAll_moves (waiters : List TaskId) (failed : TaskId → Bool) :
    Sat (Ends x s (wakes waiters ++ k)) (fun s' => Moves x s (wakes waiters ++ k) s' k ∧ Woken s s')
      (s.wakeAll waiters failed) := by
  refine Sat.imp (Sat.foldlM (I := fun rest s' =>
    Moves x s (wakes waiters ++ k) s' (wakes rest ++ k) ∧ Woken s s') ?_ ⟨.refl, .refl s⟩)
    fun s' hs' => hs'
  rintro s₁ t rest ⟨hm, hw⟩
  cases hwake : s₁.wake t (failed t) with
  | error => exact Or.inr ⟨s₁, _, hm, .wake hwake⟩
  | ok => exact ⟨.tail hm (.wake t (failed t) hwake), hw.trans ((wake_woken t _).val hwake)⟩

theorem Good.woken {work : List Work} {skip : Option ExtentId} {mine : Option Nat}
    (h : Good x s work skip mine) (hw : Woken s s') : Good x s' work skip mine := by
  obtain ⟨records, ready, rfl⟩ := hw.eq
  exact h.other rfl

end JitLlm.Scheduler
