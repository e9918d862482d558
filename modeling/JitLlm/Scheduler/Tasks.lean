import JitLlm.Base.Check
import JitLlm.Base.Ids

/-!
# `scheduler/tasks.h`, `tasks.cc` — the task table and its ready queue

The source's rings are lists, oldest entry first. A ready queue's `queued` vector says, by task
index, which generation is queued; that such an entry really is in some class is a field, so a
wakeup that coalesces with it is never lost.

`Cancel` walks the subtree through first children, siblings and parents without recursion. Its
loop is `cancelWalk`, bounded by a fuel no tree of live tasks can use up; running out is
`Fatal.endless`, which is not a check of the source.
-/

namespace JitLlm.Scheduler

open Base Lib List

abbrev TaskId := Id .task

inductive TaskOutcome
  | succeeded | failed | cancelled
deriving DecidableEq

inductive TaskError
  | unknownTask | full | closed | finished | busy
deriving DecidableEq

structure TaskView where
  parent : Option TaskId := none
  phase : Nat := 0
  operations : Nat := 0
  children : Nat := 0
  cancelled : Bool := false
  childFailed : Bool := false
  outcome : Option TaskOutcome := none
deriving DecidableEq

/-! ## The ready queue -/

/-- `ReadyQueue::Class`: the ring's entries, and how often it was passed over. -/
structure ReadyClass where
  ring : List TaskId := []
  passedOver : Nat := 0
deriving DecidableEq

/-- A class whose ring is `ring` now: no longer passed over once it is empty. -/
def ReadyClass.without (c : ReadyClass) (ring : List TaskId) : ReadyClass :=
  { ring, passedOver := if ring.isEmpty then 0 else c.passedOver }

def inClasses (t : TaskId) (classes : List ReadyClass) : Prop := ∃ c ∈ classes, t ∈ c.ring

instance (t : TaskId) (classes : List ReadyClass) : Decidable (inClasses t classes) :=
  inferInstanceAs (Decidable (∃ c ∈ classes, t ∈ c.ring))

structure ReadyQueue where
  classes : List ReadyClass
  capacity : Nat
  agingLimit : Nat
  queued : List Nat
  size : Nat := 0
  wf : ∀ (i g : Nat), queued[i]? = some g → g ≠ 0 → inClasses ⟨i, g⟩ classes

namespace ReadyQueue

def ofClasses (classes capacity agingLimit : Nat) : ReadyQueue where
  classes := List.replicate classes {}
  capacity := capacity
  agingLimit := agingLimit
  queued := List.replicate capacity 0
  wf := by
    intro i g h hg
    rw [getElem?_replicate] at h
    split at h
    · exact absurd (Option.some.inj h).symm hg
    · cases h

def Holds (q : ReadyQueue) (t : TaskId) : Prop := inClasses t q.classes

instance (q : ReadyQueue) (t : TaskId) : Decidable (q.Holds t) :=
  inferInstanceAs (Decidable (inClasses t q.classes))

variable {classes : List ReadyClass}

theorem inClasses_set {t : TaskId} {i : Nat} {c c' : ReadyClass}
    (h : inClasses t classes) (hc : classes[i]? = some c) (hkeep : t ∈ c.ring → t ∈ c'.ring) :
    inClasses t (classes.set i c') := by
  obtain ⟨d, hd, ht⟩ := h
  obtain ⟨j, hj, rfl⟩ := getElem_of_mem hd
  have hi := (List.getElem?_eq_some_iff.mp hc).1
  by_cases hij : i = j
  · subst hij
    rw [getElem?_eq_getElem hj, Option.some.injEq] at hc
    rw [hc] at ht
    exact ⟨c', mem_set hi c', hkeep ht⟩
  refine ⟨classes[j], ?_, ht⟩
  rw [mem_iff_getElem?]
  exact ⟨j, by rw [getElem?_set_ne hij, getElem?_eq_getElem hj]⟩

/-- `MakeReady`: `false` if the wakeup coalesces with an entry already there. -/
def makeReady (q : ReadyQueue) (t : TaskId) (priority : Nat) : Checked (Bool × ReadyQueue) :=
  match q.queued[t.index]?, h : q.classes[priority]? with
  | some g, some c =>
    if !t.valid then .error .readyBounds
    else if g = t.generation then .ok (false, q)
    else if g ≠ 0 then .error .readyRetired
    else if c.ring.length < q.capacity then
      .ok (true,
        { q with
          classes := q.classes.set priority { c with ring := c.ring ++ [t] }
          queued := q.queued.set t.index t.generation
          size := q.size + 1
          wf := by
            intro i g hi hg
            rw [getElem?_set] at hi
            split at hi
            · rename_i hq
              split at hi
              · simp only [Option.some.injEq] at hi
                subst hq
                subst hi
                exact ⟨_, mem_set (List.getElem?_eq_some_iff.mp h).1 _,
                  mem_append_right _ (List.mem_singleton.mpr rfl)⟩
              · cases hi
            · exact inClasses_set (q.wf i g hi hg) h fun ht => mem_append_left _ ht })
    else .error .readyOverflow
  | _, _ => .error .readyBounds

/-- The class passed over at least `limit` times and the most, ties to the higher class, with
    its count. The recursion looks at the classes above first, as the source's loop does. -/
def agedClass (limit : Nat) : List ReadyClass → Nat → Option (Nat × Nat)
  | [], _ => none
  | c :: rest, i =>
    match agedClass limit rest (i + 1) with
    | none => if c.ring ≠ [] ∧ c.passedOver ≥ limit then some (i, c.passedOver) else none
    | some (j, most) =>
      if c.ring ≠ [] ∧ c.passedOver ≥ limit ∧ c.passedOver > most then some (i, c.passedOver)
      else some (j, most)

def highestClass : List ReadyClass → Nat → Option Nat
  | [], _ => none
  | c :: rest, i =>
    match highestClass rest (i + 1) with
    | some j => some j
    | none => if c.ring ≠ [] then some i else none

/-- The class `Next` serves. -/
def servedClass (q : ReadyQueue) : Nat :=
  match agedClass q.agingLimit q.classes 0 with
  | some (i, _) => i
  | none => (highestClass q.classes 0).getD 0

def passOver (served : Nat) (classes : List ReadyClass) : List ReadyClass :=
  classes.mapIdx fun i c =>
    if i < served ∧ c.ring ≠ [] then { c with passedOver := (c.passedOver + 1) % 2 ^ 32 }
    else if i = served then { c with passedOver := 0 }
    else c

theorem inClasses_passOver {t : TaskId} {served : Nat} :
    inClasses t (passOver served classes) ↔ inClasses t classes := by
  constructor
  · rintro ⟨c, hc, ht⟩
    obtain ⟨i, hi, rfl⟩ := List.mem_mapIdx.mp hc
    refine ⟨classes[i], getElem_mem hi, ?_⟩
    split at ht
    · exact ht
    · split at ht <;> exact ht
  rintro ⟨c, hc, ht⟩
  obtain ⟨i, hi, rfl⟩ := getElem_of_mem hc
  refine ⟨_, List.mem_mapIdx.mpr ⟨i, hi, rfl⟩, ?_⟩
  split
  · exact ht
  · split <;> exact ht

/-- The queue with one entry of a task taken out of class `i`. -/
def drop (q : ReadyQueue) (classes : List ReadyClass) (i : Nat) (c : ReadyClass) (t : TaskId)
    (ring : List TaskId) (hc : classes[i]? = some c)
    (hq : ∀ t', inClasses t' q.classes → inClasses t' classes)
    (hring : ∀ t' ∈ c.ring, t' ≠ t → t' ∈ ring) : ReadyQueue where
  classes := classes.set i (c.without ring)
  capacity := q.capacity
  agingLimit := q.agingLimit
  queued := q.queued.set t.index 0
  size := q.size - 1
  wf := by
    intro j g hj hg
    rw [getElem?_set] at hj
    split at hj
    · split at hj
      · exact absurd (Option.some.inj hj).symm hg
      · cases hj
    rename_i hne
    refine inClasses_set (hq _ (q.wf j g hj hg)) hc fun ht => hring _ ht ?_
    exact fun hq => hne (congrArg Id.index hq).symm

/-- `Next`: the next task to step, removed from the queue. -/
def next (q : ReadyQueue) : Checked (Option (TaskId × ReadyQueue)) :=
  if q.size = 0 then .ok none
  else
    match h : (passOver q.servedClass q.classes)[q.servedClass]? with
    | none => .error .missing
    | some c =>
      match hr : c.ring with
      | [] => .error .missing
      | t :: ring =>
        .ok (some (t, q.drop (passOver q.servedClass q.classes) q.servedClass c t ring h
          (fun _ ht => inClasses_passOver.mpr ht)
          (fun t' ht' hne => by
            rw [hr] at ht'
            exact (List.mem_cons.mp ht').resolve_left hne)))

def classOf (q : ReadyQueue) (t : TaskId) : Option Nat :=
  q.classes.findIdx? fun c => t ∈ c.ring

/-- `Remove`: drops a task's entry, if it has one. -/
def remove (q : ReadyQueue) (t : TaskId) : ReadyQueue :=
  if !t.valid || q.queued[t.index]? ≠ some t.generation then q
  else match q.classOf t with
    | none => q
    | some i =>
      match h : q.classes[i]? with
      | none => q
      | some c =>
        q.drop q.classes i c t (c.ring.erase t) h (fun _ ht => ht)
          (fun _ ht' hne => (mem_erase_of_ne hne).mpr ht')

end ReadyQueue

/-! ## The task table -/

structure Task where
  view : TaskView := {}
  firstChild : Option TaskId := none
  nextSibling : Option TaskId := none
  previousSibling : Option TaskId := none
deriving DecidableEq

structure TaskTable where
  capacity : Nat
  tasks : SlotTable .task Task
  ready : ReadyQueue

namespace TaskTable

abbrev Answer := Except TaskError

def ofCapacity (capacity classes agingLimit : Nat) : TaskTable where
  capacity := capacity
  tasks := SlotTable.ofCapacity capacity
  ready := ReadyQueue.ofClasses classes capacity agingLimit

def modify (t : TaskTable) (id : TaskId) (f : Task → Task) : Checked TaskTable :=
  match t.tasks.find? id with
  | none => .error .missing
  | some task => .ok { t with tasks := t.tasks.set id (f task) }

/-- `Create`'s refusals on account of the parent. -/
def parentError (t : TaskTable) : Option TaskId → Option TaskError
  | none => none
  | some parent =>
    match t.tasks.find? parent with
    | none => some .unknownTask
    | some task => if task.view.cancelled || task.view.outcome.isSome then some .closed else none

/-- `Create`'s last part: the child at the front of its parent's list. -/
def link (t : TaskTable) (id parent : TaskId) : Checked TaskTable := do
  let found ← require .missing (t.tasks.find? parent)
  let t ← t.modify id fun task => { task with nextSibling := found.firstChild }
  let t ← match found.firstChild with
    | none => pure t
    | some first => t.modify first fun task => { task with previousSibling := some id }
  t.modify parent fun task =>
    { task with firstChild := some id, view := { task.view with children := task.view.children + 1 } }

def create (t : TaskTable) (parent : Option TaskId) : Checked (Answer TaskId × TaskTable) :=
  match t.parentError parent with
  | some e => .ok (.error e, t)
  | none =>
    if t.tasks.live ≥ t.capacity then .ok (.error .full, t)
    else match t.tasks.insert { view := { parent } } with
      | none => .ok (.error .full, t)
      | some (id, tasks) =>
        if id.index < t.capacity then do
          let t := { t with tasks }
          match parent with
          | none => return (.ok id, t)
          | some parent => return (.ok id, ← t.link id parent)
        else .error .taskSlot

def prepareOperation (t : TaskTable) (id : TaskId) : Checked (Answer Unit × TaskTable) :=
  match t.tasks.find? id with
  | none => .ok (.error .unknownTask, t)
  | some task =>
    if task.view.cancelled || task.view.outcome.isSome then .ok (.error .closed, t)
    else if task.view.operations < uint32Max then
      let view := { task.view with operations := task.view.operations + 1 }
      .ok (.ok (), { t with tasks := t.tasks.set id { task with view } })
    else .error .operationCount

def retireOperation (t : TaskTable) (id : TaskId) : Checked (Answer Unit × TaskTable) :=
  match t.tasks.find? id with
  | none => .ok (.error .unknownTask, t)
  | some task =>
    if task.view.operations > 0 then
      let view := { task.view with operations := task.view.operations - 1 }
      .ok (.ok (), { t with tasks := t.tasks.set id { task with view } })
    else .error .retireNone

/-- Where `Cancel`'s walk stands: about to mark a task, or done with its subtree. -/
inductive Walk
  | down (at_ : TaskId)
  | climb (at_ : TaskId)

/-- `Cancel`'s loop. -/
def cancelWalk (root : TaskId) : Nat → Walk → SlotTable .task Task → Checked (SlotTable .task Task)
  | 0, _, _ => .error .endless
  | fuel + 1, .down id, tasks =>
    match tasks.find? id with
    | none => .error .missing
    | some task =>
      let tasks := tasks.set id { task with view := { task.view with cancelled := true } }
      match task.firstChild with
      | some child => cancelWalk root fuel (.down child) tasks
      | none => cancelWalk root fuel (.climb id) tasks
  | fuel + 1, .climb id, tasks =>
    if id = root then .ok tasks
    else match tasks.find? id with
      | none => .error .missing
      | some task =>
        match task.nextSibling with
        | some sibling => cancelWalk root fuel (.down sibling) tasks
        | none => cancelWalk root fuel (.climb (task.view.parent.getD root)) tasks

def cancel (t : TaskTable) (id : TaskId) : Checked (Answer Unit × TaskTable) :=
  match t.tasks.find? id with
  | none => .ok (.error .unknownTask, t)
  | some _ => do
    let tasks ← cancelWalk id (2 * t.tasks.slots.length + 2) (.down id) t.tasks
    return (.ok (), { t with tasks })

/-- `Finish`: cancellation wins over a late success, and a failure is recorded on the parent. -/
def finish (t : TaskTable) (id : TaskId) (outcome : TaskOutcome) :
    Checked (Answer Unit × TaskTable) :=
  match t.tasks.find? id with
  | none => .ok (.error .unknownTask, t)
  | some task =>
    if task.view.outcome.isSome then .ok (.error .finished, t)
    else
      let outcome :=
        if task.view.cancelled ∧ outcome = .succeeded then .cancelled else outcome
      let t := { t with
        tasks := t.tasks.set id { task with view := { task.view with outcome := some outcome } }
        ready := t.ready.remove id }
      match task.view.parent with
      | some parent =>
        if outcome = .failed then do
          return (.ok (), ← t.modify parent fun p =>
            { p with view := { p.view with childFailed := true } })
        else .ok (.ok (), t)
      | none => .ok (.ok (), t)

/-- `Retire`'s unlinking of a task from its parent's list. -/
def unlink (t : TaskTable) (task : Task) (parent : TaskId) : Checked TaskTable := do
  let t ← match task.previousSibling with
    | some previous => t.modify previous fun p => { p with nextSibling := task.nextSibling }
    | none => t.modify parent fun p => { p with firstChild := task.nextSibling }
  let t ← match task.nextSibling with
    | some next => t.modify next fun p => { p with previousSibling := task.previousSibling }
    | none => pure t
  t.modify parent fun p => { p with view := { p.view with children := p.view.children - 1 } }

/-- `Retire`: frees the slot of a finished task with nothing outstanding. -/
def retire (t : TaskTable) (id : TaskId) : Checked (Answer Unit × TaskTable) :=
  match t.tasks.find? id with
  | none => .ok (.error .unknownTask, t)
  | some task =>
    if task.view.outcome.isNone then .ok (.error .busy, t)
    else if task.view.operations > 0 ∨ task.view.children > 0 then .ok (.error .busy, t)
    else do
      let t ← match task.view.parent with
        | some parent => t.unlink task parent
        | none => pure t
      return (.ok (), { t with ready := t.ready.remove id, tasks := t.tasks.erase id })

def makeReady (t : TaskTable) (id : TaskId) (priority : Nat) :
    Checked (Answer Bool × TaskTable) :=
  match t.tasks.find? id with
  | none => .ok (.error .unknownTask, t)
  | some task =>
    if task.view.outcome.isSome then .ok (.error .finished, t)
    else do
      let (fresh, ready) ← t.ready.makeReady id priority
      return (.ok fresh, { t with ready })

def describe (t : TaskTable) (id : TaskId) : Option TaskView := (t.tasks.find? id).map Task.view

def exhausted (t : TaskTable) : Bool := t.tasks.retired = t.capacity

end TaskTable
end JitLlm.Scheduler
