import JitLlm.Scheduler.Withdrawing

/-!
# A withdrawn load starts nothing new

A load is marked cancelling when its last waiter leaves it, and stays so: a task that joins it
later waits for its end. `Quits` is what every world keeps of such a load: it is on its way back
(unmapping or releasing), or the operation of its stage is with a lane and its conclusion will turn
it, or it is still to be cancelled by the very `Withdraw` that marked it. So no lane is handed
another map, read or copy of it, and its extent is resident at its end only if its contents had
landed whole.
-/

namespace JitLlm.Scheduler

open Base Lib List Option
open Catalog hiding Operation Reachable

/-! ## Worlds -/

/-- The loads a `Withdraw` marked and has still to cancel. -/
def World.marked (w : World) : List ExtentId :=
  match w.control with
  | .cancelPageIns extents :: _ => extents
  | _ => []

/-- The loop cancels what a `Withdraw` marked. -/
def Control.cancels : Control → Bool
  | .cancelPageIns _ => true
  | _ => false

def Below (control : List Control) : Prop := ∀ c ∈ control.tail, c.cancels = false

/-- The withdrawn load has nothing left to start: it is on its way back, or a call about to be
    made turns it, or its operation is with a lane. -/
def Returning (s : Scheduler) (work : List Work) (e : ExtentId) (l : Load) : Prop :=
  l.stage.unwinds = true ∨ (∃ id command, l.operation = some id ∧ Event.took id command ∈ s.log) ∨
    Work.unwind e ∈ work ∨ Work.endLoad e ∈ work

structure Quits (w : World) : Prop where
  turned : ∀ e l, w.state.loads.find? e = some l → l.cancelling = true →
    e ∈ w.marked ∨ Returning w.state w.work e l
  proceeds : ∀ e l, Work.proceed e ∈ w.work → w.state.loads.find? e = some l →
    l.cancelling = false
  publishes : ∀ id e l, Work.publish id ∈ w.work → w.state.loads.find? e = some l →
    l.cancelling = true → l.operation = some id → l.stage.unwinds = true
  wanted : ∀ e l, w.state.loads.find? e = some l → l.cancelling = false → l.waiters ≠ []
  marks : ∀ e ∈ w.marked, ∀ l, w.state.loads.find? e = some l → l.cancelling = true
  below : Below w.control

section Worlds

variable {x : Config} {w w' : World} {b : Bool} {events : List Event} {t : TaskId}
    {calls : List Work} {e : ExtentId} {l : Load} {s' : Scheduler}

theorem Good.loadOperation {s : Scheduler} {work : List Work} (h : Good x s work none none)
    {e : ExtentId} {l : Load} {id : OperationId} (hl : s.loads.find? e = some l)
    (hop : l.operation = some id) : ∃ op, s.find id = some op ∧ op.kind = .load ∧ op.extent = e ∧
      op.quarantined = false ∧ ∃ route, stageCommand x l = .ok (route, op.command) := by
  obtain ⟨p, -, -, -, -, hope⟩ := (h.load e l (by simp) hl).loading
  unfold Load.operates at hope
  rw [hop] at hope
  obtain ⟨route, command, hstage, hcom, -⟩ := hope
  obtain ⟨op, hfound, hop'⟩ := bind_eq_some_iff.mp hstage
  unfold Operation.stage at hop'
  split at hop'
  · cases hop'
  rename_i hquar
  have hkind : op.kind = .load := by
    cases hk : op.kind <;> simp [hk] at hop'
    rfl
  simp only [hkind, some.injEq, StageOp.mk.injEq, true_and] at hop'
  obtain ⟨rfl, rfl, rfl⟩ := hop'
  exact ⟨op, hfound, hkind, rfl, by simpa using hquar, _, hcom⟩

theorem Quits.spared {y : Scheduler × List Work} {old rest : List Work}
    (h : Quits w) (hy : SparesBy b w.state y events) (hwork : w.work = old ++ rest) (hq : quiet rest)
    (hgood : Good x y.1 (y.2 ++ rest) none none)
    (hturns : ∀ e l, w.state.loads.find? e = some l → l.cancelling = true →
      Work.unwind e ∈ old ∨ Work.endLoad e ∈ old → TurnsBack e l y events)
    (hmar : ∀ e ∈ w.marked, e ∈ w'.marked ∨ ∀ l, w.state.loads.find? e = some l →
      l.cancelling = true → TurnsBack e l y events ∨ Quitting w.state l)
    (hsteady : ∀ e ∈ w'.marked, b = false ∧ e ∈ w.marked)
    (hgood0 : Good x w.state w.work none none) (hbelow : Below w'.control)
    (hstate : w'.state = y.1) (hwork' : w'.work = y.2 ++ rest) : Quits w' := by
  have hback : ∀ e l l', TurnsBack e l y events → w'.state.loads.find? e = some l' →
      Returning w'.state w'.work e l' := by
    intro e l l' hturn hl'
    rw [hstate] at hl'
    rcases hturn with ⟨hnone, -⟩ | ⟨l1, hl1, -, -, -, htur⟩
    · cases hnone.symm.trans hl'
    cases hl1.symm.trans hl'
    rw [hwork']
    refine htur.imp_right fun hcalls => .inr ?_
    exact hcalls.imp (mem_append_left _) (mem_append_left _)
  have hkeeps : ∀ id command, Event.took id command ∈ w.state.log →
      Event.took id command ∈ w'.state.log := by
    intro id command hmem
    rw [hstate, hy.log]
    exact mem_append_right _ hmem
  refine ⟨?_, ?_, ?_, ?_, ?_, hbelow⟩
  · intro e l' hl' hc
    obtain ⟨l, hl, hcl⟩ := hy.marks e l' (hstate ▸ hl') hc
    rcases hy.withdrawn e l hl hcl with hstays | hturn
    · obtain ⟨l1, hl1, -, -, -, hstage, hop⟩ := hstays
      obtain rfl : l' = l1 := some.inj ((hstate ▸ hl').symm.trans hl1)
      have hquits : Quitting w.state l → Returning w'.state w'.work e l' := by
        rintro (hu | ⟨id, op, hid, hfound, hpub⟩)
        · exact .inl (hstage ▸ hu)
        obtain ⟨hcell, rfl, -⟩ := find_eq_some.mp hfound
        obtain ⟨command, htook⟩ := (hgood0.mailboxes.asked _ _ hcell).1 hpub
        exact .inr (.inl ⟨op.id, command, hop.trans hid, hkeeps _ _ htook⟩)
      rcases h.turned e l hl hcl with hmark | htur
      · rcases hmar e hmark with hmark' | hback'
        · exact .inl hmark'
        rcases hback' l hl hcl with hturn | hquit
        · exact .inr (hback e l l' hturn hl')
        · exact .inr (hquits hquit)
      right
      rcases htur with hu | ⟨id, command, hid, htook⟩ | hcalls
      · exact .inl (hstage ▸ hu)
      · exact .inr (.inl ⟨id, command, hop.trans hid, hkeeps _ _ htook⟩)
      rw [hwork] at hcalls
      by_cases hold : Work.unwind e ∈ old ∨ Work.endLoad e ∈ old
      · exact hback e l l' (hturns e l hl hcl hold) hl'
      rw [hwork']
      refine .inr (.inr ?_)
      have hrest : Work.unwind e ∈ rest ∨ Work.endLoad e ∈ rest := by
        rcases hcalls with hmem | hmem
        · exact .inl ((mem_append.mp hmem).resolve_left fun h => hold (.inl h))
        · exact .inr ((mem_append.mp hmem).resolve_left fun h => hold (.inr h))
      exact hrest.imp (mem_append_right _) (mem_append_right _)
    · exact .inr (hback e l l' hturn hl')
  · intro e l' hmem hl'
    rw [hstate] at hl'
    rw [hwork'] at hmem
    rcases mem_append.mp hmem with hmem | hmem
    · exact hy.calls.proceeds e l' hmem hl'
    rcases hc : l'.cancelling with _ | _
    · rfl
    obtain ⟨l, hl, hcl⟩ := hy.marks e l' hl' hc
    have hwan := h.proceeds e l (by rw [hwork]; exact mem_append_right _ hmem) hl
    rw [hcl] at hwan
    cases hwan
  · intro id e l' hmem hl' hc hid
    rw [hstate] at hl'
    rw [hwork'] at hmem
    rcases mem_append.mp hmem with hmem | hmem
    · obtain ⟨ops, op, hops, hstage⟩ := hy.calls.publishes id hmem
      obtain ⟨op', hfound, hkind, hextent, -⟩ := hgood.loadOperation hl' hid
      obtain ⟨hcell, -, -⟩ := find_eq_some.mp hfound
      rw [hops] at hcell
      have hop : op' = op := by
        rw [getElem?_set] at hcell
        split at hcell
        · split at hcell <;> cases hcell
          rfl
        next hne => exact absurd rfl hne
      subst hop
      exact hstage hkind l' (hextent ▸ hl') hc
    · exact absurd hmem (hq id)
  · intro e l' hl' hwan
    rw [hstate] at hl'
    rcases hy.wanted e l' hl' hwan with hne | ⟨l, hl, hcl, hwait⟩
    · exact hne
    rw [hwait]
    exact h.wanted e l hl hcl
  intro e hmark l' hl'
  rw [hstate] at hl'
  obtain ⟨hb, hmark0⟩ := hsteady e hmark
  rcases hl : w.state.loads.find? e with _ | l
  · cases (hy.steady hb e hl).symm.trans hl'
  rcases hy.withdrawn e l hl (h.marks e hmark0 l hl) with hstays | ⟨hnone, -⟩ | htur
  · obtain ⟨l1, hl1, -, -, hc, -⟩ := hstays
    cases hl1.symm.trans hl'
    exact hc
  · cases hnone.symm.trans hl'
  obtain ⟨l1, hl1, -, -, hc, -⟩ := htur
  cases hl1.symm.trans hl'
  exact hc

/-! ## Steps -/

inductive Effect (w w' : World) : Prop
  | spares {b : Bool} {events : List Event} {old rest calls : List Work}
      (spared : SparesBy b w.state (w'.state, calls) events) (work : w.work = old ++ rest)
      (work' : w'.work = calls ++ rest) (quiet : quiet rest)
      (turns : ∀ e l, w.state.loads.find? e = some l → l.cancelling = true →
        Work.unwind e ∈ old ∨ Work.endLoad e ∈ old → TurnsBack e l (w'.state, calls) events)
      (marked : ∀ e ∈ w.marked, e ∈ w'.marked ∨ ∀ l, w.state.loads.find? e = some l →
        l.cancelling = true → TurnsBack e l (w'.state, calls) events ∨ Quitting w.state l)
      (steady : ∀ e ∈ w'.marked, b = false ∧ e ∈ w.marked)
  -- A lane takes a command.
  | takes {op : Operation} (takes : Takes w.state w'.state op) (fresh : op.published = false)
      (asked : Work.publish op.id ∈ w.work ∨ w.work = [] ∧ w.marked = [])
      (work : ∀ call ∈ w'.work, call ∈ w.work) (quiet : quiet w'.work)
      (kept : ∀ e, (Work.unwind e ∈ w.work → Work.unwind e ∈ w'.work) ∧
        (Work.endLoad e ∈ w.work → Work.endLoad e ∈ w'.work))
      (marked : ∀ e, e ∈ w'.marked ↔ e ∈ w.marked)
  -- A task leaves what it waits for.
  | leaves {t : TaskId} (leaving : Leaving w.state t (w'.state, w'.work)) (work : w.work = [])
      (marked : w.marked = []) (marks : w'.marked = w.state.withdrawnBy t)
  -- A lane publishes.
  | board {board : CompletionBoard} (state : w' = { w with state := { w.state with board } })

section

variable (h : SparesBy b w.state (w'.state, w'.work) events) (work : w.work = [])
include h work

theorem Effect.fresh (marked : ∀ e ∈ w.marked, e ∈ w'.marked ∨ ∀ l, w.state.loads.find? e = some l →
      l.cancelling = true → TurnsBack e l (w'.state, w'.work) events ∨ Quitting w.state l)
    (steady : ∀ e ∈ w'.marked, b = false ∧ e ∈ w.marked) : Effect w w' := by
  refine .spares h (work.trans (nil_append []).symm) (append_nil _).symm
    (by simp [quiet]) ?_ marked steady
  intro e l _ _ hmem
  simp at hmem

theorem Effect.idle (marked : w.marked = []) (marked' : w'.marked = []) : Effect w w' := by
  refine .fresh h work ?_ ?_
  · intro e hmem
    rw [marked] at hmem
    cases hmem
  intro e hmem
  rw [marked'] at hmem
  cases hmem

end

theorem Effect.aside (h : Aside w.state w'.state) (work : w.work = []) (work' : w'.work = [])
    (marked : w.marked = []) (marked' : w'.marked = []) : Effect w w' := by
  obtain ⟨events, hspares⟩ : ∃ events, Spares w.state (w'.state, []) events := h.spares (.none _)
  rw [← work'] at hspares
  exact .idle hspares work marked marked'

theorem marked_of_control {loop : Control} {rest : List Control} (h : w.control = loop :: rest)
    (hloop : ∀ extents, loop ≠ .cancelPageIns extents) : w.marked = [] := by
  unfold World.marked
  rw [h]
  split
  next heq =>
    cases heq
    exact absurd rfl (hloop _)
  next => rfl

theorem marked_nil (h : w.control = []) : w.marked = [] := by
  unfold World.marked
  rw [h]

theorem runWork_effect {answer : PushResult} {call : Work} {rest calls : List Work} {s' : Scheduler}
    (hgood : Good x w.state w.work none none) (h : Quits w) (hwork : w.work = call :: rest)
    (hrun : runWork x w.state answer call = .ok (s', calls)) :
    Effect w { w with state := s', work := calls ++ rest } := by
  have htick : Tickets w.state := hgood.tickets
  have hq : quiet rest := by
    have := hgood.calls.2.1
    rw [hwork] at this
    exact this
  have hold : w.work = [call] ++ rest := hwork
  have hspared : ∀ events, Spares w.state (s', calls) events →
      (∀ e, call ≠ .unwind e ∧ call ≠ .endLoad e) →
      Effect w { w with state := s', work := calls ++ rest } := by
    intro events hy hother
    refine .spares hy hold rfl hq ?_ (fun e hmem => .inl hmem) fun e hmem => ⟨rfl, hmem⟩
    intro e l _ _ hmem
    simp only [mem_singleton] at hmem
    rcases hmem with rfl | rfl
    · exact absurd rfl (hother e).1
    · exact absurd rfl (hother e).2
  have hacted : ∀ e l events, ActsOn e l w.state (s', calls) events →
      (call = .unwind e ∨ call = .endLoad e) →
      Effect w { w with state := s', work := calls ++ rest } := by
    intro e l events hy hcall
    refine .spares hy.spares hold rfl hq ?_ (fun e hmem => .inl hmem) fun e hmem => ⟨rfl, hmem⟩
    intro e' l' hl' hc hmem
    obtain rfl : e' = e := by
      simp only [mem_singleton] at hmem
      rcases hmem with rfl | rfl <;> rcases hcall with hcall | hcall <;> cases hcall <;> rfl
    cases hy.found.symm.trans hl'
    exact hy.withdrawn hc
  have hfirst : ∀ id, call = .publish id → Unpublished w.state id := by
    intro id hcall
    apply hgood.calls.2.2 id
    rw [hwork, hcall]
    rfl
  cases call with
  | publish id =>
    rcases (publish_takes htick id answer).val hrun with ⟨events, hy⟩ | ⟨hnone, op, hid, htakes⟩
    · exact hspared events hy (by simp)
    obtain ⟨op', hfound, hfresh, -⟩ := hfirst id rfl
    subst hid
    cases htakes.found.symm.trans hfound
    obtain rfl : calls = [] := hnone
    refine .takes htakes hfresh (.inl ?_) ?_ hq ?_ fun e => Iff.rfl
    · rw [hwork]
      exact mem_cons_self
    · intro call hmem
      rw [hwork]
      exact mem_cons_of_mem _ hmem
    intro e
    rw [hwork]
    simp
  | proceed e =>
    cases hl : w.state.loads.find? e with
    | none =>
      have hrun' : proceed x w.state e = .ok (s', calls) := hrun
      unfold proceed at hrun'
      rw [hl] at hrun'
      cases hrun'
      obtain ⟨events, hy⟩ := (Aside.refl w.state).spares (.none w.state)
      exact hspared events hy (by simp)
    | some l =>
      have hwan : l.cancelling = false := h.proceeds e l (by rw [hwork]; exact mem_cons_self) hl
      obtain ⟨events, hy⟩ := (proceed_acted (htick.at hl) hwan).val hrun
      exact hspared events hy.spares (by simp)
  | unwind e =>
    cases hl : w.state.loads.find? e with
    | none =>
      have hrun' : unwind x w.state e = .ok (s', calls) := hrun
      unfold unwind at hrun'
      rw [hl] at hrun'
      cases hrun'
    | some l =>
      obtain ⟨events, hy⟩ := (unwind_acted (htick.at hl)).val hrun
      exact hacted e l events hy (.inl rfl)
  | endLoad e =>
    cases hl : w.state.loads.find? e with
    | none =>
      have hrun' : w.state.endLoad e true = .ok (s', calls) := hrun
      unfold endLoad at hrun'
      rw [hl] at hrun'
      cases hrun'
    | some l =>
      obtain ⟨events, hy⟩ := (endLoad_acted (htick.at hl) true).val hrun
      exact hacted e l events hy (.inr rfl)
  | startQueued =>
    obtain ⟨events, hy⟩ := (startQueued_apart w.state).spared.val hrun
    exact hspared events hy (by simp)
  | proceedEviction e =>
    obtain ⟨events, hy⟩ := (proceedEviction_apart w.state e).spared.val hrun
    exact hspared events hy (by simp)
  | wroteBack e whole =>
    obtain ⟨events, hy⟩ := (wroteBack_apart w.state e whole).spared.val hrun
    exact hspared events hy (by simp)
  | abandon e =>
    obtain ⟨events, hy⟩ := (endEviction_apart w.state e false).spared.val hrun
    exact hspared events hy (by simp)
  | pumpReleases =>
    obtain ⟨events, hy⟩ := (pumpRelease_apart w.state).spared.val hrun
    exact hspared events hy (by simp)

/-! ### The loops -/

theorem marked_of_plain (h : ∀ c ∈ w.control, c.cancels = false) : w.marked = [] := by
  rcases hcon : w.control with _ | _
  · exact marked_nil hcon
  refine marked_of_control hcon ?_
  rintro extents rfl
  have := h (.cancelPageIns extents) (by rw [hcon]; exact mem_cons_self)
  cases this

def Control.steady : Control → Bool
  | .finish _ _ | .cancelPageIns _ => false
  | _ => true

section Loops

variable {s : Scheduler} {answer : PushResult} {y : Scheduler × List Work}

structure Loops (s : Scheduler) (y : Scheduler × List Work × List Control) : Prop where
  control : ∀ c ∈ y.2.2, c.cancels = false
  effect : (∃ events, SparesBy true s (y.1, y.2.1) events) ∨
    y.2.1 = [] ∧ ∃ op, Takes s y.1 op ∧ op.published = false

variable {control : List Control}

theorem Loops.aside {s' : Scheduler} (h : Aside s s')
    (hcon : ∀ c ∈ control, c.cancels = false) : Loops s (s', [], control) :=
  ⟨hcon, .inl (h.spares (.none _))⟩

theorem SparesBy.any {events : List Event} {b : Bool}
    (h : SparesBy b s y events) : SparesBy true s y events :=
  ⟨h.log, h.opens, h.withdrawn, h.marks, h.wanted, h.took, h.calls, by simp⟩

theorem Spared.loops (h : ∃ events, Spares s y events) (hcon : ∀ c ∈ control, c.cancels = false) :
    Loops s (y.1, y.2, control) := by
  obtain ⟨events, h⟩ := h
  exact ⟨hcon, .inl ⟨events, h.any⟩⟩

theorem tryRetire_aside (s : Scheduler) (t : TaskId) :
    Sat (fun _ => True) (Aside s) (s.tryRetire t) := retireFrom_aside _ t s

theorem cancelTask_aside (s : Scheduler) (t : TaskId) :
    Sat (fun _ => True) (Aside s) (s.cancelTask t) := by
  refine Sat.bind .any fun y _ => ?_
  obtain ⟨answer, tasks⟩ := y
  cases answer with
  | ok => exact .of rfl rfl
  | error => trivial

theorem runControl_loops {loop : Control} (htick : Tickets s) (hagr : Agrees s)
    (hblocked : ∀ e ∈ s.blocked, ∀ l, s.loads.find? e = some l → l.cancelling = true →
      l.stage.unwinds = true) (hloop : loop.steady = true) :
    Sat (fun _ => True) (Loops s) (runControl x s answer loop) := by
  cases loop with
  | finish | cancelPageIns => cases hloop
  | observe seen =>
    exact Sat.bind (observe_spared htick seen) fun y hy => Spared.loops hy (by simp)
  | flushRoute route =>
    refine Sat.bind (flushRoute_publishes htick route answer) fun y hy => ⟨?_, ?_⟩
    · simp only
      split <;> simp [Control.cancels]
    · exact hy.imp_left fun ⟨events, h⟩ => ⟨events, h.any⟩
  | retryBlocked n =>
    rcases n with _ | _
    · exact .aside (.refl s) (by simp)
    refine Sat.bind (retryBlocked_spared htick hblocked) fun y hy => ?_
    refine Spared.loops hy ?_
    split <;> simp [Control.cancels]
  | flushCancels i =>
    refine Sat.bind (flushCancel_aside s i answer) fun y hy => .aside hy ?_
    cases y.2 <;> simp [Control.cancels]
  | rollBackRoutes t routes =>
    cases routes with
    | nil => exact .aside (.refl s) (by simp)
    | cons => exact .aside (.refl s) (by simp [Control.cancels])
  | rollBackIds t ids =>
    rcases ids with _ | ⟨id, _⟩
    · exact .aside (.refl s) (by simp)
    simp only [runControl]
    rcases s.find id with _ | op
    · exact .aside (.refl s) (by simp [Control.cancels])
    simp only
    split
    · refine Sat.bind (rollBack_spared htick op) fun y hy => ?_
      exact Spared.loops hy (by simp [Control.cancels])
    · exact .aside (.refl s) (by simp [Control.cancels])
  | finished t parent =>
    simp only [runControl]
    cases parent with
    | none =>
      simp only [pure_bind]
      refine Sat.bind (tryRetire_aside s t) fun s1 h1 => ?_
      exact .aside h1 (by simp)
    | some parent =>
      refine Sat.bind (wake_aside parent false) fun s1 h1 => ?_
      refine Sat.bind (tryRetire_aside s1 t) fun s2 h2 => ?_
      exact .aside (h1.trans h2) (by simp)
  | finishCancelled =>
    simp only [runControl]
    split
    · exact .aside (.refl s) (by simp)
    · exact .aside (.refl s) (by simp [Control.cancels])
    split
    · exact .aside (.refl s) (by simp [Control.cancels])
    refine Sat.bind .any fun view _ => ?_
    split <;> exact .aside (.refl s) (by simp [Control.cancels])
  | cancelRequest =>
    simp only [runControl]
    split
    · exact .aside (.refl s) (by simp)
    · exact .aside (.refl s) (by simp [Control.cancels])
    split
    · exact .aside (.refl s) (by simp [Control.cancels])
    refine Sat.bind .any fun view _ => ?_
    split
    · exact .aside (.refl s) (by simp [Control.cancels])
    refine Sat.bind (cancelTask_aside s _) fun s1 h1 => ?_
    exact .aside h1 (by simp [Control.cancels])
  | stopFrom =>
    simp only [runControl]
    split
    · exact .aside (.refl s) (by simp)
    · exact .aside (.refl s) (by simp [Control.cancels])
    split
    · exact .aside (.refl s) (by simp [Control.cancels])
    refine Sat.bind (cancelTask_aside s _) fun s1 h1 => ?_
    exact .aside h1 (by simp [Control.cancels])
  | materialize t closure =>
    rcases closure with _ | ⟨pair, _⟩
    · exact .aside (.refl s) (by simp [Control.cancels])
    obtain ⟨e, generation⟩ := pair
    simp only [runControl]
    rcases s.record? t with _ | r
    · trivial
    simp only [require, ok_bind]
    refine Sat.bind (materializeOne_spared hagr t r e generation) fun y hy => ?_
    obtain ⟨answer, s', calls⟩ := y
    cases answer with
    | error | ok => exact ⟨by simp [Control.cancels], .inl hy⟩
  | answer => exact .aside (.refl s) (by simp)
  | program => exact .aside (.refl s) (by simp [Control.cancels])

end Loops

theorem Quits.blocked (h : Quits w) (hgood : Good x w.state w.work none none) (hwork : w.work = [])
    (hmar : w.marked = []) : ∀ e ∈ w.state.blocked, ∀ l, w.state.loads.find? e = some l →
      l.cancelling = true → l.stage.unwinds = true := by
  intro e hmem l hl hc
  have hidle : l.operation = none := by
    obtain ⟨-, -, hwaits⟩ := hgood.blocked.each e hmem
    rcases hwaits with ⟨l', hl', hop, -⟩ | ⟨v, hv, -⟩
    · cases hl.symm.trans hl'
      exact hop
    rcases hgood.agrees.apart e with hnone | hnone
    · cases hnone.symm.trans hl
    · cases hnone.symm.trans hv
  rcases h.turned e l hl hc with hmark | hu | ⟨id, command, hid, -⟩ | hcalls
  · rw [hmar] at hmark
    cases hmark
  · exact hu
  · rw [hidle] at hid
    cases hid
  rw [hwork] at hcalls
  simp at hcalls

theorem withdrawnBy_cancelling {s s' : Scheduler} (h : Leaving s t (s', calls))
    (he : e ∈ s.withdrawnBy t) (hl : s'.loads.find? e = some l) : l.cancelling = true := by
  rw [h.loads, OrdMap.find?_mapVals] at hl
  obtain ⟨l0, hl0, rfl⟩ := map_eq_some_iff.mp hl
  obtain ⟨p, hp, rfl⟩ := mem_map.mp he
  obtain ⟨hentry, hwith⟩ := mem_filter.mp hp
  have hfound : s.loads.find? p.1 = some p.2 := OrdMap.mem_entries_iff.mp hentry
  cases hl0.symm.trans hfound
  simp only [Bool.and_eq_true] at hwith
  unfold Load.leave
  rw [if_pos hwith.1.1]
  simp [hwith.1.2]

theorem withdrawnBy_of_marked {s : Scheduler} (hl : s.loads.find? e = some l)
    (hwan : l.cancelling = false) (hmar : (l.leave t).cancelling = true) : e ∈ s.withdrawnBy t := by
  unfold Load.leave at hmar
  split at hmar
  next hcon =>
    have hempty : (l.waiters.erase t).isEmpty = true := by simpa [hwan] using hmar
    refine mem_map.mpr ⟨(e, l), mem_filter.mpr ⟨OrdMap.mem_entries_iff.mpr hl, ?_⟩, rfl⟩
    simp only [hcon, hempty, hwan, Bool.not_false, Bool.and_self]
  rw [hwan] at hmar
  cases hmar

theorem runControl_effect {answer : PushResult} {loop : Control} {rest control : List Control}
    (hgood : Good x w.state w.work none none) (h : Quits w)
    (hwork : w.work = []) (hcon : w.control = loop :: rest)
    (hrun : runControl x w.state answer loop = .ok (s', calls, control)) (reply : Reply) :
    Effect w { state := s', work := calls, control := control ++ rest, reply } ∧
      Below (control ++ rest) := by
  have htick : Tickets w.state := hgood.tickets
  have hrest : ∀ c ∈ rest, c.cancels = false := by
    have := h.below
    rw [hcon] at this
    exact this
  have hbelow : (∀ c ∈ control.tail, c.cancels = false) → Below (control ++ rest) := by
    intro hnew c hmem
    cases control with
    | nil => exact hrest c (mem_of_mem_tail hmem)
    | cons => exact (mem_append.mp hmem).elim (hnew c) (hrest c)
  cases hsteady : loop.steady with
  | true =>
    have hmar : w.marked = [] := by
      refine marked_of_control hcon ?_
      rintro extents rfl
      cases hsteady
    obtain ⟨hnew, heff⟩ := (runControl_loops htick hgood.agrees
      (h.blocked hgood hwork hmar) hsteady).val hrun
    have hplain : ∀ c ∈ control ++ rest, c.cancels = false := by
      intro c hmem
      exact (mem_append.mp hmem).elim (hnew c) (hrest c)
    refine ⟨?_, hbelow fun c hmem => hnew c (mem_of_mem_tail hmem)⟩
    have hmar' : World.marked { state := s', work := calls, control := control ++ rest, reply } = [] :=
      marked_of_plain hplain
    rcases heff with ⟨events, hspares⟩ | ⟨hnone, op, htakes, hfresh⟩
    · exact .idle hspares hwork hmar hmar'
    obtain rfl : calls = [] := hnone
    refine .takes htakes hfresh (.inr ⟨hwork, hmar⟩) (by simp) (by simp [quiet]) ?_ ?_
    · intro e
      rw [hwork]
      simp
    intro e
    rw [hmar, hmar']
  | false =>
    cases loop with
    | finish t outcome =>
      have hmar : w.marked = [] := marked_of_control hcon (by simp)
      have hrun' : finishTask w.state t outcome = .ok (s', calls, control) := hrun
      obtain ⟨begun, hbegun, hrun'⟩ := bind_ok hrun'
      have hleav := (beginFinish_leaving w.state t outcome).val hbegun
      rcases begun with _ | begun
      · cases hrun'
        refine ⟨.aside (.refl _) hwork rfl hmar (marked_of_plain hrest), hbelow (by simp)⟩
      obtain ⟨view, withdrawn, s1, work⟩ := begun
      obtain ⟨hwit, hleft⟩ := hleav view withdrawn s1 work rfl
      cases hrun'
      refine ⟨.leaves hleft hwork hmar hwit, hbelow ?_⟩
      intro c hmem
      simp only [cons_append, nil_append, tail_cons, mem_append, mem_singleton] at hmem
      rcases hmem with hmem | rfl
      · split at hmem
        · cases mem_singleton.mp hmem
          rfl
        · cases hmem
      · rfl
    | cancelPageIns extents =>
      have hmar : w.marked = extents := by
        unfold World.marked
        rw [hcon]
      rcases extents with _ | ⟨e, _⟩
      · cases hrun
        exact ⟨.aside (.refl _) hwork rfl hmar (marked_of_plain hrest), hbelow (by simp)⟩
      simp only [runControl] at hrun
      cases hl : w.state.loads.find? e with
      | none =>
        rw [hl] at hrun
        cases hrun
        obtain ⟨events, hspares⟩ : ∃ events, Spares w.state (w.state, []) events :=
          (Aside.refl w.state).spares (.none _)
        refine ⟨.fresh hspares hwork ?_ ?_, hbelow (by simp)⟩
        · intro e' hmem
          rw [hmar] at hmem
          rcases mem_cons.mp hmem with rfl | hmem
          · refine .inr fun l hl' => ?_
            cases hl.symm.trans hl'
          · exact .inl hmem
        intro e' hmem
        rw [hmar]
        exact ⟨rfl, mem_cons_of_mem _ hmem⟩
      | some l =>
        rw [hl] at hrun
        obtain ⟨⟨s1, calls1⟩, hcan, hrun⟩ := bind_ok hrun
        cases hrun
        have hc : l.cancelling = true := h.marks e (by rw [hmar]; exact mem_cons_self) l hl
        obtain ⟨events, hspares, hturns⟩ := (cancelPageIn_spared htick hl hc (by
          intro id op hid hfound
          obtain ⟨op', hfound', hkind, hextent, -⟩ := hgood.loadOperation hl hid
          cases hfound.symm.trans hfound'
          exact ⟨hkind, hextent⟩) answer).val hcan
        refine ⟨.fresh hspares hwork ?_ ?_, hbelow (by simp)⟩
        · intro e' hmem
          rw [hmar] at hmem
          rcases mem_cons.mp hmem with rfl | hmem
          · refine .inr fun l' hl' _ => ?_
            cases hl.symm.trans hl'
            exact hturns
          · exact .inl hmem
        intro e' hmem
        rw [hmar]
        exact ⟨rfl, mem_cons_of_mem _ hmem⟩
    | _ => cases hsteady

variable {control : List Control}

theorem runCall_effect {call : Call} {reply : Reply} (hfine : Fine x w) (hrunn : w.running = some t)
    (hrun : runCall x w.state t call = .ok (s', calls, control, reply)) :
    Effect w { state := s', work := calls, control := control ++ w.control, reply } ∧
      Below (control ++ w.control) := by
  obtain ⟨hwork, hcon⟩ := hfine.program hrunn
  have hmar : w.marked = [] := marked_of_control hcon (by simp)
  have hends : ∀ events, SparesBy true w.state (s', calls) events →
      (∀ c ∈ control, c.cancels = false) →
      Effect w { state := s', work := calls, control := control ++ w.control, reply } ∧
        Below (control ++ w.control) := by
    intro events hspares hnew
    have hplain : ∀ c ∈ control ++ w.control, c.cancels = false := by
      intro c hmem
      rw [hcon] at hmem
      rcases mem_append.mp hmem with hmem | hmem
      · exact hnew c hmem
      cases mem_singleton.mp hmem
      rfl
    exact ⟨.idle hspares hwork hmar (marked_of_plain hplain),
      fun c hmem => hplain c (mem_of_mem_tail hmem)⟩
  have haside : Aside w.state s' → calls = [] → control = [] →
      Effect w { state := s', work := calls, control := control ++ w.control, reply } ∧
        Below (control ++ w.control) := by
    intro h hcalls hnew
    obtain ⟨events, hspares⟩ : ∃ events, SparesBy true w.state (s', []) events := h.spares (.none _)
    rw [← hcalls] at hspares
    exact hends events hspares (by simp [hnew])
  cases call with
  | materialize =>
    simp only [runCall] at hrun
    split at hrun
    · cases hrun
      exact haside (.refl _) rfl rfl
    cases hrun
    obtain ⟨events, hspares⟩ : ∃ events, SparesBy true w.state (w.state, []) events :=
      (Aside.refl _).spares (.none _)
    exact hends events hspares (by simp [Control.cancels])
  | submit basis command =>
    obtain ⟨⟨answer, s1, work⟩, hcall, hrun⟩ := bind_ok hrun
    cases hrun
    obtain ⟨events, hspares⟩ := (submit_spared w.state t basis command).val hcall
    exact hends events hspares (by simp)
  | holdLease closure =>
    obtain ⟨⟨answer, s1⟩, hcall, hrun⟩ := bind_ok hrun
    cases hrun
    exact haside ((holdLease_apart w.state t closure).val hcall) rfl rfl
  | endLease lease =>
    obtain ⟨⟨answer, s1⟩, hcall, hrun⟩ := bind_ok hrun
    cases hrun
    exact haside ((endLease_apart w.state t lease).val hcall) rfl rfl
  | awaitRelease extents =>
    obtain ⟨⟨answer, s1⟩, hcall, hrun⟩ := bind_ok hrun
    cases hrun
    exact haside ((awaitRelease_apart w.state t extents).val hcall) rfl rfl
  | awaitSignal =>
    cases hrun
    exact haside (awaitSignal_aside w.state t) rfl rfl
  | spawn hasProgram priority =>
    obtain ⟨⟨answer, s1⟩, hcall, hrun⟩ := bind_ok hrun
    cases hrun
    exact haside ((startTask_apart w.state 0 hasProgram priority (some t)).val hcall) rfl rfl
  | evict e handoff =>
    obtain ⟨⟨answer, s1, work⟩, hcall, hrun⟩ := bind_ok hrun
    cases hrun
    obtain ⟨events, hspares⟩ := (evict_spared w.state t e handoff).val hcall
    exact hends events hspares (by simp)
  | takeFailure =>
    cases hrun
    exact haside (takeFailure_aside w.state t) rfl rfl

theorem outside_effect {reply : Reply} (h : Aside w.state s') (hwork : w.work = [])
    (hmar : w.marked = []) (hplain : ∀ c ∈ control, c.cancels = false) :
    Effect w { state := s', control, reply } ∧ Below control :=
  ⟨.aside h hwork rfl hmar (marked_of_plain hplain), fun c hmem => hplain c (mem_of_mem_tail hmem)⟩

theorem World.open_plain (hfine : Fine x w) (h : w.open = true) :
    w.work = [] ∧ ∀ c ∈ w.control, c.cancels = false := by
  rcases (Bool.or_eq_true _ _).mp h with hidle | hrun
  · obtain ⟨hwork, hcon⟩ := World.idle_eq hidle
    exact ⟨hwork, by simp [hcon]⟩
  obtain ⟨t, ht⟩ := isSome_iff_exists.mp hrun
  obtain ⟨hwork, hcon⟩ := hfine.program ht
  exact ⟨hwork, by simp [hcon, Control.cancels]⟩

theorem step_effect {label : Label} (hfine : Fine x w) (h : Quits w)
    (hstep : step x w label = .ok (some w')) : Effect w w' ∧ Below w'.control := by
  have hgood := hfine.good
  cases label with
  | work answer =>
    simp only [step] at hstep
    split at hstep
    · cases hstep
    rename_i call rest hwork
    obtain ⟨⟨s', calls⟩, hrun, hstep⟩ := bind_ok hstep
    cases hstep
    exact ⟨runWork_effect hgood h hwork hrun, h.below⟩
  | control answer =>
    simp only [step] at hstep
    split at hstep
    next loop rest hwork hcon =>
      obtain ⟨⟨s', calls, control⟩, hrun, hstep⟩ := bind_ok hstep
      cases hstep
      exact runControl_effect hgood h hwork hcon hrun _
    next => cases hstep
  | call call =>
    simp only [step] at hstep
    split at hstep
    · cases hstep
    rename_i t hrunn
    obtain ⟨⟨s', calls, control, reply⟩, hrun, hstep⟩ := bind_ok hstep
    cases hstep
    exact runCall_effect hfine hrunn hrun
  | yield kind outcome =>
    simp only [step] at hstep
    split at hstep
    · cases hstep
    rename_i t hrunn
    obtain ⟨hwork, hcon⟩ := hfine.program hrunn
    have hmar : w.marked = [] := marked_of_control hcon (by simp)
    obtain ⟨⟨s', control⟩, hrun, hstep⟩ := bind_ok hstep
    cases hstep
    rw [hcon]
    obtain ⟨r, hr, hrun⟩ := bind_ok hrun
    cases kind with
    | yield =>
      obtain ⟨s1, hready, hrun⟩ := bind_ok hrun
      cases hrun
      exact outside_effect ((makeReady_aside _ r).val hready) hwork hmar (by simp)
    | wait =>
      simp only at hrun
      split at hrun
      · obtain ⟨s1, hready, hrun⟩ := bind_ok hrun
        cases hrun
        exact outside_effect ((makeReady_aside _ r).val hready) hwork hmar (by simp)
      cases hrun
      exact outside_effect (.refl _) hwork hmar (by simp)
    | finish =>
      cases hrun
      exact outside_effect (.refl _) hwork hmar (by simp [Control.cancels])
  | start request hasProgram priority =>
    simp only [step] at hstep
    split at hstep
    next hidle =>
      obtain ⟨hwork, hcon⟩ := World.idle_eq hidle
      obtain ⟨⟨answer, s'⟩, hrun, hstep⟩ := bind_ok hstep
      cases hstep
      have haside := (startTask_apart w.state request hasProgram priority none).val hrun
      exact ⟨.aside haside hwork hwork (marked_nil hcon) (marked_nil hcon), h.below⟩
    next => cases hstep
  | cancel request =>
    simp only [step] at hstep
    split at hstep
    next hidle =>
      obtain ⟨hwork, hcon⟩ := World.idle_eq hidle
      cases hstep
      refine ⟨.aside (.refl _) hwork hwork (marked_nil hcon) ?_, by simp [Below]⟩
      exact marked_of_plain (by simp [Control.cancels])
    next => cases hstep
  | signal request =>
    simp only [step] at hstep
    split at hstep
    next hidle =>
      obtain ⟨hwork, hcon⟩ := World.idle_eq hidle
      obtain ⟨s', hrun, hstep⟩ := bind_ok hstep
      cases hstep
      have haside := (signal_aside w.state request).val hrun
      exact ⟨.aside haside hwork hwork (marked_nil hcon) (marked_nil hcon), h.below⟩
    next => cases hstep
  | stop =>
    simp only [step] at hstep
    split at hstep
    next hidle =>
      obtain ⟨hwork, hcon⟩ := World.idle_eq hidle
      split at hstep
      · cases hstep
        exact ⟨.aside (.refl _) hwork hwork (marked_nil hcon) (marked_nil hcon), h.below⟩
      cases hstep
      refine ⟨.aside (.of rfl rfl) hwork hwork (marked_nil hcon) ?_, by simp [Below]⟩
      exact marked_of_plain (by simp [Control.cancels])
    next => cases hstep
  | turn =>
    simp only [step] at hstep
    split at hstep
    next hidle =>
      obtain ⟨hwork, hcon⟩ := World.idle_eq hidle
      cases hstep
      exact ⟨.aside (.of rfl rfl) hwork hwork (marked_nil hcon) (marked_nil hcon), h.below⟩
    next => cases hstep
  | harvest limit =>
    simp only [step] at hstep
    split at hstep
    next hidle =>
      obtain ⟨hwork, hcon⟩ := World.idle_eq hidle
      cases hstep
      have hplain : ∀ c ∈ (w.state.board.harvest limit).1.map Control.observe, c.cancels = false := by
        intro c hmem
        obtain ⟨seen, -, rfl⟩ := mem_map.mp hmem
        rfl
      refine ⟨.aside (.of rfl rfl) hwork hwork (marked_nil hcon) (marked_of_plain hplain), ?_⟩
      exact fun c hmem => hplain c (mem_of_mem_tail hmem)
    next => cases hstep
  | flush =>
    simp only [step] at hstep
    split at hstep
    next hidle =>
      obtain ⟨hwork, hcon⟩ := World.idle_eq hidle
      cases hstep
      refine ⟨.aside (.refl _) hwork hwork (marked_nil hcon) (marked_of_plain ?_), ?_⟩
      · simp [Route.all, Control.cancels]
      · simp [Below, Route.all, Control.cancels]
    next => cases hstep
  | next =>
    simp only [step] at hstep
    split at hstep
    next hidle =>
      obtain ⟨hwork, hcon⟩ := World.idle_eq hidle
      have hmar := marked_nil hcon
      obtain ⟨popped, hpop, hstep⟩ := bind_ok hstep
      rcases popped with _ | popped
      · cases hstep
        exact ⟨.aside (.refl _) hwork hwork hmar hmar, h.below⟩
      simp only at hstep
      split at hstep
      · cases hstep
        exact ⟨.aside (.of rfl rfl) hwork hwork hmar (marked_nil hcon), h.below⟩
      split at hstep
      · cases hstep
        exact ⟨.aside (.of rfl rfl) hwork hwork hmar (marked_nil hcon), h.below⟩
      cases hstep
      exact outside_effect (.of rfl rfl) hwork hmar (by simp [Control.cancels])
    next => cases hstep
  | accept | complete =>
    simp only [step] at hstep
    split at hstep
    · obtain ⟨⟨answer, board⟩, hrun, hstep⟩ := bind_ok hstep
      cases hstep
      exact ⟨.board rfl, h.below⟩
    · cases hstep
  | setSource e source =>
    simp only [step] at hstep
    split at hstep
    next hopen =>
      obtain ⟨hwork, hplain⟩ := World.open_plain hfine hopen
      cases hstep
      exact ⟨.aside (setSource_aside w.state e source) hwork hwork (marked_of_plain hplain)
        (marked_of_plain hplain), h.below⟩
    next => cases hstep
  | pinPlaces extents =>
    simp only [step] at hstep
    split at hstep
    next hopen =>
      obtain ⟨hwork, hplain⟩ := World.open_plain hfine hopen
      cases hstep
      exact ⟨.aside (pinPlaces_aside w.state extents) hwork hwork (marked_of_plain hplain)
        (marked_of_plain hplain), h.below⟩
    next => cases hstep
  | unpinPlaces extents =>
    simp only [step] at hstep
    split at hstep
    next hopen =>
      obtain ⟨hwork, hplain⟩ := World.open_plain hfine hopen
      cases hstep
      exact ⟨.aside (.of rfl rfl) hwork hwork (marked_of_plain hplain) (marked_of_plain hplain),
        h.below⟩
    next => cases hstep
  | catalog op =>
    simp only [step] at hstep
    split at hstep
    next hopen =>
      obtain ⟨hwork, hplain⟩ := World.open_plain hfine hopen.1
      obtain ⟨s', hrun, hstep⟩ := bind_ok hstep
      cases hstep
      exact ⟨.aside ((ownerCall_aside w.state op).val hrun) hwork hwork (marked_of_plain hplain)
        (marked_of_plain hplain), h.below⟩
    next => cases hstep

/-! ### What every world keeps -/

theorem Load.leave_alike (l : Load) (t : TaskId) : (l.leave t).ticket = l.ticket ∧
    (l.leave t).source = l.source ∧ (l.leave t).stage = l.stage ∧
    (l.leave t).operation = l.operation ∧ (l.cancelling = true → (l.leave t).cancelling = true) ∧
    ((l.leave t).cancelling = false → (l.leave t).waiters ≠ [] ∨ (l.leave t).waiters = l.waiters) := by
  unfold Load.leave
  split
  · refine ⟨rfl, rfl, rfl, rfl, fun h => by simp [h], ?_⟩
    intro hwan
    left
    simp only [Bool.or_eq_false_iff] at hwan
    intro hnil
    simp only at hnil
    rw [hnil] at hwan
    cases hwan.2
  · exact ⟨rfl, rfl, rfl, rfl, fun h => h, fun _ => .inr rfl⟩

theorem Quits.effect (h : Quits w) (hfine : Fine x w) (hfine' : Fine x w') (heff : Effect w w')
    (hbelow : Below w'.control) : Quits w' := by
  cases heff with
  | spares spared work work' quiet turns marked steady =>
    have hgood' := hfine'.good
    rw [work'] at hgood'
    exact h.spared spared work quiet hgood' turns marked steady hfine.good hbelow rfl work'
  | @takes op takes fresh asked work quiet kept marked =>
    refine ⟨?_, ?_, ?_, ?_, ?_, hbelow⟩
    · intro e l hl hc
      rw [takes.loads] at hl
      rcases h.turned e l hl hc with hmark | hu | ⟨id, command, hid, htook⟩ | hcalls
      · exact .inl ((marked e).mpr hmark)
      · exact .inr (.inl hu)
      · refine .inr (.inr (.inl ⟨id, command, hid, ?_⟩))
        rw [takes.log]
        exact mem_cons_of_mem _ htook
      · exact .inr (.inr (.inr (hcalls.imp (kept e).1 (kept e).2)))
    · intro e l hmem hl
      rw [takes.loads] at hl
      exact h.proceeds e l (work _ hmem) hl
    · intro id e l hmem
      exact absurd hmem (quiet id)
    · intro e l hl
      rw [takes.loads] at hl
      exact h.wanted e l hl
    intro e hmark l hl
    rw [takes.loads] at hl
    exact h.marks e ((marked e).mp hmark) l hl
  | @leaves t leaving work marked marks =>
    have hleft : ∀ e l', w'.state.loads.find? e = some l' → ∃ l, w.state.loads.find? e = some l ∧
        l' = l.leave t := by
      intro e l' hl'
      rw [leaving.loads, OrdMap.find?_mapVals] at hl'
      obtain ⟨l, hl, rfl⟩ := map_eq_some_iff.mp hl'
      exact ⟨l, hl, rfl⟩
    obtain ⟨events, hlog, -⟩ := leaving.log
    refine ⟨?_, ?_, ?_, ?_, ?_, hbelow⟩
    · intro e l' hl' hc
      obtain ⟨l, hl, rfl⟩ := hleft e l' hl'
      obtain ⟨-, -, hstage, hop, -, -⟩ := l.leave_alike t
      cases hcl : l.cancelling with
      | false =>
        left
        rw [marks]
        exact withdrawnBy_of_marked hl hcl hc
      | true =>
        right
        rcases h.turned e l hl hcl with hmark | hu | ⟨id, command, hid, htook⟩ | hcalls
        · rw [marked] at hmark
          cases hmark
        · exact .inl (hstage ▸ hu)
        · refine .inr (.inl ⟨id, command, hop.trans hid, ?_⟩)
          have hlog' : w'.state.log = events ++ w.state.log := hlog
          rw [hlog']
          exact mem_append_right _ htook
        rw [work] at hcalls
        simp at hcalls
    · intro e l' hmem
      cases leaving.calls _ hmem
    · intro id e l' hmem
      cases leaving.calls _ hmem
    · intro e l' hl' hwan
      obtain ⟨l, hl, rfl⟩ := hleft e l' hl'
      obtain ⟨-, -, -, -, hkeeps, hwaits⟩ := l.leave_alike t
      rcases hwaits hwan with hne | hsame
      · exact hne
      rw [hsame]
      refine h.wanted e l hl ?_
      cases hcl : l.cancelling with
      | false => rfl
      | true =>
        rw [hkeeps hcl] at hwan
        cases hwan
    intro e hmark l' hl'
    rw [marks] at hmark
    exact withdrawnBy_cancelling leaving hmark hl'
  | board state =>
    subst state
    exact ⟨h.turned, h.proceeds, h.publishes, h.wanted, h.marks, hbelow⟩

theorem initial_quits : Quits { state := initial x } := by
  have hnone : ∀ e, (initial x).loads.find? e = none := fun _ => rfl
  refine ⟨?_, ?_, ?_, ?_, ?_, by simp [Below]⟩
  · intro e l hl
    cases (hnone e).symm.trans hl
  · intro e l hmem
    cases hmem
  · intro id e l hmem
    cases hmem
  · intro e l hl
    cases (hnone e).symm.trans hl
  intro e hmem
  cases hmem

theorem Reachable.quits (h : Reachable x w) : Quits w := by
  induction h with
  | start => exact initial_quits
  | step label hreach hstep ih =>
    have hfine := hreach.fine
    obtain ⟨heff, hbelow⟩ := step_effect hfine ih hstep
    exact ih.effect hfine (hreach.step label hstep).fine heff hbelow

/-! ## Withdrawn loads -/

/-- The load is handed to no lane but to give back what it holds. -/
structure StartsNothing (w : World) (e : ExtentId) (l : Load) (events : List Event) : Prop where
  opened : ∀ event ∈ events, ∀ command, event.opensLoad e = some command →
    command.gives l.source.backing = true
  published : ∀ id command op, Event.took id command ∈ events → w.state.find id = some op →
    op.kind = .load → op.extent = e → command.gives l.source.backing = true

theorem Quits.step_back (h : Quits w) (hfine : Fine x w) (heff : Effect w w')
    (hl : w.state.loads.find? e = some l) (hc : l.cancelling = true) :
    ∃ events, w'.state.log = events ++ w.state.log ∧ StartsNothing w e l events ∧
      ((∃ l', w'.state.loads.find? e = some l' ∧ l'.ticket = l.ticket ∧ l'.source = l.source ∧
        l'.cancelling = true) ∨ (w'.state.loads.find? e = none ∧ Ended e w'.state events)) := by
  cases heff with
  | @spares b events old rest calls spared work work' quiet turns marked steady =>
    refine ⟨events, spared.log, ⟨spared.opens e l hl hc, ?_⟩, ?_⟩
    · intro id command op hmem
      exact absurd hmem (spared.took id command)
    rcases spared.withdrawn e l hl hc with hstays | hended | htur
    · obtain ⟨l', hl', hticket, hsource, hc', -⟩ := hstays
      exact .inl ⟨l', hl', hticket, hsource, hc'⟩
    · exact .inr hended
    obtain ⟨l', hl', hticket, hsource, hc', -⟩ := htur
    exact .inl ⟨l', hl', hticket, hsource, hc'⟩
  | @takes op takes fresh asked work quiet kept marked =>
    refine ⟨[.took op.id op.command], takes.log, ⟨?_, ?_⟩, .inl ⟨l, ?_, rfl, rfl, hc⟩⟩
    · intro event hmem command hcom
      rw [mem_singleton.mp hmem] at hcom
      cases hcom
    · intro id command op' hmem hfound hkind hextent
      cases mem_singleton.mp hmem
      cases takes.found.symm.trans hfound
      -- The operation was not with a lane before, so it is the stage's, and the stage gives back.
      obtain ⟨hcell, -, -⟩ := find_eq_some.mp hfound
      have hrun : op.quarantined = false := by
        cases hq : op.quarantined with
        | false => rfl
        | true =>
          rw [(hfine.good.mailboxes.asked _ _ hcell).2 hq] at fresh
          cases fresh
      obtain ⟨l', hl', hid, -⟩ := hfine.good.loadOp hfound hkind hrun
      rw [hextent] at hl'
      cases hl.symm.trans hl'
      obtain ⟨op', hfound', -, -, -, route, hcom⟩ := hfine.good.loadOperation hl hid
      cases hfound.symm.trans hfound'
      refine stageCommand_gives hcom ?_
      rcases asked with hasked | ⟨hwork, hmar⟩
      · exact h.publishes op.id e l hasked hl hc hid
      rcases h.turned e l hl hc with hmark | hu | ⟨id', command, hid', htook⟩ | hcalls
      · rw [hmar] at hmark
        cases hmark
      · exact hu
      · cases hid.symm.trans hid'
        rw [hfine.good.mailboxes.published hcell htook] at fresh
        cases fresh
      rw [hwork] at hcalls
      simp at hcalls
    rw [takes.loads]
    exact hl
  | @leaves t leaving work marked marks =>
    obtain ⟨events, hlog, hplain⟩ := leaving.log
    obtain ⟨hticket, hsource, -, -, hkeeps, -⟩ := l.leave_alike t
    refine ⟨events, hlog, ⟨?_, ?_⟩, .inl ⟨l.leave t, ?_, hticket, hsource, hkeeps hc⟩⟩
    · intro event hmem command hcom
      rw [Event.opensLoad_of_plain (hplain event hmem) e] at hcom
      cases hcom
    · intro id command op hmem
      exact absurd rfl (Event.took_of_plain (hplain _ hmem) id command)
    have hloads : w'.state.loads = w.state.loads.mapVals fun _ load => load.leave t := leaving.loads
    rw [hloads, OrdMap.find?_mapVals, hl]
    rfl
  | board state =>
    subst state
    exact ⟨[], rfl, ⟨by simp, by simp⟩, .inl ⟨l, hl, rfl, rfl, hc⟩⟩

/-- The load stands all the way from one world to another of a run. -/
inductive Stands (x : Config) (e : ExtentId) (ticket : Ticket) (w : World) : World → Prop
  | start : Stands x e ticket w w
  | step {w₁ w₂ : World} (label : Label) : Stands x e ticket w w₁ →
      step x w₁ label = .ok (some w₂) →
      (∃ l, w₂.state.loads.find? e = some l ∧ l.ticket = ticket) → Stands x e ticket w w₂

theorem Stands.reachable {ticket : Ticket} {w1 : World} (hw : Reachable x w)
    (h : Stands x e ticket w w1) : Reachable x w1 := by
  induction h with
  | start => exact hw
  | step label _ hstep _ ih => exact ih.step label hstep

theorem Stands.withdrawn {w1 : World} (hw : Reachable x w)
    (hl : w.state.loads.find? e = some l) (hc : l.cancelling = true)
    (h : Stands x e l.ticket w w1) : ∃ l1, w1.state.loads.find? e = some l1 ∧
      l1.ticket = l.ticket ∧ l1.source = l.source ∧ l1.cancelling = true := by
  induction h with
  | start => exact ⟨l, hl, rfl, rfl, hc⟩
  | @step w1 w2 label hstands hstep hthere ih =>
    obtain ⟨l1, hl1, hticket, hsource, hc1⟩ := ih
    have hreach : Reachable x w1 := hstands.reachable hw
    obtain ⟨heff, -⟩ := step_effect hreach.fine hreach.quits hstep
    obtain ⟨events, -, -, hafter⟩ := hreach.quits.step_back hreach.fine heff hl1 hc1
    rcases hafter with ⟨l2, hl2, hticket2, hsource2, hc2⟩ | ⟨hnone, -⟩
    · exact ⟨l2, hl2, hticket2.trans hticket, hsource2.trans hsource, hc2⟩
    obtain ⟨l2, hl2, -⟩ := hthere
    cases hnone.symm.trans hl2

theorem Phase.step_broken (event : Event) : Phase.step .broken event = .broken := by
  cases event <;> rfl

theorem phase_broken {log : List Event} (h : phase e log = .broken)
    (events : List Event) : phase e (events ++ log) = .broken := by
  induction events with
  | nil => exact h
  | cons event events ih =>
    show phase e (event :: (events ++ log)) = .broken
    by_cases habout : event.about = some e
    · rw [phase_cons _ habout, ih, Phase.step_broken]
    · rw [phase_cons_of_ne _ habout, ih]

theorem resident_whole {events before : List Event}
    (h : phase e (events ++ .resident e :: before) ≠ .broken) :
    ∃ p, phase e before = .loading p ∧ p.operation = none ∧ p.progress = .whole := by
  have hnext : phase e (.resident e :: before) ≠ .broken := fun hb => h (phase_broken hb events)
  rw [phase_cons _ rfl] at hnext
  cases hp : phase e before with
  | loading p =>
    rw [hp] at hnext
    simp only [Phase.step, LoadPhase.step] at hnext
    split at hnext
    next hwhole =>
      simp only [Bool.and_eq_true, isNone_iff_eq_none, decide_eq_true_eq] at hwhole
      exact ⟨p, rfl, hwhole.1, hwhole.2⟩
    next => exact absurd rfl hnext
  | evicting | idle | lost | broken =>
    rw [hp] at hnext
    exact absurd rfl hnext

/-- Once a load is withdrawn (no task waits for it any more, or it is marked) and for as long as it
    stands, no step of any run opens an operation of it, or hands a lane one that was opened before,
    but an unmap or a release of its own backing. It stays withdrawn, also if a task joins it again,
    and when it ends its extent is NONRESIDENT or QUARANTINED, unless the whole of its contents had
    landed by then. -/
theorem withdrawn_starts_nothing {e : ExtentId} {l : Load} {w₁ w₂ : World} {label : Label}
    (hw : Reachable x w) (hl : w.state.loads.find? e = some l)
    (hwithdrawn : l.waiters = [] ∨ l.cancelling = true) (hstands : Stands x e l.ticket w w₁)
    (hstep : step x w₁ label = .ok (some w₂)) :
    ∃ events, w₂.state.log = events ++ w₁.state.log ∧ StartsNothing w₁ e l events ∧
      ((∃ l₂, w₂.state.loads.find? e = some l₂ ∧ l₂.ticket = l.ticket ∧ l₂.cancelling = true) ∨
        (w₂.state.loads.find? e = none ∧ ∃ r, w₂.state.catalog.extents.find? e = some r ∧
          (r.view.state = .nonresident ∨ r.view.state = .quarantined ∨
            (r.view.state = .resident ∧ ∃ after before p,
              events = after ++ .resident e :: before ∧
              phase e (before ++ w₁.state.log) = .loading p ∧ p.operation = none ∧
              p.progress = .whole)))) := by
  have hc : l.cancelling = true := by
    cases hcl : l.cancelling with
    | true => rfl
    | false =>
      rcases hwithdrawn with hnil | hmar
      · exact absurd hnil (hw.quits.wanted e l hl hcl)
      · exact hcl.symm.trans hmar
  obtain ⟨l1, hl1, hticket, hsource, hc1⟩ := hstands.withdrawn hw hl hc
  have hreach := hstands.reachable hw
  obtain ⟨heff, -⟩ := step_effect hreach.fine hreach.quits hstep
  obtain ⟨events, hlog, hnot, hafter⟩ := hreach.quits.step_back hreach.fine heff hl1 hc1
  refine ⟨events, hlog, ?_, ?_⟩
  · obtain ⟨hope, hpub⟩ := hnot
    rw [hsource] at hope hpub
    exact ⟨hope, hpub⟩
  rcases hafter with ⟨l₂, hl2, hticket2, -, hc2⟩ | ⟨hnone, r, hr, hstate⟩
  · exact .inl ⟨l₂, hl2, hticket2.trans hticket, hc2⟩
  refine .inr ⟨hnone, r, hr, hstate.imp_right (Or.imp_right ?_)⟩
  rintro ⟨hres, hmem⟩
  refine ⟨hres, ?_⟩
  obtain ⟨after, before, rfl⟩ := append_of_mem hmem
  have hgood := (hreach.step label hstep).fine.good
  have hphase : phase e w₂.state.log ≠ .broken := by
    cases hv : w₂.state.evictions.find? e with
    | some v =>
      obtain ⟨place, q, hevi, -⟩ := (hgood.eviction e v (by simp) hv).evicting
      simp [hevi.phase]
    | none =>
      rcases hgood.settled e (by simp) hnone hv with ⟨hidle, -⟩ | ⟨hlost, -⟩
      · simp [hidle]
      · simp [hlost]
  rw [hlog, append_assoc, cons_append] at hphase
  obtain ⟨p, hp, hidle, hwhole⟩ := resident_whole hphase
  exact ⟨after, before, p, rfl, hp, hidle, hwhole⟩

end Worlds

def withdrawnLabels : List Label := pageInLabels ++
  [.control .accepted, .control .accepted, .yield .finish .failed, .control .accepted,
    .work .accepted, .control .accepted, .control .accepted, .control .accepted,
    .accept ⟨0, 1⟩ .accepted, .complete ⟨0, 1⟩ { outcome := .failed, noFurtherAccess := true },
    .harvest 1]

theorem withdrawn_starts_nothing_failed : ∃ w l w₂,
    runLabels oneLane { state := initial oneLane } withdrawnLabels = some w ∧
      w.state.loads.find? ⟨0, 1⟩ = some l ∧ l.waiters = [] ∧
      step oneLane w (.control .accepted) = .ok (some w₂) ∧
      ∃ events, w₂.state.log = events ++ w.state.log ∧ StartsNothing w ⟨0, 1⟩ l events ∧
        ∃ r, w₂.state.catalog.extents.find? ⟨0, 1⟩ = some r ∧ r.view.state = .nonresident := by
  have hrun : ∃ w l w₂ r, runLabels oneLane { state := initial oneLane } withdrawnLabels = some w ∧
      w.state.loads.find? ⟨0, 1⟩ = some l ∧ l.waiters = [] ∧
      step oneLane w (.control .accepted) = .ok (some w₂) ∧
      w₂.state.loads.find? ⟨0, 1⟩ = none ∧
      w₂.state.catalog.extents.find? ⟨0, 1⟩ = some r ∧ r.view.state = .nonresident :=
    ⟨_, _, _, _, rfl, rfl, rfl, rfl, rfl, rfl, rfl⟩
  obtain ⟨w, l, w₂, r, hw, hl, hnil, hstep, hnone, hr, hstate⟩ := hrun
  obtain ⟨events, hlog, hnot, -⟩ := withdrawn_starts_nothing (runLabels_reachable .start hw) hl
    (.inl hnil) .start hstep
  exact ⟨w, l, w₂, hw, hl, hnil, hstep, events, hlog, hnot, r, hr, hstate⟩

end JitLlm.Scheduler
