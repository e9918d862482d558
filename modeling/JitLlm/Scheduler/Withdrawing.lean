import JitLlm.Scheduler.Sparing

/-!
# What requests and withdrawals leave of the loads that are withdrawn

The walk of `Scheduler/Sparing.lean`, on: what a task's program and the scheduler's owner ask, a
task that leaves what it waits for, the cancelling of what that marked, and the loops of a flush.
A load that begins is wanted by the task that asked for it, one that is joined stands as it stood,
and a task that leaves marks the loads it was the last to wait for.
-/

namespace JitLlm.Scheduler

open Base Lib
open Catalog hiding Operation Reachable

/-! ## Requests -/

section Requests

variable {x : Config} {s : Scheduler}

def ApartAnswer {α : Type} (s : Scheduler) : Checked (α × Scheduler) → Prop :=
  Sat (fun _ => True) fun y => Aside s y.2

theorem makeReady_aside (s : Scheduler) (r : TaskRecord) :
    Sat (fun _ => True) (Aside s) (s.makeReady r) :=
  (makeReady_woken r).imp fun _ h => h.aside

theorem startTask_apart (s : Scheduler) (request : Nat) (hasProgram : Bool) (priority : Nat)
    (parent : Option TaskId) : ApartAnswer s (startTask x s request hasProgram priority parent) := by
  unfold startTask
  split
  · exact .refl s
  split
  · exact .refl s
  refine Sat.bind .any fun y _ => ?_
  obtain ⟨answer, tasks⟩ := y
  rcases answer with error | id
  · cases error <;> exact .refl s
  cases parent with
  | none =>
    simp only [pure_bind]
    refine Sat.bind (makeReady_aside _ _) fun s1 h1 => ?_
    exact h1.before rfl rfl
  | some parent =>
    simp only
    cases ({ s with tasks }.setRecord { id, request, priority }).record? parent with
    | none => trivial
    | some =>
      simp only [require, ok_bind, pure_bind]
      refine Sat.bind (makeReady_aside _ _) fun s1 h1 => ?_
      exact h1.before rfl rfl

theorem signal_aside (s : Scheduler) (request : Nat) :
    Sat (fun _ => True) (Aside s) (s.signal request) := by
  refine Sat.foldlM (I := fun _ => Aside s) ?_ (.refl s)
  intro s1 i _ h1
  unfold signalRecord
  split
  next r _ =>
    split
    · exact h1
    refine Sat.bind .any fun view _ => ?_
    split
    · exact h1
    simp only
    split
    · exact (wake_aside r.id false).imp fun _ h2 => h1.trans (h2.before rfl rfl)
    · exact h1.trans (.of rfl rfl)
  next => exact h1

theorem holdLease_apart (s : Scheduler) (t : TaskId) (closure : Closure) :
    ApartAnswer s (holdLease x s t closure) := by
  unfold holdLease
  rcases s.openRecord t with _ | _
  · exact .refl s
  simp only
  split
  · exact .refl s
  refine Sat.bind .any fun y _ => ?_
  obtain ⟨answer, catalog⟩ := y
  cases answer with
  | error => exact .refl s
  | ok =>
    refine Sat.bind .any fun y' _ => ?_
    exact .event rfl rfl rfl

theorem endLease_apart (s : Scheduler) (t : TaskId) (lease : LeaseId) :
    ApartAnswer s (s.endLease t lease) := by
  unfold endLease
  split
  next r held _ _ =>
    split
    · exact .refl s
    simp only
    split
    · refine Sat.bind (releaseHeld_aside _ lease _) fun s1 h1 => ?_
      exact h1.before rfl rfl
    · split <;> exact .of rfl rfl
  next => exact .refl s

theorem awaitRelease_apart (s : Scheduler) (t : TaskId) (extents : List ExtentId) :
    ApartAnswer s (awaitRelease x s t extents) := by
  unfold awaitRelease
  rcases s.openRecord t with _ | _
  · exact .refl s
  refine Sat.bind .any fun holds _ => ?_
  split
  · exact .refl s
  rcases s.overlapping t extents with _ | found
  · exact .refl s
  simp only
  split
  · exact .refl s
  split
  · exact .refl s
  · exact .of rfl rfl

theorem awaitSignal_aside (s : Scheduler) (t : TaskId) : Aside s (s.awaitSignal t).2 := by
  unfold awaitSignal
  rcases s.openRecord t with _ | _
  · exact .refl s
  simp only
  split
  · exact .of rfl rfl
  split
  · exact .refl s
  · exact .of rfl rfl

theorem takeFailure_aside (s : Scheduler) (t : TaskId) : Aside s (s.takeFailure t).2 := by
  unfold takeFailure
  cases s.record? t with
  | none => exact .refl s
  | some => exact .of rfl rfl

theorem lease_apart (s : Scheduler) (t : TaskId) (basis : Over) : ApartAnswer s (s.lease t basis) := by
  unfold lease
  cases basis with
  | held lease =>
    simp only
    rcases s.held.find? lease with _ | _
    · exact .refl s
    simp only
    split
    · exact .refl s
    split
    · exact .refl s
    split
    · exact .refl s
    · exact .of rfl rfl
  | closure closure =>
    simp only
    split
    · exact .refl s
    refine Sat.bind .any fun y _ => ?_
    obtain ⟨answer, catalog⟩ := y
    cases answer with
    | error => exact .refl s
    | ok =>
      refine Sat.bind .any fun y' _ => ?_
      exact .of rfl rfl

def SparedAnswer {α : Type} (s : Scheduler) : Checked (α × Scheduler × List Work) → Prop :=
  Sat (fun _ => True) fun y => ∃ events, SparesBy true s y.2 events

theorem submit_spared (s : Scheduler) (t : TaskId) (basis : Over) (command : Command) :
    SparedAnswer s (submit x s t basis command) := by
  unfold submit
  have hsame : ∃ events, SparesBy true s (s, []) events := (Aside.refl s).spares (.none s)
  split
  · exact hsame
  rcases s.openRecord t with _ | r
  · exact hsame
  refine Sat.bind (lease_apart s t basis) fun y h1 => ?_
  obtain ⟨answer, s1⟩ := y
  rcases answer with _ | leased
  · exact h1.spares (.none s1)
  obtain ⟨own, held⟩ := leased
  refine Sat.bind .any fun y _ => ?_
  obtain ⟨answer, tasks⟩ := y
  rcases answer with _ | _
  · trivial
  simp only [pure_bind]
  refine Sat.bind (openOperation_other { s1 with tasks } ?_) fun y hy => ?_
  · intro id
    cases command <;> simp
  obtain ⟨hope, hcalls⟩ := hy
  have haside : Aside s ((y.2.addWaiting r).emit (submission y.1 own basis)) := by
    refine (h1.trans (hope.before rfl rfl)).trans (.event rfl rfl ?_)
    cases basis <;> rfl
  exact haside.spares (hcalls.same rfl rfl)

variable {e : ExtentId} {load : Load}

theorem join_spares (r : TaskRecord)
    (hl : s.loads.find? e = some load) : SparesBy true s (s.join e load r, []) [] := by
  have hself : (s.join e load r).loads.find? e =
      some { load with waiters := load.waiters ++ [r.id] } := OrdMap.find?_insert_self _ _ _
  have hothers : ∀ e', e' ≠ e → (s.join e load r).loads.find? e' = s.loads.find? e' :=
    fun _ he => OrdMap.find?_insert_ne he
  refine ⟨rfl, by simp, ?_, ?_, ?_, by simp, .none _, by simp⟩
  · intro e' l hl' hc
    left
    by_cases he : e' = e
    · subst he
      cases hl.symm.trans hl'
      exact ⟨_, hself, rfl, rfl, hc, rfl, rfl⟩
    · exact ⟨l, (hothers e' he).trans hl', rfl, rfl, hc, rfl, rfl⟩
  · intro e' l' hl' hc
    by_cases he : e' = e
    · subst he
      cases hself.symm.trans hl'
      exact ⟨load, hl, hc⟩
    · exact ⟨l', (hothers e' he).symm.trans hl', hc⟩
  intro e' l' hl' hc
  by_cases he : e' = e
  · subst he
    cases hself.symm.trans hl'
    exact .inl (by simp)
  · exact .inr ⟨l', (hothers e' he).symm.trans hl', hc, rfl⟩

theorem begin_spares {calls : List Work} (r : TaskRecord)
    (hnone : s.loads.find? e = none) (hfresh : load.cancelling = false)
    (hcalls : Calls (s, calls)) {s' : Scheduler} (loads : s'.loads = (s.join e load r).loads)
    (operations : s'.operations = s.operations) (log : s'.log = s.log) (next : List Work)
    (hnext : ∀ w ∈ next, w = .proceed e) : SparesBy true s (s', calls ++ next) [] := by
  have hself : s'.loads.find? e = some { load with waiters := load.waiters ++ [r.id] } := by
    rw [loads]
    exact OrdMap.find?_insert_self _ _ _
  have hothers : ∀ e', e' ≠ e → s'.loads.find? e' = s.loads.find? e' := by
    intro e' he
    rw [loads]
    exact OrdMap.find?_insert_ne he
  have hwan : ∀ l, s'.loads.find? e = some l → l.cancelling = false := by
    intro l hl
    cases hself.symm.trans hl
    exact hfresh
  refine ⟨log, by simp, ?_, ?_, ?_, by simp, ⟨?_, ?_⟩, by simp⟩
  · intro e' l hl hc
    have he : e' ≠ e := by
      rintro rfl
      cases hnone.symm.trans hl
    exact .inl ⟨l, (hothers e' he).trans hl, rfl, rfl, hc, rfl, rfl⟩
  · intro e' l' hl' hc
    by_cases he : e' = e
    · subst he
      rw [hwan l' hl'] at hc
      cases hc
    · exact ⟨l', (hothers e' he).symm.trans hl', hc⟩
  · intro e' l' hl' hc
    by_cases he : e' = e
    · subst he
      cases hself.symm.trans hl'
      exact .inl (by simp)
    · exact .inr ⟨l', (hothers e' he).symm.trans hl', hc, rfl⟩
  · intro e' l hmem hl
    by_cases he : e' = e
    · subst he
      exact hwan l hl
    rcases List.mem_append.mp hmem with hmem | hmem
    · exact hcalls.proceeds e' l hmem ((hothers e' he).symm.trans hl)
    cases hnext _ hmem
    exact absurd rfl he
  intro id hmem
  rcases List.mem_append.mp hmem with hmem | hmem
  · obtain ⟨ops, op, heq, hstage⟩ := hcalls.publishes id hmem
    refine ⟨ops, op, operations.trans heq, ?_⟩
    intro hkind l hl hc
    by_cases he : op.extent = e
    · rw [he] at hl
      rw [hwan l hl] at hc
      cases hc
    · exact hstage hkind l ((hothers _ he).symm.trans hl) hc
  · cases hnext _ hmem

variable {s1 : Scheduler}

theorem enter_spared {ended : List Work}
    (r : TaskRecord) (h : Aside s s1) (hended : ∀ w ∈ ended, w = .pumpReleases)
    (hnone : s.loads.find? e = none)
    (hfresh : load.cancelling = false) (landed : Bool) : SparedAnswer s (if landed = true ∧
        (s1.join e load r).started ≥ 2 * (s1.join e load r).slots.length then
      pure (Except.ok (ε := WorkError) (),
        { s1.join e load r with queued := (s1.join e load r).queued ++ [e] }, ended)
      else pure (.ok (), s1.join e load r, ended ++ [.proceed e])) := by
  have hnone1 : s1.loads.find? e = none := by
    rw [h.loads]
    exact hnone
  have hpum : Pumping s (s1, ended) := ⟨h, hended⟩
  have hcalls : Calls (s1, ended) := .plain hpum.plain
  split
  · have hspares : SparesBy true s1 ({ s1.join e load r with
        queued := (s1.join e load r).queued ++ [e] }, ended ++ []) [] := by
      refine begin_spares r hnone1 hfresh hcalls ?_ ?_ ?_ [] (by simp) <;> rfl
    rw [List.append_nil] at hspares
    exact hspares.after h
  have hspares : SparesBy true s1 (s1.join e load r, ended ++ [.proceed e]) [] :=
    begin_spares r hnone1 hfresh hcalls rfl rfl rfl [.proceed e] (by simp)
  exact hspares.after h

theorem begun_aside (s : Scheduler) {catalog : Catalog} {event : Event} (h : event.plain = true) :
    Aside s { s with catalog, log := event :: s.log } := .event rfl rfl h

theorem beginPageIn_spared (r : TaskRecord) (e : ExtentId) (source : PageSource)
    (hnone : s.loads.find? e = none) : SparedAnswer s (beginPageIn x s r e source false) := by
  rw [beginPageIn_eq]
  obtain ⟨hpar, -⟩ := giver_spec s e source
  generalize giver s e source = given at *
  obtain ⟨giver, s1⟩ := given
  have haside : Aside s s1 := by
    have hs1 : s1 = _ := hpar
    rw [hs1]
    exact .of rfl rfl
  refine Sat.bind .any fun y _ => ?_
  obtain ⟨answer, catalog⟩ := y
  rcases answer with _ | _
  · exact haside.spares (.none s1)
  rcases giver with _ | e'
  · exact enter_spared r (haside.trans (begun_aside s1 rfl)) (by simp) hnone rfl source.landed
  refine Sat.bind (endParked_pumps _ e') fun y hy => ?_
  refine enter_spared r ?_ hy.calls hnone rfl source.landed
  exact haside.trans ((begun_aside s1 rfl).trans hy.aside)

theorem beginOwn_spared (r : TaskRecord) (e : ExtentId) (source : PageSource)
    (hnone : s.loads.find? e = none) : SparedAnswer s (beginPageIn x s r e source true) := by
  refine Sat.bind .any fun y _ => ?_
  obtain ⟨answer, catalog⟩ := y
  cases answer with
  | error => trivial
  | ok =>
    exact enter_spared r (begun_aside s rfl) (by simp) hnone rfl source.landed

theorem materializeOne_spared (hagr : Agrees s) (t : TaskId) (r : TaskRecord) (e : ExtentId)
    (generation : Nat) : SparedAnswer s (materializeOne x s t r e generation) := by
  have hsame : ∃ events, SparesBy true s (s, []) events := (Aside.refl s).spares (.none s)
  unfold materializeOne
  rcases hview : s.catalog.describe e with _ | view
  · exact hsame
  obtain ⟨record, hrec, rfl⟩ := describe_ok hview
  simp only
  have hnone : record.view.state ≠ .loading → s.loads.find? e = none := by
    intro hstate
    rcases hl : s.loads.find? e with _ | l
    · rfl
    obtain ⟨record', hrec', hstate'⟩ := (hagr.loading e).mpr ⟨l, hl⟩
    cases hrec.symm.trans hrec'
    exact absurd hstate' hstate
  cases hstate : record.view.state with
  | resident =>
    simp only
    split <;> exact hsame
  | loading =>
    rcases hl : s.loads.find? e with _ | _
    · trivial
    simp only [require, ok_bind]
    split
    · exact hsame
    split
    · exact hsame
    · exact ⟨[], join_spares r hl⟩
  | nonresident =>
    rcases s.sources.find? e with _ | source
    · exact hsame
    simp only
    split
    · exact hsame
    split
    · exact hsame
    split
    · exact hsame
    split
    · exact hsame
    · exact Sat.bind (beginPageIn_spared r e source (hnone (by simp [hstate]))) fun y hy => hy
  | evicting =>
    rcases s.evictions.find? e with _ | v
    · exact hsame
    simp only
    split
    · split
      · exact hsame
      rcases s.sources.find? e with _ | source
      · exact hsame
      simp only
      split
      · exact hsame
      split
      · exact hsame
      refine Sat.bind .any fun total _ => ?_
      split
      · exact hsame
      refine Sat.bind (endParked_pumps s e) fun y hy => ?_
      have hnone1 : y.1.loads.find? e = none := by
        rw [hy.aside.loads]
        exact hnone (by simp [hstate])
      refine Sat.bind (beginOwn_spared r e source hnone1) fun y' hy' => ?_
      obtain ⟨events, hspares⟩ := hy'
      exact (hspares.first hy.plain).after hy.aside
    split
    · exact hsame
    split
    · exact hsame
    have hjoined : Aside s ((s.setEviction e
        { v with waiters := v.waiters ++ [t] }).addWaiting r) := .of rfl rfl
    exact hjoined.spares (.none _)
  | quarantined => exact hsame

theorem startEviction_apart (s : Scheduler) (r : TaskRecord) (e : ExtentId) (place : PageSource)
    (writeBack handoff : Bool) (ticket : Ticket) :
    Apart s (startEviction x s r e place writeBack handoff ticket) := by
  unfold startEviction
  simp only
  generalize (if (writeBack && place.landed) = true then EvictStage.slot
    else if writeBack = true then .writing else .unmapping) = stage
  split
  · exact ⟨.event rfl rfl rfl, .plain (by simp)⟩
  refine (openEvictOrBlock_apart _ e _).imp fun _ hy => ⟨Aside.trans ?_ hy.1, hy.2⟩
  exact .event rfl rfl rfl

theorem evict_spared (s : Scheduler) (t : TaskId) (e : ExtentId) (handoff : Bool) :
    SparedAnswer s (evict x s t e handoff) := by
  have hsame : ∃ events, SparesBy true s (s, []) events := (Aside.refl s).spares (.none s)
  unfold evict
  split
  · exact hsame
  · exact hsame
  rename_i r view _ _
  simp only
  split
  next place _ _ =>
    split
    · exact hsame
    split
    · exact hsame
    split
    · exact hsame
    refine Sat.bind .any fun y _ => ?_
    obtain ⟨answer, catalog⟩ := y
    rcases answer with _ | ticket
    · exact hsame
    refine Sat.bind (startEviction_apart { s with catalog } r e place _ handoff ticket)
      fun y hy => ?_
    have haside : Aside s y.1 := hy.1.before rfl rfl
    exact haside.spares hy.2
  next =>
    refine Sat.bind .any fun y _ => ?_
    obtain ⟨answer, catalog⟩ := y
    rcases answer with _ | _
    · exact hsame
    refine Sat.bind .any fun y' _ => ?_
    have haside : Aside s { s with
        catalog := y'.2
        log := .evicted e false :: .evicting e (s.sources.find? e) false false :: s.log } :=
      ⟨rfl, [_, _], rfl, by simp [Event.plain]⟩
    exact haside.spares (.none _)

/-! ## Withdrawing -/

/-- A task left what it waits for: the loads left without waiters are marked, and only those. -/
structure Leaving (s : Scheduler) (t : TaskId) (y : Scheduler × List Work) : Prop where
  loads : y.1.loads = s.loads.mapVals fun _ load => load.leave t
  log : ∃ events, y.1.log = events ++ s.log ∧ ∀ event ∈ events, event.plain = true
  calls : ∀ w ∈ y.2, w = .pumpReleases

theorem Leaving.aside {t : TaskId} {y : Scheduler × List Work}
    (h : Leaving s t y) (h1 : Aside y.1 s1) : Leaving s t (s1, y.2) := by
  obtain ⟨events, hlog, hplain⟩ := h.log
  obtain ⟨events1, hlog1, hplain1⟩ := h1.log
  refine ⟨h1.loads.trans h.loads, ⟨events1 ++ events, ?_, ?_⟩, h.calls⟩
  · rw [hlog1, hlog, List.append_assoc]
  intro event hmem
  exact (List.mem_append.mp hmem).elim (hplain1 event) (hplain event)

theorem Leaving.pumping {t : TaskId} {y y1 : Scheduler × List Work} (h : Leaving s t y)
    (h1 : Pumping y.1 y1) : Leaving s t (y1.1, y.2 ++ y1.2) := by
  obtain ⟨hloads, hlog, -⟩ := h.aside h1.aside
  refine ⟨hloads, hlog, ?_⟩
  intro w hmem
  exact (List.mem_append.mp hmem).elim (h.calls w) (h1.calls w)

theorem withdraw_leaving (s : Scheduler) (t : TaskId) :
    Sat (fun _ => True) (Leaving s t) (s.withdraw t) := by
  refine Sat.bind (P := Leaving s t) ?_ fun y hy => ?_
  · refine Sat.foldlM (I := fun _ => Leaving s t) ?_ ⟨rfl, ⟨[], rfl, by simp⟩, by simp⟩
    intro ran e _ hran
    refine Sat.bind (endEviction_pumps _ e false) fun y hy => ?_
    exact hran.pumping ⟨hy.aside.before rfl rfl, hy.calls⟩
  refine Sat.bind (P := fun s3 => Aside y.1 s3) ?_ fun s3 h3 => ?_
  · refine Sat.foldlM (I := fun _ => Aside y.1) ?_ (.of rfl rfl)
    intro s3 lease _ h3
    unfold releaseEnded
    cases s3.held.find? lease with
    | none => trivial
    | some held => exact (releaseHeld_aside s3 lease held).imp fun _ h => h3.trans h
  refine Sat.bind (releaseParked_pumps s3 (some t)) fun y' hy' => ?_
  exact (hy.aside h3).pumping hy'

theorem beginFinish_leaving (s : Scheduler) (t : TaskId) (outcome : TaskOutcome) :
    Sat (fun _ => True) (fun o => ∀ view withdrawn s' work, o = some (view, withdrawn, s', work) →
      withdrawn = s.withdrawnBy t ∧ Leaving s t (s', work)) (s.beginFinish t outcome) := by
  unfold beginFinish
  rcases s.record? t with _ | _
  · exact fun _ _ _ _ h => by cases h
  simp only
  split
  · exact fun _ _ _ _ h => by cases h
  refine Sat.bind .any fun y _ => ?_
  obtain ⟨answer, tasks⟩ := y
  rcases answer with _ | _
  · trivial
  simp only [pure_bind]
  refine Sat.bind .any fun view _ => ?_
  refine Sat.bind (withdraw_leaving _ t) fun y hy => ?_
  intro view' withdrawn s' work heq
  cases heq
  exact ⟨rfl, hy.loads, hy.log, hy.calls⟩

def Quitting (s : Scheduler) (l : Load) : Prop :=
  l.stage.unwinds = true ∨ ∃ id op, l.operation = some id ∧ s.find id = some op ∧ op.published = true

theorem restated_spares {s' : Scheduler} (loads : ∀ e, s'.loads.find? e = s.loads.find? e)
    (log : s'.log = s.log) : Spares s (s', []) [] := by
  refine ⟨log, by simp, ?_, ?_, ?_, by simp, .none _, fun _ e he => (loads e).trans he⟩
  · intro e l hl hc
    exact .inl ⟨l, (loads e).trans hl, rfl, rfl, hc, rfl, rfl⟩
  · intro e l' hl' hc
    exact ⟨l', (loads e).symm.trans hl', hc⟩
  intro e l' hl' hc
  exact .inr ⟨l', (loads e).symm.trans hl', hc, rfl⟩

theorem cancelPageIn_spared {l : Load} (h : Tickets s)
    (hl : s.loads.find? e = some l) (hc : l.cancelling = true)
    (hop : ∀ id op, l.operation = some id → s.find id = some op → op.kind = .load ∧ op.extent = e)
    (answer : PushResult) : Sat (fun _ => True) (fun y => ∃ events, Spares s y events ∧
      (TurnsBack e l y events ∨ Quitting s l)) (cancelPageIn x s e l answer) := by
  have hacted : ∀ {ran : Ran}, Acted e l s ran → Sat (fun _ => True) (fun y => ∃ events,
      Spares s y events ∧ (TurnsBack e l y events ∨ Quitting s l)) ran := by
    intro ran hran
    refine hran.imp fun y hy => ?_
    obtain ⟨events, hy⟩ := hy
    exact ⟨events, hy.spares, .inl (hy.withdrawn hc)⟩
  have hset : { l with cancelling := true } = l := by rw [← hc]
  have hself : ∀ e', (s.setLoad e l).loads.find? e' = s.loads.find? e' := by
    intro e'
    by_cases he : e' = e
    · subst he
      exact (OrdMap.find?_insert_self _ _ _).trans hl.symm
    · exact OrdMap.find?_insert_ne he
  have htick : Ticketed (s.setLoad e l) e l := (h.at hl).set rfl
  have hstays : ∀ {s' : Scheduler}, s'.loads = (s.setLoad e l).loads → s'.log = s.log →
      Quitting s l → ∃ events, Spares s (s', []) events ∧
        (TurnsBack e l (s', []) events ∨ Quitting s l) := by
    intro s' hloads hlog hquits
    exact ⟨[], restated_spares (fun e' => hloads ▸ hself e') hlog, .inr hquits⟩
  unfold cancelPageIn
  rw [hset]
  simp only
  cases hstage : l.stage with
  | queued =>
    have hqueued : Ticketed { s.setLoad e l with queued := remove (s.setLoad e l).queued e } e l :=
      ⟨htick.found, htick.reach, htick.ticket⟩
    exact hacted ((unwind_acted hqueued).same hl hself rfl)
  | slot =>
    have hslot : Ticketed
        { s.setLoad e l with slotWaiters := remove (s.setLoad e l).slotWaiters e } e l :=
      ⟨htick.found, htick.reach, htick.ticket⟩
    exact hacted ((unwind_acted hslot).same hl hself rfl)
  | unmapping | releasing => exact hstays rfl rfl (.inl (by rw [hstage]; rfl))
  | mapping | reading | copying =>
    cases hfound : l.operation.bind (s.setLoad e l).find with
    | none =>
      have hblocked : Ticketed
          { s.setLoad e l with blocked := remove (s.setLoad e l).blocked e } e l :=
        ⟨htick.found, htick.reach, htick.ticket⟩
      exact hacted ((onStage_acted hblocked .failed 0).same hl hself rfl)
    | some op =>
      obtain ⟨id, hid, hop'⟩ := Option.bind_eq_some_iff.mp hfound
      obtain ⟨hkind, hextent⟩ := hop id op hid hop'
      subst hextent
      simp only
      split
      · refine hacted ((rollBackOp_acted ?_ hkind htick.found).same hl hself rfl)
        refine ⟨h.reach, fun e' l' hl' => h.ticket e' l' ?_⟩
        exact (hself e').symm.trans hl'
      rename_i hpub
      have hquits : Quitting s l := .inr ⟨id, op, hid, hop', by simpa using hpub⟩
      first
        | exact hstays rfl rfl hquits
        | (split
           · unfold check
             split
             · simp only [ok_bind]
               split
               · exact hstays rfl rfl hquits
               · exact hstays rfl rfl hquits
             · trivial
           · exact hstays rfl rfl hquits)

/-! ## The loops of a flush -/

theorem flushRoute_publishes (h : Tickets s) (route : Route) (answer : PushResult) :
    Sat (fun _ => True) (fun y => (∃ events, Spares s (y.1, y.2.1) events) ∨
      y.2.1 = [] ∧ ∃ op, Takes s y.1 op ∧ op.published = false) (flushRoute x s route answer) := by
  unfold flushRoute
  have haside : ∀ ids, Aside s (s.setPending route ids) := fun _ => .of rfl rfl
  rcases s.pending route with _ | ⟨id, rest⟩
  · exact .inl ((Aside.refl s).spares (.none s))
  simp only
  rcases hfound : s.find id with _ | op
  · exact .inl ((haside rest).spares (.none _))
  simp only
  split
  · exact .inl ((haside rest).spares (.none _))
  rename_i hpub
  split
  · exact .inl ((Aside.refl s).spares (.none s))
  · obtain rfl := (find_eq_some.mp hfound).2.1
    exact .inr ⟨rfl, op, ⟨hfound, rfl, rfl, rfl⟩, by simpa using hpub⟩
  have htick : Tickets (s.setPending route rest) := h.same rfl rfl
  refine Sat.bind ((rollBack_spared htick op).before (haside rest)) fun y hy => ?_
  exact .inl hy

theorem retryBlocked_spared (h : Tickets s) (hblocked : ∀ e ∈ s.blocked, ∀ l,
      s.loads.find? e = some l → l.cancelling = true → l.stage.unwinds = true) :
    Sat (fun _ => True) (fun y => ∃ events, Spares s (y.1, y.2.1) events) (retryBlocked x s) := by
  unfold retryBlocked
  rcases hq : s.blocked with _ | ⟨e, blocked⟩
  · exact (Aside.refl s).spares (.none s)
  simp only
  have hpop : Aside s { s with blocked } := .of rfl rfl
  cases hl : s.loads.find? e with
  | some load =>
    have htick : Tickets { s with blocked } := h.same rfl rfl
    have hstage := hblocked e (by rw [hq]; exact List.mem_cons_self) load hl
    refine Sat.bind (openStage_acted (htick.at hl) hstage) fun o ho => ?_
    cases o with
    | none => exact (Aside.refl s).spares (.none s)
    | some y =>
      obtain ⟨events, hy⟩ := ho y rfl
      exact hy.spares.after hpop
  | none =>
    rcases s.evictions.find? e with _ | v
    · exact hpop.spares (.none _)
    simp only
    split
    · simp only [pure_bind]
      refine Sat.bind (openEvictStage_apart { s with blocked } e v) fun o ho => ?_
      cases o with
      | none => exact (Aside.refl s).spares (.none s)
      | some y =>
        obtain ⟨haside, hcalls⟩ := ho y rfl
        exact (hpop.trans haside).spares hcalls
    · exact hpop.spares (.none _)

theorem flushCancel_aside (s : Scheduler) (i : Nat) (answer : PushResult) :
    Sat (fun _ => True) (fun y => Aside s y.1) (flushCancel x s i answer) := by
  unfold flushCancel
  rcases s.cancels[i]? with _ | id
  · exact .refl s
  simp only
  rcases s.find id with _ | _
  · exact .of rfl rfl
  simp only
  split
  · exact .of rfl rfl
  unfold check
  split
  · simp only [ok_bind]
    split
    · exact .refl s
    · exact .of rfl rfl
  · trivial

theorem setSource_aside (s : Scheduler) (e : ExtentId) (source : PageSource) :
    Aside s (setSource x s e source).2 := by
  unfold setSource
  split
  · exact .refl s
  split
  · exact .refl s
  rcases s.catalog.describe e with _ | _
  · exact .refl s
  simp only
  split
  · exact .refl s
  split
  · exact .refl s
  split
  · exact .refl s
  split
  · exact .refl s
  · exact .event rfl rfl rfl

theorem pinPlaces_aside (s : Scheduler) (extents : List ExtentId) :
    Aside s (s.pinPlaces extents).2 := by
  unfold pinPlaces
  split
  · exact .of rfl rfl
  · exact .refl s

theorem ownerCall_aside (s : Scheduler) (op : Catalog.Op) :
    Sat (fun _ => True) (Aside s) (s.ownerCall op) := by
  unfold ownerCall
  split
  · refine Sat.bind .any fun y _ => ?_
    obtain ⟨answer, catalog⟩ := y
    cases answer with
    | ok => exact .event rfl rfl rfl
    | error => exact .of rfl rfl
  refine Sat.bind .any fun c _ => ?_
  exact .of rfl rfl

end Requests
end JitLlm.Scheduler
