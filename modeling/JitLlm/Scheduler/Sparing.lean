import JitLlm.Scheduler.Agreement

/-!
# What a call leaves of the loads that are withdrawn

A load is withdrawn once it is marked cancelling. `Spares` says what one call of the scheduler may
do about every such load: open an unmap or a release for it and nothing else, leave it as it
stands, set it on its way back, or end it. The walk over the functions is here; what the machine
makes of it, over whole runs, is in `Scheduler/Withdrawn.lean`.

Only what a call that returns did is said: that none of its checks fires is `Good`'s.
-/

namespace JitLlm.Scheduler

open Base Lib List
open Catalog hiding Operation Reachable

/-! ## Commands and stages -/

def Event.opensLoad (e : ExtentId) : Event → Option Command
  | .opened _ .load e' command => if e' = e then some command else none
  | _ => none

def Event.plain : Event → Bool
  | .opened _ .load _ _ | .took _ _ => false
  | _ => true

theorem Event.opensLoad_of_plain {event : Event} (h : event.plain = true) (e : ExtentId) :
    event.opensLoad e = none := by
  unfold Event.opensLoad
  split
  · cases h
  · rfl

theorem Event.took_of_plain {event : Event} (h : event.plain = true) (id : OperationId)
    (command : Command) : event ≠ .took id command := by
  rintro rfl
  cases h

def Command.gives (place : Option BackingPlace) : Command → Bool
  | .backing work => place.any work.isAt && (work.kind = .unmap || work.kind = .release)
  | _ => false

def Stage.unwinds : Stage → Bool
  | .unmapping | .releasing => true
  | _ => false

theorem stageCommand_gives {x : Config} {l : Load} {route : Route} {command : Command}
    (h : stageCommand x l = .ok (route, command)) (hstage : l.stage.unwinds = true) :
    command.gives l.source.backing = true := by
  unfold stageCommand at h
  cases hs : l.stage <;> rw [hs] at hstage <;> try cases hstage
  all_goals
    rw [hs] at h
    rcases hb : l.source.backing with _ | _
    · rw [hb] at h
      cases h
    rw [hb] at h
    cases h
    simp [Command.gives, BackingWork.isAt]

/-! ## What is said of one call -/

def Ended (e : ExtentId) (s' : Scheduler) (events : List Event) : Prop :=
  ∃ r, s'.catalog.extents.find? e = some r ∧
    (r.view.state = .nonresident ∨ r.view.state = .quarantined ∨
      (r.view.state = .resident ∧ Event.resident e ∈ events))

def TurnsBack (e : ExtentId) (l : Load) (y : Scheduler × List Work) (events : List Event) : Prop :=
  (y.1.loads.find? e = none ∧ Ended e y.1 events) ∨
    ∃ l', y.1.loads.find? e = some l' ∧ l'.ticket = l.ticket ∧ l'.source = l.source ∧
      l'.cancelling = true ∧
      (l'.stage.unwinds = true ∨ Work.unwind e ∈ y.2 ∨ Work.endLoad e ∈ y.2)

theorem TurnsBack.more {e : ExtentId} {l : Load} {y : Scheduler × List Work} {events : List Event}
    (h : TurnsBack e l y events) (before : List Event) : TurnsBack e l y (events ++ before) := by
  refine h.imp ?_ fun h => h
  rintro ⟨hnone, r, hr, hstate⟩
  refine ⟨hnone, r, hr, hstate.imp_right ?_⟩
  exact Or.imp_right fun h => ⟨h.1, mem_append_left _ h.2⟩

def Stays (e : ExtentId) (l : Load) (s' : Scheduler) : Prop :=
  ∃ l', s'.loads.find? e = some l' ∧ l'.ticket = l.ticket ∧ l'.source = l.source ∧
    l'.cancelling = true ∧ l'.stage = l.stage ∧ l'.operation = l.operation

structure Calls (y : Scheduler × List Work) : Prop where
  proceeds : ∀ e l, Work.proceed e ∈ y.2 → y.1.loads.find? e = some l → l.cancelling = false
  publishes : ∀ id, Work.publish id ∈ y.2 → ∃ (ops : List (Option Operation)) (op : Operation),
    y.1.operations = ops.set id.index (some op) ∧ (op.kind = .load → ∀ l,
      y.1.loads.find? op.extent = some l → l.cancelling = true → l.stage.unwinds = true)

/-- A call that spares the withdrawn loads; `begins` is that it may begin others. -/
structure SparesBy (begins : Bool) (s : Scheduler) (y : Scheduler × List Work)
    (events : List Event) : Prop where
  log : y.1.log = events ++ s.log
  opens : ∀ e l, s.loads.find? e = some l → l.cancelling = true → ∀ event ∈ events, ∀ command,
    event.opensLoad e = some command → command.gives l.source.backing = true
  withdrawn : ∀ e l, s.loads.find? e = some l → l.cancelling = true →
    Stays e l y.1 ∨ TurnsBack e l y events
  marks : ∀ e l', y.1.loads.find? e = some l' → l'.cancelling = true →
    ∃ l, s.loads.find? e = some l ∧ l.cancelling = true
  wanted : ∀ e l', y.1.loads.find? e = some l' → l'.cancelling = false →
    l'.waiters ≠ [] ∨
      ∃ l, s.loads.find? e = some l ∧ l.cancelling = false ∧ l'.waiters = l.waiters
  took : ∀ id command, Event.took id command ∉ events
  calls : Calls y
  steady : begins = false → ∀ e, s.loads.find? e = none → y.1.loads.find? e = none

abbrev Spares : Scheduler → Scheduler × List Work → List Event → Prop := SparesBy false

def Spared (s : Scheduler) : Ran → Prop :=
  Sat (fun _ => True) fun y => ∃ events, Spares s y events

theorem Calls.none (s : Scheduler) : Calls (s, []) :=
  ⟨fun _ _ h => absurd h (not_mem_nil), fun _ h => absurd h (not_mem_nil)⟩

theorem Calls.append {s : Scheduler} {c c' : List Work} (h : Calls (s, c)) (h' : Calls (s, c')) :
    Calls (s, c ++ c') where
  proceeds e l hmem hl := (mem_append.mp hmem).elim (h.proceeds e l · hl) (h'.proceeds e l · hl)
  publishes id hmem := (mem_append.mp hmem).elim (h.publishes id) (h'.publishes id)

theorem Calls.plain {s : Scheduler} {c : List Work}
    (h : ∀ w ∈ c, (∀ e, w ≠ .proceed e) ∧ ∀ id, w ≠ .publish id) : Calls (s, c) where
  proceeds e _ hmem _ := absurd rfl ((h _ hmem).1 e)
  publishes id hmem := absurd rfl ((h _ hmem).2 id)

/-! ## Calls that have nothing to do with loads -/

structure Aside (s s' : Scheduler) : Prop where
  loads : s'.loads = s.loads
  log : ∃ events, s'.log = events ++ s.log ∧ ∀ event ∈ events, event.plain = true

section Aside

variable {s s1 s' : Scheduler}

theorem Aside.of (loads : s'.loads = s.loads) (log : s'.log = s.log) : Aside s s' :=
  ⟨loads, [], log, fun _ h => absurd h (not_mem_nil)⟩

theorem Aside.refl (s : Scheduler) : Aside s s := .of rfl rfl

theorem Aside.event {event : Event} (loads : s'.loads = s.loads) (log : s'.log = event :: s.log)
    (h : event.plain = true) : Aside s s' :=
  ⟨loads, [event], log, fun _ hmem => mem_singleton.mp hmem ▸ h⟩

theorem Aside.trans (h : Aside s s1) (h' : Aside s1 s') : Aside s s' := by
  obtain ⟨events, hlog, hnone⟩ := h.log
  obtain ⟨events', hlog', hnone'⟩ := h'.log
  refine ⟨h'.loads.trans h.loads, events' ++ events, ?_, ?_⟩
  · rw [hlog', hlog, append_assoc]
  intro event hmem
  exact (mem_append.mp hmem).elim (hnone' event) (hnone event)

theorem Aside.before (h : Aside s1 s') (loads : s1.loads = s.loads) (log : s1.log = s.log) :
    Aside s s' := (Aside.of loads log).trans h

theorem Woken.aside (h : Woken s s') : Aside s s' := by
  obtain ⟨records, ready, rfl⟩ := h.eq
  exact .of rfl rfl

variable {b : Bool}

variable {y : Scheduler × List Work}

theorem Aside.spares (h : Aside s y.1) (hc : Calls y) : ∃ events, SparesBy b s y events := by
  obtain ⟨events, hlog, hnone⟩ := h.log
  refine ⟨events, hlog, ?_, ?_, ?_, ?_, ?_, hc, fun _ e he => by rw [h.loads]; exact he⟩
  · intro e l _ _ event hmem command hcom
    rw [Event.opensLoad_of_plain (hnone event hmem) e] at hcom
    cases hcom
  · intro e l hl hcan
    exact .inl ⟨l, by rw [h.loads]; exact hl, rfl, rfl, hcan, rfl, rfl⟩
  · intro e l' hl' hcan
    rw [h.loads] at hl'
    exact ⟨l', hl', hcan⟩
  · intro e l' hl' hwan
    rw [h.loads] at hl'
    exact .inr ⟨l', hl', hwan, rfl⟩
  intro id command hmem
  exact Event.took_of_plain (hnone _ hmem) id command rfl

variable {events : List Event}

theorem SparesBy.after
    (h : Aside s s1) (hy : SparesBy b s1 y events) : ∃ events, SparesBy b s y events := by
  obtain ⟨before, hlog, hnone⟩ := h.log
  refine ⟨events ++ before, ?_, ?_, ?_, ?_, ?_, ?_, hy.calls, ?_⟩
  · rw [hy.log, hlog, append_assoc]
  · intro e l hl hcan event hmem command hcom
    rcases mem_append.mp hmem with hmem | hmem
    · exact hy.opens e l (by rw [h.loads]; exact hl) hcan event hmem command hcom
    rw [Event.opensLoad_of_plain (hnone event hmem) e] at hcom
    cases hcom
  · intro e l hl hcan
    exact (hy.withdrawn e l (by rw [h.loads]; exact hl) hcan).imp_right (·.more before)
  · intro e l' hl' hcan
    rw [← h.loads]
    exact hy.marks e l' hl' hcan
  · intro e l' hl' hwan
    rw [← h.loads]
    exact hy.wanted e l' hl' hwan
  · intro id command hmem
    rcases mem_append.mp hmem with hmem | hmem
    · exact hy.took id command hmem
    · exact Event.took_of_plain (hnone _ hmem) id command rfl
  intro hb e he
  exact hy.steady hb e (by rw [h.loads]; exact he)

variable {ran : Ran}

theorem Spared.after (h : Aside s s1) (hran : Spared s1 ran) : Spared s ran :=
  hran.imp fun _ ⟨_, hy⟩ => hy.after h

theorem SparesBy.first {s' : Scheduler} {c c' : List Work} (h : SparesBy b s (s', c') events)
    (hc : ∀ w ∈ c, (∀ e, w ≠ .proceed e) ∧ ∀ id, w ≠ .publish id) :
    SparesBy b s (s', c ++ c') events where
  log := h.log
  opens := h.opens
  withdrawn e l hl hcan := by
    refine (h.withdrawn e l hl hcan).imp_right (Or.imp_right ?_)
    rintro ⟨l', hl', hticket, hsource, hc', hback⟩
    refine ⟨l', hl', hticket, hsource, hc', hback.imp_right ?_⟩
    exact Or.imp (mem_append_right _) (mem_append_right _)
  marks := h.marks
  wanted := h.wanted
  took := h.took
  calls := (Calls.plain hc).append h.calls
  steady := h.steady

def Apart (s : Scheduler) : Ran → Prop :=
  Sat (fun _ => True) fun y => Aside s y.1 ∧ Calls y

theorem Apart.spared (h : Apart s ran) : Spared s ran := h.imp fun _ hy => hy.1.spares hy.2

theorem Apart.after (h : Aside s s1) (hran : Apart s1 ran) : Apart s ran :=
  hran.imp fun _ hy => ⟨h.trans hy.1, hy.2⟩

theorem Apart.before (h : Apart s1 ran) (loads : s1.loads = s.loads)
    (log : s1.log = s.log) : Apart s ran := h.after (.of loads log)

theorem wake_aside (t : TaskId) (failed : Bool) : Sat (fun _ => True) (Aside s) (s.wake t failed) :=
  (wake_woken t failed).imp fun _ h => h.aside

theorem wakeAll_woken (waiters : List TaskId) (failed : TaskId → Bool) :
    Sat (fun _ => True) (Woken s) (s.wakeAll waiters failed) := by
  refine Sat.foldlM (I := fun _ => Woken s) ?_ (.refl s)
  intro s1 t _ h
  exact (wake_woken t (failed t)).imp fun _ h' => h.trans h'

end Aside

/-! ## Evictions -/

section Evictions

variable {x : Config} {s : Scheduler}

theorem nextSlotWaiter_calls (s : Scheduler) :
    ∀ waiters : List ExtentId, ∀ w ∈ (s.nextSlotWaiter waiters).1, (∀ id, w ≠ .publish id) ∧
      ∀ e l, w = .proceed e → s.loads.find? e = some l → l.cancelling = false := by
  intro waiters
  induction waiters with
  | nil =>
    intro w hw
    cases hw
  | cons e rest ih =>
    intro w hw
    unfold nextSlotWaiter at hw
    split at hw
    next hload =>
      cases hw
      refine ⟨by simp, ?_⟩
      intro e' l h hl
      cases h
      rw [hl] at hload
      simpa using hload
    split at hw
    · cases hw
      exact ⟨by simp, by simp⟩
    · exact ih w hw

theorem freeSlot_apart (s : Scheduler) (slot : Nat) : Apart s (s.freeSlot slot) := by
  unfold freeSlot
  split
  · refine ⟨.of rfl rfl, ?_, ?_⟩
    · intro e l hmem hl
      exact (nextSlotWaiter_calls s s.slotWaiters _ (Option.mem_toList.mp hmem)).2 e l rfl hl
    intro id hmem
    exact absurd rfl ((nextSlotWaiter_calls s s.slotWaiters _ (Option.mem_toList.mp hmem)).1 id)
  · trivial

/-- A call leaves loads as they were, and makes none but to pump the releases. -/
structure Pumping (s : Scheduler) (y : Scheduler × List Work) : Prop where
  aside : Aside s y.1
  calls : ∀ w ∈ y.2, w = .pumpReleases

def Pumps (s : Scheduler) : Ran → Prop := Sat (fun _ => True) (Pumping s)

theorem Pumping.plain {s : Scheduler} {y : Scheduler × List Work} (h : Pumping s y) :
    ∀ w ∈ y.2, (∀ e, w ≠ .proceed e) ∧ ∀ id, w ≠ .publish id := by
  intro w hmem
  rw [h.calls w hmem]
  simp

theorem Pumps.apart {ran : Ran} (h : Pumps s ran) : Apart s ran :=
  h.imp fun _ hy => ⟨hy.aside, .plain hy.plain⟩

theorem pumpReleases_pumping (s : Scheduler) : Pumping s s.pumpReleases := by
  unfold pumpReleases
  split
  · exact ⟨.refl s, by simp⟩
  · exact ⟨.of rfl rfl, by simp⟩

theorem releaseDone_pumping (s : Scheduler) (v : Eviction) : Pumping s (s.releaseDone v) := by
  unfold releaseDone
  split
  · have h := pumpReleases_pumping { s with releasesOpen := s.releasesOpen - 1 }
    exact ⟨h.aside.before rfl rfl, h.calls⟩
  · exact ⟨.refl s, by simp⟩

theorem evictionOver_pumps {s1 : Scheduler} {waiters : List TaskId} {failed : TaskId → Bool}
    {v : Eviction} (h : Aside s s1) : Pumps s (do
      let s ← s1.wakeAll waiters failed
      return s.releaseDone v) := by
  refine Sat.bind (wakeAll_woken waiters failed) fun s2 hwoken => ?_
  have hdone := releaseDone_pumping s2 v
  exact ⟨(h.trans hwoken.aside).trans hdone.aside, hdone.calls⟩

theorem endEviction_pumps (s : Scheduler) (e : ExtentId) (evicted : Bool) :
    Pumps s (s.endEviction e evicted) := by
  unfold endEviction
  rcases s.evictions.find? e with _ | _
  · trivial
  simp only [require, ok_bind]
  unfold check
  split
  · simp only [ok_bind]
    refine Sat.bind .any fun y _ => ?_
    refine evictionOver_pumps (.event rfl rfl ?_)
    cases evicted <;> rfl
  · trivial

theorem endEviction_apart (s : Scheduler) (e : ExtentId) (evicted : Bool) :
    Apart s (s.endEviction e evicted) := (endEviction_pumps s e evicted).apart

theorem quarantineEvicting_apart (s : Scheduler) (e : ExtentId) (fault : Fault) :
    Apart s (s.quarantineEvicting e fault) := by
  unfold quarantineEvicting
  simp only
  rcases (s.fail fault).evictions.find? e with _ | v
  · exact ⟨.of rfl rfl, .none _⟩
  refine Sat.bind .any fun slots _ => ?_
  refine Sat.bind .any fun y _ => ?_
  refine Pumps.apart (evictionOver_pumps ?_)
  exact .event rfl rfl rfl

theorem openOperation_other {make : OperationId → Operation} (s : Scheduler)
    (h : ∀ id, (make id).kind ≠ .load) :
    Sat (fun _ => True) (fun y => Aside s y.2 ∧ Calls (y.2, [.publish y.1]))
      (s.openOperation make) := by
  unfold openOperation
  rcases s.board.open with _ | opened
  · trivial
  obtain ⟨id, board⟩ := opened
  refine ⟨.event rfl rfl ?_, ?_, ?_⟩
  · cases hkind : (make id).kind with
    | load => exact absurd hkind (h id)
    | _ => rfl
  · intro e l hmem
    simp at hmem
  intro id' hmem
  cases mem_singleton.mp hmem
  exact ⟨_, make id, rfl, fun hkind => absurd hkind (h id)⟩

theorem Calls.same {s s' : Scheduler} {c : List Work} (h : Calls (s, c)) (hloads : s'.loads = s.loads)
    (hops : s'.operations = s.operations) : Calls (s', c) where
  proceeds e l hmem hl := h.proceeds e l hmem (hloads ▸ hl)
  publishes id hmem := by
    obtain ⟨ops, op, heq, hstage⟩ := h.publishes id hmem
    refine ⟨ops, op, hops.trans heq, ?_⟩
    intro hkind l hl
    exact hstage hkind l (hloads ▸ hl)

theorem openEvictStage_apart (s : Scheduler) (e : ExtentId) (v : Eviction) :
    Sat (fun _ => True) (fun o => ∀ y, o = some y → Aside s y.1 ∧ Calls y)
      (openEvictStage x s e v) := by
  unfold openEvictStage
  split
  · split
    · intro y hy
      cases hy
    split
    · refine Sat.bind (quarantineEvicting_apart s e .exhausted) fun y hy => ?_
      intro y' hy'
      cases hy'
      exact hy
    split
    · refine Sat.bind (endEviction_apart s e false) fun y hy => ?_
      intro y' hy'
      cases hy'
      exact hy
    cases v.slot with
    | none =>
      refine Sat.bind (endEviction_apart s e false) fun y hy => ?_
      intro y' hy'
      cases hy'
      exact hy
    | some slot =>
      refine Sat.bind (freeSlot_apart _ slot) fun y hy => ?_
      intro y' hy'
      cases hy'
      exact ⟨hy.1.before rfl rfl, hy.2.append (.plain (by simp))⟩
  rcases s.sources.find? e with _ | place
  · trivial
  simp only [require, ok_bind]
  rcases evictCommand x v place with _ | routed
  · trivial
  simp only [ok_bind]
  refine Sat.bind (openOperation_other s fun _ => by simp) fun y hy => ?_
  intro y' hy'
  cases hy'
  exact ⟨hy.1.trans (.of rfl rfl), hy.2.same rfl rfl⟩

theorem openEvictOrBlock_apart (s : Scheduler) (e : ExtentId) (v : Eviction) :
    Apart s (openEvictOrBlock x s e v) := by
  refine Sat.bind (openEvictStage_apart s e v) fun o ho => ?_
  cases o with
  | none => exact ⟨.of rfl rfl, .none _⟩
  | some y => exact ho y rfl

theorem proceedEviction_apart (s : Scheduler) (e : ExtentId) : Apart s (proceedEviction x s e) := by
  unfold proceedEviction
  rcases s.evictions.find? e with _ | _
  · exact ⟨.refl s, .none s⟩
  simp only
  split
  · cases s.freeSlot? with
    | none => exact ⟨.of rfl rfl, .none _⟩
    | some => exact (openEvictOrBlock_apart _ e _).before rfl rfl
  · trivial

theorem releaseParked_pumps (s : Scheduler) (task : Option TaskId) :
    Pumps s (s.releaseParked task) := by
  have hfold : Sat (fun _ => True) (Aside s) ((s.parkedBy task).foldlM queueRelease s) := by
    refine Sat.foldlM (I := fun _ => Aside s) ?_ (.refl s)
    intro s1 e _ h
    unfold queueRelease
    cases s1.evictions.find? e with
    | none => trivial
    | some => exact h.trans (.of rfl rfl)
  refine Sat.bind hfold fun s1 h => ?_
  have hpump := pumpReleases_pumping s1
  exact ⟨h.trans hpump.aside, hpump.calls⟩

theorem pumpRelease_apart (s : Scheduler) : Apart s (pumpRelease x s) := by
  unfold pumpRelease
  rcases s.releaseQueue with _ | ⟨e, _⟩
  · exact ⟨.of rfl rfl, .none _⟩
  simp only
  split
  · rcases s.evictions.find? e with _ | _
    · exact ⟨.of rfl rfl, .plain (by simp)⟩
    simp only
    split
    · exact ⟨.of rfl rfl, .plain (by simp)⟩
    refine Sat.bind (openEvictOrBlock_apart _ e _) fun y hy => ?_
    exact ⟨hy.1.before rfl rfl, hy.2.append (.plain (by simp))⟩
  · exact ⟨.of rfl rfl, .none _⟩

theorem park_apart (s : Scheduler) (e : ExtentId) : Apart s (s.park e) := by
  unfold park
  rcases s.evictions.find? e with _ | v
  · trivial
  rcases s.sources.find? e with _ | _
  · trivial
  simp only [require, ok_bind]
  refine Sat.bind (wakeAll_woken v.waiters _) fun s1 hwoken => ?_
  have h : Aside s s1 := hwoken.aside.before rfl rfl
  split
  · exact (releaseParked_pumps s1 _).apart.after h
  · exact ⟨h, .none s1⟩

theorem wroteBack_apart (s : Scheduler) (e : ExtentId) (whole : Bool) :
    Apart s (wroteBack x s e whole) := by
  unfold wroteBack
  rcases s.evictions.find? e with _ | _
  · trivial
  rcases s.sources.find? e with _ | _
  · trivial
  simp only [require, ok_bind]
  split
  · exact endEviction_apart s e false
  split
  · exact endEviction_apart s e true
  · exact (openEvictOrBlock_apart _ e _).before rfl rfl

theorem onEvicted_apart (s : Scheduler) (e : ExtentId) (outcome : Outcome) (bytes : Nat) :
    Apart s (onEvicted x s e outcome bytes) := by
  unfold onEvicted
  rcases s.evictions.find? e with _ | v
  · trivial
  rcases s.sources.find? e with _ | place
  · trivial
  simp only [require, ok_bind]
  split
  case h_1 | h_2 =>
    split
    · exact (openEvictOrBlock_apart _ e _).before rfl rfl
    cases v.slot with
    | none => exact (wroteBack_apart _ e _).before rfl rfl
    | some slot =>
      refine Sat.bind (freeSlot_apart _ slot) fun y hy => ?_
      exact ⟨hy.1.before rfl rfl, hy.2.append (.plain (by simp))⟩
  case h_3 =>
    split
    · exact (park_apart _ e).before rfl rfl
    · exact (endEviction_apart _ e _).before rfl rfl
  case h_4 =>
    split
    · exact (endEviction_apart _ e true).before rfl rfl
    · exact (quarantineEvicting_apart _ e .backing).before rfl rfl
  all_goals trivial

theorem endParked_pumps (s : Scheduler) (e : ExtentId) : Pumps s (s.endParked e) := by
  unfold endParked
  rcases s.evictions.find? e with _ | _
  · trivial
  simp only [require, ok_bind]
  unfold check
  split
  · refine (endEviction_pumps _ e true).imp fun y hy => ?_
    exact ⟨hy.aside.before rfl rfl, hy.calls⟩
  · trivial

end Evictions

/-! ## Loads -/

structure Ticketed (s : Scheduler) (e : ExtentId) (l : Load) : Prop where
  found : s.loads.find? e = some l
  reach : Catalog.Reachable s.catalog
  ticket : ∃ r, Catalog.Loads s.catalog e l.ticket r

/-- The call is about one extent's load, `l`: what it opens is that load's, and a withdrawn one
    turns back. -/
structure ActsOn (e : ExtentId) (l : Load) (s : Scheduler) (y : Scheduler × List Work)
    (events : List Event) : Prop where
  found : s.loads.find? e = some l
  log : y.1.log = events ++ s.log
  others : ∀ e', e' ≠ e → y.1.loads.find? e' = s.loads.find? e'
  opens : ∀ event ∈ events, ∀ e' command, event.opensLoad e' = some command →
    e' = e ∧ (l.cancelling = true → command.gives l.source.backing = true)
  withdrawn : l.cancelling = true → TurnsBack e l y events
  wanted : l.cancelling = false → ∀ l', y.1.loads.find? e = some l' →
    l'.cancelling = false ∧ l'.waiters = l.waiters
  took : ∀ id command, Event.took id command ∉ events
  calls : Calls y

def Acted (e : ExtentId) (l : Load) (s : Scheduler) : Ran → Prop :=
  Sat (fun _ => True) fun y => ∃ events, ActsOn e l s y events

section Loads

variable {x : Config} {s s1 : Scheduler} {e : ExtentId} {l l1 : Load}

variable {y : Scheduler × List Work} {events : List Event}

theorem ActsOn.spares (h : ActsOn e l s y events) : Spares s y events := by
  refine ⟨h.log, ?_, ?_, ?_, ?_, h.took, h.calls, ?_⟩
  · intro e' l' hl' hcan event hmem command hcom
    obtain ⟨rfl, hgives⟩ := h.opens event hmem e' command hcom
    cases h.found.symm.trans hl'
    exact hgives hcan
  · intro e' l' hl' hcan
    by_cases he : e' = e
    · subst he
      cases h.found.symm.trans hl'
      exact .inr (h.withdrawn hcan)
    · exact .inl ⟨l', (h.others e' he).trans hl', rfl, rfl, hcan, rfl, rfl⟩
  · intro e' l' hl' hcan
    by_cases he : e' = e
    · subst he
      cases hwan : l.cancelling with
      | true => exact ⟨l, h.found, hwan⟩
      | false =>
        rw [(h.wanted hwan l' hl').1] at hcan
        cases hcan
    rw [h.others e' he] at hl'
    exact ⟨l', hl', hcan⟩
  · intro e' l' hl' hwan
    by_cases he : e' = e
    · subst he
      cases hc : l.cancelling with
      | true =>
        rcases h.withdrawn hc with ⟨hnone, -⟩ | ⟨l2, hl2, -, -, hc2, -⟩
        · cases hnone.symm.trans hl'
        cases hl2.symm.trans hl'
        rw [hwan] at hc2
        cases hc2
      | false => exact .inr ⟨l, h.found, hc, (h.wanted hc l' hl').2⟩
    rw [h.others e' he] at hl'
    exact .inr ⟨l', hl', hwan, rfl⟩
  intro _ e' hnone
  have he : e' ≠ e := by
    rintro rfl
    cases h.found.symm.trans hnone
  exact (h.others e' he).trans hnone

variable {ran : Ran}

theorem Acted.spared (h : Acted e l s ran) : Spared s ran :=
  h.imp fun _ ⟨events, hy⟩ => ⟨events, hy.spares⟩

theorem ActsOn.before (h : ActsOn e l1 s1 y events) (found : s.loads.find? e = some l)
    (others : ∀ e', e' ≠ e → s1.loads.find? e' = s.loads.find? e') (log : s1.log = s.log)
    (ticket : l1.ticket = l.ticket) (source : l1.source = l.source)
    (cancelling : l1.cancelling = l.cancelling) (waiters : l1.waiters = l.waiters) :
    ActsOn e l s y events where
  found := found
  log := log ▸ h.log
  others e' he := (h.others e' he).trans (others e' he)
  opens event hmem e' command hcom := by
    rw [← cancelling, ← source]
    exact h.opens event hmem e' command hcom
  withdrawn hc := by
    refine (h.withdrawn (cancelling.trans hc)).imp_right ?_
    rintro ⟨l', hl', hticket, hsource, hrest⟩
    exact ⟨l', hl', hticket.trans ticket, hsource.trans source, hrest⟩
  wanted hc := by
    rw [← waiters]
    exact h.wanted (cancelling.trans hc)
  took := h.took
  calls := h.calls

theorem ActsOn.after (h : Aside s s1)
    (hy : ActsOn e l s1 y events) : ∃ events, ActsOn e l s y events := by
  obtain ⟨before, hlog, hnone⟩ := h.log
  refine ⟨events ++ before, ?_, ?_, ?_, ?_, ?_, hy.wanted, ?_, hy.calls⟩
  · rw [← h.loads]
    exact hy.found
  · rw [hy.log, hlog, append_assoc]
  · intro e' he
    rw [hy.others e' he, h.loads]
  · intro event hmem e' command hcom
    rcases mem_append.mp hmem with hmem | hmem
    · exact hy.opens event hmem e' command hcom
    rw [Event.opensLoad_of_plain (hnone event hmem) e'] at hcom
    cases hcom
  · intro hc
    exact (hy.withdrawn hc).more before
  intro id command hmem
  rcases mem_append.mp hmem with hmem | hmem
  · exact hy.took id command hmem
  · exact Event.took_of_plain (hnone _ hmem) id command rfl

theorem Acted.after (h : Aside s s1) (hran : Acted e l s1 ran) : Acted e l s ran :=
  hran.imp fun _ ⟨_, hy⟩ => hy.after h

theorem Acted.same (h : Acted e l s1 ran) (found : s.loads.find? e = some l)
    (loads : ∀ e', s1.loads.find? e' = s.loads.find? e') (log : s1.log = s.log) :
    Acted e l s ran := by
  refine h.imp fun _ hy => ?_
  obtain ⟨events, hy⟩ := hy
  exact ⟨events, hy.before found (fun e' _ => loads e') log rfl rfl rfl rfl⟩

theorem Ticketed.set (h : Ticketed s e l) (ticket : l1.ticket = l.ticket) :
    Ticketed (s.setLoad e l1) e l1 where
  found := OrdMap.find?_insert_self _ _ _
  reach := h.reach
  ticket := by
    rw [ticket]
    exact h.ticket

theorem Acted.set (hran : Ticketed (s.setLoad e l1) e l1 → Acted e l1 (s.setLoad e l1) ran)
    (h : Ticketed s e l) (ticket : l1.ticket = l.ticket) (source : l1.source = l.source)
    (cancelling : l1.cancelling = l.cancelling) (waiters : l1.waiters = l.waiters) :
    Acted e l s ran := by
  refine (hran (h.set ticket)).imp fun _ hy => ?_
  obtain ⟨events, hy⟩ := hy
  refine ⟨events, hy.before h.found ?_ rfl ticket source cancelling waiters⟩
  intro e' he
  exact OrdMap.find?_insert_ne he

variable {s1 : Scheduler}

theorem loadOver_acted {waiters : List TaskId} {failed : TaskId → Bool} {started : Bool}
    {event : Event} (found : s.loads.find? e = some l) (loads : s1.loads = s.loads.erase e)
    (log : s1.log = event :: s.log) (plain : event.plain = true) (ended : Ended e s1 [event]) :
    Acted e l s (do
      let s ← s1.wakeAll waiters failed
      let s := { s with started := if started then s.started - 1 else s.started }
      return (s, [.startQueued])) := by
  refine Sat.bind (wakeAll_woken waiters failed) fun s2 hwoken => ?_
  obtain ⟨records, ready, rfl⟩ := hwoken.eq
  have hgone : s1.loads.find? e = none := by
    rw [loads]
    exact OrdMap.find?_erase_self _ _
  refine ⟨[event], found, log, ?_, ?_, fun _ => .inl ⟨hgone, ended⟩, ?_, ?_, .plain (by simp)⟩
  · intro e' he
    rw [loads]
    exact OrdMap.find?_erase_ne he
  · intro event' hmem e' command hcom
    rw [mem_singleton.mp hmem, Event.opensLoad_of_plain plain e'] at hcom
    cases hcom
  · intro _ l' hl'
    cases hgone.symm.trans hl'
  intro id command hmem
  exact Event.took_of_plain plain id command (mem_singleton.mp hmem).symm

theorem endLoad_acted (h : Ticketed s e l) (loaded : Bool) : Acted e l s (s.endLoad e loaded) := by
  obtain ⟨r, hticket⟩ := h.ticket
  unfold endLoad
  rw [h.found]
  simp only [require, ok_bind]
  unfold check
  split
  · simp only [ok_bind]
    -- The catalog's part asks nothing of the phase but what ending needs.
    let p : LoadPhase :=
      { source := l.source, preserved := false, reuse := false, progress := .whole }
    have hwhole : loaded = true → p.progress = .whole := fun _ => rfl
    have hset := settleLoad_sat hticket h.reach rfl hwhole (fun _ => ⟨rfl, rfl⟩)
    refine Sat.bind (hset.mono (fun _ _ => trivial) fun _ hy => hy.2) fun y hy => ?_
    obtain ⟨r', hedit, hend⟩ := hy
    refine loadOver_acted h.found rfl rfl ?_ ⟨r', find_edit_self hedit hticket.found, ?_⟩
    · cases loaded <;> rfl
    cases loaded with
    | true =>
      cases hend with
      | whole => exact .inr (.inr ⟨rfl, mem_singleton.mpr rfl⟩)
    | false =>
      cases hend with
      | failed => exact .inl rfl
  · trivial

theorem quarantineLoad_acted (h : Ticketed s e l) (fault : Fault) :
    Acted e l s (s.quarantineLoad e fault) := by
  obtain ⟨r, hticket⟩ := h.ticket
  unfold quarantineLoad
  have hfound : (s.fail fault).loads.find? e = some l := h.found
  simp only [hfound]
  refine Sat.bind .any fun slots _ => ?_
  have hlost := loseLoad_sat hticket h.reach
  refine Sat.bind (hlost.mono (fun _ _ => trivial) fun _ hy => hy.2) fun y hedit => ?_
  refine loadOver_acted h.found rfl rfl rfl ⟨_, find_edit_self hedit hticket.found, ?_⟩
  exact .inr (.inl rfl)

theorem openStage_acted (h : Ticketed s e l)
    (hstage : l.cancelling = true → l.stage.unwinds = true) :
    Sat (fun _ => True) (fun o => ∀ y, o = some y → ∃ events, ActsOn e l s y events)
      (openStage x s e l) := by
  unfold openStage
  split
  · split
    · refine Sat.bind (quarantineLoad_acted h .exhausted) fun y hy => ?_
      intro y' hy'
      cases hy'
      exact hy
    intro y hy
    cases hy
  rcases hcom : stageCommand x l with _ | routed
  · trivial
  obtain ⟨route, command⟩ := routed
  unfold openOperation
  rcases s.board.open with _ | opened
  · trivial
  obtain ⟨id, board⟩ := opened
  intro y hy
  cases hy
  refine ⟨[.opened id .load e command], h.found, rfl, ?_, ?_, ?_, ?_, by simp, ?_, ?_⟩
  · intro e' he
    exact OrdMap.find?_insert_ne he
  · intro event hmem e' command' hopens
    rw [mem_singleton.mp hmem] at hopens
    simp only [Event.opensLoad] at hopens
    split at hopens
    next he =>
      cases hopens
      exact ⟨he.symm, fun hc => stageCommand_gives hcom (hstage hc)⟩
    next => cases hopens
  · intro hc
    exact .inr ⟨_, OrdMap.find?_insert_self _ _ _, rfl, rfl, hc, .inl (hstage hc)⟩
  · intro hc l' hl'
    cases (OrdMap.find?_insert_self _ _ _).symm.trans hl'
    exact ⟨hc, rfl⟩
  · intro e' l' hmem
    simp at hmem
  intro id' hmem
  cases mem_singleton.mp hmem
  refine ⟨_, _, rfl, ?_⟩
  intro _ l' hl' hc
  cases (OrdMap.find?_insert_self _ _ _).symm.trans hl'
  exact hstage hc

theorem openOrBlock_acted (h : Ticketed s e l)
    (hstage : l.cancelling = true → l.stage.unwinds = true) :
    Acted e l s (openOrBlock x s e l) := by
  refine Sat.bind (openStage_acted h hstage) fun o ho => ?_
  cases o with
  | some y => exact ho y rfl
  | none =>
    refine ⟨[], h.found, rfl, fun _ _ => rfl, ?_, ?_, ?_, by simp, .none _⟩
    · intro event hmem
      cases hmem
    · intro hc
      exact .inr ⟨l, h.found, rfl, rfl, hc, .inl (hstage hc)⟩
    intro hc l' hl'
    cases h.found.symm.trans hl'
    exact ⟨hc, rfl⟩

theorem unwind_acted (h : Ticketed s e l) : Acted e l s (unwind x s e) := by
  unfold unwind
  rw [h.found]
  simp only [require, ok_bind]
  split
  · exact Acted.set (fun h => endLoad_acted h false) h rfl rfl rfl rfl
  refine Acted.set (fun h => openOrBlock_acted h ?_) h rfl rfl rfl rfl
  intro _
  cases l.mapped <;> rfl

theorem freed_acted {slot : Nat} {w : Work} (h : Ticketed s e l) (ticket : l1.ticket = l.ticket)
    (source : l1.source = l.source) (cancelling : l1.cancelling = l.cancelling)
    (waiters : l1.waiters = l.waiters) (hw : w = .unwind e ∨ w = .endLoad e) : Acted e l s (do
      let (s, freed) ← freeSlot (s.setLoad e l1) slot
      return (s, freed ++ [w])) := by
  refine Sat.bind (freeSlot_apart _ slot) fun y hy => ?_
  obtain ⟨haside, hcalls⟩ := hy
  obtain ⟨events, hlog, hnone⟩ := haside.log
  have hself : y.1.loads.find? e = some l1 := by
    rw [haside.loads]
    exact OrdMap.find?_insert_self _ _ _
  refine ⟨events, h.found, hlog, ?_, ?_, ?_, ?_, ?_, hcalls.append (.plain ?_)⟩
  · intro e' he
    rw [haside.loads]
    exact OrdMap.find?_insert_ne he
  · intro event hmem e' command hcom
    rw [Event.opensLoad_of_plain (hnone event hmem) e'] at hcom
    cases hcom
  · intro hc
    refine .inr ⟨l1, hself, ticket, source, cancelling.trans hc, .inr ?_⟩
    have hmem : w ∈ y.2 ++ [w] := mem_append_right _ (mem_singleton.mpr rfl)
    rcases hw with rfl | rfl
    · exact .inl hmem
    · exact .inr hmem
  · intro hc l' hl'
    cases hself.symm.trans hl'
    exact ⟨cancelling.trans hc, waiters⟩
  · intro id command hmem
    exact Event.took_of_plain (hnone _ hmem) id command rfl
  intro w' hmem
  rw [mem_singleton.mp hmem]
  rcases hw with rfl | rfl <;> simp

theorem waits_acted {calls : List Work} (h : s.loads.find? e = some l)
    (hwan : l.cancelling = false) (self : s1.loads.find? e = some l1)
    (hl1 : l1.cancelling = false) (waiters : l1.waiters = l.waiters)
    (others : ∀ e', e' ≠ e → s1.loads.find? e' = s.loads.find? e') (log : s1.log = s.log)
    (hcalls : ∀ w ∈ calls, w = .proceed e) : ActsOn e l s (s1, calls) [] := by
  refine ⟨h, log, others, ?_, ?_, ?_, by simp, ?_, ?_⟩
  · intro event hmem
    cases hmem
  · intro hc
    rw [hwan] at hc
    cases hc
  · intro _ l' hl'
    cases self.symm.trans hl'
    exact ⟨hl1, waiters⟩
  · intro e' l' hmem hl'
    cases hcalls _ hmem
    cases self.symm.trans hl'
    exact hl1
  intro id hmem
  cases hcalls _ hmem

theorem onStage_acted (h : Ticketed s e l) (outcome : Outcome) (bytes : Nat) :
    Acted e l s (onStage x s e outcome bytes) := by
  unfold onStage
  rw [h.found]
  simp only [require, ok_bind]
  cases hstage : l.stage with
  | mapping =>
    simp only
    split
    · exact Acted.set (fun h => unwind_acted h) h rfl rfl rfl rfl
    cases hc : l.cancelling with
    | true =>
      exact Acted.set (fun h => unwind_acted h) h rfl rfl hc.symm rfl
    | false =>
      simp only [Bool.false_eq_true, if_false]
      split
      · refine ⟨[], waits_acted h.found hc (OrdMap.find?_insert_self _ _ _) rfl rfl ?_ rfl
          (by simp)⟩
        intro e' he
        exact OrdMap.find?_insert_ne he
      · exact Acted.set (fun h => openOrBlock_acted h (by simp)) h rfl rfl hc.symm rfl
  | reading =>
    simp only
    split
    · split
      · exact Acted.set (fun h => endLoad_acted h true) h rfl rfl rfl rfl
      · exact Acted.set (fun h => unwind_acted h) h rfl rfl rfl rfl
    split
    next hwhole =>
      refine Acted.set (fun h => openOrBlock_acted h ?_) h rfl rfl rfl rfl
      intro hc
      rw [hwhole.2] at hc
      cases hc
    cases l.slot with
    | none => trivial
    | some => exact freed_acted h rfl rfl rfl rfl (.inl rfl)
  | copying =>
    rcases l.slot with _ | _
    · trivial
    refine freed_acted h rfl rfl rfl rfl ?_
    split
    · exact .inr rfl
    · exact .inl rfl
  | unmapping | releasing =>
    simp only
    split
    · exact Acted.set (fun h => endLoad_acted h false) h rfl rfl rfl rfl
    · exact Acted.set (fun h => quarantineLoad_acted h .backing) h rfl rfl rfl rfl
  | queued | slot => trivial

theorem proceed_acted (h : Ticketed s e l) (hwan : l.cancelling = false) :
    Acted e l s (proceed x s e) := by
  unfold proceed
  rw [h.found]
  simp only
  cases hstage : l.stage with
  | queued =>
    simp only
    have hcoun : Ticketed
        { s with started := if l.source.landed = true then s.started + 1 else s.started } e l :=
      ⟨h.found, h.reach, h.ticket⟩
    split
    · exact Acted.same (Acted.set (fun h => openOrBlock_acted h (by simp [hwan])) hcoun rfl rfl
        rfl rfl) h.found (fun _ => rfl) rfl
    exact Acted.same (Acted.set (fun h => onStage_acted h .succeeded 0) hcoun rfl rfl rfl rfl)
      h.found (fun _ => rfl) rfl
  | slot =>
    rcases s.freeSlot? with _ | slot
    · exact ⟨[], waits_acted h.found hwan h.found hwan rfl (fun _ _ => rfl) rfl (by simp)⟩
    have hslot : Ticketed { s with slots := s.slots.set slot .busy } e l :=
      ⟨h.found, h.reach, h.ticket⟩
    exact Acted.same (Acted.set (fun h => openOrBlock_acted h (by simp [hwan])) hslot rfl rfl rfl rfl)
      h.found (fun _ => rfl) rfl
  | _ => trivial

theorem startQueued_apart (s : Scheduler) : Apart s s.startQueued := by
  unfold startQueued
  rcases s.queued with _ | ⟨e, queued⟩
  · exact ⟨.refl s, .none s⟩
  simp only
  split
  · split
    next hwan =>
      refine ⟨.of rfl rfl, ?_, ?_⟩
      · intro e' l hmem hl
        simp only [mem_cons, Work.proceed.injEq, not_mem_nil, or_false, reduceCtorEq] at hmem
        subst hmem
        have hl' : s.loads.find? e' = some l := hl
        rw [hl'] at hwan
        simpa using hwan
      intro id hmem
      simp at hmem
    next => exact ⟨.of rfl rfl, .plain (by simp)⟩
  · exact ⟨.refl s, .none s⟩

end Loads

/-! ## Operations -/

structure Tickets (s : Scheduler) : Prop where
  reach : Catalog.Reachable s.catalog
  ticket : ∀ e l, s.loads.find? e = some l → ∃ r, Catalog.Loads s.catalog e l.ticket r

section Operations

variable {x : Config} {s s1 : Scheduler} {op : Operation}

theorem Tickets.at (h : Tickets s) {e : ExtentId} {l : Load} (hl : s.loads.find? e = some l) :
    Ticketed s e l := ⟨hl, h.reach, h.ticket e l hl⟩

theorem Tickets.same (h : Tickets s) (catalog : s1.catalog = s.catalog)
    (loads : s1.loads = s.loads) : Tickets s1 where
  reach := catalog ▸ h.reach
  ticket e l hl := by
    rw [loads] at hl
    rw [catalog]
    exact h.ticket e l hl

theorem Good.tickets {work : List Work} (h : Good x s work none none) : Tickets s :=
  ⟨h.reach, h.agrees.loadTicket⟩

theorem Spared.before {ran : Ran} (h : Spared s1 ran) (aside : Aside s s1) : Spared s ran :=
  h.after aside

section OfLoad

variable {l : Load}

theorem quarantineOp_acted (h : Tickets s) (hkind : op.kind = .load)
    (hl : s.loads.find? op.extent = some l) (fault : Fault) :
    Acted op.extent l s (s.quarantine op fault) := by
  rw [quarantine_eq, hkind]
  have haside : Aside s (quarantining s op fault) := .event rfl rfl rfl
  have htick : Tickets (quarantining s op fault) := h.same rfl rfl
  exact (quarantineLoad_acted (htick.at hl) fault).after haside

theorem concludeOp_acted (h : Tickets s) (hkind : op.kind = .load)
    (hl : s.loads.find? op.extent = some l) (outcome : Outcome) (bytes : Nat) (proven : Bool) :
    Acted op.extent l s (conclude x s op outcome bytes proven) := by
  cases hclose : s.board.close op.id with
  | mk closed board =>
    cases closed with
    | false =>
      unfold conclude
      rw [hclose]
      exact quarantineOp_acted h hkind hl .contradiction
    | true =>
      rw [conclude_eq hclose, hkind]
      have haside : Aside s (concluded s op outcome bytes proven board) := .event rfl rfl rfl
      have htick : Tickets (concluded s op outcome bytes proven board) := h.same rfl rfl
      exact (onStage_acted (htick.at hl) outcome bytes).after haside

theorem rollBackOp_acted (h : Tickets s) (hkind : op.kind = .load)
    (hl : s.loads.find? op.extent = some l) : Acted op.extent l s (rollBack x s op) := by
  unfold rollBack
  rcases s.board.accept op.id .notStarted with _ | y
  · trivial
  obtain ⟨published, board⟩ := y
  simp only [ok_bind]
  unfold check
  split
  · have haside : Aside s { s with board } := .of rfl rfl
    have htick : Tickets { s with board } := h.same rfl rfl
    exact (concludeOp_acted htick hkind hl .failed 0 false).after haside
  · trivial

end OfLoad

theorem quarantineLoad_spared (h : Tickets s) (e : ExtentId) (fault : Fault) :
    Spared s (s.quarantineLoad e fault) := by
  cases hl : s.loads.find? e with
  | some => exact (quarantineLoad_acted (h.at hl) fault).spared
  | none =>
    unfold quarantineLoad
    have hnone : (s.fail fault).loads.find? e = none := hl
    simp only [hnone]
    have haside : Aside s (s.fail fault) := .of rfl rfl
    exact haside.spares (.none _)

theorem quarantine_spared (h : Tickets s) (op : Operation) (fault : Fault) :
    Spared s (s.quarantine op fault) := by
  rw [quarantine_eq]
  have haside : Aside s (quarantining s op fault) := .event rfl rfl rfl
  cases op.kind with
  | load =>
    refine (quarantineLoad_spared (s := quarantining s op fault) ?_ op.extent fault).before haside
    exact h.same rfl rfl
  | evict => exact (quarantineEvicting_apart _ op.extent fault).spared.before haside
  | device | cpu =>
    refine Spared.before (Sat.bind (wake_aside op.task true) fun s2 h2 => ?_) haside
    exact h2.spares (.none s2)

theorem releaseHeld_aside (s : Scheduler) (lease : LeaseId) (held : Held) :
    Sat (fun _ => True) (Aside s) (s.releaseHeld lease held) := by
  refine Sat.bind .any fun y _ => ?_
  refine Sat.bind .any fun y' _ => ?_
  refine (wakeAll_woken held.waiters _).imp fun s1 hwoken => ?_
  have haside : Aside s { s with
      catalog := y'.2, held := s.held.erase lease, log := .released lease :: s.log } :=
    .event rfl rfl rfl
  exact haside.trans hwoken.aside

theorem concludeHeld_aside (s : Scheduler) (lease : LeaseId) :
    Sat (fun _ => True) (Aside s) (s.concludeHeld lease) := by
  unfold concludeHeld
  rcases s.held.find? lease with _ | _
  · trivial
  simp only
  split
  · split
    · exact (releaseHeld_aside _ lease _).imp fun _ h => h.before rfl rfl
    · exact .of rfl rfl
  · trivial

theorem retireFrom_aside : ∀ (fuel : Nat) (t : TaskId) (s : Scheduler),
    Sat (fun _ => True) (Aside s) (retireFrom fuel t s) := by
  intro fuel
  induction fuel with
  | zero =>
    intro t s
    trivial
  | succ fuel ih =>
    intro t s
    unfold retireFrom
    split
    next view r _ _ =>
      rcases s.tasks.retire t with _ | y
      · trivial
      obtain ⟨answer, tasks⟩ := y
      rcases answer with _ | _
      · exact .refl s
      cases view.parent with
      | none => exact .of rfl rfl
      | some parent => exact (ih parent _).imp fun _ h => h.before rfl rfl
    next => exact .refl s

theorem concludeWork_aside (s : Scheduler) (op : Operation) (outcome : Outcome) :
    Sat (fun _ => True) (Aside s) (concludeWork s op outcome) := by
  have hwoken : ∀ s1, Aside s s1 → Sat (fun _ => True) (Aside s) (do
      let s ← s1.wake op.task (decide (outcome ≠ .succeeded))
      s.tryRetire op.task) := by
    intro s1 h1
    refine Sat.bind (wake_aside op.task _) fun s2 h2 => ?_
    exact (retireFrom_aside _ op.task s2).imp fun _ h3 => (h1.trans h2).trans h3
  unfold concludeWork
  cases op.held with
  | some held =>
    simp only [pure_bind]
    refine Sat.bind .any fun y _ => ?_
    obtain ⟨answer, tasks⟩ := y
    cases answer with
    | error => trivial
    | ok =>
      refine Sat.bind (concludeHeld_aside _ held) fun s1 h1 => ?_
      exact hwoken s1 (h1.before rfl rfl)
  | none =>
    rcases op.lease with _ | _
    · trivial
    simp only [require, ok_bind]
    refine Sat.bind .any fun y _ => ?_
    simp only [pure_bind]
    refine Sat.bind .any fun y _ => ?_
    obtain ⟨answer, tasks⟩ := y
    cases answer with
    | error => trivial
    | ok =>
      exact hwoken _ (.of rfl rfl)

theorem conclude_spared (h : Tickets s) (op : Operation) (outcome : Outcome) (bytes : Nat)
    (proven : Bool) : Spared s (conclude x s op outcome bytes proven) := by
  cases hclose : s.board.close op.id with
  | mk closed board =>
    cases closed with
    | false =>
      unfold conclude
      rw [hclose]
      exact quarantine_spared h op .contradiction
    | true =>
      rw [conclude_eq hclose]
      have haside : Aside s (concluded s op outcome bytes proven board) := .event rfl rfl rfl
      cases hkind : op.kind with
      | load =>
        cases hl : s.loads.find? op.extent with
        | none =>
          unfold onStage
          have hnone : (concluded s op outcome bytes proven board).loads.find? op.extent = none := hl
          rw [hnone]
          trivial
        | some =>
          have hacted := concludeOp_acted (x := x) h hkind hl outcome bytes proven
          have hrun : conclude x { s with board := s.board } op outcome bytes proven = _ :=
            conclude_eq hclose
          rw [hkind] at hrun
          exact (hrun ▸ hacted).spared
      | evict =>
        exact (onEvicted_apart _ op.extent outcome bytes).spared.before haside
      | device | cpu =>
        refine Sat.bind (concludeWork_aside _ op outcome) fun s1 h1 => ?_
        have hlog : Aside s { s with
            board, log := .concluded op.id op.kind op.extent outcome bytes proven :: s.log } :=
          .event rfl rfl rfl
        refine (hlog.trans ?_).spares (.none s1)
        rw [hkind]
        exact h1

theorem rollBack_spared (h : Tickets s) (op : Operation) : Spared s (rollBack x s op) := by
  unfold rollBack
  rcases s.board.accept op.id .notStarted with _ | y
  · trivial
  obtain ⟨published, board⟩ := y
  simp only [ok_bind]
  unfold check
  split
  · have haside : Aside s { s with board } := .of rfl rfl
    have htick : Tickets { s with board } := h.same rfl rfl
    exact (conclude_spared htick op .failed 0 false).before haside
  · trivial

theorem observe_spared (h : Tickets s) (seen : Observation) : Spared s (observe x s seen) := by
  unfold observe
  rcases s.find seen.operation with _ | op
  · exact (Aside.refl s).spares (.none s)
  simp only
  split
  · exact (Aside.refl s).spares (.none s)
  split
  · exact quarantine_spared h op .contradiction
  split
  · exact conclude_spared h op .failed 0 false
  split
  · exact (Aside.refl s).spares (.none s)
  · exact (Aside.refl s).spares (.none s)
  split
  · exact quarantine_spared h op .unproven
  · exact conclude_spared h op _ _ _

structure Takes (s : Scheduler) (s' : Scheduler) (op : Operation) : Prop where
  found : s.find op.id = some op
  loads : s'.loads = s.loads
  operations : s'.operations = s.operations.set op.id.index (some { op with published := true })
  log : s'.log = .took op.id op.command :: s.log

theorem publish_takes (h : Tickets s) (id : OperationId) (answer : PushResult) :
    Sat (fun _ => True) (fun y => (∃ events, Spares s y events) ∨
      y.2 = [] ∧ ∃ op, op.id = id ∧ Takes s y.1 op) (publish x s id answer) := by
  unfold publish
  rcases hfound : s.find id with _ | op
  · trivial
  simp only [require, ok_bind]
  have hkept : ∀ route ids, ∃ events, Spares s (s.setPending route ids, []) events :=
    fun route ids => (Aside.of rfl rfl : Aside s (s.setPending route ids)).spares (.none _)
  split
  · exact .inl (hkept _ _)
  split
  · obtain rfl := (find_eq_some.mp hfound).2.1
    exact .inr ⟨rfl, op, rfl, hfound, rfl, rfl, rfl⟩
  · exact .inl (hkept _ _)
  · exact (rollBack_spared h op).imp fun _ hy => .inl hy

end Operations
end JitLlm.Scheduler
