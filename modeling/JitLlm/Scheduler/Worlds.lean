import JitLlm.Scheduler.Calls

/-!
# Steps of the world

A step of the machine is a sequence of ways: the moves its calls are made of, and what only the
machine does, finishing a task, taking one from the ready queue, and a call of the owner's. What
is owed between two steps is what the loops in hand still owe: a `finished` its parent's wakeup
and the attempt to retire the task.

`Fine` is what holds between any two steps, and `Fine.step` that a step keeps it, is such a
sequence, and ends the process only as `Halts` says. What follows of a whole run is proved way by
way.
-/

namespace JitLlm.Scheduler

open Base Lib List
open Catalog hiding Operation Reachable

/-! ## Ways -/

/-- A call of the owner's, and a source registered, are among them only as a step with a label of
    `own`. -/
inductive Way (x : Config) (own : Set Label) : Scheduler → List Debt → Scheduler → List Debt → Prop
  | move {s s' : Scheduler} {k k' : List Debt} (moved : Move x s k s' k') : Way x own s k s' k'
  | finish {s : Scheduler} {k : List Debt} {t : TaskId} {outcome : TaskOutcome}
      {tasks : TaskTable} {r : TaskRecord} {view : TaskView} (found : s.record? t = some r)
      (unfinished : r.finished = false)
      (finished : s.tasks.finish t outcome = .ok (.ok (), tasks))
      (described : tasks.describe t = some view) :
      Way x own s k ({ s with tasks }.setRecord { r with finished := true })
        (.leave t :: .leaveHeld t :: (view.parent.toList.map .wake ++ .retire t :: k))
  | pop {s : Scheduler} {k : List Debt} {t : TaskId} {ready : ReadyQueue}
      (popped : s.tasks.ready.next = .ok (some (t, ready))) :
      Way x own s k { s with tasks := { s.tasks with ready } } k
  | owner {s s' : Scheduler} {k : List Debt} (op : Catalog.Op) (may : s.ownerMay op = true)
      (called : s.ownerCall op = .ok s') (asked : .catalog op ∈ own) : Way x own s k s' k
  | register {s : Scheduler} {k : List Debt} {e : ExtentId} {source : PageSource}
      (accepted : (setSource x s e source).1 = .ok ()) (asked : .setSource e source ∈ own) :
      Way x own s k (setSource x s e source).2 k

inductive Ways (x : Config) (own : Set Label) (s : Scheduler) (k : List Debt) :
    Scheduler → List Debt → Prop
  | refl : Ways x own s k s k
  | tail {s₁ s' : Scheduler} {k₁ k' : List Debt} :
      Ways x own s k s₁ k₁ → Way x own s₁ k₁ s' k' → Ways x own s k s' k'

variable {x : Config} {s s₁ s' : Scheduler} {k k₁ k' : List Debt}

variable {own : Set Label}

theorem Ways.trans (h : Ways x own s k s₁ k₁) (h' : Ways x own s₁ k₁ s' k') : Ways x own s k s' k' := by
  induction h' with
  | refl => exact h
  | tail _ hm ih => exact .tail ih hm

theorem Moves.ways (h : Moves x s k s' k') : Ways x ∅ s k s' k' := by
  induction h with
  | refl => exact .refl
  | tail _ hm ih => exact .tail ih (.move hm)

theorem Way.ways (h : Way x own s k s' k') : Ways x own s k s' k' := .tail .refl h

variable {own own' : Set Label}

theorem Way.mono (h : Way x own s k s' k') (hsub : own ⊆ own') : Way x own' s k s' k' := by
  cases h with
  | move moved => exact .move moved
  | finish found unfinished finished described => exact .finish found unfinished finished described
  | pop popped => exact .pop popped
  | owner op may called asked => exact .owner op may called (hsub asked)
  | register accepted asked => exact .register accepted (hsub asked)

theorem Ways.mono (h : Ways x own s k s' k') (hsub : own ⊆ own') : Ways x own' s k s' k' := by
  induction h with
  | refl => exact .refl
  | tail _ hm ih => exact .tail ih (hm.mono hsub)

/-- How a step may end the process: on a check out of reach, or, after some ways, on one of
    leases, wakeups or a task's operations. -/
def Halts (x : Config) (s : Scheduler) (k : List Debt) (f : Fatal) : Prop :=
  Fatal.outside f = true ∨ ∃ s₁ k₁, Ways x .univ s k s₁ k₁ ∧ Fires s₁ k₁ f

theorem Ends.halts {f : Fatal} (h : Ends x s k f) : Halts x s k f := by
  refine h.imp_right ?_
  rintro ⟨s₁, k₁, hm, hfires⟩
  exact ⟨s₁, k₁, hm.ways.mono (fun _ _ => trivial), hfires⟩

theorem Halts.after {f : Fatal} (h : Ways x own s k s₁ k₁) (hf : Halts x s₁ k₁ f) : Halts x s k f := by
  refine hf.imp_right ?_
  rintro ⟨s2, k2, hm, hfires⟩
  exact ⟨s2, k2, (h.mono fun _ _ => trivial).trans hm, hfires⟩

/-! ## What loops owe and need -/

def Control.debts : Control → List Debt
  | .finished t parent => parent.toList.map .wake ++ [.retire t]
  | _ => []

def World.debts (w : World) : List Debt := w.control.flatMap Control.debts

def Unfinished (s : Scheduler) (t : TaskId) : Prop :=
  ∃ r, s.record? t = some r ∧ r.finished = false

def Control.inStep (t : TaskId) : Control → Prop
  | .materialize t' _ _ => t' = t
  | .answer _ => True
  | _ => False

def Control.outside : Control → Prop
  | .materialize _ _ _ | .answer _ | .program _ => False
  | _ => True

def Shaped (control : List Control) : Prop :=
  (∀ c ∈ control, c.outside) ∨
    ∃ t calls, control = calls ++ [.program t] ∧ ∀ c ∈ calls, Control.inStep t c

theorem released_control (control : List Control) : released (control.flatMap Control.debts) := by
  intro lease hmem
  obtain ⟨c, -, hc⟩ := mem_flatMap.mp hmem
  cases c <;> simp [Control.debts] at hc

/-! ## What every way keeps -/

theorem TaskMove.eq (h : TaskMove s k s' k') : ∃ tasks records, s' = { s with tasks, records } := by
  cases h with
  | start created fresh ready | spawn created fresh parent ready | ready found ready =>
    obtain ⟨records, ready, rfl⟩ := ((makeReady_woken _).val ready).eq
    exact ⟨_, _, rfl⟩
  | awaitSignal | signal | note | cancel | retire | stay => exact ⟨_, _, rfl⟩

/-- A load is gone only with its end, and begins only from the source registered. -/
structure Files (s s' : Scheduler) (events : List Event) : Prop where
  log : s'.log = events ++ s.log
  kept : ∀ e l, s.loads.find? e = some l → (∃ l', s'.loads.find? e = some l') ∨
    ∃ event ∈ events, event.about = some e ∧ event.staged = false
  begun : ∀ e source preserved reuse, .begun e source preserved reuse ∈ events →
    (∃ l, s'.loads.find? e = some l) ∧ s.sources.find? e = some source

section Files

variable {s1 : Scheduler} {e : ExtentId} {load : Load} {events : List Event}

theorem Files.of (loads : s'.loads = s.loads) (log : s'.log = events ++ s.log)
    (hnone : ∀ e source preserved reuse, .begun e source preserved reuse ∉ events) :
    Files s s' events where
  log := log
  kept _ l hl := .inl ⟨l, loads ▸ hl⟩
  begun e source preserved reuse hmem := absurd hmem (hnone e source preserved reuse)

theorem join_kept (asker : TaskRecord) (hloads : s1.loads = s.loads) :
    (∀ e' l, s.loads.find? e' = some l → ∃ l', (s1.join e load asker).loads.find? e' = some l') ∧
      ∃ l', (s1.join e load asker).loads.find? e = some l' := by
  refine ⟨fun e' l hl => ?_, ⟨_, OrdMap.find?_insert_self _ _ _⟩⟩
  show ∃ l', (s1.loads.insert e _).find? e' = some l'
  rw [OrdMap.find?_insert, hloads]
  split
  · exact ⟨_, rfl⟩
  · exact ⟨l, hl⟩

theorem Move.files (h : Move x s k s' k') : ∃ events, Files s s' events := by
  cases h with
  | keep still work waits catalog log =>
    obtain ⟨events, hlog, hstaged⟩ := log
    refine ⟨events, hlog, fun e l hl => .inl ?_, fun e source preserved reuse hmem => ?_⟩
    · have hwait := waits.loads e
      rw [hl, Option.map_some, Option.map_eq_some_iff] at hwait
      exact hwait.imp fun _ hl' => hl'.1
    · exact absurd (hstaged _ hmem) (by simp [Event.staged])
  | wake t failed woken =>
    obtain ⟨records, ready, rfl⟩ := ((wake_woken t failed).val woken).eq
    exact ⟨[], .of rfl rfl (by simp)⟩
  | task moved =>
    obtain ⟨tasks, records, rfl⟩ := moved.eq
    exact ⟨[], .of rfl rfl (by simp)⟩
  | load begins reuse =>
    obtain ⟨hkept, hnew⟩ := join_kept _ begins.loads
    refine ⟨[_], begins.log, fun e l hl => .inl (hkept e l hl), fun e source preserved reuse hmem => ?_⟩
    simp only [mem_singleton, Event.begun.injEq] at hmem
    obtain ⟨rfl, rfl, -⟩ := hmem
    exact ⟨hnew, begins.source⟩
  | loadOwn handed begins reuse =>
    obtain ⟨hkept, hnew⟩ := join_kept _ (begins.loads.trans handed.ends.loads)
    refine ⟨[_, _], begins.log.trans (congrArg _ handed.ends.log), fun e l hl => .inl (hkept e l hl),
      fun e source preserved reuse hmem => ?_⟩
    simp only [mem_cons, Event.begun.injEq, reduceCtorEq, not_mem_nil, or_false] at hmem
    obtain ⟨rfl, rfl, -⟩ := hmem
    exact ⟨hnew, handed.ends.still.sources ▸ begins.source⟩
  | loadFrom other begins reuse handed =>
    obtain ⟨hkept, hnew⟩ := join_kept _ (handed.ends.loads.trans begins.loads)
    refine ⟨[_, _], handed.ends.log.trans (congrArg _ begins.log), fun e l hl => .inl (hkept e l hl),
      fun e source preserved reuse hmem => ?_⟩
    simp only [mem_cons, Event.begun.injEq, reduceCtorEq, not_mem_nil, or_false, false_or] at hmem
    obtain ⟨rfl, rfl, -⟩ := hmem
    exact ⟨hnew, begins.source⟩
  | joinLoad =>
    obtain ⟨hkept, -⟩ := join_kept _ rfl
    exact ⟨[], rfl, fun e l hl => .inl (hkept e l hl), by simp⟩
  | endLoad still work found loads evictions loading ticket edit ending log =>
    rename_i e l p r r' event
    refine ⟨[event], log, fun e' l' hl' => ?_, fun e' source preserved reuse hmem => ?_⟩
    · rw [loads, OrdMap.find?_erase]
      split
      next heq =>
        refine .inr ⟨event, mem_singleton_self _, ?_⟩
        cases ending <;> exact ⟨by rw [heq]; rfl, rfl⟩
      · exact .inl ⟨l', hl'⟩
    · cases ending <;> simp at hmem
  | evict catalog =>
    exact ⟨[_], .of (by rw [catalog]; rfl) (by rw [catalog]; rfl) (by simp)⟩
  | evictOnce catalog =>
    exact ⟨[_, _], .of (by rw [catalog]) (by rw [catalog]; rfl) (by simp)⟩
  | endEviction ends =>
    refine ⟨[_], .of ends.loads ends.log fun e source preserved reuse hmem => ?_⟩
    have hend := ends.ending
    cases hend <;> simp at hmem
  | park still work found evictions none loads catalog log =>
    exact ⟨[], .of loads log (by simp)⟩
  | submit asked leased prepared work running made cell absent opened =>
    rename_i basis _ _ _ _ _
    have hs1 := lease_eq leased
    refine ⟨[_, _], .of (by rw [opened, hs1]; rfl) (by rw [opened]; rfl) ?_⟩
    cases basis <;> simp [submission]
  | loseWork | hold | release => exact ⟨[_], .of rfl rfl (by simp)⟩
  | endWork found work running retired lease kept ends =>
    exact ⟨[_], .of (by rw [ends]) (by rw [ends]; rfl) (by simp)⟩
  | joinEviction | ending | waitOwn | waitRelease | leaveHeld =>
    exact ⟨[], .of rfl rfl (by simp)⟩
  | leave =>
    refine ⟨[], rfl, fun e l hl => .inl ?_, by simp⟩
    simp only [OrdMap.find?_mapVals, hl]
    exact ⟨_, rfl⟩

end Files

theorem Move.log (h : Move x s k s' k') : ∃ events, s'.log = events ++ s.log :=
  h.files.imp fun _ hf => hf.log

theorem ownerCall_log {op : Catalog.Op} (h : s.ownerCall op = .ok s') :
    (∃ catalog, s' = { s with catalog } ∧ op.run s.catalog = .ok catalog) ∨
      ∃ e catalog, op = .replaceContents e ∧
        s.catalog.replaceContents e = .ok (.ok (), catalog) ∧
        s' = { s with catalog, log := .replaced e :: s.log } := by
  unfold ownerCall at h
  split at h
  next e =>
    obtain ⟨⟨answer, catalog⟩, hcall, h⟩ := bind_ok h
    cases answer with
    | ok =>
      cases h
      exact .inr ⟨e, catalog, rfl, hcall, rfl⟩
    | error =>
      cases h
      exact .inl ⟨catalog, rfl, by simp [Catalog.Op.run, Catalog.forget, hcall, pure, Except.pure]⟩
  obtain ⟨catalog, hrun, h⟩ := bind_ok h
  cases h
  exact .inl ⟨catalog, rfl, hrun⟩

theorem Way.log (h : Way x own s k s' k') : ∃ events, s'.log = events ++ s.log := by
  cases h with
  | move moved => exact moved.log
  | finish | pop => exact ⟨[], rfl⟩
  | owner op may called =>
    rcases ownerCall_log called with ⟨catalog, rfl, -⟩ | ⟨e, catalog, -, -, rfl⟩
    · exact ⟨[], rfl⟩
    · exact ⟨[_], rfl⟩
  | register accepted asked =>
    rename_i e source
    rcases setSource_cases x s e source with ⟨error, heq⟩ | ⟨-, heq⟩
    · exact ⟨[], by rw [heq]; rfl⟩
    · exact ⟨[_], by rw [heq]; rfl⟩

theorem Ways.log (h : Ways x own s k s' k') : ∃ events, s'.log = events ++ s.log := by
  induction h with
  | refl => exact ⟨[], rfl⟩
  | tail _ hw ih =>
    obtain ⟨events, heve⟩ := ih
    obtain ⟨more, hmore⟩ := hw.log
    exact ⟨more ++ events, by rw [hmore, heve, append_assoc]⟩

theorem Move.parts (h : Move x s k s' k') : s'.sources = s.sources ∧
    (s'.tasks = s.tasks ∨ (∃ t failed, s.wake t failed = .ok s') ∨ TaskMove s k s' k' ∨
      (∃ t, s.tasks.prepareOperation t = .ok (.ok (), s'.tasks)) ∨
      ∃ t, s.tasks.retireOperation t = .ok (.ok (), s'.tasks)) := by
  cases h with
  | keep still | endLoad still | park still => exact ⟨still.sources, .inl still.tasks⟩
  | wake t failed woken =>
    refine ⟨?_, .inr (.inl ⟨t, failed, woken⟩)⟩
    obtain ⟨records, ready, rfl⟩ := ((wake_woken t failed).val woken).eq
    rfl
  | task moved =>
    refine ⟨?_, .inr (.inr (.inl moved))⟩
    obtain ⟨tasks, records, rfl⟩ := moved.eq
    rfl
  | load begins => exact ⟨begins.still.sources, .inl begins.still.tasks⟩
  | loadOwn handed begins =>
    exact ⟨begins.still.sources.trans handed.ends.still.sources,
      .inl (begins.still.tasks.trans handed.ends.still.tasks)⟩
  | loadFrom other begins reuse handed =>
    exact ⟨handed.ends.still.sources.trans begins.still.sources,
      .inl (handed.ends.still.tasks.trans begins.still.tasks)⟩
  | evict catalog | evictOnce catalog =>
    rw [catalog]
    exact ⟨rfl, .inl rfl⟩
  | endEviction ends => exact ⟨ends.still.sources, .inl ends.still.tasks⟩
  | submit asked leased prepared work running made cell absent opened =>
    rw [lease_eq leased] at prepared opened
    rw [opened]
    exact ⟨rfl, .inr (.inr (.inr (.inl ⟨_, prepared⟩)))⟩
  | endWork found work running retired lease kept ends =>
    rw [ends]
    exact ⟨rfl, .inr (.inr (.inr (.inr ⟨_, retired⟩)))⟩
  | joinLoad | joinEviction | loseWork | hold | ending | waitOwn | waitRelease | release | leave
  | leaveHeld => exact ⟨rfl, .inl rfl⟩

theorem Way.sources (h : Way x own s k s' k') : s'.sources = s.sources ∨
    ∃ e source view, .setSource e source ∈ own ∧ Accepted x s e source view ∧ s' = { s with
      sources := s.sources.insert e source
      log := .registered e source :: s.log } := by
  cases h with
  | move moved => exact .inl moved.parts.1
  | finish | pop => exact .inl rfl
  | owner op may called =>
    rcases ownerCall_log called with ⟨catalog, rfl, -⟩ | ⟨e, catalog, -, -, rfl⟩
    · exact .inl rfl
    · exact .inl rfl
  | register accepted asked =>
    rename_i e source
    rcases setSource_cases x s e source with ⟨error, heq⟩ | ⟨⟨view, ha⟩, heq⟩
    · rw [heq] at accepted
      cases accepted
    · exact .inr ⟨e, source, view, asked, ha, by rw [heq]⟩

/-! ## Sources -/

/-- What `SetSource` asks of a source alone, but for there being slots. -/
structure Sound (x : Config) (source : PageSource) : Prop where
  length : source.read.length ≠ 0
  kind : source.read.kind = .read
  pieces : piecesValid source = true
  destination : source.landed = true → source.pieces = [] → source.destination ≠ 0
  fits : source.landed = true → source.read.length ≤ x.settings.landing.slotBytes.value
  memory : source.landed = false → source.read.memory ≠ 0
  backing : ∀ place, source.backing = some place → place.size ≠ Bytes.zero

theorem validSource_sound {source : PageSource} (h : validSource x s source = true) :
    Sound x source := by
  simp only [validSource, Bool.and_eq_true, Bool.not_eq_true', Bool.and_eq_false_iff,
    Bool.or_eq_false_iff, decide_eq_true_eq, decide_eq_false_iff_not, isEmpty_eq_false_iff,
    Bool.not_eq_false', ne_eq, gt_iff_lt, not_lt] at h
  obtain ⟨⟨⟨⟨⟨hlen, hkind⟩, hpieces⟩, hlan⟩, hmem⟩, hback⟩ := h
  refine ⟨hlen, hkind, hpieces, fun hl hp => ?_, fun hl => ?_, fun hl => ?_, fun place hplace => ?_⟩
  · rcases hlan with hlan | hlan
    · simp [hl] at hlan
    rcases hlan.1.2 with h | h
    · exact absurd hp h
    · exact h
  · rcases hlan with hlan | hlan
    · simp [hl] at hlan
    · exact hlan.2
  · rcases hmem with hmem | hmem
    · simp [hl] at hmem
    · exact hmem
  rw [hplace] at hback
  simpa using hback

def Sources (x : Config) (s : Scheduler) : Prop :=
  ∀ e source, s.sources.find? e = some source → Sound x source

theorem Sources.way (h : Sources x s) (hw : Way x own s k s' k') : Sources x s' := by
  rcases hw.sources with heq | ⟨e, source, view, -, ha, rfl⟩
  · intro e source hs
    rw [heq] at hs
    exact h e source hs
  intro e' source' hs
  simp only [OrdMap.find?_insert] at hs
  split at hs
  · cases hs
    exact validSource_sound ha.valid
  · exact h e' source' hs

theorem Sources.ways (h : Sources x s) (hw : Ways x own s k s' k') : Sources x s' := by
  induction hw with
  | refl => exact h
  | tail _ hstep ih => exact ih.way hstep

/-! ## Tasks -/

def TaskTable.Open (tasks : TaskTable) (t : TaskId) : Prop :=
  ∃ v, tasks.describe t = some v ∧ v.outcome = none

variable {t : TaskId}

theorem Roster.unfinished_iff (h : Roster s k) : Unfinished s t ↔ s.tasks.Open t := by
  constructor
  · rintro ⟨r, hr, hfin⟩
    exact h.unfinished hr hfin
  rintro ⟨v, hv, hout⟩
  obtain ⟨r, hr⟩ := h.recorded t v hv
  obtain ⟨v', hv', hfin⟩ := h.known t r hr
  cases hv.symm.trans hv'
  exact ⟨r, hr, by rw [← hfin, hout]; rfl⟩

theorem TaskTable.Changes.open {tasks tasks' : TaskTable} {id t : TaskId} {v v' : TaskView}
    (h : TaskTable.Changes tasks tasks' id v v') (hout : v'.outcome = v.outcome) (ht : tasks.Open t) :
    tasks'.Open t := by
  obtain ⟨w, hw, hnone⟩ := ht
  unfold TaskTable.Open
  rw [h.views]
  split
  next heq =>
    subst heq
    cases h.found.symm.trans hw
    exact ⟨v', rfl, hout.trans hnone⟩
  · exact ⟨w, hw, hnone⟩

theorem TaskMove.open (h : TaskMove s k s' k') (hr : Roster s k) (ht : s.tasks.Open t) :
    s'.tasks.Open t := by
  have hsame : ∀ {s₁ s2 : Scheduler}, SameRoster s₁ s2 → s₁.tasks.Open t → s2.tasks.Open t := by
    rintro s₁ s2 hs ⟨v, hv, hnone⟩
    refine ⟨v, ?_, hnone⟩
    unfold TaskTable.describe at hv ⊢
    rw [hs.tasks]
    exact hv
  have hcreated : ∀ {tasks : TaskTable} {id : TaskId} {parent : Option TaskId},
      TaskTable.Creates s.tasks tasks id parent → tasks.Open t := by
    intro tasks id parent hc
    obtain ⟨v, hv, hnone⟩ := ht
    unfold TaskTable.Open
    rw [hc.views]
    split
    · exact ⟨_, rfl, rfl⟩
    split
    · rw [hv]
      exact ⟨_, rfl, hnone⟩
    · exact ⟨v, hv, hnone⟩
  cases h with
  | start created fresh ready | spawn created fresh parent ready =>
    exact hsame (makeReady_roster ready) (hcreated (TaskTable.create_creates created))
  | ready found ready => exact hsame (makeReady_roster ready) ht
  | awaitSignal | signal | note => exact ht
  | cancel t' cancelled =>
    obtain ⟨-, -, hcan, -⟩ := TaskTable.cancel_ok cancelled
    obtain ⟨v, hv, hnone⟩ := ht
    rcases hcan.describe t with ⟨hgone, -⟩ | ⟨v', c, hv', hv'', -⟩
    · cases hgone.symm.trans hv
    cases hv.symm.trans hv'
    exact ⟨_, hv'', hnone⟩
  | retire found described retired =>
    rename_i k tasks t' r view
    obtain ⟨v', hg⟩ := TaskTable.retire_gone retired fun v hv => hr.parent_ne hv
    obtain ⟨v, hv, hnone⟩ := ht
    have hne : t ≠ t' := by
      rintro rfl
      cases hv.symm.trans hg.found
      simpa [hnone] using hg.finished
    unfold TaskTable.Open
    rw [hg.views, if_neg hne]
    split
    · rw [hv]
      exact ⟨_, rfl, hnone⟩
    · exact ⟨v, hv, hnone⟩
  | stay => exact ht

theorem Move.open (h : Move x s k s' k') (hr : Roster s k) (ht : s.tasks.Open t) :
    s'.tasks.Open t := by
  rcases h.parts.2 with heq | ⟨t', failed, woken⟩ | moved | ⟨t', prepared⟩ | ⟨t', retired⟩
  · exact heq ▸ ht
  · obtain ⟨v, hv, hnone⟩ := ht
    refine ⟨v, ?_, hnone⟩
    unfold TaskTable.describe at hv ⊢
    rw [(wake_roster woken).tasks]
    exact hv
  · exact moved.open hr ht
  · obtain ⟨-, v, -, -, hchange⟩ := TaskTable.prepareOperation_ok prepared
    exact hchange.open rfl ht
  obtain ⟨-, v, -, hchange⟩ := TaskTable.retireOperation_ok retired
  exact hchange.open rfl ht

theorem Moves.open (h : Moves x s k s' k') (hr : Roster s k) (ht : s.tasks.Open t) :
    s'.tasks.Open t := by
  induction h with
  | refl => exact ht
  | tail hm hstep ih => exact hstep.open (hr.moves hm) ih

theorem Moves.unfinished (h : Moves x s k s' k') (hr : Roster s k)
    (ht : Unfinished s t) : Unfinished s' t :=
  (hr.moves h).unfinished_iff.mpr (h.open hr (hr.unfinished_iff.mp ht))

theorem Roster.finish {outcome : TaskOutcome} {tasks : TaskTable} {r : TaskRecord} (h : Roster s k)
    (found : s.record? t = some r) (finished : s.tasks.finish t outcome = .ok (.ok (), tasks))
    (hk : ∀ u, Debt.retire u ∈ k → Debt.retire u ∈ k') (hdue : Debt.retire t ∈ k') :
    Roster ({ s with tasks }.setRecord { r with finished := true }) k' := by
  obtain ⟨v, o, hf⟩ := TaskTable.finish_finishes finished
  exact h.finished hf found hk hdue

theorem Roster.way (h : Roster s k) (hw : Way x own s k s' k') : Roster s' k' := by
  cases hw with
  | move moved => exact h.move moved
  | finish found unfinished finished =>
    exact h.finish found finished (fun u hu => by simp [hu]) (by simp)
  | pop => exact h.same ⟨rfl, rfl, rfl, rfl⟩ fun _ hmem => hmem
  | owner op may called =>
    rcases ownerCall_log called with ⟨catalog, rfl, -⟩ | ⟨e, catalog, -, -, rfl⟩
    · exact h.same ⟨rfl, rfl, rfl, rfl⟩ fun _ hmem => hmem
    · exact h.same ⟨rfl, rfl, rfl, rfl⟩ fun _ hmem => hmem
  | register =>
    obtain ⟨sources, log, heq⟩ := setSource_eq x s _ _
    rw [heq]
    exact h.same ⟨rfl, rfl, rfl, rfl⟩ fun _ hmem => hmem

theorem Roster.ways (h : Roster s k) (hw : Ways x own s k s' k') : Roster s' k' := by
  induction hw with
  | refl => exact h
  | tail _ hstep ih => exact ih.way hstep

/-! ## Between two steps -/

structure Fine (x : Config) (w : World) : Prop where
  good : Good x w.state w.work none none
  roster : Roster w.state w.debts
  sources : Sources x w.state
  shaped : Shaped w.control
  running : ∀ t, .program t ∈ w.control → Unfinished w.state t
  told : ∀ seen, .observe seen ∈ w.control → seen.told w.state.log

def Control.plain : Control → Prop
  | .program _ | .observe _ => False
  | _ => True

/-- The next world: what it was made by, and that it is fine too. -/
structure LeadsBy (x : Config) (own : Set Label) (w w' : World) : Prop where
  fine : Fine x w'
  ways : Ways x own w.state w.debts w'.state w'.debts

/-- The next world, with no call of the owner's and no source registered. -/
abbrev Leads (x : Config) (w w' : World) : Prop := LeadsBy x ∅ w w'

theorem LeadsBy.mono {w w' : World} (h : LeadsBy x own w w')
    (hsub : own ⊆ own') : LeadsBy x own' w w' :=
  ⟨h.fine, h.ways.mono hsub⟩

/-- A step as the machine's `step` answers it. -/
def Steps (x : Config) (own : Set Label) (w : World) : Checked (Option World) → Prop :=
  Sat (Halts x w.state w.debts) fun o => ∀ w', o = some w' → LeadsBy x own w w'

section Step

variable {w w' : World} {old new rest : List Control}

theorem debts_append (old rest : List Control) :
    (old ++ rest).flatMap Control.debts = old.flatMap Control.debts ++ rest.flatMap Control.debts :=
  flatMap_append

theorem Fine.next (h : Fine x w) (old new : List Control) (hold : w.control = old ++ rest)
    (hnew : w'.control = new ++ rest) (good : Good x w'.state w'.work none none)
    (moves : Moves x w.state (old.flatMap Control.debts) w'.state (new.flatMap Control.debts))
    (hplain : ∀ c ∈ new, c.plain ∨ c ∈ old) (shaped : Shaped w'.control) : Leads x w w' := by
  have hmoves : Moves x w.state w.debts w'.state w'.debts := by
    unfold World.debts
    rw [hold, hnew, debts_append, debts_append]
    exact moves.lift (released_control rest)
  have hkept : ∀ c ∈ w'.control, c.plain ∨ c ∈ w.control := by
    intro c hc
    rw [hnew] at hc
    rw [hold]
    rcases mem_append.mp hc with hc | hc
    · exact (hplain c hc).imp_right fun hc => mem_append_left _ hc
    · exact .inr (mem_append_right _ hc)
  obtain ⟨events, hlog⟩ := hmoves.ways.log
  refine ⟨⟨good, h.roster.moves hmoves, h.sources.ways hmoves.ways, shaped, fun t ht => ?_,
    fun seen hseen => ?_⟩, hmoves.ways⟩
  · have hmem := (hkept _ ht).resolve_left (by simp [Control.plain])
    exact hmoves.unfinished h.roster (h.running t hmem)
  have hmem := (hkept _ hseen).resolve_left (by simp [Control.plain])
  refine (h.told seen hmem).imp_right ?_
  rintro ⟨command, htook⟩
  exact ⟨command, by rw [hlog]; exact mem_append_right _ htook⟩

theorem Fine.halts {f : Fatal} (old : List Control) (hold : w.control = old ++ rest)
    (hf : Ends x w.state (old.flatMap Control.debts) f) : Halts x w.state w.debts f := by
  refine Ends.halts ?_
  unfold World.debts
  rw [hold, debts_append]
  exact hf.lift (released_control rest)

variable {loop : Control}

theorem Shaped.outside (h : Shaped (loop :: rest)) (hloop : loop.outside) :
    ∀ c ∈ rest, c.outside := by
  rcases h with hall | ⟨t, calls, heq, hcalls⟩
  · exact fun c hc => hall c (mem_cons_of_mem _ hc)
  rcases calls with _ | _
  · obtain ⟨rfl, -⟩ := List.cons.inj heq
    exact absurd hloop (by simp [Control.outside])
  obtain ⟨rfl, -⟩ := List.cons.inj heq
  have hin := hcalls loop mem_cons_self
  cases loop <;> simp [Control.inStep, Control.outside] at hin hloop

theorem Shaped.append (hnew : ∀ c ∈ new, c.outside) (hrest : ∀ c ∈ rest, c.outside) :
    Shaped (new ++ rest) :=
  .inl fun c hc => (mem_append.mp hc).elim (hnew c) (hrest c)

variable {work : List Work} {reply : Reply}

theorem Fine.turn {s' : Scheduler} (h : Fine x w) (hcon : w.control = loop :: rest)
    (hloop : loop.outside) (hnew : ∀ c ∈ new, c.outside ∧ c.plain) (good : Good x s' work none none)
    (moves : Moves x w.state loop.debts s' (new.flatMap Control.debts)) :
    Leads x w { state := s', work, control := new ++ rest, reply } := by
  have hshaped := h.shaped
  rw [hcon] at hshaped
  refine h.next [loop] _ hcon rfl good ?_ (fun c hc => .inl (hnew c hc).2)
    (.append (fun c hc => (hnew c hc).1) (hshaped.outside hloop))
  simpa using moves

theorem Fine.turned {s' : Scheduler}
    (h : Fine x w) (hcon : w.control = loop :: rest) (hloop : loop.outside)
    (hnew : ∀ c ∈ new, c.outside ∧ c.plain ∧ c.debts = []) (hdebts : loop.debts = [])
    (good : Good x s' work none none) (moves : Moves x w.state [] s' []) :
    Leads x w { state := s', work, control := new ++ rest, reply } := by
  refine h.turn hcon hloop (fun c hc => ⟨(hnew c hc).1, (hnew c hc).2.1⟩) good ?_
  rw [hdebts, flatMap_eq_nil_iff.mpr fun c hc => (hnew c hc).2.2]
  exact moves

/-- A turn of the loop in front, as the machine's `runControl` answers it. -/
def Turned (x : Config) (w : World) (rest : List Control) :
    Checked (Scheduler × List Work × List Control) → Prop :=
  Sat (Halts x w.state w.debts) fun y => ∀ reply,
    Leads x w { state := y.1, work := y.2.1, control := y.2.2 ++ rest, reply }

theorem Fine.idles (h : Fine x w) (hwork : w.work = [])
    (hcon : w.control = loop :: rest) (hloop : loop.outside) (hdebts : loop.debts = [])
    (hnew : ∀ c ∈ new, c.outside ∧ c.plain ∧ c.debts = []) :
    Turned x w rest (.ok (w.state, [], new)) :=
  fun _ => h.turned hcon hloop hnew hdebts (hwork ▸ h.good) .refl

theorem Fine.enters {ran : Ran} (h : Fine x w)
    (hcon : w.control = loop :: rest) (hloop : loop.outside) (hdebts : loop.debts = [])
    (hnew : ∀ c ∈ new, c.outside ∧ c.plain ∧ c.debts = []) (hran : Runs x w.state [] ran) :
    Turned x w rest (do
      let (s, work) ← ran
      return (s, work, new)) := by
  refine Sat.bind (Sat.allow hran (fun f hf => Fine.halts [loop] hcon ?_)) ?_
  · simpa [hdebts] using hf
  rintro ⟨s', work⟩ ⟨hgood, hm⟩ reply
  rw [append_nil] at hgood
  exact h.turned hcon hloop hnew hdebts hgood hm

theorem Fine.goes {α : Type} {turn : Checked (Scheduler × List Work × α)}
    (h : Fine x w) (go : α → List Control) (hcon : w.control = loop :: rest)
    (hloop : loop.outside) (hdebts : loop.debts = [])
    (hnew : ∀ a, ∀ c ∈ go a, c.outside ∧ c.plain ∧ c.debts = []) (hturn : Turns x w.state turn) :
    Turned x w rest (do
      let (s, work, more) ← turn
      return (s, work, go more)) := by
  refine Sat.bind (Sat.allow hturn (fun f hf => Fine.halts [loop] hcon ?_)) ?_
  · simpa [hdebts] using hf
  rintro ⟨s', work, more⟩ ⟨hgood, hm⟩ reply
  exact h.turned hcon hloop (hnew more) hdebts hgood hm

theorem finished_turned {t : TaskId} {parent : Option TaskId} (h : Fine x w) (hwork : w.work = [])
    (hcon : w.control = .finished t parent :: rest) : Turned x w rest (do
      let s ← match parent with
        | none => pure w.state
        | some parent => w.state.wake parent false
      return (← s.tryRetire t, [], [])) := by
  have hgood : Good x w.state [] none none := hwork ▸ h.good
  have hleaves : Leaves x w.state (parent.toList.map .wake ++ [.retire t]) [] [] (do
      let s ← match parent with
        | none => pure w.state
        | some parent => w.state.wake parent false
      s.tryRetire t) := by
    cases parent with
    | none => exact tryRetire_leaves hgood t
    | some =>
      exact Leaves.bind (wake_leaves false hgood) fun s₁ hs1 => tryRetire_leaves hs1 t
  have hturn : Turned x w rest (do
      let s' ← (do
        let s ← match parent with
          | none => pure w.state
          | some parent => w.state.wake parent false
        s.tryRetire t)
      return (s', [], [])) := by
    refine Sat.bind (Sat.allow hleaves (fun f hf => Fine.halts [.finished t parent]
      hcon ?_)) ?_
    · simpa [Control.debts] using hf
    rintro s' ⟨hgood', hm⟩ reply
    exact h.turn hcon trivial (by simp) hgood' hm
  cases parent with
  | none => exact hturn
  | some =>
    simp only [bind_assoc] at hturn
    exact hturn

theorem beginFinish_sat {t : TaskId} {outcome : TaskOutcome} (hgood : Good x s [] none none)
    (hr : Roster s k) (hk : released k) :
    Sat (Halts x s k) (fun y => ∀ view withdrawn s' work, y = some (view, withdrawn, s', work) →
      Good x s' work none none ∧
        Ways x ∅ s k s' (view.parent.toList.map .wake ++ .retire t :: k)) (s.beginFinish t outcome) := by
  unfold beginFinish
  rcases hrec : s.record? t with _ | r
  · exact fun _ _ _ _ hy => absurd hy (by simp)
  simp only
  split
  · exact fun _ _ _ _ hy => absurd hy (by simp)
  rename_i hfin
  replace hfin : r.finished = false := by simpa using hfin
  obtain ⟨v, hv, hnone⟩ := hr.unfinished hrec hfin
  obtain ⟨task, htask, rfl⟩ := TaskTable.describe_some.mp hv
  refine Sat.bind (P := fun y => s.tasks.finish t outcome = .ok y) ?_ ?_
  · cases hcall : s.tasks.finish t outcome with
    | error => exact .inl ((finish_outside _ _ _).err hcall)
    | ok => rfl
  rintro ⟨answer, tasks⟩ hfinish
  -- A live, unfinished task is not refused.
  obtain ⟨u, rfl⟩ : ∃ u, answer = .ok u := by
    cases answer with
    | ok u => exact ⟨u, rfl⟩
    | error =>
      simp only [TaskTable.finish, htask, hnone, Option.isSome_none, Bool.false_eq_true,
        if_false] at hfinish
      generalize (if task.view.cancelled = true ∧ outcome = .succeeded then .cancelled
        else outcome : TaskOutcome) = outcome at hfinish
      split at hfinish
      · split at hfinish
        · obtain ⟨t', -, hfinish⟩ := bind_ok hfinish
          cases hfinish
        · cases hfinish
      · cases hfinish
  obtain ⟨v', o, hf⟩ := TaskTable.finish_finishes hfinish
  obtain ⟨toldOf, hviews⟩ := hf.views
  have hview := hviews t
  rw [if_pos rfl, Option.map_some] at hview
  set view : TaskView := { { v' with outcome := some o } with
    childFailed := toldOf t { v' with outcome := some o } } with hviewdef
  set s₁ : Scheduler := { s with tasks }.setRecord { r with finished := true } with hs1
  have hdes : s₁.viewOf t = .ok view := by
    unfold viewOf
    rw [show s₁.tasks.describe t = some view from hview]
    rfl
  simp only [pure_bind, ← hs1, hdes, ok_bind]
  have hway : Way x ∅ s k s₁ (.leave t :: .leaveHeld t ::
      (view.parent.toList.map .wake ++ .retire t :: k)) := .finish hrec hfin hfinish hview
  have hj : released (view.parent.toList.map .wake ++ .retire t :: k) := by
    intro lease hmem
    rcases mem_append.mp hmem with hmem | hmem
    · simp at hmem
    · exact hk lease ((mem_cons.mp hmem).resolve_left (by simp))
  have hgood1 : Good x s₁ [] none none := hgood.other rfl
  have hwit := withdraw_sat hgood1 t
  refine Sat.bind (Sat.allow hwit (fun f hends => Halts.after hway.ways
    (Ends.lift (k := [.leave t, .leaveHeld t]) hends hj).halts)) ?_
  rintro ⟨s2, work⟩ ⟨hgood2, hm⟩ view' withdrawn s' work' hy
  obtain ⟨rfl, rfl, rfl, rfl⟩ := hy
  exact ⟨hgood2, hway.ways.trans (hm.lift hj).ways⟩

theorem finishTask_turned {t : TaskId} {outcome : TaskOutcome} (h : Fine x w) (hwork : w.work = [])
    (hcon : w.control = .finish t outcome :: rest) :
    Turned x w rest (finishTask w.state t outcome) := by
  have hgood : Good x w.state [] none none := hwork ▸ h.good
  have hdebts : w.debts = rest.flatMap Control.debts := by
    unfold World.debts
    rw [hcon]
    rfl
  have hk : released w.debts := hdebts ▸ released_control rest
  have hshaped := h.shaped
  rw [hcon] at hshaped
  have hrest := hshaped.outside trivial
  refine Sat.bind (beginFinish_sat hgood h.roster hk) fun y hy => ?_
  rcases y with _ | y
  · exact h.idles hwork hcon trivial rfl (by simp)
  obtain ⟨view, withdrawn, s', work⟩ := y
  obtain ⟨hgood', hways⟩ := hy view withdrawn s' work rfl
  intro reply
  set rollBacks : List Control := if view.outcome.getD outcome = .cancelled then
    [.rollBackRoutes t Route.all] else [] with hrollBacks
  have hrolls : ∀ c ∈ rollBacks, c.outside ∧ c.plain ∧ c.debts = [] := by
    intro c hc
    rw [hrollBacks] at hc
    split at hc
    · obtain rfl := mem_singleton.mp hc
      exact ⟨trivial, trivial, rfl⟩
    · simp at hc
  have hnew : ∀ c ∈ [.cancelPageIns withdrawn] ++ rollBacks ++ [.finished t view.parent],
      c.outside ∧ c.plain := by
    intro c hc
    simp only [mem_append, mem_singleton] at hc
    rcases hc with (rfl | hc) | rfl
    · exact ⟨trivial, trivial⟩
    · exact ⟨(hrolls c hc).1, (hrolls c hc).2.1⟩
    · exact ⟨trivial, trivial⟩
  have hdebts' : World.debts { state := s', work, control := ([.cancelPageIns withdrawn] ++
      rollBacks ++ [.finished t view.parent]) ++ rest, reply } =
      view.parent.toList.map .wake ++ .retire t :: w.debts := by
    unfold World.debts
    rw [hcon, debts_append, debts_append, debts_append,
      flatMap_eq_nil_iff.mpr fun c hc => (hrolls c hc).2.2]
    simp [Control.debts]
  obtain ⟨events, hlog⟩ := hways.log
  refine ⟨⟨hgood', hdebts' ▸ h.roster.ways hways, h.sources.ways hways,
    .append (fun c hc => (hnew c hc).1) hrest, fun t' ht' => ?_, fun seen hseen => ?_⟩,
    hdebts' ▸ hways⟩
  · rcases mem_append.mp ht' with hmem | hmem
    · exact absurd (hnew _ hmem).2 (by simp [Control.plain])
    · exact absurd (hrest _ hmem) (by simp [Control.outside])
  rcases mem_append.mp hseen with hmem | hmem
  · exact absurd (hnew _ hmem).2 (by simp [Control.plain])
  refine (h.told seen (by rw [hcon]; exact mem_cons_of_mem _ hmem)).imp_right ?_
  rintro ⟨command, htook⟩
  exact ⟨command, by rw [hlog]; exact mem_append_right _ htook⟩

variable {i : Nat}

variable {r : TaskRecord}

theorem Roster.at (h : Roster s k)
    (hr : s.records[i]? = some (some r)) : s.record? r.id = some r := by
  obtain ⟨hindex, hvalid⟩ := h.filed i r hr
  exact record?_eq_some.mpr ⟨hindex ▸ hr, rfl, hvalid⟩

theorem Roster.viewOf {t : TaskId} (h : Roster s k) (hr : s.record? t = some r) :
    ∃ v, s.viewOf t = .ok v := by
  obtain ⟨v, hv, -⟩ := h.known t r hr
  exact ⟨v, by unfold Scheduler.viewOf; rw [hv]; rfl⟩

theorem cancelTask_turned (h : Fine x w)
    (hwork : w.work = []) (hcon : w.control = loop :: rest) (hloop : loop.outside)
    (hdebts : loop.debts = []) (hnew : ∀ c ∈ new, c.outside ∧ c.plain ∧ c.debts = [])
    (hr : w.state.records[i]? = some (some r)) :
    Turned x w rest (do return (← w.state.cancelTask r.id, [], new)) := by
  have hgood : Good x w.state [] none none := hwork ▸ h.good
  refine Sat.bind (Sat.allow (cancelTask_leaves hgood h.roster (h.roster.at hr))
    (fun f hf => Fine.halts [loop] hcon (by simpa [hdebts] using hf))) ?_
  rintro s' ⟨hgood', hm⟩ reply
  exact h.turned hcon hloop hnew hdebts hgood' hm

variable {closure : List (ExtentId × Nat)} {waiting : Bool}

theorem Fine.stepping {t : TaskId} (h : Fine x w)
    (hcon : w.control = .materialize t closure waiting :: rest) :
    ∃ calls, rest = calls ++ [.program t] ∧ (∀ c ∈ calls, Control.inStep t c) ∧
      Unfinished w.state t := by
  rcases h.shaped with hall | ⟨t', calls, heq, hcalls⟩
  · exact absurd (hall _ (hcon ▸ mem_cons_self)) (by simp [Control.outside])
  have hrun := h.running t' (by rw [heq]; simp)
  rw [hcon] at heq
  rcases calls with _ | ⟨c, calls⟩
  · have hhead := (List.cons.inj heq).1
    cases hhead
  obtain ⟨rfl, hrest⟩ := List.cons.inj heq
  obtain rfl : t = t' := hcalls _ mem_cons_self
  exact ⟨calls, hrest, fun c hc => hcalls c (mem_cons_of_mem _ hc), hrun⟩

theorem Fine.called {t : TaskId} {loop c : Control} {calls : List Control} {s' : Scheduler}
    (h : Fine x w) (hcon : w.control = loop :: rest) (hdebts : loop.debts = [])
    (hrest : rest = calls ++ [.program t]) (hcalls : ∀ c ∈ calls, Control.inStep t c)
    (hc : Control.inStep t c) (good : Good x s' work none none) (moves : Moves x w.state [] s' []) :
    Leads x w { state := s', work, control := [c] ++ rest, reply } := by
  have hplain : c.plain ∧ c.debts = [] := by
    cases c <;> simp [Control.inStep, Control.plain, Control.debts] at hc ⊢
  refine h.next [loop] [c] hcon rfl good ?_
    (fun c' hc' => .inl (mem_singleton.mp hc' ▸ hplain.1)) (.inr ⟨t, c :: calls, ?_, ?_⟩)
  · simpa [hdebts, hplain.2] using moves
  · rw [hrest]
    rfl
  intro c' hc'
  rcases mem_cons.mp hc' with rfl | hc'
  · exact hc
  · exact hcalls c' hc'

theorem materialize_turned {t : TaskId} {e : ExtentId} {generation : Nat}
    (h : Fine x w) (hwork : w.work = [])
    (hcon : w.control = .materialize t ((e, generation) :: closure) waiting :: rest)
    (answer : PushResult) : Turned x w rest (runControl x w.state answer
      (.materialize t ((e, generation) :: closure) waiting)) := by
  have hgood : Good x w.state [] none none := hwork ▸ h.good
  obtain ⟨calls, hrest, hcalls, r, hr, hfin⟩ := h.stepping hcon
  have hid := (record?_eq_some.mp hr).2.1
  simp only [runControl, hr, require, ok_bind]
  have hasks : Asks w.state r := ⟨by rw [hid]; exact hr, hfin⟩
  have hans : Answers x w.state [] (materializeOne x w.state t r e generation) :=
    materializeOne_answers hgood (by simp [quiet]) hasks hid
      fun source hsource => (h.sources e source hsource).kind
  refine Sat.bind (Sat.allow hans (fun f hf => Fine.halts [_] hcon hf)) ?_
  rintro ⟨a, s', work⟩ ⟨hgood', hm⟩
  rw [append_nil] at hgood'
  cases a with
  | error => exact fun reply => h.called hcon rfl hrest hcalls trivial hgood' hm
  | ok => exact fun reply => h.called hcon rfl hrest hcalls rfl hgood' hm

theorem answer_turned {answered reply : Reply} (h : Fine x w) (hwork : w.work = [])
    (hcon : w.control = .answer answered :: rest) :
    Leads x w { state := w.state, work := [], control := [] ++ rest, reply } := by
  refine h.next [_] _ hcon rfl (hwork ▸ h.good) .refl (by simp) ?_
  rcases h.shaped with hall | ⟨t, calls, heq, hcalls⟩
  · exact absurd (hall _ (hcon ▸ mem_cons_self)) (by simp [Control.outside])
  rw [hcon] at heq
  cases calls with
  | nil =>
    have hhead := (List.cons.inj heq).1
    cases hhead
  | cons c calls =>
    obtain ⟨-, hrest⟩ := List.cons.inj heq
    exact .inr ⟨t, calls, hrest, fun c hc => hcalls c (mem_cons_of_mem _ hc)⟩

theorem runControl_turned (h : Fine x w) (hwork : w.work = [])
    (hcon : w.control = loop :: rest) (answer : PushResult) :
    Turned x w rest (runControl x w.state answer loop) := by
  have hgood : Good x w.state [] none none := hwork ▸ h.good
  have hq : quiet [] := by simp [quiet]
  have hthis : ∀ {c}, (c : Control).outside ∧ c.plain ∧ c.debts = [] →
      ∀ c' ∈ [c], c'.outside ∧ c'.plain ∧ c'.debts = [] := fun h c' hc' =>
    mem_singleton.mp hc' ▸ h
  have hboth : ∀ {c c1}, (c : Control).outside ∧ c.plain ∧ c.debts = [] →
      (c1 : Control).outside ∧ c1.plain ∧ c1.debts = [] →
      ∀ c' ∈ [c, c1], c'.outside ∧ c'.plain ∧ c'.debts = [] := fun h h1 =>
    forall_mem_cons.mpr ⟨h, hthis h1⟩
  have hstay : ∀ {c}, loop.outside → loop.debts = [] →
      (c : Control).outside ∧ c.plain ∧ c.debts = [] →
      Turned x w rest (.ok (w.state, [], [c])) := fun ho hd hc =>
    h.idles hwork hcon ho hd (hthis hc)
  cases loop with
  | observe seen =>
    exact h.enters hcon trivial rfl (by simp)
      (observe_runs hgood hq seen (h.told seen (hcon ▸ mem_cons_self)))
  | flushRoute route =>
    refine h.goes (fun more => if more then [.flushRoute route] else []) hcon trivial rfl
      (fun more c hc => ?_) (flushRoute_turns hgood route answer)
    split at hc
    · obtain rfl := mem_singleton.mp hc
      exact ⟨trivial, trivial, rfl⟩
    · simp at hc
  | retryBlocked n =>
    rcases n with _ | n
    · exact h.idles hwork hcon trivial rfl (by simp)
    refine h.goes (fun more => if more then [.retryBlocked n] else []) hcon trivial rfl
      (fun more c hc => ?_) (retryBlocked_turns hgood)
    split at hc
    · obtain rfl := mem_singleton.mp hc
      exact ⟨trivial, trivial, rfl⟩
    · simp at hc
  | flushCancels i =>
    refine Sat.bind (Sat.allow (flushCancel_sat hgood i answer)
      (fun f hf => Fine.halts [_] hcon hf)) ?_
    rintro ⟨s', next⟩ ⟨hgood', hm⟩ reply
    refine h.turned hcon trivial (fun c hc => ?_) rfl hgood' hm
    obtain ⟨j, -, rfl⟩ := mem_map.mp hc
    exact ⟨trivial, trivial, rfl⟩
  | finish => exact finishTask_turned h hwork hcon
  | cancelPageIns extents =>
    rcases extents with _ | ⟨e, _⟩
    · exact h.idles hwork hcon trivial rfl (by simp)
    simp only [runControl]
    cases hl : w.state.loads.find? e with
    | none => exact hstay trivial rfl ⟨trivial, trivial, rfl⟩
    | some =>
      exact h.enters hcon trivial rfl (hthis ⟨trivial, trivial, rfl⟩)
        (cancelPageIn_runs hgood hl answer)
  | rollBackRoutes t routes =>
    rcases routes with _ | _
    · exact h.idles hwork hcon trivial rfl (by simp)
    exact h.idles hwork hcon trivial rfl
        (hboth ⟨trivial, trivial, rfl⟩ ⟨trivial, trivial, rfl⟩)
  | rollBackIds t ids =>
    rcases ids with _ | ⟨id, ids⟩
    · exact h.idles hwork hcon trivial rfl (by simp)
    simp only [runControl]
    rcases hf : w.state.find id with _ | op
    · exact hstay trivial rfl ⟨trivial, trivial, rfl⟩
    have hid := (find_eq_some.mp hf).2.1
    simp only
    split
    next hop =>
      have hpub : op.published = false := by simpa using hop.1
      exact h.enters hcon trivial rfl (hthis ⟨trivial, trivial, rfl⟩)
        (rollBack_runs hgood hq (by rw [hid]; exact hf) (hgood.unpublished hf hpub) hpub)
    · exact hstay trivial rfl ⟨trivial, trivial, rfl⟩
  | finished => exact finished_turned h hwork hcon
  | finishCancelled i =>
    simp only [runControl]
    split
    · exact h.idles hwork hcon trivial rfl (by simp)
    · exact hstay trivial rfl ⟨trivial, trivial, rfl⟩
    rename_i r hr
    split
    · exact hstay trivial rfl ⟨trivial, trivial, rfl⟩
    obtain ⟨v, hv⟩ := h.roster.viewOf (h.roster.at hr)
    simp only [hv, ok_bind]
    split
    · exact h.idles hwork hcon trivial rfl
        (hboth ⟨trivial, trivial, rfl⟩ ⟨trivial, trivial, rfl⟩)
    · exact hstay trivial rfl ⟨trivial, trivial, rfl⟩
  | cancelRequest request i =>
    simp only [runControl]
    split
    · exact h.idles hwork hcon trivial rfl (by simp)
    · exact hstay trivial rfl ⟨trivial, trivial, rfl⟩
    rename_i r hr
    split
    · exact hstay trivial rfl ⟨trivial, trivial, rfl⟩
    obtain ⟨v, hv⟩ := h.roster.viewOf (h.roster.at hr)
    simp only [hv, ok_bind]
    split
    · exact hstay trivial rfl ⟨trivial, trivial, rfl⟩
    exact cancelTask_turned h hwork hcon trivial rfl
      (hboth ⟨trivial, trivial, rfl⟩ ⟨trivial, trivial, rfl⟩) hr
  | stopFrom i =>
    simp only [runControl]
    split
    · exact h.idles hwork hcon trivial rfl (by simp)
    · exact hstay trivial rfl ⟨trivial, trivial, rfl⟩
    rename_i r hr
    split
    · exact hstay trivial rfl ⟨trivial, trivial, rfl⟩
    exact cancelTask_turned h hwork hcon trivial rfl
      (hboth ⟨trivial, trivial, rfl⟩ ⟨trivial, trivial, rfl⟩) hr
  | materialize t closure =>
    cases closure with
    | nil =>
      obtain ⟨calls, hrest, hcalls, -⟩ := h.stepping hcon
      exact fun reply => h.called hcon rfl hrest hcalls trivial hgood .refl
    | cons => exact materialize_turned h hwork hcon answer
  | answer => exact fun reply => answer_turned h hwork hcon
  | program t =>
    refine fun reply => h.next [_] [.program t] hcon rfl hgood .refl (fun c hc => .inr hc) ?_
    rw [singleton_append, ← hcon]
    exact h.shaped

/-! ### Calls of a program and of the owner -/

theorem World.running_eq {t : TaskId} (h : w.running = some t) :
    w.work = [] ∧ ∃ rest, w.control = .program t :: rest := by
  unfold World.running at h
  split at h
  next t' rest hwork hcon =>
    cases h
    exact ⟨hwork, rest, hcon⟩
  · simp at h

theorem Fine.program {t : TaskId} (h : Fine x w) (hrun : w.running = some t) :
    w.work = [] ∧ w.control = [.program t] := by
  obtain ⟨hwork, rest, hcon⟩ := World.running_eq hrun
  refine ⟨hwork, ?_⟩
  rcases h.shaped with hall | ⟨t', calls, heq, hcalls⟩
  · exact absurd (hall _ (hcon ▸ mem_cons_self)) (by simp [Control.outside])
  rw [hcon] at heq ⊢
  cases calls with
  | nil =>
    obtain ⟨-, hrest⟩ := List.cons.inj heq
    rw [hrest]
  | cons =>
    obtain ⟨rfl, -⟩ := List.cons.inj heq
    exact absurd (hcalls _ mem_cons_self) (by simp [Control.inStep])

theorem Fine.stays {s' : Scheduler} (h : Fine x w)
    (good : Good x s' work none none) (moves : Moves x w.state [] s' []) :
    Leads x w { state := s', work, control := w.control, reply } :=
  h.next [] [] rfl rfl good moves (by simp) h.shaped

theorem Fine.stayHalts {f : Fatal} (hf : Ends x w.state [] f) : Halts x w.state w.debts f :=
  Fine.halts [] rfl hf

theorem Fine.resumes (h : Fine x w) {s' : Scheduler} {work : List Work} {reply : Reply}
    (hgood : Good x s' work none none) (hm : Moves x w.state [] s' []) :
    ∀ w', w' = World.mk s' work ([] ++ w.control) reply → Leads x w w' := by
  rintro w' rfl
  exact h.stays hgood hm

theorem Fine.replies (h : Fine x w) {α : Type} {call : Checked (α × Scheduler)} {wrap : α → Reply}
    (hcall : Replies x w.state [] call) :
    Sat (Halts x w.state w.debts) (fun y => ∀ w', w' = World.mk y.1 y.2.1 (y.2.2.1 ++ w.control)
      y.2.2.2 → Leads x w w') (do
        let (a, s) ← call
        return (s, [], [], wrap a)) := by
  refine Sat.bind (Sat.allow hcall (fun f hf => Fine.stayHalts hf)) ?_
  rintro ⟨a, s'⟩ ⟨hgood, hm⟩
  exact h.resumes hgood hm

theorem Fine.answers (h : Fine x w) {α : Type} {call : Checked (α × Scheduler × List Work)}
    {wrap : α → Reply} (hcall : Answers x w.state [] call) :
    Sat (Halts x w.state w.debts) (fun y => ∀ w', w' = World.mk y.1 y.2.1 (y.2.2.1 ++ w.control)
      y.2.2.2 → Leads x w w') (do
        let (a, s, work) ← call
        return (s, work, [], wrap a)) := by
  refine Sat.bind (Sat.allow hcall (fun f hf => Fine.stayHalts hf)) ?_
  rintro ⟨a, s', work⟩ ⟨hgood, hm⟩
  rw [append_nil] at hgood
  exact h.resumes hgood hm

theorem runCall_steps {t : TaskId} (h : Fine x w) (hrun : w.running = some t) (call : Call) :
    Sat (Halts x w.state w.debts) (fun y => ∀ w', w' = World.mk y.1 y.2.1 (y.2.2.1 ++ w.control)
      y.2.2.2 → Leads x w w') (runCall x w.state t call) := by
  obtain ⟨hwork, hcon⟩ := h.program hrun
  have hgood : Good x w.state [] none none := hwork ▸ h.good
  have hq : quiet [] := by simp [quiet]
  cases call with
  | materialize closure =>
    simp only [runCall]
    rcases hopen : w.state.openRecord t with _ | r
    · exact h.resumes hgood .refl
    rintro w' rfl
    refine h.next [] [.materialize t closure.extents false] rfl rfl hgood .refl
      (fun c hc => .inl (mem_singleton.mp hc ▸ trivial))
      (.inr ⟨t, [.materialize t closure.extents false], by rw [hcon], fun c hc => ?_⟩)
    obtain rfl := mem_singleton.mp hc
    rfl
  | submit basis command => exact h.answers (submit_answers hgood hq h.roster t basis command)
  | holdLease closure => exact h.replies (holdLease_replies hgood t closure)
  | endLease lease => exact h.replies (endLease_replies hgood t lease)
  | awaitRelease extents => exact h.replies (awaitRelease_replies hgood t extents)
  | awaitSignal =>
    obtain ⟨hgood', hm⟩ := awaitSignal_replies hgood t
    exact h.resumes hgood' hm
  | spawn hasProgram priority =>
    exact h.replies (startTask_replies hgood 0 hasProgram priority (some t))
  | evict => exact h.answers (evict_answers hgood hq)
  | takeFailure =>
    obtain ⟨hgood', hm⟩ := takeFailure_replies hgood t
    exact h.resumes hgood' hm

theorem endStep_steps {t : TaskId} (h : Fine x w) (hrun : w.running = some t) (kind : StepKind)
    (outcome : TaskOutcome) :
    Sat (Halts x w.state w.debts) (fun y => Leads x w (World.mk y.1 [] (y.2 ++ w.control.tail) .none))
      (w.state.endStep t kind outcome) := by
  obtain ⟨hwork, hcon⟩ := h.program hrun
  have hgood : Good x w.state [] none none := hwork ▸ h.good
  obtain ⟨r, hr, hfin⟩ := h.running t (by rw [hcon]; simp)
  have hid := (record?_eq_some.mp hr).2.1
  have hends : ∀ {s' : Scheduler} {new : List Control}, (∀ c ∈ new, c.outside ∧ c.plain ∧ c.debts = []) →
      Good x s' [] none none → Moves x w.state [] s' [] →
      Leads x w (World.mk s' [] (new ++ w.control.tail) .none) := by
    intro s' new hnew hgood' hm
    refine h.next [.program t] new (show w.control = [.program t] ++ [] from hcon)
      (by simp [hcon]) hgood' ?_
      (fun c hc => .inl (hnew c hc).2.1) ?_
    · rw [flatMap_eq_nil_iff.mpr fun c hc => (hnew c hc).2.2]
      exact hm
    rw [hcon]
    exact .append (fun c hc => (hnew c hc).1) (by simp)
  have hready : Sat (Halts x w.state w.debts)
      (fun y => Leads x w (World.mk y.1 [] (y.2 ++ w.control.tail) .none))
      (do return (← w.state.makeReady r, [])) := by
    refine Sat.bind (Sat.allow (stepped_leaves hgood h.roster (by rw [hid]; exact hr))
      (fun f hf => Fine.stayHalts hf)) ?_
    rintro s' ⟨hgood', hm⟩
    exact hends (by simp) hgood' hm
  unfold endStep
  simp only [hr, require, ok_bind]
  cases kind with
  | yield => exact hready
  | wait =>
    simp only
    split
    · exact hready
    · exact hends (by simp) hgood .refl
  | finish =>
    refine hends (fun c hc => ?_) hgood .refl
    obtain rfl := mem_singleton.mp hc
    exact ⟨trivial, trivial, rfl⟩

theorem ownerCall_sat {op : Catalog.Op} (hgood : Good x s work none none)
    (hmay : s.ownerMay op = true) :
    Sat (fun f => Fatal.outside f = true) (fun s' => Good x s' work none none ∧
      s.ownerCall op = .ok s') (s.ownerCall op) := by
  have hstages : op.stages = false := by
    cases op <;> simp [ownerMay, Catalog.Op.stages] at hmay ⊢
  have hown : ∀ f, Catalog.Own f → Fatal.outside f = true := fun f hf => by
    revert hf
    cases f <;> simp [Catalog.Own, Fatal.ofCatalog, Fatal.outside]
  cases hcall : s.ownerCall op with
  | error f =>
    have hrun : op.run s.catalog = .error f := by
      unfold ownerCall at hcall
      split at hcall
      next e =>
        cases hrep : s.catalog.replaceContents e with
        | error =>
          rw [hrep] at hcall
          obtain rfl := Except.error.inj hcall
          simp [Catalog.Op.run, Catalog.forget, hrep]
        | ok y =>
          obtain ⟨answer, catalog⟩ := y
          rw [hrep] at hcall
          cases answer <;> cases hcall
      cases hrun : op.run s.catalog with
      | error =>
        rw [hrun] at hcall
        obtain rfl := Except.error.inj hcall
        rfl
      | ok =>
        rw [hrun] at hcall
        cases hcall
    exact hown f ((Catalog.run_touches op hstages).err hrun)
  | ok =>
    refine ⟨?_, rfl⟩
    rcases ownerCall_log hcall with ⟨c, rfl, hrun⟩ | ⟨e, c, rfl, hrep, rfl⟩
    · exact hgood.touches ((Catalog.run_touches op hstages).val hrun) (hgood.reach.step op hrun)
    have hrun : Catalog.Op.run s.catalog (.replaceContents e) = .ok c := by
      simp [Catalog.Op.run, Catalog.forget, hrep, pure, Except.pure]
    exact (hgood.touches ((Catalog.run_touches _ rfl).val hrun) (hgood.reach.step _ hrun)).emit rfl
      (hgood.mailboxes.cons (by simp))

/-! ### What lanes publish -/

theorem Good.board {board : CompletionBoard} (h : Good x s work none none)
    (hm : Mailboxes board s.operations s.log) : Good x { s with board } work none none := by
  refine h.same ?_ h.reach hm fun id _ hp => hp
  exact ⟨fun _ _ => .of rfl rfl rfl rfl rfl, fun _ => rfl, rfl, .refl _, .refl _, .refl _, .refl _⟩

variable {log : List Event}

variable {b : CompletionBoard}

variable {ops : List (Option Operation)}

theorem Mailboxes.observed {m : Mailbox} (h : Mailboxes b ops log) (hm : b.mailboxes[i]? = some m)
    (hopen : m.isOpen = true) : (CompletionBoard.observation i m).told log := by
  obtain ⟨op, hop⟩ := h.filled i m hm hopen
  obtain ⟨hindex, m', hm', -, hgen, hclean⟩ := h.record i op hop
  cases hm.symm.trans hm'
  cases hpub : op.published with
  | true =>
    obtain ⟨command, htook⟩ := (h.asked i op hop).1 hpub
    refine .inr ⟨command, ?_⟩
    have hid : op.id = ⟨i, m.generation⟩ := Id.eq_of_parts hindex hgen.symm
    rw [hid] at htook
    exact htook
  | false =>
    obtain ⟨hacc, hter, hcon, -⟩ := hclean hpub
    left
    simp [CompletionBoard.observation, hacc, Mailbox.readTerminal, hter, hcon]

theorem Mailboxes.harvestedGo (limit : Nat) (news : List Nat) (h : Mailboxes b ops log) :
    ∀ seen ∈ (CompletionBoard.harvest.go limit news b).1, seen.told log := by
  induction news generalizing limit b with
  | nil => simp [CompletionBoard.harvest.go]
  | cons i rest ih =>
    unfold CompletionBoard.harvest.go
    rcases hm : b.mailboxes[i]? with _ | m
    · exact ih limit h
    have hset : Mailboxes (b.set i { m with queued := false }) ops log :=
      h.set hm rfl rfl rfl rfl rfl rfl (h.retired i m hm) (.inl id)
    simp only
    split
    · exact ih limit hset
    rename_i hopen
    have hself := h.observed hm (by simpa using hopen)
    rcases limit with _ | limit
    · intro seen hseen
      exact mem_singleton.mp hseen ▸ hself
    intro seen hseen
    rcases mem_cons.mp hseen with rfl | hseen
    · exact hself
    · exact ih limit hset seen hseen

theorem Mailboxes.harvested (limit : Nat) (h : Mailboxes b ops log) :
    ∀ seen ∈ (b.harvest limit).1, seen.told log := by
  cases limit with
  | zero => simp [CompletionBoard.harvest]
  | succ limit => exact h.harvestedGo limit b.news

theorem took_of_any {id : OperationId} (h : log.any (tookBy id) = true) :
    ∃ command, Event.took id command ∈ log := by
  obtain ⟨event, hmem, htook⟩ := any_eq_true.mp h
  cases event <;> simp [tookBy] at htook
  subst htook
  exact ⟨_, hmem⟩

theorem publication_steps {own : Set Label} {call : Checked (Published × CompletionBoard)} (h : Fine x w)
    (hcall : Sat (fun f => f = .missing ∨ f = .newsOverflow)
      (fun y => Mailboxes y.2 w.state.operations w.state.log ∧ Mailboxes.Publishes w.state.board y.2)
      call) : Steps x own w (do
        let (_, board) ← call
        return some { w with state := { w.state with board } }) := by
  refine Sat.bind (Sat.allow hcall (fun f hf => .inl ?_)) ?_
  · rcases hf with rfl | rfl <;> rfl
  rintro ⟨answer, board⟩ ⟨hm, -⟩ w' hw'
  cases hw'
  exact (h.stays (h.good.board hm) (.idle rfl)).mono fun _ hmem => hmem.elim

/-! ### Every step -/

theorem World.idle_eq (h : w.idle = true) : w.work = [] ∧ w.control = [] := by
  simpa [World.idle] using h

theorem World.open_work (h : w.open = true) : w.work = [] := by
  rcases (Bool.or_eq_true _ _).mp h with hidle | hrun
  · exact (World.idle_eq hidle).1
  obtain ⟨t, ht⟩ := Option.isSome_iff_exists.mp hrun
  exact (World.running_eq ht).1

theorem Fine.begins {s' : Scheduler} {control : List Control} (h : Fine x w)
    (hidle : w.idle = true) (hgood : Good x s' [] none none) (hm : Moves x w.state [] s' [])
    (hcon : ∀ c ∈ control, c.outside ∧ c.plain ∧ c.debts = []) :
    Leads x w { state := s', work := [], control, reply } := by
  refine h.next [] control (show w.control = [] ++ [] from (World.idle_eq hidle).2)
    (append_nil _).symm hgood ?_ (fun c hc => .inl (hcon c hc).2.1)
    (.inl fun c hc => (hcon c hc).1)
  rw [flatMap_eq_nil_iff.mpr fun c hc => (hcon c hc).2.2]
  exact hm

theorem Steps.none {own : Set Label} : Steps x own w (.ok Option.none) := fun _ hw' => absurd hw' (by simp)

theorem Steps.some {own : Set Label} (h : LeadsBy x own w w') : Steps x own w (.ok (Option.some w')) := by
  rintro w'' hw''
  cases hw''
  exact h

theorem Steps.calm {own : Set Label} (h : Leads x w w') : Steps x own w (.ok (Option.some w')) :=
  .some (h.mono fun _ hmem => hmem.elim)

theorem next_steps {own : Set Label} (h : Fine x w) (hidle : w.idle = true) : Steps x own w (do
    match ← w.state.tasks.ready.next with
    | Option.none => return Option.some w
    | Option.some (t, ready) =>
      let state := { w.state with tasks := { w.state.tasks with ready } }
      match state.record? t with
      | Option.none => return Option.some { w with state }
      | Option.some r =>
        if r.finished then return Option.some { w with state }
        else return Option.some { state, control := [.program t] }) := by
  obtain ⟨hwork, hcon⟩ := World.idle_eq hidle
  refine Sat.bind (P := fun y => w.state.tasks.ready.next = .ok y) ?_ ?_
  · cases hcall : w.state.tasks.ready.next with
    | ok => rfl
    | error f =>
      left
      unfold ReadyQueue.next at hcall
      split at hcall
      · cases hcall
      split at hcall
      · cases hcall
        rfl
      split at hcall
      · cases hcall
        rfl
      · cases hcall
  intro y hy
  rcases y with _ | p
  · exact Steps.calm ⟨h, .refl⟩
  obtain ⟨t, ready⟩ := p
  have hway : Way x ∅ w.state w.debts { w.state with tasks := { w.state.tasks with ready } } w.debts :=
    .pop hy
  have hgood : Good x { w.state with tasks := { w.state.tasks with ready } } w.work none none :=
    h.good.other rfl
  have hros := h.roster.way hway
  have hstay : ∀ reply, Leads x w
      (World.mk { w.state with tasks := { w.state.tasks with ready } } w.work w.control reply) := by
    intro reply
    refine ⟨⟨hgood, hros, h.sources.way hway, h.shaped, fun t ht => ?_, h.told⟩, hway.ways⟩
    rw [hcon] at ht
    simp at ht
  simp only
  split
  · exact Steps.calm (hstay _)
  rename_i r hr
  split
  · exact Steps.calm (hstay _)
  rename_i hfin
  have hdebts : w.debts = [] := by
    unfold World.debts
    rw [hcon]
    rfl
  rw [hdebts] at hway hros
  refine Steps.calm ⟨⟨by rw [hwork] at hgood; exact hgood, hros, h.sources.way hway,
    .inr ⟨t, [], rfl, by simp⟩, fun t' ht' => ?_, fun seen hseen => ?_⟩,
    by rw [hdebts]; exact hway.ways⟩
  · obtain rfl : t' = t := by simpa using ht'
    exact ⟨r, hr, by simpa using hfin⟩
  · simp at hseen

theorem Fine.asked {own : Set Label} {s' : Scheduler} (h : Fine x w)
    (hgood : Good x s' w.work none none) (hway : Way x own w.state w.debts s' w.debts)
    (hrec : ∀ t, s'.record? t = w.state.record? t) : LeadsBy x own w { w with state := s' } := by
  obtain ⟨events, hlog⟩ := hway.log
  refine ⟨⟨hgood, h.roster.way hway, h.sources.way hway, h.shaped, fun t ht => ?_,
    fun seen hseen => ?_⟩, hway.ways⟩
  · obtain ⟨r, hr, hfin⟩ := h.running t ht
    exact ⟨r, (hrec t).trans hr, hfin⟩
  refine (h.told seen hseen).imp_right ?_
  rintro ⟨command, htook⟩
  exact ⟨command, by rw [hlog]; exact mem_append_right _ htook⟩

def Label.ofOwner : Label → Bool
  | .catalog _ => true
  | _ => false

theorem Label.ofOwner_not_mem {label : Label} (h : label.ofOwner = false) (op : Catalog.Op) :
    .catalog op ∉ ({label} : Set Label) := by
  rintro rfl
  cases h

theorem Fine.step (h : Fine x w) (label : Label) : Steps x {label} w (step x w label) := by
  cases label with
  | work answer =>
    simp only [Scheduler.step]
    rcases hwork : w.work with _ | _
    · exact Steps.none
    have hgood := h.good
    rw [hwork] at hgood
    refine Sat.bind (Sat.allow (runWork_runs hgood answer) (fun f hf => Fine.stayHalts hf)) ?_
    rintro ⟨s', work⟩ ⟨hgood', hm⟩
    exact Steps.calm (h.stays hgood' hm)
  | control answer =>
    simp only [Scheduler.step]
    split
    next loop rest hwork hcon =>
      refine Sat.bind (runControl_turned h hwork hcon answer) ?_
      rintro ⟨s', work, control⟩ hleads
      exact Steps.calm (hleads _)
    · exact Steps.none
  | call call =>
    simp only [Scheduler.step]
    rcases hrun : w.running with _ | _
    · exact Steps.none
    refine Sat.bind (runCall_steps h hrun call) ?_
    rintro ⟨s', work, control, reply⟩ hleads
    exact Steps.calm (hleads _ rfl)
  | yield kind outcome =>
    simp only [Scheduler.step]
    rcases hrun : w.running with _ | _
    · exact Steps.none
    refine Sat.bind (endStep_steps h hrun kind outcome) ?_
    rintro ⟨s', control⟩ hleads
    exact Steps.calm hleads
  | start request hasProgram priority =>
    simp only [Scheduler.step]
    split
    next hidle =>
      have hgood : Good x w.state [] none none := (World.idle_eq hidle).1 ▸ h.good
      refine Sat.bind (Sat.allow (startTask_replies hgood request hasProgram priority Option.none)
        (fun f hf => Fine.stayHalts hf)) ?_
      rintro ⟨answer, s'⟩ ⟨hgood', hm⟩
      exact Steps.calm (h.stays ((World.idle_eq hidle).1 ▸ hgood') hm)
    · exact Steps.none
  | cancel request =>
    simp only [Scheduler.step]
    split
    next hidle =>
      refine Steps.calm ?_
      rw [(World.idle_eq hidle).1]
      refine h.begins hidle ((World.idle_eq hidle).1 ▸ h.good) .refl fun c hc => ?_
      obtain rfl := mem_singleton.mp hc
      exact ⟨trivial, trivial, rfl⟩
    · exact Steps.none
  | signal request =>
    simp only [Scheduler.step]
    split
    next hidle =>
      obtain ⟨hwork, hcon⟩ := World.idle_eq hidle
      have hgood : Good x w.state [] none none := hwork ▸ h.good
      have hros : Roster w.state [] := by
        have hr := h.roster
        unfold World.debts at hr
        rw [hcon] at hr
        exact hr
      refine Sat.bind (Sat.allow (signal_leaves hgood hros request)
        (fun f hf => Fine.stayHalts hf)) ?_
      rintro s' ⟨hgood', hm⟩
      exact Steps.calm (h.stays (hwork ▸ hgood') hm)
    · exact Steps.none
  | stop =>
    simp only [Scheduler.step]
    split
    next hidle =>
      split
      · exact Steps.calm ⟨h, .refl⟩
      refine Steps.calm ?_
      have hgood : Good x { w.state with stopping := true } [] none none :=
        Good.other ((World.idle_eq hidle).1 ▸ h.good) rfl
      rw [(World.idle_eq hidle).1]
      refine h.begins hidle hgood (.idle rfl) fun c hc => ?_
      obtain rfl := mem_singleton.mp hc
      exact ⟨trivial, trivial, rfl⟩
    · exact Steps.none
  | turn | unpinPlaces =>
    simp only [Scheduler.step]
    split
    · exact Steps.calm (h.stays (h.good.other rfl) (.idle rfl))
    · exact Steps.none
  | harvest limit =>
    simp only [Scheduler.step]
    split
    next hidle =>
      obtain ⟨hwork, hcon⟩ := World.idle_eq hidle
      have hmail := h.good.mailboxes.harvest limit
      have hseen := h.good.mailboxes.harvested limit
      generalize hhar : w.state.board.harvest limit = y at hmail hseen
      obtain ⟨seen, board⟩ := y
      simp only
      have hmoves : Moves x w.state [] { w.state with board } [] := .idle rfl
      have hdebts : (seen.map Control.observe).flatMap Control.debts = [] := by
        refine flatMap_eq_nil_iff.mpr fun c hc => ?_
        obtain ⟨o, -, rfl⟩ := mem_map.mp hc
        rfl
      have hros : Roster { w.state with board } [] := by
        have hr := h.roster
        unfold World.debts at hr
        rw [hcon] at hr
        exact hr.moves hmoves
      refine Steps.calm ⟨⟨h.good.board hmail, ?_, h.sources.ways hmoves.ways, .inl fun c hc => ?_,
        fun t ht => ?_, fun o ho => ?_⟩, ?_⟩
      · unfold World.debts
        rw [hdebts]
        exact hros
      · obtain ⟨o, -, rfl⟩ := mem_map.mp hc
        exact trivial
      · obtain ⟨o, -, heq⟩ := mem_map.mp ht
        cases heq
      · obtain ⟨o', ho', heq⟩ := mem_map.mp ho
        cases heq
        exact hseen o ho'
      unfold World.debts
      rw [hdebts, hcon]
      exact hmoves.ways
    · exact Steps.none
  | flush =>
    simp only [Scheduler.step]
    split
    next hidle =>
      refine Steps.calm ?_
      rw [(World.idle_eq hidle).1]
      refine h.begins hidle ((World.idle_eq hidle).1 ▸ h.good) .refl fun c hc => ?_
      rcases mem_append.mp hc with hc | hc
      · obtain ⟨route, -, rfl⟩ := mem_map.mp hc
        exact ⟨trivial, trivial, rfl⟩
      simp only [mem_cons, not_mem_nil, or_false] at hc
      rcases hc with rfl | rfl <;> exact ⟨trivial, trivial, rfl⟩
    · exact Steps.none
  | next =>
    simp only [Scheduler.step]
    split
    · exact next_steps h ‹_›
    · exact Steps.none
  | accept id acceptance =>
    simp only [Scheduler.step]
    split
    next hmay =>
      obtain ⟨command, htook⟩ := took_of_any hmay.2
      exact publication_steps h (h.good.mailboxes.accept (h.good.mailboxes.publishable htook)
        acceptance hmay.1)
    · exact Steps.none
  | complete id terminal =>
    simp only [Scheduler.step]
    split
    next hmay =>
      obtain ⟨command, htook⟩ := took_of_any hmay
      exact publication_steps h (h.good.mailboxes.complete (h.good.mailboxes.publishable htook)
        terminal)
    · exact Steps.none
  | setSource e source =>
    simp only [Scheduler.step]
    split
    next hopen =>
      have hwork := World.open_work hopen
      have hgood' := setSource_good (hwork ▸ h.good) e source
      cases hacc : (setSource x w.state e source).1 with
      | error =>
        have hsame : (setSource x w.state e source).2 = w.state := by
          rcases setSource_cases x w.state e source with ⟨_, heq⟩ | ⟨-, heq⟩
          · rw [heq]
          rw [heq] at hacc
          cases hacc
        rw [hsame]
        exact Steps.calm (h.stays h.good .refl)
      | ok =>
        have hway : Way x {.setSource e source} w.state w.debts (setSource x w.state e source).2
          w.debts := .register hacc rfl
        obtain ⟨sources, log, heq⟩ := setSource_eq x w.state e source
        exact Steps.some (h.asked (hwork ▸ hgood') hway (fun t => record?_congr (by rw [heq]) t))
    · exact Steps.none
  | pinPlaces =>
    simp only [Scheduler.step]
    split
    · refine Steps.calm (h.stays ?_ ?_)
      · unfold pinPlaces
        split
        · exact h.good.other rfl
        · exact h.good
      unfold pinPlaces
      split
      · exact .idle rfl
      · exact .refl
    · exact Steps.none
  | catalog op =>
    simp only [Scheduler.step]
    split
    next hmay =>
      refine Sat.bind (Sat.allow (ownerCall_sat h.good hmay.2) (fun f hf => .inl hf)) ?_
      rintro s' ⟨hgood', hcal⟩
      have hway : Way x {.catalog op} w.state w.debts s' w.debts := .owner op hmay.2 hcal rfl
      refine Steps.some (h.asked hgood' hway fun t => record?_congr ?_ t)
      rcases ownerCall_log hcal with ⟨c, rfl, -⟩ | ⟨e, c, -, -, rfl⟩ <;> rfl
    · exact Steps.none

end Step
end JitLlm.Scheduler
