import JitLlm.Scheduler.Asks
import JitLlm.Scheduler.Machine
import JitLlm.Scheduler.Roster

/-!
# The other calls

Tasks, requests' leases, work, finishing, and the turns of the loops: each is, as the stages are,
a sequence of moves that leaves `Good`. The checks on the task table need what the roster says of
the state a call starts in, that a record found is of a live task and finished only if the task
is; the rest of what may end the process is in `Ends`.
-/

namespace JitLlm.Scheduler

open Base Lib List Option
open Catalog hiding Operation Reachable

variable {x : Config} {s s' : Scheduler} {k : List Debt}

def Replies {α : Type} (x : Config) (s : Scheduler) (rest : List Work) :
    Checked (α × Scheduler) → Prop :=
  Sat (Ends x s []) fun y => Good x y.2 rest none none ∧ Moves x s [] y.2 []

theorem Replies.same {α : Type} {a : α} {rest : List Work} (h : Good x s rest none none) :
    Replies x s rest (.ok (a, s)) := ⟨h, .refl⟩

/-! ## Tasks -/

section Tasks

variable {rest : List Work} {t : TaskId} {r : TaskRecord}

theorem Roster.unfinished (h : Roster s k) (hr : s.record? t = some r) (hfin : r.finished = false) :
    ∃ v, s.tasks.describe t = some v ∧ v.outcome = none := by
  obtain ⟨v, hv, hout⟩ := h.known t r hr
  rw [hfin] at hout
  exact ⟨v, hv, isNone_iff_eq_none.mp (by simpa using hout)⟩

theorem makeReady_sat (hr : r.finished = false →
    ∃ v, s.tasks.describe r.id = some v ∧ v.outcome = none) :
    Sat (fun f => Fatal.outside f = true) (fun s' => s.makeReady r = .ok s') (s.makeReady r) := by
  cases hready : s.makeReady r with
  | ok => rfl
  | error f =>
    unfold makeReady at hready
    split at hready
    · simp at hready
    rename_i hfin
    obtain ⟨v, hv, hout⟩ := hr (by simpa using hfin)
    cases hcall : s.tasks.makeReady r.id r.priority with
    | error =>
      rw [hcall] at hready
      obtain rfl := Except.error.inj hready
      unfold TaskTable.makeReady at hcall
      split at hcall
      · simp at hcall
      split at hcall
      · simp at hcall
      cases hq : s.tasks.ready.makeReady r.id r.priority with
      | ok => simp [hq, pure, Except.pure] at hcall
      | error =>
        rw [hq] at hcall
        obtain rfl := Except.error.inj hcall
        exact (readyQueue_makeReady_outside _ _ _).err hq
    | ok y =>
      obtain ⟨answer, tasks⟩ := y
      obtain ⟨-, ⟨fresh, v', rfl, -⟩ | ⟨-, -, hfini⟩⟩ := TaskTable.makeReady_ok hcall
      · rw [hcall] at hready
        cases hready
      have := hfini v hv
      simp [hout] at this

section

variable (h : Good x s rest none none)
include h

theorem makeReady_good (hready : s.makeReady r = .ok s') :
    Good x s' rest none none := h.woken ((makeReady_woken r).val hready)

theorem startTask_replies (request : Nat)
    (hasProgram : Bool) (priority : Nat) (parent : Option TaskId) :
    Replies x s rest (startTask x s request hasProgram priority parent) := by
  unfold startTask
  split
  · exact .same h
  split
  · exact .same h
  refine Sat.bind (P := fun y => s.tasks.create parent = .ok y) ?_ ?_
  · cases hcreate : s.tasks.create parent with
    | error => exact .inl ((create_outside s.tasks parent).err hcreate)
    | ok => rfl
  rintro ⟨answer, tasks⟩ hcreate
  rcases answer with error | id
  · cases error <;> exact ⟨h, .refl⟩
  have hc := TaskTable.create_creates hcreate
  have hview : tasks.describe id = some { parent } := by rw [hc.views, if_pos rfl]
  cases parent with
  | none =>
    simp only [pure_bind]
    refine Sat.bind (Sat.mono (makeReady_sat fun _ => ⟨_, hview, rfl⟩) (fun f hf => .inl hf)
      fun _ hs' => hs') fun s' hs' => ?_
    exact ⟨makeReady_good (h.other rfl) hs', .tail .refl (.task (.start hcreate rfl hs'))⟩
  | some parent =>
    simp only
    cases hp : ({ s with tasks }.setRecord { id, request, priority }).record? parent with
    | none => exact .inl rfl
    | some p =>
      have hid := (record?_eq_some.mp hp).2.1
      subst hid
      simp only [require, ok_bind, pure_bind]
      refine Sat.bind (Sat.mono (makeReady_sat (s := ({ s with tasks }.setRecord
        { id, request, priority }).addWaiting p) fun _ => ⟨_, hview, rfl⟩) (fun f hf => .inl hf)
        fun _ hs' => hs') fun s' hs' => ?_
      exact ⟨makeReady_good (h.other rfl) hs', .tail .refl (.task (.spawn hcreate rfl hp hs'))⟩

theorem signalRecord_leaves (hr : Roster s k) (request i : Nat) :
    Leaves x s [] [] rest (signalRecord request s i) := by
  unfold signalRecord
  split
  next r hcell =>
    obtain ⟨hindex, hvalid⟩ := hr.filed i r hcell
    have hrec : s.record? r.id = some r := record?_eq_some.mpr ⟨hindex ▸ hcell, rfl, hvalid⟩
    split
    · exact ⟨h, .refl⟩
    rename_i hskip
    have hfin : r.finished = false := by
      simp only [not_or, Bool.not_eq_true] at hskip
      exact hskip.2
    obtain ⟨v, hv, -⟩ := hr.known r.id r hrec
    simp only [viewOf, hv, require, ok_bind]
    split
    · exact ⟨h, .refl⟩
    have hmove : Moves x s [] (s.setRecord { r with signalled := true, awaitingSignal := false })
        (if r.awaitingSignal then [.wake r.id] else []) := .tail .refl (.task (.signal ⟨hrec, hfin⟩))
    have hgood : Good x (s.setRecord { r with signalled := true, awaitingSignal := false }) rest
        none none := h.other rfl
    split
    next hawa =>
      rw [if_pos hawa] at hmove
      exact Leaves.after hmove (wake_leaves false hgood)
    rename_i hawa
    rw [if_neg hawa] at hmove
    exact ⟨hgood, hmove⟩
  · exact ⟨h, .refl⟩

theorem signal_leaves (hr : Roster s []) (request : Nat) :
    Leaves x s [] [] rest (s.signal request) := by
  refine Sat.imp (Sat.foldlM (I := fun _ s' => Good x s' rest none none ∧ Moves x s [] s' [])
    ?_ ⟨h, .refl⟩) fun _ hs' => hs'
  rintro s1 i - ⟨hgood, hm⟩
  exact Leaves.after hm (signalRecord_leaves hgood (hr.moves hm) request i)

theorem awaitSignal_replies (t : TaskId) :
    Good x (s.awaitSignal t).2 rest none none ∧ Moves x s [] (s.awaitSignal t).2 [] := by
  unfold awaitSignal
  rcases hopen : s.openRecord t with _ | r
  · exact ⟨h, .refl⟩
  obtain ⟨asked, -, -⟩ := openRecord_asks hopen
  simp only
  split
  · exact ⟨h.other rfl, .tail .refl (.task (.note asked.1 r.failed false))⟩
  split
  · exact ⟨h, .refl⟩
  rename_i hfresh
  exact ⟨h.other rfl, .tail .refl (.task (.awaitSignal asked (by simpa using hfresh)))⟩

theorem takeFailure_replies (t : TaskId) :
    Good x (s.takeFailure t).2 rest none none ∧ Moves x s [] (s.takeFailure t).2 [] := by
  unfold takeFailure
  rcases hr : s.record? t with _ | r
  · exact ⟨h, .refl⟩
  have hid := (record?_eq_some.mp hr).2.1
  subst hid
  exact ⟨h.other rfl, .tail .refl (.task (.note hr false r.signalled))⟩

theorem stepped_leaves (hr : Roster s k)
    (hrec : s.record? r.id = some r) : Leaves x s [] [] rest (s.makeReady r) := by
  refine Sat.mono (makeReady_sat fun hfin => hr.unfinished hrec hfin) (fun f hf => .inl hf)
    fun s' hs' => ?_
  exact ⟨makeReady_good h hs', .tail .refl (.task (.ready hrec hs'))⟩

theorem cancelTask_leaves (hr : Roster s k)
    (hrec : s.record? t = some r) : Leaves x s [] [] rest (s.cancelTask t) := by
  refine Sat.bind (P := fun y => s.tasks.cancel t = .ok y) ?_ ?_
  · cases hcan : s.tasks.cancel t with
    | error => exact .inl ((cancel_outside s.tasks t).err hcan)
    | ok => rfl
  rintro ⟨answer, tasks⟩ hcan
  cases answer with
  | ok => exact ⟨h.other rfl, .tail .refl (.task (.cancel t hcan))⟩
  | error =>
    obtain ⟨v, hv, -⟩ := hr.known t r hrec
    obtain ⟨task, htask, -⟩ := TaskTable.describe_some.mp hv
    unfold TaskTable.cancel at hcan
    simp only [htask] at hcan
    obtain ⟨tasks', -, hcan⟩ := bind_ok hcan
    simp [pure, Except.pure] at hcan

end

end Tasks

/-! ## Leases and work -/

section Leases

variable {rest : List Work} {t : TaskId} {id : OperationId}

theorem freshUse_sat {c c1 : Catalog} {closure : Closure} {lease : LeaseId}
    (hreach : Catalog.Reachable c1)
    (hacq : c.acquireLease closure = .ok (.ok lease, c1)) (tick : Nat) :
    Sat Catalog.Own (fun y => c1.recordUse lease tick = .ok (.ok (), y.2) ∧ Alike c1 y.2 ∧
      Catalog.Reachable y.2) (expect .freshUse (c1.recordUse lease tick)) := by
  have hfound : ∃ found, c1.leases.find? lease = some found := by
    rcases (acquireLease_sat closure).val hacq with ⟨error, herror, -⟩ |
      ⟨lease', found, leases, hok, -, hins, hleases, -⟩
    · simp at herror
    cases hok
    exact ⟨_, by rw [hleases, SlotTable.find?_insert hins, if_pos rfl]⟩
  obtain ⟨found, hfound⟩ := hfound
  refine Sat.bind (call_sat hreach (.recordUse lease tick) rfl (recordUse_sat lease tick)).self ?_
  rintro ⟨answer, c2⟩ ⟨⟨⟨-, halike⟩, hreach2⟩, hcall⟩
  cases answer with
  | ok => exact ⟨hcall, halike, hreach2⟩
  | error => exact nomatch (recordUse_refused hcall).symm.trans hfound

theorem holdLease_replies (h : Good x s rest none none) (t : TaskId) (closure : Closure) :
    Replies x s rest (holdLease x s t closure) := by
  unfold holdLease
  rcases hopen : s.openRecord t with _ | r
  · exact .same h
  obtain ⟨asked, rfl, -⟩ := openRecord_asks hopen
  simp only
  split
  · exact .same h
  refine Sat.bind (owned ((call_sat h.reach (.acquireLease closure) rfl
    (acquireLease_sat closure)).self)) ?_
  rintro ⟨answer, c1⟩ ⟨⟨hcase, hreach1⟩, hacq⟩
  rcases answer with _ | lease
  · exact ⟨h, .refl⟩
  obtain ⟨error, herror, -⟩ | ⟨lease', found, leases, -, -, -, -, halike1⟩ := hcase
  · simp at herror
  refine Sat.bind (owned (freshUse_sat hreach1 hacq s.turn)) ?_
  rintro ⟨u, c2⟩ ⟨hused, halike2, hreach2⟩
  refine ⟨?_, .tail .refl (.hold asked hacq hused)⟩
  exact Good.other (s := ({ s with catalog := c2 } : Scheduler).emit
    (.leased lease r.id closure.extents)) ((h.touches (halike1.trans halike2).touches hreach2).emit
      rfl (h.mailboxes.cons (by simp))) rfl

theorem endLease_replies (h : Good x s rest none none) (t : TaskId) (lease : LeaseId) :
    Replies x s rest (s.endLease t lease) := by
  unfold endLease
  split
  next r held hr found =>
    split
    · exact .same h
    rename_i hown
    have hid := (record?_eq_some.mp hr).2.1
    subst hid
    set ended : Held := { held with ending := true } with hended
    set s1 : Scheduler := { s with held := s.held.insert lease ended } with hs1
    have hmove : Moves x s [] s1 (ended.due lease) := by
      have hm : Moves x s [] s1 (ended.due lease ++ []) := .tail .refl (.ending found)
      rwa [append_nil] at hm
    have hgood : Good x s1 rest none none := h.other rfl
    have hfound : s1.held.find? lease = some ended := OrdMap.find?_insert_self ..
    simp only
    split
    next hnone =>
      rw [Held.due, if_pos ⟨rfl, hnone⟩] at hmove
      refine Sat.bind (Leaves.after hmove (releaseHeld_leaves hgood hfound rfl hnone)) ?_
      exact fun _ hs' => hs'
    rename_i hsome
    rw [Held.due, if_neg (fun hd => hsome hd.2)] at hmove
    split
    next hwaits =>
      simp only [Bool.and_eq_true, Bool.not_eq_true', contains_eq_mem,
        decide_eq_false_iff_not] at hwaits
      refine ⟨hgood.other rfl, hmove.tail ?_⟩
      exact .waitOwn hfound (not_not.mp hown) rfl hsome hwaits.2 ⟨hr, hwaits.1⟩
    · exact ⟨hgood, hmove⟩
  · exact .same h

theorem ancestorHolds_outside (s : Scheduler) (fuel : Nat) (t : TaskId) :
    Outside (s.ancestorHolds fuel t) := by
  induction fuel generalizing t with
  | zero => exact rfl
  | succ fuel ih =>
    unfold ancestorHolds
    split
    · trivial
    split
    · trivial
    · exact ih _

theorem awaitRelease_replies (h : Good x s rest none none) (t : TaskId) (extents : List ExtentId) :
    Replies x s rest (awaitRelease x s t extents) := by
  unfold awaitRelease
  rcases hopen : s.openRecord t with _ | r
  · exact .same h
  obtain ⟨asked, rfl, -⟩ := openRecord_asks hopen
  refine Sat.bind (P := fun held => s.ancestorHolds (s.records.length + 1) r.id = .ok held)
    ?_ fun ancestor hanc => ?_
  · cases hholds : s.ancestorHolds (s.records.length + 1) r.id with
    | error => exact .inl ((ancestorHolds_outside s _ _).err hholds)
    | ok => rfl
  cases ancestor with
  | true => exact ⟨h, .refl⟩
  | false =>
    simp only [Bool.false_eq_true, if_false]
    rcases hover : s.overlapping r.id extents with _ | p
    · exact ⟨h, .refl⟩
    obtain ⟨lease, held⟩ := p
    have hmem := mem_of_find?_eq_some hover
    have hother := find?_some hover
    simp only [Bool.and_eq_true, decide_eq_true_eq] at hother
    have hfound : s.held.find? lease = some held := OrdMap.mem_entries_iff.mp hmem
    simp only
    split
    · exact ⟨h, .refl⟩
    split
    · exact ⟨h, .refl⟩
    rename_i hfresh _
    simp only [contains_eq_mem, decide_eq_true_eq] at hfresh
    refine ⟨h.other rfl, .tail .refl ?_⟩
    exact .waitRelease hfound (by simpa using hother.1) hanc hfresh asked

theorem lease_sat (h : Good x s rest none none) (t : TaskId) (basis : Over) :
    Sat (Ends x s []) (fun y => (∃ error, y = (.error error, s)) ∨
      ∃ own held s1, y = (.ok (own, held), s1) ∧ s.lease t basis = .ok (.ok (own, held), s1) ∧
        Good x s1 rest none none ∧ s.board.available ≠ 0) (s.lease t basis) := by
  cases hlease : s.lease t basis with
  | error =>
    cases basis with
    | held lease =>
      simp only [Scheduler.lease] at hlease
      split at hlease
      · cases hlease
      split at hlease
      · cases hlease
      split at hlease
      · cases hlease
      split at hlease <;> cases hlease
    | closure closure =>
      simp only [lease] at hlease
      split at hlease
      · cases hlease
      cases hcall : s.catalog.acquireLease closure with
      | error =>
        rw [hcall] at hlease
        obtain rfl := Except.error.inj hlease
        exact .ofOwn ((acquireLease_sat closure).err hcall)
      | ok y =>
        obtain ⟨answer, c1⟩ := y
        rw [hcall] at hlease
        rcases answer with _ | lease
        · cases hlease
        have hreach1 := ((call_sat h.reach (.acquireLease closure) rfl
          (acquireLease_sat closure)).val hcall).2
        cases hused : expect .freshUse (c1.recordUse lease s.turn) with
        | error =>
          simp only [hused, ok_bind, error_bind] at hlease
          obtain rfl := Except.error.inj hlease
          exact .ofOwn ((freshUse_sat hreach1 hcall s.turn).err hused)
        | ok => simp [hused, pure, Except.pure] at hlease
  | ok y =>
    cases basis with
    | held lease =>
      simp only [Scheduler.lease] at hlease
      split at hlease
      · cases hlease
        exact .inl ⟨_, rfl⟩
      split at hlease
      · cases hlease
        exact .inl ⟨_, rfl⟩
      split at hlease
      · cases hlease
        exact .inl ⟨_, rfl⟩
      split at hlease
      · cases hlease
        exact .inl ⟨_, rfl⟩
      rename_i hav
      cases hlease
      exact .inr ⟨_, _, _, rfl, rfl, h.other rfl, hav⟩
    | closure closure =>
      simp only [lease] at hlease
      split at hlease
      · cases hlease
        exact .inl ⟨_, rfl⟩
      rename_i hav
      obtain ⟨⟨answer', c1⟩, hcall, hlease⟩ := bind_ok hlease
      rcases answer' with _ | _
      · cases hlease
        exact .inl ⟨_, rfl⟩
      obtain ⟨hcase, hreach1⟩ := (call_sat h.reach (.acquireLease closure) rfl
        (acquireLease_sat closure)).val hcall
      obtain ⟨⟨u, c2⟩, hused, hlease⟩ := bind_ok hlease
      obtain ⟨-, halike2, hreach2⟩ := (freshUse_sat hreach1 hcall s.turn).val hused
      obtain ⟨error, herror, -⟩ | ⟨lease', found, leases, -, -, -, -, halike1⟩ := hcase
      · simp at herror
      cases hlease
      exact .inr ⟨_, _, _, rfl, rfl, h.touches (halike1.trans halike2).touches hreach2, hav⟩

theorem Good.workOpened {op : Operation} (h : Good x s rest none none)
    (hq : quiet rest) (hop : op.work = some op) (hrun : op.quarantined = false)
    (ho : Opened s id op s') : Good x s' rest none none ∧ Unpublished s' id := by
  have hstage := Operation.stage_of_work hop
  have hpub : op.published = false := by
    obtain ⟨heq, -⟩ := work_eq hop
    rw [heq]
  refine ⟨?_, op, by rw [ho.find, if_pos rfl], hpub, hrun⟩
  obtain ⟨board, rfl⟩ := ho.state
  refine h.same ⟨fun e _ => .of rfl rfl rfl rfl (phase_cons_of_ne _ ?_), fun id' => ?_, rfl,
    .refl _, .refl _, .refl _, .refl _⟩ h.reach
    ho.mailboxes fun id' hid' => absurd (mem_of_mem_head? hid') (hq id')
  · obtain ⟨-, hkind | hkind⟩ := work_eq hop <;> simp [hkind, Event.about]
  unfold stageOp
  rw [ho.find]
  split
  next heq =>
    rw [heq, ho.fresh]
    exact hstage
  · rfl

theorem submitted {s1 s2 : Scheduler} {r : TaskRecord} {basis : Over} {own held : Option LeaseId}
    {tasks : TaskTable} {op : Operation} (hgood : Good x { s1 with tasks } rest none none)
    (hq : quiet rest) (asked : Asks s r) (hleased : s.lease r.id basis = .ok (.ok (own, held), s1))
    (hprep : s1.tasks.prepareOperation r.id = .ok (.ok (), tasks)) (hwork : op.work = some op)
    (hrun : op.quarantined = false) (hmade : op = { op with id, task := r.id, lease := own, held })
    (ho : Opened { s1 with tasks } id op s2) :
    Good x ((s2.addWaiting r).emit (submission id own basis)) (.publish id :: rest) none none ∧
      Moves x s [] ((s2.addWaiting r).emit (submission id own basis)) [] := by
  have hs1 := lease_eq hleased
  obtain ⟨hgood2, hunpub⟩ := hgood.workOpened hq hwork hrun ho
  have hmail : Mailboxes s2.board s2.operations (submission id own basis :: s2.log) := by
    refine ho.mailboxes.cons ?_
    cases basis <;> simp [submission]
  have habout : (submission id own basis).about = none := by
    cases basis <;> rfl
  have hwaits : Good x (s2.addWaiting r) rest none none := hgood2.other rfl
  refine ⟨Good.add (hwaits.emit habout hmail) rfl hq ?_, ?_⟩
  · rintro id' heq
    obtain rfl := Work.publish.inj heq
    exact ⟨rfl, hunpub⟩
  have hcell := ho.cell
  have hfresh := ho.fresh
  obtain ⟨board, rfl⟩ := ho.state
  rw [hs1] at hcell hfresh
  refine .tail .refl (.submit asked hleased hprep hwork hrun hmade hcell hfresh ?_)
  have hops : s1.operations = s.operations := by rw [hs1]
  have hlog : s1.log = s.log := by rw [hs1]
  simp only [hops, hlog]
  rfl

theorem submit_answers (h : Good x s rest none none) (hq : quiet rest) (hr : Roster s k)
    (t : TaskId) (basis : Over) (command : Command) :
    Answers x s rest (submit x s t basis command) := by
  unfold submit
  split
  · exact .same h
  rcases hopen : s.openRecord t with _ | r
  · exact .same h
  obtain ⟨asked, rfl, view, hview, hcan⟩ := openRecord_asks hopen
  refine Sat.bind (lease_sat h r.id basis) ?_
  rintro y (⟨error, rfl⟩ | ⟨own, held, s1, rfl, hleased, hgood, hav⟩)
  · exact ⟨h, .refl⟩
  have hs1 := lease_eq hleased
  have htasks : s1.tasks = s.tasks := by rw [hs1]
  refine Sat.bind (P := fun y => s1.tasks.prepareOperation r.id = .ok y) ?_ ?_
  · cases hcall : s1.tasks.prepareOperation r.id with
    | error => exact .inl ((prepareOperation_outside _ _).err hcall)
    | ok => rfl
  rintro ⟨answer, tasks⟩ hprep
  -- The task is open: its preparation is not refused.
  obtain ⟨u, rfl⟩ : ∃ u, answer = .ok u := by
    cases answer with
    | ok u => exact ⟨u, rfl⟩
    | error =>
      obtain ⟨v, hv, hout⟩ := hr.unfinished asked.1 asked.2
      cases hview.symm.trans hv
      obtain ⟨task, htask, rfl⟩ := TaskTable.describe_some.mp hv
      rw [htasks] at hprep
      simp only [TaskTable.prepareOperation, htask, hcan, hout] at hprep
      split at hprep
      · simp at *
      split at hprep <;> cases hprep
  simp only [pure_bind]
  have hgood' : Good x { s1 with tasks } rest none none := hgood.other rfl
  refine Sat.bind (openOperation_sat hgood'.mailboxes (by rw [hs1]; exact hav)
    (fun _ => rfl) fun _ => ⟨rfl, rfl⟩) ?_
  rintro ⟨id, s2⟩ ho
  exact submitted hgood' hq asked hleased hprep (by cases command <;> rfl) rfl rfl ho

end Leases

/-! ## Finishing -/

section Finish

variable {e : ExtentId} {v : Eviction} {t : TaskId} {l : Load}

theorem abandon_sat (h : Good x s [] none none) (hv : s.evictions.find? e = some v)
    (hwait : v.waiters = []) (hstage : v.stage = .slot) :
    Sat Catalog.Own (fun y => y.2 = [] ∧ Good x y.1 [] none none ∧ Moves x s [] y.1 [] ∧
      y.1.evictions = s.evictions.erase e) (abandon (s, []) e) := by
  have hok := h.eviction e v (by simp) hv
  have hop : v.operation = none := hok.idle (by rw [hstage]; rfl)
  obtain ⟨place, p, hev, hflags, hstands, hope⟩ := hok.evicting
  have hfresh : p.progress = .fresh := by simpa [grip, Eviction.stands, hstage] using hstands
  have hidle : p.operation = none := by simpa [Eviction.operates, hop] using hope
  simp only [Eviction.flags, hstage] at hflags
  obtain ⟨-, hwb, hopen, hwriteBack, hlan, hslot⟩ := hflags
  have hclosed : v.releaseOpen = false := by
    cases hro : v.releaseOpen with
    | false => rfl
    | true => simp [hro] at hopen
  have hqueued : e ∉ s.queued := by
    intro hmem
    obtain ⟨l, hl, -⟩ := (h.queued.each e hmem).2.2
    cases hev.load.symm.trans hl
  have hblocked : e ∉ s.blocked := by
    intro hmem
    obtain ⟨l, hl, -⟩ | ⟨v', hv', -, hopens, -⟩ := (h.blocked.each e hmem).2.2
    · cases hev.load.symm.trans hl
    cases hv.symm.trans hv'
    simp [hstage, EvictStage.opens] at hopens
  have hrel : e ∉ s.releaseQueue := by
    intro hmem
    obtain ⟨v', hv', -, hrele, -⟩ := (h.release.each e hmem).2.2
    cases hv.symm.trans hv'
    simp [hstage] at hrele
  have hgood : Good x { s with slotWaiters := remove s.slotWaiters e } [] none none :=
    h.requeue h.queued (h.slotWaiters.mono filter_sublist fun e' _ hs hP => ⟨hs, rfl, hP⟩)
      h.blocked h.release
  refine Sat.bind (endResting_sat false hgood hv rfl hop hslot hclosed hwait
    ⟨hqueued, by simp [remove], hblocked, hrel⟩
    ⟨hev.load, hev.ticket, hev.source, hev.phase, hev.placed, hev.writeBack, hev.handoff⟩ hwb hidle
    (by simp) fun _ => by simp [EvictPhase.untouched, hfresh]) ?_
  rintro ⟨s1, ended⟩ ⟨rfl, hgood1, r, r', hends⟩
  have hmove := Move.endEviction (x := x) (k := []) hends fun hkept => by simp [hfresh] at hkept
  rw [hwait] at hmove
  exact ⟨rfl, hgood1, Moves.trans requeue_moves hmove.moves, hends.evictions⟩

theorem abandonable_spec (s : Scheduler) : s.abandonable.Nodup ∧ ∀ e ∈ s.abandonable,
    ∃ v, s.evictions.find? e = some v ∧ v.waiters = [] ∧ v.stage = .slot := by
  obtain ⟨hnodup, heach⟩ := s.evictions.filter_keys fun p => p.2.waiters.isEmpty && p.2.stage = .slot
  refine ⟨hnodup, fun e he => ?_⟩
  obtain ⟨v, hv, hp⟩ := heach e he
  simp only [Bool.and_eq_true, List.isEmpty_iff, decide_eq_true_eq] at hp
  exact ⟨v, hv, hp⟩

theorem abandonAll_sat (h : Good x s [] none none) (extents : List ExtentId) (hn : extents.Nodup)
    (hall : ∀ e ∈ extents, ∃ v, s.evictions.find? e = some v ∧ v.waiters = [] ∧ v.stage = .slot) :
    Sat (Ends x s []) (fun y => y.2 = [] ∧ Good x y.1 [] none none ∧ Moves x s [] y.1 [])
      (extents.foldlM abandon (s, [])) := by
  refine Sat.imp (Sat.foldlM (I := fun left y => y.2 = [] ∧ Good x y.1 [] none none ∧
    Moves x s [] y.1 [] ∧ left.Nodup ∧ ∀ e ∈ left, ∃ v, y.1.evictions.find? e = some v ∧
      v.waiters = [] ∧ v.stage = .slot) ?_ ⟨rfl, h, .refl, hn, hall⟩) ?_
  · rintro ⟨s1, work⟩ e left ⟨rfl, hgood, hm, hnodup, heach⟩
    obtain ⟨v, hv, hwait, hstage⟩ := heach e mem_cons_self
    refine Sat.mono (abandon_sat hgood hv hwait hstage) (fun f hf => .ofOwn hf) ?_
    rintro ⟨s2, work⟩ ⟨rfl, hgood2, hm2, hev⟩
    refine ⟨rfl, hgood2, hm.trans hm2, (nodup_cons.mp hnodup).2, fun e' he' => ?_⟩
    have hne : e' ≠ e := by
      rintro rfl
      exact (nodup_cons.mp hnodup).1 he'
    obtain ⟨v', hv', hrest⟩ := heach e' (mem_cons_of_mem _ he')
    exact ⟨v', by rw [hev, OrdMap.find?_erase_ne hne]; exact hv', hrest⟩
  rintro ⟨s1, work⟩ ⟨hw, hgood, hm, -, -⟩
  exact ⟨hw, hgood, hm⟩

theorem releaseHeld_held (x : Config) {lease : LeaseId} {held : Held}
    (h : s.releaseHeld lease held = .ok s') : s'.held = s.held.erase lease := by
  obtain ⟨⟨u, c⟩, -, h⟩ := bind_ok h
  obtain ⟨⟨u', c'⟩, -, h⟩ := bind_ok h
  obtain ⟨records, ready, rfl⟩ := ((wakeAll_moves (x := x) (k := []) held.waiters _).val h).2.eq
  rfl

theorem endedBy_spec (s : Scheduler) (t : TaskId) : (s.endedBy t).Nodup ∧ ∀ lease ∈ s.endedBy t,
    ∃ held, s.held.find? lease = some held ∧ held.task = t ∧ held.operations = 0 := by
  obtain ⟨hnodup, heach⟩ := s.held.filter_keys fun p => p.2.task = t && p.2.operations = 0
  refine ⟨hnodup, fun lease hlease => ?_⟩
  obtain ⟨held, hheld, hp⟩ := heach lease hlease
  simp only [Bool.and_eq_true, decide_eq_true_eq] at hp
  exact ⟨held, hheld, hp⟩

theorem releaseAll_leaves (h : Good x s [] none none) (leases : List LeaseId)
    (hn : leases.Nodup) (hall : ∀ lease ∈ leases,
      ∃ held, s.held.find? lease = some held ∧ held.ending = true ∧ held.operations = 0) :
    Leaves x s (leases.map .release) [] [] (leases.foldlM releaseEnded s) := by
  refine Sat.imp (Sat.foldlM (I := fun left s' => Good x s' [] none none ∧
    Moves x s (leases.map .release) s' (left.map .release) ∧ left.Nodup ∧ ∀ lease ∈ left,
      ∃ held, s'.held.find? lease = some held ∧ held.ending = true ∧ held.operations = 0)
    ?_ ⟨h, .refl, hn, hall⟩) fun s' hs' => ⟨hs'.1, hs'.2.1⟩
  rintro s1 lease left ⟨hgood, hm, hnodup, heach⟩
  obtain ⟨held, hfound, hend, hnone⟩ := heach lease mem_cons_self
  unfold releaseEnded
  simp only [hfound, require, ok_bind]
  refine Sat.imp (Leaves.after hm (releaseHeld_leaves hgood hfound hend hnone)).self ?_
  rintro s2 ⟨⟨hgood2, hm2⟩, hcall⟩
  refine ⟨hgood2, hm2, (nodup_cons.mp hnodup).2, fun lease' hl' => ?_⟩
  have hne : lease' ≠ lease := by
    rintro rfl
    exact (nodup_cons.mp hnodup).1 hl'
  obtain ⟨held', hheld', hrest⟩ := heach lease' (mem_cons_of_mem _ hl')
  exact ⟨held', by rw [releaseHeld_held x hcall, OrdMap.find?_erase_ne hne]; exact hheld', hrest⟩

theorem Good.leave (h : Good x s [] none none) (t : TaskId) : Good x { s with
    loads := s.loads.mapVals fun _ load => load.leave t
    evictions := s.evictions.mapVals fun _ eviction =>
      { eviction with waiters := eviction.waiters.filter (· ≠ t) } } [] none none := by
  refine h.rewaited ⟨rfl, fun e => ?_, fun e => ?_⟩
  · simp only [OrdMap.find?_mapVals]
    rcases s.loads.find? e with _ | _
    · exact .none
    refine .some ?_
    simp only [Load.Alike, Load.leave]
    split <;> rfl
  simp only [OrdMap.find?_mapVals]
  rcases hv : s.evictions.find? e with _ | _
  · exact .none
  refine .some ⟨rfl, fun hstage => ?_⟩
  have hpar := (h.alike hv).2 hstage
  simp [hpar]

theorem withdraw_sat (h : Good x s [] none none) (t : TaskId) :
    Sat (Ends x s [.leave t, .leaveHeld t])
      (fun y => Good x y.1 y.2 none none ∧ Moves x s [.leave t, .leaveHeld t] y.1 [])
      (s.withdraw t) := by
  have hj : released [.leaveHeld t] := fun lease => by simp
  unfold withdraw
  have hleave := Move.leave (x := x) (s := s) (k := [.leaveHeld t]) (t := t)
  have hgood := h.leave t
  generalize ({ s with
    loads := s.loads.mapVals fun _ load => load.leave t
    evictions := s.evictions.mapVals fun _ eviction =>
      { eviction with waiters := eviction.waiters.filter (· ≠ t) } } : Scheduler) = s1 at *
  obtain ⟨hn, hall⟩ := abandonable_spec s1
  refine Sat.bind (Sat.allow (abandonAll_sat hgood _ hn hall)
    (fun f hf => .after hleave.moves (hf.lift hj))) ?_
  rintro ⟨s2, work⟩ ⟨rfl, hgood2, hm2⟩
  have hm : Moves x s [.leave t, .leaveHeld t] s2 [.leaveHeld t] := hleave.moves.trans (hm2.lift hj)
  have hheld := Move.leaveHeld (x := x) (s := s2) (k := []) (t := t) fun lease => by simp
  have hgood3 : Good x { s2 with held := s2.held.mapVals fun _ held => held.leave t } [] none none :=
    hgood2.other rfl
  have hended : ∀ lease ∈ endedBy { s2 with held := s2.held.mapVals fun _ held => held.leave t } t,
      ∃ held, (s2.held.mapVals fun _ held => held.leave t).find? lease = some held ∧
        held.ending = true ∧ held.operations = 0 := by
    intro lease hlease
    obtain ⟨held, hfound, htask, hnone⟩ := (endedBy_spec _ t).2 lease hlease
    refine ⟨held, hfound, ?_, hnone⟩
    simp only [OrdMap.find?_mapVals, map_eq_some_iff] at hfound
    obtain ⟨held0, -, rfl⟩ := hfound
    simp only [Held.leave] at htask ⊢
    simp [htask]
  have hnodup := (endedBy_spec { s2 with held := s2.held.mapVals fun _ held => held.leave t } t).1
  rw [append_nil] at hheld
  have hm3 := hm.trans hheld.moves
  refine Sat.bind (Leaves.after hm3 (releaseAll_leaves hgood3 _ hnodup hended)) ?_
  rintro s4 ⟨hgood4, hm4⟩
  refine Sat.bind (Sat.allow (releaseParked_runs hgood4 (by simp [quiet]) (some t))
    (fun f hf => .after hm4 hf)) ?_
  rintro ⟨s5, work⟩ ⟨hgood5, hm5⟩
  rw [append_nil] at hgood5
  exact ⟨hgood5, hm4.trans hm5⟩

/-! ### Cancelling a load -/

theorem Good.unqueued (h : Good x s [] none none) (hl : s.loads.find? e = some l) :
    (l.stage ≠ .queued → e ∉ s.queued) ∧ (l.stage ≠ .slot → e ∉ s.slotWaiters) ∧
      (l.stage.opens = false → e ∉ s.blocked) := by
  obtain ⟨p, hp, -⟩ := (h.load e l (by simp) hl).loading
  refine ⟨fun hstage hmem => ?_, fun hstage hmem => ?_, fun hstage hmem => ?_⟩
  · obtain ⟨l', hl', hqueued⟩ := (h.queued.each e hmem).2.2
    cases hl.symm.trans hl'
    exact hstage hqueued
  · obtain ⟨l', hl', hslot⟩ | ⟨v, hv, -⟩ := (h.slotWaiters.each e hmem).2.2
    · cases hl.symm.trans hl'
      exact hstage hslot
    · cases hp.eviction.symm.trans hv
  obtain ⟨l', hl', -, hopens⟩ | ⟨v, hv, -⟩ := (h.blocked.each e hmem).2.2
  · cases hl.symm.trans hl'
    simp [hstage] at hopens
  · cases hp.eviction.symm.trans hv

theorem Lined.remove {work : List Work} {skip : Option ExtentId} {q : List ExtentId}
    {P : ExtentId → Prop} (h : Lined work skip q P) (e : ExtentId) :
    Lined work skip (Scheduler.remove q e) P :=
  h.mono filter_sublist fun _ _ hs hP => ⟨hs, rfl, hP⟩

theorem Good.unqueue {queued slotWaiters blocked : List ExtentId}
    (h : Good x s [] none none) (hl : s.loads.find? e = some l) (hop : l.operation = none)
    (hqueued : queued = Scheduler.remove s.queued e ∨ queued = s.queued ∧ l.stage ≠ .queued)
    (hslot : slotWaiters = Scheduler.remove s.slotWaiters e ∨
      slotWaiters = s.slotWaiters ∧ l.stage ≠ .slot)
    (hblocked : blocked = Scheduler.remove s.blocked e ∨
      blocked = s.blocked ∧ l.stage.opens = false) :
    l.flags ∧ ∃ p, Hand x { s with queued, slotWaiters, blocked } [] e l p ∧
      l.stands x .free p.progress := by
  obtain ⟨hq, hs, hb⟩ := h.unqueued hl
  have hq' : Lined [] none queued (InQueue s) ∧ e ∉ queued := by
    obtain rfl | ⟨rfl, hstage⟩ := hqueued
    · exact ⟨h.queued.remove e, by simp [Scheduler.remove]⟩
    · exact ⟨h.queued, hq hstage⟩
  have hs' : Lined [] none slotWaiters (ForSlot s) ∧ e ∉ slotWaiters := by
    obtain rfl | ⟨rfl, hstage⟩ := hslot
    · exact ⟨h.slotWaiters.remove e, by simp [Scheduler.remove]⟩
    · exact ⟨h.slotWaiters, hs hstage⟩
  have hb' : Lined [] none blocked (ForMailbox s) ∧ e ∉ blocked := by
    obtain rfl | ⟨rfl, hstage⟩ := hblocked
    · exact ⟨h.blocked.remove e, by simp [Scheduler.remove]⟩
    · exact ⟨h.blocked, hb hstage⟩
  have hgood : Good x { s with queued, slotWaiters, blocked } [] none none :=
    h.requeue hq'.1 hs'.1 hb'.1 h.release
  have hok := hgood.load e l (by simp) hl
  exact ⟨hok.flags, hgood.takeLoad hl hok hop (.free rfl) (by simp [quiet]) hq'.2 hs'.2 hb'.2⟩

theorem Load.after_failed {p : LoadPhase} (hstands : l.stands x .free p.progress)
    (hreuse : p.reuse = l.reuse) (hmap : p.mapped = l.mapped)
    (hstage : l.stage = .mapping ∨ l.stage = .reading ∨ l.stage = .copying) :
    l.after x .failed 0 p := by
  rcases hstage with hstage | hstage | hstage
  · simp only [Load.stands, hstage] at hstands
    simp [Load.after, hstage, hstands.1, hreuse, hmap]
  · simp only [Load.stands, hstage] at hstands
    simpa [Load.after, hstage, hreuse, hmap] using hstands.2
  simp only [Load.stands, hstage] at hstands
  obtain ⟨i, a, hi, -, -⟩ := hstands
  simp [Load.after, hstage, hreuse, hmap, hi]

section

variable (h : Good x s [] none none) (hl : s.loads.find? e = some l)
include h hl

theorem Good.inFlight {id : OperationId} (hid : l.operation = some id) :
    ∃ op, s.find id = some op ∧ op.quarantined = false := by
  obtain ⟨p, -, -, -, -, hop⟩ := (h.load e l (by simp) hl).loading
  simp only [Load.operates, hid] at hop
  obtain ⟨route, command, hstage, -, -⟩ := hop
  unfold stageOp at hstage
  rcases hf : s.find id with _ | op
  · simp [hf] at hstage
  simp only [hf, bind_some, Operation.stage] at hstage
  split at hstage
  · simp at hstage
  rename_i hrun
  exact ⟨op, rfl, by simpa using hrun⟩

theorem cancelStage_runs
    (hstage : l.stage = .mapping ∨ l.stage = .reading ∨ l.stage = .copying) (answer : PushResult) :
    Runs x s [] (match l.operation.bind s.find with
      | none => onStage x { s with blocked := remove s.blocked e } e .failed 0
      | some op =>
        if !op.published then rollBack x s op
        else if l.stage = .reading then do
          check x.lanes.storage .missing
          return (if answer = .full then { s with cancels := s.cancels ++ [op.id] } else s, [])
        else return (s, [])) := by
  cases hop : l.operation with
  | none =>
    have hne : l.stage ≠ .queued ∧ l.stage ≠ .slot := by
      rcases hstage with hstage | hstage | hstage <;> simp [hstage]
    obtain ⟨hflags, p, hh, hstands⟩ := h.unqueue hl hop (.inr ⟨rfl, hne.1⟩)
      (.inr ⟨rfl, hne.2⟩) (.inl rfl)
    exact Runs.after requeue_moves (onStage_runs hh.good hh.found hh.loading hh.idle hflags
      (Load.after_failed hstands hh.reuse hh.mapped hstage))
  | some id =>
    obtain ⟨op, hf, hrun⟩ := h.inFlight hl hop
    have hid := (find_eq_some.mp hf).2.1
    simp only [bind_some, hf]
    split
    next hpub =>
      exact rollBack_runs h (by simp [quiet]) (by rw [hid]; exact hf) hrun (by simpa using hpub)
    split
    · unfold check
      split
      · simp only [ok_bind]
        split
        · exact ⟨h.other rfl, .idle rfl⟩
        · exact ⟨h, .refl⟩
      · exact .inl rfl
    · exact ⟨h, .refl⟩

theorem cancelled_runs (answer : PushResult) : Runs x s [] (match l.stage with
      | .queued => unwind x { s with queued := remove s.queued e } e
      | .slot => unwind x { s with slotWaiters := remove s.slotWaiters e } e
      | .mapping | .reading | .copying =>
        match l.operation.bind s.find with
        | none => onStage x { s with blocked := remove s.blocked e } e .failed 0
        | some op =>
          if !op.published then rollBack x s op
          else if l.stage = .reading then do
            check x.lanes.storage .missing
            return (if answer = .full then { s with cancels := s.cancels ++ [op.id] } else s, [])
          else return (s, [])
      | .unmapping | .releasing => return (s, [])) := by
  have hwaits : l.stage.opens = false → l.operation = none := (h.load e l (by simp) hl).idle
  split
  next hstage =>
    obtain ⟨hflags, p, hh, hstands⟩ := h.unqueue hl (hwaits (by rw [hstage]; rfl)) (.inl rfl)
      (.inr ⟨rfl, by simp [hstage]⟩) (.inr ⟨rfl, by rw [hstage]; rfl⟩)
    have hslot : l.slot = none := by
      simp only [Load.flags, hstage] at hflags
      exact hflags.2.2.1
    exact Runs.after requeue_moves (unwind_runs hh hslot hflags.unwinds)
  next hstage =>
    obtain ⟨hflags, p, hh, hstands⟩ := h.unqueue hl (hwaits (by rw [hstage]; rfl))
      (.inr ⟨rfl, by simp [hstage]⟩) (.inl rfl) (.inr ⟨rfl, by rw [hstage]; rfl⟩)
    have hslot : l.slot = none := by
      simp only [Load.flags, hstage] at hflags
      exact hflags.2.2.2.1
    exact Runs.after requeue_moves (unwind_runs hh hslot hflags.unwinds)
  · exact cancelStage_runs h hl (.inl ‹_›) answer
  · exact cancelStage_runs h hl (.inr (.inl ‹_›)) answer
  · exact cancelStage_runs h hl (.inr (.inr ‹_›)) answer
  · exact ⟨h, .refl⟩
  · exact ⟨h, .refl⟩

theorem cancelPageIn_runs (answer : PushResult) : Runs x s [] (cancelPageIn x s e l answer) := by
  have hgood : Good x (s.setLoad e { l with cancelling := true }) [] none none := by
    refine h.rewaited ⟨rfl, rel_insert hl rfl fun _ _ _ => rfl, fun e' => rel_refl fun v hv => ?_⟩
    exact h.alike hv
  have hmove : Moves x s [] (s.setLoad e { l with cancelling := true }) [] := setLoad_moves hl rfl
  refine Runs.after hmove ?_
  exact cancelled_runs hgood (OrdMap.find?_insert_self ..) answer

end

end Finish

/-! ## The turns of the loops -/

section Loops

variable {e : ExtentId}

def Turns {α : Type} (x : Config) (s : Scheduler) : Checked (Scheduler × List Work × α) → Prop :=
  Sat (Ends x s []) fun y => Good x y.1 y.2.1 none none ∧ Moves x s [] y.1 []

theorem Good.unpublished {op : Operation} {id : OperationId} {work : List Work}
    (h : Good x s work none none) (hf : s.find id = some op) (hpub : op.published = false) :
    op.quarantined = false := by
  obtain ⟨hcell, -, -⟩ := find_eq_some.mp hf
  cases hq : op.quarantined with
  | false => rfl
  | true =>
    have hasked := (h.mailboxes.asked _ op hcell).2 hq
    simp [hpub] at hasked

theorem flushRoute_turns (h : Good x s [] none none) (route : Route) (answer : PushResult) :
    Turns x s (flushRoute x s route answer) := by
  unfold flushRoute
  split
  · exact ⟨h, .refl⟩
  rename_i id rest _
  rcases hf : s.find id with _ | op
  · exact setPending_runs h route rest
  have hid := (find_eq_some.mp hf).2.1
  obtain ⟨hgood, hm⟩ := setPending_runs h route rest
  simp only
  split
  · exact ⟨hgood, hm⟩
  rename_i hpub
  have hf' : (s.setPending route rest).find op.id = some op := by rw [hid]; exact hf
  split
  · exact ⟨h, .refl⟩
  · obtain ⟨hgood', hm'⟩ := taken_runs hgood (by simp [quiet]) hf'
    exact ⟨hgood', hm.trans hm'⟩
  have hrun : op.quarantined = false := h.unpublished hf (by simpa using hpub)
  refine Sat.bind (Runs.after hm (rollBack_runs hgood (by simp [quiet]) hf' hrun
    (by simpa using hpub))) ?_
  rintro ⟨s1, work⟩ ⟨hgood1, hm1⟩
  rw [append_nil] at hgood1
  exact ⟨hgood1, hm1⟩

theorem remove_head {blocked : List ExtentId} (h : (e :: blocked).Nodup) :
    remove (e :: blocked) e = blocked := by
  obtain ⟨hnot, -⟩ := nodup_cons.mp h
  simp only [remove, ne_eq, decide_not, filter_cons, decide_true, Bool.not_true,
    Bool.false_eq_true, if_false]
  refine filter_eq_self.mpr fun e' he' => ?_
  simp only [Bool.not_eq_true', decide_eq_false_iff_not]
  rintro rfl
  exact hnot he'

theorem retried {s1 : Scheduler} {o : Option (Scheduler × List Work)} (h : Good x s [] none none)
    (hpop : Moves x s [] s1 [])
    (ho : ∀ y, o = some y → Good x y.1 (y.2 ++ []) none none ∧ Moves x s1 [] y.1 []) :
    Turns x s (match some o with
      | none => return (s1, [], true)
      | some none => return (s, [], false)
      | some (some (s, work)) => return (s, work, true)) := by
  rcases o with _ | y
  · exact ⟨h, .refl⟩
  obtain ⟨hgood, hm⟩ := ho y rfl
  rw [append_nil] at hgood
  exact ⟨hgood, hpop.trans hm⟩

theorem retryBlocked_turns (h : Good x s [] none none) : Turns x s (retryBlocked x s) := by
  unfold retryBlocked
  split
  · exact ⟨h, .refl⟩
  rename_i e blocked hblocked
  have hnodup : (e :: blocked).Nodup := hblocked ▸ h.blocked.nodup
  have hrem : blocked = remove s.blocked e := by rw [hblocked, remove_head hnodup]
  have hpopped : Good x { s with blocked } [] none none :=
    h.requeue h.queued h.slotWaiters (hrem ▸ h.blocked.remove e) h.release
  have hwaits := (h.blocked.each e (by rw [hblocked]; exact mem_cons_self)).2.2
  have hpop : Moves x s [] { s with blocked } [] := requeue_moves
  cases hl : s.loads.find? e with
  | some l =>
    obtain ⟨p0, hp0, -⟩ := (h.load e l (by simp) hl).loading
    obtain ⟨hop, hopens⟩ : l.operation = none ∧ l.stage.opens = true := by
      obtain ⟨l', hl', hwaits⟩ | ⟨v, hv, -⟩ := hwaits
      · cases hl.symm.trans hl'
        exact hwaits
      · cases hp0.eviction.symm.trans hv
    have hne : l.stage ≠ .queued ∧ l.stage ≠ .slot := by
      constructor <;> intro hstage <;> simp [hstage, Stage.opens] at hopens
    obtain ⟨hflags, p, hh, hstands⟩ := h.unqueue hl hop (.inr ⟨rfl, hne.1⟩)
      (.inr ⟨rfl, hne.2⟩) (.inl hrem)
    refine Sat.bind (Sat.mono (openStage_sat hh hflags hstands hopens)
      (fun f hf => hf.after hpop) fun _ ho => ho) fun o ho => ?_
    exact retried h hpop ho
  | none =>
    rcases hv : s.evictions.find? e with _ | v
    · exact ⟨hpopped, hpop⟩
    obtain ⟨hop, hopens, hrel⟩ : v.operation = none ∧ v.stage.opens = true ∧
        (v.stage = .releasing → v.releaseOpen = true) := by
      obtain ⟨l, hl', -⟩ | ⟨v', hv', hwaits⟩ := hwaits
      · cases hl.symm.trans hl'
      cases hv.symm.trans hv'
      exact hwaits
    simp only [hop, isNone_none, if_true]
    have hslot : e ∉ s.slotWaiters := by
      intro hmem
      obtain ⟨l, hl', -⟩ | ⟨v', hv', hstage⟩ := (h.slotWaiters.each e hmem).2.2
      · cases hl.symm.trans hl'
      cases hv.symm.trans hv'
      simp [hstage, EvictStage.opens] at hopens
    have hrele : e ∉ s.releaseQueue := by
      intro hmem
      obtain ⟨v', hv', -, hstage, hclosed⟩ := (h.release.each e hmem).2.2
      cases hv.symm.trans hv'
      exact absurd (hrel hstage) (by simp [hclosed])
    have hnot : e ∉ blocked := (nodup_cons.mp hnodup).1
    obtain ⟨place, p, hh, hflags, hstands⟩ := hpopped.takeEviction hv
      (hpopped.eviction e v (by simp) hv) hop (.free rfl) (by simp [quiet]) hslot hnot hrele
    refine Sat.bind (Sat.mono (openEvictStage_sat hh hflags hstands hopens)
      (fun f hf => hf.after hpop) fun _ ho => ho) fun o ho => ?_
    exact retried h hpop ho

theorem flushCancel_sat (h : Good x s [] none none) (i : Nat) (answer : PushResult) :
    Sat (Ends x s []) (fun y => Good x y.1 [] none none ∧ Moves x s [] y.1 [])
      (flushCancel x s i answer) := by
  have hgone : Good x { s with cancels := s.cancels.eraseIdx i } [] none none ∧
      Moves x s [] { s with cancels := s.cancels.eraseIdx i } [] :=
    ⟨h.other rfl, .idle rfl⟩
  unfold flushCancel
  split
  · exact ⟨h, .refl⟩
  simp only
  split
  · exact hgone
  split
  · exact hgone
  unfold check
  split
  · simp only [ok_bind]
    split
    · exact ⟨h, .refl⟩
    · exact hgone
  · exact .inl rfl

end Loops

/-! ## Sources and pins -/

section Sources

variable {e : ExtentId} {source : PageSource}

/-- What `SetSource` asks of a source it accepts. -/
structure Accepted (x : Config) (s : Scheduler) (e : ExtentId) (source : PageSource)
    (view : ExtentView) : Prop where
  valid : validSource x s source = true
  load : s.loads.find? e = none
  eviction : s.evictions.find? e = none
  described : s.catalog.describe e = .ok view
  writeBack : source.writeBack = true → view.descriptor.recovery = .preserve
  pinned : s.pinned.contains e = true → ∃ old, s.sources.find? e = some old ∧ samePlace old source = true
  place : view.state ≠ .nonresident → ∀ old, s.sources.find? e = some old → keepsPlace old source = true
  range : view.state = .nonresident → view.preserved = true →
    ∃ old, s.sources.find? e = some old ∧ keepsRange old source = true

theorem setSource_cases (x : Config) (s : Scheduler) (e : ExtentId) (source : PageSource) :
    (∃ error, setSource x s e source = (.error error, s)) ∨
      (∃ view, Accepted x s e source view) ∧ setSource x s e source = (.ok (), { s with
        sources := s.sources.insert e source
        log := .registered e source :: s.log }) := by
  unfold setSource
  split
  · exact .inl ⟨_, rfl⟩
  rename_i hvalid
  split
  · exact .inl ⟨_, rfl⟩
  rename_i hidle
  split
  · exact .inl ⟨_, rfl⟩
  rename_i view hview
  simp only
  split
  · exact .inl ⟨_, rfl⟩
  rename_i hwb
  split
  · exact .inl ⟨_, rfl⟩
  rename_i hpin
  split
  · exact .inl ⟨_, rfl⟩
  rename_i hplace
  split
  · exact .inl ⟨_, rfl⟩
  rename_i hrange
  simp only [OrdMap.contains, not_or, Bool.not_eq_true, isSome_eq_false_iff,
    isNone_iff_eq_none] at hidle
  refine .inr ⟨⟨view, by simpa using hvalid, hidle.1, hidle.2, hview, fun hw => ?_, fun hp => ?_,
    fun hn old hold => ?_, fun hn hp => ?_⟩, rfl⟩
  · by_contra hne
    exact hwb ⟨hw, hne⟩
  · have hany : (s.sources.find? e).any (samePlace · source) = true := by
      by_contra hne
      exact hpin ⟨hp, by simpa using hne⟩
    exact (any_eq_true _ _).mp hany
  · have hall : (s.sources.find? e).all (keepsPlace · source) = true := by
      by_contra hne
      exact hplace ⟨hn, by simpa using hne⟩
    rw [hold] at hall
    exact hall
  have hany : (s.sources.find? e).any (keepsRange · source) = true := by
    by_contra hne
    exact hrange ⟨hn, hp, by simpa using hne⟩
  exact (any_eq_true _ _).mp hany

theorem setSource_good (h : Good x s [] none none) (e : ExtentId) (source : PageSource) :
    Good x (setSource x s e source).2 [] none none := by
  rcases setSource_cases x s e source with ⟨error, heq⟩ | ⟨⟨view, ha⟩, heq⟩
  · rw [heq]
    exact h
  rw [heq]
  obtain ⟨hfree, hown, hqueues⟩ := h.absent ha.load ha.eviction
  refine h.settle hfree hown ?_ hqueues ?_ rfl rfl ⟨rfl, rfl, rfl, rfl⟩ ha.load ha.eviction ?_
    h.reach (h.mailboxes.cons (by simp))
  · rintro i (⟨l, hl, -⟩ | ⟨v, hv, -⟩)
    · cases ha.load.symm.trans hl
    · cases ha.eviction.symm.trans hv
  · intro e' _ hne
    exact .of rfl rfl rfl (OrdMap.find?_insert_ne hne) (phase_cons_of_ne _ (by simp [Event.about]))
  unfold Settled
  exact h.settled e (by simp) ha.load ha.eviction

end Sources
end JitLlm.Scheduler
