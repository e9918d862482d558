import JitLlm.Lib.Sat
import JitLlm.Scheduler.Tasks

/-!
# What the task table's calls do to the tasks' views

The table links siblings in both directions; nothing outside it reads the links. A call is told
here by what `Describe` answers after it, by the sums over the live tasks (`tally`), and by the
ready queue.
-/

namespace JitLlm.Scheduler

open Base Lib Option Prod

namespace TaskTable

def tally (t : TaskTable) (g : TaskView → Nat) : Nat := t.tasks.sum fun task => g task.view

structure Changes (t t' : TaskTable) (id : TaskId) (v v' : TaskView) : Prop where
  found : t.describe id = some v
  views : ∀ id', t'.describe id' = if id' = id then some v' else t.describe id'
  tally : ∀ g, t'.tally g + g v = t.tally g + g v'
  live : t'.tasks.live = t.tasks.live
  capacity : t'.capacity = t.capacity

structure Inserts (t t' : TaskTable) (id : TaskId) (v : TaskView) : Prop where
  fresh : t.describe id = none
  views : ∀ id', t'.describe id' = if id' = id then some v else t.describe id'
  tally : ∀ g, t'.tally g = t.tally g + g v
  live : t'.tasks.live = t.tasks.live + 1
  capacity : t'.capacity = t.capacity
  index : id.index < t.capacity
  valid : id.valid = true

structure Removes (t t' : TaskTable) (id : TaskId) (v : TaskView) : Prop where
  found : t.describe id = some v
  views : ∀ id', t'.describe id' = if id' = id then none else t.describe id'
  tally : ∀ g, t'.tally g + g v = t.tally g
  live : t'.tasks.live = t.tasks.live - 1
  capacity : t'.capacity = t.capacity

structure Relinks (t t' : TaskTable) : Prop where
  views : ∀ id, t'.describe id = t.describe id
  tally : ∀ g, t'.tally g = t.tally g
  live : t'.tasks.live = t.tasks.live
  capacity : t'.capacity = t.capacity
  ready : t'.ready = t.ready

variable {t t1 t' : TaskTable} {id p : TaskId} {v v' : TaskView} {task : Task} {f : Task → Task}
    {parent : Option TaskId} {outcome : TaskOutcome}

theorem describe_some : t.describe id = some v ↔ ∃ task, t.tasks.find? id = some task ∧ task.view = v := by
  unfold describe
  cases t.tasks.find? id with
  | none | some => simp

theorem set_live {T : Type} {tag : Tag} (s : SlotTable tag T) (i : Id tag) (a : T) :
    (s.set i a).live = s.live := by
  unfold SlotTable.set
  split <;> rfl

theorem changes_set (h : t.tasks.find? id = some task) (task' : Task) :
    Changes t { t with tasks := t.tasks.set id task' } id task.view task'.view := by
  refine ⟨describe_some.mpr ⟨task, h, rfl⟩, fun id' => ?_, fun g => ?_, set_live .., rfl⟩
  · unfold describe
    simp only [SlotTable.find?_set, h]
    split <;> rfl
  · exact SlotTable.sum_set (fun task => g task.view) h

theorem relinks_set (h : t.tasks.find? id = some task) {task' : Task}
    (hview : task'.view = task.view) : Relinks t { t with tasks := t.tasks.set id task' } := by
  have hset := changes_set h task'
  refine ⟨fun id' => ?_, fun g => ?_, hset.live, rfl, rfl⟩
  · rw [hset.views]
    split
    next heq =>
      rw [heq, hset.found, hview]
    · rfl
  have := hset.tally g
  rw [hview] at this
  omega

theorem Relinks.trans (h : Relinks t t1) (h' : Relinks t1 t') : Relinks t t' :=
  ⟨fun id => (h'.views id).trans (h.views id), fun g => (h'.tally g).trans (h.tally g),
    h'.live.trans h.live, h'.capacity.trans h.capacity, h'.ready.trans h.ready⟩

theorem Changes.relinked (h : Changes t1 t' id v v') (hr : Relinks t t1) : Changes t t' id v v' := by
  refine ⟨(hr.views id).symm.trans h.found, fun id' => ?_, fun g => ?_, h.live.trans hr.live,
    h.capacity.trans hr.capacity⟩
  · rw [h.views, hr.views]
  rw [← hr.tally g]
  exact h.tally g

theorem modify_ok (h : t.modify id f = .ok t') :
    ∃ task, t.tasks.find? id = some task ∧ t' = { t with tasks := t.tasks.set id (f task) } := by
  unfold modify at h
  cases hf : t.tasks.find? id with
  | none => simp [hf] at h
  | some task =>
    simp only [hf, Except.ok.injEq] at h
    exact ⟨task, rfl, h.symm⟩

theorem modify_relinks (h : t.modify id f = .ok t')
    (hf : ∀ task, (f task).view = task.view) : Relinks t t' := by
  obtain ⟨task, htask, rfl⟩ := modify_ok h
  exact relinks_set htask (hf task)

/-! ## Creating -/

variable {tasks : SlotTable .task Task}

theorem insert_inserts (h : t.tasks.insert task = some (id, tasks))
    (hi : id.index < t.capacity) : Inserts t { t with tasks } id task.view := by
  refine ⟨?_, fun id' => ?_, fun g => SlotTable.sum_insert _ h, ?_, rfl, hi, ?_⟩
  · unfold describe
    rw [SlotTable.find?_insert_fresh h]
    rfl
  · unfold describe
    simp only [SlotTable.find?_insert h]
    split <;> rfl
  · unfold SlotTable.insert at h
    split at h
    · obtain ⟨-, rfl⟩ := Prod.mk.inj (Option.some.inj h)
      rfl
    split at h
    · simp at h
    split at h
    · simp at h
    obtain ⟨-, rfl⟩ := Prod.mk.inj (Option.some.inj h)
    rfl
  have hself : tasks.find? id = some task := by simp [SlotTable.find?_insert h]
  have hpos := SlotTable.gen_pos_of_find hself
  simp only [Id.valid, bne_iff_ne]
  omega

theorem link_ok (h : t.link id p = .ok t') :
    t'.ready = t.ready ∧ ∃ v, Changes t t' p v { v with children := v.children + 1 } := by
  obtain ⟨found, -, h⟩ := bind_ok h
  obtain ⟨t1, hid, h⟩ := bind_ok h
  have h1 : Relinks t t1 := modify_relinks hid fun _ => rfl
  have hlast : ∀ t2, Relinks t t2 → (t2.modify p fun task => { task with
      firstChild := some id
      view := { task.view with children := task.view.children + 1 } }) = .ok t' →
      t'.ready = t.ready ∧ ∃ v, Changes t t' p v { v with children := v.children + 1 } := by
    intro t2 h2 hp
    obtain ⟨task, htask, rfl⟩ := modify_ok hp
    exact ⟨h2.ready, task.view, (changes_set htask _).relinked h2⟩
  rcases hf : found.firstChild with _ | _
  · simp only [hf] at h
    exact hlast t1 h1 h
  simp only [hf] at h
  obtain ⟨t2, hfirst, h⟩ := bind_ok h
  exact hlast t2 (h1.trans (modify_relinks hfirst fun _ => rfl)) h

theorem parentError_none (h : t.parentError (some p) = none) :
    ∃ v, t.describe p = some v ∧ v.cancelled = false ∧ v.outcome = none := by
  unfold parentError at h
  rcases hf : t.tasks.find? p with _ | task
  · simp [hf] at h
  simp only [hf] at h
  split at h
  · simp at h
  rename_i hopen
  simp only [Bool.or_eq_true, not_or, Bool.not_eq_true,
    isSome_eq_false_iff, isNone_iff_eq_none] at hopen
  exact ⟨task.view, describe_some.mpr ⟨task, hf, rfl⟩, hopen.1, hopen.2⟩

theorem create_ok (h : t.create parent = .ok (.ok id, t')) :
    t'.ready = t.ready ∧ ∃ t1, Inserts t t1 id { parent } ∧
      match parent with
      | none => t' = t1
      | some p => ∃ v, v.cancelled = false ∧ v.outcome = none ∧
          Changes t1 t' p v { v with children := v.children + 1 } ∧ t.describe p = some v := by
  unfold create at h
  cases hp : t.parentError parent with
  | some => simp [hp] at h
  | none =>
    simp only [hp] at h
    split at h
    · simp at h
    rcases hins : t.tasks.insert { view := { parent } } with _ | y
    · simp [hins] at h
    obtain ⟨id1, tasks⟩ := y
    simp only [hins] at h
    split at h
    next hi =>
      rcases parent with _ | p
      · obtain ⟨rfl, rfl⟩ := h
        exact ⟨rfl, _, insert_inserts hins hi, rfl⟩
      obtain ⟨t2, hlink, h⟩ := bind_ok h
      simp only [pure, Except.pure, Except.ok.injEq, Prod.mk.injEq] at h
      obtain ⟨rfl, rfl⟩ := h
      have hins := insert_inserts hins hi
      obtain ⟨hready, v, hchange⟩ := link_ok hlink
      obtain ⟨v', hv', hcan, hout⟩ := parentError_none hp
      have hne : p ≠ id1 := by
        rintro rfl
        cases hins.fresh.symm.trans hv'
      have hsame : v = v' := by
        have hfound := hchange.found
        rw [hins.views, if_neg hne, hv'] at hfound
        exact (Option.some.inj hfound).symm
      subst hsame
      exact ⟨hready, _, hins, v, hcan, hout, hchange, hv'⟩
    · simp at h

/-! ## Operations -/

theorem prepareOperation_ok (h : t.prepareOperation id = .ok (.ok (), t')) :
    t'.ready = t.ready ∧ ∃ v, v.cancelled = false ∧ v.outcome = none ∧
      Changes t t' id v { v with operations := v.operations + 1 } := by
  unfold prepareOperation at h
  rcases hf : t.tasks.find? id with _ | task
  · simp [hf] at h
  simp only [hf] at h
  split at h
  · simp at h
  rename_i hopen
  split at h
  · simp only [Except.ok.injEq, Prod.mk.injEq, true_and] at h
    subst h
    simp only [Bool.or_eq_true, not_or, Bool.not_eq_true, Option.isSome_eq_false_iff,
      Option.isNone_iff_eq_none] at hopen
    exact ⟨rfl, task.view, hopen.1, hopen.2, changes_set hf _⟩
  · simp at h

theorem retireOperation_ok (h : t.retireOperation id = .ok (.ok (), t')) :
    t'.ready = t.ready ∧ ∃ v, 0 < v.operations ∧
      Changes t t' id v { v with operations := v.operations - 1 } := by
  unfold retireOperation at h
  rcases hf : t.tasks.find? id with _ | task
  · simp [hf] at h
  simp only [hf] at h
  split at h
  next hpos =>
    simp only [Except.ok.injEq, Prod.mk.injEq, true_and] at h
    subst h
    exact ⟨rfl, task.view, hpos, changes_set hf _⟩
  · simp at h

/-! ## Cancelling -/

/-- Views but for `cancelled`, which no call takes back. -/
structure Cancels (tasks tasks' : SlotTable .task Task) : Prop where
  views : ∀ id, Option.Rel (fun a b : Task => b.view = { a.view with cancelled := b.view.cancelled } ∧
    (a.view.cancelled = true → b.view.cancelled = true)) (tasks.find? id) (tasks'.find? id)
  tally : ∀ g : TaskView → Nat, (∀ v c, g { v with cancelled := c } = g v) →
    (tasks'.sum fun task => g task.view) = tasks.sum fun task => g task.view
  live : tasks'.live = tasks.live

theorem Cancels.refl (tasks : SlotTable .task Task) : Cancels tasks tasks := by
  refine ⟨fun id => ?_, fun _ _ => rfl, rfl⟩
  cases tasks.find? id with
  | none => exact .none
  | some => exact .some ⟨rfl, fun h => h⟩

theorem Cancels.trans {tasks tasks1 tasks' : SlotTable .task Task} (h : Cancels tasks tasks1)
    (h' : Cancels tasks1 tasks') : Cancels tasks tasks' := by
  refine ⟨fun id => ?_, fun g hg => (h'.tally g hg).trans (h.tally g hg), h'.live.trans h.live⟩
  have hv := h.views id
  have hv' := h'.views id
  cases ha : tasks.find? id with
  | none =>
    rw [ha] at hv
    cases hb : tasks1.find? id with
    | none => rwa [hb] at hv'
    | some => rw [hb] at hv; cases hv
  | some =>
    rw [ha] at hv
    rcases hb : tasks1.find? id with _ | _
    · rw [hb] at hv; cases hv
    rw [hb] at hv hv'
    rcases hc : tasks'.find? id with _ | _
    · rw [hc] at hv'; cases hv'
    rw [hc] at hv'
    cases hv with
    | some hab =>
      cases hv' with
      | some hbc => exact .some ⟨by rw [hbc.1, hab.1], fun h => hbc.2 (hab.2 h)⟩

theorem cancels_set (h : tasks.find? id = some task) :
    Cancels tasks (tasks.set id { task with view := { task.view with cancelled := true } }) := by
  refine ⟨fun id' => ?_, fun g hg => ?_, set_live ..⟩
  · rw [SlotTable.find?_set]
    split
    next heq =>
      rw [heq, h]
      exact .some ⟨rfl, fun _ => rfl⟩
    cases tasks.find? id' with
    | none => exact .none
    | some => exact .some ⟨rfl, fun h => h⟩
  have hset := SlotTable.sum_set (v := { task with view := { task.view with cancelled := true } })
    (fun task => g task.view) h
  have hsame : g { task.view with cancelled := true } = g task.view := hg task.view true
  simp only [hsame] at hset
  exact Nat.add_right_cancel hset

variable {tasks tasks' : SlotTable .task Task}

theorem cancelWalk_cancels {root : TaskId} {fuel : Nat} {walk : Walk}
    (h : cancelWalk root fuel walk tasks = .ok tasks') : Cancels tasks tasks' := by
  induction fuel generalizing walk tasks with
  | zero => simp [cancelWalk] at h
  | succ fuel ih =>
    cases walk with
    | down id =>
      unfold cancelWalk at h
      rcases hf : tasks.find? id with _ | _
      · simp [hf] at h
      simp only [hf] at h
      refine (cancels_set hf).trans ?_
      split at h <;> exact ih h
    | climb id =>
      unfold cancelWalk at h
      split at h
      · exact Except.ok.inj h ▸ .refl tasks
      cases hf : tasks.find? id with
      | none => simp [hf] at h
      | some =>
        simp only [hf] at h
        split at h <;> exact ih h

theorem cancelWalk_down {root : TaskId} {fuel : Nat}
    (hf : tasks.find? id = some task) (h : cancelWalk root (fuel + 1) (.down id) tasks = .ok tasks') :
    ∃ task', tasks'.find? id = some task' ∧ task'.view.cancelled = true := by
  unfold cancelWalk at h
  simp only [hf] at h
  have hrest : Cancels (tasks.set id { task with view := { task.view with cancelled := true } })
      tasks' := by
    split at h <;> exact cancelWalk_cancels h
  have hself := hrest.views id
  rw [SlotTable.find?_set, if_pos rfl, hf] at hself
  rcases hc : tasks'.find? id with _ | task'
  · rw [hc] at hself; cases hself
  rw [hc] at hself
  cases hself with
  | some hab => exact ⟨task', rfl, hab.2 rfl⟩

theorem cancel_ok (h : t.cancel id = .ok (.ok (), t')) :
    t'.ready = t.ready ∧ t'.capacity = t.capacity ∧ Cancels t.tasks t'.tasks ∧
      ∃ v, t'.describe id = some v ∧ v.cancelled = true := by
  unfold cancel at h
  rcases hf : t.tasks.find? id with _ | _
  · simp [hf] at h
  simp only [hf] at h
  obtain ⟨tasks, hwalk, h⟩ := bind_ok h
  simp only [pure, Except.pure, Except.ok.injEq, Prod.mk.injEq, true_and] at h
  subst h
  refine ⟨rfl, rfl, cancelWalk_cancels hwalk, ?_⟩
  obtain ⟨task', hc, hmar⟩ := cancelWalk_down hf hwalk
  exact ⟨task'.view, describe_some.mpr ⟨task', hc, rfl⟩, hmar⟩

theorem Cancels.describe (h : Cancels t.tasks t'.tasks) (id' : TaskId) :
    (t.describe id' = none ∧ t'.describe id' = none) ∨
      ∃ v c, t.describe id' = some v ∧ t'.describe id' = some { v with cancelled := c } ∧
        (v.cancelled = true → c = true) := by
  have hv := h.views id'
  unfold TaskTable.describe
  cases ha : t.tasks.find? id' with
  | none =>
    rw [ha] at hv
    cases hb : t'.tasks.find? id' with
    | none => exact .inl ⟨rfl, rfl⟩
    | some => rw [hb] at hv; cases hv
  | some a =>
    rw [ha] at hv
    rcases hb : t'.tasks.find? id' with _ | b
    · rw [hb] at hv; cases hv
    rw [hb] at hv
    cases hv with
    | some hab => exact .inr ⟨a.view, b.view.cancelled, rfl, congrArg some hab.1, hab.2⟩

/-! ## Finishing and retiring -/

theorem finish_ok (h : t.finish id outcome = .ok (.ok (), t')) :
    t'.ready = t.ready.remove id ∧ ∃ v o t1, v.outcome = none ∧
      Changes t t1 id v { v with outcome := some o } ∧
      (t' = { t1 with ready := t'.ready } ∨ ∃ p v' t2, v.parent = some p ∧
        Changes t1 t2 p v' { v' with childFailed := true } ∧ t' = { t2 with ready := t'.ready }) := by
  unfold finish at h
  rcases hf : t.tasks.find? id with _ | task
  · simp [hf] at h
  simp only [hf] at h
  split at h
  · simp at h
  rename_i hopen
  simp only [Bool.not_eq_true, Option.isSome_eq_false_iff, Option.isNone_iff_eq_none] at hopen
  generalize (if task.view.cancelled = true ∧ outcome = .succeeded then .cancelled
    else outcome : TaskOutcome) = o at h
  generalize hmar : ({ task with view := { task.view with outcome := some o } } : Task) =
    marked at h
  have hchange : Changes t { t with tasks := t.tasks.set id marked } id task.view
      { task.view with outcome := some o } := by
    rw [← hmar]
    exact changes_set hf _
  cases hp : task.view.parent with
  | none =>
    simp only [hp, Except.ok.injEq, Prod.mk.injEq, true_and] at h
    subst h
    exact ⟨rfl, task.view, o, _, hopen, hchange, Or.inl rfl⟩
  | some p =>
    simp only [hp] at h
    split at h
    · obtain ⟨t2, hm, h⟩ := bind_ok h
      simp only [pure, Except.pure, Except.ok.injEq, Prod.mk.injEq, true_and] at h
      subst h
      obtain ⟨ptask, hptask, rfl⟩ := modify_ok hm
      have hpar := changes_set (t := { t with tasks := t.tasks.set id marked }) hptask
        { ptask with view := { ptask.view with childFailed := true } }
      exact ⟨rfl, task.view, o, _, hopen, hchange, Or.inr ⟨p, ptask.view, _, hp, hpar, rfl⟩⟩
    simp only [Except.ok.injEq, Prod.mk.injEq, true_and] at h
    subst h
    exact ⟨rfl, task.view, o, _, hopen, hchange, Or.inl rfl⟩

theorem erase_live {T : Type} {tag : Tag} {s : SlotTable tag T} {i : Id tag} {a : T}
    (h : s.find? i = some a) : (s.erase i).live = s.live - 1 := by
  unfold SlotTable.erase
  split
  next hn =>
    rw [h] at hn
    simp at hn
  · split <;> rfl

theorem unlink_ok {task : Task} (h : t.unlink task p = .ok t') :
    t'.ready = t.ready ∧ ∃ v, Changes t t' p v { v with children := v.children - 1 } := by
  unfold unlink at h
  have hlast : ∀ t2, Relinks t t2 → (t2.modify p fun task => { task with
      view := { task.view with children := task.view.children - 1 } }) = .ok t' →
      t'.ready = t.ready ∧ ∃ v, Changes t t' p v { v with children := v.children - 1 } := by
    intro t2 h2 hp
    obtain ⟨task, htask, rfl⟩ := modify_ok hp
    exact ⟨h2.ready, task.view, (changes_set htask _).relinked h2⟩
  cases hprev : task.previousSibling with
  | none | some previous =>
    simp only [hprev] at h
    obtain ⟨t1, hm, h⟩ := bind_ok h
    have h1 : Relinks t t1 := modify_relinks hm fun _ => rfl
    rcases hn : task.nextSibling with _ | _
    · simp only [hn] at h
      exact hlast t1 h1 h
    simp only [hn] at h
    obtain ⟨t2, hm, h⟩ := bind_ok h
    exact hlast t2 (h1.trans (modify_relinks hm fun _ => rfl)) h

theorem retire_ok (h : t.retire id = .ok (.ok (), t')) :
    t'.ready = t.ready.remove id ∧ ∃ v, t.describe id = some v ∧ v.outcome.isSome = true ∧
      v.operations = 0 ∧ v.children = 0 ∧ ∃ t1 t2,
        (match v.parent with
        | none => t1 = t
        | some p => ∃ v', Changes t t1 p v' { v' with children := v'.children - 1 }) ∧
        (v.parent ≠ some id → Removes t1 t2 id v) ∧ t' = { t2 with ready := t'.ready } := by
  unfold retire at h
  rcases hf : t.tasks.find? id with _ | task
  · simp [hf] at h
  simp only [hf] at h
  split at h
  · simp at h
  rename_i hfin
  split at h
  · simp at h
  rename_i hnone
  simp only [not_or, gt_iff_lt, Nat.not_lt, Nat.le_zero_eq] at hnone
  have hdes : t.describe id = some task.view := describe_some.mpr ⟨task, hf, rfl⟩
  have hrem : ∀ t1 : TaskTable, t1.describe id = some task.view →
      Removes t1 { t1 with tasks := t1.tasks.erase id } id task.view := by
    intro t1 hv
    obtain ⟨task1, hf1, hview⟩ := describe_some.mp hv
    refine ⟨hv, fun id' => ?_, fun g => ?_, erase_live hf1, rfl⟩
    · unfold TaskTable.describe
      rw [SlotTable.find?_erase]
      split <;> rfl
    rw [← hview]
    exact SlotTable.sum_erase (fun task => g task.view) hf1
  refine ⟨?_, task.view, hdes, Option.isSome_iff_ne_none.mpr (by simpa using hfin),
    hnone.1, hnone.2, ?_⟩
  · cases hp : task.view.parent with
    | none =>
      simp only [hp] at h
      obtain ⟨t1, hu, h⟩ := bind_ok h
      cases hu
      simp only [pure, Except.pure, Except.ok.injEq, Prod.mk.injEq, true_and] at h
      subst h
      rfl
    | some =>
      simp only [hp] at h
      obtain ⟨t1, hu, h⟩ := bind_ok h
      simp only [pure, Except.pure, Except.ok.injEq, Prod.mk.injEq, true_and] at h
      subst h
      simp only [(unlink_ok hu).1]
  cases hp : task.view.parent with
  | none =>
    simp only [hp] at h
    obtain ⟨t1, hu, h⟩ := bind_ok h
    cases hu
    simp only [pure, Except.pure, Except.ok.injEq, Prod.mk.injEq, true_and] at h
    subst h
    exact ⟨t, _, rfl, fun _ => hrem t hdes, rfl⟩
  | some =>
    simp only [hp] at h
    obtain ⟨t1, hu, h⟩ := bind_ok h
    simp only [pure, Except.pure, Except.ok.injEq, Prod.mk.injEq, true_and] at h
    subst h
    obtain ⟨-, v', hchange⟩ := unlink_ok hu
    refine ⟨t1, _, ⟨v', hchange⟩, fun hne => hrem t1 ?_, rfl⟩
    rw [hchange.views, if_neg, hdes]
    rintro rfl
    exact hne rfl

theorem retire_refused {error : TaskError} (h : t.retire id = .ok (.error error, t'))
    (hv : t.describe id = some v) : v.outcome = none ∨ 0 < v.operations ∨ 0 < v.children := by
  obtain ⟨task, hf, rfl⟩ := describe_some.mp hv
  unfold retire at h
  simp only [hf] at h
  split at h
  next hnone =>
    exact .inl (isNone_iff_eq_none.mp hnone)
  split at h
  next hsome =>
    exact .inr hsome
  split at h <;>
  · obtain ⟨t1, -, h⟩ := bind_ok h
    simp [pure, Except.pure] at h

/-! ## The whole of it -/

/-- A task created under `parent`. -/
structure Creates (t t' : TaskTable) (id : TaskId) (parent : Option TaskId) : Prop where
  fresh : t.describe id = none
  views : ∀ id', t'.describe id' = if id' = id then some { parent }
    else if parent = some id' then (t.describe id').map fun v => { v with children := v.children + 1 }
    else t.describe id'
  tally : ∀ g : TaskView → Nat, (∀ v n, g { v with children := n } = g v) →
    t'.tally g = t.tally g + g { parent }
  live : t'.tasks.live = t.tasks.live + 1
  capacity : t'.capacity = t.capacity
  ready : t'.ready = t.ready
  index : id.index < t.capacity
  valid : id.valid = true
  parent : ∀ p, parent = some p → ∃ v, t.describe p = some v ∧ v.cancelled = false ∧ v.outcome = none

theorem create_creates (h : t.create parent = .ok (.ok id, t')) : Creates t t' id parent := by
  obtain ⟨hready, t1, hins, hpar⟩ := create_ok h
  cases parent with
  | none =>
    subst hpar
    exact ⟨hins.fresh, fun id' => by simpa using hins.views id', fun g _ => hins.tally g, hins.live,
      hins.capacity, hready, hins.index, hins.valid, fun p hp => absurd hp (by simp)⟩
  | some p =>
    obtain ⟨v, hcan, hout, hchange, hp⟩ := hpar
    have hne : p ≠ id := by
      rintro rfl
      cases hins.fresh.symm.trans hp
    refine ⟨hins.fresh, fun id' => ?_, fun g hg => ?_, hchange.live.trans hins.live,
      hchange.capacity.trans hins.capacity, hready, hins.index, hins.valid, fun p' hp' => ?_⟩
    · rw [hchange.views, hins.views]
      by_cases hid' : id' = p
      · subst hid'
        rw [if_pos rfl, if_neg hne, if_pos rfl, hp]
        rfl
      have hsome : some p ≠ some id' := fun heq => hid' (some.inj heq).symm
      rw [if_neg hid', if_neg hsome]
    · have hsum := hchange.tally g
      have hsame : g { v with children := v.children + 1 } = g v := hg v _
      rw [hsame, hins.tally] at hsum
      exact Nat.add_right_cancel hsum
    cases hp'
    exact ⟨v, hp, hcan, hout⟩

/-- A task finished; its parent may have learned of a failure. -/
structure Finishes (t t' : TaskTable) (id : TaskId) (v : TaskView) (o : TaskOutcome) : Prop where
  found : t.describe id = some v
  open_ : v.outcome = none
  views : ∃ told : TaskId → TaskView → Bool, ∀ id', t'.describe id' =
    (if id' = id then some { v with outcome := some o } else t.describe id').map
      fun w => { w with childFailed := told id' w }
  tally : ∀ g : TaskView → Nat, (∀ w f, g { w with childFailed := f } = g w) →
    t'.tally g + g v = t.tally g + g { v with outcome := some o }
  live : t'.tasks.live = t.tasks.live
  capacity : t'.capacity = t.capacity
  ready : t'.ready = t.ready.remove id

theorem finish_finishes (h : t.finish id outcome = .ok (.ok (), t')) :
    ∃ v o, Finishes t t' id v o := by
  obtain ⟨hready, v, o, t1, hopen, hchange, hcase⟩ := finish_ok h
  refine ⟨v, o, ?_⟩
  rcases hcase with ht' | ⟨p, v', t2, -, hchange', ht'⟩
  · have htasks : t'.tasks = t1.tasks := by rw [ht']
    have hdes : ∀ id', t'.describe id' = t1.describe id' := fun id' => by
      unfold TaskTable.describe
      rw [htasks]
    refine ⟨hchange.found, hopen, ⟨fun _ w => w.childFailed, fun id' => ?_⟩, fun g _ => ?_, ?_, ?_,
      hready⟩
    · rw [hdes, hchange.views]
      simp
    · unfold TaskTable.tally
      rw [htasks]
      exact hchange.tally g
    · rw [htasks]
      exact hchange.live
    rw [ht']
    exact hchange.capacity
  have htasks : t'.tasks = t2.tasks := by rw [ht']
  have hdes : ∀ id', t'.describe id' = t2.describe id' := fun id' => by
    unfold TaskTable.describe
    rw [htasks]
  refine ⟨hchange.found, hopen, ⟨fun id' w => w.childFailed || decide (id' = p), fun id' => ?_⟩,
    fun g hg => ?_, ?_, ?_, hready⟩
  · rw [hdes, hchange'.views, ← hchange.views]
    by_cases hid' : id' = p
    · subst hid'
      rw [if_pos rfl, hchange'.found]
      simp
    rw [if_neg hid']
    simp [hid']
  · have hsum := hchange.tally g
    have hsum' := hchange'.tally g
    have hsame : g { v' with childFailed := true } = g v' := hg v' true
    unfold TaskTable.tally at hsum hsum' ⊢
    rw [htasks]
    omega
  · rw [htasks]
    exact hchange'.live.trans hchange.live
  rw [ht']
  exact hchange'.capacity.trans hchange.capacity

structure Gone (t t' : TaskTable) (id : TaskId) (v : TaskView) : Prop where
  found : t.describe id = some v
  finished : v.outcome.isSome = true
  operations : v.operations = 0
  children : v.children = 0
  views : ∀ id', t'.describe id' = if id' = id then none
    else if v.parent = some id' then (t.describe id').map fun w => { w with children := w.children - 1 }
    else t.describe id'
  tally : ∀ g : TaskView → Nat, (∀ w n, g { w with children := n } = g w) →
    t'.tally g + g v = t.tally g
  live : t'.tasks.live = t.tasks.live - 1
  capacity : t'.capacity = t.capacity
  ready : t'.ready = t.ready.remove id

theorem retire_gone (h : t.retire id = .ok (.ok (), t'))
    (hself : ∀ v, t.describe id = some v → v.parent ≠ some id) : ∃ v, Gone t t' id v := by
  obtain ⟨hready, v, hv, hfin, hops, hkids, t1, t2, hunl, hrem, ht'⟩ := retire_ok h
  have hrem := hrem (hself v hv)
  refine ⟨v, ?_⟩
  have htasks : t'.tasks = t2.tasks := by rw [ht']
  have hdes : ∀ id', t'.describe id' = t2.describe id' := fun id' => by
    unfold TaskTable.describe
    rw [htasks]
  have hlive : t'.tasks.live = t1.tasks.live - 1 := by
    rw [htasks]
    exact hrem.live
  have hcap : t'.capacity = t1.capacity := by
    rw [ht']
    exact hrem.capacity
  cases hp : v.parent with
  | none =>
    rw [hp] at hunl
    obtain rfl : t1 = t := hunl
    refine ⟨hv, hfin, hops, hkids, fun id' => ?_, fun g _ => ?_, hlive, hcap, hready⟩
    · rw [hdes, hrem.views, hp]
      simp
    unfold TaskTable.tally
    rw [htasks]
    exact hrem.tally g
  | some p =>
    rw [hp] at hunl
    obtain ⟨v', hchange⟩ := hunl
    refine ⟨hv, hfin, hops, hkids, fun id' => ?_, fun g hg => ?_, ?_, hcap.trans hchange.capacity,
      hready⟩
    · rw [hdes, hrem.views, hchange.views, hp]
      by_cases hid : id' = id
      · rw [if_pos hid, if_pos hid]
      rw [if_neg hid, if_neg hid]
      by_cases hid' : id' = p
      · subst hid'
        rw [if_pos rfl, if_pos rfl, hchange.found]
        rfl
      have hsome : some p ≠ some id' := fun heq => hid' (some.inj heq).symm
      rw [if_neg hid', if_neg hsome]
    · have hsum := hchange.tally g
      have hsum' := hrem.tally g
      have hsame : g { v' with children := v'.children - 1 } = g v' := hg v' _
      unfold TaskTable.tally at hsum hsum' ⊢
      rw [htasks]
      omega
    · rw [hlive, hchange.live]

/-! ## The ready queue -/

theorem makeReady_ok {priority : Nat} {answer : Answer Bool}
    (h : t.makeReady id priority = .ok (answer, t')) : t' = { t with ready := t'.ready } ∧
      ((∃ fresh v, answer = .ok fresh ∧ t.describe id = some v ∧ v.outcome = none ∧
          t.ready.makeReady id priority = .ok (fresh, t'.ready)) ∨
        (∃ error, answer = .error error) ∧ t' = t ∧ ∀ v, t.describe id = some v → v.outcome.isSome = true) := by
  unfold makeReady at h
  cases hf : t.tasks.find? id with
  | none =>
    simp only [hf, Except.ok.injEq] at h
    obtain ⟨rfl, rfl⟩ := h
    refine ⟨rfl, .inr ⟨⟨_, rfl⟩, rfl, fun v hv => ?_⟩⟩
    obtain ⟨task, hf', -⟩ := describe_some.mp hv
    cases hf.symm.trans hf'
  | some task =>
    have hdes : t.describe id = some task.view := describe_some.mpr ⟨task, hf, rfl⟩
    simp only [hf] at h
    split at h
    next hfin =>
      simp only [Except.ok.injEq] at h
      obtain ⟨rfl, rfl⟩ := h
      refine ⟨rfl, .inr ⟨⟨_, rfl⟩, rfl, fun v hv => ?_⟩⟩
      rwa [← some.inj (hdes.symm.trans hv)]
    rename_i hopen
    obtain ⟨⟨fresh, ready⟩, hready, h⟩ := bind_ok h
    simp only [pure, Except.pure, Except.ok.injEq] at h
    obtain ⟨rfl, rfl⟩ := h
    simp only [Bool.not_eq_true, isSome_eq_false_iff, isNone_iff_eq_none] at hopen
    exact ⟨rfl, .inl ⟨fresh, task.view, rfl, hdes, hopen, hready⟩⟩

end TaskTable
end JitLlm.Scheduler
