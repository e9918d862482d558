import JitLlm.Base.Issued
import JitLlm.Scheduler.Worlds

/-!
# Parents, over a run

A task has the parent it was created with for as long as it is in the table, and an identity is
given to one task ever. So whoever is above a task was above it at any time since its creation
(`Kin.above`), which is what a check of its ancestors at one time says of a later one.
-/

namespace JitLlm.Scheduler

open Base Lib
open Catalog hiding Operation Reachable

namespace TaskTable

variable {t t1 t' : TaskTable} {id : TaskId} {v : TaskView} {parent : Option TaskId}
    {outcome : TaskOutcome}

/-! ## Identities -/

theorem modify_onward {f : Task → Task} (h : t.modify id f = .ok t') : t.tasks.Onward t'.tasks := by
  obtain ⟨task, -, rfl⟩ := modify_ok h
  exact SlotTable.onward_set _ _

theorem link_onward {p : TaskId} (h : t.link id p = .ok t') : t.tasks.Onward t'.tasks := by
  obtain ⟨found, -, h⟩ := bind_ok h
  obtain ⟨t1, h1, h⟩ := bind_ok h
  split at h
  · exact (modify_onward h1).trans (modify_onward h)
  obtain ⟨t2, h2, h⟩ := bind_ok h
  exact ((modify_onward h1).trans (modify_onward h2)).trans (modify_onward h)

theorem create_onward (h : t.create parent = .ok (.ok id, t')) :
    t.tasks.Onward t'.tasks ∧ ¬t.tasks.Past id := by
  unfold create at h
  split at h
  · cases h
  split at h
  · cases h
  split at h
  · cases h
  next id' tasks hins =>
  split at h
  · obtain ⟨honw, hnot⟩ := SlotTable.onward_insert hins
    rcases parent with _ | _
    · cases h
      exact ⟨honw, hnot⟩
    obtain ⟨t1, hlink, h⟩ := bind_ok h
    cases h
    exact ⟨honw.trans (link_onward hlink), hnot⟩
  · cases h

theorem prepareOperation_onward (h : t.prepareOperation id = .ok (.ok (), t')) :
    t.tasks.Onward t'.tasks := by
  unfold prepareOperation at h
  split at h
  · cases h
  split at h
  · cases h
  split at h
  · cases h
    exact SlotTable.onward_set _ _
  · cases h

theorem retireOperation_onward (h : t.retireOperation id = .ok (.ok (), t')) :
    t.tasks.Onward t'.tasks := by
  unfold retireOperation at h
  split at h
  · cases h
  split at h
  · cases h
    exact SlotTable.onward_set _ _
  · cases h

theorem cancelWalk_onward {root : TaskId} {fuel : Nat} {walk : Walk}
    {tasks tasks' : SlotTable .task Task} (h : cancelWalk root fuel walk tasks = .ok tasks') :
    tasks.Onward tasks' := by
  induction fuel generalizing walk tasks with
  | zero => cases h
  | succ fuel ih =>
    cases walk with
    | down =>
      simp only [cancelWalk] at h
      split at h
      · cases h
      split at h
      · exact (SlotTable.onward_set _ _).trans (ih h)
      · exact (SlotTable.onward_set _ _).trans (ih h)
    | climb =>
      simp only [cancelWalk] at h
      split at h
      · cases h
        exact .refl _
      split at h
      · cases h
      split at h
      · exact ih h
      · exact ih h

theorem cancel_onward (h : t.cancel id = .ok (.ok (), t')) : t.tasks.Onward t'.tasks := by
  unfold cancel at h
  split at h
  · cases h
  obtain ⟨tasks, hwalk, h⟩ := bind_ok h
  cases h
  exact cancelWalk_onward hwalk

theorem finish_onward (h : t.finish id outcome = .ok (.ok (), t')) : t.tasks.Onward t'.tasks := by
  unfold finish at h
  split at h
  · cases h
  next task _ =>
  split at h
  · cases h
  simp only at h
  generalize (if task.view.cancelled = true ∧ outcome = .succeeded then .cancelled
    else outcome : TaskOutcome) = outcome at h
  split at h
  · split at h
    · obtain ⟨t1, hmod, h⟩ := bind_ok h
      cases h
      exact (SlotTable.onward_set id { task with
        view := { task.view with outcome := some outcome } }).trans (modify_onward hmod)
    cases h
    exact SlotTable.onward_set _ _
  cases h
  exact SlotTable.onward_set _ _

theorem unlink_onward {task : Task} {p : TaskId} (h : t.unlink task p = .ok t') :
    t.tasks.Onward t'.tasks := by
  unfold unlink at h
  simp only at h
  split at h
  · obtain ⟨t1, h1, h⟩ := bind_ok h
    split at h
    · obtain ⟨t2, h2, h⟩ := bind_ok h
      exact ((modify_onward h1).trans (modify_onward h2)).trans (modify_onward h)
    · exact (modify_onward h1).trans (modify_onward h)
  obtain ⟨t1, h1, h⟩ := bind_ok h
  split at h
  · obtain ⟨t2, h2, h⟩ := bind_ok h
    exact ((modify_onward h1).trans (modify_onward h2)).trans (modify_onward h)
  · exact (modify_onward h1).trans (modify_onward h)

theorem retire_onward (h : t.retire id = .ok (.ok (), t')) : t.tasks.Onward t'.tasks := by
  unfold retire at h
  split at h
  · cases h
  split at h
  · cases h
  split at h
  · cases h
  split at h
  · obtain ⟨t1, hunl, h⟩ := bind_ok h
    cases h
    exact (unlink_onward hunl).trans (SlotTable.onward_erase _)
  cases h
  exact SlotTable.onward_erase _

/-! ## Parents -/

/-- A later table: no identity is given out again, and who is still there has its parent. -/
structure Kin (t t' : TaskTable) : Prop where
  onward : t.tasks.Onward t'.tasks
  parent : ∀ id v', t.tasks.Past id → t'.describe id = some v' →
    ∃ v, t.describe id = some v ∧ v'.parent = v.parent

theorem Kin.refl (t : TaskTable) : t.Kin t := ⟨.refl _, fun _ v _ hv => ⟨v, hv, rfl⟩⟩

theorem Kin.of (h : t'.tasks = t.tasks) : t.Kin t' := by
  refine ⟨h ▸ .refl _, fun id v _ hv => ⟨v, ?_, rfl⟩⟩
  unfold describe at hv ⊢
  rwa [h] at hv

theorem Kin.trans {t'' : TaskTable} (h : t.Kin t') (h' : t'.Kin t'') : t.Kin t'' := by
  refine ⟨h.onward.trans h'.onward, fun id v'' hpast hv'' => ?_⟩
  obtain ⟨v', hv', hp'⟩ := h'.parent id v'' (h.onward id hpast) hv''
  obtain ⟨v, hv, hp⟩ := h.parent id v' hpast hv'
  exact ⟨v, hv, hp'.trans hp⟩

theorem Changes.kin {v' : TaskView} (h : Changes t t' id v v') (hpar : v'.parent = v.parent)
    (honw : t.tasks.Onward t'.tasks) : t.Kin t' := by
  refine ⟨honw, fun id' w hpast hw => ?_⟩
  rw [h.views] at hw
  split at hw
  next heq =>
    subst heq
    cases hw
    exact ⟨v, h.found, hpar⟩
  · exact ⟨w, hw, rfl⟩

theorem create_kin (h : t.create parent = .ok (.ok id, t')) : t.Kin t' := by
  obtain ⟨honw, hfresh⟩ := create_onward h
  have hc := create_creates h
  refine ⟨honw, fun id' w hpast hw => ?_⟩
  rw [hc.views] at hw
  split at hw
  next heq =>
    exact absurd (heq ▸ hpast) hfresh
  split at hw
  · obtain ⟨v, hv, rfl⟩ := Option.map_eq_some_iff.mp hw
    exact ⟨v, hv, rfl⟩
  · exact ⟨w, hw, rfl⟩

theorem cancel_kin (h : t.cancel id = .ok (.ok (), t')) : t.Kin t' := by
  obtain ⟨-, -, hcan, -⟩ := cancel_ok h
  refine ⟨cancel_onward h, fun id' w _ hw => ?_⟩
  rcases hcan.describe id' with ⟨-, hgone⟩ | ⟨v, c, hv, hw', -⟩
  · cases hgone.symm.trans hw
  cases hw'.symm.trans hw
  exact ⟨v, hv, rfl⟩

theorem finish_kin (h : t.finish id outcome = .ok (.ok (), t')) : t.Kin t' := by
  obtain ⟨v, o, hf⟩ := finish_finishes h
  obtain ⟨told, hviews⟩ := hf.views
  refine ⟨finish_onward h, fun id' w _ hw => ?_⟩
  rw [hviews] at hw
  obtain ⟨w0, hw0, rfl⟩ := Option.map_eq_some_iff.mp hw
  split at hw0
  next heq =>
    cases hw0
    exact ⟨v, heq ▸ hf.found, rfl⟩
  · exact ⟨w0, hw0, rfl⟩

theorem retire_kin (h : t.retire id = .ok (.ok (), t'))
    (hself : ∀ v, t.describe id = some v → v.parent ≠ some id) : t.Kin t' := by
  obtain ⟨v, hg⟩ := retire_gone h hself
  refine ⟨retire_onward h, fun id' w _ hw => ?_⟩
  rw [hg.views] at hw
  split at hw
  · cases hw
  split at hw
  · obtain ⟨w0, hw0, rfl⟩ := Option.map_eq_some_iff.mp hw
    exact ⟨w0, hw0, rfl⟩
  · exact ⟨w, hw, rfl⟩

/-- `d` is `a`, or below it in the tree. -/
inductive Below (t : TaskTable) : TaskId → TaskId → Prop
  | self {d : TaskId} : Below t d d
  | up {d p a : TaskId} {v : TaskView} (found : t.describe d = some v) (parent : v.parent = some p)
      (above : Below t p a) : Below t d a

theorem past_of_describe (h : t.describe id = some v) : t.tasks.Past id := by
  obtain ⟨task, htask, -⟩ := describe_some.mp h
  exact SlotTable.past_of_find htask

theorem Kin.above (h : t.Kin t') (hpar : ∀ id v p, t.describe id = some v → v.parent = some p →
    ∃ v', t.describe p = some v') {d a : TaskId} (hd : t.tasks.Past d) (hb : t'.Below d a) :
    t.Below d a := by
  induction hb with
  | self => exact .self
  | up found parent above ih =>
    obtain ⟨v, hv, heq⟩ := h.parent _ _ hd found
    have hp := heq.symm.trans parent
    obtain ⟨v', hv'⟩ := hpar _ v _ hv hp
    exact .up hv hp (ih (past_of_describe hv'))

end TaskTable

/-! ## Over moves and ways -/

variable {x : Config} {s s' : Scheduler} {k k' : List Debt}

theorem SameRoster.kin (h : SameRoster s s') : s.tasks.Kin s'.tasks := .of h.tasks

theorem TaskMove.kin (h : TaskMove s k s' k') (hr : Roster s k) : s.tasks.Kin s'.tasks := by
  cases h with
  | start created fresh ready | spawn created fresh parent ready =>
    exact (TaskTable.create_kin created).trans (makeReady_roster ready).kin
  | ready found ready => exact (makeReady_roster ready).kin
  | awaitSignal | signal | note => exact .refl _
  | cancel t cancelled => exact TaskTable.cancel_kin cancelled
  | retire found described retired =>
    exact TaskTable.retire_kin retired fun v hv => hr.parent_ne hv
  | stay => exact .refl _

theorem Move.kin (h : Move x s k s' k') (hr : Roster s k) : s.tasks.Kin s'.tasks := by
  rcases h.parts.2 with heq | ⟨t, failed, woken⟩ | moved | ⟨t, prepared⟩ | ⟨t, retired⟩
  · exact heq ▸ .refl _
  · exact (wake_roster woken).kin
  · exact moved.kin hr
  · obtain ⟨-, v, -, -, hchange⟩ := TaskTable.prepareOperation_ok prepared
    exact hchange.kin rfl (TaskTable.prepareOperation_onward prepared)
  obtain ⟨-, v, -, hchange⟩ := TaskTable.retireOperation_ok retired
  exact hchange.kin rfl (TaskTable.retireOperation_onward retired)

theorem Way.kin {own : Set Label} (h : Way x own s k s' k') (hr : Roster s k) :
    s.tasks.Kin s'.tasks := by
  cases h with
  | move moved => exact moved.kin hr
  | finish found unfinished finished => exact TaskTable.finish_kin finished
  | pop => exact .of rfl
  | owner op may called =>
    rcases ownerCall_log called with ⟨catalog, rfl, -⟩ | ⟨e, catalog, -, -, rfl⟩
    · exact .refl _
    · exact .refl _
  | register =>
    obtain ⟨sources, log, heq⟩ := setSource_eq x s _ _
    rw [heq]
    exact .refl _

end JitLlm.Scheduler
