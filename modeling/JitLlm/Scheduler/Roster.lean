import JitLlm.Scheduler.Moves
import JitLlm.Scheduler.Views

/-!
# The records and the task table

`Roster s k`: the scheduler's records are those of the table's live tasks, a task counts its
operations and its children, the parents are live, and a finished task with neither is about to be
retired (`k` owes it). Every move keeps it (`Roster.moves`).

Parents come before their children: the order is what a walk up the ancestors, and the argument
that some live task has no live child, rest on.
-/

namespace JitLlm.Scheduler

open Base Lib List
open Catalog hiding Operation Reachable

/-! ## Records -/

section Records

variable {s s' : Scheduler} {t : TaskId} {r : TaskRecord}

theorem record?_eq_some : s.record? t = some r ↔
    s.records[t.index]? = some (some r) ∧ r.id = t ∧ t.valid = true := by
  unfold record?
  constructor
  · intro h
    split at h
    next r' hr' =>
      split at h
      next hid =>
        cases h
        exact ⟨hr', hid.2, hid.1⟩
      · simp at h
    · simp at h
  rintro ⟨hr, hid, hvalid⟩
  simp [hr, hid, hvalid]

def TaskRecord.face (r : TaskRecord) : TaskId × Bool := (r.id, r.finished)

def SameFaces (s s' : Scheduler) : Prop :=
  s'.records.map (Option.map TaskRecord.face) = s.records.map (Option.map TaskRecord.face)

theorem SameFaces.refl (s : Scheduler) : SameFaces s s := rfl

theorem SameFaces.trans {s1 : Scheduler} (h : SameFaces s s1) (h' : SameFaces s1 s') :
    SameFaces s s' := Eq.trans h' h

section

variable (h : SameFaces s s')
include h

theorem SameFaces.at (i : Nat) : (s'.records[i]?).map (Option.map TaskRecord.face) =
      (s.records[i]?).map (Option.map TaskRecord.face) := by
  have := congrArg (fun l => l[i]?) h
  simpa using this

theorem SameFaces.record (hr : s'.record? t = some r) :
    ∃ r0, s.record? t = some r0 ∧ r0.face = r.face := by
  obtain ⟨hr, hid, hvalid⟩ := record?_eq_some.mp hr
  have hat := h.at t.index
  rw [hr] at hat
  rcases hs : s.records[t.index]? with _ | o
  · simp [hs] at hat
  rcases o with _ | r0
  · simp [hs] at hat
  simp only [hs, Option.map_some, Option.some.injEq] at hat
  refine ⟨r0, record?_eq_some.mpr ⟨hs, ?_, hvalid⟩, hat.symm⟩
  rw [← hid]
  exact (congrArg Prod.fst hat).symm

theorem SameFaces.length : s'.records.length = s.records.length := by
  have hlen := congrArg List.length h
  simpa using hlen

theorem SameFaces.filed
    (hf : ∀ (i : Nat) r, s.records[i]? = some (some r) → r.id.index = i ∧ r.id.valid = true)
    {i : Nat} (hr : s'.records[i]? = some (some r)) : r.id.index = i ∧ r.id.valid = true := by
  have hat := h.at i
  rw [hr] at hat
  rcases hs : s.records[i]? with _ | o
  · simp [hs] at hat
  rcases o with _ | r0
  · simp [hs] at hat
  simp only [hs, Option.map_some, Option.some.injEq] at hat
  have hid : r.id = r0.id := congrArg Prod.fst hat
  rw [hid]
  exact hf i r0 hs

theorem SameFaces.symm : SameFaces s' s := Eq.symm h 
end

theorem sameFaces_setRecord {r' : TaskRecord} (hr : s.record? r.id = some r)
    (hface : r'.face = r.face) : SameFaces s (s.setRecord r') := by
  obtain ⟨hcell, -, -⟩ := record?_eq_some.mp hr
  have hindex : r'.id.index = r.id.index := congrArg (fun p => p.1.index) hface
  unfold SameFaces setRecord
  simp only [map_set, Option.map_some, hface, hindex]
  refine ext_getElem? fun j => ?_
  by_cases hj : r.id.index = j
  · subst hj
    rw [getElem?_set_self (by simpa using (List.getElem?_eq_some_iff.mp hcell).1),
      getElem?_map, hcell]
    rfl
  · rw [getElem?_set_ne hj]

theorem sameFaces_makeReady (h : s.makeReady r = .ok s') : s'.records = s.records ∧
    s'.tasks.tasks = s.tasks.tasks ∧ s'.tasks.capacity = s.tasks.capacity := by
  unfold makeReady at h
  split at h
  · cases h
    exact ⟨rfl, rfl, rfl⟩
  obtain ⟨⟨answer, tasks⟩, hready, h⟩ := bind_ok h
  have hspec := (TaskTable.makeReady_ok hready).1
  rcases answer with _ | _
  · simp at h
  simp only [pure, Except.pure, Except.ok.injEq] at h
  subst h
  rw [hspec]
  exact ⟨rfl, rfl, rfl⟩

end Records

/-! ## What most moves keep -/

section Same

variable {s s1 s' : Scheduler} {t : TaskId} {r : TaskRecord}

/-- Nothing of the tasks changed but what they wait for, were told, and whether they are ready. -/
structure SameRoster (s s' : Scheduler) : Prop where
  tasks : s'.tasks.tasks = s.tasks.tasks
  capacity : s'.tasks.capacity = s.tasks.capacity
  faces : SameFaces s s'
  cells : s'.workCells.map (Option.map Operation.task) = s.workCells.map (Option.map Operation.task)

theorem SameRoster.refl (s : Scheduler) : SameRoster s s := ⟨rfl, rfl, rfl, rfl⟩

theorem SameRoster.trans (h : SameRoster s s1) (h' : SameRoster s1 s') : SameRoster s s' :=
  ⟨h'.tasks.trans h.tasks, h'.capacity.trans h.capacity, h.faces.trans h'.faces,
    h'.cells.trans h.cells⟩

theorem Still.roster (h : Still s s') (hw : SameWork s s') : SameRoster s s' :=
  ⟨by rw [h.tasks], by rw [h.tasks], by unfold SameFaces; rw [h.records], by rw [hw]⟩

theorem record?_congr (h : s'.records = s.records) (t : TaskId) : s'.record? t = s.record? t := by
  unfold record?
  rw [h]

theorem setRecord_roster {r' : TaskRecord} (hr : s.record? r.id = some r)
    (hface : r'.face = r.face) : SameRoster s (s.setRecord r') :=
  ⟨rfl, rfl, sameFaces_setRecord hr hface, rfl⟩

theorem addWaiting_roster (hr : s.record? r.id = some r) : SameRoster s (s.addWaiting r) :=
  setRecord_roster hr rfl

theorem asked_roster (asked : Asks s r) (htasks : s'.tasks = s.tasks)
    (hrec : s'.records = (s.addWaiting r).records) (hcells : s'.workCells = s.workCells) :
    SameRoster s s' := by
  have hfaces := (addWaiting_roster asked.1).faces
  exact ⟨by rw [htasks], by rw [htasks], by unfold SameFaces at hfaces ⊢; rw [hrec]; exact hfaces,
    by rw [hcells]⟩

theorem makeReady_roster (h : s.makeReady r = .ok s') : SameRoster s s' := by
  have hspec := sameFaces_makeReady h
  unfold makeReady at h
  split at h
  · cases h
    exact .refl s
  obtain ⟨⟨answer, tasks⟩, -, h⟩ := bind_ok h
  rcases answer with _ | _
  · simp at h
  simp only [pure, Except.pure, Except.ok.injEq] at h
  subst h
  exact ⟨hspec.2.1, hspec.2.2, rfl, rfl⟩

theorem wake_roster {failed : Bool} (h : s.wake t failed = .ok s') : SameRoster s s' := by
  unfold wake at h
  rcases hr : s.record? t with _ | r
  · simp only [hr, Except.ok.injEq] at h
    exact h ▸ .refl s
  have hid := (record?_eq_some.mp hr).2.1
  have hr' : s.record? r.id = some r := by rw [hid]; exact hr
  simp only [hr] at h
  split at h
  · exact Except.ok.inj h ▸ .refl s
  split at h
  · split at h
    · exact SameRoster.trans (setRecord_roster hr' (by rfl)) (makeReady_roster h)
    · exact Except.ok.inj h ▸ setRecord_roster hr' rfl
  · simp at h

end Same

/-! ## The invariant -/

def childOf (t : TaskId) (v : TaskView) : Nat := if v.parent = some t then 1 else 0

def workOf (t : TaskId) (op : Operation) : Nat := if op.task = t then 1 else 0

structure Roster (s : Scheduler) (k : List Debt) : Prop where
  length : s.records.length = s.tasks.capacity
  filed : ∀ (i : Nat) r, s.records[i]? = some (some r) → r.id.index = i ∧ r.id.valid = true
  known : ∀ t r, s.record? t = some r →
    ∃ v, s.tasks.describe t = some v ∧ v.outcome.isSome = r.finished
  recorded : ∀ t v, s.tasks.describe t = some v → ∃ r, s.record? t = some r
  parent : ∀ t v p, s.tasks.describe t = some v → v.parent = some p →
    ∃ v', s.tasks.describe p = some v'
  owner : ∀ (i : Nat) op, s.workCells[i]? = some (some op) → ∃ v, s.tasks.describe op.task = some v
  operations : ∀ t v, s.tasks.describe t = some v → v.operations = cellSum (workOf t) s.workCells
  children : ∀ t v, s.tasks.describe t = some v → v.children = s.tasks.tally (childOf t)
  due : ∀ t v, s.tasks.describe t = some v → v.outcome.isSome = true → v.operations = 0 →
    v.children = 0 → Debt.retire t ∈ k
  order : ∃ rank : TaskId → Nat, ∀ t v p, s.tasks.describe t = some v → v.parent = some p →
    rank p < rank t
  live : s.tasks.tasks.live = s.tasks.tally fun _ => 1

section Keep

variable {x : Config} {s s' : Scheduler} {k k' : List Debt} {tasks : TaskTable} {v : TaskView}
    {i : Nat} {op work : Operation}

theorem workCells_task (h : s'.workCells.map (Option.map Operation.task) =
    s.workCells.map (Option.map Operation.task)) :
    (∀ t, cellSum (workOf t) s'.workCells = cellSum (workOf t) s.workCells) ∧
      ∀ (i : Nat) op, s'.workCells[i]? = some (some op) →
        ∃ op0, s.workCells[i]? = some (some op0) ∧ op0.task = op.task := by
  constructor
  · intro t
    have hval : ∀ l : List (Option Operation), cellSum (workOf t) l =
        cellSum (fun u => if u = t then 1 else 0) (l.map (Option.map Operation.task)) := by
      intro l
      unfold cellSum
      rw [map_map]
      refine congrArg List.sum (map_congr_left fun c _ => ?_)
      cases c <;> rfl
    rw [hval, hval, h]
  intro i op hop
  have hat := congrArg (fun l => l[i]?) h
  simp only [getElem?_map, hop, Option.map_some] at hat
  rcases hs : s.workCells[i]? with _ | c
  · simp [hs] at hat
  cases c with
  | none => simp [hs] at hat
  | some op0 =>
    simp only [hs, Option.map_some, Option.some.injEq] at hat
    exact ⟨op0, rfl, hat.symm⟩

theorem Roster.reviewed (h : Roster s k) (hk : ∀ t, Debt.retire t ∈ k → Debt.retire t ∈ k')
    (hviews : ∀ t, Option.Rel (fun w w' => w'.parent = w.parent ∧ w'.operations = w.operations ∧
      w'.children = w.children ∧ w'.outcome = w.outcome) (s.tasks.describe t) (s'.tasks.describe t))
    (htally : ∀ t, s'.tasks.tally (childOf t) = s.tasks.tally (childOf t))
    (hlive : s'.tasks.tasks.live = s.tasks.tasks.live)
    (hcount : s'.tasks.tally (fun _ => 1) = s.tasks.tally fun _ => 1)
    (hcap : s'.tasks.capacity = s.tasks.capacity) (hfaces : SameFaces s s')
    (hcells : s'.workCells.map (Option.map Operation.task) =
      s.workCells.map (Option.map Operation.task)) : Roster s' k' := by
  have hback := fun t w' (hw' : s'.tasks.describe t = some w') => rel_some' (hviews t) hw'
  have hthere := fun t w (hw : s.tasks.describe t = some w) => rel_some (hviews t) hw
  obtain ⟨hsum, hcell⟩ := workCells_task hcells
  refine ⟨by rw [hfaces.length, hcap]; exact h.length, fun i r hr => hfaces.filed h.filed hr,
    fun t r hr => ?_, fun t w' hw' => ?_, fun t w' p hw' hp => ?_, fun j op hop => ?_,
    fun t w' hw' => ?_, fun t w' hw' => ?_, fun t w' hw' ho hp hc => ?_, ?_, ?_⟩
  · obtain ⟨r0, hr0, hface⟩ := hfaces.record hr
    obtain ⟨w, hw, hfin⟩ := h.known t r0 hr0
    obtain ⟨w', hw', -, -, -, hout⟩ := hthere t w hw
    exact ⟨w', hw', by rw [hout, hfin]; exact congrArg Prod.snd hface⟩
  · obtain ⟨w, hw, -⟩ := hback t w' hw'
    obtain ⟨r0, hr0⟩ := h.recorded t w hw
    obtain ⟨r, hr, -⟩ := hfaces.symm.record hr0
    exact ⟨r, hr⟩
  · obtain ⟨w, hw, hpar, -⟩ := hback t w' hw'
    obtain ⟨u, hu⟩ := h.parent t w p hw (hpar ▸ hp)
    obtain ⟨u', hu', -⟩ := hthere p u hu
    exact ⟨u', hu'⟩
  · obtain ⟨op0, hop0, htask⟩ := hcell j op hop
    obtain ⟨w, hw⟩ := h.owner j op0 hop0
    obtain ⟨w', hw', -⟩ := hthere op0.task w hw
    exact ⟨w', htask ▸ hw'⟩
  · obtain ⟨w, hw, -, hops, -⟩ := hback t w' hw'
    rw [hops, hsum]
    exact h.operations t w hw
  · obtain ⟨w, hw, -, -, hkids, -⟩ := hback t w' hw'
    rw [hkids, htally]
    exact h.children t w hw
  · obtain ⟨w, hw, -, hops, hkids, hout⟩ := hback t w' hw'
    exact hk t (h.due t w hw (hout ▸ ho) (hops ▸ hp) (hkids ▸ hc))
  · obtain ⟨rank, hrank⟩ := h.order
    refine ⟨rank, fun t w' p hw' hp => ?_⟩
    obtain ⟨w, hw, hpar, -⟩ := hback t w' hw'
    exact hrank t w p hw (hpar ▸ hp)
  rw [hlive, hcount]
  exact h.live

theorem Roster.same (h : Roster s k) (hs : SameRoster s s')
    (hk : ∀ t, Debt.retire t ∈ k → Debt.retire t ∈ k') : Roster s' k' := by
  have htally : ∀ g, s'.tasks.tally g = s.tasks.tally g := fun g => by
    unfold TaskTable.tally
    rw [hs.tasks]
  refine h.reviewed hk (fun t => ?_) (fun t => htally _) (by rw [hs.tasks]) (htally _) hs.capacity
    hs.faces hs.cells
  unfold TaskTable.describe
  rw [hs.tasks]
  cases s.tasks.tasks.find? t <;> constructor
  exact ⟨rfl, rfl, rfl, rfl⟩

theorem eq_of_index {t u : TaskId} {v w : TaskView}
    (ht : tasks.describe t = some v) (hu : tasks.describe u = some w) (hi : t.index = u.index) :
    t = u := by
  obtain ⟨a, ha, -⟩ := TaskTable.describe_some.mp ht
  obtain ⟨b, hb, -⟩ := TaskTable.describe_some.mp hu
  rw [SlotTable.find?_eq_some] at ha hb
  rw [hi] at ha
  have hslot := Option.some.inj (ha.symm.trans hb)
  exact Id.eq_of_parts hi (congrArg Slot.generation hslot)

theorem tally_eq_zero {g : TaskView → Nat}
    (h : ∀ t v, tasks.describe t = some v → g v = 0) : tasks.tally g = 0 := by
  unfold TaskTable.tally
  rw [SlotTable.sum_congr (g := fun _ => 0) fun id task htask =>
    h id task.view (TaskTable.describe_some.mpr ⟨task, htask, rfl⟩)]
  exact SlotTable.sum_zero _

variable {t : TaskId}

theorem le_tally (g : TaskView → Nat) (h : tasks.describe t = some v) : g v ≤ tasks.tally g := by
  obtain ⟨task, htask, rfl⟩ := TaskTable.describe_some.mp h
  exact SlotTable.le_sum (fun task => g task.view) htask

theorem Roster.worked {i n : Nat} {c c' : Option Operation} {id : TaskId}
    (h : Roster s k) (hchange : TaskTable.Changes s.tasks s'.tasks id v { v with operations := n })
    (hfaces : SameFaces s s') (hcell : s.workCells[i]? = some c)
    (hcells : s'.workCells = s.workCells.set i c')
    (hmine : ∀ op, c = some op ∨ c' = some op → op.task = id)
    (hn : n + cellVal (fun _ => 1) c = v.operations + cellVal (fun _ => 1) c')
    (hk : ∀ t, Debt.retire t ∈ k → Debt.retire t ∈ k')
    (hdue : v.outcome.isSome = true → n = 0 → Debt.retire id ∈ k') : Roster s' k' := by
  -- Every view as it was, but for one count of operations.
  have hview : ∀ t w', s'.tasks.describe t = some w' → ∃ w, s.tasks.describe t = some w ∧
      w'.parent = w.parent ∧ w'.outcome = w.outcome ∧ w'.children = w.children ∧
      (t ≠ id → w' = w) ∧ (t = id → w = v ∧ w'.operations = n) := by
    intro t w' hw'
    rw [hchange.views] at hw'
    split at hw'
    next heq =>
      cases hw'
      exact ⟨v, heq ▸ hchange.found, rfl, rfl, rfl, fun hne => absurd heq hne, fun _ => ⟨rfl, rfl⟩⟩
    rename_i hne
    exact ⟨w', hw', rfl, rfl, rfl, fun _ => rfl, fun heq => absurd heq hne⟩
  have hlive : ∀ t w, s.tasks.describe t = some w → ∃ w', s'.tasks.describe t = some w' ∧
      w'.outcome = w.outcome := by
    intro t w hw
    rw [hchange.views]
    split
    next heq =>
      have hsame := Option.some.inj (hw.symm.trans (heq ▸ hchange.found))
      exact ⟨_, rfl, by rw [hsame]⟩
    · exact ⟨w, hw, rfl⟩
  have htally : ∀ g : TaskView → Nat, (∀ w m, g { w with operations := m } = g w) →
      s'.tasks.tally g = s.tasks.tally g := by
    intro g hg
    have hsum := hchange.tally g
    have hsame : g { v with operations := n } = g v := hg v n
    rw [hsame] at hsum
    exact Nat.add_right_cancel hsum
  have hval : ∀ t, cellVal (workOf t) c = (if t = id then cellVal (fun _ => 1) c else 0) ∧
      cellVal (workOf t) c' = if t = id then cellVal (fun _ => 1) c' else 0 := by
    intro t
    constructor
    · rcases hc : c with _ | op
      · simp
      have htask := hmine op (Or.inl hc)
      simp only [cellVal_some, workOf, htask]
      simp only [eq_comm (a := id)]
    rcases hc : c' with _ | op
    · simp
    have htask := hmine op (Or.inr hc)
    simp only [cellVal_some, workOf, htask]
    simp only [eq_comm (a := id)]
  have hsum : ∀ t, cellSum (workOf t) s'.workCells + (if t = id then cellVal (fun _ => 1) c else 0) =
      cellSum (workOf t) s.workCells + if t = id then cellVal (fun _ => 1) c' else 0 := by
    intro t
    have hset := cellSum_set (workOf t) c' hcell
    rw [(hval t).1, (hval t).2, ← hcells] at hset
    exact hset
  refine ⟨?_, fun j r hr => ?_, fun t r hr => ?_, fun t w' hw' => ?_, fun t w' p hw' hp => ?_,
    fun j op hop => ?_, fun t w' hw' => ?_, fun t w' hw' => ?_, fun t w' hw' ho hp hc => ?_, ?_, ?_⟩
  · rw [hfaces.length, hchange.capacity]
    exact h.length
  · exact hfaces.filed h.filed hr
  · obtain ⟨r0, hr0, hface⟩ := hfaces.record hr
    obtain ⟨w, hw, hfin⟩ := h.known t r0 hr0
    obtain ⟨w', hw', hout⟩ := hlive t w hw
    exact ⟨w', hw', by rw [hout, hfin]; exact congrArg Prod.snd hface⟩
  · obtain ⟨w, hw, -⟩ := hview t w' hw'
    obtain ⟨r0, hr0⟩ := h.recorded t w hw
    obtain ⟨r, hr, -⟩ := hfaces.symm.record hr0
    exact ⟨r, hr⟩
  · obtain ⟨w, hw, hpar, -⟩ := hview t w' hw'
    obtain ⟨u, hu⟩ := h.parent t w p hw (hpar ▸ hp)
    obtain ⟨u', hu', -⟩ := hlive p u hu
    exact ⟨u', hu'⟩
  · rw [hcells] at hop
    by_cases hj : j = i
    · subst hj
      rw [getElem?_set_self (List.getElem?_eq_some_iff.mp hcell).1] at hop
      rw [hmine op (Or.inr (Option.some.inj hop)), hchange.views, if_pos rfl]
      exact ⟨_, rfl⟩
    rw [getElem?_set_ne (Ne.symm hj)] at hop
    obtain ⟨w, hw⟩ := h.owner j op hop
    obtain ⟨w', hw', -⟩ := hlive op.task w hw
    exact ⟨w', hw'⟩
  · obtain ⟨w, hw, -, -, -, hother, hself⟩ := hview t w' hw'
    have hset := hsum t
    rw [← h.operations t w hw] at hset
    by_cases ht : t = id
    · obtain ⟨rfl, hops⟩ := hself ht
      simp only [ht, if_true] at hset
      rw [ht]
      omega
    simp only [ht, if_false] at hset
    rw [hother ht]
    omega
  · obtain ⟨w, hw, -, -, hchil, -⟩ := hview t w' hw'
    rw [hchil, h.children t w hw]
    exact (htally (childOf t) fun _ _ => rfl).symm
  · obtain ⟨w, hw, -, hout, hchil, hother, hself⟩ := hview t w' hw'
    by_cases ht : t = id
    · obtain ⟨rfl, hops⟩ := hself ht
      rw [ht]
      exact hdue (hout ▸ ho) (hops ▸ hp)
    rw [hother ht] at ho hp hc
    exact hk t (h.due t w hw ho hp hc)
  · obtain ⟨rank, hrank⟩ := h.order
    refine ⟨rank, fun t w' p hw' hp => ?_⟩
    obtain ⟨w, hw, hpar, -⟩ := hview t w' hw'
    exact hrank t w p hw (hpar ▸ hp)
  rw [hchange.live, htally _ fun _ _ => rfl]
  exact h.live

variable {r : TaskRecord}

theorem Roster.created {parent : Option TaskId} (h : Roster s k)
    (hc : TaskTable.Creates s.tasks s'.tasks r.id parent) (hfresh : r.finished = false)
    (hfaces : SameFaces (s.setRecord r) s') (hcells : s'.workCells = s.workCells) : Roster s' k := by
  -- The slot was empty: a record there would be of a live task.
  have hpar : ∀ p, parent = some p → p ≠ r.id := by
    rintro p hp rfl
    obtain ⟨v, hv, -⟩ := hc.parent r.id hp
    cases hc.fresh.symm.trans hv
  have hview : ∀ t w', t ≠ r.id → s'.tasks.describe t = some w' → ∃ w, s.tasks.describe t = some w ∧
      w'.parent = w.parent ∧ w'.outcome = w.outcome ∧ w'.operations = w.operations ∧
      w'.children = w.children + if parent = some t then 1 else 0 := by
    intro t w' hne hw'
    rw [hc.views, if_neg hne] at hw'
    split at hw'
    next hp =>
      cases hw : s.tasks.describe t with
      | none => simp [hw] at hw'
      | some w =>
        simp only [hw, Option.map_some, Option.some.injEq] at hw'
        exact ⟨w, rfl, by rw [← hw'], by rw [← hw'], by rw [← hw'], by rw [← hw', if_pos hp]⟩
    rename_i hp
    exact ⟨w', hw', rfl, rfl, rfl, by rw [if_neg hp]; rfl⟩
  have hself : s'.tasks.describe r.id = some { parent } := by rw [hc.views, if_pos rfl]
  have hlive : ∀ t w, s.tasks.describe t = some w → t ≠ r.id ∧ ∃ w', s'.tasks.describe t = some w' ∧
      w'.outcome = w.outcome := by
    intro t w hw
    have hne : t ≠ r.id := by
      rintro rfl
      cases hc.fresh.symm.trans hw
    refine ⟨hne, ?_⟩
    rw [hc.views, if_neg hne]
    split
    · exact ⟨{ w with children := w.children + 1 }, by rw [hw]; rfl, rfl⟩
    · exact ⟨w, hw, rfl⟩
  have hindex : ∀ t w, s.tasks.describe t = some w → t.index ≠ r.id.index := by
    intro t w hw hi
    obtain ⟨hne, w', hw', -⟩ := hlive t w hw
    exact hne (eq_of_index hw' hself hi)
  have hin : r.id.index < s.records.length := by rw [h.length]; exact hc.index
  have hrec : (s.setRecord r).record? r.id = some r :=
    record?_eq_some.mpr ⟨getElem?_set_self hin, rfl, hc.valid⟩
  have hother : ∀ t w, s.tasks.describe t = some w → (s.setRecord r).record? t = s.record? t := by
    intro t w hw
    unfold record? setRecord
    rw [getElem?_set_ne (Ne.symm (hindex t w hw))]
  have hzero : s.tasks.tally (childOf r.id) = 0 := by
    refine tally_eq_zero fun t v hv => ?_
    unfold childOf
    rw [if_neg]
    intro hp
    obtain ⟨w, hw⟩ := h.parent t v r.id hv hp
    cases hc.fresh.symm.trans hw
  have hnone : cellSum (workOf r.id) s.workCells = 0 := by
    refine cellSum_eq_zero fun i op hop => ?_
    unfold workOf
    rw [if_neg]
    intro htask
    obtain ⟨v, hv⟩ := h.owner i op hop
    rw [htask] at hv
    cases hc.fresh.symm.trans hv
  refine ⟨?_, fun j r' hr' => ?_, fun t r' hr' => ?_, fun t w' hw' => ?_, fun t w' p hw' hp => ?_,
    fun j op hop => ?_, fun t w' hw' => ?_, fun t w' hw' => ?_, fun t w' hw' ho hp hkids => ?_, ?_, ?_⟩
  · rw [hfaces.length, hc.capacity]
    exact (length_set ..).trans h.length
  · refine hfaces.filed (fun i r1 hr1 => ?_) hr'
    by_cases hi : r.id.index = i
    · subst hi
      have hcell : (s.setRecord r).records[r.id.index]? = some (some r) := getElem?_set_self hin
      cases Option.some.inj (hcell.symm.trans hr1)
      exact ⟨rfl, hc.valid⟩
    have hcell : (s.setRecord r).records[i]? = s.records[i]? := getElem?_set_ne hi
    exact h.filed i r1 (hcell.symm.trans hr1)
  · obtain ⟨r0, hr0, hface⟩ := hfaces.record hr'
    by_cases ht : t = r.id
    · subst ht
      cases hrec.symm.trans hr0
      exact ⟨_, hself, hfresh.symm.trans (congrArg Prod.snd hface)⟩
    have hcell := (record?_eq_some.mp hr0)
    have hi : r.id.index ≠ t.index := by
      intro hi
      have hat : (s.setRecord r).records[t.index]? = some (some r) := by
        rw [← hi]
        exact getElem?_set_self hin
      cases Option.some.inj (hat.symm.trans hcell.1)
      exact ht hcell.2.1.symm
    have hold : s.record? t = some r0 := by
      refine record?_eq_some.mpr ⟨?_, hcell.2⟩
      rw [← hcell.1]
      exact (getElem?_set_ne hi).symm
    obtain ⟨w, hw, hfin⟩ := h.known t r0 hold
    obtain ⟨-, w', hw', hout⟩ := hlive t w hw
    exact ⟨w', hw', by rw [hout, hfin]; exact congrArg Prod.snd hface⟩
  · by_cases ht : t = r.id
    · subst ht
      obtain ⟨r', hr', -⟩ := hfaces.symm.record hrec
      exact ⟨r', hr'⟩
    obtain ⟨w, hw, -⟩ := hview t w' ht hw'
    obtain ⟨r0, hr0⟩ := h.recorded t w hw
    obtain ⟨r', hr', -⟩ := hfaces.symm.record ((hother t w hw).trans hr0)
    exact ⟨r', hr'⟩
  · by_cases ht : t = r.id
    · subst ht
      cases hself.symm.trans hw'
      obtain ⟨v, hv, -⟩ := hc.parent p hp
      obtain ⟨-, v', hv', -⟩ := hlive p v hv
      exact ⟨v', hv'⟩
    obtain ⟨w, hw, hpar', -⟩ := hview t w' ht hw'
    obtain ⟨u, hu⟩ := h.parent t w p hw (hpar' ▸ hp)
    obtain ⟨-, u', hu', -⟩ := hlive p u hu
    exact ⟨u', hu'⟩
  · rw [hcells] at hop
    obtain ⟨w, hw⟩ := h.owner j op hop
    obtain ⟨-, w', hw', -⟩ := hlive op.task w hw
    exact ⟨w', hw'⟩
  · rw [hcells]
    by_cases ht : t = r.id
    · subst ht
      cases hself.symm.trans hw'
      exact hnone.symm
    obtain ⟨w, hw, -, -, hops, -⟩ := hview t w' ht hw'
    rw [hops]
    exact h.operations t w hw
  · rw [hc.tally (childOf t) fun _ _ => rfl]
    by_cases ht : t = r.id
    · subst ht
      cases hself.symm.trans hw'
      have hne : parent ≠ some r.id := fun hp => hpar r.id hp rfl
      simp [hzero, childOf, hne]
    obtain ⟨w, hw, -, -, -, hkids⟩ := hview t w' ht hw'
    rw [hkids, h.children t w hw]
    rfl
  · by_cases ht : t = r.id
    · subst ht
      cases hself.symm.trans hw'
      simp at ho
    obtain ⟨w, hw, -, hout, hops, hkids'⟩ := hview t w' ht hw'
    refine h.due t w hw (hout ▸ ho) (hops ▸ hp) ?_
    omega
  · obtain ⟨rank, hrank⟩ := h.order
    refine ⟨fun u => if u = r.id then (parent.map rank).getD 0 + 1 else rank u,
      fun t w' p hw' hp => ?_⟩
    by_cases ht : t = r.id
    · subst ht
      cases hself.symm.trans hw'
      have hp' : parent = some p := hp
      simp only [hpar p hp', if_false, if_true, hp', Option.map_some, Option.getD_some]
      omega
    obtain ⟨w, hw, hpar', -⟩ := hview t w' ht hw'
    have hne : p ≠ r.id := by
      rintro rfl
      obtain ⟨u, hu⟩ := h.parent t w r.id hw (hpar' ▸ hp)
      cases hc.fresh.symm.trans hu
    simp only [ht, hne, if_false]
    exact hrank t w p hw (hpar' ▸ hp)
  · rw [hc.live, hc.tally (fun _ => 1) fun _ _ => rfl, h.live]

theorem Roster.cancelled (h : Roster s k)
    (hc : s.tasks.cancel t = .ok (.ok (), tasks)) : Roster { s with tasks } k := by
  obtain ⟨-, hcap, hcan, -⟩ := TaskTable.cancel_ok hc
  refine h.reviewed (fun _ => id) (fun u => ?_)
    (fun u => hcan.tally (childOf u) fun _ _ => rfl) hcan.live
    (hcan.tally (fun _ => 1) fun _ _ => rfl) hcap rfl rfl
  rcases hcan.describe u with ⟨hnone, hnone'⟩ | ⟨v, c, hv, hv', -⟩
  · rw [hnone, hnone']
    exact .none
  rw [hv, hv']
  exact .some ⟨rfl, rfl, rfl, rfl⟩

theorem Roster.parent_ne (h : Roster s k)
    (hv : s.tasks.describe t = some v) : v.parent ≠ some t := by
  intro hp
  obtain ⟨rank, hrank⟩ := h.order
  exact Nat.lt_irrefl _ (hrank t v t hv hp)

theorem Roster.retired (h : Roster s (.retire t :: k)) (hg : TaskTable.Gone s.tasks tasks t v) :
    Roster { s with tasks, records := s.records.set t.index none }
      (v.parent.toList.map .retire ++ k) := by
  have hview : ∀ u w', tasks.describe u = some w' → u ≠ t ∧ ∃ w, s.tasks.describe u = some w ∧
      w'.parent = w.parent ∧ w'.outcome = w.outcome ∧ w'.operations = w.operations ∧
      w'.children = w.children - if v.parent = some u then 1 else 0 := by
    intro u w' hw'
    rw [hg.views] at hw'
    split at hw'
    · simp at hw'
    rename_i hne
    refine ⟨hne, ?_⟩
    split at hw'
    next hp =>
      cases hw : s.tasks.describe u with
      | none => simp [hw] at hw'
      | some w =>
        simp only [hw, Option.map_some, Option.some.injEq] at hw'
        exact ⟨w, rfl, by rw [← hw'], by rw [← hw'], by rw [← hw'], by rw [← hw', if_pos hp]⟩
    rename_i hp
    exact ⟨w', hw', rfl, rfl, rfl, by rw [if_neg hp]; rfl⟩
  have hthere : ∀ u w, u ≠ t → s.tasks.describe u = some w → ∃ w', tasks.describe u = some w' ∧
      w'.outcome = w.outcome := by
    intro u w hne hw
    rw [hg.views, if_neg hne]
    split
    · exact ⟨{ w with children := w.children - 1 }, by rw [hw]; rfl, rfl⟩
    · exact ⟨w, hw, rfl⟩
  have hindex : ∀ u w, u ≠ t → s.tasks.describe u = some w → t.index ≠ u.index :=
    fun u w hne hw hi => hne (eq_of_index hw hg.found hi.symm)
  -- Nobody has it for a parent, and no operation is its own.
  have hpar : ∀ u w, s.tasks.describe u = some w → w.parent ≠ some t := by
    intro u w hw hp
    have hle := le_tally (childOf t) hw
    rw [← h.children t v hg.found, hg.children] at hle
    simp [childOf, hp] at hle
  have howner : ∀ (i : Nat) op, s.workCells[i]? = some (some op) → op.task ≠ t := by
    intro i op hop htask
    have hle := le_cellSum (workOf t) hop
    rw [← h.operations t v hg.found, hg.operations] at hle
    simp [workOf, htask] at hle
  have hrec : ∀ u, u.index ≠ t.index →
      record? { s with tasks, records := s.records.set t.index none } u = s.record? u := by
    intro u hne
    unfold record?
    rw [getElem?_set_ne (Ne.symm hne)]
  refine ⟨?_, fun j r hr => ?_, fun u r hr => ?_, fun u w' hw' => ?_, fun u w' p hw' hp => ?_,
    fun j op hop => ?_, fun u w' hw' => ?_, fun u w' hw' => ?_, fun u w' hw' ho hp hkids => ?_, ?_, ?_⟩
  · show (s.records.set t.index none).length = tasks.capacity
    rw [hg.capacity, length_set]
    exact h.length
  · change (s.records.set t.index none)[j]? = _ at hr
    rw [getElem?_set] at hr
    split at hr
    · split at hr <;> simp at hr
    · exact h.filed j r hr
  · obtain ⟨hcell, hid, hvalid⟩ := record?_eq_some.mp hr
    have hne : u.index ≠ t.index := by
      intro hi
      rw [hi, getElem?_set] at hcell
      simp at hcell
    obtain ⟨w, hw, hfin⟩ := h.known u r ((hrec u hne).symm.trans hr)
    obtain ⟨w', hw', hout⟩ := hthere u w (fun heq => hne (by rw [heq])) hw
    exact ⟨w', hw', by rw [hout, hfin]⟩
  · obtain ⟨hne, w, hw, -⟩ := hview u w' hw'
    obtain ⟨r, hr⟩ := h.recorded u w hw
    exact ⟨r, (hrec u (Ne.symm (hindex u w hne hw))).trans hr⟩
  · obtain ⟨-, w, hw, hsame, -⟩ := hview u w' hw'
    obtain ⟨y, hy⟩ := h.parent u w p hw (hsame ▸ hp)
    have hne : p ≠ t := by
      rintro rfl
      exact hpar u w hw (hsame ▸ hp)
    obtain ⟨y', hy', -⟩ := hthere p y hne hy
    exact ⟨y', hy'⟩
  · obtain ⟨w, hw⟩ := h.owner j op hop
    obtain ⟨w', hw', -⟩ := hthere op.task w (howner j op hop) hw
    exact ⟨w', hw'⟩
  · obtain ⟨-, w, hw, -, -, hops, -⟩ := hview u w' hw'
    rw [hops]
    exact h.operations u w hw
  · obtain ⟨-, w, hw, -, -, -, hkids⟩ := hview u w' hw'
    have hsum := hg.tally (childOf u) fun _ _ => rfl
    rw [hkids, h.children u w hw, ← hsum]
    show _ = tasks.tally (childOf u)
    unfold childOf
    omega
  · obtain ⟨hne, w, hw, -, hout, hops, hkids'⟩ := hview u w' hw'
    rw [mem_append]
    by_cases hp' : v.parent = some u
    · left
      rw [hp']
      exact List.mem_map.mpr ⟨u, by simp, rfl⟩
    right
    rw [if_neg hp', hkids] at hkids'
    have hmem := h.due u w hw (hout ▸ ho) (hops ▸ hp) (by omega)
    rcases List.mem_cons.mp hmem with heq | hmem
    · exact absurd (Debt.retire.inj heq) hne
    · exact hmem
  · obtain ⟨rank, hrank⟩ := h.order
    refine ⟨rank, fun u w' p hw' hp => ?_⟩
    obtain ⟨-, w, hw, hsame, -⟩ := hview u w' hw'
    exact hrank u w p hw (hsame ▸ hp)
  have hsum := hg.tally (fun _ => 1) fun _ _ => rfl
  show tasks.tasks.live = tasks.tally _
  rw [hg.live, h.live]
  omega

theorem Roster.finished {o : TaskOutcome} (h : Roster s k)
    (hf : TaskTable.Finishes s.tasks tasks t v o) (hr : s.record? t = some r)
    (hk : ∀ u, Debt.retire u ∈ k → Debt.retire u ∈ k') (hdue : Debt.retire t ∈ k') :
    Roster ({ s with tasks }.setRecord { r with finished := true }) k' := by
  obtain ⟨hcell, hid, hvalid⟩ := record?_eq_some.mp hr
  obtain ⟨told, hviews⟩ := hf.views
  set s1 := { s with tasks }.setRecord { r with finished := true } with hs1
  have hrec : s1.records = s.records.set t.index (some { r with finished := true }) := by
    rw [hs1, ← hid]
    rfl
  have hview : ∀ u w', tasks.describe u = some w' → ∃ w, s.tasks.describe u = some w ∧
      w'.parent = w.parent ∧ w'.operations = w.operations ∧ w'.children = w.children ∧
      (u ≠ t → w'.outcome = w.outcome) := by
    intro u w' hw'
    rw [hviews] at hw'
    split at hw'
    next heq =>
      cases hw'
      exact ⟨v, heq ▸ hf.found, rfl, rfl, rfl, fun hne => absurd heq hne⟩
    cases hw : s.tasks.describe u with
    | none => simp [hw] at hw'
    | some w =>
      simp only [hw, Option.map_some, Option.some.injEq] at hw'
      exact ⟨w, rfl, by rw [← hw'], by rw [← hw'], by rw [← hw'], fun _ => by rw [← hw']⟩
  have hthere : ∀ u w, s.tasks.describe u = some w → ∃ w', tasks.describe u = some w' ∧
      (u ≠ t → w'.outcome = w.outcome) := by
    intro u w hw
    rw [hviews]
    split
    next heq =>
      exact ⟨_, rfl, fun hne => absurd heq hne⟩
    rw [hw]
    exact ⟨_, rfl, fun _ => rfl⟩
  have hself : ∃ w', tasks.describe t = some w' ∧ w'.outcome.isSome = true := by
    rw [hviews, if_pos rfl]
    exact ⟨_, rfl, rfl⟩
  have hlen := (List.getElem?_eq_some_iff.mp hcell).1
  refine ⟨?_, fun j r' hr' => ?_, fun u r' hr' => ?_, fun u w' hw' => ?_, fun u w' p hw' hp => ?_,
    fun j op hop => ?_, fun u w' hw' => ?_, fun u w' hw' => ?_, fun u w' hw' ho hp hkids => ?_, ?_, ?_⟩
  · rw [hrec, length_set]
    exact h.length.trans hf.capacity.symm
  · rw [hrec, getElem?_set] at hr'
    split at hr'
    next hj =>
      obtain rfl : { r with finished := true } = r' := by simpa [hj ▸ hlen] using hr'
      rw [← hj]
      exact h.filed t.index r hcell
    · exact h.filed j r' hr'
  · obtain ⟨hcell', hid', hvalid'⟩ := record?_eq_some.mp hr'
    rw [hrec, getElem?_set] at hcell'
    split at hcell'
    next hj =>
      obtain rfl : { r with finished := true } = r' := by simpa [hj ▸ hlen] using hcell'
      obtain ⟨w', hw', ho⟩ := hself
      have heq : u = t := hid'.symm.trans hid
      exact ⟨w', heq ▸ hw', ho⟩
    rename_i hj
    obtain ⟨w, hw, hfin⟩ := h.known u r' (record?_eq_some.mpr ⟨hcell', hid', hvalid'⟩)
    obtain ⟨w', hw', hout⟩ := hthere u w hw
    exact ⟨w', hw', by rw [hout fun heq => hj (by rw [heq]), hfin]⟩
  · obtain ⟨w, hw, -⟩ := hview u w' hw'
    obtain ⟨r0, hr0⟩ := h.recorded u w hw
    obtain ⟨hcell0, hid0, hvalid0⟩ := record?_eq_some.mp hr0
    by_cases hj : t.index = u.index
    · have heq : u = t := (eq_of_index hw hf.found hj.symm)
      subst heq
      refine ⟨{ r with finished := true }, record?_eq_some.mpr ⟨?_, hid, hvalid⟩⟩
      rw [hrec]
      exact getElem?_set_self hlen
    refine ⟨r0, record?_eq_some.mpr ⟨?_, hid0, hvalid0⟩⟩
    rw [hrec, getElem?_set_ne hj]
    exact hcell0
  · obtain ⟨w, hw, hpar, -⟩ := hview u w' hw'
    obtain ⟨y, hy⟩ := h.parent u w p hw (hpar ▸ hp)
    obtain ⟨y', hy', -⟩ := hthere p y hy
    exact ⟨y', hy'⟩
  · obtain ⟨w, hw⟩ := h.owner j op hop
    obtain ⟨w', hw', -⟩ := hthere op.task w hw
    exact ⟨w', hw'⟩
  · obtain ⟨w, hw, -, hops, -⟩ := hview u w' hw'
    rw [hops]
    exact h.operations u w hw
  · obtain ⟨w, hw, -, -, hkids, -⟩ := hview u w' hw'
    have hsum := hf.tally (childOf u) fun _ _ => rfl
    have hsame : childOf u { v with outcome := some o } = childOf u v := rfl
    rw [hkids, h.children u w hw]
    show _ = tasks.tally (childOf u)
    omega
  · obtain ⟨w, hw, -, hops, hkids', hout⟩ := hview u w' hw'
    by_cases heq : u = t
    · rw [heq]
      exact hdue
    · exact hk u (h.due u w hw (hout heq ▸ ho) (hops ▸ hp) (hkids' ▸ hkids))
  · obtain ⟨rank, hrank⟩ := h.order
    refine ⟨rank, fun u w' p hw' hp => ?_⟩
    obtain ⟨w, hw, hpar, -⟩ := hview u w' hw'
    exact hrank u w p hw (hpar ▸ hp)
  have hsum := hf.tally (fun _ => 1) fun _ _ => rfl
  show tasks.tasks.live = tasks.tally _
  rw [hf.live, h.live]
  omega

/-! ## Every move -/

theorem workCells_set {ops : List (Option Operation)} {c : Option Operation}
    (h : s'.operations = ops.set i c) (hs : s.operations = ops) :
    s'.workCells = s.workCells.set i (c.bind Operation.work) := by
  unfold workCells
  rw [h, hs, map_set]

theorem workCells_at (hcell : s.operations[i]? = some (some op))
    (hwork : op.work = some work) : s.workCells[i]? = some (some work) := by
  unfold workCells
  rw [getElem?_map, hcell]
  exact congrArg some hwork

theorem work_eq (h : op.work = some work) :
    work = { op with published := false } ∧ (op.kind = .device ∨ op.kind = .cpu) := by
  unfold Operation.work at h
  split at h
  next hkind =>
    exact ⟨(Option.some.inj h).symm, .inl hkind⟩
  next hkind =>
    exact ⟨(Option.some.inj h).symm, .inr hkind⟩
  · simp at h
  · simp at h

theorem work_task (h : op.work = some work) : work.task = op.task := by
  rw [(work_eq h).1]

theorem work_quarantined (h : op.work = some work) :
    Operation.work { op with quarantined := true } = some { work with quarantined := true } := by
  obtain ⟨rfl, hkind | hkind⟩ := work_eq h <;> simp [Operation.work, hkind]

theorem set_same {α : Type} {l : List α} {a : α} (h : l[i]? = some a) : l.set i a = l := by
  refine ext_getElem? fun j => ?_
  rw [getElem?_set]
  split
  next hij =>
    subst hij
    rw [if_pos (List.getElem?_eq_some_iff.mp h).1, h]
  · rfl

theorem setSource_eq (x : Config) (s : Scheduler) (e : ExtentId) (source : PageSource) :
    ∃ sources log, (setSource x s e source).2 = { s with sources, log } := by
  unfold setSource
  split
  · exact ⟨_, _, rfl⟩
  split
  · exact ⟨_, _, rfl⟩
  split
  · exact ⟨_, _, rfl⟩
  simp only
  split
  · exact ⟨_, _, rfl⟩
  split
  · exact ⟨_, _, rfl⟩
  split
  · exact ⟨_, _, rfl⟩
  split
  · exact ⟨_, _, rfl⟩
  · exact ⟨_, _, rfl⟩

theorem lease_eq {basis : Over} {own held : Option LeaseId}
    (h : s.lease t basis = .ok (.ok (own, held), s')) :
    s' = { s with catalog := s'.catalog, held := s'.held } := by
  unfold lease at h
  cases basis with
  | held =>
    simp only at h
    split at h
    · simp at h
    split at h
    · simp at h
    split at h
    · simp at h
    split at h
    · simp at h
    simp only [Except.ok.injEq, Prod.mk.injEq] at h
    rw [← h.2]
  | closure =>
    simp only at h
    split at h
    · simp at h
    obtain ⟨⟨answer, c⟩, -, h⟩ := bind_ok h
    rcases answer with _ | _
    · simp [pure, Except.pure] at h
    obtain ⟨⟨u, c'⟩, -, h⟩ := bind_ok h
    simp only [pure, Except.pure, Except.ok.injEq, Prod.mk.injEq] at h
    rw [← h.2]

theorem Roster.taskMove (h : Roster s k) (hm : TaskMove s k s' k') : Roster s' k' := by
  cases hm with
  | start created fresh ready =>
    rename_i tasks r
    have hc := TaskTable.create_creates created
    have hready := makeReady_roster ready
    have hbase : Roster ({ s with tasks }.setRecord r) k :=
      h.created hc (by rw [fresh]) (.refl _) rfl
    exact hbase.same hready fun _ hmem => hmem
  | spawn created fresh parent ready =>
    rename_i tasks r p
    have hc := TaskTable.create_creates created
    have hready := makeReady_roster ready
    have hbase : Roster (({ s with tasks }.setRecord r).addWaiting p) k :=
      h.created hc (by rw [fresh]) (sameFaces_setRecord parent rfl) rfl
    exact hbase.same hready fun _ hmem => hmem
  | awaitSignal asked => exact h.same (setRecord_roster asked.1 rfl) fun _ hmem => hmem
  | signal asked =>
    refine h.same (setRecord_roster asked.1 rfl) fun u hmem => ?_
    split
    · exact mem_cons_of_mem _ hmem
    · exact hmem
  | note found => exact h.same (setRecord_roster found rfl) fun _ hmem => hmem
  | ready found ready => exact h.same (makeReady_roster ready) fun _ hmem => hmem
  | cancel t cancelled => exact h.cancelled cancelled
  | retire found described retired =>
    rename_i tasks t r view
    obtain ⟨v, hg⟩ := TaskTable.retire_gone retired fun v hv => h.parent_ne hv
    cases described.symm.trans hg.found
    exact h.retired hg
  | stay kept =>
    rename_i t
    refine { h with due := fun u v hv ho hp hc => ?_ }
    rcases List.mem_cons.mp (h.due u v hv ho hp hc) with heq | hmem
    · obtain rfl := Debt.retire.inj heq
      rcases kept with hnone | hnone | ⟨error, tasks, href⟩
      · cases hnone.symm.trans hv
      · obtain ⟨r, hr⟩ := h.recorded u v hv
        cases hnone.symm.trans hr
      rcases TaskTable.retire_refused href hv with hnone | hpos | hpos
      · simp [hnone] at ho
      · omega
      · omega
    · exact hmem

theorem mem_wakes {u : TaskId} {waiters : List TaskId} {k : List Debt}
    (h : Debt.retire u ∈ k) : Debt.retire u ∈ wakes waiters ++ k := mem_append_right _ h

theorem Roster.move (h : Roster s k) (hm : Move x s k s' k') : Roster s' k' := by
  cases hm with
  | keep still work => exact h.same (still.roster work) fun _ hmem => hmem
  | wake t failed woken =>
    exact h.same (wake_roster woken) fun u hmem => (List.mem_cons.mp hmem).resolve_left (by simp)
  | task moved => exact h.taskMove moved
  | load begins reuse asked =>
    refine h.same (asked_roster asked begins.still.tasks ?_ begins.work) fun _ hmem => hmem
    simp only [join, addWaiting, setRecord, setLoad, begins.still.records]
  | loadOwn handed begins reuse asked =>
    refine h.same (asked_roster asked (begins.still.tasks.trans handed.ends.still.tasks) ?_
      (begins.work.trans handed.ends.work)) fun _ hmem => hmem
    simp only [join, addWaiting, setRecord, setLoad, begins.still.records, handed.ends.still.records]
  | loadFrom other begins reuse handed wants gives fits charged charge domain asked =>
    refine h.same (asked_roster asked (handed.ends.still.tasks.trans begins.still.tasks) ?_
      (handed.ends.work.trans begins.work)) fun _ hmem => hmem
    simp only [join, addWaiting, setRecord, setLoad, begins.still.records, handed.ends.still.records]
  | joinLoad found fresh asked | joinEviction found fresh asked
  | waitOwn found own ending operations fresh asked | waitRelease found other free fresh asked =>
    exact h.same (asked_roster asked rfl rfl rfl) fun _ hmem => hmem
  | endLoad still work | park still work =>
    exact h.same (still.roster work) fun _ hmem => mem_wakes hmem
  | evict catalog noLoad noEviction idle source found state unheld wb edit ticket waiters asked =>
    rw [catalog]
    exact h.same (asked_roster asked rfl rfl rfl) fun _ hmem => hmem
  | evictOnce catalog =>
    rw [catalog]
    exact h.same ⟨rfl, rfl, rfl, rfl⟩ fun _ hmem => hmem
  | endEviction ends =>
    exact h.same (ends.still.roster ends.work) fun _ hmem => mem_wakes hmem
  | submit asked leased prepared work running made cell absent opened =>
    rename_i s1 r basis own held tasks id op
    have hs1 := lease_eq leased
    have htasks : s1.tasks = s.tasks := by rw [hs1]
    rw [htasks] at prepared
    obtain ⟨-, v, hcan, hout, hchange⟩ := TaskTable.prepareOperation_ok prepared
    have hfaces : SameFaces s s' := by
      refine (addWaiting_roster asked.1).faces.trans ?_
      rw [opened, hs1]
      rfl
    have hops : s'.operations = s.operations.set id.index (some op) := by rw [opened]; rfl
    have hcell : s.workCells[id.index]? = some none := by
      unfold workCells
      rw [getElem?_map, cell]
      rfl
    have htask : op.task = r.id := by rw [made]
    have hcells := workCells_set hops rfl
    rw [show (some op).bind Operation.work = some op from work] at hcells
    have htasks' : s'.tasks = tasks := by rw [opened]; rfl
    refine h.worked (htasks' ▸ hchange) hfaces hcell hcells ?_ (by simp) (fun _ hmem => hmem) ?_
    · rintro op' (hop' | hop')
      · simp at hop'
      cases hop'
      exact htask
    intro ho
    simp [hout] at ho
  | loseWork fault found work running =>
    rename_i op work'
    obtain ⟨hcell, -, -⟩ := find_eq_some.mp found
    refine h.same ⟨rfl, rfl, rfl, ?_⟩ fun _ hmem => mem_cons_of_mem _ hmem
    have hcells : workCells ({ s.setOperation { op with quarantined := true } with
        quarantined := s.quarantined + 1
        log := .quarantined op.id :: s.log }.fail fault) =
        s.workCells.set op.id.index (some { work' with quarantined := true }) := by
      rw [workCells_set (s := s) (c := some { op with quarantined := true }) rfl rfl]
      exact congrArg _ (work_quarantined work)
    have hcell' : s.workCells[op.id.index]? = some (some work') := workCells_at hcell work
    rw [hcells, map_set]
    exact set_same (by rw [getElem?_map, hcell']; rfl)
  | endWork found work running retired lease kept ends held =>
    rename_i op work' outcome bytes proven tasks board catalog due
    obtain ⟨-, v, hpos, hchange⟩ := TaskTable.retireOperation_ok retired
    obtain ⟨hcell, -, -⟩ := find_eq_some.mp found
    have hcell' : s.workCells[op.id.index]? = some (some work') := workCells_at hcell work
    have hops : s'.operations = s.operations.set op.id.index none := by rw [ends]
    have hcells := workCells_set hops rfl
    have htasks' : s'.tasks = tasks := by rw [ends]
    have hfaces : SameFaces s s' := by
      unfold SameFaces
      rw [ends]
    refine h.worked (htasks' ▸ hchange) hfaces hcell' hcells ?_ ?_ ?_ ?_
    · rintro op' (hop' | hop')
      · cases hop'
        exact work_task work
      · simp at hop'
    · simp only [cellVal_some, Option.bind_none, cellVal_none]
      omega
    · intro u hmem
      exact mem_append_right _ (mem_cons_of_mem _ (mem_cons_of_mem _ hmem))
    intro _ _
    exact mem_append_right _ (mem_cons_of_mem _ mem_cons_self)
  | hold => exact h.same ⟨rfl, rfl, rfl, rfl⟩ fun _ hmem => hmem
  | ending =>
    exact h.same ⟨rfl, rfl, rfl, rfl⟩ fun _ hmem => mem_append_right _ hmem
  | release =>
    exact h.same ⟨rfl, rfl, rfl, rfl⟩ fun u hmem =>
      mem_wakes ((List.mem_cons.mp hmem).resolve_left (by simp))
  | leave =>
    exact h.same ⟨rfl, rfl, rfl, rfl⟩ fun u hmem => (List.mem_cons.mp hmem).resolve_left (by simp)
  | leaveHeld =>
    exact h.same ⟨rfl, rfl, rfl, rfl⟩ fun u hmem =>
      mem_append_right _ ((List.mem_cons.mp hmem).resolve_left (by simp))

theorem Roster.moves (h : Roster s k) (hm : Moves x s k s' k') : Roster s' k' := by
  induction hm with
  | refl => exact h
  | tail _ hstep ih => exact ih.move hstep

end Keep
end JitLlm.Scheduler
