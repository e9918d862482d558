import JitLlm.Scheduler.Agreement

/-!
# The execution budget

A domain whose occupancy is within the budget stays within it through every step of the
scheduler. Only a load's beginning charges anything; it is checked against the budget, and where
the check is given more (a load that takes a parked eviction's backing), the donor's charge of
the same size and domain is given back in the same move. So the statement is proved move by move:
`Move.total` is the step, and every run of moves between two worlds follows.

A call of the owner's on the catalog is no step of the scheduler: it may add a resident extent
without asking anyone.
-/

namespace JitLlm.Scheduler

open Base Lib
open Catalog hiding Operation Reachable

variable {x : Config} {s s' : Scheduler} {k k' : List Debt} {e : ExtentId} {event : Event}
    {p : EvictPhase} {place : PageSource} {c c' : Catalog} {lease : LeaseId} {own : Set Label}

def charged (s : Scheduler) (d : DomainId) : Nat := Catalog.bytesOf s.catalog d Catalog.occupies

/-- `Total` of the domain, at most the budget. -/
def WithinBudget (x : Config) (s : Scheduler) (d : DomainId) : Prop :=
  ∃ total, (s.catalog.occupancyOf d).total = .ok total ∧ total.value ≤ x.settings.budget.value

theorem withinBudget_iff (hl : Catalog.Ledger s.catalog) (d : DomainId) :
    WithinBudget x s d ↔ s.charged d ≤ x.settings.budget.value := by
  obtain ⟨total, htotal, hvalue⟩ := hl.total d
  constructor
  · rintro ⟨total', htotal', hle⟩
    cases htotal.symm.trans htotal'
    unfold charged
    omega
  intro hle
  unfold charged at hle
  exact ⟨total, htotal, by omega⟩

/-! ## Records -/

variable {r r' : ExtentRecord}

theorem charged_edit (hedit : Catalog.Edit s.catalog e r' s'.catalog)
    (hr : s.catalog.extents.find? e = some r) (d : DomainId)
    (hle : Catalog.weight d Catalog.occupies r' ≤ Catalog.weight d Catalog.occupies r) :
    s'.charged d ≤ s.charged d := by
  have hset := hedit.bytesOf hr d Catalog.occupies
  unfold charged
  omega

theorem charged_alike {c : Catalog} (h : Catalog.Alike s.catalog c) (d : DomainId) :
    Catalog.bytesOf c d Catalog.occupies = s.charged d := by
  refine h.sum _ fun r r' hbare => ?_
  have hview := congrArg (fun q : ExtentRecord => (q.view.descriptor, q.view.state)) hbare
  obtain ⟨hdes, hstate⟩ := Prod.mk.inj hview
  have hd : r.view.descriptor = r'.view.descriptor := hdes
  have hs : r.view.state = r'.view.state := hstate
  unfold Catalog.weight Catalog.occupies
  rw [hd, hs]

variable {r : ExtentRecord}

theorem weight_occupied (d : DomainId) (h : r.view.state ≠ .nonresident) :
    Catalog.weight d Catalog.occupies r =
      if r.view.descriptor.domain = d then r.view.descriptor.size.value else 0 := by
  simp [Catalog.weight, Catalog.occupies, h]

theorem weight_nonresident (d : DomainId) (h : r.view.state = .nonresident) :
    Catalog.weight d Catalog.occupies r = 0 := by
  simp [Catalog.weight, Catalog.occupies, h]

theorem weight_evicting (d : DomainId) (writeBack : Bool) (h : r.view.state = .resident) :
    Catalog.weight d Catalog.occupies (r.evicting writeBack) =
      Catalog.weight d Catalog.occupies r := by
  rw [weight_occupied d (by rw [h]; simp : r.view.state ≠ .nonresident)]
  exact weight_occupied d (by simp [ExtentRecord.evicting])

theorem LoadEnd.weight_le {p : LoadPhase}
    (h : LoadEnd e p r r' event) (hstate : r.view.state = .loading) (d : DomainId) :
    Catalog.weight d Catalog.occupies r' ≤ Catalog.weight d Catalog.occupies r := by
  rw [weight_occupied d (by rw [hstate]; simp : r.view.state ≠ .nonresident)]
  cases h with
  | whole => exact Nat.le_of_eq (weight_occupied d (by simp [ExtentRecord.loaded]))
  | failed => rw [weight_nonresident d rfl]; exact Nat.zero_le _
  | lost => exact Nat.le_of_eq (weight_occupied d (by simp [ExtentRecord.quarantined]))

theorem EvictEnd.weight_le
    (h : EvictEnd e p r r' event) (hstate : r.view.state = .evicting) (d : DomainId) :
    Catalog.weight d Catalog.occupies r' ≤ Catalog.weight d Catalog.occupies r := by
  rw [weight_occupied d (by rw [hstate]; simp : r.view.state ≠ .nonresident)]
  cases h with
  | evicted _ _ record => rw [weight_nonresident d record.state]; exact Nat.zero_le _
  | abandoned => exact Nat.le_of_eq (weight_occupied d (by simp [ExtentRecord.kept]))
  | lost => exact Nat.le_of_eq (weight_occupied d (by simp [ExtentRecord.quarantined]))

/-! ## Moves -/

theorem EvictionEnds.charged_le {v : Eviction} (h : EvictionEnds s s' e v place p r r' event)
    (d : DomainId) : s'.charged d ≤ s.charged d :=
  charged_edit h.edit h.ticket.found d (h.ending.weight_le h.ticket.state d)

theorem Handed.charged {v : Eviction} (h : Handed s s' e v place p r r') (d : DomainId) :
    s'.charged d + (if r.view.descriptor.domain = d then r.view.descriptor.size.value else 0) =
      s.charged d := by
  have hset := h.ends.edit.bytesOf h.ends.ticket.found d Catalog.occupies
  have hstate : r'.view.state = .nonresident := by
    cases h.ends.ending with
    | evicted _ _ record => exact record.state
  have hbef := weight_occupied d (r := r) (by rw [h.ends.ticket.state]; simp)
  have hafter := weight_nonresident d hstate
  unfold Scheduler.charged
  omega

theorem LoadBegins.charged {load : Load} {budget : Nat}
    (h : LoadBegins s s' e load r budget) (d : DomainId) : s'.charged d = s.charged d +
      if r.view.descriptor.domain = d then r.view.descriptor.size.value else 0 := by
  have hset := h.edit.bytesOf h.found d Catalog.occupies
  have hbef := weight_nonresident d h.state
  have hafter : Catalog.weight d Catalog.occupies r.loading =
      if r.view.descriptor.domain = d then r.view.descriptor.size.value else 0 :=
    weight_occupied d (by simp [ExtentRecord.loading])
  unfold Scheduler.charged
  omega

theorem LoadBegins.within {load : Load} {budget : Nat}
    (h : LoadBegins s s' e load r budget) (d : DomainId) (hle : s.charged d ≤ budget) :
    s'.charged d ≤ budget := by
  rw [h.charged d]
  by_cases hd : r.view.descriptor.domain = d
  · rw [if_pos hd]
    subst hd
    exact h.charge
  rw [if_neg hd]
  exact hle

@[simp] theorem charged_join (e : ExtentId) (load : Load) (r : TaskRecord) (d : DomainId) :
    (s.join e load r).charged d = s.charged d := rfl

theorem makeReady_catalog {r : TaskRecord} (h : s.makeReady r = .ok s') : s'.catalog = s.catalog := by
  obtain ⟨records, ready, rfl⟩ := ((makeReady_woken r).val h).eq
  rfl

theorem TaskMove.catalog (h : TaskMove s k s' k') : s'.catalog = s.catalog := by
  cases h with
  | start created fresh ready | spawn created fresh parent ready =>
    exact (makeReady_catalog ready).trans rfl
  | ready found ready => exact makeReady_catalog ready
  | _ => rfl

theorem expect_ok {α : Type} {fatal : Fatal} {run : Checked (Catalog.Result α × Catalog)} {a : α}
    {c : Catalog} (h : expect fatal run = .ok (a, c)) : run = .ok (.ok a, c) := by
  obtain ⟨⟨answer, c'⟩, hrun, h⟩ := bind_ok h
  cases answer with
  | error => cases h
  | ok =>
    cases h
    exact hrun

theorem release_alike (h : c.releaseLease lease = .ok (.ok (), c')) : Catalog.Alike c c' := by
  rcases (Catalog.releaseLease_sat lease).val h with ⟨-, hsame⟩ | ⟨_, -, -, -, halike⟩
  · exact hsame ▸ .refl _
  · exact halike

theorem acquire_alike {closure : Closure}
    (h : c.acquireLease closure = .ok (.ok lease, c')) : Catalog.Alike c c' := by
  rcases (Catalog.acquireLease_sat closure).val h with ⟨_, hno, -⟩ | ⟨_, _, _, -, -, -, -, halike⟩
  · cases hno
  · exact halike

theorem lease_alike {t : TaskId} {basis : Over} {own held : Option LeaseId}
    (h : s.lease t basis = .ok (.ok (own, held), s')) : Catalog.Alike s.catalog s'.catalog := by
  unfold lease at h
  cases basis with
  | held =>
    simp only at h
    repeat' split at h
    all_goals cases h
    exact .refl _
  | closure =>
    simp only at h
    split at h
    · cases h
    obtain ⟨⟨answer, c⟩, hacq, h⟩ := bind_ok h
    rcases answer with _ | lease
    · cases h
    obtain ⟨⟨⟨⟩, c'⟩, hused, h⟩ := bind_ok h
    cases h
    exact (acquire_alike hacq).trans ((Catalog.recordUse_sat lease s.turn).val (expect_ok hused)).2

theorem setSource_catalog (e : ExtentId) (source : PageSource) :
    (setSource x s e source).2.catalog = s.catalog := by
  unfold setSource
  dsimp only
  repeat' split
  all_goals rfl

theorem Move.within (h : Move x s k s' k') (d : DomainId)
    (hle : s.charged d ≤ x.settings.budget.value) : s'.charged d ≤ x.settings.budget.value := by
  cases h with
  | keep still work waits catalog | park still work found evictions none loads catalog =>
    unfold charged
    rw [catalog]
    exact hle
  | wake t failed woken =>
    obtain ⟨records, ready, rfl⟩ := ((wake_woken t failed).val woken).eq
    exact hle
  | task moved =>
    unfold charged
    rw [moved.catalog]
    exact hle
  | load begins => exact begins.within d hle
  | loadOwn handed begins =>
    refine begins.within d ?_
    have hgiven := handed.charged d
    omega
  | loadFrom other begins reuse handed wants gives fits charged charge domain =>
    -- The charge taken and the charge given back are one size in one domain.
    have htaken := begins.charged d
    have hgiven := handed.charged d
    rw [domain, charged, ← charge] at hgiven
    rw [charged_join]
    omega
  | joinLoad | joinEviction | loseWork | ending | waitOwn | waitRelease | leave | leaveHeld =>
    exact hle
  | endLoad still work found loads evictions loading ticket edit ending =>
    exact (charged_edit edit ticket.found d (ending.weight_le ticket.state d)).trans hle
  | evict catalog noLoad noEviction idle source found state unheld writeBack edit ticket waiters
      asked =>
    exact Nat.le_trans (charged_edit edit found d (Nat.le_of_eq (weight_evicting d _ state))) hle
  | evictOnce catalog noLoad noEviction idle found state unheld unmanaged edit record edit' =>
    have hfirst := edit.bytesOf found d Catalog.occupies
    have hsec := edit'.bytesOf (find_edit_self edit found) d Catalog.occupies
    have hgone := weight_nonresident d record.state
    have hsame := weight_evicting d false state
    unfold charged at hle ⊢
    omega
  | endEviction ends => exact (ends.charged_le d).trans hle
  | submit asked leased prepared work running made cell absent opened =>
    rw [opened]
    exact Nat.le_trans (Nat.le_of_eq (charged_alike (lease_alike leased) d)) hle
  | endWork found work running retired lease kept ends held =>
    rename_i op _ _ _ _ _ _ catalog _
    have halike : Catalog.Alike s.catalog catalog := by
      by_cases hheld : op.held = none
      · obtain ⟨lease, -, hrel⟩ := lease hheld
        exact release_alike hrel
      · exact kept hheld ▸ .refl _
    rw [ends]
    exact Nat.le_trans (Nat.le_of_eq (charged_alike halike d)) hle
  | hold asked acquired used =>
    exact Nat.le_trans (Nat.le_of_eq (charged_alike
      ((acquire_alike acquired).trans ((Catalog.recordUse_sat _ _).val used).2) d)) hle
  | release found ending none used released =>
    exact Nat.le_trans (Nat.le_of_eq (charged_alike
      (((Catalog.recordUse_sat _ _).val used).2.trans (release_alike released)) d)) hle

theorem Way.within (h : Way x own s k s' k') (hown : ∀ op, .catalog op ∉ own)
    (d : DomainId) (hle : s.charged d ≤ x.settings.budget.value) :
    s'.charged d ≤ x.settings.budget.value := by
  cases h with
  | move moved => exact moved.within d hle
  | finish | pop => exact hle
  | owner op may called asked => exact absurd asked (hown op)
  | register =>
    unfold charged
    rw [setSource_catalog]
    exact hle

theorem Ways.within (h : Ways x own s k s' k') (hown : ∀ op, .catalog op ∉ own)
    (d : DomainId) (hle : s.charged d ≤ x.settings.budget.value) :
    s'.charged d ≤ x.settings.budget.value := by
  induction h with
  | refl => exact hle
  | tail _ hm ih => exact hm.within hown d ih

/-! ## The budget -/

/-- **The scheduler never exceeds the execution budget.** In every world some run leads to: a
    domain within the budget is within it after every step that is no call of the owner's on the
    catalog; a load is given another extent's backing only where that extent's eviction is parked
    with it and both are charged its size in one domain; and no step ends on a load that was
    refused the backing its own parked eviction kept. -/
theorem reachable_within_budget {w : World} (h : Reachable x w) :
    (∀ label w' d, label.ofOwner = false → step x w label = .ok (some w') →
      WithinBudget x w.state d → WithinBudget x w'.state d) ∧
    (∀ place domain e s', w.state.donor place domain = (some e, s') →
      ∃ v source given view, Donates w.state place domain e v source given view) ∧
    ∀ label, step x w label ≠ .error .ownRefused := by
  refine ⟨fun label w' d howner hstep hbef => ?_, fun place domain e s' hdonor => ?_,
    fun label hstep => ?_⟩
  · have hleads := (h.fine.step label).val hstep w' rfl
    rw [withinBudget_iff h.fine.good.reach.ledger] at hbef
    exact (withinBudget_iff hleads.fine.good.reach.ledger d).mpr
      (hleads.ways.within (Label.ofOwner_not_mem howner) d hbef)
  · unfold donor at hdonor
    cases hqueue : w.state.parked.find? place.key with
    | none => simp [hqueue] at hdonor
    | some queue =>
      simp only [hqueue, Prod.mk.injEq] at hdonor
      exact scanDonors_spec place domain queue hdonor.1
  have hpage := Halts.pageIn ((h.fine.step label).err hstep) h.fine.roster
  cases hpage

/-- What a domain's `Total` is, where it is defined. -/
def totalOf (s : Scheduler) (d : DomainId) : Option Bytes :=
  match (s.catalog.occupancyOf d).total with
  | .ok total => some total
  | .error _ => none

def lastTotals (x : Config) (labels : List Label) (label : Label) (d : DomainId) :
    Option (Option Bytes × Option Bytes) := do
  let w ← runLabels x { state := initial x } labels
  match step x w label with
  | .ok (some w') => some (w.state.totalOf d, w'.state.totalOf d)
  | _ => none

/-- A load that takes the whole budget: the step that begins it. -/
theorem reachable_within_budget_full : ∃ w w',
    runLabels oneLane { state := initial oneLane } (pageInLabels.take 6) = some w ∧
      step oneLane w (.control .accepted) = .ok (some w') ∧
      w'.state.totalOf ⟨0, 1⟩ = some twoMib ∧ WithinBudget oneLane w'.state ⟨0, 1⟩ := by
  have htot : lastTotals oneLane (pageInLabels.take 6) (.control .accepted) ⟨0, 1⟩ =
      some (some Bytes.zero, some twoMib) := by decide +kernel
  unfold lastTotals at htot
  rcases hw : runLabels oneLane { state := initial oneLane } (pageInLabels.take 6) with _ | w
  · rw [hw] at htot
    cases htot
  rw [hw, Option.bind_eq_bind, Option.bind_some] at htot
  split at htot
  next w' hstep =>
    obtain ⟨hbef, hafter⟩ := Prod.mk.inj (Option.some.inj htot)
    have hzero : WithinBudget oneLane w.state ⟨0, 1⟩ := by
      unfold totalOf at hbef
      split at hbef
      next total htotal =>
        cases hbef
        exact ⟨_, htotal, Nat.zero_le _⟩
      · cases hbef
    exact ⟨w, w', rfl, hstep, hafter,
      (reachable_within_budget (runLabels_reachable .start hw)).1 _ w' _ rfl hstep hzero⟩
  · cases htot

end JitLlm.Scheduler
