import JitLlm.Memory.Fits
import Mathlib.Data.List.MinMax

/-!
# When a cohort or a resumption is accepted

The other side of the checks, for an owner of a domain's grants: which cohorts fit, given those
that are known to, and what each call leaves of what the owner relies on.
-/

namespace JitLlm.Memory

open Base Lib List

variable {items items' : List (Envelope × Bool)} {F J : Bytes}

theorem demand_sublist (h : items.Sublist items') : demand F J items ≤ demand F J items' := by
  have hparts : retainedSum items ≤ retainedSum items' ∧ maxPhase items ≤ maxPhase items' ∧
      cohortSum items ≤ cohortSum items' := by
    induction h with
    | slnil => exact ⟨Nat.le_refl _, Nat.le_refl _, Nat.le_refl _⟩
    | cons item _ ih | cons_cons item _ ih =>
      obtain ⟨h1, h2, h3⟩ := ih
      simp only [retainedSum, maxPhase, cohortSum, map_cons, sum_cons,
        foldr_cons, filter_cons] at h1 h2 h3 ⊢
      refine ⟨by omega, by omega, ?_⟩
      split
      · simp only [map_cons, sum_cons]
        omega
      · exact h3
  unfold demand
  omega

namespace CommitmentLedger

variable {l l' : CommitmentLedger} {d : DomainId} {state : Domain} {change : Change}
    {cohort cohort' exclude : List GrantId} {g : GrantId}
    {promise : Option (List GrantId × GrantId)}
def Affords (l : CommitmentLedger) (d : DomainId) (cohort exclude : List GrantId) : Prop :=
  ∃ state, l.domains.find? d = some state ∧
    demand state.fixed state.background (l.counted d cohort { exclude }) ≤ state.budget.value

/-! ## What fits -/

theorem counted_congr (h : ∀ g, g ∈ cohort ↔ g ∈ cohort') :
    l.counted d cohort change = l.counted d cohort' change := by
  rw [counted_eq, counted_eq]
  refine congrArg₂ _ (map_congr_left fun p _ => ?_) rfl
  simp [item, h p.1]

theorem Affords.congr (h : l.Affords d cohort exclude) (hmem : ∀ g, g ∈ cohort ↔ g ∈ cohort') :
    l.Affords d cohort' exclude := by
  obtain ⟨state, hd, hfits⟩ := h
  exact ⟨state, hd, counted_congr hmem ▸ hfits⟩

theorem Affords.without (h : l.Affords d cohort []) (g : GrantId) : l.Affords d cohort [g] := by
  obtain ⟨state, hd, hfits⟩ := h
  refine ⟨state, hd, (demand_sublist ?_).trans hfits⟩
  rw [counted_eq, counted_eq]
  simp only [Option.toList_none, map_nil, append_nil]
  refine List.Sublist.map _ (monotone_filter_right _ fun p hp => ?_)
  simp only [counts, decide_eq_true_eq] at hp ⊢
  exact ⟨hp.1, by simp⟩

theorem Affords.of_gone (h : l.Affords d cohort [g]) (hg : l.grants.find? g = none) :
    l.Affords d cohort [] := by
  obtain ⟨state, hd, hfits⟩ := h
  refine ⟨state, hd, ?_⟩
  have heq : l.counted d cohort {} = l.counted d cohort { exclude := [g] } := by
    rw [counted_eq, counted_eq]
    simp only [Option.toList_none, map_nil, append_nil]
    refine congrArg (List.map _) (filter_congr fun p hp => ?_)
    have hfind := SlotTable.mem_entries.mp (show (p.1, p.2) ∈ l.grants.entries from hp)
    have hne : p.1 ≠ g := by
      rintro rfl
      cases hg.symm.trans hfind
    simp [counts, hne]
  rw [heq]
  exact hfits

theorem Affords.alone (h : l.Affords d cohort []) (hg : l.isGrantOf d g = true) :
    l.Affords d [g] [] := by
  obtain ⟨state, hd, hfits⟩ := h
  refine ⟨state, hd, Nat.le_trans ?_ hfits⟩
  have hlive : l.Live d [g] := ⟨nodup_singleton g, fun g' hg' => by
    rw [mem_singleton.mp hg']
    exact hg⟩
  have hret : retainedSum (l.counted d [g] {}) = retainedSum (l.counted d cohort {}) := by
    simp [retainedSum, counted]
    rfl
  have hmax : maxPhase (l.counted d [g] {}) = maxPhase (l.counted d cohort {}) := by
    simp [maxPhase, counted]
    rfl
  have hone : cohortSum (l.counted d [g] {}) ≤ maxPhase (l.counted d [g] {}) := by
    rw [cohortSum_counted hlive (by simp)]
    obtain ⟨record, hrec, hdom⟩ := isGrantOf_iff.mp hg
    have hmem : (record.envelope, true) ∈ l.counted d [g] {} := by
      rw [counted_eq]
      refine mem_append_left _ (mem_map.mpr ⟨(g, record), ?_, by simp [item]⟩)
      exact mem_filter.mpr ⟨SlotTable.mem_entries.mpr hrec, by simp [counts, hdom]⟩
    have hphase : l.phaseOf g = record.envelope.phase.value := by simp [phaseOf, hrec]
    simp only [map_cons, map_nil, sum_cons, sum_nil, Nat.add_zero, hphase]
    exact le_max_of_le' 0
      (mem_map_of_mem (f := fun p : Envelope × Bool => p.1.phase.value) hmem) le_rfl
  unfold demand
  rw [hret, ← hmax]
  omega

theorem Affords.setDomain {state' : Domain} (h : l.Affords d cohort exclude)
    (hd : l.domains.find? d = some state) (hfixed : state'.fixed = state.fixed)
    (hback : state'.background = state.background) (hbud : state'.budget = state.budget) :
    (l.setDomain d state').Affords d cohort exclude := by
  obtain ⟨state'', hd'', hfits⟩ := h
  cases hd.symm.trans hd''
  refine ⟨state', OrdMap.find?_insert_self _ _ _, ?_⟩
  rw [hfixed, hback, hbud]
  exact hfits

/-! ## What is accepted -/

theorem adjacentFind_of_nodup : ∀ {grants : List GrantId}, grants.Nodup →
    adjacentFind grants = false
  | [], _ => rfl
  | [_], _ => rfl
  | a :: b :: rest, h => by
    obtain ⟨hhead, htail⟩ := nodup_cons.mp h
    simp only [adjacentFind, Bool.or_eq_false_iff, decide_eq_false_iff_not]
    exact ⟨fun heq => hhead (heq ▸ mem_cons_self), adjacentFind_of_nodup htail⟩

theorem members_of_live (h : l.Live d cohort) :
    l.members d cohort = some (cohort.insertionSort (· ≤ ·)) := by
  have hperm := perm_insertionSort (· ≤ ·) cohort
  unfold members
  simp only [adjacentFind_of_nodup (hperm.nodup_iff.mpr h.nodup), Bool.false_eq_true, if_false]
  refine if_pos (all_eq_true.mpr fun g hg => ?_)
  exact h.grant g (hperm.mem_iff.mp hg)

section

variable (hd : l.domains.find? d = some state)
include hd

theorem setCohort_ok (hres : state.resumption = none)
    (hlive : l.Live d cohort) (hfits : l.Affords d cohort []) : ∃ members, members.Perm cohort ∧
      l.setCohort d cohort = (.ok (), l.setDomain d { state with cohort := members }) := by
  have hperm := perm_insertionSort (· ≤ ·) cohort
  refine ⟨_, hperm, ?_⟩
  obtain ⟨state', hd', hdem⟩ := hfits.congr fun g => (hperm.mem_iff (a := g)).symm
  cases hd.symm.trans hd'
  have hcheck : l.check d { cohort := some (cohort.insertionSort (· ≤ ·)) } = .ok () :=
    (check_ok hd rfl).mpr ⟨hdem, fun r hr => nomatch hres.symm.trans hr⟩
  unfold setCohort onDomain
  simp only [hd, members_of_live hlive]
  unfold checked
  rw [hcheck]

theorem setResumption_ok (hlive : l.Live d cohort)
    (hsub : l.isGrantOf d g = true) (hapart : g ∉ cohort) (hfits : l.Affords d cohort [g]) :
    ∃ members, members.Perm cohort ∧
      l.setResumption d cohort g = (.ok (), l.setDomain d { state with
        resumption := some { cohort := members, substitute := g } }) := by
  have hperm := perm_insertionSort (· ≤ ·) cohort
  refine ⟨_, hperm, ?_⟩
  obtain ⟨state', hd', hdem⟩ := hfits.congr fun g => (hperm.mem_iff (a := g)).symm
  cases hd.symm.trans hd'
  have hfind : (l.setDomain d { state with resumption := none }).domains.find? d
      = some { state with resumption := none } := OrdMap.find?_insert_self _ _ _
  have hcheck : (l.setDomain d { state with resumption := none }).check d
      { cohort := some (cohort.insertionSort (· ≤ ·)), exclude := [g] } = .ok () :=
    (check_ok hfind rfl).mpr ⟨hdem, fun r hr => absurd hr (by simp)⟩
  unfold setResumption onDomain
  simp only [hd, members_of_live hlive]
  rw [if_neg (by simp [hsub, hapart])]
  simp only [hcheck]

theorem clearResumption_ok :
    l.clearResumption d = (.ok (), l.setDomain d { state with resumption := none }) := by
  unfold clearResumption onDomain
  simp only [hd]

end

/-! ## What an owner relies on -/

/-- The domain's cohort is `cohort`, and its promise, if any, that the second list runs once the
    substitute is gone. -/
def Promised (l : CommitmentLedger) (d : DomainId) (cohort : List GrantId)
    (promise : Option (List GrantId × GrantId)) : Prop :=
  ∃ state, l.domains.find? d = some state ∧ state.cohort.Perm cohort ∧
    match promise with
    | none => state.resumption = none
    | some (resumed, substitute) =>
      ∃ resumption, state.resumption = some resumption ∧ resumption.substitute = substitute ∧
        resumption.cohort.Perm resumed

theorem Promised.affords
    (h : l.Promised d cohort promise) (hl : l.Sound) : l.Affords d cohort [] := by
  obtain ⟨state, hd, hperm, -⟩ := h
  have hfits : l.Affords d state.cohort [] := ⟨state, hd, (hl.domains d state hd).fits⟩
  exact hfits.congr fun g => hperm.mem_iff

theorem Promised.resumes (h : l.Promised d cohort (some (cohort', g))) (hl : l.Sound) :
    l.Affords d cohort' [g] := by
  obtain ⟨state, hd, -, resumption, hr, rfl, hperm⟩ := h
  have hfits : l.Affords d resumption.cohort [resumption.substitute] :=
    ⟨state, hd, ((hl.domains d state hd).resumption resumption hr).fits⟩
  exact hfits.congr fun g => hperm.mem_iff

/-- What another call leaves of a domain: its cohort, its promise and its grants. -/
structure Steady (l l' : CommitmentLedger) (d : DomainId) : Prop where
  domain : ∀ state, l.domains.find? d = some state →
    ∃ state', l'.domains.find? d = some state' ∧ state'.cohort = state.cohort ∧
      state'.resumption = state.resumption
  grant : ∀ g, l.isGrantOf d g = true → l'.isGrantOf d g = true

theorem Steady.refl (l : CommitmentLedger) (d : DomainId) : Steady l l d :=
  ⟨fun state hd => ⟨state, hd, rfl, rfl⟩, fun _ hg => hg⟩

theorem Promised.steady (h : l.Promised d cohort promise)
    (hl : Steady l l' d) : l'.Promised d cohort promise := by
  obtain ⟨state, hd, hperm, hprom⟩ := h
  obtain ⟨state', hd', hcoh, hres⟩ := hl.domain state hd
  refine ⟨state', hd', hcoh ▸ hperm, ?_⟩
  rw [hres]
  exact hprom

theorem Steady.setDomain {state' : Domain} (hd : l.domains.find? d = some state)
    (hcoh : state'.cohort = state.cohort) (hres : state'.resumption = state.resumption) :
    Steady l (l.setDomain d state') d := by
  refine ⟨fun state'' hd'' => ?_, fun g hg => hg⟩
  cases hd.symm.trans hd''
  exact ⟨state', OrdMap.find?_insert_self _ _ _, hcoh, hres⟩

theorem Steady.onDomain {f : Domain → Result Unit × CommitmentLedger}
    (hf : ∀ state, l.domains.find? d = some state → Steady l (f state).2 d) :
    Steady l (l.onDomain d f).2 d := by
  unfold CommitmentLedger.onDomain
  cases hd : l.domains.find? d with
  | none => exact Steady.refl l d
  | some state => exact hf state hd

theorem Steady.checked (h : Steady l l' d) : Steady l (l.checked d change l').2 d := by
  unfold CommitmentLedger.checked
  cases l.check d change with
  | error => exact Steady.refl l d
  | ok => exact h

section

variable (l) (d)

theorem Steady.addFixed (bytes : Bytes) : Steady l (l.addFixed d bytes).2 d := by
  refine Steady.onDomain fun state hd => ?_
  cases state.fixed.plus bytes with
  | none => exact Steady.refl l d
  | some => exact Steady.checked (Steady.setDomain hd rfl rfl)

theorem Steady.addBackground (bytes : Bytes) : Steady l (l.addBackground d bytes).2 d := by
  refine Steady.onDomain fun state hd => ?_
  cases state.background.plus bytes with
  | none => exact Steady.refl l d
  | some => exact Steady.checked (Steady.setDomain hd rfl rfl)

theorem Steady.setBudget (budget : Bytes) : Steady l (l.setBudget d budget).2 d :=
  Steady.onDomain fun _ hd => Steady.checked (Steady.setDomain hd rfl rfl)

theorem Steady.releaseFixed (bytes : Bytes) : Steady l (l.releaseFixed d bytes).2 d := by
  refine Steady.onDomain fun state hd => ?_
  cases state.fixed.minus bytes with
  | none => exact Steady.refl l d
  | some => exact Steady.setDomain hd rfl rfl

theorem Steady.releaseBackground (bytes : Bytes) : Steady l (l.releaseBackground d bytes).2 d := by
  refine Steady.onDomain fun state hd => ?_
  cases state.background.minus bytes with
  | none => exact Steady.refl l d
  | some => exact Steady.setDomain hd rfl rfl

end

theorem Steady.replace (l : CommitmentLedger) (g : GrantId) (envelope : Envelope) :
    Steady l (l.replace g envelope).2 d := by
  unfold CommitmentLedger.replace
  rcases hfound : l.grants.find? g with _ | found
  · exact Steady.refl l d
  -- Whatever domain the grant is of, only its envelope is written.
  have hafter : Steady l { l with grants := l.grants.set g { found with envelope } } d :=
    ⟨fun state hd => ⟨state, hd, rfl, rfl⟩, fun g' hg' => isGrantOf_set hfound envelope hg'⟩
  simp only [CommitmentLedger.checked]
  cases l.check found.domain { replace := some g, replacement := envelope } with
  | error => exact Steady.refl l d
  | ok => exact hafter

theorem grant_ok {envelope : Envelope} (h : l.grant d envelope = (.ok g, l')) :
    Steady l l' d ∧ l'.isGrantOf d g = true ∧ l.isGrantOf d g = false := by
  unfold grant at h
  rcases hcheck : l.check d { add := some envelope } with _ | _
  · rw [hcheck] at h
    cases h
  rw [hcheck] at h
  rcases hins : l.grants.insert { domain := d, envelope } with _ | p
  · rw [hins] at h
    cases h
  rw [hins] at h
  cases h
  refine ⟨⟨fun state hd => ⟨state, hd, rfl, rfl⟩, fun g' hg' => (isGrantOf_insert hins hg').1⟩,
    isGrantOf_iff.mpr ⟨{ domain := d, envelope }, ?_, rfl⟩, ?_⟩
  · exact (SlotTable.find?_insert hins _).trans (if_pos rfl)
  unfold isGrantOf
  rw [SlotTable.find?_insert_fresh hins]

theorem retire_ok (hl : l.Sound) (hg : l.isGrantOf d g = true) (hp : l.Promised d cohort promise) :
    ∃ l', l.retire g = (.ok (), l') ∧ l'.Sound ∧
      l'.Promised d (cohort.filter (· ≠ g))
        (promise.map fun p => (p.1.filter (· ≠ g), p.2)) ∧
      l'.grants.find? g = none ∧
      ∀ g', g' ≠ g → l'.isGrantOf d g' = l.isGrantOf d g' := by
  obtain ⟨found, hfound, rfl⟩ := isGrantOf_iff.mp hg
  obtain ⟨state, hd, hperm, hprom⟩ := hp
  have hsound := (hl.retire g).1
  have heq : l.retire g = (.ok (), { domains := l.domains.insert found.domain (Domain.without state g)
                                     grants := l.grants.erase g }) := by
    unfold retire
    simp only [hfound, hd]
  rw [heq] at hsound
  refine ⟨_, heq, hsound, ?_, ?_, fun g' hne => ?_⟩
  · refine ⟨_, OrdMap.find?_insert_self _ _ _, hperm.filter _, ?_⟩
    rcases promise with _ | _
    · have hnone : state.resumption = none := hprom
      simp [Domain.without, hnone]
    obtain ⟨resumption, hr, hsub, hres⟩ := hprom
    refine ⟨{ resumption with cohort := resumption.cohort.filter (· ≠ g) }, ?_, hsub, hres.filter _⟩
    simp [Domain.without, hr]
  · show (l.grants.erase g).find? g = none
    rw [SlotTable.find?_erase, if_pos rfl]
  unfold isGrantOf
  rw [SlotTable.find?_erase, if_neg hne]

end CommitmentLedger
end JitLlm.Memory
