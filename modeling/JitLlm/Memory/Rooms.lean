import JitLlm.Memory.Cohorts

/-!
# Room for one envelope more

When a domain's ledger grants an envelope, told by its cohort and its promise: `Room`. Who runs is
no matter of money: the calls that set the cohort and the resumption leave the sums and the grants
alone (`Money`), and with fewer running there is no less room (`Room.fewer`).
-/

namespace JitLlm.Memory

open Base Lib

namespace CommitmentLedger

variable {l l' l1 : CommitmentLedger} {d : DomainId} {state : Domain}
    {cohort cohort' exclude : List GrantId} {envelope : Envelope} {g : GrantId} {change : Change}
    {promise : Option (List GrantId × GrantId)}
structure Money (l l' : CommitmentLedger) (d : DomainId) : Prop where
  grants : l'.grants = l.grants
  domain : ∀ state, l.domains.find? d = some state → ∃ state', l'.domains.find? d = some state' ∧
    state'.fixed = state.fixed ∧ state'.background = state.background ∧
    state'.budget = state.budget

theorem Money.refl (l : CommitmentLedger) (d : DomainId) : Money l l d :=
  ⟨rfl, fun state hd => ⟨state, hd, rfl, rfl, rfl⟩⟩

theorem Money.trans (h : Money l l1 d) (h' : Money l1 l' d) : Money l l' d := by
  refine ⟨h'.grants.trans h.grants, ?_⟩
  intro state hd
  obtain ⟨state1, hd1, hf, hb, hB⟩ := h.domain state hd
  obtain ⟨state', hd', hf', hb', hB'⟩ := h'.domain state1 hd1
  exact ⟨state', hd', hf'.trans hf, hb'.trans hb, hB'.trans hB⟩

theorem Money.setDomain {state' : Domain} (hd : l.domains.find? d = some state)
    (hf : state'.fixed = state.fixed) (hb : state'.background = state.background)
    (hB : state'.budget = state.budget) : Money l (l.setDomain d state') d := by
  refine ⟨rfl, ?_⟩
  intro state0 hd0
  cases hd.symm.trans hd0
  exact ⟨state', OrdMap.find?_insert_self _ _ _, hf, hb, hB⟩

theorem Money.onDomain {f : Domain → Result Unit × CommitmentLedger}
    (hf : ∀ state, l.domains.find? d = some state → Money l (f state).2 d) :
    Money l (l.onDomain d f).2 d := by
  unfold CommitmentLedger.onDomain
  split
  · exact .refl l d
  rename_i state hd
  exact hf state hd

theorem Money.checked (h : Money l l' d) : Money l (l.checked d change l').2 d := by
  unfold CommitmentLedger.checked
  split
  · exact .refl l d
  · exact h

section

variable (l) (d)

theorem Money.clearResumption : Money l (l.clearResumption d).2 d :=
  .onDomain fun _ hd => .setDomain hd rfl rfl rfl

theorem Money.setCohort (cohort : List GrantId) : Money l (l.setCohort d cohort).2 d := by
  refine .onDomain fun state hd => ?_
  split
  · exact .refl l d
  · exact .checked (.setDomain hd rfl rfl rfl)

theorem Money.setResumption (cohort : List GrantId)
    (g : GrantId) : Money l (l.setResumption d cohort g).2 d := by
  refine .onDomain fun state hd => ?_
  split
  · exact .refl l d
  split
  · exact .refl l d
  simp only
  split
  · exact .refl l d
  · exact .setDomain hd rfl rfl rfl

end

/-! ## Room -/

/-- The envelope fits, as one more grant of none that runs, with the cohort running and the
    excluded grants gone. -/
def Room (l : CommitmentLedger) (d : DomainId) (envelope : Envelope)
    (cohort exclude : List GrantId) : Prop :=
  ∃ state, l.domains.find? d = some state ∧
    demand state.fixed state.background (l.counted d cohort { add := some envelope, exclude })
      ≤ state.budget.value

theorem Room.congr (h : l.Room d envelope cohort exclude) (hmem : ∀ g, g ∈ cohort ↔ g ∈ cohort') :
    l.Room d envelope cohort' exclude := by
  obtain ⟨state, hd, hfits⟩ := h
  exact ⟨state, hd, counted_congr hmem ▸ hfits⟩

theorem counted_grants (h : l'.grants = l.grants) :
    l'.counted d cohort change = l.counted d cohort change := by
  unfold counted
  rw [h]

theorem Money.room (h : Money l l' d) (hr : l.Room d envelope cohort exclude) :
    l'.Room d envelope cohort exclude := by
  obtain ⟨state, hd, hfits⟩ := hr
  obtain ⟨state', hd', hf, hb, hB⟩ := h.domain state hd
  refine ⟨state', hd', ?_⟩
  rw [hf, hb, hB, counted_grants h.grants]
  exact hfits

theorem Money.room' (h : Money l l' d) (hd : l.domains.find? d = some state)
    (hr : l'.Room d envelope cohort exclude) : l.Room d envelope cohort exclude := by
  obtain ⟨state', hd', hfits⟩ := hr
  obtain ⟨state1, hd1, hf, hb, hB⟩ := h.domain state hd
  cases hd'.symm.trans hd1
  refine ⟨state, hd, ?_⟩
  rw [hf, hb, hB, counted_grants h.grants] at hfits
  exact hfits

theorem cohortSum_fewer (entries : List (GrantId × GrantRecord)) (added : List (Envelope × Bool))
    (h : ∀ g ∈ cohort, g ∈ cohort') : cohortSum (entries.map (item cohort change) ++ added)
      ≤ cohortSum (entries.map (item cohort' change) ++ added) := by
  induction entries with
  | nil => exact Nat.le_refl _
  | cons p rest ih =>
    simp only [cohortSum, List.map_cons, List.cons_append, List.filter_cons] at ih ⊢
    by_cases hp : p.1 ∈ cohort
    · have hp' := h p.1 hp
      simp only [item, hp, hp', decide_true, if_true, List.map_cons, List.sum_cons] at ih ⊢
      omega
    by_cases hp' : p.1 ∈ cohort'
    · simp only [item, hp, hp', decide_false, decide_true, if_true, List.map_cons,
        List.sum_cons, Bool.false_eq_true, if_false] at ih ⊢
      omega
    simp only [item, hp, hp', decide_false, Bool.false_eq_true, if_false] at ih ⊢
    exact ih

theorem Room.fewer (h : l.Room d envelope cohort' exclude) (hsub : ∀ g ∈ cohort, g ∈ cohort') :
    l.Room d envelope cohort exclude := by
  obtain ⟨state, hd, hfits⟩ := h
  refine ⟨state, hd, Nat.le_trans ?_ hfits⟩
  have hret : retainedSum (l.counted d cohort { add := some envelope, exclude }) =
      retainedSum (l.counted d cohort' { add := some envelope, exclude }) := by
    simp [retainedSum, counted]
    rfl
  have hmax : maxPhase (l.counted d cohort { add := some envelope, exclude }) =
      maxPhase (l.counted d cohort' { add := some envelope, exclude }) := by
    simp [maxPhase, counted]
    rfl
  have hsum : cohortSum (l.counted d cohort { add := some envelope, exclude }) ≤
      cohortSum (l.counted d cohort' { add := some envelope, exclude }) :=
    cohortSum_fewer _ [(envelope, false)] hsub
  unfold demand
  omega

theorem Promised.check (h : l.Promised d cohort promise) :
    l.check d { add := some envelope } = .ok () ↔
      l.Room d envelope cohort [] ∧
      ∀ resumed substitute, promise = some (resumed, substitute) →
        l.Room d envelope resumed [substitute] := by
  obtain ⟨state, hd, hperm, hprom⟩ := h
  rw [check_ok hd rfl]
  have hnow : l.demands d state state.cohort { add := some envelope } ≤ state.budget.value ↔
      l.Room d envelope cohort [] := by
    constructor
    · intro hfits
      exact Room.congr ⟨state, hd, hfits⟩ fun g => hperm.mem_iff
    intro hroom
    obtain ⟨state', hd', hfits⟩ := hroom.congr fun g => hperm.mem_iff.symm
    cases hd.symm.trans hd'
    exact hfits
  refine and_congr hnow ?_
  rcases promise with _ | p
  · have hnone : state.resumption = none := hprom
    simp [hnone]
  obtain ⟨resumed, substitute⟩ := p
  obtain ⟨resumption, hr, rfl, hperm'⟩ := hprom
  constructor
  · intro hall resumed' substitute' heq
    cases heq
    have hfits := hall resumption hr
    exact Room.congr ⟨state, hd, hfits⟩ fun g => hperm'.mem_iff
  intro hall resumption' hr'
  cases hr.symm.trans hr'
  obtain ⟨state', hd', hfits⟩ :=
    (hall resumed resumption.substitute rfl).congr fun g => hperm'.mem_iff.symm
  cases hd.symm.trans hd'
  exact hfits

theorem Promised.grants (h : l.Promised d cohort promise) : (∃ g, (l.grant d envelope).1 = .ok g) ↔
      l.Room d envelope cohort [] ∧
      (∀ resumed substitute, promise = some (resumed, substitute) →
        l.Room d envelope resumed [substitute]) ∧
      (l.grants.insert { domain := d, envelope }).isSome = true := by
  rw [← and_assoc, ← h.check]
  unfold grant
  cases hcheck : l.check d { add := some envelope } with
  | error => simp
  | ok =>
    cases hins : l.grants.insert { domain := d, envelope } with
    | none | some => simp

end CommitmentLedger
end JitLlm.Memory
