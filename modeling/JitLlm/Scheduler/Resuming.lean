import JitLlm.Scheduler.Admitted

/-!
# The promised resumption

While a request is paused the ledger holds its resumption: the paused request back in the running
set, the substitute gone. What the resumption requires of the budget does not depend on the
substitute's envelope, neither on its retained bytes nor on its phase, so a change of it can fail
only now, and then it is refused and never deferred.
-/

namespace JitLlm

open Option
namespace Memory
namespace CommitmentLedger

open Base Lib

variable {l : CommitmentLedger} {d : DomainId} {state : Domain} {resumption : Resumption}

def atResumption (l : CommitmentLedger) (d : DomainId) : Option (Nat × Nat) :=
  match (l.domains.find? d).bind Domain.resumption with
  | none => none
  | some resumption =>
    match l.evaluate d (({} : Change).resumed resumption) with
    | .error _ => none
    | .ok totals => some (totals.required.value, totals.budget.value)

theorem counted_resumed (l : CommitmentLedger) (d : DomainId) (cohort : List GrantId)
    (resumption : Resumption) (envelope : Envelope) :
    l.counted d cohort (({ replace := some resumption.substitute, replacement := envelope } :
      Change).resumed resumption) = l.counted d cohort (({} : Change).resumed resumption) := by
  rw [counted_eq, counted_eq]
  refine congrArg₂ _ (List.map_congr_left ?_) rfl
  intro p hp
  have hne : resumption.substitute ≠ p.1 := by
    have hcounts := (List.mem_filter.mp hp).2
    simp only [counts, Change.resumed, List.nil_append, List.mem_singleton,
      decide_eq_true_eq] at hcounts
    exact fun heq => hcounts.2 heq.symm
  simp [item, Change.resumed, hne]

section

variable (h : l.Sound) (hd : l.domains.find? d = some state)
    (hr : state.resumption = some resumption)
include h hd hr

theorem Sound.atResumption :
    l.atResumption d = some (l.demands d state resumption.cohort (({} : Change).resumed resumption),
        state.budget.value) ∧
      l.demands d state resumption.cohort (({} : Change).resumed resumption) ≤
        state.budget.value := by
  have hfits := ((h.domains d state hd).resumption resumption hr).fits
  refine ⟨?_, hfits⟩
  unfold CommitmentLedger.atResumption
  simp only [hd, bind_some, hr]
  rcases evaluate_eq hd (show l.replaceable d (({} : Change).resumed resumption) = true from rfl)
    with ⟨totals, heval, hreq, hbud⟩ | ⟨-, hover⟩
  · have hb : totals.budget = state.budget := hbud
    rw [heval]
    simp only
    rw [hreq, hb]
    rfl
  have hle : l.demands d state resumption.cohort (({} : Change).resumed resumption) ≤ uint64Max :=
    hfits.trans state.budget.bound
  exact absurd hover (Nat.not_lt.mpr hle)

theorem Sound.check_substitute (hs : l.isGrantOf d resumption.substitute = true)
    (envelope : Envelope) :
    l.check d { replace := some resumption.substitute, replacement := envelope } ≠
      .error .breaksResumption := by
  have hfits := ((h.domains d state hd).resumption resumption hr).fits
  obtain ⟨record, hrec, hdom⟩ := isGrantOf_iff.mp hs
  have hrep : l.replaceable d
      { replace := some resumption.substitute, replacement := envelope } = true := by
    simp [replaceable, hrec, hdom]
  have hrep' : l.replaceable d
      (({ replace := some resumption.substitute, replacement := envelope } : Change).resumed
        resumption) = true := hrep
  unfold check
  rcases evaluate_eq hd hrep with ⟨totals, heval, -, -⟩ | ⟨heval, -⟩
  · rw [heval]
    simp only
    split
    · simp
    simp only [hd, bind_some, hr]
    -- The totals at the resumption are those of no change at all.
    rcases evaluate_eq hd hrep' with ⟨later, hlater, hreq, hbud⟩ | ⟨-, hover⟩
    · rw [hlater]
      simp only
      have hle : later.required.value ≤ later.budget.value := by
        rw [hreq, hbud]
        simp only [demands, Change.resumed, getD_some, getD_none] at hfits ⊢
        have hsame := counted_resumed l d resumption.cohort resumption envelope
        simp only [Change.resumed] at hsame
        rw [hsame]
        exact hfits
      rw [if_neg (Nat.not_lt.mpr hle)]
      simp
    have hsame := counted_resumed l d resumption.cohort resumption envelope
    simp only [demands, Change.resumed, getD_some, getD_none] at hfits hover hsame
    rw [hsame] at hover
    exact absurd hover (Nat.not_lt.mpr (hfits.trans state.budget.bound))
  rw [heval]
  simp

theorem Sound.replace_substitute (hs : l.isGrantOf d resumption.substitute = true)
    (envelope : Envelope) :
    (l.replace resumption.substitute envelope).2.atResumption d = l.atResumption d := by
  obtain ⟨found, hfound, rfl⟩ := isGrantOf_iff.mp hs
  have hkeeps := h.replace resumption.substitute envelope
  unfold CommitmentLedger.replace at hkeeps ⊢
  simp only [hfound] at hkeeps ⊢
  unfold CommitmentLedger.checked at hkeeps ⊢
  cases hcheck : l.check found.domain
      { replace := some resumption.substitute, replacement := envelope } with
  | error error => rfl
  | ok u =>
    simp only [hcheck] at hkeeps ⊢
    rw [(hkeeps.1.atResumption hd hr).1, (h.atResumption hd hr).1]
    refine congrArg some (Prod.ext (demand_perm ?_) rfl)
    refine (counted_replace hfound envelope resumption.cohort [resumption.substitute]).trans ?_
    exact List.Perm.of_eq (counted_resumed l found.domain resumption.cohort resumption envelope)

end

end CommitmentLedger
end Memory

namespace Admission

open Base Lib Memory

variable {a : Admission} {p s : RequestId}

theorem Consistent.promises (h : a.Consistent) (hp : a.paused = some p)
    (hs : a.substitute = some s) : ∃ r state resumption, a.requests.find? s = some r ∧
      r.grant = some resumption.substitute ∧ a.ledger.domains.find? a.domain = some state ∧
      state.resumption = some resumption := by
  have hrun := (h.listed.mem .running s).mp (h.substitute s hs)
  obtain ⟨g, hg⟩ := h.granted.admitted s .running hrun (by simp)
  obtain ⟨r, hr, -⟩ := find_of_stateIn hrun
  have hprom := h.promised
  unfold promise at hprom
  simp only [hp, hs, hg, map_some] at hprom
  obtain ⟨state, hd, -, resumption, hres, rfl, -⟩ := hprom
  exact ⟨r, state, resumption, hr, (grantIn_of_find hr).symm.trans hg, hd, hres⟩

/-- **The substitute's own change is never deferred.** With a pause open, a new envelope for the
    substitute is accepted or refused; what the promised resumption requires is the same after it,
    and within the budget; and a refused one leaves everything as it was. -/
theorem substitute_never_deferred (h : Reachable a) (hp : a.paused = some p)
    (hs : a.substitute = some s) (envelope : Envelope) (now : Tick) :
    (∃ answer a', a.replaceEnvelope s envelope now = .ok (answer, a') ∧
      ((∃ decision, answer = .ok decision) ∨ (answer = .error .refused ∧ a' = a))) ∧
    ∃ grant required budget, a.grantAt s = some grant ∧ required ≤ budget ∧
      a.ledger.atResumption a.domain = some (required, budget) ∧
      (a.ledger.replace grant envelope).2.atResumption a.domain = some (required, budget) := by
  obtain ⟨hc, hidle⟩ := h.consistent
  obtain ⟨r, state, resumption, hr, hg, hd, hres⟩ := hc.promises hp hs
  have hgrant : a.grantAt s = some resumption.substitute := (grantIn_of_find hr).trans hg
  have hlive := hc.granted.live s _ hgrant
  obtain ⟨hat, hfits⟩ := hc.ledger.atResumption hd hres
  have hsame := hc.ledger.replace_substitute hd hres hlive envelope
  have hcheck := hc.ledger.check_substitute hd hres hlive envelope
  have hkeeps := (hc.ledger.replace resumption.substitute envelope).2
  refine ⟨?_, resumption.substitute, _, _, hgrant, hfits, hat, hsame.trans hat⟩
  have hsure := hc.replaceEnvelope hidle s envelope now
  obtain ⟨record, hrec, hdom⟩ := CommitmentLedger.isGrantOf_iff.mp hlive
  have hrep : (a.ledger.replace resumption.substitute envelope).1 ≠ .error .breaksResumption := by
    unfold CommitmentLedger.replace
    simp only [hrec, hdom]
    unfold CommitmentLedger.checked
    cases hchecked : a.ledger.check a.domain
        { replace := some resumption.substitute, replacement := envelope } with
    | ok u => simp
    | error error =>
      intro heq
      exact hcheck (heq ▸ hchecked)
  rcases hcall : a.replaceEnvelope s envelope now with _ | y
  · rw [hcall] at hsure
    exact hsure.elim
  obtain ⟨answer, a'⟩ := y
  refine ⟨answer, a', rfl, ?_⟩
  unfold Admission.replaceEnvelope at hcall
  simp only [hr, hg] at hcall
  generalize a.ledger.replace resumption.substitute envelope = y at hcall hkeeps hrep
  obtain ⟨outcome, ledger⟩ := y
  cases outcome with
  | error error =>
    obtain rfl := hkeeps error rfl
    cases hcall
    refine .inr ⟨?_, rfl⟩
    cases error <;> first | rfl | exact absurd rfl hrep
  | ok =>
    obtain ⟨⟨decision, a''⟩, -, hcall⟩ := bind_ok hcall
    cases hcall
    exact .inl ⟨decision, rfl⟩

/-- A substitute that asks for more than there is. -/
theorem substitute_never_deferred_interrupted :
    ∃ a, Reachable a ∧ a.paused = some ⟨0, 1⟩ ∧ a.substitute = some ⟨1, 1⟩ ∧
      ∃ answer a', a.replaceEnvelope ⟨1, 1⟩ { retained := ⟨9, by decide⟩ } 7 = .ok (answer, a') ∧
        ((∃ decision, answer = .ok decision) ∨ (answer = .error .refused ∧ a' = a)) := by
  obtain ⟨a, hreach, hpaused, hsub⟩ := interrupted_pauses
  exact ⟨a, hreach, hpaused, hsub, (substitute_never_deferred hreach hpaused hsub _ 7).1⟩

end Admission
end JitLlm
