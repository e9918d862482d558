import JitLlm.Memory.Commitment

/-!
# The commitment inequality always holds

`demand` is the left side of the rule over the envelopes that are counted, in natural numbers;
`check_ok` says that `Check` accepts a change exactly when the demand of the changed state, and of
the changed resumption, are within the budget. Each operation then leaves a state whose counted
envelopes are those it was checked with, or fewer.
-/

namespace JitLlm.Memory

open Base Lib List

/-! ## The left side -/

def maxPhase (items : List (Envelope × Bool)) : Nat :=
  (items.map fun p => p.1.phase.value).foldr max 0

def retainedSum (items : List (Envelope × Bool)) : Nat :=
  (items.map fun p => p.1.retained.value).sum

def cohortSum (items : List (Envelope × Bool)) : Nat :=
  ((items.filter Prod.snd).map fun p => p.1.phase.value).sum

/-- `F + J + R + max(max E, cohort)`. -/
def demand (fixed background : Bytes) (items : List (Envelope × Bool)) : Nat :=
  fixed.value + background.value + retainedSum items + max (maxPhase items) (cohortSum items)

variable {items items' : List (Envelope × Bool)} {F J B : Bytes}

theorem demand_perm (h : items.Perm items') : demand F J items = demand F J items' := by
  have hmax : maxPhase items = maxPhase items' := (h.map _).foldr_eq 0
  have hret : retainedSum items = retainedSum items' := (h.map _).sum_eq
  have hcoh : cohortSum items = cohortSum items' := ((h.filter _).map _).sum_eq
  rw [demand, demand, hmax, hret, hcoh]

theorem demand_cons_le (item : Envelope × Bool) :
    demand F J items ≤ demand F J (item :: items) := by
  have hmax : maxPhase items ≤ maxPhase (item :: items) := Nat.le_max_right _ _
  have hret : retainedSum items ≤ retainedSum (item :: items) := by
    simp only [retainedSum, map_cons, sum_cons]
    omega
  have hcoh : cohortSum items ≤ cohortSum (item :: items) := by
    unfold cohortSum
    rw [filter_cons]
    split
    · simp only [map_cons, sum_cons]
      omega
    · exact Nat.le_refl _
  unfold demand
  omega

theorem demand_mono {F' J' : Bytes} (hF : F'.value ≤ F.value) (hJ : J'.value ≤ J.value) :
    demand F' J' items ≤ demand F J items := by
  unfold demand
  omega

/-! ## `Evaluate` computes it -/

def bytes? (n : Nat) : Option Bytes := if h : n ≤ uint64Max then some ⟨n, h⟩ else none

theorem bytes?_eq_some {n : Nat} {b : Bytes} : bytes? n = some b ↔ b.value = n := by
  unfold bytes?
  constructor
  · intro h
    split at h
    · exact (congrArg Bytes.value (Option.some.inj h)).symm
    · cases h
  intro h
  have hle : n ≤ uint64Max := h ▸ b.bound
  rw [dif_pos hle]
  exact congrArg some (Bytes.ext h.symm)

theorem bytes?_eq_none {n : Nat} : bytes? n = none ↔ uint64Max < n := by
  unfold bytes?
  split <;> simp <;> omega

theorem bytes?_plus (n : Nat) (b : Bytes) :
    ((bytes? n).bind fun a => a.plus b) = bytes? (n + b.value) := by
  rcases h : bytes? n with _ | a
  · have hn := bytes?_eq_none.mp h
    exact (bytes?_eq_none.mpr (by omega)).symm
  have ha := bytes?_eq_some.mp h
  rw [← ha]
  rfl

theorem plus_eq_bytes? (a b : Bytes) : a.plus b = bytes? (a.value + b.value) := rfl

theorem tally_foldl (items : List (Envelope × Bool)) (r m s : Nat) (t : CommitmentLedger.Tally)
    (hr : t.retained = bytes? r) (hm : t.maxPhase.value = m) (hs : t.cohortPhase = bytes? s) :
    let t' := items.foldl (fun (t : CommitmentLedger.Tally) p => t.count p.1 p.2) t
    t'.retained = bytes? (r + retainedSum items) ∧ t'.maxPhase.value = max m (maxPhase items) ∧
      t'.cohortPhase = bytes? (s + cohortSum items) := by
  induction items generalizing r m s t with
  | nil => exact ⟨hr, by simp [hm, maxPhase], hs⟩
  | cons item rest ih =>
    obtain ⟨envelope, inCohort⟩ := item
    have hstep := ih (r + envelope.retained.value) (max m envelope.phase.value)
      (if inCohort then s + envelope.phase.value else s) (t.count envelope inCohort)
      (by rw [CommitmentLedger.Tally.count, hr]; exact bytes?_plus _ _)
      (by rw [CommitmentLedger.Tally.count, Bytes.max_value, hm])
      (by
        cases inCohort with
        | true =>
          simp only [CommitmentLedger.Tally.count, if_true, hs]
          exact bytes?_plus _ _
        | false => exact hs)
    obtain ⟨h1, h2, h3⟩ := hstep
    refine ⟨?_, ?_, ?_⟩
    · rw [foldl_cons, h1]
      simp only [retainedSum, map_cons, sum_cons]
      rw [Nat.add_assoc]
    · rw [foldl_cons, h2]
      simp only [maxPhase, map_cons, foldr_cons]
      omega
    rw [foldl_cons, h3]
    unfold cohortSum
    cases inCohort with
    | true =>
      rw [filter_cons_of_pos rfl]
      simp only [if_true, map_cons, sum_cons]
      rw [Nat.add_assoc]
    | false =>
      rfl

theorem tallyOf_eq (items : List (Envelope × Bool)) :
    (CommitmentLedger.tallyOf items).retained = bytes? (retainedSum items) ∧
      (CommitmentLedger.tallyOf items).maxPhase.value = maxPhase items ∧
      (CommitmentLedger.tallyOf items).cohortPhase = bytes? (cohortSum items) := by
  have h := tally_foldl items 0 0 0 {} rfl rfl rfl
  simp only [Nat.zero_add, Nat.zero_max] at h
  exact h

theorem required_eq (F J r m c : Bytes) : CommitmentLedger.required F J r m c
      = bytes? (F.value + J.value + r.value + max m.value c.value) := by
  have hbind : CommitmentLedger.required F J r m c
      = ((F.plus J).bind fun s => s.plus r).bind fun s => s.plus (m.max c) := by
    unfold CommitmentLedger.required
    cases F.plus J with
    | none | some => rfl
  rw [hbind, plus_eq_bytes?, bytes?_plus, bytes?_plus, Bytes.max_value]

namespace CommitmentLedger

variable {l l' : CommitmentLedger} {d : DomainId} {state : Domain} {change : Change}
    {g id : GrantId} {envelope : Envelope} {record found : GrantRecord} {grants : List GrantId}
    {table : SlotTable .grant GrantRecord} {domains : OrdMap DomainId Domain}

/-- What a change demands of a domain: with its overhead, the cohort `cohort` running. -/
def demands (l : CommitmentLedger) (d : DomainId) (state : Domain) (cohort : List GrantId)
    (change : Change) : Nat :=
  demand (change.fixed.getD state.fixed) (change.background.getD state.background)
    (l.counted d cohort change)

theorem evaluate_eq (hd : l.domains.find? d = some state) (hrep : l.replaceable d change = true) :
    (∃ totals, l.evaluate d change = .ok totals ∧
      totals.required.value = l.demands d state (change.cohort.getD state.cohort) change ∧
      totals.budget = change.budget.getD state.budget) ∨ (l.evaluate d change = .error .overflow ∧
      uint64Max < l.demands d state (change.cohort.getD state.cohort) change) := by
  obtain ⟨hr, hm, hc⟩ := tallyOf_eq (l.counted d (change.cohort.getD state.cohort) change)
  unfold evaluate
  simp only [hd, hrep, Bool.not_true, Bool.false_eq_true, if_false]
  -- Overflow of a part is overflow of the whole.
  cases hret : bytes? (retainedSum (l.counted d (change.cohort.getD state.cohort) change)) with
  | none =>
    have hover := bytes?_eq_none.mp hret
    rw [hr, hret]
    refine Or.inr ⟨rfl, ?_⟩
    unfold demands demand
    omega
  | some =>
    cases hcoh : bytes? (cohortSum (l.counted d (change.cohort.getD state.cohort) change)) with
    | none =>
      have hover := bytes?_eq_none.mp hcoh
      rw [hr, hret, hc, hcoh]
      refine Or.inr ⟨rfl, ?_⟩
      unfold demands demand
      omega
    | some =>
      rw [hr, hret, hc, hcoh]
      simp only [required_eq, hm, bytes?_eq_some.mp hret, bytes?_eq_some.mp hcoh]
      cases hsum : bytes? (l.demands d state (change.cohort.getD state.cohort) change) with
      | none =>
        refine Or.inr ⟨?_, bytes?_eq_none.mp hsum⟩
        unfold demands demand at hsum
        rw [hsum]
      | some =>
        refine Or.inl ?_
        have hval := bytes?_eq_some.mp hsum
        unfold demands demand at hsum
        rw [hsum]
        exact ⟨_, rfl, hval, rfl⟩

theorem check_ok (hd : l.domains.find? d = some state) (hrep : l.replaceable d change = true) :
    l.check d change = .ok () ↔
      l.demands d state (change.cohort.getD state.cohort) change
          ≤ (change.budget.getD state.budget).value ∧
      ∀ resumption, state.resumption = some resumption →
        l.demands d state resumption.cohort (change.resumed resumption)
          ≤ (change.budget.getD state.budget).value := by
  have hbud := (change.budget.getD state.budget).bound
  unfold check
  rcases evaluate_eq hd hrep with ⟨totals, heval, hreq, hb⟩ | ⟨heval, hover⟩
  · rw [heval]
    simp only [hreq, hb, hd, Option.bind_some]
    split
    next hbig =>
      constructor
      · intro h
        cases h
      rintro ⟨hfits, -⟩
      omega
    rename_i hsmall
    rcases hres : state.resumption with _ | resumption
    · simp; omega
    have hrep' : l.replaceable d (change.resumed resumption) = true := hrep
    simp only
    rcases evaluate_eq hd hrep' with ⟨totals', heval', hreq', hb'⟩ | ⟨heval', hover'⟩
    · rw [heval']
      have hb'' : totals'.budget = change.budget.getD state.budget := hb'
      have hreq'' : totals'.required.value
          = l.demands d state resumption.cohort (change.resumed resumption) := hreq'
      simp only [hreq'', hb'', Option.some.injEq, forall_eq']
      split
      next hbig =>
        simp only [reduceCtorEq, false_iff, not_and]
        omega
      simp only [true_iff]
      omega
    rw [heval']
    have hover'' : uint64Max < l.demands d state resumption.cohort
      (change.resumed resumption) := hover'
    simp only [Option.some.injEq, forall_eq', reduceCtorEq, false_iff, not_and]
    omega
  rw [heval]
  constructor
  · intro h
    cases h
  rintro ⟨hfits, -⟩
  omega

/-! ## The invariant -/

structure Live (l : CommitmentLedger) (d : DomainId) (grants : List GrantId) : Prop where
  nodup : grants.Nodup
  grant : ∀ g ∈ grants, l.isGrantOf d g = true

/-- A resumption that is kept: its cohort is live and fits when the substitute is gone. -/
structure Kept (l : CommitmentLedger) (d : DomainId) (state : Domain) (resumption : Resumption) :
    Prop where
  cohort : l.Live d resumption.cohort
  apart : resumption.substitute ∉ resumption.cohort
  substitute : l.isGrantOf d resumption.substitute = true ∨ l.grants.Gone resumption.substitute
  fits : l.demands d state resumption.cohort (({} : Change).resumed resumption)
    ≤ state.budget.value

structure DomainSound (l : CommitmentLedger) (d : DomainId) (state : Domain) : Prop where
  fits : l.demands d state state.cohort {} ≤ state.budget.value
  cohort : l.Live d state.cohort
  resumption : ∀ resumption, state.resumption = some resumption → l.Kept d state resumption

structure Sound (l : CommitmentLedger) : Prop where
  known : ∀ g record, l.grants.find? g = some record →
    ∃ state, l.domains.find? record.domain = some state
  domains : ∀ d state, l.domains.find? d = some state → l.DomainSound d state

theorem isGrantOf_iff : l.isGrantOf d g = true ↔
    ∃ record, l.grants.find? g = some record ∧ record.domain = d := by
  unfold isGrantOf
  cases l.grants.find? g with
  | none | some => simp

/-! ### Changes of a domain's own state -/

theorem DomainSound.congr (h : l.DomainSound d state) (hg : l'.grants = l.grants) :
    l'.DomainSound d state := by
  cases l
  cases l'
  cases hg
  exact ⟨h.fits, ⟨h.cohort.nodup, h.cohort.grant⟩, fun resumption hr =>
    have hk := h.resumption resumption hr
    ⟨⟨hk.cohort.nodup, hk.cohort.grant⟩, hk.apart, hk.substitute, hk.fits⟩⟩

theorem Sound.setDomain (h : l.Sound) (hnew : l.DomainSound d state) :
    (l.setDomain d state).Sound := by
  refine ⟨fun g record hg => ?_, fun d' state' hd' => ?_⟩
  · obtain ⟨state', hfound⟩ := h.known g record hg
    show ∃ state', (l.domains.insert d state).find? record.domain = some state'
    rw [OrdMap.find?_insert]
    split
    · exact ⟨state, rfl⟩
    · exact ⟨state', hfound⟩
  change (l.domains.insert d state).find? d' = some state' at hd'
  rw [OrdMap.find?_insert] at hd'
  split at hd'
  next heq =>
    subst heq
    cases hd'
    exact hnew.congr rfl
  · exact (h.domains d' state' hd').congr rfl

def Keeps {α : Type} (l : CommitmentLedger) (y : Result α × CommitmentLedger) : Prop :=
  y.2.Sound ∧ ∀ error, y.1 = .error error → y.2 = l

theorem Sound.refused {α : Type} (h : l.Sound) (error : CommitmentError) :
    Keeps l ((.error error, l) : Result α × CommitmentLedger) := ⟨h, fun _ _ => rfl⟩

theorem Sound.accepted {α : Type} {a : α} (h : l'.Sound) :
    Keeps l ((.ok a, l') : Result α × CommitmentLedger) :=
  ⟨h, fun _ heq => absurd heq (by simp)⟩

theorem Sound.onDomain (h : l.Sound) {f : Domain → Result Unit × CommitmentLedger}
    (hf : ∀ state, l.domains.find? d = some state → Keeps l (f state)) :
    Keeps l (l.onDomain d f) := by
  unfold CommitmentLedger.onDomain
  cases hd : l.domains.find? d with
  | none => exact h.refused _
  | some state => exact hf state hd

theorem Sound.checked (h : l.Sound) (hd : l.domains.find? d = some state)
    (hrep : l.replaceable d change = true)
    (hafter : l.demands d state (change.cohort.getD state.cohort) change
        ≤ (change.budget.getD state.budget).value →
      (∀ resumption, state.resumption = some resumption →
        l.demands d state resumption.cohort (change.resumed resumption)
          ≤ (change.budget.getD state.budget).value) → l'.Sound) :
    Keeps l (l.checked d change l') := by
  unfold CommitmentLedger.checked
  cases hcheck : l.check d change with
  | error => exact h.refused _
  | ok =>
    obtain ⟨hnow, hthen⟩ := (check_ok hd hrep).mp hcheck
    exact Sound.accepted (hafter hnow hthen)

theorem Sound.addDomain (h : l.Sound) (d : DomainId) (budget : Bytes) :
    Keeps l (l.addDomain d budget) := by
  unfold CommitmentLedger.addDomain
  split
  · exact h.refused _
  rename_i hnew
  simp only [OrdMap.contains, not_or, Bool.not_eq_true, Option.isSome_eq_false_iff,
    Option.isNone_iff_eq_none] at hnew
  -- No grant is of a domain the ledger does not hold.
  have hnone : l.counted d [] {} = [] := by
    have hfil : (l.grants.entries.filter fun p => p.2.domain = d ∧ p.1 ∉ ([] : List GrantId))
        = [] := by
      refine List.filter_eq_nil_iff.mpr fun p hp => ?_
      intro hdom
      simp only [decide_eq_true_eq] at hdom
      obtain ⟨state, hfound⟩ := h.known p.1 p.2 (SlotTable.mem_entries.mp hp)
      rw [hdom.1, hnew.2] at hfound
      cases hfound
    unfold counted
    rw [hfil]
    rfl
  refine Sound.accepted (h.setDomain ⟨?_, ⟨nodup_nil, by simp⟩, by simp⟩)
  unfold demands
  rw [hnone]
  exact Nat.zero_le _

theorem DomainSound.changed (h : l.DomainSound d state) {s : Domain} (hlive : l.Live d s.cohort)
    (hnow : l.demands d s s.cohort {} ≤ s.budget.value) (hres : s.resumption = state.resumption)
    (hthen : ∀ r, state.resumption = some r →
      l.demands d s r.cohort (({} : Change).resumed r) ≤ s.budget.value) : l.DomainSound d s :=
  ⟨hnow, hlive, fun r hr =>
    have hk := h.resumption r (hres ▸ hr)
    ⟨hk.cohort, hk.apart, hk.substitute, hthen r (hres ▸ hr)⟩⟩

theorem Sound.setBudget (h : l.Sound) (d : DomainId) (budget : Bytes) :
    Keeps l (l.setBudget d budget) :=
  h.onDomain fun state hd => h.checked hd rfl fun hnow hthen =>
    have hs := h.domains d state hd
    h.setDomain (hs.changed hs.cohort hnow rfl hthen)

theorem Sound.addFixed (h : l.Sound) (d : DomainId) (bytes : Bytes) :
    Keeps l (l.addFixed d bytes) := by
  refine h.onDomain fun state hd => ?_
  rcases state.fixed.plus bytes with _ | _
  · exact h.refused _
  exact h.checked hd rfl fun hnow hthen =>
    have hs := h.domains d state hd
    h.setDomain (hs.changed hs.cohort hnow rfl hthen)

theorem Sound.addBackground (h : l.Sound) (d : DomainId) (bytes : Bytes) :
    Keeps l (l.addBackground d bytes) := by
  refine h.onDomain fun state hd => ?_
  rcases state.background.plus bytes with _ | _
  · exact h.refused _
  exact h.checked hd rfl fun hnow hthen =>
    have hs := h.domains d state hd
    h.setDomain (hs.changed hs.cohort hnow rfl hthen)

theorem DomainSound.release (h : l.DomainSound d state) {fixed background : Bytes}
    (hF : fixed.value ≤ state.fixed.value) (hJ : background.value ≤ state.background.value) :
    l.DomainSound d { state with fixed, background } :=
  h.changed h.cohort ((demand_mono hF hJ).trans h.fits) rfl fun r hr =>
    (demand_mono hF hJ).trans (h.resumption r hr).fits

theorem Sound.releaseFixed (h : l.Sound) (d : DomainId) (bytes : Bytes) :
    Keeps l (l.releaseFixed d bytes) := by
  refine h.onDomain fun state hd => ?_
  rcases hminus : state.fixed.minus bytes with _ | _
  · exact h.refused _
  have hle := Bytes.minus_eq_some.mp hminus
  exact Sound.accepted (h.setDomain ((h.domains d state hd).release
    (Nat.le.intro hle) (Nat.le_refl _)))

theorem Sound.releaseBackground (h : l.Sound) (d : DomainId) (bytes : Bytes) :
    Keeps l (l.releaseBackground d bytes) := by
  refine h.onDomain fun state hd => ?_
  rcases hminus : state.background.minus bytes with _ | _
  · exact h.refused _
  have hle := Bytes.minus_eq_some.mp hminus
  exact Sound.accepted (h.setDomain ((h.domains d state hd).release (Nat.le_refl _)
    (Nat.le.intro hle)))

/-! ### Cohorts and resumptions -/

theorem adjacentFind_false : ∀ {grants : List GrantId}, grants.Pairwise (· ≤ ·) →
    adjacentFind grants = false → grants.Nodup
  | [], _, _ => nodup_nil
  | [g], _, _ => nodup_singleton g
  | a :: b :: rest, hs, h => by
    simp only [adjacentFind, Bool.or_eq_false_iff, decide_eq_false_iff_not] at h
    obtain ⟨hhead, htail⟩ := List.pairwise_cons.mp hs
    have hb := (List.pairwise_cons.mp htail).1
    refine List.nodup_cons.mpr ⟨fun hmem => ?_, adjacentFind_false htail h.2⟩
    have hab := hhead b mem_cons_self
    rcases List.mem_cons.mp hmem with heq | hmem
    · exact h.1 heq
    · exact h.1 (le_antisymm hab (hb a hmem))

theorem members_some {grants ms : List GrantId} (h : l.members d grants = some ms) :
    ms.Perm grants ∧ l.Live d ms := by
  unfold members at h
  simp only at h
  split at h
  · cases h
  rename_i hadj
  split at h
  next hall =>
    cases h
    refine ⟨perm_insertionSort _ _, ⟨adjacentFind_false ?_ (Bool.eq_false_iff.mpr hadj),
      fun g hg => List.all_eq_true.mp hall g hg⟩⟩
    exact pairwise_insertionSort _ _
  · cases h

theorem Sound.setCohort (h : l.Sound) (d : DomainId) (cohort : List GrantId) :
    Keeps l (l.setCohort d cohort) := by
  refine h.onDomain fun state hd => ?_
  rcases hms : l.members d cohort with _ | _
  · exact h.refused _
  exact h.checked hd rfl fun hnow hthen =>
    h.setDomain ((h.domains d state hd).changed (members_some hms).2 hnow rfl hthen)

theorem Sound.setResumption (h : l.Sound) (d : DomainId) (cohort : List GrantId)
    (substitute : GrantId) : Keeps l (l.setResumption d cohort substitute) := by
  refine h.onDomain fun state hd => ?_
  have hs := h.domains d state hd
  rcases hms : l.members d cohort with _ | ms
  · exact h.refused _
  simp only
  split
  · exact h.refused _
  rename_i hsub
  simp only [not_or, Bool.not_eq_true, Bool.not_eq_false'] at hsub
  have hd' : (l.setDomain d { state with resumption := none }).domains.find? d
      = some { state with resumption := none } := OrdMap.find?_insert_self _ _ _
  cases hcheck : (l.setDomain d { state with resumption := none }).check d
      { cohort := some ms, exclude := [substitute] } with
  | error error => exact h.refused _
  | ok u =>
    obtain ⟨hnow, -⟩ := (check_ok hd' rfl).mp hcheck
    refine Sound.accepted (h.setDomain ⟨hs.fits, hs.cohort, fun resumption hr => ?_⟩)
    cases hr
    exact ⟨(members_some hms).2, hsub.2, Or.inl hsub.1, hnow⟩

theorem Sound.clearResumption (h : l.Sound) (d : DomainId) : Keeps l (l.clearResumption d) :=
  h.onDomain fun state hd =>
    have hs := h.domains d state hd
    Sound.accepted (h.setDomain ⟨hs.fits, hs.cohort, fun _ hr => absurd hr (by simp)⟩)

/-! ### Grants -/

def counts (d : DomainId) (change : Change) (p : GrantId × GrantRecord) : Bool :=
  decide (p.2.domain = d ∧ p.1 ∉ change.exclude)

def item (cohort : List GrantId) (change : Change) (p : GrantId × GrantRecord) : Envelope × Bool :=
  (if change.replace = some p.1 then change.replacement else p.2.envelope, decide (p.1 ∈ cohort))

theorem counted_eq (cohort : List GrantId) :
    l.counted d cohort change = ((l.grants.entries.filter (counts d change)).map (item cohort change))
      ++ change.add.toList.map fun envelope => (envelope, change.addToCohort) := rfl

theorem counted_grant {grants : SlotTable .grant GrantRecord}
    (hins : l.grants.insert { domain := d, envelope } = some (id, grants))
    (cohort exclude : List GrantId) (hcoh : id ∉ cohort) (hexclude : id ∉ exclude) :
    (CommitmentLedger.counted { l with grants } d cohort { exclude }).Perm
      (l.counted d cohort { add := some envelope, exclude }) := by
  have hent := ((SlotTable.entries_insert hins).filter (counts d { exclude })).map
    (item cohort { exclude })
  rw [filter_cons_of_pos (by simp [counts, hexclude]), map_cons] at hent
  have hitem : item cohort { exclude } (id, { domain := d, envelope }) = (envelope, false) := by
    simp [item, hcoh]
  rw [hitem] at hent
  refine (hent.append_right _).trans ?_
  simp only [Option.toList_none, map_nil, append_nil]
  exact (perm_append_singleton _ _).symm

theorem counted_grant_other {d' : DomainId} {grants : SlotTable .grant GrantRecord}
    (hins : l.grants.insert { domain := d', envelope } = some (id, grants)) (hd : d' ≠ d)
    (cohort : List GrantId) :
    (CommitmentLedger.counted { l with grants } d cohort change).Perm (l.counted d cohort change) := by
  have hent := ((SlotTable.entries_insert hins).filter (counts d change)).map (item cohort change)
  rw [filter_cons_of_neg (by simp [counts, hd])] at hent
  exact hent.append_right _

theorem isGrantOf_insert {id g : GrantId} {grants : SlotTable .grant GrantRecord}
    (hins : l.grants.insert record = some (id, grants)) (h : l.isGrantOf d g = true) :
    CommitmentLedger.isGrantOf { l with grants } d g = true ∧ g ≠ id := by
  obtain ⟨record', hfound, hdom⟩ := isGrantOf_iff.mp h
  have hne : g ≠ id := by
    rintro rfl
    rw [SlotTable.find?_insert_fresh hins] at hfound
    cases hfound
  refine ⟨isGrantOf_iff.mpr ⟨record', ?_, hdom⟩, hne⟩
  rw [SlotTable.find?_insert hins, if_neg hne]
  exact hfound

theorem Live.insert (h : l.Live d grants) (hins : l.grants.insert record = some (id, table)) :
    Live { l with grants := table } d grants ∧ id ∉ grants :=
  ⟨⟨h.nodup, fun g hg => (isGrantOf_insert hins (h.grant g hg)).1⟩,
    fun hmem => (isGrantOf_insert hins (h.grant id hmem)).2 rfl⟩

theorem Kept.substitute_insert {resumption : Resumption} (h : l.Kept d state resumption)
    (hins : l.grants.insert record = some (id, table)) :
    (CommitmentLedger.isGrantOf { l with grants := table } d resumption.substitute = true ∨
      table.Gone resumption.substitute) ∧ resumption.substitute ≠ id := by
  rcases h.substitute with hlive | hgone
  · obtain ⟨hlive', hne⟩ := isGrantOf_insert hins hlive
    exact ⟨Or.inl hlive', hne⟩
  have hgone' := hgone.insert hins
  refine ⟨Or.inr hgone', fun heq => ?_⟩
  have hfind := hgone'.find
  rw [heq, SlotTable.find?_insert hins, if_pos rfl] at hfind
  cases hfind

theorem Sound.grant (h : l.Sound) (d : DomainId) (envelope : Envelope) :
    Keeps l (l.grant d envelope) := by
  unfold CommitmentLedger.grant
  rcases hcheck : l.check d { add := some envelope } with _ | _
  · exact h.refused _
  simp only
  rcases hins : l.grants.insert { domain := d, envelope } with _ | p
  · exact h.refused _
  obtain ⟨id, grants⟩ := p
  -- The check succeeded, so the domain is held.
  obtain ⟨state, hd⟩ : ∃ state, l.domains.find? d = some state := by
    cases hd : l.domains.find? d with
    | none => simp [check, evaluate, hd] at hcheck
    | some state => exact ⟨state, rfl⟩
  obtain ⟨hnow, hthen⟩ := (check_ok hd rfl).mp hcheck
  refine Sound.accepted ⟨fun g record hg => ?_, fun d' state' hd' => ?_⟩
  · change grants.find? g = some record at hg
    rw [SlotTable.find?_insert hins] at hg
    split at hg
    · cases hg
      exact ⟨state, hd⟩
    · exact h.known g record hg
  have hs := h.domains d' state' hd'
  obtain ⟨hcoh, hid⟩ := hs.cohort.insert hins
  by_cases heq : d' = d
  · subst heq
    cases hd.symm.trans hd'
    refine ⟨?_, hcoh, fun resumption hr => ?_⟩
    · refine (Nat.le_of_eq (demand_perm ?_)).trans hnow
      exact counted_grant hins state.cohort [] hid (by simp)
    have hk := hs.resumption resumption hr
    obtain ⟨hsub, hne⟩ := hk.substitute_insert hins
    obtain ⟨hlive, hid'⟩ := hk.cohort.insert hins
    refine ⟨hlive, hk.apart, hsub, ?_⟩
    refine (Nat.le_of_eq (demand_perm ?_)).trans (hthen resumption hr)
    exact counted_grant hins resumption.cohort [resumption.substitute] hid'
      (by simpa using Ne.symm hne)
  refine ⟨?_, hcoh, fun resumption hr => ?_⟩
  · exact (Nat.le_of_eq (demand_perm (counted_grant_other hins (Ne.symm heq) _))).trans hs.fits
  have hk := hs.resumption resumption hr
  exact ⟨(hk.cohort.insert hins).1, hk.apart, (hk.substitute_insert hins).1,
    (Nat.le_of_eq (demand_perm (counted_grant_other hins (Ne.symm heq) _))).trans hk.fits⟩

theorem counted_replace (hfound : l.grants.find? g = some found)
    (envelope : Envelope) (cohort exclude : List GrantId) :
    (CommitmentLedger.counted { l with grants := l.grants.set g { found with envelope } } d cohort
        { exclude }).Perm
      (l.counted d cohort { replace := some g, replacement := envelope, exclude }) := by
  have hent := ((SlotTable.entries_set (v := { found with envelope }) hfound).filter
    (counts d { exclude })).map (item cohort { exclude })
  refine (hent.append_right _).trans (List.Perm.of_eq ?_)
  rw [filter_map, map_map]
  refine congrArg₂ _ ?_ rfl
  have hdom : ∀ p ∈ l.grants.entries, p.1 = g → p.2 = found := by
    intro p hp hg
    have hfind := SlotTable.mem_entries.mp (show (p.1, p.2) ∈ l.grants.entries from hp)
    rw [hg, hfound] at hfind
    exact (Option.some.inj hfind).symm
  have hfil : l.grants.entries.filter (counts d { exclude } ∘ fun p =>
      if p.1 = g then (g, { found with envelope }) else p)
      = l.grants.entries.filter (counts d { replace := some g, replacement := envelope, exclude }) := by
    refine filter_congr fun p hp => ?_
    by_cases hg : p.1 = g
    · simp [counts, hg, hdom p hp hg]
    · simp [counts, hg]
  rw [hfil]
  refine map_congr_left fun p _ => ?_
  by_cases hg : p.1 = g
  · simp [item, hg]
  have hg' : ¬ g = p.1 := fun h => hg h.symm
  simp [item, hg, hg']

theorem counted_replace_other (hfound : l.grants.find? g = some found) (hd : found.domain ≠ d)
    (envelope : Envelope) (cohort exclude : List GrantId) :
    (CommitmentLedger.counted { l with grants := l.grants.set g { found with envelope } } d cohort
        { exclude }).Perm (l.counted d cohort { exclude }) := by
  refine (counted_replace hfound envelope cohort exclude).trans (List.Perm.of_eq ?_)
  rw [counted_eq, counted_eq]
  refine congrArg₂ _ (map_congr_left fun p hp => ?_) rfl
  have hg : ¬ g = p.1 := by
    rintro rfl
    obtain ⟨hmem, hcounts⟩ := List.mem_filter.mp hp
    have hfind := SlotTable.mem_entries.mp (show (p.1, p.2) ∈ l.grants.entries from hmem)
    rw [hfound, Option.some.injEq] at hfind
    simp only [counts, decide_eq_true_eq] at hcounts
    exact hd (hfind ▸ hcounts.1)
  simp [item, hg]

theorem isGrantOf_set {g g' : GrantId} (hfound : l.grants.find? g = some found)
    (envelope : Envelope) (h : l.isGrantOf d g' = true) : CommitmentLedger.isGrantOf
      { l with grants := l.grants.set g { found with envelope } } d g' = true := by
  obtain ⟨record, hrec, hdom⟩ := isGrantOf_iff.mp h
  refine isGrantOf_iff.mpr ?_
  rw [SlotTable.find?_set, hfound]
  split
  next heq =>
    subst heq
    cases hfound.symm.trans hrec
    exact ⟨_, rfl, hdom⟩
  · exact ⟨record, hrec, hdom⟩

theorem Sound.replace (h : l.Sound) (g : GrantId) (envelope : Envelope) :
    Keeps l (l.replace g envelope) := by
  unfold CommitmentLedger.replace
  rcases hfound : l.grants.find? g with _ | found
  · exact h.refused _
  obtain ⟨state, hd⟩ := h.known g found hfound
  have hrep : l.replaceable found.domain { replace := some g, replacement := envelope } = true := by
    simp [replaceable, hfound]
  refine h.checked hd hrep fun hnow hthen => ⟨fun g' record hg' => ?_, fun d' state' hd' => ?_⟩
  · change (l.grants.set g { found with envelope }).find? g' = some record at hg'
    rw [SlotTable.find?_set, hfound] at hg'
    split at hg'
    · cases hg'
      exact ⟨state, hd⟩
    · exact h.known g' record hg'
  have hs := h.domains d' state' hd'
  have hlive : ∀ {grants}, l.Live d' grants →
      Live { l with grants := l.grants.set g { found with envelope } } d' grants :=
    fun hl => ⟨hl.nodup, fun g' hg' => isGrantOf_set hfound envelope (hl.grant g' hg')⟩
  have hsub : ∀ {resumption}, l.Kept d' state' resumption →
      CommitmentLedger.isGrantOf { l with grants := l.grants.set g { found with envelope } } d'
        resumption.substitute = true ∨
      (l.grants.set g { found with envelope }).Gone resumption.substitute := fun hk =>
    hk.substitute.imp (isGrantOf_set hfound envelope) fun hgone => hgone.set g _
  by_cases heq : d' = found.domain
  · subst heq
    cases hd.symm.trans hd'
    refine ⟨?_, hlive hs.cohort, fun resumption hr => ?_⟩
    · exact (Nat.le_of_eq (demand_perm (counted_replace hfound envelope _ []))).trans hnow
    have hk := hs.resumption resumption hr
    refine ⟨hlive hk.cohort, hk.apart, hsub hk, ?_⟩
    refine (Nat.le_of_eq (demand_perm ?_)).trans (hthen resumption hr)
    exact counted_replace hfound envelope resumption.cohort [resumption.substitute]
  have hne : found.domain ≠ d' := Ne.symm heq
  refine ⟨?_, hlive hs.cohort, fun resumption hr => ?_⟩
  · exact (Nat.le_of_eq
      (demand_perm (counted_replace_other hfound hne envelope _ []))).trans hs.fits
  have hk := hs.resumption resumption hr
  refine ⟨hlive hk.cohort, hk.apart, hsub hk, (Nat.le_of_eq (demand_perm ?_)).trans hk.fits⟩
  exact counted_replace_other hfound hne envelope resumption.cohort [resumption.substitute]

theorem demand_retire (hfound : l.grants.find? g = some found) {cohort cohort' : List GrantId}
    (hcoh : ∀ g', g' ≠ g → (g' ∈ cohort' ↔ g' ∈ cohort)) (exclude : List GrantId) :
    demand F J (CommitmentLedger.counted { domains, grants := l.grants.erase g } d cohort'
        { exclude }) ≤ demand F J (l.counted d cohort { exclude }) := by
  have hitems : ((l.grants.erase g).entries.filter (counts d { exclude })).map
        (item cohort' { exclude })
      = ((l.grants.erase g).entries.filter (counts d { exclude })).map (item cohort { exclude }) := by
    refine map_congr_left fun p hp => ?_
    have hfind := SlotTable.mem_entries.mp
      (show (p.1, p.2) ∈ (l.grants.erase g).entries from (List.mem_filter.mp hp).1)
    have hne : p.1 ≠ g := by
      intro heq
      rw [SlotTable.find?_erase, if_pos heq] at hfind
      cases hfind
    simp [item, hcoh p.1 hne]
  have hent := (SlotTable.entries_erase hfound).filter (counts d { exclude })
  rw [counted_eq, counted_eq]
  simp only [Option.toList_none, map_nil, append_nil]
  rw [hitems]
  by_cases hcounts : counts d { exclude } (g, found) = true
  · rw [filter_cons_of_pos hcounts] at hent
    refine (demand_cons_le (item cohort { exclude } (g, found))).trans (Nat.le_of_eq ?_)
    exact (demand_perm (hent.map (item cohort { exclude }))).symm
  rw [filter_cons_of_neg hcounts] at hent
  exact Nat.le_of_eq (demand_perm (hent.map (item cohort { exclude }))).symm

theorem Live.erase (h : l.Live d grants) (hg : g ∉ grants) :
    Live { domains, grants := l.grants.erase g } d grants := by
  refine ⟨h.nodup, fun g' hg' => isGrantOf_iff.mpr ?_⟩
  obtain ⟨record, hrec, hdom⟩ := isGrantOf_iff.mp (h.grant g' hg')
  refine ⟨record, ?_, hdom⟩
  show (l.grants.erase g).find? g' = some record
  rw [SlotTable.find?_erase, if_neg fun heq : g' = g => hg (heq ▸ hg'), hrec]

theorem Live.filter (h : l.Live d grants) (g : GrantId) :
    l.Live d (grants.filter (· ≠ g)) ∧ g ∉ grants.filter (· ≠ g) :=
  ⟨⟨h.nodup.filter _, fun g' hg' => h.grant g' (mem_of_mem_filter hg')⟩, by simp⟩

theorem Live.not_mem
    (h : l.Live d grants) (hfound : l.grants.find? g = some found) (hd : found.domain ≠ d) :
    g ∉ grants := by
  intro hg
  obtain ⟨record, hrec, hdom⟩ := isGrantOf_iff.mp (h.grant g hg)
  cases hfound.symm.trans hrec
  exact hd hdom

theorem Kept.substitute_erase {resumption : Resumption} (h : l.Kept d state resumption)
    (hfound : l.grants.find? g = some found) :
    CommitmentLedger.isGrantOf { domains, grants := l.grants.erase g } d resumption.substitute = true
      ∨ (l.grants.erase g).Gone resumption.substitute := by
  by_cases heq : resumption.substitute = g
  · rw [heq]
    exact Or.inr (SlotTable.gone_of_erase hfound)
  refine h.substitute.imp (fun hlive => ?_) fun hgone => hgone.erase g
  obtain ⟨record, hrec, hdom⟩ := isGrantOf_iff.mp hlive
  refine isGrantOf_iff.mpr ⟨record, ?_, hdom⟩
  rw [SlotTable.find?_erase, if_neg heq, hrec]

theorem DomainSound.retire (h : l.DomainSound d state) (hfound : l.grants.find? g = some found) :
    DomainSound { domains, grants := l.grants.erase g } d (Domain.without state g) := by
  have hfil : ∀ (grants : List GrantId) (g' : GrantId), g' ≠ g →
      (g' ∈ grants.filter (· ≠ g) ↔ g' ∈ grants) := fun grants g' hne => by simp [hne]
  refine ⟨?_, ?_, fun resumption hr => ?_⟩
  · exact (demand_retire hfound (hfil state.cohort) []).trans h.fits
  · obtain ⟨hlive, hg⟩ := h.cohort.filter g
    exact hlive.erase hg
  obtain ⟨before, hbef, rfl⟩ := Option.map_eq_some_iff.mp hr
  have hk := h.resumption before hbef
  obtain ⟨hlive, hg⟩ := hk.cohort.filter g
  refine ⟨hlive.erase hg, fun hmem => hk.apart (mem_of_mem_filter hmem),
    hk.substitute_erase hfound, ?_⟩
  exact (demand_retire hfound (hfil before.cohort) [before.substitute]).trans hk.fits

theorem DomainSound.retire_other (h : l.DomainSound d state)
    (hfound : l.grants.find? g = some found) (hd : found.domain ≠ d) :
    DomainSound { domains, grants := l.grants.erase g } d state := by
  refine ⟨?_, h.cohort.erase (h.cohort.not_mem hfound hd), fun resumption hr => ?_⟩
  · exact (demand_retire hfound (fun _ _ => Iff.rfl) []).trans h.fits
  have hk := h.resumption resumption hr
  refine ⟨hk.cohort.erase (hk.cohort.not_mem hfound hd), hk.apart, hk.substitute_erase hfound, ?_⟩
  exact (demand_retire hfound (fun _ _ => Iff.rfl) [resumption.substitute]).trans hk.fits

theorem Sound.retire (h : l.Sound) (g : GrantId) : Keeps l (l.retire g) := by
  unfold CommitmentLedger.retire
  rcases hfound : l.grants.find? g with _ | found
  · exact h.refused _
  obtain ⟨state, hd⟩ := h.known g found hfound
  simp only [hd]
  have hs := h.domains _ _ hd
  refine Sound.accepted ⟨fun g' record hg' => ?_, fun d' state' hd' => ?_⟩
  · change (l.grants.erase g).find? g' = some record at hg'
    rw [SlotTable.find?_erase] at hg'
    split at hg'
    · cases hg'
    obtain ⟨state', hstate⟩ := h.known g' record hg'
    show ∃ state', (l.domains.insert found.domain _).find? record.domain = some state'
    rw [OrdMap.find?_insert]
    split
    · exact ⟨_, rfl⟩
    · exact ⟨state', hstate⟩
  change (l.domains.insert found.domain _).find? d' = some state' at hd'
  rw [OrdMap.find?_insert] at hd'
  split at hd'
  next heq =>
    subst heq
    cases hd'
    exact hs.retire hfound
  rename_i hne
  exact (h.domains d' state' hd').retire_other hfound (Ne.symm hne)

/-! ## Every ledger reached -/

def phaseOf (l : CommitmentLedger) (g : GrantId) : Nat :=
  match l.grants.find? g with
  | none => 0
  | some record => record.envelope.phase.value

/-- `F + J + R(G) + max(max(E_i for i in G), sum(E_i for i in C))`: `G` the domain's live grants
    but those excluded, `C` the cohort. -/
def commitment (l : CommitmentLedger) (d : DomainId) (state : Domain)
    (cohort exclude : List GrantId) : Nat :=
  let guaranteed := (l.grants.entries.filter fun p => p.2.domain = d ∧ p.1 ∉ exclude).map Prod.snd
  state.fixed.value + state.background.value
    + (guaranteed.map fun record => record.envelope.retained.value).sum
    + max ((guaranteed.map fun record => record.envelope.phase.value).foldr max 0)
        (cohort.map l.phaseOf).sum

theorem cohortSum_counted {cohort exclude : List GrantId} (hlive : l.Live d cohort)
    (hexclude : ∀ g ∈ cohort, g ∉ exclude) :
    cohortSum (l.counted d cohort { exclude }) = (cohort.map l.phaseOf).sum := by
  let inCohort := (l.grants.entries.filter (counts d { exclude })).filter
    fun p => decide (p.1 ∈ cohort)
  have hfind : ∀ p ∈ inCohort, l.grants.find? p.1 = some p.2 := fun p hp =>
    SlotTable.mem_entries.mp (mem_of_mem_filter (mem_of_mem_filter hp))
  have hperm : (inCohort.map Prod.fst).Perm cohort := by
    refine (perm_ext_iff_of_nodup ?_ hlive.nodup).mpr fun g => ?_
    · exact l.grants.entries_nodup.sublist ((List.filter_sublist.trans filter_sublist).map Prod.fst)
    constructor
    · intro hg
      obtain ⟨p, hp, rfl⟩ := List.mem_map.mp hg
      exact of_decide_eq_true (List.mem_filter.mp hp).2
    intro hg
    obtain ⟨record, hrec, hdom⟩ := isGrantOf_iff.mp (hlive.grant g hg)
    refine List.mem_map.mpr ⟨(g, record), ?_, rfl⟩
    refine List.mem_filter.mpr ⟨List.mem_filter.mpr ⟨SlotTable.mem_entries.mpr hrec, ?_⟩, ?_⟩
    · exact decide_eq_true ⟨hdom, hexclude g hg⟩
    · exact decide_eq_true hg
  have hsum : cohortSum (l.counted d cohort { exclude })
      = ((inCohort.map Prod.fst).map l.phaseOf).sum := by
    unfold cohortSum
    rw [counted_eq]
    simp only [Option.toList_none, map_nil, append_nil]
    rw [filter_map, map_map, map_map]
    refine congrArg List.sum (map_congr_left fun p hp => ?_)
    have hp' := hfind p hp
    simp [item, phaseOf, hp']
  rw [hsum]
  exact (hperm.map _).sum_eq

theorem demands_eq_commitment {cohort exclude : List GrantId} (hlive : l.Live d cohort)
    (hexclude : ∀ g ∈ cohort, g ∉ exclude) :
    demand state.fixed state.background (l.counted d cohort { exclude })
      = l.commitment d state cohort exclude := by
  unfold demand commitment
  rw [cohortSum_counted hlive hexclude]
  simp only [retainedSum, maxPhase, counted, Option.toList_none, map_nil, append_nil, map_map]
  rfl

/-- The rule in one domain: its budget covers what is promised, as `Totals` reports it, and what
    will be at the resumption. -/
structure Committed (l : CommitmentLedger) (d : DomainId) (state : Domain) : Prop where
  fits : l.commitment d state state.cohort [] ≤ state.budget.value
  bounded : l.commitment d state state.cohort [] < 2 ^ 64
  totals : ∃ totals, l.totals d = some totals ∧ totals.budget = state.budget ∧
    totals.required.value = l.commitment d state state.cohort []
  cohort : l.Live d state.cohort
  resumes : ∀ resumption, state.resumption = some resumption →
    l.Live d resumption.cohort ∧
    l.commitment d state resumption.cohort [resumption.substitute] ≤ state.budget.value ∧
    l.commitment d state resumption.cohort [resumption.substitute] < 2 ^ 64

theorem lt_of_le_budget {n : Nat} {b : Bytes} (h : n ≤ b.value) : n < 2 ^ 64 := by
  have hb : b.value ≤ 2 ^ 64 - 1 := b.bound
  omega

theorem DomainSound.committed (h : l.DomainSound d state) (hd : l.domains.find? d = some state) :
    l.Committed d state := by
  have heq : l.demands d state state.cohort {} = l.commitment d state state.cohort [] :=
    demands_eq_commitment h.cohort (by simp)
  have hfits : l.commitment d state state.cohort [] ≤ state.budget.value := heq ▸ h.fits
  refine ⟨hfits, lt_of_le_budget hfits, ?_, h.cohort, fun resumption hr => ?_⟩
  · rcases evaluate_eq hd (show l.replaceable d {} = true from rfl) with
      ⟨totals, heval, hreq, hbud⟩ | ⟨-, hover⟩
    · exact ⟨totals, by rw [CommitmentLedger.totals, heval], hbud, hreq.trans heq⟩
    have hbound := state.budget.bound
    change uint64Max < l.demands d state state.cohort {} at hover
    omega
  have hk := h.resumption resumption hr
  have hthen : l.commitment d state resumption.cohort [resumption.substitute]
      ≤ state.budget.value := by
    rw [← demands_eq_commitment hk.cohort]
    · exact hk.fits
    intro g hg hsub
    exact hk.apart (List.mem_singleton.mp hsub ▸ hg)
  exact ⟨hk.cohort, hthen, lt_of_le_budget hthen⟩

inductive Op
  | addDomain (domain : DomainId) (budget : Bytes)
  | setBudget (domain : DomainId) (budget : Bytes)
  | addFixed (domain : DomainId) (bytes : Bytes)
  | releaseFixed (domain : DomainId) (bytes : Bytes)
  | addBackground (domain : DomainId) (bytes : Bytes)
  | releaseBackground (domain : DomainId) (bytes : Bytes)
  | grant (domain : DomainId) (envelope : Envelope)
  | replace (grant : GrantId) (envelope : Envelope)
  | retire (grant : GrantId)
  | setCohort (domain : DomainId) (cohort : List GrantId)
  | setResumption (domain : DomainId) (cohort : List GrantId) (substitute : GrantId)
  | clearResumption (domain : DomainId)

def granting (y : Result GrantId × CommitmentLedger) : Result (Option GrantId) × CommitmentLedger :=
  (y.1.map some, y.2)

def plain (y : Result Unit × CommitmentLedger) : Result (Option GrantId) × CommitmentLedger :=
  (y.1.map fun _ => none, y.2)

def Op.call (l : CommitmentLedger) : Op → Result (Option GrantId) × CommitmentLedger
  | .addDomain domain budget => plain (l.addDomain domain budget)
  | .setBudget domain budget => plain (l.setBudget domain budget)
  | .addFixed domain bytes => plain (l.addFixed domain bytes)
  | .releaseFixed domain bytes => plain (l.releaseFixed domain bytes)
  | .addBackground domain bytes => plain (l.addBackground domain bytes)
  | .releaseBackground domain bytes => plain (l.releaseBackground domain bytes)
  | .grant domain envelope => granting (l.grant domain envelope)
  | .replace id envelope => plain (l.replace id envelope)
  | .retire id => plain (l.retire id)
  | .setCohort domain cohort => plain (l.setCohort domain cohort)
  | .setResumption domain cohort substitute => plain (l.setResumption domain cohort substitute)
  | .clearResumption domain => plain (l.clearResumption domain)

theorem Keeps.map {α β : Type} {y : Result α × CommitmentLedger} (h : Keeps l y) (f : α → β) :
    Keeps l (y.1.map f, y.2) := by
  refine ⟨h.1, fun error herror => ?_⟩
  obtain ⟨r, l'⟩ := y
  cases r with
  | error e => exact h.2 e rfl
  | ok => exact absurd herror (by simp [Except.map])

theorem Sound.call (h : l.Sound) (op : Op) : Keeps l (op.call l) := by
  cases op with
  | addDomain domain budget => exact (h.addDomain domain budget).map _
  | setBudget domain budget => exact (h.setBudget domain budget).map _
  | addFixed domain bytes => exact (h.addFixed domain bytes).map _
  | releaseFixed domain bytes => exact (h.releaseFixed domain bytes).map _
  | addBackground domain bytes => exact (h.addBackground domain bytes).map _
  | releaseBackground domain bytes => exact (h.releaseBackground domain bytes).map _
  | grant domain envelope => exact (h.grant domain envelope).map _
  | replace grant envelope => exact (h.replace grant envelope).map _
  | retire grant => exact (h.retire grant).map _
  | setCohort domain cohort => exact (h.setCohort domain cohort).map _
  | setResumption domain cohort substitute =>
    exact (h.setResumption domain cohort substitute).map _
  | clearResumption domain => exact (h.clearResumption domain).map _

/-- Ledgers reached from an empty one by any calls, refused or not. -/
inductive Reachable : CommitmentLedger → Prop
  | init : Reachable {}
  | step {l : CommitmentLedger} (op : Op) : Reachable l → Reachable (op.call l).2

theorem sound_empty : Sound {} := by
  refine ⟨fun g record hg => ?_, fun d state hd => ?_⟩
  · simp [SlotTable.find?, SlotTable.empty] at hg
  · simp at hd

theorem Reachable.sound (h : Reachable l) : l.Sound := by
  induction h with
  | init => exact sound_empty
  | step op _ ih => exact (ih.call op).1

/-- **The commitment inequality always holds**, and a refused call changes nothing. -/
theorem reachable_committed (h : Reachable l) :
    (∀ d state, l.domains.find? d = some state → l.Committed d state) ∧
    ∀ (op : Op) error, (op.call l).1 = .error error → (op.call l).2 = l :=
  ⟨fun d state hd => (h.sound.domains d state hd).committed hd,
    fun op error herror => (h.sound.call op).2 error herror⟩

theorem reachable_calls (ops : List Op) : Reachable (ops.foldl (fun l op => (op.call l).2) {}) := by
  suffices hfrom : ∀ (ops : List Op) (l : CommitmentLedger), Reachable l →
      Reachable (ops.foldl (fun l op => (op.call l).2) l) from hfrom ops {} .init
  intro ops
  induction ops with
  | nil => exact fun l h => h
  | cons op rest ih => exact fun l h => ih _ (h.step op)

/-- A domain of nine bytes with two grants: the first paused, the second its substitute. The fixed
    overhead asked for last does not fit. -/
def paused : CommitmentLedger :=
  let domain : DomainId := ⟨0, 1⟩
  let envelope : Envelope := { retained := .ofNat 1, phase := .ofNat 3 }
  [Op.addDomain domain (.ofNat 9), .grant domain envelope, .grant domain envelope,
    .setCohort domain [⟨0, 1⟩, ⟨1, 1⟩], .setResumption domain [⟨0, 1⟩] ⟨1, 1⟩,
    .setCohort domain [⟨1, 1⟩], .addFixed domain (.ofNat 9)].foldl
      (fun l op => (op.call l).2) {}

theorem reachable_committed_paused :
    (∃ state, paused.domains.find? ⟨0, 1⟩ = some state ∧ state.resumption ≠ none ∧
      paused.Committed ⟨0, 1⟩ state) := by
  have hfound : ((paused.domains.find? ⟨0, 1⟩).bind Domain.resumption).isSome = true := by decide
  rcases hstate : paused.domains.find? ⟨0, 1⟩ with _ | state
  · rw [hstate] at hfound
    cases hfound
  rw [hstate] at hfound
  exact ⟨state, rfl, Option.isSome_iff_ne_none.mp hfound,
    (reachable_committed (reachable_calls _)).1 _ state hstate⟩

end CommitmentLedger
end JitLlm.Memory
