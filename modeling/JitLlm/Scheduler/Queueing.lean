import JitLlm.Scheduler.Events

/-!
# The queue and the room for its head

Whenever capacity changes, the queue is to be drained in arrival order, so that after every event
the ledger refuses the head of the queue. Every event that retires, replaces or releases drains;
`Join` lets one more run, which makes no room; and one event that may make room does not drain. A
`Boundary` that pauses one of several that run puts the substitute's phase in the place of the
paused one's, and if it is smaller the sum of the phases that run falls.

`MakesRoom` is that pause, told by the ledger's own checks before it. In every run without one the
head is refused in every state, and after a pause it is refused exactly if the pause is none.
-/

namespace JitLlm.Admission

open Base Lib Memory

variable {a a' b : Admission} {id x : RequestId} {now : Tick} {envelope : Envelope}
    {decision : Decision} {y : Answer Decision}

def Grants (a : Admission) (envelope : Envelope) : Prop :=
  ∃ g, (a.ledger.grant a.domain envelope).1 = .ok g

def Refuses (a : Admission) : Prop :=
  ∀ head r, a.queued.head? = some head → a.requests.find? head = some r →
    ¬ a.Grants r.spec.envelope

theorem refuses_of_empty (h : a.queued = []) : a.Refuses := by
  intro head r hhead
  rw [h] at hhead
  cases hhead

theorem Consistent.grants (h : a.Consistent) (envelope : Envelope) :
    a.Grants envelope ↔ a.ledger.Room a.domain envelope (a.grantsOf a.running) [] ∧
      (∀ resumed substitute, a.promise = some (resumed, substitute) →
        a.ledger.Room a.domain envelope resumed [substitute]) ∧
      (a.ledger.grants.insert { domain := a.domain, envelope }).isSome = true :=
  h.promised.grants

theorem promise_none (h : a.paused = none) : a.promise = none := by
  unfold promise
  rw [h]

theorem Consistent.grants_fewer (h : a.Consistent) (h' : a'.Consistent) (hpaused : a.paused = none)
    (hdom : a'.domain = a.domain) (hmoney : CommitmentLedger.Money a.ledger a'.ledger a.domain)
    (hsub : ∀ g ∈ a.grantsOf a.running, g ∈ a'.grantsOf a'.running) (hgrants : a'.Grants envelope) :
    a.Grants envelope := by
  rw [h'.grants, hdom, hmoney.grants] at hgrants
  obtain ⟨state, hd, -⟩ := h.promised
  rw [h.grants]
  refine ⟨(hmoney.room' hd hgrants.1).fewer hsub, ?_, hgrants.2.2⟩
  intro resumed substitute hp
  rw [promise_none hpaused] at hp
  cases hp

/-! ## Draining -/

theorem grant_error {l l' : CommitmentLedger} {d : DomainId}
    {error : CommitmentError} (h : l.grant d envelope = (.error error, l')) : l' = l := by
  unfold CommitmentLedger.grant at h
  split at h
  · cases h
    rfl
  split at h
  · cases h
    rfl
  · cases h

theorem admitQueued_refuses (fuel : Nat) : ∀ {a a' : Admission}, admitQueued fuel a = .ok a' →
    a.queued.length ≤ fuel → a'.Refuses := by
  induction fuel with
  | zero =>
    intro a a' h hfuel
    cases h
    exact refuses_of_empty (List.eq_nil_of_length_eq_zero (Nat.le_zero.mp hfuel))
  | succ fuel ih =>
    intro a a' h hfuel
    unfold admitQueued at h
    split at h
    next hq =>
      cases h
      exact refuses_of_empty hq
    rename_i id rest hq
    obtain ⟨r, hr, h⟩ := bind_ok h
    split at h
    next error ledger hgrant =>
      cases h
      obtain rfl := grant_error hgrant
      intro head q hhead hq'
      rw [hq] at hhead
      cases hhead
      cases (request_find hr).symm.trans hq'
      rintro ⟨g, hg⟩
      rw [hgrant] at hg
      cases hg
    refine ih h ?_
    rw [hq] at hfuel
    simpa using hfuel

theorem giveSlot_refuses (hc : a.Consistent) (h : a.Refuses)
    (hslot : a.giveSlot now = .ok (decision, a')) : a'.Refuses := by
  have hc' := ((hc.giveSlot now).val hslot).1
  rcases giveSlot_selects hc hslot with rfl | ⟨hrun, hpaused, -, x, hx⟩
  · exact h
  intro head r' hhead hr' hgrants
  rw [hx.queued] at hhead
  obtain ⟨-, rx, hrx, -⟩ := hx.first
  obtain ⟨r, hr, hspec, -⟩ := hx.request rx hrx head r' hr'
  rw [hspec] at hgrants
  refine h head r hhead hr (hc.grants_fewer hc' hpaused hx.domain hx.money ?_ hgrants)
  rw [hrun]
  intro g hg
  exact absurd hg (by simp [grantsOf])

theorem drain_refuses (hc : a.Consistent) (h : a.drain now = .ok (decision, a')) : a'.Refuses := by
  obtain ⟨⟨refused, a1⟩, href, h⟩ := bind_ok h
  obtain ⟨a2, hqueue, h⟩ := bind_ok h
  obtain ⟨⟨slot, a3⟩, hslot, h⟩ := bind_ok h
  cases h
  have hc1 := ((Consistent.refuseQueued now _ 0 [] hc).val href).1
  have hc2 := ((Consistent.admitQueued _ hc1).val hqueue).1
  exact giveSlot_refuses hc2 (admitQueued_refuses _ hqueue (Nat.le_refl _)) hslot

theorem Drains.refuses (h : Drains a a') (hr : a.Refuses) : a'.Refuses := by
  rcases h with rfl | ⟨b, now, decision, -, hcb, hdrain⟩
  · exact hr
  · exact drain_refuses hcb hdrain

/-! ## Events that do not -/

theorem Refuses.same (h : a.Refuses) (hled : a'.ledger = a.ledger) (hdom : a'.domain = a.domain)
    (hhead : a'.queued.head? = a.queued.head?)
    (hreq : ∀ x r', a.queued.head? = some x → a'.requests.find? x = some r' →
      ∃ r, a.requests.find? x = some r ∧ r'.spec = r.spec) : a'.Refuses := by
  intro head r' hx hr' hgrants
  rw [hhead] at hx
  obtain ⟨r, hr, hspec⟩ := hreq head r' hx hr'
  unfold Grants at hgrants
  rw [hled, hdom, hspec] at hgrants
  exact h head r hx hr hgrants

theorem set_spec {t : SlotTable .request Request} {r q : Request} (hr : t.find? id = some r)
    (r' : Request) (hspec : r'.spec = r.spec) (hq : (t.set id r').find? x = some q) :
    ∃ p, t.find? x = some p ∧ q.spec = p.spec := by
  rw [SlotTable.find?_set] at hq
  split at hq
  next heq =>
    subst heq
    rw [hr] at hq
    cases hq
    exact ⟨r, hr, hspec⟩
  · exact ⟨q, hq, rfl⟩

theorem Refuses.set (h : a.Refuses) {r r' : Request} (hr : a.requests.find? id = some r)
    (hspec : r'.spec = r.spec) : Refuses { a with requests := a.requests.set id r' } :=
  h.same rfl rfl rfl fun _ _ _ hq => set_spec hr r' hspec hq

theorem giveSlot_queued (hc : a.Consistent)
    (h : a.giveSlot now = .ok (decision, a')) : a'.queued = a.queued := by
  rcases giveSlot_selects hc h with rfl | ⟨-, -, -, x, hx⟩
  · rfl
  · exact hx.queued

theorem Refuses.enter (h : a.Refuses) {r : Request} {requests : SlotTable .request Request}
    (hins : a.requests.insert r = some (id, requests)) (hc : a.Consistent)
    (hnew : a.queued = [] → ¬ a.Grants r.spec.envelope) (n : Nat) :
    Refuses { a with requests, queued := a.queued ++ [id], nextSequence := n } := by
  cases hq : a.queued with
  | nil =>
    intro head r' hhead hr' hgrants
    cases hhead
    have hr'' : requests.find? id = some r' := hr'
    rw [SlotTable.find?_insert hins, if_pos rfl] at hr''
    cases hr''
    exact hnew hq hgrants
  | cons head rest =>
    refine h.same rfl rfl (by simp [hq]) ?_
    intro x r' hx hr'
    have hr'' : requests.find? x = some r' := hr'
    rw [SlotTable.find?_insert hins] at hr''
    split at hr''
    next heq =>
      subst heq
      obtain ⟨q, hq'⟩ := (hc.listed.alive .queued).find (List.mem_of_mem_head? hx)
      rw [SlotTable.find?_insert_fresh hins] at hq'
      cases hq'
    · exact ⟨r', hr'', rfl⟩

theorem submit_refuses (hc : a.Consistent) (hr : a.Refuses) {spec : RequestSpec}
    {y : Answer Submitted} (h : a.submit spec now = .ok y) : y.2.Refuses := by
  obtain ⟨why, -, h⟩ := bind_ok h
  cases why with
  | some =>
    cases h
    exact hr
  | none =>
    generalize hgran : (if a.queued.isEmpty = true then _ else (none, a.ledger)) = granted at h
    obtain ⟨grant, ledger⟩ := granted
    cases grant with
    | none =>
      obtain ⟨rfl, hnew⟩ : ledger = a.ledger ∧ (a.queued = [] → ¬ a.Grants spec.envelope) := by
        split at hgran
        · split at hgran
          · cases hgran
          rename_i error ledger' hgrant
          cases hgran
          refine ⟨grant_error hgrant, ?_⟩
          rintro - ⟨g, hg⟩
          rw [hgrant] at hg
          cases hg
        rename_i hqueue
        cases hgran
        exact ⟨rfl, fun hq => absurd (by simp [hq]) hqueue⟩
      simp only at h
      split at h
      · cases h
        exact hr
      split at h
      · cases h
        exact hr
      rename_i id requests hins
      cases h
      exact hr.enter hins hc hnew _
    | some grant =>
      obtain ⟨hempty, hgrant⟩ : a.queued = [] ∧
          a.ledger.grant a.domain spec.envelope = (.ok grant, ledger) := by
        split at hgran
        next hqueue =>
          split at hgran
          next hgrant =>
            cases hgran
            exact ⟨by simpa using hqueue, hgrant⟩
          · cases hgran
        · cases hgran
      simp only at h
      split at h
      · obtain ⟨ledger', -, h⟩ := bind_ok h
        cases h
        exact refuses_of_empty hempty
      rename_i id requests hins
      obtain ⟨⟨decision, a'⟩, hslot, h⟩ := bind_ok h
      cases h
      have hent := hc.enters hgrant hins rfl rfl ((a.nextSequence + 1) % 2 ^ 64)
      exact refuses_of_empty ((giveSlot_queued hent hslot).trans hempty)

theorem join_refuses (hc : a.Consistent) (hidle : a.Idle) (hr : a.Refuses) {y : Answer Unit}
    (h : a.join id now = .ok y) : y.2.Refuses := by
  have hcy := ((hc.join hidle id now).val h).1
  unfold Admission.join at h
  cases hfind : a.requests.find? id with
  | none =>
    rw [hfind] at h
    cases h
    exact hr
  | some r =>
    simp only [hfind] at h
    split at h
    · cases h
      exact hr
    split at h
    · cases h
      exact hr
    rename_i hopen
    have hpaused : a.paused = none := by simpa using hopen
    obtain ⟨cohort, -, h⟩ := bind_ok h
    split at h
    · cases h
      exact hr
    obtain ⟨a1, hsync, h⟩ := bind_ok h
    cases h
    obtain ⟨ledger, rfl, hmoney⟩ := syncCohort_eq hsync
    intro head r' hhead hr' hgrants
    obtain ⟨q, hq, hspec⟩ := set_spec hfind { r with state := .running, runStarted := now } rfl hr'
    rw [hspec] at hgrants
    refine hr head q hhead hq (hc.grants_fewer hcy hpaused rfl hmoney ?_ hgrants)
    intro g hg
    obtain ⟨x, hx, hgx⟩ := mem_grantsOf.mp hg
    refine mem_grantsOf.mpr ⟨x, List.mem_append_left _ hx, ?_⟩
    exact (grantIn_set_same hfind { r with state := .running, runStarted := now } rfl x).trans hgx

/-! ## The pause -/

/-- What `Boundary` sets before it asks for a candidate. -/
def atBoundary (a : Admission) (id : RequestId) (r : Request) (done : Tick) : Admission :=
  { a with requests := a.requests.set id { r with done := Nat.max r.done done } }

/-- The phase of the candidate in the place of the one that pauses makes room for the head of the
    queue, beside what runs then and beside what runs when it resumes. -/
def RoomAfter (a : Admission) (id candidate : RequestId) : Prop :=
  ∃ head q g, a.queued.head? = some head ∧ a.requests.find? head = some q ∧
    a.grantAt candidate = some g ∧
    a.ledger.check a.domain
      { add := some q.spec.envelope
        cohort := some (a.grantsOf (erase a.running id ++ [candidate])) } = .ok () ∧
    a.ledger.check a.domain
      { add := some q.spec.envelope, cohort := some (a.grantsOf a.running), exclude := [g] }
      = .ok () ∧
    (a.ledger.grants.insert { domain := a.domain, envelope := q.spec.envelope }).isSome = true

def MakesRoom (a : Admission) : Op → Prop
  | .boundary id done now => ∃ r candidate, a.requests.find? id = some r ∧ r.state = .running ∧
      (a.atBoundary id r done).candidateAt { r with done := Nat.max r.done done } now
        = .ok (some candidate) ∧
      a.ledger.check a.domain { cohort := some (a.grantsOf (erase a.running id ++ [candidate])) }
        = .ok () ∧
      a.RoomAfter id candidate
  | _ => False

theorem Consistent.check_room (h : a.Consistent) (hpaused : a.paused = none)
    {cohort exclude : List GrantId} :
    a.ledger.check a.domain { add := some envelope, cohort := some cohort, exclude } = .ok () ↔
      a.ledger.Room a.domain envelope cohort exclude := by
  obtain ⟨state, hd, -, hprom⟩ := h.promised
  rw [promise_none hpaused] at hprom
  have hnone : state.resumption = none := hprom
  rw [CommitmentLedger.check_ok hd rfl]
  constructor
  · intro hfits
    exact ⟨state, hd, hfits.1⟩
  rintro ⟨state', hd', hfits⟩
  cases hd.symm.trans hd'
  exact ⟨hfits, fun resumption hr => nomatch hnone.symm.trans hr⟩

theorem mem_resumed {candidate : RequestId} (hid : id ∈ a.running) (hnot : candidate ∉ a.running)
    (x : RequestId) :
    x ∈ erase (erase a.running id ++ [candidate]) candidate ++ [id] ↔ x ∈ a.running := by
  simp only [List.mem_append, mem_erase, List.mem_singleton]
  constructor
  · rintro (⟨⟨hx, -⟩ | rfl, hne⟩ | rfl)
    · exact hx
    · exact absurd rfl hne
    · exact hid
  intro hx
  by_cases heq : x = id
  · exact .inr heq
  · exact .inl ⟨.inl ⟨hx, heq⟩, fun hc => hnot (hc ▸ hx)⟩

/-- Once `id` has paused for the candidate. -/
def pausedAt (a : Admission) (id candidate : RequestId) (ledger : CommitmentLedger)
    (t : SlotTable .request Request) : Admission :=
  { a with
    ledger
    requests := t
    running := erase a.running id ++ [candidate]
    paused := some id
    substitute := some candidate
    waiting := erase a.waiting candidate }

theorem pauseFor_eq (hc : a.Consistent) {candidate : RequestId}
    (h : a.pauseFor id candidate now = .ok (decision, a')) :
    ∃ ledger t, a' = a.pausedAt id candidate ledger t ∧
      CommitmentLedger.Money a.ledger ledger a.domain ∧ grantIn t = grantIn a.requests := by
  obtain ⟨⟨next, a1⟩, hchoose, hrest⟩ := bind_ok h
  obtain ⟨-, t, heq, -, hgrants⟩ := hc.readable.chooseNext.val hchoose
  subst heq
  obtain ⟨-, -, hrest'⟩ := bind_ok hrest
  obtain ⟨a2, hpause, hgoes⟩ := bind_ok hrest'
  obtain ⟨rp, hrp, rfl⟩ := modify_eq hpause
  obtain ⟨a3, hstart, hgoes'⟩ := bind_ok hgoes
  obtain ⟨rc, hrc, rfl⟩ := modify_eq hstart
  obtain ⟨a4, hsync, hdone⟩ := bind_ok hgoes'
  cases hdone
  obtain ⟨ledger, rfl, hmoney⟩ := syncCohort_eq hsync
  refine ⟨ledger, _, rfl, hmoney, ?_⟩
  funext x
  rw [← hgrants]
  exact (grantIn_set_same hrc (start now rc) rfl x).trans
    (grantIn_set_same hrp { rp with state := .paused, pauses := rp.pauses + 1 } rfl x)

section Pause

variable {candidate : RequestId} {ledger : CommitmentLedger} {t : SlotTable .request Request}
    {g : GrantId}
theorem pausedAt_promise (hgrant : grantIn t = grantIn a.requests)
    (hg : a.grantAt candidate = some g) : (a.pausedAt id candidate ledger t).promise =
      some (a.grantsOf (erase (erase a.running id ++ [candidate]) candidate ++ [id]), g) := by
  show (grantIn t candidate).map (fun grant =>
    ((erase (erase a.running id ++ [candidate]) candidate ++ [id]).filterMap (grantIn t), grant)) = _
  rw [grantsOf_table fun x => congrFun hgrant x, hgrant,
    show grantIn a.requests candidate = some g from hg]
  rfl

theorem pausedAt_grants (hc : a.Consistent) (hc' : (a.pausedAt id candidate ledger t).Consistent)
    (hmoney : CommitmentLedger.Money a.ledger ledger a.domain)
    (hgrant : grantIn t = grantIn a.requests) (hg : a.grantAt candidate = some g)
    (hid : id ∈ a.running) (hnot : candidate ∉ a.running) (envelope : Envelope) :
    (a.pausedAt id candidate ledger t).Grants envelope ↔
      a.ledger.Room a.domain envelope (a.grantsOf (erase a.running id ++ [candidate])) [] ∧
      a.ledger.Room a.domain envelope (a.grantsOf a.running) [g] ∧
      (a.ledger.grants.insert { domain := a.domain, envelope }).isSome = true := by
  obtain ⟨state, hd, -⟩ := hc.promised
  have hroom : ∀ cohort exclude, ledger.Room a.domain envelope cohort exclude ↔
      a.ledger.Room a.domain envelope cohort exclude :=
    fun cohort exclude => ⟨hmoney.room' hd, hmoney.room⟩
  have hmem := grantsOf_mem_congr (a := a) (mem_resumed hid hnot)
  rw [hc'.grants, pausedAt_promise hgrant hg]
  show ledger.Room a.domain envelope
      ((erase a.running id ++ [candidate]).filterMap (grantIn t)) [] ∧ _ ∧
      (ledger.grants.insert _).isSome = true ↔ _
  rw [grantsOf_table fun x => congrFun hgrant x, hmoney.grants, hroom]
  refine and_congr_right fun _ => and_congr ?_ Iff.rfl
  constructor
  · intro hall
    exact ((hroom _ _).mp (hall _ g rfl)).congr hmem
  intro hr resumed substitute heq
  cases heq
  exact (hroom _ _).mpr (hr.congr fun g => (hmem g).symm)

theorem pauseFor_refuses (hc : a.Consistent) (hpaused : a.paused = none) (hid : id ∈ a.running)
    (hcan : candidate ∈ a.waiting) {decision : Decision}
    (h : a.pauseFor id candidate now = .ok (decision, a')) (hc' : a'.Consistent) :
    a'.Refuses ↔ ¬ a.RoomAfter id candidate := by
  have hrunn := (hc.listed.mem .running id).mp hid
  have hwait := (hc.listed.mem .waiting candidate).mp hcan
  have hnot : candidate ∉ a.running := by
    intro hmem
    have hrun := (hc.listed.mem .running candidate).mp hmem
    cases hrun.symm.trans hwait
  have hne : candidate ≠ id := fun heq => hnot (heq ▸ hid)
  obtain ⟨g, hg⟩ := hc.granted.admitted candidate .waiting hwait (by simp)
  obtain ⟨rc, hrc⟩ := (hc.listed.alive .waiting).find hcan
  have hsel := pauseFor_selects hc hrunn hne h
  obtain ⟨ledger, t, rfl, hmoney, hgrant⟩ := pauseFor_eq hc h
  have hgrants := pausedAt_grants hc hc' hmoney hgrant hg hid hnot
  constructor
  · rintro href ⟨head, q, g', hhead, hq, hg', hnow, hthen, hins⟩
    cases hg.symm.trans hg'
    obtain ⟨q', hq'⟩ := hsel.present head q hq
    obtain ⟨q1, hq1, hspec, -⟩ := hsel.request rc hrc head q' hq'
    cases hq.symm.trans hq1
    refine href head q' hhead hq' ?_
    rw [hgrants, hspec]
    exact ⟨(hc.check_room hpaused).mp hnow, (hc.check_room hpaused).mp hthen, hins⟩
  intro hno head q' hhead hq' hgran
  obtain ⟨q, hq, hspec, -⟩ := hsel.request rc hrc head q' hq'
  rw [hgrants, hspec] at hgran
  exact hno ⟨head, q, g, hhead, hq, hg, (hc.check_room hpaused).mpr hgran.1,
    (hc.check_room hpaused).mpr hgran.2.1, hgran.2.2⟩

theorem roomAfter_atBoundary {r : Request} {done : Tick} (hr : a.requests.find? id = some r) :
    (a.atBoundary id r done).RoomAfter id candidate ↔ a.RoomAfter id candidate := by
  have hgrant : ∀ x, grantIn (a.requests.set id { r with done := Nat.max r.done done }) x =
      a.grantAt x := grantIn_set_same hr { r with done := Nat.max r.done done } rfl
  have hof : ∀ ids, (a.atBoundary id r done).grantsOf ids = a.grantsOf ids := grantsOf_table hgrant
  have hat : (a.atBoundary id r done).grantAt candidate = a.grantAt candidate := hgrant candidate
  have hfind : ∀ {head : RequestId} {q' : Request},
      (a.atBoundary id r done).requests.find? head = some q' →
      ∃ q, a.requests.find? head = some q ∧ q'.spec = q.spec := by
    intro head q' hq'
    exact set_spec hr { r with done := Nat.max r.done done } rfl hq'
  unfold RoomAfter
  rw [hat]
  simp only [hof]
  constructor
  · rintro ⟨head, q', g, hhead, hq', hg, hnow, hthen, hins⟩
    obtain ⟨q, hq, hspec⟩ := hfind hq'
    rw [hspec] at hnow hthen hins
    exact ⟨head, q, g, hhead, hq, hg, hnow, hthen, hins⟩
  rintro ⟨head, q, g, hhead, hq, hg, hnow, hthen, hins⟩
  obtain ⟨q', hq'⟩ : ∃ q', (a.atBoundary id r done).requests.find? head = some q' :=
    find_set_some hq
  obtain ⟨q1, hq1, hspec⟩ := hfind hq'
  cases hq.symm.trans hq1
  rw [← hspec] at hnow hthen hins
  exact ⟨head, q', g, hhead, hq', hg, hnow, hthen, hins⟩

end Pause

theorem boundary_refuses (hc : a.Consistent) (hidle : a.Idle) (href : a.Refuses) {done : Tick}
    {y : Answer Decision} (h : a.boundary id done now = .ok y) :
    y.2.Refuses ↔ ¬ a.MakesRoom (.boundary id done now) := by
  have hcy := ((hc.boundary hidle id done now).val h).1
  unfold Admission.boundary at h
  cases hr : a.requests.find? id with
  | none =>
    rw [hr] at h
    cases h
    refine iff_of_true href ?_
    rintro ⟨r, -, hr', -⟩
    cases hr.symm.trans hr'
  | some r =>
    simp only [hr] at h
    split at h
    next hstate =>
      cases h
      refine iff_of_true href ?_
      rintro ⟨r', -, hr', hrun, -⟩
      cases hr.symm.trans hr'
      exact hstate hrun
    rename_i hstate
    simp only [ne_eq, not_not] at hstate
    have hsame := set_same hr { r with done := Nat.max r.done done } rfl rfl
    have hc1 : (a.atBoundary id r done).Consistent := hc.same hsame.1 hsame.2
    have href1 : (a.atBoundary id r done).Refuses := href.set hr rfl
    have hid : id ∈ a.running := (hc.listed.mem .running id).mpr
      ((stateIn_of_find hr).trans (congrArg some hstate))
    have hof : ∀ ids, (a.atBoundary id r done).grantsOf ids = a.grantsOf ids :=
      grantsOf_table fun x => congrFun hsame.2 x
    obtain ⟨c, hcan, h⟩ := bind_ok h
    have hat : (a.atBoundary id r done).candidateAt { r with done := Nat.max r.done done } now =
        .ok c := hcan
    cases c with
    | none =>
      cases h
      refine iff_of_true href1 ?_
      rintro ⟨r', candidate, hr', -, hsome, -⟩
      cases hr.symm.trans hr'
      cases hat.symm.trans hsome
    | some candidate =>
      obtain ⟨hpaused, hwaits, -⟩ := (hc1.readable.candidateAt _ now).val hat candidate rfl
      have hhold : (a.atBoundary id r done).Hold (erase a.running id ++ [candidate]) := by
        refine hc1.hold ?_
        intro x hx
        rcases List.mem_append.mp hx with hx | hx
        · exact ⟨.running, (hc1.listed.mem .running x).mp (mem_erase.mp hx).1, by simp⟩
        rw [List.mem_singleton.mp hx]
        exact ⟨.waiting, (hc1.listed.mem .waiting candidate).mp hwaits, by simp⟩
      obtain ⟨after, hafter, h⟩ := bind_ok h
      obtain rfl : after = a.grantsOf (erase a.running id ++ [candidate]) := by
        rw [← hof]
        exact Except.ok.inj (hafter.symm.trans hhold.grants)
      split at h
      next hcheck =>
        cases h
        refine iff_of_true href1 ?_
        rintro ⟨r', candidate', hr', -, hsome, hfits, -⟩
        cases hr.symm.trans hr'
        cases hat.symm.trans hsome
        cases hcheck.symm.trans hfits
      rename_i hcheck
      obtain ⟨⟨decision, a'⟩, hpause, h⟩ := bind_ok h
      cases h
      have hpause' : (a.atBoundary id r done).pauseFor id candidate now = .ok (decision, a') :=
        hpause
      rw [pauseFor_refuses hc1 hpaused hid hwaits hpause' hcy, roomAfter_atBoundary hr]
      refine not_congr ⟨fun hroom => ⟨r, candidate, hr, hstate, hat, hcheck, hroom⟩, ?_⟩
      rintro ⟨r', candidate', hr', -, hsome, -, hroom⟩
      cases hr.symm.trans hr'
      cases hat.symm.trans hsome
      exact hroom

/-! ## Runs -/

theorem Consistent.run_refuses (hc : a.Consistent) (hidle : a.Idle) (hr : a.Refuses) (op : Op)
    (h : op.run a = .ok a') : a'.Refuses ↔ ¬ a.MakesRoom op := by
  by_cases hop : op.drains = true
  · refine iff_of_true ((hc.drains hop h).refuses hr) ?_
    cases op with
    | submit | boundary | join => cases hop
    | _ => exact id
  cases op with
  | submit =>
    obtain ⟨y, hy, rfl⟩ := map_ok h
    exact iff_of_true (submit_refuses hc hr hy) id
  | boundary =>
    obtain ⟨y, hy, rfl⟩ := map_ok h
    exact boundary_refuses hc hidle hr hy
  | join =>
    obtain ⟨y, hy, rfl⟩ := map_ok h
    exact iff_of_true (join_refuses hc hidle hr hy) id
  | _ => exact absurd rfl hop

inductive Filling : Admission → Prop
  | init {ledger : CommitmentLedger} {domain : DomainId} {settings : PolicySettings}
      {a : Admission} : Fresh ledger domain → create ledger domain settings = .ok a → Filling a
  | step {a a' : Admission} (op : Op) : Filling a → ¬ a.MakesRoom op → op.run a = .ok a' →
      Filling a'

theorem Filling.reachable (h : Filling a) : Reachable a := by
  induction h with
  | init hfresh hcreate => exact .init hfresh hcreate
  | step op _ _ hrun ih => exact .step op ih hrun

theorem Filling.refuses (h : Filling a) : a.Refuses := by
  induction h with
  | init hfresh hcreate =>
    refine refuses_of_empty ?_
    obtain ⟨-, -, hcreate⟩ := bind_ok hcreate
    cases hcreate
    rfl
  | step op hreac hno hrun ih =>
    obtain ⟨hc, hidle⟩ := hreac.reachable.consistent
    exact (hc.run_refuses hidle ih op hrun).mpr hno

/-- **The ledger refuses the head of the queue in every state reached without a pause that made
    room**, and the next event keeps it so exactly if it is none. -/
theorem filling_refuses_exact (h : Filling a) :
    a.Refuses ∧ ∀ op a', op.run a = .ok a' → (a'.Refuses ↔ ¬ a.MakesRoom op) := by
  obtain ⟨hc, hidle⟩ := h.reachable.consistent
  exact ⟨h.refuses, fun op a' hrun => hc.run_refuses hidle h.refuses op hrun⟩

theorem filling_events (h : Filling a) {ops : List Op} (hops : ∀ op ∈ ops, ∀ b, ¬ MakesRoom b op)
    (hrun : ops.foldlM (fun (a : Admission) op => op.run a) a = .ok a') : Filling a' := by
  induction ops generalizing a with
  | nil =>
    cases hrun
    exact h
  | cons op rest ih =>
    obtain ⟨a1, hstep, hrest⟩ := bind_ok hrun
    refine ih (.step op h (hops op List.mem_cons_self a) hstep) ?_ hrest
    intro op' hmem
    exact hops op' (List.mem_cons_of_mem _ hmem)

/-- Two background requests run side by side, an interactive one waits, and another is queued: the
    phases that run, of two bytes each, and what the two interactive ones retain are one byte more
    than the domain has. -/
def queuedBehind : List Op :=
  let runs : RequestSpec :=
    { requestClass := .background, envelope := { phase := .ofNat 2 } }
  let waits : RequestSpec :=
    { requestClass := .interactive, envelope := { retained := .ofNat 3 } }
  [.submit runs 0, .submit runs 0, .join ⟨1, 1⟩ 0, .submit waits 0, .submit waits 0]

def after (ops : List Op) : Checked Admission := do
  let a ← create oneDomain ⟨0, 1⟩ {}
  ops.foldlM (fun (a : Admission) op => op.run a) a

def headGranted : Checked Admission → Option (RequestId × Bool)
  | .ok a => do
    let head ← a.queued.head?
    let r ← a.requests.find? head
    return (head, (a.ledger.grant a.domain r.spec.envelope).1.toOption.isSome)
  | .error _ => none

theorem headGranted_eq {head : RequestId} {granted : Bool}
    (h : headGranted (.ok a) = some (head, granted)) :
    ∃ r, a.queued.head? = some head ∧ a.requests.find? head = some r ∧
      (granted = true → a.Grants r.spec.envelope) := by
  simp only [headGranted, Option.pure_def, Option.bind_eq_bind, Option.bind_eq_some_iff,
    Option.some.injEq, Prod.mk.injEq] at h
  obtain ⟨_, hhead, r, hr, rfl, rfl⟩ := h
  refine ⟨r, hhead, hr, ?_⟩
  intro hgran
  unfold Grants
  cases hg : (a.ledger.grant a.domain r.spec.envelope).1 with
  | error =>
    rw [hg] at hgran
    cases hgran
  | ok g => exact ⟨g, rfl⟩

theorem filling_refuses_exact_queued :
    ∃ a head r, Filling a ∧ a.queued.head? = some head ∧ a.requests.find? head = some r ∧
      ¬ a.Grants r.spec.envelope := by
  have hhead : headGranted (after queuedBehind) = some (⟨3, 1⟩, false) := by decide +kernel
  rcases hrun : after queuedBehind with _ | a
  · rw [hrun] at hhead
    cases hhead
  rw [hrun] at hhead
  obtain ⟨r, hqueued, hr, -⟩ := headGranted_eq hhead
  obtain ⟨a0, hcreate, heve⟩ := bind_ok hrun
  have hfil : Filling a := by
    refine filling_events (.init oneDomain_fresh hcreate) ?_ heve
    intro op hop b
    simp only [queuedBehind, List.mem_cons, List.not_mem_nil, or_false] at hop
    rcases hop with rfl | rfl | rfl | rfl | rfl <;> exact fun hno => hno
  exact ⟨a, _, r, hfil, hqueued, hr, (filling_refuses_exact hfil).1 _ r hqueued hr⟩

/-- At its boundary the first background request pauses for the waiting one, whose phase is empty.
    Two bytes less run, and the head of the queue would be granted. -/
theorem pause_leaves_room :
    ∃ a head r, Reachable a ∧ a.queued.head? = some head ∧ a.requests.find? head = some r ∧
      a.Grants r.spec.envelope := by
  have hhead : headGranted (after (queuedBehind ++ [.boundary ⟨0, 1⟩ 1 2])) =
      some (⟨3, 1⟩, true) := by decide +kernel
  rcases hrun : after (queuedBehind ++ [.boundary ⟨0, 1⟩ 1 2]) with _ | a
  · rw [hrun] at hhead
    cases hhead
  rw [hrun] at hhead
  obtain ⟨r, hqueued, hr, hgrants⟩ := headGranted_eq hhead
  obtain ⟨a0, hcreate, heve⟩ := bind_ok hrun
  exact ⟨a, _, r, reachable_events (.init oneDomain_fresh hcreate) heve, hqueued, hr, hgrants rfl⟩

end JitLlm.Admission
