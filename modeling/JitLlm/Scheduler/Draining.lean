import JitLlm.Scheduler.Aging
import JitLlm.Scheduler.Estimates
import JitLlm.Scheduler.Queueing

/-!
# Draining twice

A `Drain` refuses what can no longer run, admits what fits in arrival order and gives the slot if it
is free. Done again at the same tick it does nothing. Refusing a request leaves the estimates of
the others no worse, so those that were kept before it are still to be kept. Admitting moves costs
from before a queued request to what waits, and giving the slot moves one from what waits to what
runs: the burden of a request that stays queued is the same. Where its estimate was not the burden
but a replay, it headed the queue and fitted, and it stays queued only because the ledger has no
id left; then nothing was admitted or started.
-/

namespace JitLlm.Admission

open Base Lib Memory List

variable {a a' b : Admission} {id x : RequestId} {now : Tick} {r r' : Request}
    {rs rs' : List Request} {ledger : CommitmentLedger} {decision : Decision}

/-! ## Refusing -/

/-- Those before the `i`-th of the queue are to be kept. -/
def KeptTo (a : Admission) (i : Nat) (now : Tick) : Prop :=
  ∀ j x r, j < i → a.queued[j]? = some x → a.requests.find? x = some r → a.Runnable r now

theorem refuseAt_fewer (hc : a.Consistent) {i : Nat} (hi : a.queued[i]? = some id) :
    Fewer a (a.refuseAt i id) := by
  have hqueued := (hc.listed.mem .queued id).mp (mem_of_getElem? hi)
  have hother : ∀ s x, s ≠ .queued → x ∈ a.list s →
      (a.refuseAt i id).requests.find? x = a.requests.find? x := by
    intro s x hs hx
    refine (SlotTable.find?_erase ..).trans (if_neg ?_)
    rintro rfl
    have hstate := (hc.listed.mem s x).mp hx
    exact hs (Option.some.inj (hstate.symm.trans hqueued))
  refine ⟨rfl, rfl, rfl, rfl, rfl, rfl, ?_, ?_⟩
  · rintro x (hx | hx | hx)
    · exact hother .running x (by simp) hx
    · exact hother .waiting x (by simp) hx
    · exact hother .paused x (by simp) hx
  have hrows : (a.refuseAt i id).rows (a.queued.eraseIdx i) = a.rows (a.queued.eraseIdx i) := by
    refine rows_congr ?_
    intro x hx
    have hnodup : a.queued.Nodup := hc.listed.nodup .queued
    rw [eraseIdx_eq_erase hnodup hi] at hx
    exact (SlotTable.find?_erase ..).trans (if_neg (mem_erase.mp hx).2)
  show ((a.refuseAt i id).rows (a.queued.eraseIdx i)).Sublist _
  rw [hrows]
  exact rows_sublist (eraseIdx_sublist ..)

/-- What the first loop leaves: nothing else is different, and all that is queued can run. -/
structure Kept (a b : Admission) (now : Tick) : Prop where
  consistent : b.Consistent
  ledger : b.ledger = a.ledger
  running : b.running = a.running
  waiting : b.waiting = a.waiting
  kept : ∀ x r, x ∈ b.queued → b.requests.find? x = some r → b.Runnable r now

theorem refuseQueued_kept (now : Tick) (fuel : Nat) : ∀ (i : Nat)
    (refused : List (RequestId × AdmissionError)) {a : Admission}
    {y : List (RequestId × AdmissionError) × Admission},
    refuseQueued now fuel i refused a = .ok y → a.Consistent → a.queued.length ≤ i + fuel →
    a.KeptTo i now → Kept a y.2 now := by
  have hdone : ∀ {a : Admission} {i : Nat}, a.Consistent → a.queued.length ≤ i → a.KeptTo i now →
      Kept a a now := by
    intro a i hc hlen hkept
    refine ⟨hc, rfl, rfl, rfl, ?_⟩
    intro x r hx hr
    obtain ⟨j, hj, heq⟩ := List.mem_iff_getElem.mp hx
    exact hkept j x r (Nat.lt_of_lt_of_le hj hlen) (heq ▸ getElem?_eq_getElem hj) hr
  induction fuel with
  | zero =>
    intro i refused a y h hc hlen hkept
    cases h
    exact hdone hc hlen hkept
  | succ fuel ih =>
    intro i refused a y h hc hlen hkept
    unfold refuseQueued at h
    split at h
    next hi =>
      cases h
      exact hdone hc (List.getElem?_eq_none_iff.mp hi) hkept
    rename_i id hi
    obtain ⟨r, hr, h⟩ := bind_ok h
    obtain ⟨why, hwhy, h⟩ := bind_ok h
    have hlt : i < a.queued.length := (List.getElem?_eq_some_iff.mp hi).1
    cases why with
    | some =>
      have hfewer := refuseAt_fewer hc hi
      have hc' := hc.refuseAt hi
      have hlen' : (a.refuseAt i id).queued.length ≤ i + fuel := by
        show (a.queued.eraseIdx i).length ≤ i + fuel
        rw [length_eraseIdx_of_lt hlt]
        omega
      have hkept' : (a.refuseAt i id).KeptTo i now := by
        intro j x r hj hx hr'
        have hx' : a.queued[j]? = some x := by
          rw [← hx]
          exact (getElem?_eraseIdx_of_lt hj).symm
        have hr'' : (a.requests.erase id).find? x = some r := hr'
        rw [SlotTable.find?_erase] at hr''
        split at hr''
        · cases hr''
        · exact hfewer.runnable hc.readable hc'.readable (hkept j x r hj hx' hr'')
      obtain ⟨hcy, hled, hrun, hwait, hall⟩ := ih i _ h hc' hlen' hkept'
      exact ⟨hcy, hled, hrun, hwait, hall⟩
    | none =>
      refine ih (i + 1) _ h hc (by omega) ?_
      intro j x r' hj hx hr'
      rcases Nat.lt_succ_iff_lt_or_eq.mp hj with hj | rfl
      · exact hkept j x r' hj hx hr'
      cases hi.symm.trans hx
      cases (request_find hr).symm.trans hr'
      exact hwhy

/-! ## Admitting and starting -/

def face (r : Request) : Request :=
  { spec := r.spec, done := r.done, sequence := r.sequence, submitted := r.submitted }

theorem spec_of_face (h : face r' = face r) :
    r'.spec = r.spec ∧ r'.sequence = r.sequence ∧ r'.submitted = r.submitted := by
  injection h with hspec _ _ hsub _ _ _ _ hseq
  exact ⟨hspec, hseq, hsub⟩

def Faces (t t' : SlotTable .request Request) : Prop :=
  ∀ x, (t'.find? x).map face = (t.find? x).map face

variable {t : SlotTable .request Request}

theorem Faces.set (hr : t.find? id = some r)
    (hface : face r' = face r) : Faces t (t.set id r') := by
  intro x
  rw [SlotTable.find?_set]
  split
  next heq =>
    simp only [heq, hr, Option.map_some, hface]
  · rfl

theorem Faces.trans {t t1 t' : SlotTable .request Request} (h : Faces t t1) (h' : Faces t1 t') :
    Faces t t' := fun x => (h' x).trans (h x)

theorem Faces.rows (h : Faces a.requests b.requests) (ids : List RequestId) :
    (b.rows ids).map face = (a.rows ids).map face := by
  unfold Admission.rows
  rw [map_filterMap, map_filterMap]
  exact filterMap_congr fun x _ => h x

theorem costs_face (rs : List Request) : costs (rs.map face) = costs rs := by
  unfold costs
  rw [map_map]
  rfl

theorem costs_of_faces (h : rs'.map face = rs.map face) : costs rs' = costs rs := by
  rw [← costs_face, h, costs_face]

theorem costs_filter_of_faces (h : rs'.map face = rs.map face)
    {p : Request → Bool} (hp : ∀ r, p (face r) = p r) :
    costs (rs'.filter p) = costs (rs.filter p) := by
  have hcomp : p ∘ face = p := funext hp
  refine costs_of_faces ?_
  have hmap : ∀ qs : List Request, (qs.filter p).map face = (qs.map face).filter p := by
    intro qs
    rw [filter_map, hcomp]
  rw [hmap, hmap, h]

theorem busiest_of_faces : ∀ {rs rs' : List Request} {m : Nat}, rs'.map face = rs.map face →
    busiest m rs' = busiest m rs := by
  have hface : ∀ (qs : List Request) (m : Nat), busiest m (qs.map face) = busiest m qs := by
    intro qs m
    unfold busiest
    rw [foldl_map]
    rfl
  intro rs rs' m h
  rw [← hface rs', h, hface]

theorem Faces.refl (t : SlotTable .request Request) : Faces t t := fun _ => rfl

variable {t t' : SlotTable .request Request}

theorem Faces.find (h : Faces t t') {r' : Request}
    (hr' : t'.find? x = some r') : ∃ r, t.find? x = some r ∧ face r' = face r := by
  have hx := h x
  rw [hr'] at hx
  obtain ⟨r, hr, hface⟩ := Option.map_eq_some_iff.mp hx.symm
  exact ⟨r, hr, hface.symm⟩

def InOrder (t : SlotTable .request Request) (queue : List RequestId) : Prop :=
  queue.Pairwise fun x y => ∀ r q, t.find? x = some r → t.find? y = some q → r.sequence < q.sequence

theorem InOrder.faces {queue : List RequestId}
    (h : InOrder t queue) (hf : Faces t t') : InOrder t' queue := by
  refine h.imp ?_
  intro x y hlt r' q' hr' hq'
  obtain ⟨r, hr, hface⟩ := hf.find hr'
  obtain ⟨q, hq, hface'⟩ := hf.find hq'
  rw [(spec_of_face hface).2.1, (spec_of_face hface').2.1]
  exact hlt r q hr hq

theorem admit_burden {rest : List RequestId} {r r' q : Request}
    (hqueue : a.queued = id :: rest) (hr : a.requests.find? id = some r) (hface : face r' = face r)
    (hbef : r.sequence < q.sequence) : burden { a with
      ledger
      requests := a.requests.set id r'
      queued := rest
      waiting := a.waiting ++ [id] } q.spec q.sequence = a.burden q.spec q.sequence := by
  generalize hb : ({ a with
      ledger
      requests := a.requests.set id r'
      queued := rest
      waiting := a.waiting ++ [id] } : Admission) = b
  have hfaces : Faces a.requests b.requests := by
    rw [← hb]
    exact Faces.set hr hface
  have hrest := hfaces.rows rest
  have hwait : costs (b.rows b.waiting) = costs (a.rows a.waiting) + cost r := by
    rw [costs_of_faces (hfaces.rows b.waiting), ← hb]
    rw [rows_append, costs_append, rows_cons hr]
    rfl
  have hpred : costs (a.predecessors q.sequence) = cost r + costs (b.predecessors q.sequence) := by
    unfold predecessors
    rw [hqueue, rows_cons hr, filter_cons, if_pos (decide_eq_true hbef), costs_cons, ← hb]
    show _ = cost r + costs ((rows _ rest).filter _)
    rw [hb, costs_filter_of_faces hrest fun _ => rfl]
  have hove : costs (b.overtakers q.spec q.sequence) = costs (a.overtakers q.spec q.sequence) := by
    unfold overtakers
    rw [hqueue, rows_cons hr, filter_cons, if_neg (by simp; omega), ← hb]
    show costs ((rows _ rest).filter _) = _
    rw [hb, costs_filter_of_faces hrest fun _ => rfl]
  have hrun : busiest 0 (b.rows b.running) = busiest 0 (a.rows a.running) := by
    rw [busiest_of_faces (hfaces.rows b.running), ← hb]
  have hpaused : costs (b.rows b.paused.toList) = costs (a.rows a.paused.toList) := by
    rw [costs_of_faces (hfaces.rows b.paused.toList), ← hb]
  unfold burden
  omega

theorem start_burden (hc : a.Consistent) (hrun : a.running = []) {r q : Request}
    (hx : x ∈ a.waiting) (hr : a.requests.find? x = some r) (hfaces : Faces a.requests t) :
    burden { a with
      ledger
      requests := t
      waiting := erase a.waiting x
      running := a.running ++ [x] } q.spec q.sequence = a.burden q.spec q.sequence := by
  generalize hb : ({ a with
      ledger
      requests := t
      waiting := erase a.waiting x
      running := a.running ++ [x] } : Admission) = b
  have hfaces' : Faces a.requests b.requests := by
    rw [← hb]
    exact hfaces
  have hslot : busiest 0 (b.rows b.running) = cost r := by
    rw [busiest_of_faces (hfaces'.rows b.running), ← hb]
    rw [hrun, nil_append, rows_cons hr]
    exact Nat.zero_max (cost r)
  have hwait : costs (a.rows a.waiting) = cost r + costs (b.rows b.waiting) := by
    rw [costs_of_faces (hfaces'.rows b.waiting), ← hb]
    have hperm : a.waiting.Perm (x :: erase a.waiting x) := by
      have hnodup : a.waiting.Nodup := hc.listed.nodup .waiting
      have herase : erase a.waiting x = a.waiting.erase x := by
        rw [hnodup.erase_eq_filter]
        refine filter_congr ?_
        intro y _
        by_cases hy : y = x <;> simp [hy]
      rw [herase]
      exact perm_cons_erase hx
    have hrows : (a.rows a.waiting).Perm (a.rows (x :: erase a.waiting x)) := hperm.filterMap _
    rw [costs_perm hrows, rows_cons hr, costs_cons]
  have hqueued : b.queued = a.queued := by rw [← hb]
  have hpred : costs (b.predecessors q.sequence) = costs (a.predecessors q.sequence) := by
    unfold predecessors
    rw [hqueued]
    exact costs_filter_of_faces (hfaces'.rows a.queued) fun _ => rfl
  have hove : costs (b.overtakers q.spec q.sequence) = costs (a.overtakers q.spec q.sequence) := by
    unfold overtakers
    rw [hqueued]
    exact costs_filter_of_faces (hfaces'.rows a.queued) fun _ => rfl
  have hpaused : costs (b.rows b.paused.toList) = costs (a.rows a.paused.toList) := by
    rw [costs_of_faces (hfaces'.rows b.paused.toList), ← hb]
  have hbef : busiest 0 (a.rows a.running) = 0 := by
    rw [hrun]
    rfl
  unfold burden
  omega

/-- What the second loop leaves of the queue, its requests' faces and their burdens. -/
structure Admits (a b : Admission) : Prop where
  faces : Faces a.requests b.requests
  domain : b.domain = a.domain
  settings : b.settings = a.settings
  domains : b.ledger.domains = a.ledger.domains
  queued : b.queued.Sublist a.queued
  burden : ∀ x q, x ∈ b.queued → a.requests.find? x = some q →
    b.burden q.spec q.sequence = a.burden q.spec q.sequence

theorem Admits.refl (a : Admission) : Admits a a :=
  ⟨.refl _, rfl, rfl, rfl, .refl _, fun _ _ _ _ => rfl⟩

theorem grant_domains {l l' : CommitmentLedger} {d : DomainId} {envelope : Envelope} {g : GrantId}
    (h : l.grant d envelope = (.ok g, l')) : l'.domains = l.domains := by
  unfold CommitmentLedger.grant at h
  split at h
  · cases h
  split at h
  · cases h
  cases h
  rfl

theorem admitQueued_admits (fuel : Nat) : ∀ {a a' : Admission}, admitQueued fuel a = .ok a' →
    InOrder a.requests a.queued → Admits a a' := by
  induction fuel with
  | zero =>
    intro a a' h _
    cases h
    exact .refl a
  | succ fuel ih =>
    intro a a' h horder
    unfold admitQueued at h
    split at h
    · cases h
      exact .refl a
    rename_i id rest hqueue
    obtain ⟨r, hr, h⟩ := bind_ok h
    have hfind := request_find hr
    split at h
    next error ledger hgrant =>
      cases h
      obtain rfl := grant_error hgrant
      exact .refl a
    rename_i g ledger hgrant
    have hface : face { r with grant := some g, state := .waiting } = face r := rfl
    have hfaces := Faces.set hfind hface
    rw [hqueue] at horder
    obtain ⟨hhead, hrest⟩ := List.pairwise_cons.mp horder
    obtain ⟨hf, hd, hs, hl, hq, hbur⟩ := ih h (InOrder.faces hrest hfaces)
    refine ⟨hfaces.trans hf, hd, hs, hl.trans (grant_domains hgrant), ?_, ?_⟩
    · rw [hqueue]
      exact hq.cons id
    intro x q hx hqx
    obtain ⟨q', hq', hfq⟩ : ∃ q', (a.requests.set id
        { r with grant := some g, state := .waiting }).find? x = some q' ∧ face q' = face q := by
      have hsame := hfaces x
      rw [hqx] at hsame
      obtain ⟨q', hq', heq⟩ := Option.map_eq_some_iff.mp hsame
      exact ⟨q', hq', heq⟩
    obtain ⟨hspec, hseq, -⟩ := spec_of_face hfq
    have hstep := hbur x q' hx hq'
    rw [hspec, hseq] at hstep
    rw [hstep]
    exact admit_burden hqueue hfind hface (hhead x (hq.subset hx) r q hfind hqx)

theorem admitQueued_same {fuel : Nat} (h : admitQueued fuel a = .ok a')
    (horder : InOrder a.requests a.queued) {q : Request} (hx : x ∈ a'.queued)
    (hq : a.requests.find? x = some q) (hbeh : a.behind q.spec q.sequence = false) : a' = a := by
  rcases fuel with _ | fuel
  · cases h
    rfl
  unfold admitQueued at h
  split at h
  · cases h
    rfl
  rename_i id rest hqueue
  obtain ⟨r, hr, h⟩ := bind_ok h
  have hfind := request_find hr
  split at h
  next error ledger hgrant =>
    cases h
    obtain rfl := grant_error hgrant
    rfl
  rename_i g ledger hgrant
  have hface : face { r with grant := some g, state := .waiting } = face r := rfl
  rw [hqueue] at horder
  obtain ⟨hhead, hrest⟩ := List.pairwise_cons.mp horder
  have hmem := (admitQueued_admits fuel h (InOrder.faces hrest (Faces.set hfind hface))).queued.subset hx
  have hbef := hhead x hmem r q hfind hq
  unfold behind at hbeh
  rw [Bool.or_eq_false_iff, hqueue, rows_cons hfind, any_cons, Bool.or_eq_false_iff] at hbeh
  exact absurd hbef (of_decide_eq_false hbeh.1.1)

def Worth (l l' : CommitmentLedger) (d : DomainId) : Prop :=
  ∀ state, l.domains.find? d = some state → ∃ state', l'.domains.find? d = some state' ∧
    state'.fixed = state.fixed ∧ state'.budget = state.budget

theorem totals_state {l : CommitmentLedger} {d : DomainId} {totals : CommitmentTotals}
    (h : l.totals d = some totals) : ∃ state, l.domains.find? d = some state ∧
      totals.fixed = state.fixed ∧ totals.budget = state.budget := by
  unfold CommitmentLedger.totals at h
  split at h
  · cases h
  rename_i found heval
  cases h
  unfold CommitmentLedger.evaluate at heval
  split at heval
  · cases heval
  rename_i state hd
  split at heval
  · cases heval
  simp only at heval
  split at heval
  · split at heval
    · cases heval
    cases heval
    exact ⟨state, hd, rfl, rfl⟩
  · cases heval

theorem fitsAlone_worth (ha : a.Readable) (hb : b.Readable) (hdom : b.domain = a.domain)
    (h : Worth a.ledger b.ledger a.domain) (spec : RequestSpec) :
    b.fitsAlone spec = a.fitsAlone spec := by
  obtain ⟨totals, ht⟩ := Option.isSome_iff_exists.mp ha.totals
  obtain ⟨totals', ht'⟩ := Option.isSome_iff_exists.mp hb.totals
  obtain ⟨state, hd, hfixed, hbud⟩ := totals_state ht
  obtain ⟨state', hd', hfixed', hbud'⟩ := totals_state ht'
  rw [hdom] at hd'
  obtain ⟨state1, hd1, hf, hB⟩ := h state hd
  cases hd'.symm.trans hd1
  unfold fitsAlone Admission.totals
  rw [ht, ht']
  simp only [require, ok_bind]
  rw [hfixed', hbud', hf, hB, hfixed, hbud]

/-- **What admitting and starting leave queued has no worse estimate.** -/
structure Lighter (a b : Admission) (now : Tick) : Prop where
  settings : b.settings = a.settings
  fits : ∀ spec, b.fitsAlone spec = a.fitsAlone spec
  queued : ∀ x r', x ∈ b.queued → b.requests.find? x = some r' →
    x ∈ a.queued ∧ ∃ r, a.requests.find? x = some r ∧ face r' = face r ∧
      ∀ w, w ≤ uint64Max → a.waitAhead r.spec r.sequence now = .ok (some w) →
        ∃ w', w' ≤ w ∧ b.waitAhead r.spec r.sequence now = .ok (some w')

theorem giveSlot_faces (hc : a.Consistent) (h : a.giveSlot now = .ok (decision, a')) :
    Faces a.requests a'.requests ∧ Worth a.ledger a'.ledger a.domain ∧ a'.domain = a.domain ∧
      a'.settings = a.settings ∧ a'.queued = a.queued ∧
      ∀ q : Request, a'.burden q.spec q.sequence = a.burden q.spec q.sequence := by
  rcases giveSlot_eq hc h with rfl |
    ⟨hrun, -, x, rx, rt, t, ledger, hfirst, hrx, hrt, -, hfind, hmoney, rfl⟩
  · exact ⟨.refl _, fun state hd => ⟨state, hd, rfl, rfl⟩, rfl, rfl, rfl, fun _ => rfl⟩
  have haged : Faces a.requests t := by
    intro y
    rw [hfind y, Option.map_map]
    refine congrArg (fun f => Option.map f _) (funext fun r => ?_)
    show face (agedBy _ _ _ _ r) = face r
    unfold agedBy
    split
    · unfold passOver
      split <;> rfl
    · rfl
  have hfaces : Faces a.requests (t.set x (start now rt)) := haged.trans (Faces.set hrt rfl)
  refine ⟨hfaces, ?_, rfl, rfl, rfl, fun q => start_burden hc hrun hfirst.1 hrx hfaces⟩
  intro state hd
  obtain ⟨state', hd', hf, -, hB⟩ := hmoney.domain state hd
  exact ⟨state', hd', hf, hB⟩

theorem giveSlot_idle (hc : a.Consistent) (hidle : a.Idle)
    (h : a.giveSlot now = .ok (decision, a')) : a' = a := by
  rcases giveSlot_eq hc h with rfl | ⟨hrun, -, x, -, -, -, -, hfirst, -⟩
  · rfl
  have hx := hfirst.1
  rw [hidle hrun] at hx
  cases hx

theorem admits_lighter {fuel : Nat} {a1 : Admission} (hc : a.Consistent)
    (hidle : a.Idle) (horder : InOrder a.requests a.queued) (hqueue : admitQueued fuel a = .ok a1)
    (hc1 : a1.Consistent) (hslot : a1.giveSlot now = .ok (decision, a')) (hc' : a'.Consistent) :
    Lighter a a' now := by
  have hadm := admitQueued_admits fuel hqueue horder
  obtain ⟨hfaces, hworth, hdom, hset, hqueued, hbur⟩ := giveSlot_faces hc1 hslot
  have hworth' : Worth a.ledger a'.ledger a.domain := by
    intro state hd
    rw [← hadm.domains] at hd
    rw [hadm.domain] at hworth
    exact hworth state hd
  refine ⟨hset.trans hadm.settings,
    fitsAlone_worth hc.readable hc'.readable (hdom.trans hadm.domain) hworth', ?_⟩
  intro x r' hx hr'
  obtain ⟨r, hr, hface⟩ := (hadm.faces.trans hfaces).find hr'
  rw [hqueued] at hx
  refine ⟨hadm.queued.subset hx, r, hr, hface, ?_⟩
  intro w hrange hwait
  cases hbeh : a.behind r.spec r.sequence with
  | true =>
    obtain rfl := waitAhead_behind hc.readable hbeh hwait
    have hsame := (hbur r).trans (hadm.burden x r hx hr)
    obtain ⟨w', hw', heq⟩ := waitAhead_le hc'.readable (hsame ▸ hrange) now
    exact ⟨w', hsame ▸ hw', heq⟩
  | false =>
    obtain rfl := admitQueued_same hqueue horder hx hr hbeh
    obtain rfl := giveSlot_idle hc hidle hslot
    exact ⟨w, Nat.le_refl w, hwait⟩

/-! ## Nothing left to do -/

theorem Runnable.faces (h : a.Runnable r now) (hface : face r' = face r) : a.Runnable r' now := by
  obtain ⟨hspec, hseq, hsub⟩ := spec_of_face hface
  unfold Runnable unrunnable at h ⊢
  rw [hspec, hseq, hsub]
  exact h

theorem refuseQueued_none (hc : a.Consistent)
    (hkept : ∀ x r, x ∈ a.queued → a.requests.find? x = some r → a.Runnable r now) (fuel : Nat) :
    ∀ (i : Nat) (refused : List (RequestId × AdmissionError)),
      refuseQueued now fuel i refused a = .ok (refused, a) := by
  induction fuel with
  | zero => exact fun i refused => rfl
  | succ fuel ih =>
    intro i refused
    unfold refuseQueued
    split
    · rfl
    rename_i x hx
    have hmem := mem_of_getElem? hx
    obtain ⟨r, hr⟩ := (hc.listed.alive .queued).find hmem
    have hrun : a.unrunnable r now = .ok none := hkept x r hmem hr
    simp only [request_ok hr, ok_bind, hrun]
    exact ih (i + 1) refused

theorem admitQueued_none (hc : a.Consistent) (h : a.Refuses) (fuel : Nat) :
    admitQueued fuel a = .ok a := by
  rcases fuel with _ | fuel
  · rfl
  unfold admitQueued
  split
  · rfl
  rename_i x rest hqueue
  obtain ⟨r, hr⟩ := (hc.listed.alive .queued).find (x := x) (by
    show x ∈ a.queued
    rw [hqueue]
    exact mem_cons_self)
  rw [request_ok hr, ok_bind]
  have href := h x r (by rw [hqueue]; rfl) hr
  cases hgrant : a.ledger.grant a.domain r.spec.envelope with
  | mk outcome =>
    cases outcome with
    | error =>
      obtain rfl := grant_error hgrant
      rfl
    | ok g =>
      refine absurd ⟨g, ?_⟩ href
      rw [hgrant]

theorem giveSlot_none (hidle : a.Idle) : a.giveSlot now = .ok ({}, a) := by
  unfold giveSlot
  split
  · rfl
  rename_i hfree
  have hrun : a.running = [] := by
    cases hr : a.running with
    | nil => rfl
    | cons => simp [hr] at hfree
  have hwait := hidle hrun
  have hpeek : a.peekNext = .ok none := by
    unfold peekNext
    rw [hwait]
    rfl
  unfold chooseNext
  rw [hpeek]
  rfl

theorem drain_none (hc : a.Consistent) (hidle : a.Idle) (href : a.Refuses)
    (hkept : ∀ x r, x ∈ a.queued → a.requests.find? x = some r → a.Runnable r now) :
    a.drain now = .ok ({}, a) := by
  unfold drain
  rw [refuseQueued_none hc hkept, ok_bind]
  simp only
  rw [admitQueued_none hc href, ok_bind, giveSlot_none hidle]
  rfl

/-- **A drain leaves nothing for another at its tick**, in every reachable state: what its first loop
    keeps and the others leave queued is to be kept in the end, since admitting and starting make no
    estimate worse. A refusal leaves every other that is queued as able to run. -/
theorem reachable_drain_idempotent (h : Reachable a) (now : Tick) :
    (∃ decision a' refused a₁, a.drain now = .ok (decision, a') ∧ a'.drain now = .ok ({}, a') ∧
      refuseQueued now a.queued.length 0 [] a = .ok (refused, a₁) ∧
      ∀ x r, x ∈ a'.queued → a'.requests.find? x = some r →
        a₁.Runnable r now ∧ a'.Runnable r now ∧
        ∀ w, w ≤ uint64Max → a₁.waitAhead r.spec r.sequence now = .ok (some w) →
          ∃ w', w' ≤ w ∧ a'.waitAhead r.spec r.sequence now = .ok (some w')) ∧
    ∀ i id x r, a.queued[i]? = some id → x ∈ a.queued → a.requests.find? x = some r →
      a.Runnable r now → (a.refuseAt i id).Runnable r now := by
  obtain ⟨hc, hidle⟩ := h.consistent
  refine ⟨?_, ?_⟩
  · rcases hdrain : a.drain now with _ | y
    · exact ((hc.drain now).err hdrain).elim
    obtain ⟨decision, a'⟩ := y
    obtain ⟨hc', hidle', -⟩ := (hc.drain now).val hdrain
    have href := drain_refuses hc hdrain
    have hrun := hdrain
    obtain ⟨⟨refused, a₁⟩, hrefuse, hrun⟩ := bind_ok hrun
    obtain ⟨a2, hqueue, hrun⟩ := bind_ok hrun
    obtain ⟨⟨slot, a3⟩, hslot, hrun⟩ := bind_ok hrun
    cases hrun
    obtain ⟨hc1, -, hrunn, hwaiting, hkept⟩ := refuseQueued_kept now _ 0 [] hrefuse hc (by omega)
      (fun _ _ _ hj => absurd hj (Nat.not_lt_zero _))
    have hc2 := ((Consistent.admitQueued _ hc1).val hqueue).1
    have hidle1 : a₁.Idle := by
      intro hempty
      rw [hwaiting]
      exact hidle (hrunn ▸ hempty)
    have horder : InOrder a₁.requests a₁.queued :=
      (h.aging.goes (refuseQueued_goes now _ 0 [] hrefuse)).order
    have hlig := admits_lighter hc1 hidle1 horder hqueue hc2 hslot hc'
    have hqueued : ∀ x r, x ∈ a'.queued → a'.requests.find? x = some r →
        a₁.Runnable r now ∧ a'.Runnable r now ∧
        ∀ w, w ≤ uint64Max → a₁.waitAhead r.spec r.sequence now = .ok (some w) →
          ∃ w', w' ≤ w ∧ a'.waitAhead r.spec r.sequence now = .ok (some w') := by
      intro x r' hx hr'
      obtain ⟨hx1, r, hr, hface, hwait⟩ := hlig.queued x r' hx hr'
      have hrunna := hkept x r hx1 hr
      obtain ⟨hspec, hseq, -⟩ := spec_of_face hface
      refine ⟨hrunna.faces hface, ?_, ?_⟩
      · exact (hrunna.mono (hlig.fits _) hlig.settings hwait).faces hface
      rw [hspec, hseq]
      exact hwait
    exact ⟨_, a', refused, a₁, rfl,
      drain_none hc' hidle' href fun x r hx hr => (hqueued x r hx hr).2.1, hrefuse, hqueued⟩
  intro i id x r hi _ _ hrunna
  exact (refuseAt_fewer hc hi).runnable hc.readable (hc.refuseAt hi).readable hrunna

/-- A request runs that retains six bytes of nine, and two are queued that retain as much; the first
    of them has a deadline. -/
def outwaited : List Op :=
  let envelope : Envelope := { retained := ⟨6, by decide⟩ }
  [.submit { envelope, work := 2 } 0, .submit { envelope, deadline := some 5 } 0,
    .submit { envelope } 0]

def refusedAt (now : Tick) (run : Checked Admission) : Option (List (RequestId × AdmissionError)) :=
  match run >>= fun a => a.drain now with
  | .ok (decision, _) => some decision.refused
  | .error _ => none

theorem reachable_drain_idempotent_outwaited :
    ∃ a decision a', Reachable a ∧ a.drain 9 = .ok (decision, a') ∧
      decision.refused = [(⟨1, 1⟩, .deadline)] ∧ a'.drain 9 = .ok ({}, a') := by
  have href : refusedAt 9 (after outwaited) = some [(⟨1, 1⟩, .deadline)] := by decide +kernel
  rcases hrun : after outwaited with _ | a
  · rw [hrun] at href
    cases href
  obtain ⟨a0, hcreate, heve⟩ := bind_ok hrun
  have hreach := reachable_events (.init oneDomain_fresh hcreate) heve
  obtain ⟨⟨decision, a', _, _, hdrain, hagain, -⟩, -⟩ := reachable_drain_idempotent hreach 9
  refine ⟨a, decision, a', hreach, hdrain, ?_, hagain⟩
  unfold refusedAt at href
  rw [hrun, ok_bind, hdrain] at href
  exact Option.some.inj href

end JitLlm.Admission
