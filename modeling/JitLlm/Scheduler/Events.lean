import JitLlm.Base.Issued
import JitLlm.Memory.Rooms
import JitLlm.Scheduler.Admitted
import Mathlib.Data.Prod.Lex

/-!
# What an event does to each request

An event of the admission is a few steps in which no request is selected (`Goes`), and at most one
selection at its end (`Selects`); a submitted request comes in before, and a `Join` lets one run
without selecting it. `Happens` lists them, and every event is one of them (`Consistent.happens`).
What holds of requests across whole runs is then proved by its cases.
-/

namespace JitLlm.Admission

open Base Lib Memory Option

variable {a a' b c : Admission} {id x y : RequestId} {now : Tick}
    {answer : Memory.Result Unit × CommitmentLedger} {decision : Decision} {envelope : Envelope}
    {spec : RequestSpec}

/-! ## Writes of the request table -/

inductive Writes (t : SlotTable .request Request) : SlotTable .request Request → Prop
  | refl : Writes t t
  | set {t' : SlotTable .request Request} (id : RequestId) (r : Request) :
      Writes t t' → Writes t (t'.set id r)
  | erase {t' : SlotTable .request Request} (id : RequestId) : Writes t t' → Writes t (t'.erase id)

section Writes

variable {t t1 t' : SlotTable .request Request}

theorem Writes.trans (h : Writes t t1) (h' : Writes t1 t') : Writes t t' := by
  induction h' with
  | refl => exact h
  | set id r _ ih => exact .set id r ih
  | erase id _ ih => exact .erase id ih

theorem Writes.issued {n : Nat} (h : Writes t t') (hn : t.Issued n) : t'.Issued n := by
  induction h with
  | refl => exact hn
  | set id r _ ih => exact ih.set id r
  | erase id _ ih => exact ih.erase id

end Writes

/-! ## Steps without a selection -/

structure Request.Stays (r r' : Request) : Prop where
  requestClass : r'.spec.requestClass = r.spec.requestClass
  sequence : r'.sequence = r.sequence
  passedOver : r'.passedOver = r.passedOver
  state : r'.state = r.state ∨ (r.state = .paused ∧ r'.state = .running) ∨
    (r.state = .queued ∧ r'.state = .waiting)

theorem Request.Stays.refl (r : Request) : Request.Stays r r := ⟨rfl, rfl, rfl, .inl rfl⟩

theorem Request.Stays.trans {r r1 r' : Request} (h : r.Stays r1) (h' : r1.Stays r') : r.Stays r' := by
  refine ⟨h'.requestClass.trans h.requestClass, h'.sequence.trans h.sequence,
    h'.passedOver.trans h.passedOver, ?_⟩
  rcases h.state with hs | ⟨hs, hs1⟩ | ⟨hs, hs1⟩
  · rw [← hs]
    exact h'.state
  · rcases h'.state with hs' | ⟨hs', -⟩ | ⟨hs', -⟩
    · exact .inr (.inl ⟨hs, hs'.trans hs1⟩)
    · rw [hs1] at hs'
      cases hs'
    rw [hs1] at hs'
    cases hs'
  rcases h'.state with hs' | ⟨hs', -⟩ | ⟨hs', -⟩
  · exact .inr (.inr ⟨hs, hs'.trans hs1⟩)
  · rw [hs1] at hs'
    cases hs'
  rw [hs1] at hs'
  cases hs'

/-- Requests leave, are admitted or resume, and none is selected. -/
structure Goes (a b : Admission) : Prop where
  settings : b.settings = a.settings
  nextSequence : b.nextSequence = a.nextSequence
  writes : Writes a.requests b.requests
  queued : b.queued.Sublist a.queued
  request : ∀ x r', b.requests.find? x = some r' →
    ∃ r, a.requests.find? x = some r ∧ r.Stays r'

theorem Goes.refl (a : Admission) : Goes a a :=
  ⟨rfl, rfl, .refl, .refl _, fun _ r hr => ⟨r, hr, .refl r⟩⟩

theorem Goes.trans (h : Goes a b) (h' : Goes b c) : Goes a c := by
  refine ⟨h'.settings.trans h.settings, h'.nextSequence.trans h.nextSequence,
    h.writes.trans h'.writes, h'.queued.trans h.queued, ?_⟩
  intro x r' hr'
  obtain ⟨r1, hr1, hs1⟩ := h'.request x r' hr'
  obtain ⟨r, hr, hs⟩ := h.request x r1 hr1
  exact ⟨r, hr, hs.trans hs1⟩

variable {r r' : Request}

theorem Goes.set (hr : a.requests.find? id = some r) (hs : r.Stays r') :
    Goes a { a with requests := a.requests.set id r' } := by
  refine ⟨rfl, rfl, .set id r' .refl, .refl _, ?_⟩
  intro x q hq
  simp only [SlotTable.find?_set] at hq
  split at hq
  next hx =>
    subst hx
    rw [hr] at hq
    cases hq
    exact ⟨r, hr, hs⟩
  · exact ⟨q, hq, .refl q⟩

theorem Goes.erase (a : Admission) (id : RequestId) :
    Goes a { a with requests := a.requests.erase id } := by
  refine ⟨rfl, rfl, .erase id .refl, .refl _, ?_⟩
  intro x q hq
  simp only [SlotTable.find?_erase] at hq
  split at hq
  · cases hq
  · exact ⟨q, hq, .refl q⟩

theorem Goes.lists (h : Goes a b) (hs : c.settings = b.settings)
    (hn : c.nextSequence = b.nextSequence) (hr : c.requests = b.requests)
    (hq : c.queued.Sublist b.queued) : Goes a c := by
  refine h.trans ⟨hs, hn, hr ▸ .refl, hq, ?_⟩
  rw [hr]
  exact fun x r hx => ⟨r, hx, .refl r⟩

theorem Goes.ledger (a : Admission) (ledger : CommitmentLedger) : Goes a { a with ledger } :=
  (Goes.refl a).lists rfl rfl rfl (.refl _)

variable {r : Request}

theorem request_find (h : a.request id = .ok r) : a.requests.find? id = some r := by
  unfold Admission.request require at h
  rcases hr : a.requests.find? id with _ | _
  · rw [hr] at h
    cases h
  rw [hr] at h
  cases h
  rfl

theorem modify_eq {f : Request → Request} (h : a.modify id f = .ok b) :
    ∃ r, a.requests.find? id = some r ∧ b = { a with requests := a.requests.set id (f r) } := by
  obtain ⟨r, hr, h⟩ := bind_ok h
  cases h
  exact ⟨r, request_find hr, rfl⟩

variable {ledger : CommitmentLedger}

theorem ensure_ok {fatal : Fatal} (h : ensure fatal answer = .ok ledger) : ledger = answer.2 := by
  obtain ⟨outcome, ledger'⟩ := answer
  cases outcome with
  | error => cases h
  | ok =>
    cases h
    rfl

theorem syncCohort_eq (h : a.syncCohort = .ok b) :
    ∃ ledger, b = { a with ledger } ∧ CommitmentLedger.Money a.ledger ledger a.domain := by
  obtain ⟨ledger, hclear, h⟩ := bind_ok h
  obtain ⟨cohort, -, h⟩ := bind_ok h
  obtain ⟨ledger', hset, h⟩ := bind_ok h
  have hmoney : CommitmentLedger.Money a.ledger ledger' a.domain := by
    rw [ensure_ok hset, ensure_ok hclear]
    exact (CommitmentLedger.Money.clearResumption _ _).trans (.setCohort _ _ _)
  split at h
  · obtain ⟨resumption, -, h⟩ := bind_ok h
    obtain ⟨grant, -, h⟩ := bind_ok h
    obtain ⟨ledger'', hres, h⟩ := bind_ok h
    cases h
    refine ⟨_, rfl, hmoney.trans ?_⟩
    rw [ensure_ok hres]
    exact .setResumption _ _ _ _
  cases h
  exact ⟨_, rfl, hmoney⟩

theorem refuseQueued_goes (now : Tick) (fuel : Nat) : ∀ (i : Nat)
    (refused : List (RequestId × AdmissionError)) {a : Admission}
    {y : List (RequestId × AdmissionError) × Admission},
    refuseQueued now fuel i refused a = .ok y → Goes a y.2 := by
  induction fuel with
  | zero =>
    intro i refused a y h
    cases h
    exact .refl a
  | succ fuel ih =>
    intro i refused a y h
    unfold refuseQueued at h
    split at h
    · cases h
      exact .refl a
    rename_i id hid
    obtain ⟨r, hr, h⟩ := bind_ok h
    obtain ⟨why, -, h⟩ := bind_ok h
    split at h
    · refine Goes.trans ?_ (ih _ _ h)
      exact (Goes.erase a id).lists rfl rfl rfl (List.eraseIdx_sublist ..)
    · exact ih _ _ h

theorem admitQueued_goes (fuel : Nat) : ∀ {a a' : Admission}, admitQueued fuel a = .ok a' →
    (∀ x ∈ a.queued, a.stateAt x = some .queued) → a.queued.Nodup → Goes a a' := by
  induction fuel with
  | zero =>
    intro a a' h _ _
    cases h
    exact .refl a
  | succ fuel ih =>
    intro a a' h hstate hnodup
    unfold admitQueued at h
    split at h
    · cases h
      exact .refl a
    rename_i id rest hq
    obtain ⟨r, hr, h⟩ := bind_ok h
    split at h
    · cases h
      exact (Goes.refl a).lists rfl rfl rfl (.refl _)
    rename_i grant ledger _
    have hfind := request_find hr
    have hqueued : r.state = .queued := by
      have hs := hstate id (by simp [hq])
      rw [stateAt, stateIn_of_find hfind] at hs
      exact some.inj hs
    have hstays : r.Stays { r with grant := some grant, state := .waiting } :=
      ⟨rfl, rfl, rfl, .inr (.inr ⟨hqueued, rfl⟩)⟩
    have hfirst : Goes a { a with
        ledger
        requests := a.requests.set id { r with grant := some grant, state := .waiting }
        queued := rest
        waiting := a.waiting ++ [id] } :=
      (Goes.set hfind hstays).lists rfl rfl rfl (by simp [hq])
    rw [hq] at hnodup
    obtain ⟨hnot, hnodup⟩ := List.nodup_cons.mp hnodup
    refine hfirst.trans (ih h ?_ hnodup)
    intro x hx
    have hne : x ≠ id := by
      rintro rfl
      exact hnot hx
    show stateIn _ x = _
    rw [stateIn_set hfind, if_neg hne]
    exact hstate x (by simp [hq, hx])

/-! ## The choice -/

def Request.aged (settings : PolicySettings) (r : Request) : Prop :=
  settings.agingLimit ≤ r.passedOver

instance (settings : PolicySettings) (r : Request) : Decidable (r.aged settings) :=
  inferInstanceAs (Decidable (_ ≤ _))

/-- Where a request stands among those that wait: the aged first, then the higher class, then the
    earlier sequence; the class of an aged one does not count. -/
def standing (settings : PolicySettings) (r : Request) : Nat ×ₗ Nat ×ₗ Nat :=
  if r.aged settings then toLex (0, toLex (0, r.sequence))
  else toLex (1, toLex (1 - r.spec.requestClass.rank, r.sequence))

theorem before_iff (settings : PolicySettings) (r r' : Request) :
    before settings r r' = true ↔ standing settings r < standing settings r' := by
  unfold before standing Request.aged
  by_cases h : settings.agingLimit ≤ r.passedOver <;>
    by_cases h' : settings.agingLimit ≤ r'.passedOver <;>
      cases hc : r.spec.requestClass <;> cases hc' : r'.spec.requestClass <;>
        simp [h, h', Prod.Lex.toLex_lt_toLex, RequestClass.rank]

def First (a : Admission) (ids : List RequestId) (x : RequestId) : Prop :=
  x ∈ ids ∧ ∃ r, a.requests.find? x = some r ∧ ∀ y ∈ ids, ∃ q,
    a.requests.find? y = some q ∧ standing a.settings r ≤ standing a.settings q

theorem peekNext_first (halive : a.Alive a.waiting) (h : a.peekNext = .ok (some x)) :
    a.First a.waiting x := by
  obtain ⟨chosen, hfold, h⟩ := bind_ok h
  have hchosen : (a.waiting = [] ∧ chosen.valid = false) ∨ a.First a.waiting chosen := by
    refine (Sat.foldlM (E := fun _ => True) (I := fun rest (chosen : RequestId) =>
      ∃ done, a.waiting = done ++ rest ∧ ((done = [] ∧ chosen.valid = false) ∨ a.First done chosen))
      ?_ ⟨[], rfl, .inl ⟨rfl, rfl⟩⟩).val hfold |> fun ⟨done, hdone, hinv⟩ => ?_
    · rintro chosen y rest ⟨done, hdone, hinv⟩
      have hy : y ∈ a.waiting := by simp [hdone]
      obtain ⟨q, hq⟩ := halive.find hy
      have hsplit : a.waiting = (done ++ [y]) ++ rest := by simp [hdone]
      split
      next hvalid =>
        rcases hinv with ⟨rfl, -⟩ | ⟨hmem, r, hr, -⟩
        · refine ⟨[y], by simpa using hdone, .inr ⟨List.mem_singleton.mpr rfl, q, hq, ?_⟩⟩
          intro z hz
          rw [List.mem_singleton.mp hz]
          exact ⟨q, hq, le_refl _⟩
        have hfound := SlotTable.find?_of_not_valid (t := a.requests)
          (by simpa using hvalid : chosen.valid = false)
        cases hr.symm.trans hfound
      rename_i hvalid
      rcases hinv with ⟨-, hnot⟩ | ⟨hmem, r, hr, hbest⟩
      · exact absurd (by simp [hnot]) hvalid
      rw [request_ok hq, request_ok hr]
      simp only [ok_bind]
      split
      next hbef =>
        have hlt := (before_iff a.settings q r).mp hbef
        refine ⟨done ++ [y], hsplit, .inr ⟨by simp, q, hq, ?_⟩⟩
        intro z hz
        rcases List.mem_append.mp hz with hz | hz
        · obtain ⟨p, hp, hle⟩ := hbest z hz
          exact ⟨p, hp, hlt.le.trans hle⟩
        rw [List.mem_singleton.mp hz]
        exact ⟨q, hq, le_refl _⟩
      rename_i hbef
      have hle := not_lt.mp ((before_iff a.settings q r).not.mp hbef)
      refine ⟨done ++ [y], hsplit, .inr ⟨by simp [hmem], r, hr, ?_⟩⟩
      intro z hz
      rcases List.mem_append.mp hz with hz | hz
      · exact hbest z hz
      rw [List.mem_singleton.mp hz]
      exact ⟨q, hq, hle⟩
    rw [List.append_nil] at hdone
    rw [hdone]
    exact hinv
  split at h
  next hvalid =>
    cases h
    rcases hchosen with ⟨-, hnot⟩ | hfirst
    · rw [hvalid] at hnot
      cases hnot
    · exact hfirst
  · cases h

/-- A choice of class `chosen`, as it ages the others that wait. -/
def agedBy (waiting : List RequestId) (x : RequestId) (chosen : RequestClass) (y : RequestId)
    (r : Request) : Request :=
  if y ∈ waiting ∧ y ≠ x then passOver chosen r else r

theorem age_all {chosen : RequestClass} (ids : List RequestId) (hnodup : ids.Nodup) :
    ∀ {a a' : Admission}, ids.foldlM (fun (a : Admission) id => a.modify id fun request =>
        if id ≠ x then passOver chosen request else request) a = .ok a' →
      ∃ t, a' = { a with requests := t } ∧ Writes a.requests t ∧
        ∀ y, t.find? y = (a.requests.find? y).map (agedBy ids x chosen y) := by
  induction ids with
  | nil =>
    intro a a' h
    cases h
    refine ⟨a.requests, rfl, .refl, ?_⟩
    intro y
    have hsame : agedBy [] x chosen y = fun r => r := by
      funext r
      simp [agedBy]
    rw [hsame]
    simp
  | cons id rest ih =>
    intro a a' h
    obtain ⟨a1, hmod, h⟩ := bind_ok h
    obtain ⟨r, hr, rfl⟩ := modify_eq hmod
    obtain ⟨hnot, hrest⟩ := List.nodup_cons.mp hnodup
    obtain ⟨t, rfl, hwrites, hfind⟩ := ih hrest h
    refine ⟨t, rfl, (Writes.set id _ .refl).trans hwrites, ?_⟩
    intro y
    rw [hfind y, SlotTable.find?_set]
    by_cases hy : y = id
    · subst hy
      simp [hr, agedBy, hnot]
    rw [if_neg hy]
    cases a.requests.find? y with
    | none => rfl
    | some => simp [agedBy, hy]

theorem chooseNext_eq (hnodup : a.waiting.Nodup) (h : a.chooseNext = .ok (some x, a')) :
    a.peekNext = .ok (some x) ∧ ∃ r t, a.requests.find? x = some r ∧
      a' = { a with requests := t } ∧ Writes a.requests t ∧
      ∀ y, t.find? y = (a.requests.find? y).map (agedBy a.waiting x r.spec.requestClass y) := by
  obtain ⟨chosen, hpeek, h⟩ := bind_ok h
  rcases chosen with _ | _
  · cases h
  obtain ⟨r, hr, h⟩ := bind_ok h
  obtain ⟨aged, hfold, h⟩ := bind_ok h
  cases h
  obtain ⟨t, rfl, hwrites, hfind⟩ := age_all a.waiting hnodup hfold
  exact ⟨hpeek, r, t, request_find hr, rfl, hwrites, hfind⟩

/-! ## Selections -/

/-- The waiting request `x` is selected: it stands first, and its class passes the others over. -/
structure Selects (b a' : Admission) (x : RequestId) : Prop where
  settings : a'.settings = b.settings
  nextSequence : a'.nextSequence = b.nextSequence
  writes : Writes b.requests a'.requests
  queued : a'.queued = b.queued
  domain : a'.domain = b.domain
  money : CommitmentLedger.Money b.ledger a'.ledger b.domain
  first : b.First b.waiting x
  present : ∀ y r, b.requests.find? y = some r → ∃ r', a'.requests.find? y = some r'
  request : ∀ rx, b.requests.find? x = some rx → ∀ y r', a'.requests.find? y = some r' →
    ∃ r, b.requests.find? y = some r ∧ r'.spec = r.spec ∧ r'.sequence = r.sequence ∧
      if y = x then r'.state = .running
      else r'.passedOver = (agedBy b.waiting x rx.spec.requestClass y r).passedOver ∧
        (r'.state = r.state ∨ (r.state = .running ∧ r'.state = .paused))

theorem agedBy_same (waiting : List RequestId) (x y : RequestId) (chosen : RequestClass)
    (r : Request) : (agedBy waiting x chosen y r).spec = r.spec ∧
      (agedBy waiting x chosen y r).sequence = r.sequence ∧
      (agedBy waiting x chosen y r).state = r.state := by
  unfold agedBy passOver
  split
  · split <;> exact ⟨rfl, rfl, rfl⟩
  · exact ⟨rfl, rfl, rfl⟩

theorem find_set_some {t : SlotTable .request Request}
    (h : t.find? y = some r) : ∃ q, (t.set id r').find? y = some q := by
  rw [SlotTable.find?_set]
  split
  next hy =>
    rw [← hy, h]
    exact ⟨r', rfl⟩
  · exact ⟨r, h⟩

theorem find_aged {t t' : SlotTable .request Request} {f : RequestId → Request → Request}
    (hfind : ∀ y, t'.find? y = (t.find? y).map (f y)) (h : t.find? y = some r) :
    t'.find? y = some (f y r) := by
  rw [hfind y, h]
  rfl

theorem giveSlot_eq (hc : a.Consistent) (h : a.giveSlot now = .ok (decision, a')) :
    a' = a ∨ (a.running = [] ∧ a.paused = none ∧ ∃ x rx rt t ledger,
      a.First a.waiting x ∧ a.requests.find? x = some rx ∧ t.find? x = some rt ∧
      Writes a.requests t ∧
      (∀ y, t.find? y = (a.requests.find? y).map (agedBy a.waiting x rx.spec.requestClass y)) ∧
      CommitmentLedger.Money a.ledger ledger a.domain ∧
      a' = { a with
        ledger
        requests := t.set x (start now rt)
        waiting := erase a.waiting x
        running := a.running ++ [x] }) := by
  unfold giveSlot at h
  split at h
  · cases h
    exact .inl rfl
  rename_i hfree
  simp only [Bool.or_eq_true, not_or, Bool.not_eq_true, Bool.not_eq_false', List.isEmpty_iff,
    isSome_eq_false_iff, isNone_iff_eq_none] at hfree
  obtain ⟨⟨next, a1⟩, hchoose, h⟩ := bind_ok h
  cases next with
  | none =>
    cases h
    obtain ⟨chosen, -, hchoose⟩ := bind_ok hchoose
    rcases chosen with _ | _
    · cases hchoose
      exact .inl rfl
    obtain ⟨_, -, hchoose⟩ := bind_ok hchoose
    obtain ⟨_, -, hchoose⟩ := bind_ok hchoose
    cases hchoose
  | some next =>
    obtain ⟨hpeek, rx, t, hrx, rfl, hwrites, hfind⟩ :=
      chooseNext_eq (hc.listed.nodup .waiting) hchoose
    obtain ⟨a2, hmod, h⟩ := bind_ok h
    obtain ⟨rt, hrt, rfl⟩ := modify_eq hmod
    obtain ⟨a3, hsync, h⟩ := bind_ok h
    cases h
    obtain ⟨ledger, rfl, hmoney⟩ := syncCohort_eq hsync
    exact .inr ⟨hfree.1, hfree.2, next, rx, rt, t, ledger,
      peekNext_first (hc.listed.alive .waiting) hpeek, hrx, hrt, hwrites, hfind, hmoney, rfl⟩

theorem giveSlot_selects (hc : a.Consistent) (h : a.giveSlot now = .ok (decision, a')) :
    a' = a ∨ (a.running = [] ∧ a.paused = none ∧ a'.paused = none ∧ ∃ x, Selects a a' x) := by
  rcases giveSlot_eq hc h with rfl |
    ⟨hrun, hpaused, next, rx, rt, t, ledger, hfirst, hrx, hrt, hwrites, hfind, hmoney, rfl⟩
  · exact .inl rfl
  refine .inr ⟨hrun, hpaused, hpaused, next, rfl, rfl, .set next _ hwrites, rfl, rfl, hmoney,
    hfirst, fun y r hr => find_set_some (find_aged hfind hr), ?_⟩
  intro rx' hrx' y r' hr'
  cases hrx.symm.trans hrx'
  simp only [SlotTable.find?_set] at hr'
  by_cases hy : y = next
  · subst hy
    rw [if_pos rfl, hrt] at hr'
    cases hr'
    rw [hfind y, hrx] at hrt
    cases hrt
    obtain ⟨hspec, hseq, -⟩ := agedBy_same a.waiting y y rx.spec.requestClass rx
    refine ⟨rx, hrx, hspec, hseq, ?_⟩
    rw [if_pos rfl]
    rfl
  rw [if_neg hy, hfind y] at hr'
  obtain ⟨r, hr, rfl⟩ := map_eq_some_iff.mp hr'
  obtain ⟨hspec, hseq, hstate⟩ := agedBy_same a.waiting next y rx.spec.requestClass r
  refine ⟨r, hr, hspec, hseq, ?_⟩
  rw [if_neg hy]
  exact ⟨rfl, .inl hstate⟩

theorem pauseFor_selects (hc : a.Consistent) {candidate : RequestId}
    (hid : a.stateAt id = some .running) (hne : candidate ≠ id)
    (h : a.pauseFor id candidate now = .ok (decision, a')) : Selects a a' candidate := by
  obtain ⟨⟨next, a1⟩, hchoose, hrest⟩ := bind_ok h
  obtain ⟨u, hcheck, hrest'⟩ := bind_ok hrest
  have hnext : next = some candidate := by
    unfold check at hcheck
    obtain ⟨hd, hcheck⟩ := then_ok hcheck
    exact of_decide_eq_true hd
  subst hnext
  obtain ⟨hpeek, rx, t, hrx, rfl, hwrites, hfind⟩ :=
    chooseNext_eq (hc.listed.nodup .waiting) hchoose
  obtain ⟨a2, hpause, hgoes⟩ := bind_ok hrest'
  obtain ⟨rp, hrp, rfl⟩ := modify_eq hpause
  obtain ⟨a3, hstart, hgoes'⟩ := bind_ok hgoes
  obtain ⟨rc, hrc, rfl⟩ := modify_eq hstart
  obtain ⟨a4, hsync, hdone⟩ := bind_ok hgoes'
  cases hdone
  obtain ⟨ledger, rfl, hmoney⟩ := syncCohort_eq hsync
  refine ⟨rfl, rfl, .set candidate _ (.set id _ hwrites), rfl, rfl, hmoney,
    peekNext_first (hc.listed.alive .waiting) hpeek,
    fun y r hr => (find_set_some (find_aged hfind hr)).elim fun _ hq => find_set_some hq, ?_⟩
  intro rx' hrx' y r' hr'
  cases hrx.symm.trans hrx'
  have hrp' : t.find? id = some rp := hrp
  have hrc' : (t.set id { rp with state := .paused, pauses := rp.pauses + 1 }).find? candidate =
      some rc := hrc
  rw [SlotTable.find?_set, if_neg hne] at hrc'
  rw [SlotTable.find?_set, SlotTable.find?_set, SlotTable.find?_set, if_neg hne] at hr'
  by_cases hy : y = candidate
  · subst hy
    rw [if_pos rfl, hrc'] at hr'
    cases hr'
    rw [hfind y, hrx] at hrc'
    cases hrc'
    obtain ⟨hspec, hseq, -⟩ := agedBy_same a.waiting y y rx.spec.requestClass rx
    refine ⟨rx, hrx, hspec, hseq, ?_⟩
    rw [if_pos rfl]
    rfl
  rw [if_neg hy] at hr'
  simp only [if_neg hy]
  by_cases hp : y = id
  · subst hp
    rw [if_pos rfl, hrp'] at hr'
    cases hr'
    rw [hfind y] at hrp'
    obtain ⟨r, hr, rfl⟩ := map_eq_some_iff.mp hrp'
    obtain ⟨hspec, hseq, -⟩ := agedBy_same a.waiting candidate y rx.spec.requestClass r
    refine ⟨r, hr, hspec, hseq, rfl, .inr ⟨?_, rfl⟩⟩
    rw [stateAt, stateIn_of_find hr] at hid
    exact some.inj hid
  rw [if_neg hp, hfind y] at hr'
  obtain ⟨r, hr, rfl⟩ := map_eq_some_iff.mp hr'
  obtain ⟨hspec, hseq, hstate⟩ := agedBy_same a.waiting candidate y rx.spec.requestClass r
  exact ⟨r, hr, hspec, hseq, rfl, .inl hstate⟩

/-! ## Events -/

structure Enters (a b : Admission) (id : RequestId) (r : Request) : Prop where
  settings : b.settings = a.settings
  nextSequence : b.nextSequence = (a.nextSequence + 1) % 2 ^ 64
  inserted : a.requests.insert r = some (id, b.requests)
  passedOver : r.passedOver = 0
  sequence : r.sequence = a.nextSequence
  state : (r.state = .queued ∧ b.queued = a.queued ++ [id]) ∨
    (r.state = .waiting ∧ b.queued = a.queued)

def SelectsOne (b a' : Admission) : Prop := a' = b ∨ ∃ x, Selects b a' x

inductive Happens (a : Admission) : Op → Admission → Prop
  | goes {op : Op} {b a' : Admission} (goes : Goes a b) (consistent : b.Consistent)
      (selects : SelectsOne b a') (joins : ∀ id now, op ≠ .join id now) : Happens a op a'
  | submits {spec : RequestSpec} {now : Tick} {b a' : Admission} {id : RequestId} {r : Request}
      (enters : Enters a b id r) (consistent : b.Consistent) (selects : SelectsOne b a') :
      Happens a (.submit spec now) a'
  | refuses {id : RequestId} {now : Tick} : Happens a (.join id now) a
  | joins {id : RequestId} {now : Tick} {r : Request} {a' : Admission}
      (found : a.requests.find? id = some r) (waiting : r.state = .waiting)
      (eq : a' = { a with
        ledger := a'.ledger
        waiting := erase a.waiting id
        requests := a.requests.set id { r with state := .running, runStarted := now }
        running := a.running ++ [id] }) : Happens a (.join id now) a'

theorem giveSlot_one (hc : a.Consistent)
    (h : a.giveSlot now = .ok (decision, a')) : SelectsOne a a' :=
  (giveSlot_selects hc h).imp_right fun hs => hs.2.2.2

theorem Happens.settings {op : Op} (h : Happens a op a') : a'.settings = a.settings := by
  have hone : ∀ {b : Admission}, SelectsOne b a' → a'.settings = b.settings := by
    rintro b (rfl | ⟨x, hx⟩)
    · rfl
    · exact hx.settings
  cases h with
  | goes goes _ selects => exact (hone selects).trans goes.settings
  | submits enters _ selects => exact (hone selects).trans enters.settings
  | refuses => rfl
  | joins _ _ eq => rw [eq]

theorem drain_selects (hc : a.Consistent) (h : a.drain now = .ok (decision, a')) :
    ∃ b, Goes a b ∧ b.Consistent ∧ SelectsOne b a' := by
  obtain ⟨⟨refused, a1⟩, href, h⟩ := bind_ok h
  obtain ⟨a2, hqueue, h⟩ := bind_ok h
  obtain ⟨⟨slot, a3⟩, hslot, h⟩ := bind_ok h
  cases h
  have hc1 := ((Consistent.refuseQueued now _ 0 [] hc).val href).1
  have hc2 := ((Consistent.admitQueued _ hc1).val hqueue).1
  have hgoes1 := refuseQueued_goes now _ 0 [] href
  have hgoes2 := admitQueued_goes _ hqueue (fun x hx => (hc1.listed.mem .queued x).mp hx)
    (hc1.listed.nodup .queued)
  exact ⟨a2, hgoes1.trans hgoes2, hc2, giveSlot_one hc2 hslot⟩

/-- The event changes nothing, or it goes to a state that it drains. -/
def Drains (a a' : Admission) : Prop :=
  a' = a ∨ ∃ b now decision, Goes a b ∧ b.Consistent ∧ b.drain now = .ok (decision, a')

theorem Drains.selects (hc : a.Consistent) (h : Drains a a') :
    ∃ b, Goes a b ∧ b.Consistent ∧ SelectsOne b a' := by
  rcases h with rfl | ⟨b, now, decision, hgoes, hcb, hdrain⟩
  · exact ⟨_, .refl _, hc, .inl rfl⟩
  obtain ⟨c, hgoes', hcc, hsel⟩ := drain_selects hcb hdrain
  exact ⟨c, hgoes.trans hgoes', hcc, hsel⟩

theorem Goes.drains {decision decision' : Decision} (h : Goes a b) (hc : b.Consistent)
    (hdrained : b.drained decision now = .ok (decision', a')) : Drains a a' := by
  obtain ⟨⟨drained, a1⟩, hdrain, hdrained⟩ := bind_ok hdrained
  cases hdrained
  exact .inr ⟨b, now, drained, h, hc, hdrain⟩

theorem leave_goes (hc : a.Consistent)
    (h : leave { a with ledger } id now r.state = .ok (some (decision, b))) :
    Goes a { b with requests := b.requests.erase id } := by
  have hgone : ∀ {b : Admission}, Goes a b → Goes a { b with requests := b.requests.erase id } :=
    fun hgoes => hgoes.trans (Goes.erase _ id)
  refine hgone ?_
  cases hs : r.state with
  | queued =>
    rw [hs] at h
    cases h
    exact (Goes.refl a).lists rfl rfl rfl List.filter_sublist
  | waiting =>
    rw [hs] at h
    cases h
    exact (Goes.refl a).lists rfl rfl rfl (.refl _)
  | paused =>
    rw [hs] at h
    obtain ⟨a1, hsync, h⟩ := bind_ok h
    cases h
    obtain ⟨ledger', rfl, -⟩ := syncCohort_eq hsync
    exact (Goes.refl a).lists rfl rfl rfl (.refl _)
  | retired =>
    rw [hs] at h
    cases h
  | running =>
    rw [hs] at h
    obtain ⟨⟨decision', a1⟩, hend, h⟩ := bind_ok h
    cases h
    unfold endRunning at hend
    simp only at hend
    split at hend
    · split at hend
      · cases hend
      rename_i p hp
      obtain ⟨-, -, hend⟩ := bind_ok hend
      obtain ⟨a2, hmod, hend⟩ := bind_ok hend
      obtain ⟨rp, hrp, rfl⟩ := modify_eq hmod
      obtain ⟨a3, hsync, hend⟩ := bind_ok hend
      cases hend
      obtain ⟨ledger', rfl, -⟩ := syncCohort_eq hsync
      have hrp' : a.requests.find? p = some rp := hrp
      have hpaused : rp.state = .paused := by
        have hmem := (hc.listed.mem .paused p).mp (by simpa [list] using hp)
        rw [stateAt, stateIn_of_find hrp'] at hmem
        exact some.inj hmem
      have hstays : rp.Stays { rp with state := .running, runStarted := now } :=
        ⟨rfl, rfl, rfl, .inr (.inl ⟨hpaused, rfl⟩)⟩
      exact (Goes.set hrp' hstays).lists rfl rfl rfl (.refl _)
    obtain ⟨a2, hsync, hend⟩ := bind_ok hend
    cases hend
    obtain ⟨ledger', rfl, -⟩ := syncCohort_eq hsync
    exact (Goes.refl a).lists rfl rfl rfl (.refl _)

variable {y : Answer Decision}

theorem retire_drains (hc : a.Consistent) (h : a.retire id now = .ok y) : Drains a y.2 := by
  rcases hr : a.requests.find? id with _ | r
  · unfold Admission.retire at h
    rw [hr] at h
    cases h
    exact .inl rfl
  obtain ⟨ledger, decision, b, hled, hleave, hleft, -⟩ := hc.leaves hr now
  rw [retire_eq hr hled hleave] at h
  obtain ⟨⟨decision', a'⟩, hdrained, h⟩ := bind_ok h
  cases h
  exact (leave_goes hc hleave).drains hleft hdrained

theorem transaction_drains (hc : a.Consistent) {refusal : CommitmentError → AdmissionError}
    (hkeeps : CommitmentLedger.Keeps a.ledger answer) (hsteady : a.ledger.Steady answer.2 a.domain)
    (h : a.transaction refusal answer now = .ok y) : Drains a y.2 := by
  obtain ⟨outcome, ledger⟩ := answer
  rcases outcome with error | _
  · cases h
    obtain rfl := hkeeps.2 error rfl
    exact .inl rfl
  obtain ⟨⟨decision, a'⟩, hdrained, h⟩ := bind_ok h
  cases h
  exact (Goes.ledger a ledger).drains (hc.steady hkeeps.1 hsteady) hdrained

theorem replaceEnvelope_drains (hc : a.Consistent)
    (h : a.replaceEnvelope id envelope now = .ok y) : Drains a y.2 := by
  unfold Admission.replaceEnvelope at h
  rcases hr : a.requests.find? id with _ | r
  · rw [hr] at h
    cases h
    exact .inl rfl
  rcases hg : r.grant with _ | g
  · simp only [hr, hg] at h
    cases h
    exact .inl rfl
  simp only [hr, hg] at h
  have hkeeps := hc.ledger.replace g envelope
  have hsteady : a.ledger.Steady (a.ledger.replace g envelope).2 a.domain :=
    CommitmentLedger.Steady.replace a.ledger g envelope
  generalize a.ledger.replace g envelope = answer at h hkeeps hsteady
  obtain ⟨outcome, ledger⟩ := answer
  have hc' : Consistent { a with ledger } := hc.steady hkeeps.1 hsteady
  rcases outcome with error | _
  · cases h
    obtain rfl := hkeeps.2 error rfl
    exact .inl rfl
  obtain ⟨⟨decision, a'⟩, hdrained, h⟩ := bind_ok h
  cases h
  have hsame := set_same hr { r with grant := some g, spec := { r.spec with envelope } } rfl hg.symm
  have hstays : r.Stays { r with grant := some g, spec := { r.spec with envelope } } :=
    ⟨rfl, rfl, rfl, .inl rfl⟩
  have hgoes := (Goes.ledger a ledger).trans (Goes.set (by exact hr) hstays)
  exact hgoes.drains (hc'.same hsame.1 hsame.2) hdrained

/-- The events that drain whatever they answer. -/
def Op.drains : Op → Bool
  | .submit .. | .boundary .. | .join .. => false
  | _ => true

theorem Consistent.drains (hc : a.Consistent) {op : Op} (hop : op.drains = true)
    (h : op.run a = .ok a') : Drains a a' := by
  have hrun : ∀ {α : Type} {call : Checked (α × Admission)}, Prod.snd <$> call = .ok a' →
      (∀ y, call = .ok y → Drains a y.2) → Drains a a' := by
    intro α call hcall hdrains
    obtain ⟨y, hy, rfl⟩ := map_ok hcall
    exact hdrains y hy
  cases op with
  | submit | boundary | join => cases hop
  | retire => exact hrun h fun y hy => retire_drains hc hy
  | replaceEnvelope => exact hrun h fun y hy => replaceEnvelope_drains hc hy
  | addFixed bytes =>
    exact hrun h fun y hy => transaction_drains hc (hc.ledger.addFixed a.domain bytes)
      (.addFixed a.ledger a.domain bytes) hy
  | addBackground bytes =>
    exact hrun h fun y hy => transaction_drains hc (hc.ledger.addBackground a.domain bytes)
      (.addBackground a.ledger a.domain bytes) hy
  | setBudget budget =>
    exact hrun h fun y hy => transaction_drains hc (hc.ledger.setBudget a.domain budget)
      (.setBudget a.ledger a.domain budget) hy
  | releaseFixed bytes =>
    exact hrun h fun y hy => transaction_drains hc (hc.ledger.releaseFixed a.domain bytes)
      (.releaseFixed a.ledger a.domain bytes) hy
  | releaseBackground bytes =>
    exact hrun h fun y hy => transaction_drains hc (hc.ledger.releaseBackground a.domain bytes)
      (.releaseBackground a.ledger a.domain bytes) hy
  | drain now => exact hrun h fun y hy => .inr ⟨a, now, y.1, .refl a, hc, hy⟩

theorem boundary_happens (hc : a.Consistent) {done : Tick}
    (h : a.boundary id done now = .ok y) : ∃ b, Goes a b ∧ b.Consistent ∧ SelectsOne b y.2 := by
  unfold Admission.boundary at h
  cases hr : a.requests.find? id with
  | none =>
    rw [hr] at h
    cases h
    exact ⟨a, .refl a, hc, .inl rfl⟩
  | some r =>
    simp only [hr] at h
    split at h
    · cases h
      exact ⟨a, .refl a, hc, .inl rfl⟩
    rename_i hstate
    simp only [ne_eq, not_not] at hstate
    have hsame := set_same hr { r with done := Nat.max r.done done } rfl rfl
    have hc1 := hc.same hsame.1 hsame.2
    have hstays : r.Stays { r with done := Nat.max r.done done } := ⟨rfl, rfl, rfl, .inl rfl⟩
    have hgoes := Goes.set hr hstays
    obtain ⟨candidate, hcan, h⟩ := bind_ok h
    rcases candidate with _ | candidate
    · cases h
      exact ⟨_, hgoes, hc1, .inl rfl⟩
    obtain ⟨-, hwaits, -⟩ := (hc1.readable.candidateAt _ now).val hcan candidate rfl
    obtain ⟨after, -, h⟩ := bind_ok h
    split at h
    · cases h
      exact ⟨_, hgoes, hc1, .inl rfl⟩
    obtain ⟨⟨decision, a'⟩, hpause, h⟩ := bind_ok h
    cases h
    have hrun : stateAt { a with
        requests := a.requests.set id { r with done := Nat.max r.done done } } id =
        some .running := by
      show stateIn _ id = _
      rw [hsame.1, stateIn_of_find hr, hstate]
    have hwait := (hc1.listed.mem .waiting candidate).mp hwaits
    refine ⟨_, hgoes, hc1, .inr ⟨candidate, pauseFor_selects hc1 hrun ?_ hpause⟩⟩
    rintro rfl
    cases hrun.symm.trans hwait

theorem join_happens {y : Answer Unit} (h : a.join id now = .ok y) :
    Happens a (.join id now) y.2 := by
  unfold Admission.join at h
  cases hr : a.requests.find? id with
  | none =>
    rw [hr] at h
    cases h
    exact .refuses
  | some r =>
    simp only [hr] at h
    split at h
    · cases h
      exact .refuses
    rename_i hstate
    simp only [ne_eq, not_not] at hstate
    split at h
    · cases h
      exact .refuses
    obtain ⟨cohort, -, h⟩ := bind_ok h
    split at h
    · cases h
      exact .refuses
    obtain ⟨a1, hsync, h⟩ := bind_ok h
    cases h
    obtain ⟨ledger, rfl, -⟩ := syncCohort_eq hsync
    exact .joins hr hstate rfl

theorem Consistent.enters (hc : a.Consistent) {grant : GrantId} {requests : SlotTable .request Request}
    (hgrant : a.ledger.grant a.domain envelope = (.ok grant, ledger))
    (hins : a.requests.insert r = some (id, requests)) (hstate : r.state = .waiting)
    (hr : r.grant = some grant) (n : Nat) :
    Consistent { a with ledger, requests, waiting := a.waiting ++ [id], nextSequence := n } := by
  have hbef : a.stateAt id = none := by
    simp [stateAt, stateIn, SlotTable.find?_insert_fresh hins]
  have hadm : Consistent { a with ledger, requests, waiting := a.waiting ++ [id] } :=
    hc.admitted hgrant hbef (.inl rfl)
      (fun x => by rw [stateIn_insert hins x, hstate]; rfl)
      (fun x => by rw [grantIn_insert hins x, hr]; rfl) (by simp)
  exact hadm.renumber n

section

variable (hc : a.Consistent) (hidle : a.Idle)
include hc hidle

theorem submit_cases {y : Answer Submitted} (h : a.submit spec now = .ok y) :
    (∃ ledger, y.2 = { a with ledger } ∧ y.2.Consistent ∧ ∀ submitted, y.1 ≠ .ok submitted) ∨
    ∃ submitted b r, y.1 = .ok submitted ∧ Enters a b submitted.id r ∧ b.Consistent ∧
      SelectsOne b y.2 := by
  have hcy := ((hc.submit hidle spec now).val h).1
  obtain ⟨why, -, h⟩ := bind_ok h
  cases why with
  | some =>
    cases h
    exact .inl ⟨a.ledger, rfl, hc, by simp⟩
  | none =>
    generalize hgran : (if a.queued.isEmpty = true then _ else (none, a.ledger)) = granted at h
    obtain ⟨grant, ledger⟩ := granted
    cases grant with
    | none =>
      simp only at h
      split at h
      · cases h
        exact .inl ⟨_, rfl, hcy, by simp⟩
      split at h
      · cases h
        exact .inl ⟨_, rfl, hcy, by simp⟩
      rename_i id requests hins
      cases h
      have hent : Enters a { a with
          ledger
          requests
          queued := a.queued ++ [id]
          nextSequence := (a.nextSequence + 1) % 2 ^ 64 } id
          { spec, submitted := now, sequence := a.nextSequence } :=
        ⟨rfl, rfl, hins, rfl, rfl, .inl ⟨rfl, rfl⟩⟩
      exact .inr ⟨_, _, _, rfl, hent, hcy, .inl rfl⟩
    | some grant =>
      have hgrant : a.ledger.grant a.domain spec.envelope = (.ok grant, ledger) := by
        split at hgran
        · split at hgran
          next heq =>
            cases hgran
            exact heq
          · cases hgran
        · cases hgran
      simp only at h
      split at h
      · obtain ⟨ledger', -, h⟩ := bind_ok h
        cases h
        exact .inl ⟨_, rfl, hcy, by simp⟩
      rename_i id requests hins
      obtain ⟨⟨decision, a'⟩, hslot, h⟩ := bind_ok h
      cases h
      have hente := hc.enters hgrant hins rfl rfl ((a.nextSequence + 1) % 2 ^ 64)
      have hent : Enters a { a with
          ledger
          requests
          waiting := a.waiting ++ [id]
          nextSequence := (a.nextSequence + 1) % 2 ^ 64 } id
          { spec, submitted := now, sequence := a.nextSequence, grant := some grant
            state := .waiting } :=
        ⟨rfl, rfl, hins, rfl, rfl, .inr ⟨rfl, rfl⟩⟩
      exact .inr ⟨_, _, _, rfl, hent, hente, giveSlot_one hente hslot⟩

theorem submit_happens
    {y : Answer Submitted} (h : a.submit spec now = .ok y) : Happens a (.submit spec now) y.2 := by
  rcases submit_cases hc hidle h with ⟨ledger, heq, hcy, -⟩ | ⟨_, b, r, -, hent, hcb, hsel⟩
  · refine .goes (Goes.ledger a ledger) (heq ▸ hcy) (.inl heq) (by simp)
  · exact .submits hent hcb hsel

theorem Consistent.happens (op : Op) (h : op.run a = .ok a') : Happens a op a' := by
  by_cases hop : op.drains = true
  · obtain ⟨b, hgoes, hcb, hsel⟩ := (hc.drains hop h).selects hc
    exact .goes hgoes hcb hsel (by rintro id now rfl; cases hop)
  cases op with
  | submit =>
    obtain ⟨y, hy, rfl⟩ := map_ok h
    exact submit_happens hc hidle hy
  | boundary =>
    obtain ⟨y, hy, rfl⟩ := map_ok h
    obtain ⟨b, hgoes, hcb, hsel⟩ := boundary_happens hc hy
    exact .goes hgoes hcb hsel (by simp)
  | join =>
    obtain ⟨y, hy, rfl⟩ := map_ok h
    exact join_happens hy
  | _ => exact absurd rfl hop

end

end JitLlm.Admission
