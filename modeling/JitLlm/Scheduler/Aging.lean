import JitLlm.Scheduler.Events

/-!
# No request waits for ever

A waiting request of a lower class is passed over each time a higher one is selected, and once it
was passed over as often as the limit says it stands before every other. Two facts carry this
across events: only a background request is ever passed over, so an interactive one that is
selected is not aged; and what is selected stands first, so then none that waits is aged.

The sequence of a request is its place among all that were submitted: the table issues fewer
identities than there are sequences, so the counter never comes round (`Issued.lt`).
-/

namespace JitLlm.Admission

open Base Lib Memory

variable {a a' b c : Admission} {id x y : RequestId} {op : Op} {r : Request}

def passedOf (a : Admission) (id : RequestId) : Nat :=
  ((a.requests.find? id).map Request.passedOver).getD 0

/-- The event, no `Join`, selects the request: it neither ran nor was paused, and runs. -/
structure Selected (a : Admission) (op : Op) (a' : Admission) (x : RequestId) : Prop where
  event : ∀ id now, op ≠ .join id now
  running : a.stateAt x ≠ some .running
  paused : a.stateAt x ≠ some .paused
  runs : a'.stateAt x = some .running

/-- The event selects a request of a higher class than that of `id`, which goes on waiting. -/
structure Overtakes (a : Admission) (op : Op) (a' : Admission) (x id : RequestId) : Prop where
  selected : Selected a op a' x
  waiting : a'.stateAt id = some .waiting
  higher : ∀ r rx, a'.requests.find? id = some r → a'.requests.find? x = some rx →
    r.spec.requestClass.rank < rx.spec.requestClass.rank

/-- Along a run of events the request was overtaken `n` times, and waits after each. -/
inductive Overtaken (id : RequestId) (a : Admission) : Admission → Nat → Prop
  | start : Overtaken id a a 0
  | passed {b c : Admission} {n : Nat} (op : Op) (x : RequestId) : Overtaken id a b n →
      op.run b = .ok c → Overtakes b op c x id → Overtaken id a c (n + 1)
  | other {b c : Admission} {n : Nat} (op : Op) : Overtaken id a b n → op.run b = .ok c →
      c.stateAt id = some .waiting → (∀ x, ¬ Overtakes b op c x id) → Overtaken id a c n

/-! ## The invariant -/

structure Aging (a : Admission) : Prop where
  issued : a.requests.Issued a.nextSequence
  sequence : ∀ id r, a.requests.find? id = some r → r.sequence < a.nextSequence
  distinct : ∀ id id' r r', a.requests.find? id = some r → a.requests.find? id' = some r' →
    r.sequence = r'.sequence → id = id'
  order : a.queued.Pairwise fun x y => ∀ r q, a.requests.find? x = some r →
    a.requests.find? y = some q → r.sequence < q.sequence
  queued : ∀ id r, a.requests.find? id = some r → r.state = .queued → r.passedOver = 0
  interactive : ∀ id r, a.requests.find? id = some r → r.state = .waiting →
    r.spec.requestClass = .interactive → r.passedOver = 0
  bound : 1 ≤ a.settings.agingLimit → ∀ id r, a.requests.find? id = some r → r.state = .waiting →
    r.passedOver ≤ a.settings.agingLimit

theorem Aging.keep (h : a.Aging) (hset : a'.settings = a.settings)
    (hnext : a'.nextSequence = a.nextSequence) (hwrites : Writes a.requests a'.requests)
    (hqueue : a'.queued.Sublist a.queued)
    (hreq : ∀ x r', a'.requests.find? x = some r' → ∃ r, a.requests.find? x = some r ∧
      r'.spec.requestClass = r.spec.requestClass ∧ r'.sequence = r.sequence ∧
      (r'.state = .queued → r'.passedOver = 0) ∧
      (r'.state = .waiting → r'.spec.requestClass = .interactive → r'.passedOver = 0) ∧
      (1 ≤ a.settings.agingLimit → r'.state = .waiting →
        r'.passedOver ≤ a.settings.agingLimit)) : a'.Aging := by
  refine ⟨?_, ?_, ?_, ?_, ?_, ?_, ?_⟩
  · rw [hnext]
    exact hwrites.issued h.issued
  · intro id r' hr'
    obtain ⟨r, hr, -, hseq, -⟩ := hreq id r' hr'
    rw [hseq, hnext]
    exact h.sequence id r hr
  · intro id id' r' q' hr' hq' heq
    obtain ⟨r, hr, -, hseq, -⟩ := hreq id r' hr'
    obtain ⟨q, hq, -, hseq', -⟩ := hreq id' q' hq'
    exact h.distinct id id' r q hr hq (hseq.symm.trans (heq.trans hseq'))
  · refine (h.order.sublist hqueue).imp ?_
    intro x y hlt r' q' hr' hq'
    obtain ⟨r, hr, -, hseq, -⟩ := hreq x r' hr'
    obtain ⟨q, hq, -, hseq', -⟩ := hreq y q' hq'
    rw [hseq, hseq']
    exact hlt r q hr hq
  · intro id r' hr' hs
    obtain ⟨r, -, -, -, hqueued, -⟩ := hreq id r' hr'
    exact hqueued hs
  · intro id r' hr' hs hc
    obtain ⟨r, -, -, -, -, hint, -⟩ := hreq id r' hr'
    exact hint hs hc
  rw [hset]
  intro hlimit id r' hr' hs
  obtain ⟨r, -, -, -, -, -, hbound⟩ := hreq id r' hr'
  exact hbound hlimit hs

theorem Aging.goes (h : a.Aging) (hg : Goes a b) : b.Aging := by
  refine h.keep hg.settings hg.nextSequence hg.writes hg.queued ?_
  intro x r' hr'
  obtain ⟨r, hr, hs⟩ := hg.request x r' hr'
  refine ⟨r, hr, hs.requestClass, hs.sequence, ?_, ?_, ?_⟩
  · intro hqueued
    rw [hs.passedOver]
    rcases hs.state with heq | ⟨-, heq⟩ | ⟨-, heq⟩
    · exact h.queued x r hr (heq.symm.trans hqueued)
    · rw [hqueued] at heq
      cases heq
    rw [hqueued] at heq
    cases heq
  · intro hwait hclass
    rw [hs.passedOver]
    rcases hs.state with heq | ⟨-, heq⟩ | ⟨heq, -⟩
    · exact h.interactive x r hr (heq.symm.trans hwait) (hs.requestClass.symm.trans hclass)
    · rw [hwait] at heq
      cases heq
    · exact h.queued x r hr heq
  intro hlimit hwait
  rw [hs.passedOver]
  rcases hs.state with heq | ⟨-, heq⟩ | ⟨heq, -⟩
  · exact h.bound hlimit x r hr (heq.symm.trans hwait)
  · rw [hwait] at heq
    cases heq
  rw [h.queued x r hr heq]
  exact Nat.zero_le _

theorem Enters.next (h : Enters a b id r) (ha : a.Aging) : b.nextSequence = a.nextSequence + 1 := by
  rw [h.nextSequence]
  exact Nat.mod_eq_of_lt (ha.issued.insert h.inserted).lt

theorem Aging.enters (h : a.Aging) (hc : a.Consistent) (he : Enters a b id r) : b.Aging := by
  have hnext := he.next h
  have hfind : ∀ y, b.requests.find? y = if y = id then some r else a.requests.find? y :=
    fun y => SlotTable.find?_insert he.inserted y
  refine ⟨?_, ?_, ?_, ?_, ?_, ?_, ?_⟩
  · rw [hnext]
    exact h.issued.insert he.inserted
  · intro y q hq
    rw [hfind] at hq
    rw [hnext]
    split at hq
    · cases hq
      rw [he.sequence]
      exact Nat.lt_succ_self _
    · exact Nat.lt_succ_of_lt (h.sequence y q hq)
  · intro y z q p hq hp heq
    rw [hfind] at hq hp
    split at hq
    next hy =>
      cases hq
      split at hp
      next hz =>
        exact hy.trans hz.symm
      have hlt := h.sequence z p hp
      rw [← heq, he.sequence] at hlt
      exact absurd hlt (Nat.lt_irrefl _)
    split at hp
    · cases hp
      have hlt := h.sequence y q hq
      rw [heq, he.sequence] at hlt
      exact absurd hlt (Nat.lt_irrefl _)
    · exact h.distinct y z q p hq hp heq
  · have hfresh := SlotTable.find?_insert_fresh he.inserted
    have hne : ∀ y ∈ a.queued, y ≠ id := by
      rintro y hy rfl
      obtain ⟨q, hq⟩ := (hc.listed.alive .queued).find hy
      cases hfresh.symm.trans hq
    have hold : a.queued.Pairwise fun x y => ∀ r q, b.requests.find? x = some r →
        b.requests.find? y = some q → r.sequence < q.sequence := by
      refine List.Pairwise.imp_of_mem ?_ h.order
      intro y z hy hz hlt q p hq hp
      rw [hfind, if_neg (hne y hy)] at hq
      rw [hfind, if_neg (hne z hz)] at hp
      exact hlt q p hq hp
    rcases he.state with ⟨-, hqueue⟩ | ⟨-, hqueue⟩
    · rw [hqueue]
      refine List.pairwise_append.mpr ⟨hold, List.pairwise_singleton _ _, ?_⟩
      intro y hy z hz q p hq hp
      rw [List.mem_singleton.mp hz, hfind, if_pos rfl] at hp
      cases hp
      rw [hfind, if_neg (hne y hy)] at hq
      rw [he.sequence]
      exact h.sequence y q hq
    rw [hqueue]
    exact hold
  · intro y q hq hs
    rw [hfind] at hq
    split at hq
    · cases hq
      exact he.passedOver
    · exact h.queued y q hq hs
  · intro y q hq hs hclass
    rw [hfind] at hq
    split at hq
    · cases hq
      exact he.passedOver
    · exact h.interactive y q hq hs hclass
  rw [he.settings]
  intro hlimit y q hq hs
  rw [hfind] at hq
  split at hq
  · cases hq
    rw [he.passedOver]
    exact Nat.zero_le _
  · exact h.bound hlimit y q hq hs

theorem standing_le {settings : PolicySettings} {r q : Request}
    (h : standing settings r ≤ standing settings q) :
    (q.aged settings → r.aged settings ∧ r.sequence ≤ q.sequence) ∧
    (¬ r.aged settings → ¬ q.aged settings ∧
      q.spec.requestClass.rank ≤ r.spec.requestClass.rank ∧
      (r.spec.requestClass = q.spec.requestClass → r.sequence ≤ q.sequence)) := by
  unfold standing at h
  by_cases hr : r.aged settings <;> by_cases hq : q.aged settings <;>
    cases hcr : r.spec.requestClass <;> cases hcq : q.spec.requestClass <;>
      simp_all [Prod.Lex.toLex_le_toLex, RequestClass.rank]

theorem Aging.fresh (h : a.Aging) (hlimit : 1 ≤ a.settings.agingLimit)
    (hr : a.requests.find? x = some r) (hs : r.state = .waiting)
    (hc : r.spec.requestClass = .interactive) : ¬ r.aged a.settings := by
  unfold Request.aged
  rw [h.interactive x r hr hs hc]
  omega

theorem Consistent.waiting (h : a.Consistent) (hx : x ∈ a.waiting)
    (hr : a.requests.find? x = some r) : r.state = .waiting := by
  have hs := (h.listed.mem .waiting x).mp hx
  rw [stateAt, stateIn_of_find hr] at hs
  exact Option.some.inj hs

theorem Selects.passes (h : Selects b a' x) (hb : b.Aging) (hc : b.Consistent)
    (hlimit : 1 ≤ b.settings.agingLimit) {rx r : Request} (hrx : b.requests.find? x = some rx)
    (hr : b.requests.find? y = some r) (hs : r.state = .waiting)
    (hrank : r.spec.requestClass.rank < rx.spec.requestClass.rank) :
    r.passedOver < b.settings.agingLimit := by
  obtain ⟨hmem, rx', hrx', hfirst⟩ := h.first
  cases hrx.symm.trans hrx'
  have hclass : rx.spec.requestClass = .interactive := by
    cases hcx : rx.spec.requestClass with
    | interactive => rfl
    | background =>
      rw [hcx] at hrank
      exact absurd hrank (by simp [RequestClass.rank])
  have hfresh := hb.fresh hlimit hrx (hc.waiting hmem hrx) hclass
  have hwaits : y ∈ b.waiting := (hc.listed.mem .waiting y).mpr
    ((stateIn_of_find hr).trans (congrArg some hs))
  obtain ⟨r', hr', hle⟩ := hfirst y hwaits
  cases hr.symm.trans hr'
  exact Nat.not_le.mp ((standing_le hle).2 hfresh).1

theorem Aging.selects (h : b.Aging) (hc : b.Consistent) (hs : Selects b a' x) : a'.Aging := by
  obtain ⟨hmem, rx, hrx, hfirst⟩ := hs.first
  refine h.keep hs.settings hs.nextSequence hs.writes (hs.queued ▸ .refl _) ?_
  intro y r' hr'
  obtain ⟨r, hr, hspec, hseq, hstate⟩ := hs.request rx hrx y r' hr'
  have hclass : r'.spec.requestClass = r.spec.requestClass := by rw [hspec]
  refine ⟨r, hr, hclass, hseq, ?_⟩
  split at hstate
  · refine ⟨fun hq => ?_, fun hw => ?_, fun _ hw => ?_⟩
    · rw [hstate] at hq
      cases hq
    · rw [hstate] at hw
      cases hw
    rw [hstate] at hw
    cases hw
  rename_i hne
  obtain ⟨hpas, hstate⟩ := hstate
  -- One that waits or is queued was so before.
  have hsame : r'.state ≠ .paused → r.state = r'.state := by
    intro hnot
    rcases hstate with heq | ⟨-, heq⟩
    · exact heq.symm
    · exact absurd heq hnot
  refine ⟨fun hq => ?_, fun hw hint => ?_, fun hlimit hw => ?_⟩
  · have hqueued := (hsame (by simp [hq])).trans hq
    have hnot : y ∉ b.waiting := fun hy => by
      rw [hc.waiting hy hr] at hqueued
      cases hqueued
    rw [hpas]
    simp only [agedBy, hnot, false_and, if_false]
    exact h.queued y r hr hqueued
  · have hwait := (hsame (by simp [hw])).trans hw
    have hclass' : r.spec.requestClass = .interactive := hclass.symm.trans hint
    rw [hpas]
    unfold agedBy passOver
    split
    · rw [if_neg]
      · exact h.interactive y r hr hwait hclass'
      rw [hclass']
      cases rx.spec.requestClass <;> simp [RequestClass.rank]
    · exact h.interactive y r hr hwait hclass'
  have hwait := (hsame (by simp [hw])).trans hw
  have hbound := h.bound hlimit y r hr hwait
  rw [hpas]
  unfold agedBy passOver
  split
  · split
    next hrank =>
      exact hs.passes h hc hlimit hrx hr hwait hrank.1
    · exact hbound
  · exact hbound

/-! ## Through an event -/

/-- Up to its selection an event passes no request over, and lets none run that did not. -/
structure Brings (a b : Admission) : Prop where
  settings : b.settings = a.settings
  request : ∀ y r, b.requests.find? y = some r → r.passedOver = a.passedOf y ∧
    (r.state = .running → a.stateAt y = some .running ∨ a.stateAt y = some .paused)

theorem Goes.brings (h : Goes a b) : Brings a b := by
  refine ⟨h.settings, ?_⟩
  intro y r' hr'
  obtain ⟨r, hr, hs⟩ := h.request y r' hr'
  refine ⟨?_, fun hrun => ?_⟩
  · rw [hs.passedOver]
    simp [passedOf, hr]
  rw [stateAt, stateIn_of_find hr]
  rcases hs.state with heq | ⟨heq, -⟩ | ⟨-, heq⟩
  · exact .inl (congrArg some (heq.symm.trans hrun))
  · exact .inr (congrArg some heq)
  rw [hrun] at heq
  cases heq

theorem Enters.brings (h : Enters a b id r) : Brings a b := by
  refine ⟨h.settings, ?_⟩
  intro y q hq
  rw [SlotTable.find?_insert h.inserted] at hq
  split at hq
  next hy =>
    cases hq
    refine ⟨?_, fun hrun => ?_⟩
    · rw [h.passedOver, hy]
      simp [passedOf, SlotTable.find?_insert_fresh h.inserted]
    rcases h.state with ⟨heq, -⟩ | ⟨heq, -⟩
    · rw [hrun] at heq
      cases heq
    rw [hrun] at heq
    cases heq
  refine ⟨by simp [passedOf, hq], fun hrun => .inl ?_⟩
  rw [stateAt, stateIn_of_find hq, hrun]

theorem Aging.through (ha : a.Aging) (hc : a.Consistent) (hidle : a.Idle)
    (hop : ∀ id now, op ≠ .join id now) (h : op.run a = .ok a') :
    ∃ b, Brings a b ∧ b.Consistent ∧ b.Aging ∧ SelectsOne b a' := by
  cases hc.happens hidle op h with
  | goes goes consistent selects =>
    exact ⟨_, goes.brings, consistent, ha.goes goes, selects⟩
  | submits enters consistent selects =>
    exact ⟨_, enters.brings, consistent, ha.enters hc enters, selects⟩
  | refuses | joins => exact absurd rfl (hop _ _)

theorem Aging.run (ha : a.Aging) (hc : a.Consistent) (hidle : a.Idle) (h : op.run a = .ok a') :
    a'.Aging := by
  have hjoin : (∀ id now, op ≠ .join id now) → a'.Aging := by
    intro hop
    obtain ⟨b, -, hcb, hb, hsel⟩ := ha.through hc hidle hop h
    rcases hsel with rfl | ⟨x, hx⟩
    · exact hb
    · exact hb.selects hcb hx
  cases hc.happens hidle op h with
  | goes _ _ _ joins => exact hjoin joins
  | submits => exact hjoin (by simp)
  | refuses => exact ha
  | joins found waiting eq =>
    rename_i id now r
    have hr : ∀ y q, (a.requests.set id { r with state := .running, runStarted := now }).find? y =
        some q → ∃ q0, a.requests.find? y = some q0 ∧ q.spec = q0.spec ∧
          q.sequence = q0.sequence ∧ (q = q0 ∨ q.state = .running) := by
      intro y q hq
      rw [SlotTable.find?_set] at hq
      split at hq
      next hy =>
        rw [found] at hq
        cases hq
        exact ⟨r, hy ▸ found, rfl, rfl, .inr rfl⟩
      · exact ⟨q, hq, rfl, rfl, .inl rfl⟩
    rw [eq]
    refine ha.keep rfl rfl (.set id _ .refl) (.refl _) ?_
    intro y q hq
    obtain ⟨q0, hq0, hspec, hseq, hsame⟩ := hr y q hq
    refine ⟨q0, hq0, by rw [hspec], hseq, ?_⟩
    rcases hsame with rfl | hrun
    · exact ⟨ha.queued y q hq0, ha.interactive y q hq0, fun hlimit => ha.bound hlimit y q hq0⟩
    rw [hrun]
    exact ⟨nofun, nofun, nofun⟩

theorem Reachable.aging (h : Reachable a) : a.Aging := by
  induction h with
  | init hfresh hcreate =>
    obtain ⟨-, -, hcreate⟩ := bind_ok hcreate
    cases hcreate
    have hnone : ∀ (y : RequestId) (r : Request),
        (SlotTable.empty : SlotTable .request Request).find? y ≠ some r := by
      intro y r hr
      simp [SlotTable.find?, SlotTable.empty] at hr
    exact ⟨SlotTable.issued_empty, fun y r hr => absurd hr (hnone y r),
      fun y _ r _ hr => absurd hr (hnone y r), List.Pairwise.nil,
      fun y r hr => absurd hr (hnone y r), fun y r hr => absurd hr (hnone y r),
      fun _ y r hr => absurd hr (hnone y r)⟩
  | step op hbef hstep ih =>
    exact ih.run hbef.consistent.1 hbef.consistent.2 hstep

/-! ## Selections -/

theorem Selected.eq {z : RequestId} (h : Selected a op a' x) (hb : Brings a b)
    (hz : Selects b a' z) : x = z := by
  obtain ⟨r', hr', hrun⟩ := find_of_stateIn h.runs
  obtain ⟨-, rz, hrz, -⟩ := hz.first
  obtain ⟨r, hr, -, -, hstate⟩ := hz.request rz hrz x r' hr'
  split at hstate
  · assumption
  -- It ran before the selection, so it ran or was paused before the event.
  have hran : r.state = .running := by
    rcases hstate.2 with heq | ⟨heq, -⟩
    · exact heq.symm.trans hrun
    · exact heq
  rcases (hb.request x r hr).2 hran with hs | hs
  · exact absurd hs h.running
  · exact absurd hs h.paused

theorem Selected.selects (h : Selected a op a' x) (hb : Brings a b) (hs : SelectsOne b a') :
    Selects b a' x := by
  rcases hs with rfl | ⟨z, hz⟩
  · obtain ⟨r', hr', hrun⟩ := find_of_stateIn h.runs
    rcases (hb.request x r' hr').2 hrun with hs | hs
    · exact absurd hs h.running
    · exact absurd hs h.paused
  · exact h.eq hb hz ▸ hz

theorem Selects.behind (h : Selects b a' x) (hb : Brings a b) (hc : b.Consistent) (ha : b.Aging)
    {rx ry : Request} (hrx : a'.requests.find? x = some rx) (hry : a'.requests.find? y = some ry)
    (hy : ry.state = .waiting) : (a.settings.agingLimit ≤ a.passedOf y →
      a.settings.agingLimit ≤ a.passedOf x ∧ rx.sequence < ry.sequence) ∧
    (a.passedOf x < a.settings.agingLimit →
      a.passedOf y < a.settings.agingLimit ∧
      ry.spec.requestClass.rank ≤ rx.spec.requestClass.rank ∧
      (rx.spec.requestClass = ry.spec.requestClass → rx.sequence < ry.sequence)) := by
  obtain ⟨hmem, r, hr, hfirst⟩ := h.first
  obtain ⟨r1, hr1, hclass, hseq, hrun⟩ := h.request r hr x rx hrx
  cases hr.symm.trans hr1
  rw [if_pos rfl] at hrun
  obtain ⟨q, hq, hclass', hseq', hstate⟩ := h.request r hr y ry hry
  have hne : y ≠ x := by
    rintro rfl
    cases hrx.symm.trans hry
    rw [hy] at hrun
    cases hrun
  rw [if_neg hne] at hstate
  have hwait : q.state = .waiting := by
    rcases hstate.2 with heq | ⟨-, heq⟩
    · exact heq.symm.trans hy
    rw [hy] at heq
    cases heq
  have hwaits : y ∈ b.waiting := (hc.listed.mem .waiting y).mpr
    ((stateIn_of_find hq).trans (congrArg some hwait))
  obtain ⟨q', hq', hle⟩ := hfirst y hwaits
  cases hq.symm.trans hq'
  obtain ⟨haged, hfresh⟩ := standing_le hle
  unfold Request.aged at haged hfresh
  rw [hb.settings, (hb.request x r hr).1, (hb.request y q hq).1] at haged hfresh
  -- No two requests have one sequence.
  have hapart : r.sequence ≠ q.sequence := fun heq => hne (ha.distinct x y r q hr hq heq).symm
  rw [hclass, hclass', hseq, hseq']
  refine ⟨fun hlimit => ?_, fun hlimit => ?_⟩
  · obtain ⟨hx, hle⟩ := haged hlimit
    exact ⟨hx, Nat.lt_of_le_of_ne hle hapart⟩
  obtain ⟨hy', hrank, hle⟩ := hfresh (Nat.not_le.mpr hlimit)
  exact ⟨Nat.not_le.mp hy', hrank, fun heq => Nat.lt_of_le_of_ne (hle heq) hapart⟩

theorem Aging.passed (ha : a.Aging) (hc : a.Consistent) (hidle : a.Idle)
    (hlimit : 1 ≤ a.settings.agingLimit) (hmax : a.settings.agingLimit ≤ uint32Max)
    (h : op.run a = .ok a') (hwait : a'.stateAt id = some .waiting) :
    ((∃ x, Overtakes a op a' x id) → a'.passedOf id = a.passedOf id + 1) ∧
    ((∀ x, ¬ Overtakes a op a' x id) → a.passedOf id ≤ a'.passedOf id) := by
  obtain ⟨r', hr', hs'⟩ := find_of_stateIn hwait
  have hpas' : a'.passedOf id = r'.passedOver := by simp [passedOf, hr']
  rw [hpas']
  refine ⟨?_, fun _ => ?_⟩
  · rintro ⟨x, hx⟩
    obtain ⟨b, hb, hcb, hab, hsele⟩ := ha.through hc hidle hx.selected.event h
    have hsel := hx.selected.selects hb hsele
    obtain ⟨hmem, rx, hrx, -⟩ := hsel.first
    obtain ⟨r, hr, hclass, -, hstate⟩ := hsel.request rx hrx id r' hr'
    obtain ⟨rx', hrx', -⟩ := find_of_stateIn hx.selected.runs
    obtain ⟨rx0, hrx0, hclassx, -, -⟩ := hsel.request rx hrx x rx' hrx'
    cases hrx.symm.trans hrx0
    have hrank := hx.higher r' rx' hr' hrx'
    rw [hclass, hclassx] at hrank
    have hne : id ≠ x := by
      rintro rfl
      cases hx.selected.runs.symm.trans hwait
    rw [if_neg hne] at hstate
    have hwas : r.state = .waiting := by
      rcases hstate.2 with heq | ⟨-, heq⟩
      · exact heq.symm.trans hs'
      rw [hs'] at heq
      cases heq
    have hwaits : id ∈ b.waiting := (hcb.listed.mem .waiting id).mpr
      ((stateIn_of_find hr).trans (congrArg some hwas))
    have hlt := hsel.passes hab hcb (hb.settings ▸ hlimit) hrx hr hwas hrank
    rw [hb.settings] at hlt
    have hroom : r.passedOver < uint32Max := Nat.lt_of_lt_of_le hlt hmax
    rw [hstate.1, ← (hb.request id r hr).1]
    simp [agedBy, passOver, hwaits, hne, hrank, hroom]
  by_cases hop : ∀ id now, op ≠ .join id now
  · obtain ⟨b, hb, hcb, hab, hsele⟩ := ha.through hc hidle hop h
    rcases hsele with rfl | ⟨x, hsel⟩
    · exact le_of_eq (hb.request id r' hr').1.symm
    obtain ⟨hmem, rx, hrx, -⟩ := hsel.first
    obtain ⟨r, hr, -, -, hstate⟩ := hsel.request rx hrx id r' hr'
    split at hstate
    · rw [hs'] at hstate
      cases hstate
    rw [hstate.1, ← (hb.request id r hr).1]
    unfold agedBy passOver
    split
    · split
      · exact Nat.le_succ _
      · exact Nat.le_refl _
    · exact Nat.le_refl _
  cases hc.happens hidle op h with
  | goes _ _ _ joins => exact absurd joins hop
  | submits => exact absurd (by simp) hop
  | refuses => simp [passedOf, hr']
  | joins found waiting eq =>
    rw [eq] at hr'
    simp only [SlotTable.find?_set] at hr'
    split at hr'
    · rw [found] at hr'
      cases hr'
      cases hs'
    · simp [passedOf, hr']

/-- **Waiting requests are never starved by class.** In every admission some events lead to, with a
    limit of at least one: no waiting request was passed over more often than the limit; a request's
    sequence is its place among all submitted; an event selects one request at most, and leaves
    behind neither an aged request for one that is not, nor an earlier aged one for another aged
    one, nor, of those not aged, a higher class or an earlier request of the class; and, whatever
    events follow, a request is overtaken no more often than the limit while it waits. -/
theorem reachable_unstarved (h : Reachable a) (hlimit : 1 ≤ a.settings.agingLimit)
    (hmax : a.settings.agingLimit ≤ uint32Max) :
    (∀ id r, a.requests.find? id = some r → r.state = .waiting →
      r.passedOver ≤ a.settings.agingLimit) ∧
    (∀ id r, a.requests.find? id = some r → r.sequence < a.nextSequence) ∧
    (∀ spec now submitted a', a.submit spec now = .ok (.ok submitted, a') →
      a'.nextSequence = a.nextSequence + 1 ∧
      ∃ r, a'.requests.find? submitted.id = some r ∧ r.sequence = a.nextSequence) ∧
    (∀ op a' x, op.run a = .ok a' → Selected a op a' x →
      (∀ x', Selected a op a' x' → x' = x) ∧
      ∀ y rx ry, a'.requests.find? x = some rx → a'.requests.find? y = some ry →
        ry.state = .waiting →
        (a.settings.agingLimit ≤ a.passedOf y →
          a.settings.agingLimit ≤ a.passedOf x ∧ rx.sequence < ry.sequence) ∧
        (a.passedOf x < a.settings.agingLimit →
          a.passedOf y < a.settings.agingLimit ∧
          ry.spec.requestClass.rank ≤ rx.spec.requestClass.rank ∧
          (rx.spec.requestClass = ry.spec.requestClass → rx.sequence < ry.sequence))) ∧
    ∀ id c n, Overtaken id a c n → n ≤ a.settings.agingLimit := by
  obtain ⟨hc, hidle⟩ := h.consistent
  have ha := h.aging
  refine ⟨ha.bound hlimit, ha.sequence, ?_, ?_, ?_⟩
  · intro spec now submitted a' hsub
    rcases submit_cases hc hidle hsub with ⟨_, _, _, hno⟩ | ⟨_, b, r, heq, hent, -, hone⟩
    · exact absurd rfl (hno submitted)
    cases heq
    have hfound : b.requests.find? submitted.id = some r := by
      rw [SlotTable.find?_insert hent.inserted, if_pos rfl]
    rcases hone with hsame | ⟨x, hx⟩
    · have hsame' : a' = b := hsame
      rw [hsame']
      exact ⟨hent.next ha, r, hfound, hent.sequence⟩
    refine ⟨hx.nextSequence.trans (hent.next ha), ?_⟩
    obtain ⟨-, rx, hrx, -⟩ := hx.first
    obtain ⟨r', hr'⟩ := hx.present submitted.id r hfound
    obtain ⟨q, hq, -, hseq, -⟩ := hx.request rx hrx submitted.id r' hr'
    cases hfound.symm.trans hq
    exact ⟨r', hr', hseq.trans hent.sequence⟩
  · intro op a' x hrun hx
    obtain ⟨b, hb, hcb, hab, hsele⟩ := ha.through hc hidle hx.event hrun
    have hsel := hx.selects hb hsele
    exact ⟨fun x' hx' => hx'.eq hb hsel, fun y rx ry hrx hry hy =>
      hsel.behind hb hcb hab hrx hry hy⟩
  intro id c n hover
  -- How often it was overtaken, it was passed over, and the bound holds wherever it waits.
  have hrun : Reachable c ∧ c.settings = a.settings ∧
      (n = 0 ∨ (c.stateAt id = some .waiting ∧ n ≤ c.passedOf id)) := by
    induction hover with
    | start => exact ⟨h, rfl, .inl rfl⟩
    | passed op x _ hstep hx ih =>
      obtain ⟨hb, hset, hn⟩ := ih
      obtain ⟨hcb, hidleb⟩ := hb.consistent
      have hpas := (hb.aging.passed hcb hidleb (hset ▸ hlimit) (hset ▸ hmax) hstep
        hx.waiting).1 ⟨x, hx⟩
      refine ⟨.step op hb hstep, (hcb.happens hidleb op hstep).settings.trans hset,
        .inr ⟨hx.waiting, ?_⟩⟩
      omega
    | other op _ hstep hwait hno ih =>
      obtain ⟨hb, hset, hn⟩ := ih
      obtain ⟨hcb, hidleb⟩ := hb.consistent
      have hpas := (hb.aging.passed hcb hidleb (hset ▸ hlimit) (hset ▸ hmax) hstep hwait).2 hno
      refine ⟨.step op hb hstep, (hcb.happens hidleb op hstep).settings.trans hset, ?_⟩
      rcases hn with rfl | ⟨-, hn⟩
      · exact .inl rfl
      · exact .inr ⟨hwait, hn.trans hpas⟩
  obtain ⟨hreach, hset, hn⟩ := hrun
  rcases hn with rfl | ⟨hwait, hn⟩
  · exact Nat.zero_le _
  obtain ⟨r, hr, hs⟩ := find_of_stateIn hwait
  have hbound := hreach.aging.bound (hset ▸ hlimit) id r hr hs
  rw [hset] at hbound
  simp only [passedOf, hr, Option.map_some, Option.getD_some] at hn
  exact hn.trans hbound

/-- An interactive request runs; a background one and another interactive one wait, and the first
    retires. -/
def overtaking : Checked Admission := do
  let envelope : Envelope := { retained := .ofNat 1, phase := .ofNat 3 }
  let ops : List Op :=
    [.submit { requestClass := .interactive, envelope, work := 4 } 0,
      .submit { requestClass := .background, envelope, work := 4 } 1,
      .submit { requestClass := .interactive, envelope, work := 4 } 2, .retire ⟨0, 1⟩ 5]
  let a ← create oneDomain ⟨0, 1⟩ { agingLimit := 1 }
  ops.foldlM (fun (a : Admission) op => op.run a) a

def waitingPast (id : RequestId) : Checked Admission → Option (Bool × Nat × Nat)
  | .ok a => (a.requests.find? id).map fun r =>
    (r.state = .waiting, r.passedOver, a.settings.agingLimit)
  | .error _ => none

theorem reachable_unstarved_overtaken :
    ∃ a r, Reachable a ∧ a.requests.find? ⟨1, 1⟩ = some r ∧ r.state = .waiting ∧
      r.passedOver = 1 ∧ r.passedOver ≤ a.settings.agingLimit := by
  have hpast : waitingPast ⟨1, 1⟩ overtaking = some (true, 1, 1) := by decide +kernel
  rcases hrun : overtaking with _ | a
  · rw [hrun] at hpast
    exact absurd hpast (by simp [waitingPast])
  rw [hrun] at hpast
  obtain ⟨r, hr, heq⟩ := Option.map_eq_some_iff.mp hpast
  simp only [Prod.mk.injEq, decide_eq_true_eq] at heq
  obtain ⟨hs, hpas, hlimit⟩ := heq
  obtain ⟨a0, hcreate, heve⟩ := bind_ok hrun
  have hreach := reachable_events (.init oneDomain_fresh hcreate) heve
  refine ⟨a, r, hreach, hr, hs, hpas, ?_⟩
  refine (reachable_unstarved hreach ?_ ?_).1 ⟨1, 1⟩ r hr hs
  · rw [hlimit]
  rw [hlimit]
  decide

end JitLlm.Admission
