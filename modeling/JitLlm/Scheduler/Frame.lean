import JitLlm.Catalog.Holds
import JitLlm.Scheduler.Invariant

/-!
# Taking an extent in hand and putting it back

The rules the stages are walked with. A function takes an extent out of `Good` (`Good.take`),
changes what is its own (`Good.same`, the frame rule: whatever keeps every other extent's tables
keeps `Good`), and puts it back at rest, held by a call, or with an operation in flight
(`Good.put`). Slots change hands by `Good.seize` and `Good.vacate`.

Only these lemmas go through the fields of `Good`; the walk over the code never does.
-/

namespace JitLlm.Scheduler

open Base Lib List Option
open Catalog hiding Operation Reachable

/-! ## Calls -/

section Calls

variable {w : Work} {rest work : List Work} {e e' : ExtentId} {g : Grip}

theorem grip_cons_none (h : w.grips = none) : grip (w :: rest) e = grip rest e := by
  simp [grip, h]

theorem grip_cons_self (h : w.grips = some (e, g)) : grip (w :: rest) e = g := by
  simp [grip, h]

theorem grip_cons_ne (h : w.grips = some (e, g)) (hne : e' ≠ e) :
    grip (w :: rest) e' = grip rest e' := by
  simp [grip, h, Ne.symm hne]

theorem gripped_cons_none (h : w.grips = none) : gripped (w :: rest) = gripped rest := by
  simp [gripped, h]

theorem gripped_cons_some (h : w.grips = some (e, g)) :
    gripped (w :: rest) = e :: gripped rest := by
  simp [gripped, h]

theorem Work.grips_ne_free (h : w.grips = some (e, g)) : g ≠ .free := by
  cases w <;> simp [Work.grips] at h <;> simp [← h.2]

theorem grip_of_not_mem (h : e ∉ gripped work) : grip work e = .free := by
  induction work with
  | nil => rfl
  | cons w rest ih =>
    cases hw : w.grips with
    | none =>
      rw [gripped_cons_none hw] at h
      rw [grip_cons_none hw]
      exact ih h
    | some =>
      rw [gripped_cons_some hw, mem_cons, not_or] at h
      rw [grip_cons_ne hw h.1]
      exact ih h.2

theorem not_mem_of_grip (h : grip work e = .free) : e ∉ gripped work := by
  induction work with
  | nil => simp [gripped]
  | cons w rest ih =>
    cases hw : w.grips with
    | none =>
      rw [grip_cons_none hw] at h
      rw [gripped_cons_none hw]
      exact ih h
    | some p =>
      rw [gripped_cons_some hw, mem_cons, not_or]
      have hne : e ≠ p.1 := by
        intro heq
        have hself : w.grips = some (e, p.2) := by rw [hw, heq]
        rw [grip_cons_self hself] at h
        exact Work.grips_ne_free hself h
      refine ⟨hne, ih ?_⟩
      rw [grip_cons_ne hw hne] at h
      exact h

end Calls

/-! ## Queues -/

section Queues

variable {work work' : List Work} {skip skip' : Option ExtentId} {q q' : List ExtentId}
  {P P' : ExtentId → Prop} {e : ExtentId}

theorem Lined.mono (h : Lined work skip q P) (hq : q'.Sublist q)
    (hP : ∀ e ∈ q', skip ≠ some e → P e → skip' ≠ some e ∧ grip work' e = grip work e ∧ P' e) :
    Lined work' skip' q' P' := by
  refine ⟨h.nodup.sublist hq, fun e he => ?_⟩
  obtain ⟨hskip, hfree, hp⟩ := h.each e (hq.subset he)
  obtain ⟨hskip', hgrip, hp'⟩ := hP e he hskip hp
  exact ⟨hskip', hgrip.trans hfree, hp'⟩

theorem Lined.not_mem (h : Lined work (some e) q P) : e ∉ q := fun he => (h.each e he).1 rfl

theorem Lined.append (h : Lined work skip q P) (he : e ∉ q) (hskip : skip ≠ some e)
    (hfree : grip work e = .free) (hP : P e) : Lined work skip (q ++ [e]) P := by
  refine ⟨?_, fun e' he' => ?_⟩
  · rw [nodup_append]
    refine ⟨h.nodup, by simp, ?_⟩
    rintro a ha b hb rfl
    rw [mem_singleton] at hb
    exact he (hb ▸ ha)
  rcases mem_append.mp he' with he' | he'
  · exact h.each e' he'
  obtain rfl := mem_singleton.mp he'
  exact ⟨hskip, hfree, hP⟩

end Queues

/-! ## Entries -/

section Entries

variable {x : Config} {s s' : Scheduler} {e : ExtentId} {g : Grip} {l : Load} {v : Eviction}
    {place : PageSource} {ops ops' : OperationId → Option StageOp}
    {operation : Option (OperationId × Command)}

/-- Everything that is said of an extent's entry, the same in two states. -/
structure SameAt (e : ExtentId) (s s' : Scheduler) : Prop where
  catalog : Steady (s.catalog.extents.find? e) (s'.catalog.extents.find? e)
  loads : s'.loads.find? e = s.loads.find? e
  evictions : s'.evictions.find? e = s.evictions.find? e
  sources : s'.sources.find? e = s.sources.find? e
  phase : phase e s'.log = phase e s.log

theorem SameAt.of (catalog : s'.catalog.extents.find? e = s.catalog.extents.find? e)
    (loads : s'.loads.find? e = s.loads.find? e)
    (evictions : s'.evictions.find? e = s.evictions.find? e)
    (sources : s'.sources.find? e = s.sources.find? e)
    (phase : Scheduler.phase e s'.log = Scheduler.phase e s.log) : SameAt e s s' :=
  ⟨.inl (by rw [catalog]), loads, evictions, sources, phase⟩

theorem Loading.same {p : LoadPhase} (h : Loading s e l p) (hs : SameAt e s s') :
    Loading s' e l p := by
  refine ⟨hs.evictions.trans h.eviction, ?_, hs.phase.trans h.phase, h.source⟩
  obtain ⟨r, hr⟩ := h.ticket
  obtain ⟨r', hr', hcore⟩ := hs.catalog.find hr.found (by simp [hr.state]) (by simp [hr.state])
  simp only [core, Prod.mk.injEq] at hcore
  exact ⟨r', hr', hcore.1.trans hr.state, hcore.2.1.trans hr.operation,
    by rw [hcore.2.2.1]; exact hr.ticket⟩

theorem Evicting.same {p : EvictPhase} (h : Evicting s e v place p)
    (hs : SameAt e s s') : Evicting s' e v place p := by
  refine ⟨hs.loads.trans h.load, ?_, hs.sources.trans h.source, hs.phase.trans h.phase,
    h.placed, h.writeBack, h.handoff⟩
  obtain ⟨r, hr, hw⟩ := h.ticket
  obtain ⟨r', hr', hcore⟩ := hs.catalog.find hr.found (by simp [hr.state]) (by simp [hr.state])
  simp only [core, Prod.mk.injEq] at hcore
  exact ⟨r', ⟨hr', hcore.1.trans hr.state, hcore.2.1.trans hr.operation,
    by rw [hcore.2.2.1]; exact hr.ticket⟩, hcore.2.2.2.trans hw⟩

theorem Load.operates_mono (h : l.operates x ops e operation)
    (ho : ∀ id op, ops id = some op → ops' id = some op) : l.operates x ops' e operation := by
  unfold Load.operates at h ⊢
  rcases hl : l.operation with _ | id
  · simpa [hl] using h
  simp only [hl] at h ⊢
  obtain ⟨route, command, hop, hrest⟩ := h
  exact ⟨route, command, ho id _ hop, hrest⟩

theorem Eviction.operates_mono (h : v.operates x ops e place operation)
    (ho : ∀ id op, ops id = some op → ops' id = some op) : v.operates x ops' e place operation := by
  unfold Eviction.operates at h ⊢
  rcases hv : v.operation with _ | id
  · simpa [hv] using h
  simp only [hv] at h ⊢
  obtain ⟨route, command, hop, hrest⟩ := h
  exact ⟨route, command, ho id _ hop, hrest⟩

theorem LoadOk.same (h : LoadOk x s g e l) (hs : SameAt e s s')
    (ho : ∀ id op, s.stageOp id = some op → s'.stageOp id = some op)
    (hslots : ∀ i, l.slot = some i → s'.slots[i]? = s.slots[i]?) : LoadOk x s' g e l := by
  refine ⟨h.flags, h.held, fun i hi => (hslots i hi).trans (h.slot i hi), ?_⟩
  obtain ⟨p, hp, hreuse, hmap, hstands, hop⟩ := h.loading
  exact ⟨p, hp.same hs, hreuse, hmap, hstands, Load.operates_mono hop ho⟩

theorem EvictOk.same (h : EvictOk x s g e v) (hs : SameAt e s s')
    (ho : ∀ id op, s.stageOp id = some op → s'.stageOp id = some op)
    (hslots : ∀ i, v.slot = some i → s'.slots[i]? = s.slots[i]?) : EvictOk x s' g e v := by
  refine ⟨h.held, fun i hi => (hslots i hi).trans (h.slot i hi), ?_⟩
  obtain ⟨place, p, hp, hflags, hstands, hop⟩ := h.evicting
  exact ⟨place, p, hp.same hs, hflags, hstands, Eviction.operates_mono hop ho⟩

theorem Settled.same (h : Settled s e) (hs : SameAt e s s') : Settled s' e := by
  unfold Settled at h ⊢
  rw [hs.phase]
  refine h.imp (fun h => ⟨h.1, fun r' hr' => ?_⟩) (fun h => ⟨h.1, ?_⟩)
  · rcases hs.catalog with heq | ⟨-, hcalm⟩
    · rcases ho : s.catalog.extents.find? e with _ | r
      · simp [ho, hr'] at heq
      have hcore : core r' = core r := by simpa [ho, hr'] using heq
      simp only [core, Prod.mk.injEq] at hcore
      rw [hcore.1]
      exact h.2 r ho
    · rcases hcalm r' hr' with hstate | hstate <;> simp [hstate]
  obtain ⟨r, hr, hstate⟩ := h.2
  obtain ⟨r', hr', hcore⟩ := hs.catalog.find hr (by simp [hstate]) (by simp [hstate])
  simp only [core, Prod.mk.injEq] at hcore
  exact ⟨r', hr', hcore.1.trans hstate⟩

theorem holdsSlot_congr (hs : SameAt e s s') {i : Nat} : holdsSlot s' e i ↔ holdsSlot s e i := by
  unfold holdsSlot
  rw [hs.loads, hs.evictions]

theorem holdsSlot_load (hl : s.loads.find? e = some l) (hv : s.evictions.find? e = none) (i : Nat) :
    l.slot = some i ↔ holdsSlot s e i := by
  refine ⟨fun hi => .inl ⟨l, hl, hi⟩, ?_⟩
  rintro (⟨l', hl', hi⟩ | ⟨v, hv', -⟩)
  · cases hl.symm.trans hl'
    exact hi
  · cases hv.symm.trans hv'

theorem holdsSlot_eviction (hl : s.loads.find? e = none) (hv : s.evictions.find? e = some v)
    (i : Nat) : v.slot = some i ↔ holdsSlot s e i := by
  refine ⟨fun hi => .inr ⟨v, hv, hi⟩, ?_⟩
  rintro (⟨l, hl', -⟩ | ⟨v', hv', hi⟩)
  · cases hl.symm.trans hl'
  cases hv.symm.trans hv'
  exact hi

theorem InQueue.same (h : InQueue s e) (hs : SameAt e s s') : InQueue s' e := by
  unfold InQueue at h ⊢
  rw [hs.loads]
  exact h

theorem ForSlot.same (h : ForSlot s e) (hs : SameAt e s s') : ForSlot s' e := by
  unfold ForSlot at h ⊢
  rw [hs.loads, hs.evictions]
  exact h

theorem ForMailbox.same (h : ForMailbox s e) (hs : SameAt e s s') : ForMailbox s' e := by
  unfold ForMailbox at h ⊢
  rw [hs.loads, hs.evictions]
  exact h

theorem ForRelease.same (h : ForRelease s e) (hs : SameAt e s s') : ForRelease s' e := by
  unfold ForRelease at h ⊢
  rw [hs.evictions]
  exact h

theorem Owned.same {id : OperationId} {op : StageOp} (h : Owned s id op)
    (hs : SameAt op.extent s s') : Owned s' id op := by
  unfold Owned at h ⊢
  rw [hs.loads, hs.evictions]
  exact h

end Entries

/-! ## The frame rule -/

section Rules

variable {x : Config} {s s' : Scheduler} {work rest calls : List Work} {skip : Option ExtentId}
    {i : Nat} {state : SlotState} {mine : Option Nat} {e : ExtentId}

/-- Two states that differ, as far as `Good` reads them, in nothing but the extent in hand; a
    queue may have lost entries. -/
structure Same (skip : Option ExtentId) (s s' : Scheduler) : Prop where
  entries : ∀ e, skip ≠ some e → SameAt e s s'
  ops : ∀ id, s'.stageOp id = s.stageOp id
  slots : s'.slots = s.slots
  queued : s'.queued.Sublist s.queued
  slotWaiters : s'.slotWaiters.Sublist s.slotWaiters
  blocked : s'.blocked.Sublist s.blocked
  release : s'.releaseQueue.Sublist s.releaseQueue

section

variable (h : Good x s work skip mine)
include h

theorem Good.same (hs : Same skip s s')
    (hr : Catalog.Reachable s'.catalog) (hm : Mailboxes s'.board s'.operations s'.log)
    (hp : ∀ id, work.head? = some (.publish id) → Unpublished s id → Unpublished s' id) :
    Good x s' work skip mine where
  reach := hr
  mailboxes := hm
  slots := by rw [hs.slots]; exact h.slots
  load e l hskip hl := by
    have hat := hs.entries e hskip
    rw [hat.loads] at hl
    exact (h.load e l hskip hl).same hat (fun id op hop => (hs.ops id).trans hop)
      fun i _ => by rw [hs.slots]
  eviction e v hskip hv := by
    have hat := hs.entries e hskip
    rw [hat.evictions] at hv
    exact (h.eviction e v hskip hv).same hat (fun id op hop => (hs.ops id).trans hop)
      fun i _ => by rw [hs.slots]
  settled e hskip hl hv := by
    have hat := hs.entries e hskip
    rw [hat.loads] at hl
    rw [hat.evictions] at hv
    exact (h.settled e hskip hl hv).same hat
  owned id op hop := by
    rw [hs.ops] at hop
    obtain ⟨hskip, how⟩ := h.owned id op hop
    exact ⟨hskip, how.same (hs.entries op.extent hskip)⟩
  holder e e' i he he' hi hi' := by
    rw [holdsSlot_congr (hs.entries e he)] at hi
    rw [holdsSlot_congr (hs.entries e' he')] at hi'
    exact h.holder e e' i he he' hi hi'
  busy i hi := by
    rw [hs.slots] at hi
    refine (h.busy i hi).imp_right ?_
    rintro ⟨e, he, hold⟩
    exact ⟨e, he, (holdsSlot_congr (hs.entries e he)).mpr hold⟩
  mine i hi := by
    obtain ⟨hbusy, hnone⟩ := h.mine i hi
    rw [hs.slots]
    exact ⟨hbusy, fun e he hold => hnone e he ((holdsSlot_congr (hs.entries e he)).mp hold)⟩
  queued := h.queued.mono hs.queued fun e _ he hq => ⟨he, rfl, hq.same (hs.entries e he)⟩
  slotWaiters := h.slotWaiters.mono hs.slotWaiters fun e _ he hq =>
    ⟨he, rfl, hq.same (hs.entries e he)⟩
  blocked := h.blocked.mono hs.blocked fun e _ he hq => ⟨he, rfl, hq.same (hs.entries e he)⟩
  release := h.release.mono hs.release fun e _ he hq => ⟨he, rfl, hq.same (hs.entries e he)⟩
  nodup := h.nodup
  gripped e he := by
    obtain ⟨hskip, hentry⟩ := h.gripped e he
    rw [(hs.entries e hskip).loads, (hs.entries e hskip).evictions]
    exact ⟨hskip, hentry⟩
  calls := ⟨h.calls.1, h.calls.2.1, fun id hid => hp id hid (h.calls.2.2 id hid)⟩

theorem Good.other (hs : s' = { s with
      tasks := s'.tasks, records := s'.records, parked := s'.parked, parkedCount := s'.parkedCount
      releasesOpen := s'.releasesOpen, pumpingReleases := s'.pumpingReleases
      pinned := s'.pinned, held := s'.held, started := s'.started, pending := s'.pending
      cancels := s'.cancels, quarantined := s'.quarantined, fault := s'.fault
      stopping := s'.stopping, turn := s'.turn }) : Good x s' work skip mine := by
  rw [hs]
  refine h.same ?_ h.reach h.mailboxes fun id _ hp => hp
  exact ⟨fun _ _ => .of rfl rfl rfl rfl rfl, fun _ => rfl, rfl, .refl _, .refl _, .refl _, .refl _⟩

theorem Good.touches {c : Catalog} (ht : Touches s.catalog c)
    (hr : Catalog.Reachable c) : Good x { s with catalog := c } work skip mine := by
  refine h.same ?_ hr h.mailboxes fun id _ hp => hp
  exact ⟨fun e _ => ⟨(ht e).steady, rfl, rfl, rfl, rfl⟩, fun _ => rfl, rfl, .refl _,
    .refl _, .refl _, .refl _⟩

theorem Good.emit {event : Event} (habout : event.about = none)
    (hm : Mailboxes s.board s.operations (event :: s.log)) :
    Good x (s.emit event) work skip mine := by
  refine h.same ?_ h.reach hm fun id _ hp => hp
  refine ⟨fun e _ => .of rfl rfl rfl rfl (phase_cons_of_ne _ ?_), fun _ => rfl, rfl,
    .refl _, .refl _, .refl _, .refl _⟩
  simp [habout]

end

/-! ## Calls made and to be made -/

variable {w : Work}

theorem Good.drop (h : Good x s (w :: rest) none mine) (hw : w.grips = none) :
    Good x s rest none mine where
  reach := h.reach
  mailboxes := h.mailboxes
  slots := h.slots
  load e l hskip hl := grip_cons_none (e := e) hw ▸ h.load e l hskip hl
  eviction e v hskip hv := grip_cons_none (e := e) hw ▸ h.eviction e v hskip hv
  settled := h.settled
  owned := h.owned
  holder := h.holder
  busy := h.busy
  mine := h.mine
  queued := h.queued.mono (.refl _) fun e _ he hq => ⟨he, (grip_cons_none hw).symm, hq⟩
  slotWaiters := h.slotWaiters.mono (.refl _) fun e _ he hq =>
    ⟨he, (grip_cons_none hw).symm, hq⟩
  blocked := h.blocked.mono (.refl _) fun e _ he hq =>
    ⟨he, (grip_cons_none hw).symm, hq⟩
  release := h.release.mono (.refl _) fun e _ he hq =>
    ⟨he, (grip_cons_none hw).symm, hq⟩
  nodup := gripped_cons_none hw ▸ h.nodup
  gripped := gripped_cons_none hw ▸ h.gripped
  calls := by
    have hq : quiet rest := h.calls.2.1
    refine ⟨nofun, fun id hid => hq id (mem_of_mem_tail hid), ?_⟩
    intro id hid
    exact absurd (mem_of_mem_head? hid) (hq id)

theorem Good.add (h : Good x s work skip mine) (hw : w.grips = none)
    (hq : quiet work) (hp : ∀ id, w = .publish id → skip = none ∧ Unpublished s id) :
    Good x s (w :: work) skip mine where
  reach := h.reach
  mailboxes := h.mailboxes
  slots := h.slots
  load e l hskip hl := (grip_cons_none (e := e) hw).symm ▸ h.load e l hskip hl
  eviction e v hskip hv := (grip_cons_none (e := e) hw).symm ▸ h.eviction e v hskip hv
  settled := h.settled
  owned := h.owned
  holder := h.holder
  busy := h.busy
  mine := h.mine
  queued := h.queued.mono (.refl _) fun e _ he hq => ⟨he, grip_cons_none hw, hq⟩
  slotWaiters := h.slotWaiters.mono (.refl _) fun e _ he hq =>
    ⟨he, grip_cons_none hw, hq⟩
  blocked := h.blocked.mono (.refl _) fun e _ he hq => ⟨he, grip_cons_none hw, hq⟩
  release := h.release.mono (.refl _) fun e _ he hq => ⟨he, grip_cons_none hw, hq⟩
  nodup := (gripped_cons_none hw).symm ▸ h.nodup
  gripped := (gripped_cons_none hw).symm ▸ h.gripped
  calls := by
    refine ⟨fun hs id hid => ?_, hq, fun id hid => ?_⟩
    · rcases mem_cons.mp hid with hid | hid
      · simp [(hp id hid.symm).1] at hs
      · exact hq id hid
    · exact (hp id (some.inj hid)).2

variable {g : Grip}

theorem Good.hold (h : Good x s work skip mine) (hq : quiet work)
    (hw : w.grips = some (e, g)) (hskip : skip ≠ some e) (hfree : grip work e = .free)
    (hl : ∀ l, s.loads.find? e = some l → LoadOk x s g e l)
    (hv : ∀ v, s.evictions.find? e = some v → EvictOk x s g e v)
    (hentry : (∃ l, s.loads.find? e = some l) ∨ ∃ v, s.evictions.find? e = some v)
    (hqueued : e ∉ s.queued) (hslot : e ∉ s.slotWaiters) (hblocked : e ∉ s.blocked)
    (hrel : e ∉ s.releaseQueue) : Good x s (w :: work) skip mine where
  reach := h.reach
  mailboxes := h.mailboxes
  slots := h.slots
  load e' l' hskip' hl' := by
    by_cases he : e' = e
    · subst he
      rw [grip_cons_self hw]
      exact hl l' hl'
    rw [grip_cons_ne hw he]
    exact h.load e' l' hskip' hl'
  eviction e' v' hskip' hv' := by
    by_cases he : e' = e
    · subst he
      rw [grip_cons_self hw]
      exact hv v' hv'
    rw [grip_cons_ne hw he]
    exact h.eviction e' v' hskip' hv'
  settled := h.settled
  owned := h.owned
  holder := h.holder
  busy := h.busy
  mine := h.mine
  queued := h.queued.mono (.refl _) fun e' he' hs hq =>
    ⟨hs, grip_cons_ne hw fun heq => hqueued (heq ▸ he'), hq⟩
  slotWaiters := h.slotWaiters.mono (.refl _) fun e' he' hs hq =>
    ⟨hs, grip_cons_ne hw fun heq => hslot (heq ▸ he'), hq⟩
  blocked := h.blocked.mono (.refl _) fun e' he' hs hq =>
    ⟨hs, grip_cons_ne hw fun heq => hblocked (heq ▸ he'), hq⟩
  release := h.release.mono (.refl _) fun e' he' hs hq =>
    ⟨hs, grip_cons_ne hw fun heq => hrel (heq ▸ he'), hq⟩
  nodup := by
    rw [gripped_cons_some hw, nodup_cons]
    exact ⟨not_mem_of_grip hfree, h.nodup⟩
  gripped e' he' := by
    rw [gripped_cons_some hw] at he'
    rcases mem_cons.mp he' with rfl | he'
    · exact ⟨hskip, hentry⟩
    · exact h.gripped e' he'
  calls := by
    have hp : ∀ id, w ≠ .publish id := by
      rintro id rfl
      exact absurd hw (by simp [Work.grips])
    refine ⟨fun _ id hid => ?_, hq, fun id hid => ?_⟩
    · rcases mem_cons.mp hid with hid | hid
      · exact hp id hid.symm
      · exact hq id hid
    · exact absurd (some.inj hid) (hp id)

/-! ## Taking in hand -/

/-- The state with an extent's operation gone, and the extent in no queue. -/
structure Taken (e : ExtentId) (s s' : Scheduler) : Prop where
  entries : ∀ e', e' ≠ e → SameAt e' s s'
  gone : ∀ id op, s'.stageOp id = some op → s.stageOp id = some op ∧ op.extent ≠ e
  ops : ∀ id op, s.stageOp id = some op → op.extent ≠ e → s'.stageOp id = some op
  slots : s'.slots = s.slots
  queued : s'.queued.Sublist s.queued ∧ e ∉ s'.queued
  slotWaiters : s'.slotWaiters.Sublist s.slotWaiters ∧ e ∉ s'.slotWaiters
  blocked : s'.blocked.Sublist s.blocked ∧ e ∉ s'.blocked
  release : s'.releaseQueue.Sublist s.releaseQueue ∧ e ∉ s'.releaseQueue

/-- The calls left once the extent is in hand: those below the one that held it, or all of them
    if none did. -/
inductive Left (e : ExtentId) : List Work → List Work → Prop
  | held {w : Work} {g : Grip} {rest : List Work} (h : w.grips = some (e, g)) : Left e (w :: rest) rest
  | free {rest : List Work} (h : grip rest e = .free) : Left e rest rest

variable {e' : ExtentId}

theorem Left.grip_eq (h : Left e work rest) (hne : e' ≠ e) : grip rest e' = grip work e' := by
  cases h with
  | held hw => rw [grip_cons_ne hw hne]
  | free => rfl

theorem Left.gripped_sub (h : Left e work rest) (hn : (gripped work).Nodup) :
    (gripped rest).Nodup ∧ ∀ e' ∈ gripped rest, e' ∈ gripped work ∧ e' ≠ e := by
  cases h with
  | held hw =>
    rw [gripped_cons_some hw] at hn ⊢
    refine ⟨(nodup_cons.mp hn).2, fun e' he' => ⟨mem_cons_of_mem _ he', ?_⟩⟩
    rintro rfl
    exact (nodup_cons.mp hn).1 he'
  | free hf =>
    refine ⟨hn, fun e' he' => ⟨he', ?_⟩⟩
    rintro rfl
    exact not_mem_of_grip hf he'

theorem Good.take {slot : Option Nat} (h : Good x s work none none) (hs : Taken e s s')
    (hl : Left e work rest) (hq : quiet rest) (hslot : ∀ i, slot = some i ↔ holdsSlot s e i)
    (hr : Catalog.Reachable s'.catalog) (hm : Mailboxes s'.board s'.operations s'.log) :
    Good x s' rest (some e) slot := by
  have hnone : ∀ {e' : ExtentId}, (none : Option ExtentId) ≠ some e' := by simp
  have hne : ∀ {e' : ExtentId}, some e ≠ some e' → e' ≠ e := fun h heq => h (by rw [heq])
  have hskip : ∀ {e' : ExtentId}, e' ≠ e → some e ≠ some e' := fun h heq =>
    h (some.inj heq).symm
  refine {
    reach := hr
    mailboxes := hm
    slots := by rw [hs.slots]; exact h.slots
    load := fun e' l he' hl' => ?_
    eviction := fun e' v he' hv' => ?_
    settled := fun e' he' hl' hv' => ?_
    owned := fun id op hop => ?_
    holder := fun e1 e2 i h1 h2 hi1 hi2 => ?_
    busy := fun i hi => ?_
    mine := fun i hi => ?_
    queued := h.queued.mono hs.queued.1 fun e' he' _ hq => ?_
    slotWaiters := h.slotWaiters.mono hs.slotWaiters.1 fun e' he' _ hq => ?_
    blocked := h.blocked.mono hs.blocked.1 fun e' he' _ hq => ?_
    release := h.release.mono hs.release.1 fun e' he' _ hq => ?_
    nodup := (hl.gripped_sub h.nodup).1
    gripped := fun e' he' => ?_
    calls := ⟨fun _ => hq, fun id hid => hq id (mem_of_mem_tail hid),
      fun id hid => absurd (mem_of_mem_head? hid) (hq id)⟩ }
  · have hat := hs.entries e' (hne he')
    rw [hat.loads] at hl'
    rw [hl.grip_eq (hne he')]
    have hok := h.load e' l hnone hl'
    refine ⟨hok.flags, hok.held, fun i hi => by rw [hs.slots]; exact hok.slot i hi, ?_⟩
    obtain ⟨p, hp, hreuse, hmap, hstands, hop⟩ := hok.loading
    refine ⟨p, hp.same hat, hreuse, hmap, hstands, ?_⟩
    unfold Load.operates at hop ⊢
    rcases hlo : l.operation with _ | id
    · simpa [hlo] using hop
    simp only [hlo] at hop ⊢
    obtain ⟨route, command, hid, hrest⟩ := hop
    exact ⟨route, command, hs.ops id _ hid (hne he'), hrest⟩
  · have hat := hs.entries e' (hne he')
    rw [hat.evictions] at hv'
    rw [hl.grip_eq (hne he')]
    have hok := h.eviction e' v hnone hv'
    refine ⟨hok.held, fun i hi => by rw [hs.slots]; exact hok.slot i hi, ?_⟩
    obtain ⟨place, p, hp, hflags, hstands, hop⟩ := hok.evicting
    refine ⟨place, p, hp.same hat, hflags, hstands, ?_⟩
    unfold Eviction.operates at hop ⊢
    rcases hvo : v.operation with _ | id
    · simpa [hvo] using hop
    simp only [hvo] at hop ⊢
    obtain ⟨route, command, hid, hrest⟩ := hop
    exact ⟨route, command, hs.ops id _ hid (hne he'), hrest⟩
  · have hat := hs.entries e' (hne he')
    rw [hat.loads] at hl'
    rw [hat.evictions] at hv'
    exact (h.settled e' hnone hl' hv').same hat
  · obtain ⟨hold, hop⟩ := hs.gone id op hop
    exact ⟨hskip hop, (h.owned id op hold).2.same (hs.entries _ hop)⟩
  · rw [holdsSlot_congr (hs.entries e1 (hne h1))] at hi1
    rw [holdsSlot_congr (hs.entries e2 (hne h2))] at hi2
    exact h.holder e1 e2 i hnone hnone hi1 hi2
  · rw [hs.slots] at hi
    obtain hi | ⟨e', -, hold⟩ := h.busy i hi
    · cases hi
    by_cases he : e' = e
    · exact .inl ((hslot i).mpr (he ▸ hold))
    · exact .inr ⟨e', hskip he, (holdsSlot_congr (hs.entries e' he)).mpr hold⟩
  · have hold := (hslot i).mp hi
    refine ⟨?_, fun e' he' hold' => ?_⟩
    · rw [hs.slots]
      rcases hold with ⟨l, hl', hli⟩ | ⟨v, hv', hvi⟩
      · exact (h.load e l hnone hl').slot i hli
      · exact (h.eviction e v hnone hv').slot i hvi
    rw [holdsSlot_congr (hs.entries e' (hne he'))] at hold'
    exact hne he' (h.holder e' e i hnone hnone hold' hold)
  · have he : e' ≠ e := fun heq => hs.queued.2 (heq ▸ he')
    exact ⟨hskip he, hl.grip_eq he, hq.same (hs.entries e' he)⟩
  · have he : e' ≠ e := fun heq => hs.slotWaiters.2 (heq ▸ he')
    exact ⟨hskip he, hl.grip_eq he, hq.same (hs.entries e' he)⟩
  · have he : e' ≠ e := fun heq => hs.blocked.2 (heq ▸ he')
    exact ⟨hskip he, hl.grip_eq he, hq.same (hs.entries e' he)⟩
  · have he : e' ≠ e := fun heq => hs.release.2 (heq ▸ he')
    exact ⟨hskip he, hl.grip_eq he, hq.same (hs.entries e' he)⟩
  obtain ⟨hmem, he⟩ := (hl.gripped_sub h.nodup).2 e' he'
  rw [(hs.entries e' he).loads, (hs.entries e' he).evictions]
  exact ⟨hskip he, (h.gripped e' hmem).2⟩

/-! ## Putting back -/

/-- What becomes of the extent put back: at rest, held by the next call, or its operation the
    next to publish. -/
inductive Next (s : Scheduler) (e : ExtentId) : List Work → Grip → Prop
  | rest : Next s e [] .free
  | held {w : Work} {g : Grip} (h : w.grips = some (e, g)) : Next s e [w] g
  | publish {id : OperationId} (h : Unpublished s id) : Next s e [.publish id] .free

theorem Next.grip_self (h : Next s e calls g)
    (hfree : grip work e = .free) : grip (calls ++ work) e = g := by
  cases h with
  | rest => exact hfree
  | held hw => exact grip_cons_self hw
  | publish => exact hfree

theorem Next.grip_ne (h : Next s e calls g)
    (hne : e' ≠ e) : grip (calls ++ work) e' = grip work e' := by
  cases h with
  | rest => rfl
  | held hw => exact grip_cons_ne hw hne
  | publish => rfl

structure Entry (x : Config) (s : Scheduler) (g : Grip) (e : ExtentId) : Prop where
  load : ∀ l, s.loads.find? e = some l → LoadOk x s g e l
  eviction : ∀ v, s.evictions.find? e = some v → EvictOk x s g e v
  settled : s.loads.find? e = none → s.evictions.find? e = none → Settled s e
  held : g ≠ .free → (∃ l, s.loads.find? e = some l) ∨ ∃ v, s.evictions.find? e = some v

def Kept (s : Scheduler) (e : ExtentId) (mine mine' : Option Nat) : Prop :=
  (mine' = none ∧ ∀ i, holdsSlot s e i ↔ mine = some i) ∨
    (mine' = mine ∧ ∀ i, ¬ holdsSlot s e i)

theorem Kept.of_slot {slot mine' : Option Nat} (hslot : ∀ i, slot = some i ↔ holdsSlot s e i)
    (hk : mine' = none ∧ slot = mine ∨ mine' = mine ∧ slot = none) : Kept s e mine mine' := by
  rcases hk with ⟨hm, hk⟩ | ⟨hm, hk⟩
  · refine .inl ⟨hm, fun i => ?_⟩
    rw [← hslot, hk]
  refine .inr ⟨hm, fun i hi => ?_⟩
  cases hk.symm.trans ((hslot i).mpr hi)

/-- The state with the extent's entry back and perhaps an operation of its own opened. -/
structure Given (e : ExtentId) (s s' : Scheduler) : Prop where
  entries : ∀ e', e' ≠ e → SameAt e' s s'
  opened : ∀ id op, s'.stageOp id = some op →
    s.stageOp id = some op ∨ (op.extent = e ∧ Owned s' id op)
  ops : ∀ id op, s.stageOp id = some op → s'.stageOp id = some op
  slots : s'.slots = s.slots
  queued : s'.queued = s.queued
  slotWaiters : s'.slotWaiters = s.slotWaiters
  blocked : s'.blocked = s.blocked
  release : s'.releaseQueue = s.releaseQueue

theorem Given.refl (e : ExtentId) (s : Scheduler) : Given e s s :=
  ⟨fun _ _ => .of rfl rfl rfl rfl rfl, fun _ _ h => .inl h, fun _ _ h => h, rfl, rfl, rfl, rfl, rfl⟩

theorem Good.put {c : List Work} {mine' : Option Nat} (h : Good x s work (some e) mine)
    (hs : Given e s s') (hn : Next s' e c g) (he : Entry x s' g e) (hk : Kept s' e mine mine')
    (hr : Catalog.Reachable s'.catalog) (hm : Mailboxes s'.board s'.operations s'.log) :
    Good x s' (c ++ work) none mine' := by
  have hnone : ∀ {e' : ExtentId}, (none : Option ExtentId) ≠ some e' := by simp
  have hskip : ∀ {e' : ExtentId}, e' ≠ e → some e ≠ some e' := fun h heq =>
    h (some.inj heq).symm
  have hfree : grip work e = .free := grip_of_not_mem fun hmem => (h.gripped e hmem).1 rfl
  have hq : quiet work := h.calls.1 rfl
  -- In a queue, so not the extent in hand.
  have hother : ∀ {q P} {e' : ExtentId}, Lined work (some e) q P → e' ∈ q → e' ≠ e :=
    fun hlined hmem heq => hlined.not_mem (heq ▸ hmem)
  refine {
    reach := hr
    mailboxes := hm
    slots := by rw [hs.slots]; exact h.slots
    load := fun e' l _ hl' => ?_
    eviction := fun e' v _ hv' => ?_
    settled := fun e' _ hl' hv' => ?_
    owned := fun id op hop => ⟨hnone, ?_⟩
    holder := fun e1 e2 i _ _ hi1 hi2 => ?_
    busy := fun i hi => ?_
    mine := fun i hi => ?_
    queued := hs.queued ▸ h.queued.mono (.refl _) fun e' he' _ hq => ?_
    slotWaiters := hs.slotWaiters ▸ h.slotWaiters.mono (.refl _) fun e' he' _ hq => ?_
    blocked := hs.blocked ▸ h.blocked.mono (.refl _) fun e' he' _ hq => ?_
    release := hs.release ▸ h.release.mono (.refl _) fun e' he' _ hq => ?_
    nodup := ?_
    gripped := fun e' he' => ⟨hnone, ?_⟩
    calls := ⟨nofun, ?_, ?_⟩ }
  · by_cases heq : e' = e
    · subst heq
      rw [hn.grip_self hfree]
      exact he.load l hl'
    have hat := hs.entries e' heq
    rw [hat.loads] at hl'
    rw [hn.grip_ne heq]
    exact (h.load e' l (hskip heq) hl').same hat hs.ops fun i _ => by rw [hs.slots]
  · by_cases heq : e' = e
    · subst heq
      rw [hn.grip_self hfree]
      exact he.eviction v hv'
    have hat := hs.entries e' heq
    rw [hat.evictions] at hv'
    rw [hn.grip_ne heq]
    exact (h.eviction e' v (hskip heq) hv').same hat hs.ops fun i _ => by rw [hs.slots]
  · by_cases heq : e' = e
    · subst heq
      exact he.settled hl' hv'
    have hat := hs.entries e' heq
    rw [hat.loads] at hl'
    rw [hat.evictions] at hv'
    exact (h.settled e' (hskip heq) hl' hv').same hat
  · rcases hs.opened id op hop with hold | ⟨-, how⟩
    · obtain ⟨hne, how⟩ := h.owned id op hold
      exact how.same (hs.entries op.extent fun heq => hne (by rw [heq]))
    · exact how
  · -- Two holders: both others, or one the extent in hand, whose slot no other has.
    have hmine : ∀ e', e' ≠ e → holdsSlot s' e' i → holdsSlot s' e i → False := by
      intro e' hne hi' hi
      rcases hk with ⟨-, hk⟩ | ⟨-, hk⟩
      · refine (h.mine i ((hk i).mp hi)).2 e' (hskip hne) ?_
        exact (holdsSlot_congr (hs.entries e' hne)).mp hi'
      · exact hk i hi
    by_cases h1 : e1 = e
    · by_cases h2 : e2 = e
      · rw [h1, h2]
      · exact (hmine e2 h2 hi2 (h1 ▸ hi1)).elim
    by_cases h2 : e2 = e
    · exact (hmine e1 h1 hi1 (h2 ▸ hi2)).elim
    rw [holdsSlot_congr (hs.entries e1 h1)] at hi1
    rw [holdsSlot_congr (hs.entries e2 h2)] at hi2
    exact h.holder e1 e2 i (hskip h1) (hskip h2) hi1 hi2
  · rw [hs.slots] at hi
    rcases h.busy i hi with hi | ⟨e', hne, hold⟩
    · rcases hk with ⟨-, hk⟩ | ⟨hm', -⟩
      · exact .inr ⟨e, hnone, (hk i).mpr hi⟩
      · exact .inl (hm'.trans hi)
    have hne' : e' ≠ e := fun heq => hne (by rw [heq])
    exact .inr ⟨e', hnone, (holdsSlot_congr (hs.entries e' hne')).mpr hold⟩
  · rcases hk with ⟨hm', -⟩ | ⟨hm', hk⟩
    · rw [hm'] at hi
      cases hi
    rw [hm'] at hi
    obtain ⟨hbusy, hothers⟩ := h.mine i hi
    refine ⟨by rw [hs.slots]; exact hbusy, fun e' _ hold => ?_⟩
    by_cases heq : e' = e
    · exact hk i (heq ▸ hold)
    · exact hothers e' (hskip heq) ((holdsSlot_congr (hs.entries e' heq)).mp hold)
  · have hne := hother h.queued he'
    exact ⟨hnone, hn.grip_ne hne, hq.same (hs.entries e' hne)⟩
  · have hne := hother h.slotWaiters he'
    exact ⟨hnone, hn.grip_ne hne, hq.same (hs.entries e' hne)⟩
  · have hne := hother h.blocked he'
    exact ⟨hnone, hn.grip_ne hne, hq.same (hs.entries e' hne)⟩
  · have hne := hother h.release he'
    exact ⟨hnone, hn.grip_ne hne, hq.same (hs.entries e' hne)⟩
  · cases hn with
    | rest => exact h.nodup
    | held hw =>
      rw [singleton_append, gripped_cons_some hw, nodup_cons]
      exact ⟨not_mem_of_grip hfree, h.nodup⟩
    | publish => exact h.nodup
  · have hentry : ∀ e' ∈ Scheduler.gripped work, (∃ l, s'.loads.find? e' = some l) ∨
        ∃ v, s'.evictions.find? e' = some v := by
      intro e' hmem
      obtain ⟨hne, hentry⟩ := h.gripped e' hmem
      have hne' : e' ≠ e := fun heq => hne (by rw [heq])
      rw [(hs.entries e' hne').loads, (hs.entries e' hne').evictions]
      exact hentry
    cases hn with
    | rest | publish => exact hentry e' he'
    | held hw =>
      rw [singleton_append, gripped_cons_some hw] at he'
      rcases mem_cons.mp he' with rfl | he'
      · exact he.held (Work.grips_ne_free hw)
      · exact hentry e' he'
  · cases hn with
    | rest => exact fun id hid => hq id (mem_of_mem_tail hid)
    | held | publish => exact hq
  intro id hid
  cases hn with
  | rest => exact absurd (mem_of_mem_head? hid) (hq id)
  | held hw =>
    cases hid
    exact absurd hw (by simp [Work.grips])
  | publish hp =>
    simp only [singleton_append, head?_cons, some.injEq, Work.publish.injEq] at hid
    exact hid ▸ hp

/-! ## Entries that come and go at rest -/

theorem Good.settle (h : Good x s work skip mine)
    (hfree : grip work e' = .free) (hown : ∀ id op, s.stageOp id = some op → op.extent ≠ e')
    (hslot : ∀ i, ¬ holdsSlot s e' i) (hqueues : e' ∉ s.queued ∧ e' ∉ s.slotWaiters ∧
      e' ∉ s.blocked ∧ e' ∉ s.releaseQueue)
    (hent : ∀ e, skip ≠ some e → e ≠ e' → SameAt e s s') (hops : s'.operations = s.operations)
    (hslots : s'.slots = s.slots) (hsame : s'.queued = s.queued ∧ s'.slotWaiters = s.slotWaiters ∧
      s'.blocked = s.blocked ∧ s'.releaseQueue = s.releaseQueue)
    (hl : s'.loads.find? e' = none) (hv : s'.evictions.find? e' = none) (he : Settled s' e')
    (hr : Catalog.Reachable s'.catalog) (hm : Mailboxes s'.board s'.operations s'.log) :
    Good x s' work skip mine := by
  have hfind : ∀ id, s'.find id = s.find id := fun id => by unfold find; rw [hops]
  have hstage : ∀ id, s'.stageOp id = s.stageOp id := fun id => by unfold stageOp; rw [hfind]
  have hno : ∀ i, ¬ holdsSlot s' e' i := by
    rintro i (⟨l, hl', -⟩ | ⟨v, hv', -⟩)
    · cases hl.symm.trans hl'
    · cases hv.symm.trans hv'
  refine {
    reach := hr
    mailboxes := hm
    slots := by rw [hslots]; exact h.slots
    load := fun e l hs hl' => ?_
    eviction := fun e v hs hv' => ?_
    settled := fun e hs hl' hv' => ?_
    owned := fun id op hop => ?_
    holder := fun e1 e2 i h1 h2 hi1 hi2 => ?_
    busy := fun i hi => ?_
    mine := fun i hi => ?_
    queued := hsame.1 ▸ h.queued.mono (.refl _) fun e he hs hq => ?_
    slotWaiters := hsame.2.1 ▸ h.slotWaiters.mono (.refl _) fun e he hs hq => ?_
    blocked := hsame.2.2.1 ▸ h.blocked.mono (.refl _) fun e he hs hq => ?_
    release := hsame.2.2.2 ▸ h.release.mono (.refl _) fun e he hs hq => ?_
    nodup := h.nodup
    gripped := fun e he => ?_
    calls := ⟨h.calls.1, h.calls.2.1, fun id hid => ?_⟩ }
  · have hne : e ≠ e' := fun heq => nomatch (heq ▸ hl).symm.trans hl'
    have hat := hent e hs hne
    rw [hat.loads] at hl'
    exact (h.load e l hs hl').same hat (fun id op hop => (hstage id).trans hop) fun i _ => by
      rw [hslots]
  · have hne : e ≠ e' := fun heq => nomatch (heq ▸ hv).symm.trans hv'
    have hat := hent e hs hne
    rw [hat.evictions] at hv'
    exact (h.eviction e v hs hv').same hat (fun id op hop => (hstage id).trans hop) fun i _ => by
      rw [hslots]
  · by_cases hne : e = e'
    · exact hne ▸ he
    have hat := hent e hs hne
    rw [hat.loads] at hl'
    rw [hat.evictions] at hv'
    exact (h.settled e hs hl' hv').same hat
  · rw [hstage] at hop
    obtain ⟨hs, how⟩ := h.owned id op hop
    exact ⟨hs, how.same (hent op.extent hs (hown id op hop))⟩
  · have hne1 : e1 ≠ e' := fun heq => hno i (heq ▸ hi1)
    have hne2 : e2 ≠ e' := fun heq => hno i (heq ▸ hi2)
    rw [holdsSlot_congr (hent e1 h1 hne1)] at hi1
    rw [holdsSlot_congr (hent e2 h2 hne2)] at hi2
    exact h.holder e1 e2 i h1 h2 hi1 hi2
  · rw [hslots] at hi
    refine (h.busy i hi).imp_right ?_
    rintro ⟨e, hs, hold⟩
    have hne : e ≠ e' := fun heq => hslot i (heq ▸ hold)
    exact ⟨e, hs, (holdsSlot_congr (hent e hs hne)).mpr hold⟩
  · obtain ⟨hbusy, hnone⟩ := h.mine i hi
    rw [hslots]
    refine ⟨hbusy, fun e hs hold => ?_⟩
    have hne : e ≠ e' := fun heq => hno i (heq ▸ hold)
    exact hnone e hs ((holdsSlot_congr (hent e hs hne)).mp hold)
  · exact ⟨hs, rfl, hq.same (hent e hs fun heq => hqueues.1 (heq ▸ he))⟩
  · exact ⟨hs, rfl, hq.same (hent e hs fun heq => hqueues.2.1 (heq ▸ he))⟩
  · exact ⟨hs, rfl, hq.same (hent e hs fun heq => hqueues.2.2.1 (heq ▸ he))⟩
  · exact ⟨hs, rfl, hq.same (hent e hs fun heq => hqueues.2.2.2 (heq ▸ he))⟩
  · obtain ⟨hs, hentry⟩ := h.gripped e he
    have hne : e ≠ e' := fun heq => not_mem_of_grip hfree (heq ▸ he)
    rw [(hent e hs hne).loads, (hent e hs hne).evictions]
    exact ⟨hs, hentry⟩
  obtain ⟨op, hf, hrest⟩ := h.calls.2.2 id hid
  exact ⟨op, (hfind id).trans hf, hrest⟩

theorem Good.absent (h : Good x s work none mine) (hl : s.loads.find? e = none)
    (hv : s.evictions.find? e = none) : grip work e = .free ∧
      (∀ id op, s.stageOp id = some op → op.extent ≠ e) ∧ e ∉ s.queued ∧ e ∉ s.slotWaiters ∧
      e ∉ s.blocked ∧ e ∉ s.releaseQueue := by
  refine ⟨grip_of_not_mem fun hmem => ?_, ?_, fun hmem => ?_, fun hmem => ?_, fun hmem => ?_,
    fun hmem => ?_⟩
  · rcases (h.gripped e hmem).2 with ⟨l, hl'⟩ | ⟨v, hv'⟩
    · cases hl.symm.trans hl'
    · cases hv.symm.trans hv'
  · rintro id op hop rfl
    have how := (h.owned id op hop).2
    unfold Owned at how
    split at how
    · obtain ⟨l, hl', -⟩ := how
      cases hl.symm.trans hl'
    obtain ⟨v, hv', -⟩ := how
    cases hv.symm.trans hv'
  · obtain ⟨l, hl', -⟩ := (h.queued.each e hmem).2.2
    cases hl.symm.trans hl'
  · rcases (h.slotWaiters.each e hmem).2.2 with ⟨l, hl', -⟩ | ⟨v, hv', -⟩
    · cases hl.symm.trans hl'
    · cases hv.symm.trans hv'
  · rcases (h.blocked.each e hmem).2.2 with ⟨l, hl', -⟩ | ⟨v, hv', -⟩
    · cases hl.symm.trans hl'
    · cases hv.symm.trans hv'
  obtain ⟨v, hv', -⟩ := (h.release.each e hmem).2.2
  cases hv.symm.trans hv'

theorem Good.takeAbsent (h : Good x s work none none) (hq : quiet work)
    (hl : s.loads.find? e = none) (hv : s.evictions.find? e = none)
    (hent : ∀ e', e' ≠ e → SameAt e' s s') (hops : ∀ id, s'.stageOp id = s.stageOp id)
    (hslots : s'.slots = s.slots) (hsame : s'.queued = s.queued ∧ s'.slotWaiters = s.slotWaiters ∧
      s'.blocked = s.blocked ∧ s'.releaseQueue = s.releaseQueue)
    (hr : Catalog.Reachable s'.catalog) (hm : Mailboxes s'.board s'.operations s'.log) :
    Good x s' work (some e) none := by
  obtain ⟨hfree, hown, hqueued, hslot, hblocked, hrel⟩ := h.absent hl hv
  obtain ⟨hq1, hq2, hq3, hq4⟩ := hsame
  refine h.take ⟨hent, fun id op hop => ?_, fun id op hop _ => (hops id).trans hop, hslots,
    ?_, ?_, ?_, ?_⟩ (.free hfree) hq (fun i => ⟨nofun, ?_⟩) hr hm
  · rw [hops] at hop
    exact ⟨hop, hown id op hop⟩
  · rw [hq1]; exact ⟨.refl _, hqueued⟩
  · rw [hq2]; exact ⟨.refl _, hslot⟩
  · rw [hq3]; exact ⟨.refl _, hblocked⟩
  · rw [hq4]; exact ⟨.refl _, hrel⟩
  rintro (⟨l, hl', -⟩ | ⟨v, hv', -⟩)
  · cases hl.symm.trans hl'
  · cases hv.symm.trans hv'

/-! ## Waiters -/

def Load.Alike (l l' : Load) : Prop :=
  l' = { l with waiters := l'.waiters, cancelling := l'.cancelling }

def Eviction.Alike (v v' : Eviction) : Prop :=
  v' = { v with waiters := v'.waiters } ∧ (v.stage = .parked → v'.waiters = [])

/-- Two states that differ, as far as `Good` reads them, in who waits for what. -/
structure Rewaited (s s' : Scheduler) : Prop where
  state : s' = { s with loads := s'.loads, evictions := s'.evictions }
  loads : ∀ e, Option.Rel Load.Alike (s.loads.find? e) (s'.loads.find? e)
  evictions : ∀ e, Option.Rel Eviction.Alike (s.evictions.find? e) (s'.evictions.find? e)

section Rewaited

variable {α β : Type} {R : α → β → Prop} {o : Option α} {o' : Option β}

theorem rel_some (h : Option.Rel R o o') {a : α} (ha : o = some a) : ∃ b, o' = some b ∧ R a b := by
  subst ha
  cases h with
  | some hr => exact ⟨_, rfl, hr⟩

theorem rel_some' (h : Option.Rel R o o') {b : β} (hb : o' = some b) : ∃ a, o = some a ∧ R a b := by
  subst hb
  cases h with
  | some hr => exact ⟨_, rfl, hr⟩

theorem rel_none (h : Option.Rel R o o') : o' = none ↔ o = none := by
  cases h <;> simp

variable {l l' : Load} {v v' : Eviction} {g : Grip}

theorem LoadOk.rewaited (h : LoadOk x s g e l) (hs : Rewaited s s') (hl : l.Alike l') :
    LoadOk x s' g e l' := by
  obtain ⟨p, hp, hreuse, hmap, hstands, hop⟩ := h.loading
  have hev : s'.evictions.find? e = none := (rel_none (hs.evictions e)).mpr hp.eviction
  rw [hl]
  rw [hs.state] at hev ⊢
  exact ⟨h.flags, h.held, h.slot, p, ⟨hev, hp.ticket, hp.phase, hp.source⟩, hreuse, hmap, hstands,
    hop⟩

theorem EvictOk.rewaited (h : EvictOk x s g e v) (hs : Rewaited s s') (hv : v.Alike v') :
    EvictOk x s' g e v' := by
  obtain ⟨place, p, hp, hflags, hstands, hop⟩ := h.evicting
  have hload : s'.loads.find? e = none := (rel_none (hs.loads e)).mpr hp.load
  obtain ⟨heq, hpar⟩ := hv
  rw [hs.state] at hload ⊢
  rw [heq]
  refine ⟨h.held, h.slot, place, p, ⟨hload, hp.ticket, hp.source, hp.phase, hp.placed, hp.writeBack,
    hp.handoff⟩, ?_, hstands, hop⟩
  obtain ⟨hhand, hwb, hro, hcase⟩ := hflags
  refine ⟨hhand, hwb, hro, ?_⟩
  cases hstage : v.stage <;> simp only [hstage] at hcase ⊢
  case parked => exact ⟨hcase.1, hcase.2.1, hcase.2.2.1, hpar hstage, hcase.2.2.2.2⟩
  all_goals exact hcase

theorem holdsSlot_rewaited (hs : Rewaited s s') (e : ExtentId) (i : Nat) :
    holdsSlot s' e i ↔ holdsSlot s e i := by
  constructor
  · rintro (⟨l', hl', hi⟩ | ⟨v', hv', hi⟩)
    · obtain ⟨l, hl, heq⟩ := rel_some' (hs.loads e) hl'
      rw [heq] at hi
      exact .inl ⟨l, hl, hi⟩
    obtain ⟨v, hv, heq, -⟩ := rel_some' (hs.evictions e) hv'
    rw [heq] at hi
    exact .inr ⟨v, hv, hi⟩
  rintro (⟨l, hl, hi⟩ | ⟨v, hv, hi⟩)
  · obtain ⟨l', hl', heq⟩ := rel_some (hs.loads e) hl
    refine .inl ⟨l', hl', ?_⟩
    rw [heq]
    exact hi
  obtain ⟨v', hv', heq, -⟩ := rel_some (hs.evictions e) hv
  refine .inr ⟨v', hv', ?_⟩
  rw [heq]
  exact hi

theorem InQueue.rewaited (h : InQueue s e) (hs : Rewaited s s') : InQueue s' e := by
  obtain ⟨l, hl, hstage⟩ := h
  obtain ⟨l', hl', heq⟩ := rel_some (hs.loads e) hl
  exact ⟨l', hl', by rw [heq]; exact hstage⟩

theorem ForSlot.rewaited (h : ForSlot s e) (hs : Rewaited s s') : ForSlot s' e := by
  rcases h with ⟨l, hl, hstage⟩ | ⟨v, hv, hstage⟩
  · obtain ⟨l', hl', heq⟩ := rel_some (hs.loads e) hl
    exact .inl ⟨l', hl', by rw [heq]; exact hstage⟩
  obtain ⟨v', hv', heq, -⟩ := rel_some (hs.evictions e) hv
  exact .inr ⟨v', hv', by rw [heq]; exact hstage⟩

theorem ForMailbox.rewaited (h : ForMailbox s e) (hs : Rewaited s s') : ForMailbox s' e := by
  rcases h with ⟨l, hl, hrest⟩ | ⟨v, hv, hrest⟩
  · obtain ⟨l', hl', heq⟩ := rel_some (hs.loads e) hl
    exact .inl ⟨l', hl', by rw [heq]; exact hrest⟩
  obtain ⟨v', hv', heq, -⟩ := rel_some (hs.evictions e) hv
  exact .inr ⟨v', hv', by rw [heq]; exact hrest⟩

theorem ForRelease.rewaited (h : ForRelease s e) (hs : Rewaited s s') : ForRelease s' e := by
  obtain ⟨v, hv, hrest⟩ := h
  obtain ⟨v', hv', heq, -⟩ := rel_some (hs.evictions e) hv
  exact ⟨v', hv', by rw [heq]; exact hrest⟩

theorem Owned.rewaited {id : OperationId} {op : StageOp} (h : Owned s id op)
    (hs : Rewaited s s') : Owned s' id op := by
  unfold Owned at h ⊢
  split at h
  · obtain ⟨l, hl, hid⟩ := h
    obtain ⟨l', hl', heq⟩ := rel_some (hs.loads _) hl
    exact ⟨l', hl', by rw [heq]; exact hid⟩
  obtain ⟨v, hv, hid⟩ := h
  obtain ⟨v', hv', heq, -⟩ := rel_some (hs.evictions _) hv
  exact ⟨v', hv', by rw [heq]; exact hid⟩

theorem Good.rewaited (h : Good x s work skip mine) (hs : Rewaited s s') :
    Good x s' work skip mine where
  reach := by rw [hs.state]; exact h.reach
  mailboxes := by rw [hs.state]; exact h.mailboxes
  slots := by rw [hs.state]; exact h.slots
  load e l' he hl' := by
    obtain ⟨l, hl, halike⟩ := rel_some' (hs.loads e) hl'
    exact (h.load e l he hl).rewaited hs halike
  eviction e v' he hv' := by
    obtain ⟨v, hv, halike⟩ := rel_some' (hs.evictions e) hv'
    exact (h.eviction e v he hv).rewaited hs halike
  settled e he hl hv := by
    have hset := h.settled e he ((rel_none (hs.loads e)).mp hl) ((rel_none (hs.evictions e)).mp hv)
    rw [hs.state]
    exact hset
  owned id op hop := by
    have hop' : s.stageOp id = some op := by
      rw [hs.state] at hop
      exact hop
    exact ⟨(h.owned id op hop').1, (h.owned id op hop').2.rewaited hs⟩
  holder e e' i he he' hi hi' :=
    h.holder e e' i he he' ((holdsSlot_rewaited hs e i).mp hi) ((holdsSlot_rewaited hs e' i).mp hi')
  busy i hi := by
    have hi' : s.slots[i]? = some .busy := by
      rw [hs.state] at hi
      exact hi
    refine (h.busy i hi').imp_right ?_
    rintro ⟨e, he, hold⟩
    exact ⟨e, he, (holdsSlot_rewaited hs e i).mpr hold⟩
  mine i hi := by
    obtain ⟨hbusy, hnone⟩ := h.mine i hi
    refine ⟨by rw [hs.state]; exact hbusy, fun e he hold => ?_⟩
    exact hnone e he ((holdsSlot_rewaited hs e i).mp hold)
  queued := by
    have hq : s'.queued = s.queued := by rw [hs.state]
    exact h.queued.mono (hq ▸ .refl _) fun e _ he hP => ⟨he, rfl, hP.rewaited hs⟩
  slotWaiters := by
    have hq : s'.slotWaiters = s.slotWaiters := by rw [hs.state]
    exact h.slotWaiters.mono (hq ▸ .refl _) fun e _ he hP => ⟨he, rfl, hP.rewaited hs⟩
  blocked := by
    have hq : s'.blocked = s.blocked := by rw [hs.state]
    exact h.blocked.mono (hq ▸ .refl _) fun e _ he hP => ⟨he, rfl, hP.rewaited hs⟩
  release := by
    have hq : s'.releaseQueue = s.releaseQueue := by rw [hs.state]
    exact h.release.mono (hq ▸ .refl _) fun e _ he hP => ⟨he, rfl, hP.rewaited hs⟩
  nodup := h.nodup
  gripped e he := by
    obtain ⟨hs', hentry⟩ := h.gripped e he
    refine ⟨hs', hentry.imp ?_ ?_⟩
    · rintro ⟨l, hl⟩
      obtain ⟨l', hl', -⟩ := rel_some (hs.loads e) hl
      exact ⟨l', hl'⟩
    rintro ⟨v, hv⟩
    obtain ⟨v', hv', -⟩ := rel_some (hs.evictions e) hv
    exact ⟨v', hv'⟩
  calls := ⟨h.calls.1, h.calls.2.1, fun id hid => by
    rw [hs.state]
    exact h.calls.2.2 id hid⟩

end Rewaited

/-! ## Slots -/

theorem Good.setSlot (h : Good x s work skip mine)
    (hothers : ∀ e, skip ≠ some e → ¬ holdsSlot s e i) (hmine : ∀ j, mine = some j → j = i)
    (hi : i < s.slots.length) : Good x { s with slots := s.slots.set i state } work skip
      (if state = .busy then some i else none) := by
  have hat : ∀ e, SameAt e s { s with slots := s.slots.set i state } :=
    fun _ => .of rfl rfl rfl rfl rfl
  have hkept : ∀ j, j ≠ i → (s.slots.set i state)[j]? = s.slots[j]? := fun j hj =>
    getElem?_set_ne (Ne.symm hj)
  have hself : (s.slots.set i state)[i]? = some state := by
    rw [getElem?_set_self hi]
  refine {
    reach := h.reach
    mailboxes := h.mailboxes
    slots := by rw [length_set]; exact h.slots
    load := fun e l he hl => ?_
    eviction := fun e v he hv => ?_
    settled := fun e he hl hv => (h.settled e he hl hv).same (hat e)
    owned := h.owned
    holder := h.holder
    busy := fun j hj => ?_
    mine := fun j hj => ?_
    queued := h.queued
    slotWaiters := h.slotWaiters
    blocked := h.blocked
    release := h.release
    nodup := h.nodup
    gripped := h.gripped
    calls := h.calls }
  · refine (h.load e l he hl).same (hat e) (fun _ _ hop => hop) fun j hj => hkept j ?_
    rintro rfl
    exact hothers e he (.inl ⟨l, hl, hj⟩)
  · refine (h.eviction e v he hv).same (hat e) (fun _ _ hop => hop) fun j hj => hkept j ?_
    rintro rfl
    exact hothers e he (.inr ⟨v, hv, hj⟩)
  · by_cases hji : j = i
    · subst hji
      have hstate : state = .busy := some.inj (hself.symm.trans hj)
      exact .inl (if_pos hstate)
    rw [hkept j hji] at hj
    exact (h.busy j hj).imp (fun hm => absurd (hmine j hm) hji) id
  split at hj
  next hstate =>
    cases hj
    exact ⟨by rw [hself, hstate], hothers⟩
  · cases hj

theorem Good.vacate (h : Good x s work skip (some i))
    (hstate : state ≠ .busy) : Good x { s with slots := s.slots.set i state } work skip none := by
  obtain ⟨hbusy, hothers⟩ := h.mine i rfl
  have hset : Good x { s with slots := s.slots.set i state } work skip
      (if state = .busy then some i else none) :=
    h.setSlot hothers (fun j hj => (some.inj hj).symm) (List.getElem?_eq_some_iff.mp hbusy).1
  rwa [if_neg hstate] at hset

theorem Good.seize (h : Good x s work skip none) (hfree : s.slots[i]? = some .free) :
    Good x { s with slots := s.slots.set i .busy } work skip (some i) := by
  refine h.setSlot (fun e he hold => ?_) (fun j hj => absurd hj (by simp))
    (List.getElem?_eq_some_iff.mp hfree).1
  -- Whoever holds a slot holds a busy one.
  have hbusy : s.slots[i]? = some .busy := by
    rcases hold with ⟨l, hl, hi⟩ | ⟨v, hv, hi⟩
    · exact (h.load e l he hl).slot i hi
    · exact (h.eviction e v he hv).slot i hi
  rw [hfree] at hbusy
  cases hbusy

/-! ## Queues -/

theorem Good.requeue {queued slotWaiters blocked releaseQueue : List ExtentId}
    (h : Good x s work skip mine) (hq : Lined work skip queued (InQueue s))
    (hs : Lined work skip slotWaiters (ForSlot s)) (hb : Lined work skip blocked (ForMailbox s))
    (hr : Lined work skip releaseQueue (ForRelease s)) :
    Good x { s with queued, slotWaiters, blocked, releaseQueue } work skip mine :=
  have hat : ∀ e, SameAt e s { s with queued, slotWaiters, blocked, releaseQueue } :=
    fun _ => .of rfl rfl rfl rfl rfl
  { h with
    load := fun e l he hl => (h.load e l he hl).same (hat e) (fun _ _ hop => hop) fun _ _ => rfl
    eviction := fun e v he hv =>
      (h.eviction e v he hv).same (hat e) (fun _ _ hop => hop) fun _ _ => rfl
    queued := hq
    slotWaiters := hs
    blocked := hb
    release := hr }

end Rules
end JitLlm.Scheduler
