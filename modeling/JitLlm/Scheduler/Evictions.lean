import JitLlm.Scheduler.Loads

/-!
# The stages of an eviction

As `Scheduler/Loads.lean`, for the second half of `pagein.cc`: write-backs, unmappings, parked
backing and its release. An eviction in hand is `Holding`.
-/

namespace JitLlm.Scheduler

open Base Lib
open Catalog hiding Operation Reachable

/-! ## Calls of the catalog -/

variable {r : ExtentRecord}

variable {e : ExtentId} {ticket : Ticket} {p : EvictPhase}

theorem settleEviction_sat {c : Catalog} (evicted : Bool) (h : Catalog.Evicts c e ticket r)
    (hr : Catalog.Reachable c) (hidle : p.operation = none) (hdone : evicted = true → p.done = true)
    (hkept : evicted = false → p.untouched = true) :
    Sat Catalog.Own (fun y => Catalog.Reachable y.2 ∧ ∃ r', Catalog.Edit c e r' y.2 ∧
        EvictEnd e p r r' (if evicted then .evicted e r.writingBack else .abandoned e))
      (expect .settleEvict (if evicted then c.completeEvict ticket else c.cancelEvict ticket)) := by
  cases evicted with
  | true =>
    refine (expect_sat (a := ()) (P := fun c' => Catalog.Reachable c' ∧
      ∃ r', Catalog.Edit c e r' c' ∧ Evicted r r') ?_).imp ?_
    · refine (call_sat hr (.completeEvict ticket) rfl (completeEvict_sat h)).imp ?_
      rintro y ⟨⟨hok, r', hedit, hs, hp, hd, hl, hreg, hg⟩, hreach⟩
      exact ⟨hok, hreach, r', hedit, hs, hp, hd, hl, hreg, hg⟩
    rintro y ⟨-, hreach, r', hedit, hevi⟩
    exact ⟨hreach, r', hedit, .evicted hidle (hdone rfl) hevi⟩
  | false =>
    refine (expect_sat (a := ()) (P := fun c' => Catalog.Reachable c' ∧
      Catalog.Edit c e r.kept c') ?_).imp ?_
    · exact (call_sat hr (.cancelEvict ticket) rfl (cancelEvict_sat h)).imp
        fun y hy => ⟨hy.1.1, hy.2, hy.1.2⟩
    rintro y ⟨-, hreach, hedit⟩
    exact ⟨hreach, _, hedit, .abandoned hidle (hkept rfl)⟩

theorem loseEviction_sat {c : Catalog}
    (h : Catalog.Evicts c e ticket r) (hr : Catalog.Reachable c) :
    Sat Catalog.Own (fun y => Catalog.Reachable y.2 ∧
        Catalog.Edit c e { r.quarantined with writingBack := false } y.2)
      (expect .quarantineEvict (c.quarantineEviction ticket)) := by
  refine (expect_sat (a := ()) (P := fun c' => Catalog.Reachable c' ∧
    Catalog.Edit c e { r.quarantined with writingBack := false } c') ?_).imp fun y hy => hy.2
  exact (call_sat hr (.quarantineEviction ticket) rfl (quarantineEviction_sat h)).imp
    fun y hy => ⟨hy.1.1, hy.2, hy.1.2⟩

theorem EvictEnd.settled {s s' : Scheduler} {r r' : ExtentRecord}
    {event : Event} (h : EvictEnd e p r r' event) (hphase : phase e s.log = .evicting p)
    (hwb : p.writeBack = r.writingBack) (hlog : s'.log = event :: s.log)
    (hr : s'.catalog.extents.find? e = some r') : Settled s' e := by
  have hstep : phase e s'.log = p.step event := by
    rw [hlog]
    cases h with
    | evicted | abandoned | lost => rw [phase_cons _ rfl, hphase]; rfl
  cases h with
  | evicted hidle hdone hevi =>
    refine Or.inl ⟨by rw [hstep]; simp [EvictPhase.step, hidle, hdone, hwb], fun r1 hr1 => ?_⟩
    cases hr.symm.trans hr1
    exact ⟨by simp [hevi.state], by simp [hevi.state]⟩
  | abandoned hidle hunt =>
    refine Or.inl ⟨by rw [hstep]; simp [EvictPhase.step, hidle, hunt], fun r1 hr1 => ?_⟩
    cases hr.symm.trans hr1
    exact ⟨by simp [ExtentRecord.kept], by simp [ExtentRecord.kept]⟩
  | lost => exact Or.inr ⟨hstep, _, hr, rfl⟩

/-! ## The eviction in hand -/

structure Holding (x : Config) (s : Scheduler) (rest : List Work) (e : ExtentId) (v : Eviction)
    (place : PageSource) (p : EvictPhase) : Prop where
  good : Good x s rest (some e) v.slot
  found : s.evictions.find? e = some v
  operation : v.operation = none
  evicting : Evicting s e v place p
  idle : p.operation = none

section InHand

variable {x : Config} {s s' : Scheduler} {rest work : List Work} {e : ExtentId} {v v' : Eviction}
    {g : Grip} {skip : Option ExtentId} {w : Work}
  {place : PageSource} {p : EvictPhase} {mine : Option Nat}

theorem Good.setEviction (h : Good x s rest (some e) mine) (v : Eviction) :
    Good x (s.setEviction e v) rest (some e) mine := by
  refine h.same ?_ h.reach h.mailboxes fun id _ hp => hp
  refine ⟨fun e' he' => (.of rfl rfl ?_ rfl rfl), fun _ => rfl, rfl, .refl _,
    .refl _, .refl _, .refl _⟩
  exact OrdMap.find?_insert_ne fun heq => he' (by rw [heq])

theorem setEviction_moves (hv : s.evictions.find? e = some v) (hw : v'.waiters = v.waiters) :
    Moves x s [] (s.setEviction e v') [] := by
  refine .keep (.mk rfl rfl rfl rfl) rfl ⟨fun _ => rfl, fun e' => ?_⟩ rfl rfl
  show ((s.evictions.insert e v').find? e').map Eviction.waiters = _
  rw [OrdMap.find?_insert]
  split
  next heq =>
    rw [heq, hv]
    exact congrArg some hw
  · rfl

/-- The eviction changed, in nothing that ties it to the catalog and the history. -/
structure Eviction.Carries (v v' : Eviction) : Prop where
  ticket : v'.ticket = v.ticket
  writeBack : v'.writeBack = v.writeBack
  handoff : v'.handoff = v.handoff
  waiters : v'.waiters = v.waiters

theorem Evicting.carries (h : Evicting s e v place p) (hticket : v'.ticket = v.ticket)
    (hwb : v'.writeBack = v.writeBack) (hh : v'.handoff = v.handoff) :
    Evicting (s.setEviction e v') e v' place p := by
  obtain ⟨hload, ⟨r, hr, hw⟩, hsource, hphase, hplace, hp, hhand⟩ := h
  exact ⟨hload, ⟨r, hticket ▸ hr, hw.trans hwb.symm⟩, hsource, hphase, hplace,
    hp.trans hwb.symm, hhand.trans hh.symm⟩

theorem Runs.setEviction {ran : Ran} (hgood : Good x s rest (some e) v.slot)
    (hfound : s.evictions.find? e = some v) (hev : Evicting s e v place p)
    (hidle : p.operation = none) (hc : v.Carries v') (hslot : v'.slot = v.slot)
    (hop : v'.operation = none) (hrun : Holding x (s.setEviction e v') rest e v' place p →
      Runs x (s.setEviction e v') rest ran) : Runs x s rest ran := by
  refine Runs.after (setEviction_moves hfound hc.waiters) (hrun ?_)
  exact ⟨hslot ▸ hgood.setEviction v', OrdMap.find?_insert_self .., hop,
    hev.carries hc.ticket hc.writeBack hc.handoff, hidle⟩

theorem Good.putEviction {c : List Work} {mine' : Option Nat}
    (h : Good x s rest (some e) mine) (hfound : s.evictions.find? e = some v)
    (hop : v.operation = none) (hev : Evicting s e v place p) (hidle : p.operation = none)
    (hflags : v.flags place) (hstands : v.stands x g place p.progress) (hn : Next s e c g)
    (hk : mine' = none ∧ v.slot = mine ∨ mine' = mine ∧ v.slot = none) :
    Good x s (c ++ rest) none mine' := by
  refine h.put (Given.refl e s) hn ⟨fun l hl => ?_, fun v' hv' => ?_, fun _ hnone => ?_,
    fun _ => .inr ⟨v, hfound⟩⟩ (.of_slot (holdsSlot_eviction hev.load hfound) hk) h.reach
    h.mailboxes
  · cases hev.load.symm.trans hl
  · cases hfound.symm.trans hv'
    refine ⟨fun _ => hop, fun i hi => ?_, place, p, hev, hflags, hstands, ?_⟩
    · rcases hk with ⟨-, hk⟩ | ⟨-, hk⟩
      · exact (h.mine i (hk ▸ hi)).1
      · cases hk.symm.trans hi
    simp only [Eviction.operates, hop]
    exact hidle
  · cases hnone.symm.trans hfound

theorem Holding.put {c : List Work} (h : Holding x s rest e v place p)
    (hflags : v.flags place) (hstands : v.stands x g place p.progress) (hn : Next s e c g) :
    Good x s (c ++ rest) none none :=
  h.good.putEviction h.found h.operation h.evicting h.idle hflags hstands hn (Or.inl ⟨rfl, rfl⟩)

/-! ## Ending -/

theorem releases_moves {n : Nat} {pumping : Bool} :
    Moves x s [] { s with releasesOpen := n, pumpingReleases := pumping } [] :=
  .idle rfl

theorem Good.releases (h : Good x s work skip mine) (n : Nat) (pumping : Bool) :
    Good x { s with releasesOpen := n, pumpingReleases := pumping } work skip mine :=
  h.other rfl

theorem pumpReleases_good (h : Good x s rest none none) (hq : quiet rest) :
    Good x s.pumpReleases.1 (s.pumpReleases.2 ++ rest) none none ∧
      Moves x s [] s.pumpReleases.1 [] := by
  unfold pumpReleases
  split
  · exact ⟨h, .refl⟩
  · exact ⟨(h.releases s.releasesOpen true).add rfl hq (by simp), releases_moves⟩

theorem releaseDone_good (h : Good x s rest none none) (hq : quiet rest) (v : Eviction) :
    Good x (s.releaseDone v).1 ((s.releaseDone v).2 ++ rest) none none ∧
      Moves x s [] (s.releaseDone v).1 [] := by
  unfold releaseDone
  split
  · obtain ⟨hgood, hm⟩ := pumpReleases_good (h.releases (s.releasesOpen - 1) s.pumpingReleases) hq
    exact ⟨hgood, releases_moves.trans hm⟩
  · exact ⟨h, .refl⟩

theorem afterEviction_runs {s1 : Scheduler} {failed : TaskId → Bool}
    (hgood : Good x s1 rest none none) (hq : quiet rest)
    (hm : Moves x s [] s1 (wakes v.waiters ++ [])) : Runs x s rest (do
      let s ← s1.wakeAll v.waiters failed
      return s.releaseDone v) := by
  refine Sat.bind ((wakeAll_moves v.waiters failed).mono (fun f hf => hf.after hm) fun s' hs' =>
    show Good x s' rest none none ∧ Moves x s [] s' [] from
      ⟨hgood.woken hs'.2, hm.trans hs'.1⟩) ?_
  rintro s2 ⟨hgood2, hm2⟩
  obtain ⟨hgood3, hm3⟩ := releaseDone_good hgood2 hq v
  exact ⟨hgood3, hm2.trans hm3⟩

theorem untouched_iff : p.untouched = true ↔ p.progress ≠ .kept ∧ p.progress ≠ .released := by
  simp [EvictPhase.untouched]

theorem endEviction_runs {evicted : Bool} (h : Holding x s rest e v place p)
    (hflags : v.writeBack = true → place.writeBack = true) (hslot : v.slot = none)
    (hdone : evicted = true → p.done = true ∧ p.progress ≠ .kept)
    (hkept : evicted = false → p.untouched = true) : Runs x s rest (s.endEviction e evicted) := by
  obtain ⟨r, hr, hwrit⟩ := h.evicting.ticket
  unfold Scheduler.endEviction
  rw [h.found]
  simp only [require, check, hslot, Option.isNone_none, if_true, ok_bind]
  refine Sat.bind (owned (settleEviction_sat _ hr h.good.reach h.idle
    (fun he => (hdone he).1) hkept)) ?_
  rintro ⟨u, c⟩ ⟨hreach, r', hedit, hend⟩
  rw [hwrit] at hend
  have hgiven : p.progress ≠ .kept := by
    cases evicted with
    | true => exact (hdone rfl).2
    | false => exact (untouched_iff.mp (hkept rfl)).1
  refine afterEviction_runs ?_ h.good.quiet_rest (.tail .refl (.endEviction
    ⟨.mk rfl rfl rfl rfl, rfl, h.found, rfl, rfl, h.evicting, hflags, hr, hwrit, hedit, hend,
      rfl⟩ fun hkept => absurd hkept hgiven))
  refine (hslot ▸ h.good).ended ?_ h.evicting.load (OrdMap.find?_erase_self ..)
    (hend.settled h.evicting.phase (h.evicting.writeBack.trans hwrit.symm) rfl
      (find_edit_self hedit hr.found)) hreach (h.good.mailboxes.cons ?_)
  · refine ⟨fun e' he' => ?_, fun _ => rfl, rfl, .refl _, .refl _, .refl _, .refl _⟩
    have hne : e' ≠ e := fun heq => he' (by rw [heq])
    exact .of (find_edit hedit hne) rfl (OrdMap.find?_erase_ne hne) rfl
      (phase_cons_other (by cases evicted <;> rfl) hne)
  · cases evicted <;> simp

theorem quarantineEvicting_runs (hgood : Good x s rest (some e) v.slot)
    (hfound : s.evictions.find? e = some v) (hev : Evicting s e v place p)
    (hflags : v.writeBack = true → place.writeBack = true) (fault : Fault) :
    Runs x s rest (s.quarantineEvicting e fault) := by
  refine Runs.after (fail_moves s fault) ?_
  replace hgood := hgood.fail fault
  replace hfound : (s.fail fault).evictions.find? e = some v := hfound
  replace hev : Evicting (s.fail fault) e v place p := hev.same (.of rfl rfl rfl rfl rfl)
  unfold quarantineEvicting
  generalize s.fail fault = s at *
  obtain ⟨r, hr, hwrit⟩ := hev.ticket
  simp only [hfound]
  refine Sat.bind (quarantineSlot_sat hgood) fun slots hs => ?_
  refine Sat.bind (owned (loseEviction_sat hr hgood.reach)) ?_
  rintro ⟨u, c⟩ ⟨hreach, hedit⟩
  refine afterEviction_runs ?_ hgood.quiet_rest (.tail .refl (.endEviction
    ⟨.mk rfl rfl rfl rfl, rfl, hfound, rfl, rfl, hev, hflags, hr, hwrit, hedit, .lost, rfl⟩
    fun _ => rfl))
  -- The eviction's end with its slot still busy, then the slot.
  have hover : Good x { s with
      catalog := c
      log := .lost e :: s.log
      evictions := s.evictions.erase e
      slotWaiters := remove s.slotWaiters e
      blocked := remove s.blocked e
      releaseQueue := remove s.releaseQueue e } rest none v.slot := by
    refine hgood.ended ?_ hev.load (OrdMap.find?_erase_self ..)
      (EvictEnd.lost.settled hev.phase (hev.writeBack.trans hwrit.symm) rfl
        (find_edit_self hedit hr.found)) hreach (hgood.mailboxes.cons (by simp))
    refine ⟨fun e' he' => ?_, fun _ => rfl, rfl, .refl _, List.filter_sublist,
      List.filter_sublist, List.filter_sublist⟩
    have hne : e' ≠ e := fun heq => he' (by rw [heq])
    exact .of (find_edit hedit hne) rfl (OrdMap.find?_erase_ne hne) rfl
      (phase_cons_other rfl hne)
  rcases hs with ⟨hslot, rfl⟩ | ⟨i, hslot, rfl⟩
  · exact hslot ▸ hover
  rw [hslot] at hover
  exact hover.vacate (by simp)

/-! ## Opening a stage -/

theorem Eviction.stage_opens (hflags : v.flags place) (hstands : v.stands x .free place p.progress)
    (hopens : v.stage.opens = true) (hplace : p.place = some place)
    (hwb : p.writeBack = v.writeBack) (hhand : p.handoff = v.handoff)
    (hslot : ∀ i, v.slot = some i → ∃ a, x.settings.landing.slots[i]? = some a) :
    ∃ route command, evictCommand x v place = .ok (route, command) ∧ p.opens command = true := by
  obtain ⟨-, -, -, hflags⟩ := hflags
  cases hstage : v.stage with
  | slot | parked => simp [hstage, EvictStage.opens] at hopens
  | copyOut =>
    simp only [hstage] at hflags
    simp only [Eviction.stands, hstage] at hstands
    obtain ⟨i, hi⟩ := Option.isSome_iff_exists.mp hstands.2
    obtain ⟨a, ha⟩ := hslot i hi
    simp only [evictCommand, hstage, hi, slotAddress, ha, require, ok_bind]
    refine ⟨_, _, rfl, ?_⟩
    simp [EvictPhase.opens, hwb, hflags.1, hstands.1, hplace, hflags.2, DeviceWork.target,
      PageSource.copyOut]
  | writing =>
    simp only [hstage] at hflags
    simp only [Eviction.stands, hstage] at hstands
    cases hlan : place.landed with
    | false =>
      simp only [hlan, Bool.false_eq_true, if_false] at hstands
      simp only [evictCommand, hstage, hlan, Bool.false_eq_true, if_false]
      refine ⟨_, _, rfl, ?_⟩
      simp [EvictPhase.opens, hwb, hflags.1, hplace, PageSource.ranges, hlan, hstands]
    | true =>
      simp only [hlan, if_true] at hstands
      obtain ⟨i, a, hi, ha, hprog⟩ := hstands
      simp only [evictCommand, hstage, hlan, if_true, hi, slotAddress, ha, require, ok_bind]
      refine ⟨_, _, rfl, ?_⟩
      simp [EvictPhase.opens, hwb, hflags.1, hplace, PageSource.ranges, hlan, hprog]
  | unmapping =>
    simp only [hstage] at hflags
    simp only [Eviction.stands, hstage] at hstands
    obtain ⟨backing, hback⟩ := Option.isSome_iff_exists.mp hflags.1
    simp only [evictCommand, hstage, hback]
    refine ⟨_, _, rfl, ?_⟩
    simp only [EvictPhase.opens, hplace, Option.bind_some, hback, Option.any_some,
      BackingWork.isAt, hwb, hhand]
    cases hw : v.writeBack <;> simp [hw] at hstands <;> simp [hstands]
  | releasing =>
    simp only [hstage] at hflags
    simp only [Eviction.stands, hstage] at hstands
    obtain ⟨backing, hback⟩ := Option.isSome_iff_exists.mp hflags.1
    simp only [evictCommand, hstage, hback]
    refine ⟨_, _, rfl, ?_⟩
    simp [EvictPhase.opens, hplace, hback, BackingWork.isAt, hstands]

theorem Holding.opened {id : OperationId} {route : Route} {command : Command}
    (h : Holding x s rest e v place p) (hflags : v.flags place)
    (hstands : v.stands x .free place p.progress) (hstage : v.stage.opens = true)
    (hcom : evictCommand x v place = .ok (route, command)) (hopens : p.opens command = true)
    (ho : Opened s id { id, kind := .evict, route, extent := e, command } s') :
    Good x (s'.setEviction e { v with operation := some id }) (.publish id :: rest) none none ∧
      Moves x s [] (s'.setEviction e { v with operation := some id }) [] := by
  have hmove : Moves x s [] s' [] := ho.moves rfl rfl
  have hfound : s'.evictions.find? e = some v := by
    obtain ⟨board, rfl⟩ := ho.state
    exact h.found
  have hevi : (s'.evictions.insert e { v with operation := some id }).find? e =
      some { v with operation := some id } := OrdMap.find?_insert_self ..
  have hflags' : Eviction.flags { v with operation := some id } place := by
    obtain ⟨hhand, hwb, hrel, hcase⟩ := hflags
    refine ⟨hhand, hwb, hrel, ?_⟩
    cases hs : v.stage <;> simp only [hs] at hcase <;> first | exact hcase | skip
    simp [hs, EvictStage.opens] at hstage
  refine ⟨?_, hmove.trans (setEviction_moves hfound rfl)⟩
  have hkeep := @ho.stageOp_keeps
  have hcases := @ho.stageOp_cases
  have hown := ho.stageOp_eq.trans (if_pos (Eq.refl id))
  have hfind := (ho.find id).trans (if_pos rfl)
  have hboxes := ho.mailboxes
  obtain ⟨board, rfl⟩ := ho.state
  refine h.good.put (c := [.publish id]) ⟨fun e' hne => ?_, fun id' op' hop' => ?_,
    fun _ _ => hkeep _ _, rfl, rfl, rfl, rfl, rfl⟩ (.publish ⟨_, hfind, rfl, rfl⟩)
    ⟨fun l hl => ?_, fun v' hv' => ?_, fun _ hnone => ?_, fun hg => absurd rfl hg⟩
    (.inl ⟨rfl, fun i => ?_⟩) h.good.reach hboxes
  · exact .of rfl rfl (OrdMap.find?_insert_ne hne) rfl (phase_cons_other rfl hne)
  · rcases hcases _ _ hop' with hold | ⟨heq, hstage⟩
    · exact Or.inl hold
    cases hstage
    exact Or.inr ⟨rfl, _, hevi, congrArg some heq.symm⟩
  · cases h.evicting.load.symm.trans hl
  · cases hevi.symm.trans hv'
    obtain ⟨hload, hticket, hsource, hphase, hplace, hwb, hhand⟩ := h.evicting
    refine ⟨fun hg => absurd rfl hg, fun i hi => (h.good.mine i hi).1, place,
      { p with operation := some (id, command) }, ⟨hload, hticket, hsource, ?_, hplace, hwb,
      hhand⟩, hflags', hstands, route, command, hown, hcom, rfl⟩
    change phase e (.opened id .evict e command :: s.log) = _
    rw [phase_cons _ rfl, hphase]
    simp [Phase.step, EvictPhase.step, h.idle, hopens]
  · cases hnone.symm.trans hevi
  exact (holdsSlot_eviction (v := { v with operation := some id })
    (by exact h.evicting.load) hevi i).symm

theorem freedEviction_runs {i : Nat}
    (hgood : Good x s rest (some e) (some i)) (hfound : s.evictions.find? e = some v)
    (hev : Evicting s e v place p) (hidle : p.operation = none) (hc : v.Carries v')
    (hslot : v'.slot = none) (hop : v'.operation = none) (hflags : v'.flags place)
    (hstands : v'.stands x g place p.progress) (hw : w.grips = some (e, g)) : Runs x s rest (do
      let (s, freed) ← freeSlot (s.setEviction e v') i
      return (s, freed ++ [w])) := by
  have hput : Good x (s.setEviction e v') (w :: rest) none (some i) :=
    (hgood.setEviction v').putEviction (c := [w]) (OrdMap.find?_insert_self ..) hop
      (hev.carries hc.ticket hc.writeBack hc.handoff) hidle hflags hstands (.held hw)
      (Or.inr ⟨rfl, hslot⟩)
  refine Sat.bind (Runs.after (setEviction_moves hfound hc.waiters)
    (freeSlot_runs hput (hgood.quiet_held hw))) ?_
  rintro ⟨s', freed⟩ ⟨hgood', hm⟩
  exact ⟨by simpa using hgood', hm⟩

theorem Eviction.stands.untouched (hstands : v.stands x .free place p.progress)
    (hr : v.stage ≠ .releasing) (hp : v.stage ≠ .parked) : p.untouched = true := by
  rw [untouched_iff]
  cases hstage : v.stage <;> simp only [Eviction.stands, hstage] at hstands
  · simp [hstands]
  · simp [hstands.1]
  · split at hstands
    · obtain ⟨i, a, -, -, hprog⟩ := hstands
      simp [hprog]
    · simp [hstands]
  · split at hstands <;> simp [hstands]
  · exact absurd hstage hp
  · exact absurd hstage hr

section

variable (h : Holding x s rest e v place p) (hflags : v.flags place)
    (hstands : v.stands x .free place p.progress) (hopens : v.stage.opens = true)
include h hflags hstands hopens

theorem openEvictStage_sat : Sat (Ends x s []) (fun o => ∀ y, o = some y →
      Good x y.1 (y.2 ++ rest) none none ∧ Moves x s [] y.1 []) (openEvictStage x s e v) := by
  have hwb := hflags.2.1
  unfold openEvictStage
  split
  · split
    · exact fun y hy => absurd hy (by simp)
    split
    · refine Sat.bind (quarantineEvicting_runs h.good h.found h.evicting hwb .exhausted) ?_
      rintro y hy y' hy'
      cases hy'
      exact hy
    rename_i hstage
    have hunt : p.untouched = true :=
      hstands.untouched hstage (by rintro hs; simp [hs, EvictStage.opens] at hopens)
    split
    next hunm =>
      have hslot : v.slot = none := by
        have := hflags.2.2.2
        simp only [hunm.1] at this
        exact this.2
      refine Sat.bind (endEviction_runs h hwb hslot (by simp) fun _ => hunt) ?_
      rintro y hy y' hy'
      cases hy'
      exact hy
    cases hslot : v.slot with
    | none =>
      refine Sat.bind (endEviction_runs h hwb hslot (by simp) fun _ => hunt) ?_
      rintro y hy y' hy'
      cases hy'
      exact hy
    | some i =>
      have hgood := h.good
      rw [hslot] at hgood
      have hheld : v.stage = .copyOut ∨ v.stage = .writing := by
        have := hflags.2.2.2
        cases hs : v.stage <;> simp [hs, hslot] at this ⊢
      have hrun : Runs x s rest (do
          let (s, freed) ← freeSlot (s.setEviction e { v with slot := none }) i
          return (s, freed ++ [.abandon e])) := by
        refine freedEviction_runs hgood h.found h.evicting h.idle ⟨rfl, rfl, rfl, rfl⟩ rfl
          h.operation ?_ (g := .abandon) ⟨rfl, hheld, untouched_iff.mp hunt⟩ rfl
        obtain ⟨hhand, hwb, hrel, hcase⟩ := hflags
        refine ⟨hhand, hwb, hrel, ?_⟩
        rcases hheld with hs | hs <;> simp only [hs] at hcase ⊢
        · exact hcase
        · exact ⟨hcase.1, by simp⟩
      simp only
      rcases hf : freeSlot (s.setEviction e { v with slot := none }) i with _ | _
      · rw [hf] at hrun
        exact hrun
      rw [hf] at hrun
      rintro y' hy'
      cases hy'
      exact hrun
  next hav =>
    have hslot : ∀ i, v.slot = some i → ∃ a, x.settings.landing.slots[i]? = some a := by
      intro i hi
      have hlt := (List.getElem?_eq_some_iff.mp (h.good.mine i hi).1).1
      rw [h.good.slots] at hlt
      exact ⟨_, List.getElem?_eq_getElem hlt⟩
    obtain ⟨route, command, hcom, hopen⟩ := Eviction.stage_opens hflags hstands hopens
      h.evicting.placed h.evicting.writeBack h.evicting.handoff hslot
    simp only [h.evicting.source, require, ok_bind, hcom]
    refine Sat.bind (openOperation_sat h.good.mailboxes hav (fun _ => rfl) fun _ => ⟨rfl, rfl⟩) ?_
    rintro ⟨id, s'⟩ ho y hy
    cases hy
    exact h.opened hflags hstands hopens hcom hopen ho

theorem openEvictOrBlock_runs (hrel : v.stage = .releasing → v.releaseOpen = true) :
    Runs x s rest (openEvictOrBlock x s e v) := by
  refine Sat.bind (openEvictStage_sat h hflags hstands hopens) fun o ho => ?_
  cases o with
  | some y => exact ho y rfl
  | none =>
    have hgood : Good x s rest none none := h.put hflags hstands .rest
    refine ⟨hgood.requeue hgood.queued hgood.slotWaiters (hgood.blocked.append ?_ (by simp) ?_ ?_)
      hgood.release, requeue_moves⟩
    · exact h.good.blocked.not_mem
    · exact grip_of_not_mem fun hmem => (h.good.gripped e hmem).1 rfl
    · exact Or.inr ⟨v, h.found, h.operation, hopens, hrel⟩

end

/-! ## Taking in hand -/

theorem Good.takeEviction (h : Good x s work none none)
    (hv : s.evictions.find? e = some v) (hok : EvictOk x s g e v) (hop : v.operation = none)
    (hleft : Left e work rest) (hq : quiet rest) (hslot : e ∉ s.slotWaiters)
    (hblocked : e ∉ s.blocked) (hrel : e ∉ s.releaseQueue) :
    ∃ place p, Holding x s rest e v place p ∧ v.flags place ∧ v.stands x g place p.progress := by
  obtain ⟨place, p, hp, hflags, hstands, hopp⟩ := hok.evicting
  have hidle : p.operation = none := by simpa [Eviction.operates, hop] using hopp
  refine ⟨place, p, ⟨h.take ⟨fun _ _ => .of rfl rfl rfl rfl rfl, fun id op ho => ⟨ho, ?_⟩,
    fun _ _ ho _ => ho, rfl, ⟨.refl _, fun hmem => ?_⟩, ⟨.refl _, hslot⟩,
    ⟨.refl _, hblocked⟩, ⟨.refl _, hrel⟩⟩ hleft hq
    (holdsSlot_eviction hp.load hv) h.reach h.mailboxes, hv, hop, hp, hidle⟩,
    hflags, hstands⟩
  · rintro rfl
    have how := (h.owned id op ho).2
    unfold Owned at how
    split at how
    · obtain ⟨l, hl, -⟩ := how
      cases hp.load.symm.trans hl
    obtain ⟨v', hv', hid⟩ := how
    cases hv.symm.trans hv'
    cases hop.symm.trans hid
  · obtain ⟨l, hl, -⟩ := (h.queued.each e hmem).2.2
    cases hp.load.symm.trans hl

theorem Good.heldEviction (h : Good x s (w :: rest) none none)
    (hw : w.grips = some (e, g)) (hv : s.evictions.find? e = some v) :
    ∃ place p, Holding x s rest e v place p ∧ v.flags place ∧ v.stands x g place p.progress := by
  have hok := h.eviction e v (by simp) hv
  have hself : grip (w :: rest) e = g := grip_cons_self hw
  have hnot : ∀ {q P}, Lined (w :: rest) none q P → e ∉ q := fun hq hmem =>
    Work.grips_ne_free hw (hself.symm.trans (hq.each e hmem).2.1)
  rw [hself] at hok
  exact h.takeEviction hv hok (hok.held (Work.grips_ne_free hw)) (.held hw) h.calls.2.1
    (hnot h.slotWaiters) (hnot h.blocked) (hnot h.release)

theorem Good.isEviction (h : Good x s (w :: rest) none none) (hw : w.grips = some (e, g))
    (hg : g = .proceedEviction ∨ (∃ whole, g = .wroteBack whole) ∨ g = .abandon) :
    ∃ v, s.evictions.find? e = some v := by
  have hmem : e ∈ Scheduler.gripped (w :: rest) := by
    rw [gripped_cons_some hw]
    exact List.mem_cons_self
  rcases (h.gripped e hmem).2 with ⟨l, hl⟩ | hv
  · have hok := h.load e l (by simp) hl
    rw [grip_cons_self hw] at hok
    obtain ⟨p, -, -, -, hstands, -⟩ := hok.loading
    rcases hg with rfl | ⟨whole, rfl⟩ | rfl <;> exact hstands.elim
  · exact hv

/-! ## Writing back -/

theorem proceedEviction_runs (h : Good x s (.proceedEviction e :: rest) none none) :
    Runs x s rest (proceedEviction x s e) := by
  obtain ⟨v, hv⟩ := h.isEviction rfl (Or.inl rfl)
  obtain ⟨place, p, hh, hflags, hstage, hfresh⟩ := h.heldEviction rfl hv
  have hcase := hflags.2.2.2
  simp only [hstage] at hcase
  unfold proceedEviction
  simp only [hv, hstage, if_true]
  cases hfree : s.freeSlot? with
  | none =>
    have hgood : Good x s rest none none := by
      refine hh.put (c := []) hflags ?_ .rest
      simpa [Eviction.stands, hstage] using hfresh
    refine ⟨hgood.requeue hgood.queued (hgood.slotWaiters.append ?_ (by simp) ?_ ?_)
      hgood.blocked hgood.release, requeue_moves⟩
    · exact hh.good.slotWaiters.not_mem
    · exact grip_of_not_mem fun hmem => (hh.good.gripped e hmem).1 rfl
    · exact Or.inr ⟨v, hv, hstage⟩
  | some i =>
    have hgood := hh.good
    rw [hcase.2.2] at hgood
    replace hgood := hgood.seize (freeSlot?_spec hfree)
    have hmove : Moves x s [] { s with slots := s.slots.set i .busy } [] :=
      .idle rfl
    have hev : Evicting { s with slots := s.slots.set i .busy } e v place p :=
      hh.evicting.same (.of rfl rfl rfl rfl rfl)
    refine Runs.after (hmove.trans (setEviction_moves hv (by rfl))) (openEvictOrBlock_runs
      ⟨hgood.setEviction _, OrdMap.find?_insert_self .., hh.operation,
        hev.carries (by rfl) (by rfl) (by rfl), hh.idle⟩
      ⟨hflags.1, hflags.2.1, fun hr => ?_, hcase.1, hcase.2.1⟩ ⟨hfresh, rfl⟩ rfl (by simp))
    cases (hflags.2.2.1 hr).symm.trans hstage

theorem wroteBack_runs {whole : Bool} (h : Holding x s rest e v place p)
    (hflags : v.flags place) (hslot : v.slot = none)
    (hstage : v.stage = .copyOut ∨ v.stage = .writing) (hkept : p.progress ≠ .kept)
    (hrel : p.progress ≠ .released) (hwhole : whole = true → p.progress = .written) :
    Runs x s rest (wroteBack x s e whole) := by
  have hwb : v.writeBack = true := by
    have hcase := hflags.2.2.2
    rcases hstage with hs | hs <;> simp only [hs] at hcase <;> exact hcase.1
  have hopen : v.releaseOpen = true → False := by
    intro hr
    rcases hstage with hs | hs <;> exact nomatch (hflags.2.2.1 hr).symm.trans hs
  unfold wroteBack
  simp only [h.found, h.evicting.source, require, ok_bind]
  split
  · exact endEviction_runs h hflags.2.1 hslot (by simp) fun _ => untouched_iff.mpr ⟨hkept, hrel⟩
  rename_i hw
  have hwrit := hwhole (by simpa using hw)
  split
  next hnone =>
    refine endEviction_runs h hflags.2.1 hslot (fun _ => ?_) (by simp)
    have hb : place.backing = none := by simpa using hnone
    simp [EvictPhase.done, EvictPhase.managed, h.evicting.placed, hb, h.evicting.writeBack, hwb,
      hwrit]
  rename_i hsome
  have hb : place.backing.isSome = true := by
    cases hb : place.backing <;> simp [hb] at hsome ⊢
  refine Runs.setEviction h.good h.found h.evicting h.idle (by exact ⟨rfl, rfl, rfl, rfl⟩)
    (by rfl) (by exact h.operation) fun h' => openEvictOrBlock_runs h'
      ⟨hflags.1, hflags.2.1, fun hr => (hopen hr).elim, hb, hslot⟩ ?_ rfl (by simp)
  simp only [Eviction.stands, hwb, if_true]
  exact hwrit

theorem wroteBackCall_runs {whole : Bool} (h : Good x s (.wroteBack e whole :: rest) none none) :
    Runs x s rest (wroteBack x s e whole) := by
  obtain ⟨v, hv⟩ := h.isEviction rfl (Or.inr (Or.inl ⟨whole, rfl⟩))
  obtain ⟨place, p, hh, hflags, hslot, hstage, hkept, hrel, hwhole⟩ := h.heldEviction rfl hv
  exact wroteBack_runs hh hflags hslot hstage hkept hrel hwhole

theorem abandonCall_runs (h : Good x s (.abandon e :: rest) none none) :
    Runs x s rest (s.endEviction e false) := by
  obtain ⟨v, hv⟩ := h.isEviction rfl (Or.inr (Or.inr rfl))
  obtain ⟨place, p, hh, hflags, hslot, -, hkept⟩ := h.heldEviction rfl hv
  exact endEviction_runs hh hflags.2.1 hslot (by simp) fun _ => untouched_iff.mpr hkept

/-! ## Parked backing -/

theorem Good.parkedRests (h : Good x s work skip mine)
    (hskip : skip ≠ some e) (hv : s.evictions.find? e = some v) (hstage : v.stage = .parked) :
    grip work e = .free ∧ v.operation = none ∧ e ∉ s.queued ∧ e ∉ s.slotWaiters ∧
      e ∉ s.blocked ∧ e ∉ s.releaseQueue := by
  have hok := h.eviction e v hskip hv
  obtain ⟨place, p, hp, hflags, hstands, -⟩ := hok.evicting
  refine ⟨?_, hok.idle (by rw [hstage]; rfl), fun hmem => ?_, fun hmem => ?_, fun hmem => ?_,
    fun hmem => ?_⟩
  · cases hg : grip work e with
    | free => rfl
    | proceed | unwind | endLoad => rw [hg] at hstands; exact hstands.elim
    | proceedEviction =>
      rw [hg] at hstands
      cases hstands.1.symm.trans hstage
    | wroteBack | abandon =>
      rw [hg] at hstands
      rcases hstands.2.1 with hs | hs <;> cases hs.symm.trans hstage
  · obtain ⟨l, hl, -⟩ := (h.queued.each e hmem).2.2
    cases hp.load.symm.trans hl
  · rcases (h.slotWaiters.each e hmem).2.2 with ⟨l, hl, -⟩ | ⟨v', hv', hs⟩
    · cases hp.load.symm.trans hl
    cases hv.symm.trans hv'
    cases hs.symm.trans hstage
  · rcases (h.blocked.each e hmem).2.2 with ⟨l, hl, -⟩ | ⟨v', hv', -, hs, -⟩
    · cases hp.load.symm.trans hl
    cases hv.symm.trans hv'
    simp [hstage, EvictStage.opens] at hs
  obtain ⟨v', hv', -, hs, -⟩ := (h.release.each e hmem).2.2
  cases hv.symm.trans hv'
  cases hs.symm.trans hstage

theorem queueRelease_good (h : Good x s rest none none) (hq : quiet rest)
    (hv : s.evictions.find? e = some v) (hstage : v.stage = .parked) :
    Sat (Ends x s []) (fun s' => Good x s' rest none none ∧ Moves x s [] s' [] ∧
      s'.evictions = s.evictions.insert e { v with stage := .releasing }) (queueRelease s e) := by
  obtain ⟨hfree, hop, hqueued, hslot, hblocked, hrel⟩ := h.parkedRests (by simp) hv hstage
  have hok := h.eviction e v (by simp) hv
  rw [hfree] at hok
  obtain ⟨place, p, hh, hflags, hstands⟩ :=
    h.takeEviction hv hok hop (.free hfree) hq hslot hblocked hrel
  simp only [Eviction.stands, hstage] at hstands
  obtain ⟨hhand, hwb, hro, hcase⟩ := hflags
  simp only [hstage] at hcase
  unfold queueRelease
  simp only [hv, require, ok_bind]
  set v' : Eviction := { v with stage := .releasing } with hv'
  have hgood : Good x (s.setEviction e v') rest none none :=
    (hh.good.setEviction v').putEviction (c := []) (g := .free) (OrdMap.find?_insert_self ..)
      hop (hh.evicting.carries rfl rfl rfl) hh.idle
      ⟨hhand, hwb, fun _ => rfl, hcase.1, hcase.2.1, hcase.2.2.1⟩ hstands .rest (Or.inl ⟨rfl, rfl⟩)
  have hlined : Lined rest none (s.releaseQueue ++ [e]) (ForRelease (s.setEviction e v')) := by
    refine hgood.release.append hrel (by simp) hfree ⟨v', OrdMap.find?_insert_self .., hop, rfl, ?_⟩
    cases hro' : v.releaseOpen with
    | false => rfl
    | true => cases (hro hro').symm.trans hstage
  have hdone := hgood.requeue hgood.queued hgood.slotWaiters hgood.blocked hlined
  have hmove : Moves x s [] (s.setEviction e v') [] := setEviction_moves hv rfl
  refine ⟨?_, hmove.trans (.idle rfl), rfl⟩
  exact hdone.other rfl

theorem parkedBy_spec (s : Scheduler) (task : Option TaskId) :
    (s.parkedBy task).Nodup ∧ ∀ e ∈ s.parkedBy task,
      ∃ v, s.evictions.find? e = some v ∧ v.stage = .parked := by
  obtain ⟨hnodup, heach⟩ := s.evictions.filter_keys fun p =>
    p.2.stage = .parked && (task.isNone || task = some p.2.evictor)
  refine ⟨hnodup, fun e he => ?_⟩
  obtain ⟨v, hv, hp⟩ := heach e he
  simp only [Bool.and_eq_true, decide_eq_true_eq] at hp
  exact ⟨v, hv, hp.1⟩

theorem releaseParked_runs (h : Good x s rest none none) (hq : quiet rest) (task : Option TaskId) :
    Runs x s rest (s.releaseParked task) := by
  obtain ⟨hnodup, hpar⟩ := parkedBy_spec s task
  refine Sat.bind (P := fun s' => Good x s' rest none none ∧ Moves x s [] s' []) ?_ ?_
  · refine Sat.imp (Sat.foldlM (I := fun left s' => Good x s' rest none none ∧
      Moves x s [] s' [] ∧ left.Nodup ∧ ∀ e ∈ left, ∃ v, s'.evictions.find? e = some v ∧
        v.stage = .parked) ?_ ⟨h, .refl, hnodup, hpar⟩) fun s' hs' => ⟨hs'.1, hs'.2.1⟩
    rintro s1 e left ⟨hgood, hm, hn, hall⟩
    obtain ⟨hnot, hn⟩ := List.nodup_cons.mp hn
    obtain ⟨v, hv, hstage⟩ := hall e List.mem_cons_self
    refine (queueRelease_good hgood hq hv hstage).mono (fun f hf => hf.after hm) ?_
    rintro s2 ⟨hgood2, hm2, heq⟩
    refine ⟨hgood2, hm.trans hm2, hn, fun e' he' => ?_⟩
    have hne : e' ≠ e := by
      rintro rfl
      exact hnot he'
    rw [heq, OrdMap.find?_insert_ne hne]
    exact hall e' (List.mem_cons_of_mem _ he')
  rintro s' ⟨hgood, hm⟩
  obtain ⟨hgood', hm'⟩ := pumpReleases_good hgood hq
  exact ⟨hgood', hm.trans hm'⟩

theorem pumpRelease_runs (h : Good x s (.pumpReleases :: rest) none none) :
    Runs x s rest (pumpRelease x s) := by
  have hq : quiet rest := h.calls.2.1
  have hq' : quiet (.pumpReleases :: rest) := by
    intro id hid
    rcases List.mem_cons.mp hid with hid | hid
    · cases hid
    · exact hq id hid
  have hstop := (h.drop rfl).releases s.releasesOpen false
  unfold pumpRelease
  rcases hqueue : s.releaseQueue with _ | ⟨e, releaseQueue⟩
  · exact ⟨hqueue ▸ hstop, hqueue ▸ releases_moves⟩
  simp only
  split
  · have hmem : e ∈ s.releaseQueue := by rw [hqueue]; exact List.mem_cons_self
    obtain ⟨-, hfree, v, hv, hop, hstage, hro⟩ := h.release.each e hmem
    have hnodup := h.release.nodup
    rw [hqueue, List.nodup_cons] at hnodup
    have hpop : Good x { s with releaseQueue } (.pumpReleases :: rest) none none := by
      refine h.requeue h.queued h.slotWaiters h.blocked (h.release.mono ?_ fun e' _ hs hP =>
        ⟨hs, rfl, hP⟩)
      rw [hqueue]
      exact List.sublist_cons_self _ _
    have hok := hpop.eviction e v (by simp) hv
    rw [hfree] at hok
    obtain ⟨place, p, hp, -⟩ := hok.evicting
    -- Releasing, with no operation and its release not open: in no other queue.
    have hslot : e ∉ s.slotWaiters := by
      intro hmem'
      exact (h.slotWaiter hmem').2.2 hmem
    have hblocked : e ∉ s.blocked := by
      intro hmem'
      rcases (h.blocked.each e hmem').2.2 with ⟨l, hl, -⟩ | ⟨v', hv', -, -, hopen⟩
      · cases hp.load.symm.trans hl
      cases hv.symm.trans hv'
      exact nomatch hro.symm.trans (hopen hstage)
    obtain ⟨place, p, hh, hflags, hstands⟩ :=
      hpop.takeEviction hv hok hop (.free hfree) hq' hslot hblocked hnodup.1
    simp only [Eviction.stands, hstage] at hstands
    simp only [hv, hstage, hro, ne_eq, not_true_eq_false, Bool.false_eq_true, or_self, if_false]
    have hmove : Moves x s [] { s with releaseQueue } [] := requeue_moves
    refine Runs.after hmove ?_
    have hcount : Good x { s with releaseQueue, releasesOpen := s.releasesOpen + 1 }
        (.pumpReleases :: rest) (some e) v.slot :=
      hh.good.releases (s.releasesOpen + 1) s.pumpingReleases
    have hev : Evicting { s with releaseQueue, releasesOpen := s.releasesOpen + 1 } e v place p :=
      hh.evicting.same (.of rfl rfl rfl rfl rfl)
    obtain ⟨hhand, hwb, -, hcase⟩ := hflags
    simp only [hstage] at hcase
    set v' : Eviction := { v with stage := .releasing, releaseOpen := true } with hv'
    have hrun : Runs x { s with releaseQueue } (.pumpReleases :: rest) (openEvictOrBlock x
        (({ s with releaseQueue, releasesOpen := s.releasesOpen + 1 } : Scheduler).setEviction
          e v') e v') :=
      Runs.after releases_moves (Runs.setEviction hcount hv hev hh.idle
        (show v.Carries v' from ⟨rfl, rfl, rfl, rfl⟩) rfl hop fun h' => openEvictOrBlock_runs h'
          ⟨hhand, hwb, fun _ => rfl, hcase⟩ hstands rfl fun _ => rfl)
    refine Sat.bind hrun ?_
    rintro ⟨s', opened⟩ ⟨hgood', hm⟩
    exact ⟨by simpa using hgood', hm⟩
  · exact ⟨hqueue ▸ hstop, hqueue ▸ releases_moves⟩

theorem park_runs (h : Holding x s rest e v place p) (hflags : v.flags place)
    (hstage : v.stage = .unmapping) (hhan : v.handoff = true) (hkept : p.progress = .kept) :
    Runs x s rest (s.park e) := by
  obtain ⟨hhand, hwb, hro, hcase⟩ := hflags
  simp only [hstage] at hcase
  have hclosed : v.releaseOpen = true → False := fun hr =>
    nomatch (hro hr).symm.trans hstage
  unfold park
  simp only [h.found, h.evicting.source, require, ok_bind]
  set v' : Eviction := { v with stage := .parked, waiters := [] } with hv'
  set s1 : Scheduler := { s.setEviction e v' with
    parkedCount := s.parkedCount + 1
    parked := s.parked.insert ((place.backing.map BackingPlace.key).getD (toLex (0, 0)))
      ((s.parked.find? ((place.backing.map BackingPlace.key).getD (toLex (0, 0)))).getD [] ++ [e]) }
    with hs1
  have hgood : Good x s1 rest none none := by
    have hput : Good x (s.setEviction e v') rest none none :=
      (h.good.setEviction v').putEviction (c := []) (g := .free) (OrdMap.find?_insert_self ..)
        h.operation (h.evicting.carries rfl rfl rfl) h.idle
        ⟨hhand, hwb, fun hr => (hclosed hr).elim, hcase.1, hcase.2, hhan, rfl, h.operation⟩
        hkept .rest (Or.inl ⟨rfl, rfl⟩)
    exact hput.other rfl
  have hm : Moves x s [] s1 (wakes v.waiters ++ []) :=
    .tail .refl (.park (.mk rfl rfl rfl rfl) rfl h.found (by rfl) rfl rfl rfl rfl)
  refine Sat.bind ((wakeAll_moves v.waiters fun _ => false).mono (fun f hf => hf.after hm)
    fun s' hs' => show Good x s' rest none none ∧ Moves x s [] s' [] from
      ⟨hgood.woken hs'.2, hm.trans hs'.1⟩) ?_
  rintro s2 ⟨hgood2, hm2⟩
  split
  · exact Runs.after hm2 (releaseParked_runs hgood2 h.good.quiet_rest _)
  · exact ⟨hgood2, hm2⟩

def Eviction.after (x : Config) (v : Eviction) (place : PageSource) (outcome : Outcome)
    (bytes : Nat) (p : EvictPhase) : Prop :=
  match v.stage with
  | .copyOut => v.slot.isSome = true ∧ p.untouched = true ∧
      (outcome = .succeeded → ∃ i a, v.slot = some i ∧
        x.settings.landing.slots[i]? = some a ∧ p.progress = .copied a)
  | .writing => p.untouched = true ∧
      (outcome = .succeeded ∧ bytes = place.read.length → p.progress = .written)
  | .unmapping =>
    if outcome = .succeeded then p.progress = if v.handoff then .kept else .released
    else p.untouched = true
  | .releasing => outcome = .succeeded → p.progress = .released
  | .slot | .parked => False

theorem onEvicted_runs {outcome : Outcome} {bytes : Nat} (hgood : Good x s rest (some e) v.slot)
    (hfound : s.evictions.find? e = some v) (hev : Evicting s e v place p)
    (hidle : p.operation = none) (hflags : v.flags place)
    (hafter : v.after x place outcome bytes p) : Runs x s rest (onEvicted x s e outcome bytes) := by
  obtain ⟨hhand, hwb, hro, hcase⟩ := hflags
  -- A copy-out or a write is over, its contents whole or not: without a slot, or past its slot.
  have hdir : ∀ whole : Bool, (v.stage = .copyOut ∨ v.stage = .writing) → p.untouched = true →
      (whole = true → p.progress = .written) → v.slot = none →
      Runs x s rest (wroteBack x (s.setEviction e { v with operation := none }) e whole) := by
    intro whole hstage hun hwhole hslot
    obtain ⟨hkept, hrel⟩ := untouched_iff.mp hun
    refine Runs.setEviction hgood hfound hev hidle (by exact ⟨rfl, rfl, rfl, rfl⟩) (by rfl)
      (by rfl) fun h' => wroteBack_runs h' ?_ hslot hstage hkept hrel hwhole
    refine ⟨hhand, hwb, hro, ?_⟩
    rcases hstage with hs | hs <;> simp only [hs] at hcase ⊢ <;> exact hcase
  have hlan : ∀ (whole : Bool) (i : Nat), (v.stage = .copyOut ∨ v.stage = .writing) →
      p.untouched = true → (whole = true → p.progress = .written) → v.slot = some i →
      Runs x s rest (do
        let (s, freed) ← freeSlot (s.setEviction e { v with operation := none, slot := none }) i
        return (s, freed ++ [.wroteBack e whole])) := by
    intro whole i hstage hun hwhole hslot
    obtain ⟨hkept, hrel⟩ := untouched_iff.mp hun
    rw [hslot] at hgood
    refine freedEviction_runs hgood hfound hev hidle ⟨rfl, rfl, rfl, rfl⟩ rfl rfl
      ⟨hhand, hwb, hro, ?_⟩ (g := .wroteBack whole) ⟨rfl, hstage, hkept, hrel, hwhole⟩ rfl
    rcases hstage with hs | hs <;> simp only [hs] at hcase ⊢
    · exact hcase
    · exact ⟨hcase.1, by simp⟩
  unfold onEvicted
  simp only [hfound, hev.source, require, ok_bind]
  cases hstage : v.stage with
  | slot | parked => simp [Eviction.after, hstage] at hafter
  | copyOut =>
    simp only [Eviction.after, hstage] at hafter
    obtain ⟨-, hun, hcop⟩ := hafter
    simp only [hstage] at hcase
    by_cases hok : outcome = .succeeded
    · simp only [hok, and_self, if_true]
      refine Runs.setEviction hgood hfound hev hidle (by exact ⟨rfl, rfl, rfl, rfl⟩) (by rfl)
        (by rfl) fun h' => openEvictOrBlock_runs h'
          ⟨hhand, hwb, fun hr => ?_, hcase.1, fun _ => hcase.2⟩ ?_ rfl (by simp)
      · cases (hro hr).symm.trans hstage
      simp only [Eviction.stands, hcase.2, if_true]
      exact hcop hok
    simp only [hok, and_false, if_false, reduceCtorEq, false_and, decide_false]
    cases hslot : v.slot with
    | none => simpa only [hstage, hslot] using hdir false (Or.inl hstage) hun (by simp) hslot
    | some i =>
      simpa only [hstage, hslot] using hlan false i (Or.inl hstage) hun (by simp) hslot
  | writing =>
    simp only [Eviction.after, hstage] at hafter
    obtain ⟨hun, hwrit⟩ := hafter
    have hwhole : decide (outcome = .succeeded ∧ bytes = place.read.length) = true →
        p.progress = .written := fun hw => hwrit (by simpa using hw)
    simp only [reduceCtorEq, false_and, if_false, true_and]
    cases hslot : v.slot with
    | none => simpa only [hstage, hslot] using hdir _ (Or.inr hstage) hun hwhole hslot
    | some i => simpa only [hstage, hslot] using hlan _ i (Or.inr hstage) hun hwhole hslot
  | unmapping =>
    simp only [Eviction.after, hstage] at hafter
    simp only [hstage] at hcase
    have hflags' : Eviction.flags { v with operation := none, stage := .unmapping } place :=
      ⟨hhand, hwb, fun hr => hstage.symm.trans (hro hr), hcase⟩
    simp only
    by_cases hok : outcome = .succeeded
    · rw [if_pos hok] at hafter
      by_cases hh : v.handoff = true
      · rw [if_pos ⟨hok, hh⟩]
        exact Runs.setEviction hgood hfound hev hidle (by exact ⟨rfl, rfl, rfl, rfl⟩) (by rfl)
          (by rfl) fun h' => park_runs h' hflags' rfl hh (by simpa [hh] using hafter)
      rw [if_neg fun hand => hh hand.2]
      simp only [hok, decide_true]
      refine Runs.setEviction hgood hfound hev hidle (by exact ⟨rfl, rfl, rfl, rfl⟩) (by rfl)
        (by rfl) fun h' => endEviction_runs h' hwb hcase.2 (fun _ => ?_) (by simp)
      have hprog : p.progress = .released := by simpa [hh] using hafter
      simp [EvictPhase.done, EvictPhase.managed, hev.placed, hcase.1, EvictPhase.untouched, hprog]
    rw [if_neg hok] at hafter
    simp only [hok, false_and, if_false, decide_false]
    exact Runs.setEviction hgood hfound hev hidle (by exact ⟨rfl, rfl, rfl, rfl⟩) (by rfl)
      (by rfl) fun h' => endEviction_runs h' hwb hcase.2 (by simp) fun _ => hafter
  | releasing =>
    simp only [Eviction.after, hstage] at hafter
    simp only [hstage] at hcase
    simp only
    split
    next hok =>
      refine Runs.setEviction hgood hfound hev hidle (by exact ⟨rfl, rfl, rfl, rfl⟩) (by rfl)
        (by rfl) fun h' => endEviction_runs h' hwb hcase.2.1 (fun _ => ?_) (by simp)
      simp [EvictPhase.done, EvictPhase.managed, hev.placed, hcase.1, EvictPhase.untouched,
        hafter hok]
    have hcar : v.Carries { v with operation := none, stage := .releasing } := ⟨rfl, rfl, rfl, rfl⟩
    exact Runs.setEviction hgood hfound hev hidle hcar rfl rfl
      fun h' => quarantineEvicting_runs h'.good h'.found h'.evicting hwb .backing

end InHand
end JitLlm.Scheduler
