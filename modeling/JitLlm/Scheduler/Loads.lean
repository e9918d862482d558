import JitLlm.Scheduler.Moves

/-!
# The stages of a load

The walk over `pagein.cc`'s first half: each function that takes a load on, called with the load
in hand (`Hand`), runs (`Runs`): its checks hold, and it leaves the load at rest, held by the next
call, in flight, or over. What a stage needs of the load is `Load.flags` and `Load.stands`; what a
completion proved is `Load.after`.
-/

namespace JitLlm.Scheduler

open Base Lib List Option
open Catalog hiding Operation Reachable

/-! ## Calls of the catalog -/

variable {α : Type} {call : Checked (Catalog.Result α × Catalog)}

theorem expect_sat {E : Fatal → Prop} {a : α} {P : Catalog → Prop} {fatal : Fatal}
    (h : Sat E (fun y => y.1 = .ok a ∧ P y.2) call) :
    Sat E (fun y => y.1 = a ∧ P y.2) (expect fatal call) := by
  refine h.bind fun y hy => ?_
  obtain ⟨answer, c⟩ := y
  obtain ⟨rfl, hP⟩ := hy
  exact ⟨rfl, hP⟩

variable {c : Catalog}

section

variable (hr : Catalog.Reachable c) (op : Catalog.Op) (hop : op.run c = Catalog.forget call)
include hr op hop

theorem reach_of_call
    {y : Catalog.Result α × Catalog} (hy : call = .ok y) : Catalog.Reachable y.2 := by
  refine hr.step op ?_
  rw [hop, hy]
  rfl

theorem call_sat {P : Catalog.Result α × Catalog → Prop} (h : Sat Catalog.Own P call) :
    Sat Catalog.Own (fun y => P y ∧ Catalog.Reachable y.2) call :=
  h.self.imp fun _ hy => ⟨hy.1, reach_of_call hr op hop hy.2⟩

end

variable {c c' : Catalog}

theorem find_edit {e e' : ExtentId} {r' : ExtentRecord}
    (h : Catalog.Edit c e r' c') (hne : e' ≠ e) : c'.extents.find? e' = c.extents.find? e' := by
  rw [h.extents, SlotTable.find?_set, if_neg hne]

variable {r r' : ExtentRecord}

variable {e : ExtentId}

theorem find_edit_self (h : Catalog.Edit c e r' c') (hr : c.extents.find? e = some r) :
    c'.extents.find? e = some r' := by
  rw [h.find hr, if_pos rfl]

variable {ticket : Ticket} {r : ExtentRecord}

theorem settleLoad_sat
    {p : LoadPhase} {loaded : Bool} (h : Catalog.Loads c e ticket r) (hr : Catalog.Reachable c)
    (hidle : p.operation = none) (hwhole : loaded = true → p.progress = .whole)
    (hgiven : loaded = false → p.mapped = false ∧ p.reuse = false) :
    Sat Catalog.Own (fun y => Catalog.Reachable y.2 ∧ ∃ r', Catalog.Edit c e r' y.2 ∧
        LoadEnd e p r r' (if loaded then .resident e else .failed e))
      (expect .settleLoad (if loaded then c.completeLoad ticket else c.failLoad ticket true)) := by
  cases loaded with
  | true =>
    refine (expect_sat (a := ()) (P := fun c' => Catalog.Reachable c' ∧
      Catalog.Edit c e r.loaded c') ?_).imp fun y hy => ⟨hy.2.1, _, hy.2.2, .whole hidle (hwhole rfl)⟩
    exact (call_sat hr (.completeLoad ticket) rfl (completeLoad_sat h)).imp
      fun y hy => ⟨hy.1.1, hy.2, hy.1.2⟩
  | false =>
    obtain ⟨hmap, hreuse⟩ := hgiven rfl
    refine (expect_sat (a := ()) (P := fun c' => Catalog.Reachable c' ∧ ∃ g, Catalog.Edit c e
      { r with view := { r.view with state := .nonresident, backingGeneration := g } } c') ?_).imp ?_
    · exact (call_sat hr (.failLoad ticket true) rfl (failLoad_sat h)).imp
        fun y hy => ⟨hy.1.1, hy.2, hy.1.2⟩
    rintro y ⟨-, hreach, g, hedit⟩
    exact ⟨hreach, _, hedit, .failed g hidle hmap hreuse⟩

theorem loseLoad_sat (h : Catalog.Loads c e ticket r) (hr : Catalog.Reachable c) :
    Sat Catalog.Own (fun y => Catalog.Reachable y.2 ∧ Catalog.Edit c e r.quarantined y.2)
      (expect .quarantineLoad (c.failLoad ticket false)) := by
  refine (expect_sat (a := ()) (P := fun c' => Catalog.Reachable c' ∧
    Catalog.Edit c e r.quarantined c') ?_).imp fun y hy => hy.2
  exact (call_sat hr (.failLoad ticket false) rfl (quarantineLoad_sat h)).imp
    fun y hy => ⟨hy.1.1, hy.2, hy.1.2⟩

theorem LoadEnd.settled {s s' : Scheduler} {p : LoadPhase}
    {event : Event} (h : LoadEnd e p r r' event) (hphase : phase e s.log = .loading p)
    (hlog : s'.log = event :: s.log) (hr : s'.catalog.extents.find? e = some r') :
    Settled s' e := by
  have hstep : phase e s'.log = p.step event := by
    rw [hlog]
    cases h with
    | whole | failed | lost => rw [phase_cons _ rfl, hphase]; rfl
  cases h with
  | whole hidle hwhole =>
    refine .inl ⟨by rw [hstep]; simp [LoadPhase.step, hidle, hwhole], fun r1 hr1 => ?_⟩
    cases hr.symm.trans hr1
    exact ⟨by simp [ExtentRecord.loaded], by simp [ExtentRecord.loaded]⟩
  | failed g hidle hmap hreuse =>
    refine .inl ⟨by rw [hstep]; simp [LoadPhase.step, hidle, hmap, hreuse], fun r1 hr1 => ?_⟩
    cases hr.symm.trans hr1
    exact ⟨by simp, by simp⟩
  | lost => exact .inr ⟨hstep, _, hr, rfl⟩

/-! ## The load in hand -/

structure Hand (x : Config) (s : Scheduler) (rest : List Work) (e : ExtentId) (l : Load)
    (p : LoadPhase) : Prop where
  good : Good x s rest (some e) l.slot
  found : s.loads.find? e = some l
  operation : l.operation = none
  loading : Loading s e l p
  idle : p.operation = none
  reuse : p.reuse = l.reuse
  mapped : p.mapped = l.mapped

section InHand

variable {x : Config} {s s' : Scheduler} {rest : List Work} {e : ExtentId} {l l' : Load}
    {E : Fatal → Prop} {g : Grip} {i : Nat} {w : Work} {p : LoadPhase} {mine : Option Nat}

theorem Good.quiet_rest (h : Good x s rest (some e) mine) : quiet rest := h.calls.1 rfl

theorem Good.quiet_held (h : Good x s rest (some e) mine) (hw : w.grips = some (e, g)) :
    quiet (w :: rest) := by
  intro id hid
  rcases mem_cons.mp hid with hid | hid
  · rw [← hid] at hw
    exact absurd hw (by simp [Work.grips])
  · exact h.quiet_rest id hid

theorem Good.setLoad (h : Good x s rest (some e) mine) (l : Load) :
    Good x (s.setLoad e l) rest (some e) mine := by
  refine h.same ?_ h.reach h.mailboxes fun id _ hp => hp
  refine ⟨fun e' he' => (.of rfl ?_ rfl rfl rfl), fun _ => rfl, rfl, .refl _,
    .refl _, .refl _, .refl _⟩
  exact OrdMap.find?_insert_ne fun heq => he' (by rw [heq])

theorem setLoad_moves (hl : s.loads.find? e = some l) (hw : l'.waiters = l.waiters) :
    Moves x s [] (s.setLoad e l') [] := by
  refine .keep (.mk rfl rfl rfl rfl) rfl ⟨fun e' => ?_, fun _ => rfl⟩ rfl rfl
  show ((s.loads.insert e l').find? e').map Load.waiters = _
  rw [OrdMap.find?_insert]
  split
  next heq =>
    rw [heq, hl]
    exact congrArg some hw
  · rfl

/-- The load changed, in nothing its ticket, its source, its slot or its waiters tell; it has no
    operation. -/
structure Load.Carries (l l' : Load) : Prop where
  slot : l'.slot = l.slot
  ticket : l'.ticket = l.ticket
  source : l'.source = l.source
  waiters : l'.waiters = l.waiters
  operation : l'.operation = none

theorem Loading.carries {s : Scheduler} {l l' : Load} (h : Loading s e l p)
    (hticket : l'.ticket = l.ticket) (hsource : l'.source = l.source) :
    Loading (s.setLoad e l') e l' p := by
  obtain ⟨hevi, ⟨r, hr⟩, hphase, hsrc⟩ := h
  exact ⟨hevi, ⟨r, hticket ▸ hr⟩, hphase, hsrc.trans hsource.symm⟩

theorem Runs.set {ran : Ran} (hgood : Good x s rest (some e) l.slot)
    (hfound : s.loads.find? e = some l) (hload : Loading s e l p) (hidle : p.operation = none)
    (hc : l.Carries l') (hreuse : p.reuse = l'.reuse) (hmap : p.mapped = l'.mapped)
    (hrun : Hand x (s.setLoad e l') rest e l' p → Runs x (s.setLoad e l') rest ran) :
    Runs x s rest ran := by
  refine Runs.after (setLoad_moves hfound hc.waiters) (hrun ?_)
  exact ⟨hc.slot ▸ hgood.setLoad l', OrdMap.find?_insert_self .., hc.operation,
    hload.carries hc.ticket hc.source, hidle, hreuse, hmap⟩

theorem Good.ended (h : Good x s rest (some e) mine) (hs : Same (some e) s s')
    (hl : s'.loads.find? e = none) (hv : s'.evictions.find? e = none) (he : Settled s' e)
    (hr : Catalog.Reachable s'.catalog) (hm : Mailboxes s'.board s'.operations s'.log) :
    Good x s' rest none mine := by
  have hgood : Good x s' rest (some e) mine :=
    h.same hs hr hm fun id hid => absurd (mem_of_mem_head? hid) (h.quiet_rest id)
  refine hgood.put (c := []) (Given.refl e s') .rest ⟨fun l' hl' => ?_, fun v' hv' => ?_,
    fun _ _ => he, fun hg => absurd rfl hg⟩ (.inr ⟨rfl, ?_⟩) hr hm
  · cases hl.symm.trans hl'
  · cases hv.symm.trans hv'
  rintro i (⟨l', hl', -⟩ | ⟨v', hv', -⟩)
  · cases hl.symm.trans hl'
  · cases hv.symm.trans hv'

/-! ## Ending -/

theorem afterLoad_runs {s1 : Scheduler} {waiters : List TaskId} {failed : TaskId → Bool}
    {started : Bool} (hgood : Good x s1 rest none none) (hq : quiet rest)
    (hm : Moves x s [] s1 (wakes waiters ++ [])) : Runs x s rest (do
      let s ← s1.wakeAll waiters failed
      let s := { s with started := if started then s.started - 1 else s.started }
      return (s, [.startQueued])) := by
  refine Sat.bind ((wakeAll_moves waiters failed).mono (fun f hf => hf.after hm) fun s' hs' =>
    show Good x s' rest none none ∧ Moves x s [] s' [] from
      ⟨hgood.woken hs'.2, hm.trans hs'.1⟩) ?_
  rintro s2 ⟨hgood2, hm2⟩
  refine ⟨?_, hm2.trans ?_⟩
  · have hstar : Good x { s2 with started := if started then s2.started - 1 else s2.started }
        rest none none := hgood2.other rfl
    exact hstar.add rfl hq (by simp)
  exact .idle rfl

theorem endLoad_runs {loaded : Bool} (h : Hand x s rest e l p) (hslot : l.slot = none)
    (hreuse : l.reuse = false) (hwhole : loaded = true → p.progress = .whole)
    (hmap : loaded = false → l.mapped = false) : Runs x s rest (s.endLoad e loaded) := by
  obtain ⟨r, hr⟩ := h.loading.ticket
  have hcheck : (l.slot.isNone && (loaded || !l.mapped) && !l.reuse) = true := by
    cases loaded with
    | true => simp [hslot, hreuse]
    | false => simp [hslot, hreuse, hmap rfl]
  unfold Scheduler.endLoad
  rw [h.found]
  simp only [require, check, hcheck, if_true, ok_bind]
  refine Sat.bind (P := fun y => Catalog.Reachable y.2 ∧ ∃ r', Catalog.Edit s.catalog e r' y.2 ∧
    LoadEnd e p r r' (if loaded then .resident e else .failed e)) ?_ ?_
  · refine owned (settleLoad_sat hr h.good.reach h.idle hwhole fun hl => ?_)
    exact ⟨h.mapped.trans (hmap hl), h.reuse.trans hreuse⟩
  rintro ⟨u, c⟩ ⟨hreach, r', hedit, hend⟩
  refine afterLoad_runs ?_ h.good.quiet_rest ?_
  · refine (hslot ▸ h.good).ended ?_ (OrdMap.find?_erase_self ..) h.loading.eviction
      (hend.settled h.loading.phase rfl (find_edit_self hedit hr.found)) hreach
      (h.good.mailboxes.cons ?_)
    · refine ⟨fun e' he' => ?_, fun _ => rfl, rfl, .refl _, .refl _, .refl _, .refl _⟩
      have hne : e' ≠ e := fun heq => he' (by rw [heq])
      exact .of (find_edit hedit hne) (OrdMap.find?_erase_ne hne) rfl rfl
        (phase_cons_other (by cases loaded <;> rfl) hne)
    · cases loaded <;> simp
  exact .tail .refl (.endLoad (.mk rfl rfl rfl rfl) rfl h.found rfl rfl h.loading hr hedit hend rfl)

variable {skip : Option ExtentId}

theorem quarantineSlot_sat (h : Good x s rest skip mine) :
    Sat E (fun slots => mine = none ∧ slots = s.slots ∨
      ∃ i, mine = some i ∧ slots = s.slots.set i .quarantined) (s.quarantineSlot mine) := by
  cases mine with
  | none => exact .inl ⟨rfl, rfl⟩
  | some i =>
    simp only [quarantineSlot, (h.mine i rfl).1, require, ok_bind]
    exact .inr ⟨i, rfl, rfl⟩

theorem Good.fail {work : List Work} (h : Good x s work skip mine)
    (fault : Fault) : Good x (s.fail fault) work skip mine :=
  h.other rfl

theorem fail_moves (s : Scheduler) (fault : Fault) : Moves x s [] (s.fail fault) [] :=
  .keep ⟨rfl, rfl, rfl, rfl, by simp [Scheduler.fail]⟩ rfl ⟨fun _ => rfl, fun _ => rfl⟩ rfl rfl

theorem quarantineLoad_runs (hgood : Good x s rest (some e) l.slot)
    (hfound : s.loads.find? e = some l) (hload : Loading s e l p) (fault : Fault) :
    Runs x s rest (s.quarantineLoad e fault) := by
  refine Runs.after (fail_moves s fault) ?_
  replace hgood := hgood.fail fault
  replace hfound : (s.fail fault).loads.find? e = some l := hfound
  replace hload : Loading (s.fail fault) e l p := hload.same (.of rfl rfl rfl rfl rfl)
  unfold quarantineLoad
  generalize s.fail fault = s at *
  obtain ⟨r, hr⟩ := hload.ticket
  simp only [hfound]
  refine Sat.bind (quarantineSlot_sat hgood) fun slots hs => ?_
  refine Sat.bind (owned (loseLoad_sat hr hgood.reach)) ?_
  rintro ⟨u, c⟩ ⟨hreach, hedit⟩
  refine afterLoad_runs ?_ hgood.quiet_rest (.tail .refl (.endLoad
    (.mk rfl rfl rfl rfl) rfl hfound rfl rfl hload hr hedit .lost rfl))
  -- The load's end with its slot still busy, then the slot.
  have hover : Good x { s with
      catalog := c
      log := .lost e :: s.log
      loads := s.loads.erase e
      queued := remove s.queued e
      slotWaiters := remove s.slotWaiters e
      blocked := remove s.blocked e } rest none l.slot := by
    refine hgood.ended ?_ (OrdMap.find?_erase_self ..) hload.eviction
      (LoadEnd.lost.settled hload.phase rfl (find_edit_self hedit hr.found)) hreach
      (hgood.mailboxes.cons (by simp))
    refine ⟨fun e' he' => ?_, fun _ => rfl, rfl, filter_sublist, filter_sublist,
      filter_sublist, .refl _⟩
    have hne : e' ≠ e := fun heq => he' (by rw [heq])
    exact .of (find_edit hedit hne) (OrdMap.find?_erase_ne hne) rfl rfl
      (phase_cons_other rfl hne)
  rcases hs with ⟨hslot, rfl⟩ | ⟨i, hslot, rfl⟩
  · exact hslot ▸ hover
  rw [hslot] at hover
  exact hover.vacate (by simp)

/-! ## Opening a stage -/

theorem Load.stage_opens (hflags : l.flags) (hstands : l.stands x .free p.progress)
    (hopens : l.stage.opens = true) (hsource : p.source = l.source) (hreuse : p.reuse = l.reuse)
    (hmap : p.mapped = l.mapped)
    (hslot : ∀ i, l.slot = some i → ∃ a, x.settings.landing.slots[i]? = some a) :
    ∃ route command, stageCommand x l = .ok (route, command) ∧ p.opens command = true := by
  obtain ⟨hkind, hflags⟩ := hflags
  cases hstage : l.stage with
  | queued | slot => simp [hstage, Stage.opens] at hopens
  | mapping =>
    simp only [hstage] at hflags
    simp only [Load.stands, hstage] at hstands
    obtain ⟨place, hplace⟩ := isSome_iff_exists.mp hstands.2
    simp only [stageCommand, hstage, hplace]
    refine ⟨_, _, rfl, ?_⟩
    simp [LoadPhase.opens, hsource, hplace, BackingWork.isAt, hmap, hflags.1, hstands.1, hreuse]
  | unmapping =>
    simp only [hstage] at hflags
    obtain ⟨place, hplace⟩ := isSome_iff_exists.mp hflags.2.2.2
    simp only [stageCommand, hstage, hplace]
    refine ⟨_, _, rfl, ?_⟩
    simp [LoadPhase.opens, hsource, hplace, BackingWork.isAt, hmap, hflags.1]
  | releasing =>
    simp only [hstage] at hflags
    obtain ⟨place, hplace⟩ := isSome_iff_exists.mp hflags.2.2.2
    simp only [stageCommand, hstage, hplace]
    refine ⟨_, _, rfl, ?_⟩
    simp [LoadPhase.opens, hsource, hplace, BackingWork.isAt, hmap, hflags.1, hreuse, hflags.2.1]
  | reading =>
    simp only [hstage] at hflags
    simp only [Load.stands, hstage] at hstands
    have hback : (p.source.backing.isNone || p.mapped) = true := by
      rw [hmap, hflags.1, hsource]
      cases l.source.backing <;> rfl
    cases hlan : l.source.landed with
    | false =>
      simp only [stageCommand, hstage, hlan, Bool.false_eq_true, if_false]
      refine ⟨_, _, rfl, ?_⟩
      rw [LoadPhase.opens, hback]
      simp [hstands.1, hsource, PageSource.ranges, hkind, hreuse, hflags.2.1]
    | true =>
      obtain ⟨i, hi⟩ := isSome_iff_exists.mp (hstands.2 hlan)
      obtain ⟨a, ha⟩ := hslot i hi
      simp only [stageCommand, hstage, hlan, if_true, hi, slotAddress, ha, require, ok_bind]
      refine ⟨_, _, rfl, ?_⟩
      rw [LoadPhase.opens, hback]
      simp [hstands.1, hsource, PageSource.ranges, hkind, hreuse, hflags.2.1, hlan]
  | copying =>
    simp only [hstage] at hflags
    simp only [Load.stands, hstage] at hstands
    obtain ⟨i, a, hi, ha, hprog⟩ := hstands
    simp only [stageCommand, hstage, hi, slotAddress, ha, require, ok_bind]
    refine ⟨_, _, rfl, ?_⟩
    cases hpieces : l.source.pieces <;>
      simp [LoadPhase.opens, hsource, hflags.2.2, hprog, PageSource.copiesFrom, hpieces]

/-- A new operation's record, as `find` and the history see it. -/
structure Opened (s : Scheduler) (id : OperationId) (op : Operation) (s' : Scheduler) : Prop where
  mailboxes : Mailboxes s'.board s'.operations s'.log
  find : ∀ id', s'.find id' = if id' = id then some op else s.find id'
  fresh : s.find id = none
  cell : s.operations[id.index]? = some none
  state : ∃ board, s' = { s with
    board
    operations := s.operations.set id.index (some op)
    log := .opened id op.kind op.extent op.command :: s.log }

theorem openOperation_sat {make : OperationId → Operation}
    (hm : Mailboxes s.board s.operations s.log) (hav : s.board.available ≠ 0)
    (hid : ∀ id, (make id).id = id)
    (hfresh : ∀ id, (make id).published = false ∧ (make id).quarantined = false) :
    Sat E (fun y => Opened s y.1 (make y.1) y.2) (s.openOperation make) := by
  obtain ⟨id, board, hopen⟩ := hm.open_isSome hav
  obtain ⟨hboxes, hnone, hvalid⟩ := hm.open hopen (hid id) (hfresh id).1 (hfresh id).2
  unfold openOperation
  rw [hopen]
  refine ⟨hboxes.cons (by simp), fun id' => ?_, ?_, hnone, _, rfl⟩
  · refine find_set (s := s) (c := some (make id)) ?_ hvalid ?_ ?_ id'
    · intro op hop
      cases hop
      exact hid id
    · exact (List.getElem?_eq_some_iff.mp hnone).1
    intro op hop
    cases hnone.symm.trans hop
  · simp [Scheduler.find, hnone]

section opened

variable {id id' : OperationId} {op : Operation} {stage : StageOp}

section

variable (h : Opened s id op s')
include h

theorem Opened.stageOp_eq : s'.stageOp id' = if id' = id then op.stage else s.stageOp id' := by
  unfold stageOp
  rw [h.find]
  split <;> rfl

theorem Opened.stageOp_cases (hop : s'.stageOp id' = some stage) :
    s.stageOp id' = some stage ∨ id' = id ∧ op.stage = some stage := by
  rw [h.stageOp_eq] at hop
  split at hop
  · exact .inr ⟨‹_›, hop⟩
  · exact .inl hop

theorem Opened.stageOp_keeps (hop : s.stageOp id' = some stage) : s'.stageOp id' = some stage := by
  rw [h.stageOp_eq, if_neg ?_]
  · exact hop
  rintro rfl
  rw [stageOp, h.fresh] at hop
  cases hop

theorem Opened.moves (hwork : op.work = none)
    (hstaged : Event.staged (.opened id op.kind op.extent op.command) = true) :
    Moves x s [] s' [] := by
  obtain ⟨board, rfl⟩ := h.state
  exact .tail .refl (.keep (.mk rfl rfl rfl rfl) (sameWork_set (c := some op) h.cell hwork rfl)
    ⟨fun _ => rfl, fun _ => rfl⟩ rfl ⟨[_], rfl, by simpa using hstaged⟩)

end

end opened

section

variable (h : Hand x s rest e l p) (hflags : l.flags) (hstands : l.stands x .free p.progress)
include h hflags hstands

theorem Hand.opened {id : OperationId} {route : Route} {command : Command}
    (hcom : stageCommand x l = .ok (route, command)) (hopens : p.opens command = true)
    (ho : Opened s id { id, kind := .load, route, extent := e, command } s') :
    Good x (s'.setLoad e { l with operation := some id }) (.publish id :: rest) none none ∧
      Moves x s [] (s'.setLoad e { l with operation := some id }) [] := by
  have hmove : Moves x s [] s' [] := ho.moves rfl rfl
  have hfound : s'.loads.find? e = some l := by
    obtain ⟨board, rfl⟩ := ho.state
    exact h.found
  have hloads : (s'.loads.insert e { l with operation := some id }).find? e =
      some { l with operation := some id } := OrdMap.find?_insert_self ..
  refine ⟨?_, hmove.trans (setLoad_moves hfound rfl)⟩
  have hkeep := @ho.stageOp_keeps
  have hcases := @ho.stageOp_cases
  have hown := ho.stageOp_eq.trans (if_pos (Eq.refl id))
  have hfind := (ho.find id).trans (if_pos rfl)
  have hboxes := ho.mailboxes
  obtain ⟨board, rfl⟩ := ho.state
  refine h.good.put (c := [.publish id]) ⟨fun e' hne => ?_, fun id' op' hop' => ?_,
    fun _ _ => hkeep _ _, rfl, rfl, rfl, rfl, rfl⟩ (.publish ⟨_, hfind, rfl, rfl⟩)
    ⟨fun l' hl' => ?_, fun v hv => ?_, fun hnone => ?_, fun hg => absurd rfl hg⟩
    (.inl ⟨rfl, fun i => ?_⟩) h.good.reach hboxes
  · exact .of rfl (OrdMap.find?_insert_ne hne) rfl rfl (phase_cons_other rfl hne)
  · rcases hcases _ _ hop' with hold | ⟨heq, hstage⟩
    · exact .inl hold
    cases hstage
    exact .inr ⟨rfl, _, hloads, congrArg some heq.symm⟩
  · cases hloads.symm.trans hl'
    refine ⟨hflags, fun hg => absurd rfl hg, fun i hi => (h.good.mine i hi).1,
      { p with operation := some (id, command) }, ⟨h.loading.eviction, h.loading.ticket, ?_,
      h.loading.source⟩, h.reuse, h.mapped, hstands, route, command, ?_, hcom, rfl⟩
    · change phase e (.opened id .load e command :: s.log) = _
      rw [phase_cons _ rfl, h.loading.phase]
      simp [Phase.step, LoadPhase.step, h.idle, hopens]
    · exact hown
  · cases h.loading.eviction.symm.trans hv
  · cases hnone.symm.trans hloads
  exact (holdsSlot_load (l := { l with operation := some id }) hloads
    (by exact h.loading.eviction) i).symm

theorem openStage_sat (hopens : l.stage.opens = true) :
    Sat (Ends x s []) (fun o => ∀ y, o = some y →
      Good x y.1 (y.2 ++ rest) none none ∧ Moves x s [] y.1 []) (openStage x s e l) := by
  unfold openStage
  split
  · split
    · refine Sat.bind (quarantineLoad_runs h.good h.found h.loading .exhausted) fun y hy => ?_
      rintro y' hy'
      cases hy'
      exact hy
    · exact fun y hy => absurd hy (by simp)
  rename_i hav
  have hslot : ∀ i, l.slot = some i → ∃ a, x.settings.landing.slots[i]? = some a := by
    intro i hi
    have hlt := (List.getElem?_eq_some_iff.mp (h.good.mine i hi).1).1
    rw [h.good.slots] at hlt
    exact ⟨_, getElem?_eq_getElem hlt⟩
  obtain ⟨route, command, hcom, hopen⟩ := Load.stage_opens hflags hstands hopens
    h.loading.source h.reuse h.mapped hslot
  rw [hcom]
  simp only [ok_bind]
  refine Sat.bind (openOperation_sat h.good.mailboxes hav (fun _ => rfl) fun _ => ⟨rfl, rfl⟩) ?_
  rintro ⟨id, s'⟩ ho y hy
  cases hy
  exact h.opened hflags hstands hcom hopen ho

end

theorem Good.putLoad {c : List Work} {mine' : Option Nat} (h : Good x s rest (some e) mine)
    (hfound : s.loads.find? e = some l) (hop : l.operation = none) (hload : Loading s e l p)
    (hidle : p.operation = none) (hreuse : p.reuse = l.reuse) (hmap : p.mapped = l.mapped)
    (hflags : l.flags) (hstands : l.stands x g p.progress) (hn : Next s e c g)
    (hk : mine' = none ∧ l.slot = mine ∨ mine' = mine ∧ l.slot = none) :
    Good x s (c ++ rest) none mine' := by
  refine h.put (Given.refl e s) hn ⟨fun l' hl' => ?_, fun v hv => ?_, fun hnone => ?_,
    fun _ => .inl ⟨l, hfound⟩⟩ (.of_slot (holdsSlot_load hfound hload.eviction) hk) h.reach
    h.mailboxes
  · cases hfound.symm.trans hl'
    refine ⟨hflags, fun _ => hop, fun i hi => ?_, p, hload, hreuse, hmap, hstands, ?_⟩
    · rcases hk with ⟨-, hk⟩ | ⟨-, hk⟩
      · exact (h.mine i (hk ▸ hi)).1
      · cases hk.symm.trans hi
    simp only [Load.operates, hop]
    exact hidle
  · cases hload.eviction.symm.trans hv
  · cases hnone.symm.trans hfound

theorem Hand.put {c : List Work} (h : Hand x s rest e l p) (hflags : l.flags)
    (hstands : l.stands x g p.progress) (hn : Next s e c g) : Good x s (c ++ rest) none none :=
  h.good.putLoad h.found h.operation h.loading h.idle h.reuse h.mapped hflags hstands hn
    (.inl ⟨rfl, rfl⟩)

theorem requeue_moves {queued slotWaiters blocked releaseQueue : List ExtentId} :
    Moves x s [] { s with queued, slotWaiters, blocked, releaseQueue } [] :=
  .idle rfl

theorem openOrBlock_runs (h : Hand x s rest e l p) (hflags : l.flags)
    (hstands : l.stands x .free p.progress) (hopens : l.stage.opens = true) :
    Runs x s rest (openOrBlock x s e l) := by
  refine Sat.bind (openStage_sat h hflags hstands hopens) fun o ho => ?_
  cases o with
  | some y => exact ho y rfl
  | none =>
    have hgood : Good x s rest none none := h.put hflags hstands .rest
    refine ⟨hgood.requeue hgood.queued hgood.slotWaiters (hgood.blocked.append ?_ (by simp) ?_ ?_)
      hgood.release, requeue_moves⟩
    · exact h.good.blocked.not_mem
    · exact grip_of_not_mem fun hmem => (h.good.gripped e hmem).1 rfl
    · exact .inl ⟨l, h.found, h.operation, hopens⟩

/-! ## Slots -/

theorem nextSlotWaiter_spec (s : Scheduler) {waiters : List ExtentId} (hn : waiters.Nodup) :
    (s.nextSlotWaiter waiters).2.Sublist waiters ∧
    ∀ w, (s.nextSlotWaiter waiters).1 = some w → ∃ e ∈ waiters,
      e ∉ (s.nextSlotWaiter waiters).2 ∧
      ((w = .proceed e ∧ ∃ l, s.loads.find? e = some l) ∨
        (w = .proceedEviction e ∧ ∃ v, s.evictions.find? e = some v)) := by
  induction waiters with
  | nil => exact ⟨.refl _, fun w hw => absurd hw (by simp [nextSlotWaiter])⟩
  | cons e rest ih =>
    obtain ⟨hnot, hn⟩ := nodup_cons.mp hn
    obtain ⟨hsub, hnext⟩ := ih hn
    unfold nextSlotWaiter
    split
    next hload =>
      refine ⟨sublist_cons_self _ _, fun w hw => ⟨e, mem_cons_self, hnot, .inl
        ⟨(some.inj hw).symm, ?_⟩⟩⟩
      cases hf : s.loads.find? e with
      | none => simp [hf] at hload
      | some l => exact ⟨l, rfl⟩
    split
    next hev =>
      refine ⟨sublist_cons_self _ _, fun w hw => ⟨e, mem_cons_self, hnot, .inr
        ⟨(some.inj hw).symm, ?_⟩⟩⟩
      cases hf : s.evictions.find? e with
      | none => simp [hf] at hev
      | some v => exact ⟨v, rfl⟩
    refine ⟨hsub.trans (sublist_cons_self _ _), fun w hw => ?_⟩
    obtain ⟨e', hmem, hrest⟩ := hnext w hw
    exact ⟨e', mem_cons_of_mem _ hmem, hrest⟩

theorem LoadOk.idle (h : LoadOk x s g e l) (hs : l.stage.opens = false) : l.operation = none := by
  obtain ⟨p, -, -, -, -, hop⟩ := h.loading
  rcases ho : l.operation with _ | _
  · rfl
  simp only [Load.operates, ho] at hop
  obtain ⟨route, command, -, hcom, -⟩ := hop
  cases hstage : l.stage <;> simp [hstage, Stage.opens] at hs <;>
    simp [stageCommand, hstage] at hcom

theorem EvictOk.idle {v : Eviction} (h : EvictOk x s g e v)
    (hs : v.stage.opens = false) : v.operation = none := by
  obtain ⟨place, p, -, -, -, hop⟩ := h.evicting
  rcases ho : v.operation with _ | _
  · rfl
  simp only [Eviction.operates, ho] at hop
  obtain ⟨route, command, -, hcom, -⟩ := hop
  cases hstage : v.stage <;> simp [hstage, EvictStage.opens] at hs <;>
    simp [evictCommand, hstage] at hcom

variable {work : List Work} {skip : Option ExtentId}

theorem Good.slotWaiter (h : Good x s work skip mine)
    (he : e ∈ s.slotWaiters) : e ∉ s.queued ∧ e ∉ s.blocked ∧ e ∉ s.releaseQueue := by
  obtain ⟨hskip, -, hslot⟩ := h.slotWaiters.each e he
  refine ⟨fun hmem => ?_, fun hmem => ?_, fun hmem => ?_⟩
  · obtain ⟨l, hl, hqueued⟩ := (h.queued.each e hmem).2.2
    rcases hslot with ⟨l', hl', hstage⟩ | ⟨v, hv, -⟩
    · cases hl.symm.trans hl'
      cases hqueued.symm.trans hstage
    obtain ⟨p, hp, -⟩ := (h.load e l hskip hl).loading
    cases hp.eviction.symm.trans hv
  · rcases hslot with ⟨l, hl, hstage⟩ | ⟨v, hv, hstage⟩ <;>
      rcases (h.blocked.each e hmem).2.2 with ⟨l', hl', -, hopens⟩ | ⟨v', hv', -, hopens, -⟩
    · cases hl.symm.trans hl'
      simp [hstage, Stage.opens] at hopens
    · obtain ⟨p, hp, -⟩ := (h.load e l hskip hl).loading
      cases hp.eviction.symm.trans hv'
    · obtain ⟨p, hp, -⟩ := (h.load e l' hskip hl').loading
      cases hp.eviction.symm.trans hv
    cases hv.symm.trans hv'
    simp [hstage, EvictStage.opens] at hopens
  obtain ⟨v, hv, -, hrel, -⟩ := (h.release.each e hmem).2.2
  rcases hslot with ⟨l, hl, -⟩ | ⟨v', hv', hstage⟩
  · obtain ⟨p, hp, -⟩ := (h.load e l hskip hl).loading
    cases hp.eviction.symm.trans hv
  cases hv.symm.trans hv'
  cases hrel.symm.trans hstage

theorem freeSlot_runs (h : Good x s work none (some i))
    (hq : quiet work) : Runs x s work (s.freeSlot i) := by
  obtain ⟨hsub, hnext⟩ := nextSlotWaiter_spec s h.slotWaiters.nodup
  have hvac : Good x { s with slots := s.slots.set i .free } work none none := h.vacate (by simp)
  have hwait : Lined work none (s.nextSlotWaiter s.slotWaiters).2 (ForSlot s) :=
    h.slotWaiters.mono hsub fun e _ hs hP => ⟨hs, rfl, hP⟩
  have hgood : Good x { s with
      slots := s.slots.set i .free
      slotWaiters := (s.nextSlotWaiter s.slotWaiters).2 } work none none :=
    hvac.requeue hvac.queued hwait hvac.blocked hvac.release
  unfold freeSlot
  rw [if_pos (h.mine i rfl).1]
  refine ⟨?_, .idle rfl⟩
  rcases hw : (s.nextSlotWaiter s.slotWaiters).1 with _ | w
  · exact hgood
  obtain ⟨e, hmem, hnot, hcase⟩ := hnext w hw
  obtain ⟨-, hfree, hslot⟩ := h.slotWaiters.each e hmem
  obtain ⟨hqueued, hblocked, hrel⟩ := h.slotWaiter hmem
  rcases hcase with ⟨rfl, l, hl⟩ | ⟨rfl, v, hv⟩
  · have hok := hgood.load e l (by simp) hl
    rw [hfree] at hok
    have hstage : l.stage = .slot := by
      rcases hslot with ⟨l', hl', hstage⟩ | ⟨v, hv, -⟩
      · cases hl.symm.trans hl'
        exact hstage
      obtain ⟨p, hp, -⟩ := hok.loading
      cases hp.eviction.symm.trans hv
    refine hgood.hold hq rfl (by simp) hfree (fun l' hl' => ?_) (fun v hv => ?_)
      (.inl ⟨l, hl⟩) hqueued hnot hblocked hrel
    · cases hl.symm.trans hl'
      obtain ⟨p, hp, hreuse, hmap, hstands, hop⟩ := hok.loading
      refine ⟨hok.flags, fun _ => hok.idle (by rw [hstage]; rfl), hok.slot, p, hp, hreuse,
        hmap, ⟨.inr hstage, ?_⟩, hop⟩
      simpa [Load.stands, hstage] using hstands
    obtain ⟨p, hp, -⟩ := hok.loading
    cases hp.eviction.symm.trans hv
  have hok := hgood.eviction e v (by simp) hv
  rw [hfree] at hok
  have hstage : v.stage = .slot := by
    rcases hslot with ⟨l, hl, -⟩ | ⟨v', hv', hstage⟩
    · obtain ⟨place, p, hp, -⟩ := hok.evicting
      cases hp.load.symm.trans hl
    cases hv.symm.trans hv'
    exact hstage
  refine hgood.hold hq rfl (by simp) hfree (fun l hl => ?_) (fun v' hv' => ?_)
    (.inr ⟨v, hv⟩) hqueued hnot hblocked hrel
  · obtain ⟨place, p, hp, -⟩ := hok.evicting
    cases hp.load.symm.trans hl
  cases hv.symm.trans hv'
  obtain ⟨place, p, hp, hflags, hstands, hop⟩ := hok.evicting
  refine ⟨fun _ => hok.idle (by rw [hstage]; rfl), hok.slot, place, p, hp, hflags,
    ⟨hstage, ?_⟩, hop⟩
  simpa [Eviction.stands, hstage] using hstands

/-! ## Going on -/

/-- What a load can be unwound from: at most one of a mapping and a kept backing, and neither
    without a place. -/
def Load.unwinds (l : Load) : Prop :=
  l.source.read.kind = .read ∧ (l.mapped = true → l.source.backing.isSome = true ∧ l.reuse = false) ∧
    (l.reuse = true → l.source.backing.isSome = true)

theorem Load.flags.unwinds (h : l.flags) : l.unwinds := by
  obtain ⟨hkind, h⟩ := h
  refine ⟨hkind, ?_⟩
  cases hstage : l.stage with
  | queued | mapping =>
    simp only [hstage] at h
    exact ⟨fun hm => absurd hm (by simp [h.1]), h.2.2⟩
  | slot | reading | copying =>
    simp only [hstage] at h
    exact ⟨fun hm => ⟨h.1.symm.trans hm, h.2.1⟩, fun hr => absurd hr (by simp [h.2.1])⟩
  | unmapping | releasing =>
    simp only [hstage] at h
    simp [h]

theorem unwind_runs (h : Hand x s rest e l p) (hslot : l.slot = none) (hu : l.unwinds) :
    Runs x s rest (unwind x s e) := by
  obtain ⟨hkind, hmap, hback⟩ := hu
  unfold unwind
  rw [h.found]
  simp only [require, ok_bind]
  split
  next hnone =>
    have hnone : l.mapped = false ∧ l.reuse = false := by simpa using hnone
    exact Runs.set h.good h.found h.loading h.idle (by exact ⟨rfl, rfl, rfl, rfl, h.operation⟩)
      (by exact h.reuse) (by exact h.mapped)
      fun h' => endLoad_runs h' hslot hnone.2 (by simp) fun _ => hnone.1
  rename_i hsome
  refine Runs.set h.good h.found h.loading h.idle (by exact ⟨rfl, rfl, rfl, rfl, h.operation⟩)
    (by exact h.reuse) (by exact h.mapped) fun h' => openOrBlock_runs h' ⟨hkind, ?_⟩ ?_ ?_
  · cases hm : l.mapped with
    | true => simp [hslot, hmap hm]
    | false =>
      have hr : l.reuse = true := by simpa [hm] using hsome
      simp [hr, hslot, hback hr]
  · cases hm : l.mapped <;> simp [Load.stands]
  · cases hm : l.mapped <;> simp [Stage.opens]

def Load.after (x : Config) (l : Load) (outcome : Outcome) (bytes : Nat) (p : LoadPhase) : Prop :=
  match l.stage with
  | .mapping => p.progress = .fresh ∧
      if outcome = .succeeded then p.mapped = l.source.backing.isSome ∧ p.reuse = false
      else p.mapped = l.mapped ∧ p.reuse = l.reuse
  | .reading => p.mapped = l.mapped ∧ p.reuse = l.reuse ∧
      (l.source.landed = true → l.slot.isSome = true) ∧
      (outcome = .succeeded ∧ bytes = l.source.read.length →
        if l.source.landed then ∃ i a, l.slot = some i ∧
          x.settings.landing.slots[i]? = some a ∧ p.progress = .read a
        else p.progress = .whole)
  | .copying => p.mapped = l.mapped ∧ p.reuse = l.reuse ∧ l.slot.isSome = true ∧
      (outcome = .succeeded → p.progress = .whole)
  | .unmapping => p.reuse = l.reuse ∧ p.mapped = if outcome = .succeeded then false else l.mapped
  | .releasing => p.mapped = l.mapped ∧ p.reuse = if outcome = .succeeded then false else l.reuse
  | .queued | .slot => False

theorem freed_runs (hgood : Good x s rest (some e) (some i)) (hfound : s.loads.find? e = some l)
    (hload : Loading s e l p) (hidle : p.operation = none) (hslot : l'.slot = none)
    (hop : l'.operation = none) (hticket : l'.ticket = l.ticket) (hsource : l'.source = l.source)
    (hwait : l'.waiters = l.waiters) (hreuse : p.reuse = l'.reuse) (hmap : p.mapped = l'.mapped)
    (hflags : l'.flags) (hstands : l'.stands x g p.progress) (hw : w.grips = some (e, g)) :
    Runs x s rest (do
      let (s, freed) ← freeSlot (s.setLoad e l') i
      return (s, freed ++ [w])) := by
  have hput : Good x (s.setLoad e l') (w :: rest) none (some i) :=
    (hgood.setLoad l').putLoad (c := [w]) (OrdMap.find?_insert_self ..) hop
      (hload.carries hticket hsource) hidle hreuse hmap hflags hstands (.held hw)
      (.inr ⟨rfl, hslot⟩)
  refine Sat.bind (Runs.after (setLoad_moves hfound hwait)
    (freeSlot_runs hput (hgood.quiet_held hw))) ?_
  rintro ⟨s', freed⟩ ⟨hgood', hm⟩
  exact ⟨by simpa using hgood', hm⟩

theorem onStage_runs {outcome : Outcome} {bytes : Nat} (hgood : Good x s rest (some e) l.slot)
    (hfound : s.loads.find? e = some l) (hload : Loading s e l p) (hidle : p.operation = none)
    (hflags : l.flags) (hafter : l.after x outcome bytes p) :
    Runs x s rest (onStage x s e outcome bytes) := by
  have hset {l' ran} := @Runs.set x s rest e l l' p ran hgood hfound hload hidle
  have hu := hflags.unwinds
  obtain ⟨hkind, hflags⟩ := hflags
  unfold onStage
  rw [hfound]
  simp only [require, ok_bind]
  cases hstage : l.stage with
  | queued | slot => simp [Load.after, hstage] at hafter
  | mapping =>
    simp only [Load.after, hstage] at hafter
    simp only [hstage] at hflags
    obtain ⟨hfresh, hafter⟩ := hafter
    simp only
    split
    next hfail =>
      rw [if_neg hfail] at hafter
      exact hset (by exact ⟨rfl, rfl, rfl, rfl, rfl⟩)
        (by exact hafter.2) (by exact hafter.1) fun h => unwind_runs h hflags.2.1 hu
    rename_i hok
    rw [if_pos (not_not.mp hok)] at hafter
    split
    · exact hset (by exact ⟨rfl, rfl, rfl, rfl, rfl⟩)
        (by exact hafter.2) (by exact hafter.1)
        fun h => unwind_runs h hflags.2.1 ⟨hkind, fun hm => ⟨hm, rfl⟩, by simp⟩
    split
    next hlan =>
      have hcar : l.Carries { l with
          operation := none, mapped := l.source.backing.isSome, reuse := false, stage := .slot } :=
        ⟨rfl, rfl, rfl, rfl, rfl⟩
      refine Runs.set hgood hfound hload hidle hcar hafter.2 hafter.1 fun h => ⟨?_, .refl⟩
      exact h.put (c := [.proceed e]) (g := .proceed) ⟨hkind, rfl, rfl, hflags.2.1, hlan⟩
        ⟨.inr rfl, hfresh⟩ (.held rfl)
    rename_i hlan
    refine hset (by exact ⟨rfl, rfl, rfl, rfl, rfl⟩)
      (by exact hafter.2) (by exact hafter.1) fun h => openOrBlock_runs h
        ⟨hkind, rfl, rfl, ?_⟩ ⟨hfresh, fun hl => absurd hl hlan⟩ rfl
    simp [hflags.2.1]
  | reading =>
    simp only [Load.after, hstage] at hafter
    simp only [hstage] at hflags
    obtain ⟨hmap, hreuse, hslot, hwhole⟩ := hafter
    simp only
    split
    next hlan =>
      have hnone : l.slot = none := by
        cases hs : l.slot with
        | none => rfl
        | some => exact absurd (hflags.2.2 (by simp [hs])) (by simp [hlan])
      split
      next hw =>
        have hprog := hwhole hw
        rw [hlan] at hprog
        exact hset (by exact ⟨rfl, rfl, rfl, rfl, rfl⟩)
          (by exact hreuse) (by exact hmap) fun h => endLoad_runs h hnone hflags.2.1
            (fun _ => by simpa using hprog) (by simp)
      exact hset (by exact ⟨rfl, rfl, rfl, rfl, rfl⟩)
        (by exact hreuse) (by exact hmap) fun h => unwind_runs h hnone hu
    rename_i hlan
    have hlan : l.source.landed = true := by simpa using hlan
    split
    next hw =>
      have hprog := hwhole hw.1
      rw [if_pos hlan] at hprog
      exact hset (by exact ⟨rfl, rfl, rfl, rfl, rfl⟩)
        (by exact hreuse) (by exact hmap) fun h => openOrBlock_runs h
          ⟨hkind, hflags.1, hflags.2.1, hlan⟩ hprog rfl
    obtain ⟨i, hi⟩ := isSome_iff_exists.mp (hslot hlan)
    rw [hi] at hgood
    simp only [hi, ok_bind]
    refine freed_runs (g := .unwind) hgood hfound hload hidle (by rfl) (by rfl) (by rfl)
      (by rfl) (by rfl) (by exact hreuse) (by exact hmap) ⟨hkind, ?_⟩
      ⟨rfl, .inl (by rfl)⟩ rfl
    exact ⟨hflags.1, hflags.2.1, by simp⟩
  | copying =>
    simp only [Load.after, hstage] at hafter
    simp only [hstage] at hflags
    obtain ⟨hmap, hreuse, hslot, hwhole⟩ := hafter
    obtain ⟨i, hi⟩ := isSome_iff_exists.mp hslot
    rw [hi] at hgood
    simp only [hi, ok_bind]
    by_cases hok : outcome = .succeeded
    · simp only [hok, if_true]
      exact freed_runs (g := .endLoad) hgood hfound hload hidle (by rfl) (by rfl) (by rfl)
        (by rfl) (by rfl) (by exact hreuse) (by exact hmap) ⟨hkind, hflags⟩
        ⟨rfl, by rfl, hwhole hok⟩ rfl
    simp only [hok, if_false]
    exact freed_runs (g := .unwind) hgood hfound hload hidle (by rfl) (by rfl) (by rfl)
      (by rfl) (by rfl) (by exact hreuse) (by exact hmap) ⟨hkind, hflags⟩
      ⟨rfl, .inr (by rfl)⟩ rfl
  | unmapping =>
    simp only [Load.after, hstage] at hafter
    simp only [hstage] at hflags
    simp only
    split
    next hok =>
      rw [if_pos hok] at hafter
      exact hset (by exact ⟨rfl, rfl, rfl, rfl, rfl⟩)
        (by exact hafter.1) (by exact hafter.2) fun h => endLoad_runs h hflags.2.2.1 hflags.2.1
          (by simp) fun _ => rfl
    rename_i hfail
    rw [if_neg hfail] at hafter
    exact hset (by exact ⟨rfl, rfl, rfl, rfl, rfl⟩)
      (by exact hafter.1) (by exact hafter.2)
      fun h => quarantineLoad_runs h.good h.found h.loading .backing
  | releasing =>
    simp only [Load.after, hstage] at hafter
    simp only [hstage] at hflags
    simp only
    split
    next hok =>
      rw [if_pos hok] at hafter
      exact hset (by exact ⟨rfl, rfl, rfl, rfl, rfl⟩)
        (by exact hafter.2) (by exact hafter.1) fun h => endLoad_runs h hflags.2.2.1 rfl
          (by simp) fun _ => hflags.1
    rename_i hfail
    rw [if_neg hfail] at hafter
    exact hset (by exact ⟨rfl, rfl, rfl, rfl, rfl⟩)
      (by exact hafter.2) (by exact hafter.1)
      fun h => quarantineLoad_runs h.good h.found h.loading .backing

theorem Good.takeLoad (h : Good x s work none none) (hl : s.loads.find? e = some l)
    (hok : LoadOk x s g e l) (hop : l.operation = none) (hleft : Left e work rest) (hq : quiet rest)
    (hqueued : e ∉ s.queued) (hslot : e ∉ s.slotWaiters) (hblocked : e ∉ s.blocked) :
    ∃ p, Hand x s rest e l p ∧ l.stands x g p.progress := by
  obtain ⟨p, hp, hreuse, hmap, hstands, hopp⟩ := hok.loading
  have hidle : p.operation = none := by simpa [Load.operates, hop] using hopp
  refine ⟨p, ⟨h.take ⟨fun _ _ => .of rfl rfl rfl rfl rfl, fun id op ho => ⟨ho, ?_⟩,
    fun _ _ ho _ => ho, rfl, ⟨.refl _, hqueued⟩, ⟨.refl _, hslot⟩,
    ⟨.refl _, hblocked⟩, ⟨.refl _, fun hmem => ?_⟩⟩ hleft hq
    (holdsSlot_load hl hp.eviction) h.reach h.mailboxes, hl, hop, hp, hidle, hreuse,
    hmap⟩, hstands⟩
  · -- An operation of the extent would be its load's.
    rintro rfl
    have how := (h.owned id op ho).2
    unfold Owned at how
    split at how
    · obtain ⟨l', hl', hid⟩ := how
      cases hl.symm.trans hl'
      cases hop.symm.trans hid
    obtain ⟨v, hv, -⟩ := how
    cases hp.eviction.symm.trans hv
  · obtain ⟨v, hv, -⟩ := (h.release.each e hmem).2.2
    cases hp.eviction.symm.trans hv

theorem Good.heldLoad (h : Good x s (w :: rest) none none)
    (hw : w.grips = some (e, g)) (hl : s.loads.find? e = some l) :
    l.flags ∧ ∃ p, Hand x s rest e l p ∧ l.stands x g p.progress := by
  have hok := h.load e l (by simp) hl
  have hself : grip (w :: rest) e = g := grip_cons_self hw
  have hnot : ∀ {q P}, Lined (w :: rest) none q P → e ∉ q := fun hq hmem =>
    Work.grips_ne_free hw (hself.symm.trans (hq.each e hmem).2.1)
  rw [hself] at hok
  exact ⟨hok.flags, h.takeLoad hl hok (hok.held (Work.grips_ne_free hw)) (.held hw) h.calls.2.1
    (hnot h.queued) (hnot h.slotWaiters) (hnot h.blocked)⟩

theorem Good.isLoad (h : Good x s (w :: rest) none none)
    (hw : w.grips = some (e, g)) (hg : g = .proceed ∨ g = .unwind ∨ g = .endLoad) :
    ∃ l, s.loads.find? e = some l := by
  have hmem : e ∈ Scheduler.gripped (w :: rest) := by
    rw [gripped_cons_some hw]
    exact mem_cons_self
  rcases (h.gripped e hmem).2 with hl | ⟨v, hv⟩
  · exact hl
  have hok := h.eviction e v (by simp) hv
  rw [grip_cons_self hw] at hok
  obtain ⟨place, p, -, -, hstands, -⟩ := hok.evicting
  rcases hg with rfl | rfl | rfl <;> exact hstands.elim

theorem started_moves (n : Nat) : Moves x s [] { s with started := n } [] :=
  .idle rfl

theorem Hand.started (h : Hand x s rest e l p) (n : Nat) : Hand x { s with started := n } rest e l p :=
  ⟨h.good.other rfl, h.found, h.operation, h.loading.same (.of rfl rfl rfl rfl rfl), h.idle, h.reuse,
    h.mapped⟩

theorem freeSlot?_spec (h : s.freeSlot? = some i) : s.slots[i]? = some .free := by
  obtain ⟨hi, hp⟩ := List.findIdx?_eq_some_iff_getElem.mp h
  rw [getElem?_eq_getElem hi]
  exact congrArg some (by simpa using hp.1)

theorem proceed_runs (h : Good x s (.proceed e :: rest) none none) :
    Runs x s rest (proceed x s e) := by
  obtain ⟨l, hl⟩ := h.isLoad rfl (.inl rfl)
  obtain ⟨⟨hkind, hflags⟩, p, hh, hstage, hfresh⟩ := h.heldLoad rfl hl
  unfold proceed
  simp only [hl]
  rcases hstage with hstage | hstage
  · simp only [hstage] at hflags ⊢
    refine Runs.after (started_moves (if l.source.landed then s.started + 1 else s.started)) ?_
    replace hh := hh.started (if l.source.landed then s.started + 1 else s.started)
    by_cases hback : l.source.backing.isSome = true
    · rw [if_pos hback]
      exact Runs.set hh.good hh.found hh.loading hh.idle
        (by exact ⟨rfl, rfl, rfl, rfl, hh.operation⟩) (by exact hh.reuse) (by exact hh.mapped)
        fun h => openOrBlock_runs h ⟨hkind, hflags⟩ ⟨hfresh, hback⟩ rfl
    rw [if_neg hback]
    have hnone : l.source.backing.isSome = false := by simpa using hback
    refine Runs.set hh.good hh.found hh.loading hh.idle
      (by exact ⟨rfl, rfl, rfl, rfl, hh.operation⟩) (by exact hh.reuse) (by exact hh.mapped)
      fun h => onStage_runs h.good h.found h.loading h.idle ⟨hkind, hflags⟩ ⟨hfresh, ?_⟩
    rw [if_pos rfl, hnone, hh.mapped, hh.reuse]
    refine ⟨hflags.1, ?_⟩
    cases hr : l.reuse with
    | false => rfl
    | true => exact absurd (hflags.2.2 hr) hback
  simp only [hstage] at hflags ⊢
  cases hfree : s.freeSlot? with
  | none =>
    have hgood : Good x s rest none none := by
      refine hh.put (c := []) ⟨hkind, ?_⟩ ?_ .rest
      · simpa [hstage] using hflags
      · simpa [Load.stands, hstage] using hfresh
    refine ⟨hgood.requeue hgood.queued (hgood.slotWaiters.append ?_ (by simp) ?_ ?_)
      hgood.blocked hgood.release, requeue_moves⟩
    · exact hh.good.slotWaiters.not_mem
    · exact grip_of_not_mem fun hmem => (hh.good.gripped e hmem).1 rfl
    · exact .inl ⟨l, hl, hstage⟩
  | some i =>
    have hgood := hh.good
    rw [hflags.2.2.1] at hgood
    replace hgood := hgood.seize (freeSlot?_spec hfree)
    have hmove : Moves x s [] { s with slots := s.slots.set i .busy } [] :=
      .idle rfl
    have hload : Loading { s with slots := s.slots.set i .busy } e l p :=
      hh.loading.same (.of rfl rfl rfl rfl rfl)
    refine Runs.after (hmove.trans (setLoad_moves hl (by rfl))) (openOrBlock_runs
      ⟨hgood.setLoad _, OrdMap.find?_insert_self .., hh.operation,
        hload.carries (by rfl) (by rfl), hh.idle, hh.reuse, hh.mapped⟩
      ⟨hkind, hflags.1, hflags.2.1, fun _ => hflags.2.2.2⟩ ⟨hfresh, fun _ => rfl⟩ rfl)

theorem unwindCall_runs (h : Good x s (.unwind e :: rest) none none) :
    Runs x s rest (unwind x s e) := by
  obtain ⟨l, hl⟩ := h.isLoad rfl (.inr (.inl rfl))
  obtain ⟨hflags, p, hh, hslot, -⟩ := h.heldLoad rfl hl
  exact unwind_runs hh hslot hflags.unwinds

theorem endLoadCall_runs (h : Good x s (.endLoad e :: rest) none none) :
    Runs x s rest (s.endLoad e true) := by
  obtain ⟨l, hl⟩ := h.isLoad rfl (.inr (.inr rfl))
  obtain ⟨⟨-, hflags⟩, p, hh, hslot, hstage, hwhole⟩ := h.heldLoad rfl hl
  simp only [hstage] at hflags
  exact endLoad_runs hh hslot hflags.2.1 (fun _ => hwhole) (by simp)

theorem Good.queuedOnly (h : Good x s work skip mine)
    (he : e ∈ s.queued) : e ∉ s.slotWaiters ∧ e ∉ s.blocked ∧ e ∉ s.releaseQueue := by
  obtain ⟨hskip, -, l, hl, hstage⟩ := h.queued.each e he
  obtain ⟨p, hp, -⟩ := (h.load e l hskip hl).loading
  refine ⟨fun hmem => (h.slotWaiter hmem).1 he, fun hmem => ?_, fun hmem => ?_⟩
  · rcases (h.blocked.each e hmem).2.2 with ⟨l', hl', -, hopens⟩ | ⟨v, hv, -⟩
    · cases hl.symm.trans hl'
      simp [hstage, Stage.opens] at hopens
    · cases hp.eviction.symm.trans hv
  obtain ⟨v, hv, -⟩ := (h.release.each e hmem).2.2
  cases hp.eviction.symm.trans hv

theorem startQueued_runs (h : Good x s (.startQueued :: rest) none none) :
    Runs x s rest s.startQueued := by
  have hq : quiet rest := h.calls.2.1
  replace h : Good x s rest none none := h.drop rfl
  unfold startQueued
  rcases hqueue : s.queued with _ | ⟨e, queued⟩
  · exact ⟨h, .refl⟩
  simp only
  have hmem : e ∈ s.queued := by rw [hqueue]; exact mem_cons_self
  obtain ⟨-, hfree, l, hl, hstage⟩ := h.queued.each e hmem
  obtain ⟨hslot, hblocked, hrel⟩ := h.queuedOnly hmem
  have hnodup := h.queued.nodup
  rw [hqueue, nodup_cons] at hnodup
  have hpop : Good x { s with queued } (.startQueued :: rest) none none := by
    refine Good.add (h.requeue (h.queued.mono ?_ fun e' _ hs hP => ⟨hs, rfl, hP⟩) h.slotWaiters
      h.blocked h.release) rfl hq (by simp)
    rw [hqueue]
    exact sublist_cons_self _ _
  split
  · split
    · refine ⟨?_, requeue_moves⟩
      have hok := hpop.load e l (by simp) hl
      rw [grip_cons_none rfl, hfree] at hok
      refine hpop.hold (w := .proceed e) ?_ rfl (by simp) ?_ (fun l' hl' => ?_) (fun v hv => ?_)
        (.inl ⟨l, hl⟩) hnodup.1 hslot hblocked hrel
      · intro id hid
        rcases mem_cons.mp hid with hid | hid
        · cases hid
        · exact hq id hid
      · rw [grip_cons_none rfl]
        exact hfree
      · cases hl.symm.trans hl'
        obtain ⟨p, hp, hreuse, hmap, hstands, hop⟩ := hok.loading
        refine ⟨hok.flags, fun _ => hok.idle (by rw [hstage]; rfl), hok.slot, p, hp, hreuse,
          hmap, ⟨.inl hstage, ?_⟩, hop⟩
        simpa [Load.stands, hstage] using hstands
      obtain ⟨p, hp, -⟩ := hok.loading
      cases hp.eviction.symm.trans hv
    · exact ⟨hpop, requeue_moves⟩
  · exact ⟨h, .refl⟩

end InHand
end JitLlm.Scheduler
