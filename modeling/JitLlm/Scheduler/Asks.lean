import JitLlm.Scheduler.Lifecycle

/-!
# Materializing and evicting

The walk of `Scheduler/Loads.lean` and `Scheduler/Evictions.lean` goes on with the calls that
begin a load or an eviction. A load may take a parked eviction's backing: its own, whose eviction
has just ended, or a donor's, which ends in the same call. Either way the parked eviction has no
operation, no slot, no waiter and no place in a queue, so it ends with nothing left to be called.
-/

namespace JitLlm

open Option

open Base Lib in
theorem Catalog.Edit.bytesOf {c c' : Catalog} {e : ExtentId} {r r' : Catalog.ExtentRecord}
    (h : Catalog.Edit c e r' c') (hr : c.extents.find? e = some r) (d : DomainId)
    (p : Catalog.ExtentView → Bool) :
    Catalog.bytesOf c' d p + Catalog.weight d p r = Catalog.bytesOf c d p + Catalog.weight d p r' := by
  have hset := Catalog.bytesOf_set hr r' d p
  unfold Catalog.bytesOf at hset ⊢
  rw [h.extents]
  exact hset

namespace Scheduler

open Base Lib
open Catalog hiding Operation Reachable

variable {x : Config} {s s' : Scheduler} {rest work : List Work} {e : ExtentId} {v : Eviction}
    {skip : Option ExtentId} {mine : Option Nat}

theorem describe_ok {c : Catalog} {view : ExtentView} (h : c.describe e = .ok view) :
    ∃ r, c.extents.find? e = some r ∧ view = r.view := by
  unfold Catalog.describe at h
  cases hr : c.extents.find? e with
  | none => simp [hr] at h
  | some r => exact ⟨r, rfl, by simpa [hr] using h.symm⟩

/-! ## Parked backing -/

theorem endResting_sat {place : PageSource} {p : EvictPhase} (evicted : Bool)
    (h : Good x s work skip mine) (hv : s.evictions.find? e = some v) (hfree : grip work e = .free)
    (hop : v.operation = none) (hslot : v.slot = none) (hclosed : v.releaseOpen = false)
    (hwait : v.waiters = [])
    (hqueues : e ∉ s.queued ∧ e ∉ s.slotWaiters ∧ e ∉ s.blocked ∧ e ∉ s.releaseQueue)
    (hev : Evicting s e v place p) (hwb : v.writeBack = true → place.writeBack = true)
    (hidle : p.operation = none) (hdone : evicted = true → p.done = true)
    (hkept : evicted = false → p.untouched = true) :
    Sat Catalog.Own (fun y => y.2 = [] ∧ Good x y.1 work skip mine ∧ ∃ r r', EvictionEnds s y.1 e v
        place p r r' (if evicted then .evicted e r.writingBack else .abandoned e))
      (s.endEviction e evicted) := by
  obtain ⟨r, hr, hwrit⟩ := hev.ticket
  unfold endEviction
  simp only [hv, require, check, hwait, hslot, ok_bind, isNone_none, if_true, wakeAll,
    List.foldlM_nil]
  refine Sat.bind (settleEviction_sat evicted hr h.reach hidle hdone hkept) ?_
  rintro ⟨u, c⟩ ⟨hreach, r', hedit, hend⟩
  have hrun : ∀ s : Scheduler, (pure s : Checked Scheduler) >>= (fun s => pure (s.releaseDone v)) =
      .ok (s, []) := by
    intro s
    simp [releaseDone, hclosed, pure, Except.pure]
  simp only [hrun, Sat.ok_iff, true_and]
  refine ⟨?_, r, r', .mk rfl rfl rfl rfl, rfl, hv, rfl, rfl, hev, hwb, hr, hwrit, hedit, hend,
    by rw [hwrit]⟩
  refine h.settle hfree ?_ ?_ hqueues ?_ rfl rfl ⟨rfl, rfl, rfl, rfl⟩ hev.load
    (OrdMap.find?_erase_self ..) ?_ hreach (h.mailboxes.cons (by cases evicted <;> simp))
  · -- No operation is its own: it has none.
    intro id op hstageOp heq
    obtain ⟨-, how⟩ := h.owned id op hstageOp
    unfold Owned at how
    rw [heq] at how
    split at how
    · obtain ⟨l, hl, -⟩ := how
      cases hev.load.symm.trans hl
    obtain ⟨v', hv', hid⟩ := how
    cases hv.symm.trans hv'
    cases hop.symm.trans hid
  · rintro i (⟨l, hl, -⟩ | ⟨v', hv', hi⟩)
    · cases hev.load.symm.trans hl
    cases hv.symm.trans hv'
    cases hslot.symm.trans hi
  · intro e' _ hne
    exact .of (find_edit hedit hne) rfl (OrdMap.find?_erase_ne hne) rfl
      (phase_cons_other (by cases evicted <;> rfl) hne)
  rw [hwrit] at hend
  exact hend.settled hev.phase (hev.writeBack.trans hwrit.symm) rfl (find_edit_self hedit hr.found)

theorem endParked_sat (h : Good x s work skip mine) (hskip : skip ≠ some e)
    (hv : s.evictions.find? e = some v) (hstage : v.stage = .parked) :
    Sat Catalog.Own (fun y => y.2 = [] ∧ Good x y.1 work skip mine ∧
      ∃ place p r r', Handed s y.1 e v place p r r') (s.endParked e) := by
  obtain ⟨hfree, hop, hqueues⟩ := h.parkedRests hskip hv hstage
  have hok := h.eviction e v hskip hv
  rw [hfree] at hok
  obtain ⟨place, p, hev, hflags, hstands, hope⟩ := hok.evicting
  obtain ⟨hhand, hwb, hopen, hback, hslot, -, hwait, -⟩ :
      (v.handoff = true → place.backing.isSome = true) ∧
      (v.writeBack = true → place.writeBack = true) ∧
      (v.releaseOpen = true → v.stage = .releasing) ∧ place.backing.isSome = true ∧
      v.slot = none ∧ v.handoff = true ∧ v.waiters = [] ∧ v.operation = none := by
    simpa [Eviction.flags, hstage] using hflags
  have hkept : p.progress = .kept := by simpa [Eviction.stands, hstage] using hstands
  have hidle : p.operation = none := by simpa [Eviction.operates, hop] using hope
  have hdone : p.done = true := by
    simp [EvictPhase.done, EvictPhase.managed, hev.placed, hback, EvictPhase.untouched, hkept]
  have hclosed : v.releaseOpen = false := by
    cases hro : v.releaseOpen with
    | false => rfl
    | true => cases (hopen hro).symm.trans hstage
  unfold endParked
  simp only [hv, require, check, hstage, hwait, ok_bind, decide_true, List.isEmpty_nil,
    Bool.and_self, if_true]
  have hcount : Good x { s with parkedCount := s.parkedCount - 1 } work skip mine := h.other rfl
  refine Sat.imp (endResting_sat true hcount hv hfree hop hslot hclosed hwait hqueues
    ⟨hev.load, hev.ticket, hev.source, hev.phase, hev.placed, hev.writeBack, hev.handoff⟩ hwb hidle
    (fun _ => hdone) (by simp)) ?_
  rintro ⟨s1, ended⟩ ⟨hended, hgood, r, r', hends⟩
  refine ⟨hended, hgood, place, p, r, r', ⟨⟨hends.still.1, hends.still.2, hends.still.3,
    hends.still.4, hends.still.5⟩, hends.work, hends.found, hends.evictions, hends.loads, hev, hwb,
    hends.ticket, hends.writing, hends.edit, hends.ending, hends.log⟩, hstage, hwait, hkept⟩

/-- An eviction that can give its kept backing for a load at `place`, of an extent charged in
    `domain`. -/
structure Donates (s : Scheduler) (place : BackingPlace) (domain : DomainId) (e : ExtentId)
    (v : Eviction) (source : PageSource) (given : BackingPlace) (view : ExtentView) : Prop where
  found : s.evictions.find? e = some v
  stage : v.stage = .parked
  registered : s.sources.find? e = some source
  backing : source.backing = some given
  fits : given.key = place.key
  described : s.catalog.describe e = .ok view
  charge : view.descriptor.size = place.size
  domain : view.descriptor.domain = domain

theorem scanDonors_spec (place : BackingPlace) (domain : DomainId) (queue : List ExtentId)
    (h : (s.scanDonors place domain queue).1 = some e) :
    ∃ v source given view, Donates s place domain e v source given view := by
  induction queue with
  | nil => simp [scanDonors] at h
  | cons e' queue ih =>
    unfold scanDonors at h
    split at h
    next v source view hv hsource hview =>
      by_cases hfits : v.stage ≠ .parked ∨ (!source.backing.any fun b =>
        b.allocationClass = place.allocationClass && b.size = place.size) ∨
          view.descriptor.size ≠ place.size
      · simp only [if_pos hfits] at h
        exact ih h
      simp only [if_neg hfits] at h
      simp only [not_or, not_not, Bool.not_eq_true', Bool.not_eq_false] at hfits
      obtain ⟨hstage, hback, hcharge⟩ := hfits
      by_cases hdom : view.descriptor.domain = domain
      · simp only [if_pos hdom, some.injEq] at h
        subst h
        rcases hgiven : source.backing with _ | given
        · simp [hgiven] at hback
        simp only [hgiven, any_some, Bool.and_eq_true, decide_eq_true_eq] at hback
        refine ⟨v, source, given, view, hv, hstage, hsource, hgiven, ?_, hview, hcharge, hdom⟩
        simp [BackingPlace.key, hback.1, hback.2]
      simp only [if_neg hdom] at h
      exact ih h
    · exact ih h

theorem donor_spec (s : Scheduler) (place : BackingPlace) (domain : DomainId) :
    (s.donor place domain).2 = { s with parked := (s.donor place domain).2.parked } ∧
      ∀ e, (s.donor place domain).1 = some e →
        ∃ v source given view, Donates s place domain e v source given view := by
  unfold donor
  cases s.parked.find? place.key with
  | none => exact ⟨rfl, fun e he => absurd he (by simp)⟩
  | some queue => exact ⟨rfl, fun e he => scanDonors_spec place domain queue he⟩

/-! ## Page-ins -/

/-- A function that answers its caller: nothing it does is out of place, and it leaves `Good`. -/
def Answers {α : Type} (x : Config) (s : Scheduler) (rest : List Work) :
    Checked (α × Scheduler × List Work) → Prop :=
  Sat (Ends x s []) fun y => Good x y.2.1 (y.2.2 ++ rest) none none ∧ Moves x s [] y.2.1 []

theorem Answers.same {α : Type} {a : α} (h : Good x s rest none none) :
    Answers x s rest (.ok (a, s, [])) := ⟨h, .refl⟩

theorem Good.atRest {r : ExtentRecord}
    (h : Good x s work none mine) (hr : s.catalog.extents.find? e = some r)
    (hstate : r.view.state = .nonresident ∨ r.view.state = .resident) :
    s.loads.find? e = none ∧ s.evictions.find? e = none ∧ phase e s.log = .idle := by
  have hl : s.loads.find? e = none := by
    rcases hl : s.loads.find? e with _ | l
    · rfl
    obtain ⟨p, hp, -⟩ := (h.load e l (by simp) hl).loading
    obtain ⟨r', hr'⟩ := hp.ticket
    cases hr.symm.trans hr'.found
    rcases hstate with hs | hs <;> cases hs.symm.trans hr'.state
  have hv : s.evictions.find? e = none := by
    rcases hv : s.evictions.find? e with _ | v
    · rfl
    obtain ⟨place, p, hp, -⟩ := (h.eviction e v (by simp) hv).evicting
    obtain ⟨r', hr', -⟩ := hp.ticket
    cases hr.symm.trans hr'.found
    rcases hstate with hs | hs <;> cases hs.symm.trans hr'.state
  refine ⟨hl, hv, ?_⟩
  rcases h.settled e (by simp) hl hv with ⟨hidle, -⟩ | ⟨-, r', hr', hlost⟩
  · exact hidle
  cases hr.symm.trans hr'
  rcases hstate with hs | hs <;> cases hs.symm.trans hlost

section Begun

variable {r : ExtentRecord} {ticket : Ticket} {source : PageSource} {reuse : Bool} {c : Catalog}

theorem Good.begun (h : Good x s rest none none) (source : PageSource) (reuse : Bool)
    (hq : quiet rest)
    (hr : s.catalog.extents.find? e = some r) (hstate : r.view.state = .nonresident)
    (hedit : Catalog.Edit s.catalog e r.loading c) (hreach : Catalog.Reachable c) :
    Good x { s with catalog := c, log := .begun e source r.view.preserved reuse :: s.log } rest
      (some e) none := by
  obtain ⟨hl, hv, -⟩ := h.atRest hr (.inl hstate)
  refine h.takeAbsent hq hl hv (fun e' hne => ?_) (fun _ => rfl) rfl ⟨rfl, rfl, rfl, rfl⟩ hreach
    (h.mailboxes.cons (by simp))
  exact .of (find_edit hedit hne) rfl rfl rfl
    (phase_cons_other rfl hne)

theorem Good.loadBegins {budget : Nat} (h : Good x s rest none none) (reuse : Bool)
    (hr : s.catalog.extents.find? e = some r) (hstate : r.view.state = .nonresident)
    (hsource : s.sources.find? e = some source)
    (hcharge : Catalog.bytesOf s.catalog r.view.descriptor.domain Catalog.occupies +
      r.view.descriptor.size.value ≤ budget) (hedit : Catalog.Edit s.catalog e r.loading c)
    (hticket : Catalog.Loads c e ticket r.loading) :
    LoadBegins s { s with catalog := c, log := .begun e source r.view.preserved reuse :: s.log } e
      { ticket, source, reuse } r budget := by
  obtain ⟨hl, hv, hidle⟩ := h.atRest hr (.inl hstate)
  exact ⟨.mk rfl rfl rfl rfl, rfl, rfl, rfl, hl, hv, hidle, hsource, rfl, hr, hstate, hcharge,
    hedit, hticket, rfl⟩

theorem joined_answers {asker : TaskRecord} {p : LoadPhase} {s1 : Scheduler}
    (hgood : Good x s1 rest (some e) none) (hv : s1.evictions.find? e = none)
    (hticket : Catalog.Loads s1.catalog e ticket r) (hphase : phase e s1.log = .loading p)
    (hp : p = { source, preserved := p.preserved, reuse }) (hread : source.read.kind = .read)
    (hreuse : reuse = true → source.backing.isSome = true)
    (hm : Moves x s [] (s1.join e { ticket, source, reuse } asker) []) :
    Answers x s rest (α := Except WorkError Unit)
      (if source.landed ∧ (s1.join e { ticket, source, reuse } asker).started ≥
          2 * (s1.join e { ticket, source, reuse } asker).slots.length then
        pure (.ok (), { s1.join e { ticket, source, reuse } asker with
          queued := (s1.join e { ticket, source, reuse } asker).queued ++ [e] }, [])
      else pure (.ok (), s1.join e { ticket, source, reuse } asker, [] ++ [.proceed e])) := by
  set load : Load := { ticket, source, reuse } with hload
  set l : Load := { load with waiters := load.waiters ++ [asker.id] } with hl
  have hgood' : Good x (s1.join e load asker) rest (some e) none := (hgood.setLoad l).other rfl
  have hfound : (s1.join e load asker).loads.find? e = some l := OrdMap.find?_insert_self ..
  have hloading : Loading (s1.join e load asker) e l p := ⟨hv, ⟨r, hticket⟩, hphase, by rw [hp]⟩
  have hflags : l.flags := ⟨hread, rfl, rfl, hreuse⟩
  have hfresh : p.progress = .fresh := by rw [hp]
  have hidle : p.operation = none := by rw [hp]
  split
  · have hput : Good x (s1.join e load asker) ([] ++ rest) none none :=
      hgood'.putLoad (g := .free) hfound rfl hloading hidle (by rw [hp]) (by rw [hp]) hflags hfresh
        .rest (.inl ⟨rfl, rfl⟩)
    refine ⟨?_, hm.trans requeue_moves⟩
    refine hput.requeue (hput.queued.append (hgood'.queued.not_mem) (by simp) ?_ ⟨l, hfound, rfl⟩)
      hput.slotWaiters hput.blocked hput.release
    exact grip_of_not_mem fun he => (hgood.gripped e he).1 rfl
  exact ⟨hgood'.putLoad (g := .proceed) hfound rfl hloading hidle (by rw [hp]) (by rw [hp]) hflags
    ⟨.inl rfl, hfresh⟩ (.held rfl) (.inl ⟨rfl, rfl⟩), hm⟩

end Begun

theorem beginLoad_begins (hreach : Catalog.Reachable s.catalog) (e : ExtentId) (budget : Bytes) :
    Sat Catalog.Own (fun y => Catalog.Reachable y.2 ∧ ((∃ error, y.1 = .error error) ∨
      ∃ r ticket, y.1 = .ok ticket ∧ s.catalog.extents.find? e = some r ∧
        r.view.state = .nonresident ∧
        Catalog.bytesOf s.catalog r.view.descriptor.domain Catalog.occupies +
          r.view.descriptor.size.value ≤ budget.value ∧
        Catalog.Edit s.catalog e r.loading y.2 ∧ Catalog.Loads y.2 e ticket r.loading))
      (s.catalog.beginLoad e budget) := by
  refine (call_sat hreach (.beginLoad e budget) rfl (Catalog.beginLoad_sat e budget)).imp ?_
  rintro y ⟨⟨error, herror, -⟩ | ⟨r, ticket, total, hok, hr, hstate, htotal, hle, hedit, hloads⟩, hc⟩
  · exact ⟨hc, .inl ⟨error, herror⟩⟩
  obtain ⟨total', htotal', hvalue⟩ := hreach.ledger.total r.view.descriptor.domain
  cases htotal.symm.trans htotal'
  exact ⟨hc, .inr ⟨r, ticket, hok, hr, hstate, hvalue ▸ hle, hedit, hloads⟩⟩

section BeginPageIn

variable {asker : TaskRecord} {source : PageSource}

/-- What `BeginPageIn` finds to take: the donor, and the state with the stale entries dropped. -/
def giver (s : Scheduler) (e : ExtentId) (source : PageSource) : Option ExtentId × Scheduler :=
  match source.backing, s.catalog.describe e with
  | some place, .ok view =>
    if view.descriptor.size = place.size then s.donor place view.descriptor.domain else (none, s)
  | _, _ => (none, s)

theorem giver_spec (s : Scheduler) (e : ExtentId) (source : PageSource) :
    (giver s e source).2 = { s with parked := (giver s e source).2.parked } ∧
      ∀ e', (giver s e source).1 = some e' → ∃ place r, source.backing = some place ∧
        s.catalog.extents.find? e = some r ∧ r.view.descriptor.size = place.size ∧
        ∃ v place' given view, Donates s place r.view.descriptor.domain e' v place' given view := by
  unfold giver
  split
  next place view hplace hview =>
    split
    next hsize =>
      obtain ⟨hpar, hdonor⟩ := donor_spec s place view.descriptor.domain
      refine ⟨hpar, fun e' he' => ?_⟩
      obtain ⟨r, hr, rfl⟩ := describe_ok hview
      exact ⟨place, r, hplace, hr, hsize, hdonor e' he'⟩
    · exact ⟨rfl, fun e' he' => absurd he' (by simp)⟩
  · exact ⟨rfl, fun e' he' => absurd he' (by simp)⟩

/-- The budget `BeginPageIn` gives: with a donor, its backing's size more. -/
def givenBudget (x : Config) (giver : Option ExtentId) (source : PageSource) : Bytes :=
  match giver, source.backing with
  | some _, some place => (x.settings.budget.plus place.size).getD x.settings.budget
  | _, _ => x.settings.budget

theorem beginPageIn_eq : beginPageIn x s asker e source false = do
    match ← (giver s e source).2.catalog.beginLoad e
        (givenBudget x (giver s e source).1 source) with
    | (.error error, _) => return (.error (errorOf error), (giver s e source).2, [])
    | (.ok ticket, catalog) =>
      let preserved := match s.catalog.describe e with
        | .ok view => view.preserved
        | .error _ => false
      let reuse := (giver s e source).1.isSome
      let s1 := { (giver s e source).2 with
        catalog, log := .begun e source preserved reuse :: (giver s e source).2.log }
      let (s1, ended) ← match (giver s e source).1 with
        | some e' => s1.endParked e'
        | none => pure (s1, [])
      let s1 := s1.join e { ticket, source, reuse } asker
      if source.landed ∧ s1.started ≥ 2 * s1.slots.length then
        return (.ok (), { s1 with queued := s1.queued ++ [e] }, ended)
      else return (.ok (), s1, ended ++ [.proceed e]) := by
  unfold beginPageIn giver givenBudget
  rcases source.backing with _ | _
  · rfl
  cases s.catalog.describe e with
  | error => rfl
  | ok =>
    simp only
    split <;> rfl

theorem parked_moves {parked : OrdMap BackingKey (List ExtentId)} :
    Moves x s [] { s with parked } [] :=
  .idle rfl

theorem beginPageIn_answers (h : Good x s rest none none) (hq : quiet rest) (asked : Asks s asker)
    (hsource : s.sources.find? e = some source) (hread : source.read.kind = .read) :
    Answers x s rest (beginPageIn x s asker e source false) := by
  rw [beginPageIn_eq]
  obtain ⟨hpar, hgiver⟩ := giver_spec s e source
  generalize giver s e source = y at *
  obtain ⟨g, s0⟩ := y
  obtain ⟨parked, rfl⟩ : ∃ parked, s0 = { s with parked } := ⟨_, hpar⟩
  have h0 : Good x { s with parked } rest none none := h.other rfl
  refine Sat.bind (owned (beginLoad_begins (s := { s with parked }) h.reach e _)) ?_
  rintro ⟨answer, c⟩ ⟨hreach, ⟨error, hans⟩ | ⟨r, ticket, hans, hr, hstate, hle, hedit, hloads⟩⟩
  · obtain rfl : answer = .error error := hans
    exact ⟨h0, parked_moves⟩
  obtain rfl : answer = .ok ticket := hans
  have hview : s.catalog.describe e = .ok r.view := by
    unfold Catalog.describe
    rw [show s.catalog.extents.find? e = some r from hr]
  simp only [hview]
  have hbegun := h0.begun source g.isSome hq hr hstate hedit hreach
  have hrest := h0.atRest hr (.inl hstate)
  cases g with
  | none =>
    have hbeg := h0.loadBegins false hr hstate hsource hle hedit hloads
    refine joined_answers (p := { source, preserved := r.view.preserved, reuse := false }) hbegun
      hrest.2.1 hloads ?_ rfl hread (by simp)
      (parked_moves.trans (Move.load hbeg rfl asked).moves)
    rw [phase_cons _ rfl, hrest.2.2]
    rfl
  | some e' =>
    obtain ⟨place, r', hplace, hr', hsize, v, place', given, view, hd⟩ := hgiver e' rfl
    cases hr.symm.trans hr'
    have hne : e' ≠ e := by
      rintro rfl
      cases hrest.2.1.symm.trans hd.found
    have hbud : (givenBudget x (some e') source).value ≤
        x.settings.budget.value + r.view.descriptor.size.value := by
      unfold givenBudget
      simp only [hplace]
      cases hplus : x.settings.budget.plus place.size with
      | none => simp
      | some => simp [Bytes.plus_eq_some.mp hplus, hsize]
    have hbeg := h0.loadBegins true hr hstate hsource (hle.trans hbud) hedit hloads
    refine Sat.bind (owned (endParked_sat hbegun (by simpa using fun heq => hne heq.symm)
      hd.found hd.stage)) ?_
    rintro ⟨s2, ended⟩ ⟨hended, hgood2, place2, p2, r1, r2, hhan⟩
    obtain rfl : ended = [] := hended
    have hv2 : s2.evictions.find? e = none := by
      rw [hhan.ends.evictions]
      exact (OrdMap.find?_erase_ne hne.symm).trans hrest.2.1
    have hloads2 : Catalog.Loads s2.catalog e ticket r.loading := by
      refine ⟨?_, hloads.state, hloads.operation, hloads.ticket⟩
      rw [find_edit hhan.ends.edit hne.symm]
      exact hloads.found
    have hphase2 : phase e s2.log =
        .loading { source, preserved := r.view.preserved, reuse := true } := by
      rw [hhan.ends.log]
      refine (phase_cons_of_ne _ (by simpa [Event.about] using hne)).trans ?_
      rw [phase_cons _ rfl, hrest.2.2]
      rfl
    have hplaces : place2 = place' := some.inj (hhan.ends.evicting.source.symm.trans hd.registered)
    have hview2 : r1.view = view := by
      have hfound : s.catalog.extents.find? e' = some r1 :=
        (find_edit hedit hne).symm.trans hhan.ends.ticket.found
      have hdes := hd.described
      simp only [Catalog.describe, hfound, Except.ok.injEq] at hdes
      exact hdes
    exact joined_answers (p := { source, preserved := r.view.preserved, reuse := true }) hgood2
      hv2 hloads2 hphase2 rfl hread (fun _ => by rw [hplace]; rfl)
      (parked_moves.trans (Move.loadFrom hne hbeg rfl hhan hplace (hplaces ▸ hd.backing)
        hd.fits (hview2 ▸ hd.charge) hsize (hview2 ▸ hd.domain) asked).moves)

variable {r : ExtentRecord}

theorem beginLoad_ok {c : Catalog} {budget : Bytes} (hl : Catalog.Ledger c)
    (hr : c.extents.find? e = some r) (hstate : r.view.state = .nonresident)
    (hle : Catalog.bytesOf c r.view.descriptor.domain Catalog.occupies +
      r.view.descriptor.size.value ≤ budget.value) (error : CatalogError) (c' : Catalog) :
    c.beginLoad e budget ≠ .ok (.error error, c') := by
  obtain ⟨total, htotal, hvalue⟩ := hl.total r.view.descriptor.domain
  rw [← hvalue] at hle
  have hplus : total.plus r.view.descriptor.size =
      some ⟨total.value + r.view.descriptor.size.value, hle.trans budget.bound⟩ :=
    Bytes.plus_eq_some.mpr rfl
  have hfits : ¬ total.value + r.view.descriptor.size.value > budget.value := Nat.not_lt.mpr hle
  unfold Catalog.beginLoad
  simp only [hr, hstate, ne_eq, not_true_eq_false, if_false, htotal, ok_bind, hplus, hfits]
  intro hrun
  obtain ⟨⟨ticket, record⟩, -, hrun⟩ := bind_ok hrun
  obtain ⟨c1, -, hrun⟩ := bind_ok hrun
  simp [Catalog.accept] at hrun

variable {v : Eviction}

theorem takeBack_answers (h : Good x s rest none none) (hq : quiet rest)
    (asked : Asks s asker) (hv : s.evictions.find? e = some v) (hstage : v.stage = .parked)
    (hsource : s.sources.find? e = some source) (hread : source.read.kind = .read)
    {view : ExtentView} (hview : s.catalog.describe e = .ok view) {total : Bytes}
    (htotal : (s.catalog.occupancyOf view.descriptor.domain).total = .ok total)
    (hle : total.value ≤ x.settings.budget.value) : Answers x s rest (do
      let (s, ended) ← s.endParked e
      let (begun, s, work) ← beginPageIn x s asker e source true
      return (begun.map fun _ => true, s, ended ++ work)) := by
  refine Sat.bind (owned (endParked_sat h (by simp) hv hstage)) ?_
  rintro ⟨s1, ended⟩ ⟨hended, hgood1, place, p, r, r1, hhan⟩
  obtain rfl : ended = [] := hended
  simp only at hgood1 hhan
  obtain ⟨hends, -, hwait, hkept⟩ := hhan
  -- The eviction's record, before and after.
  have hr : s.catalog.extents.find? e = some r := hends.ticket.found
  have hr1 : s1.catalog.extents.find? e = some r1 := find_edit_self hends.edit hr
  obtain ⟨hstate1, hdes⟩ : r1.view.state = .nonresident ∧
      r1.view.descriptor = r.view.descriptor := by
    generalize hevent : Event.evicted e r.writingBack = event at hends
    cases hends.ending with
    | evicted _ _ record => exact ⟨record.state, record.descriptor⟩
    | abandoned | lost => simp at hevent
  have hview' : view = r.view := by simpa [Catalog.describe, hr] using hview.symm
  have hcharge : Catalog.bytesOf s1.catalog r1.view.descriptor.domain Catalog.occupies +
      r1.view.descriptor.size.value ≤ x.settings.budget.value := by
    obtain ⟨total', htotal', hvalue⟩ := h.reach.ledger.total view.descriptor.domain
    cases htotal.symm.trans htotal'
    have hset := hends.edit.bytesOf hr r.view.descriptor.domain Catalog.occupies
    have hweight : Catalog.weight r.view.descriptor.domain Catalog.occupies r =
        r.view.descriptor.size.value := by
      simp [Catalog.weight, Catalog.occupies, hends.ticket.state]
    have hweight1 : Catalog.weight r.view.descriptor.domain Catalog.occupies r1 = 0 := by
      simp [Catalog.weight, Catalog.occupies, hstate1]
    rw [hdes]
    rw [hview'] at hvalue
    omega
  refine Sat.bind (P := fun y : Except WorkError Unit × Scheduler × List Work =>
    Good x y.2.1 (y.2.2 ++ rest) none none ∧ Moves x s [] y.2.1 []) ?_ fun y hy => hy
  refine Sat.bind (owned ((beginLoad_begins hgood1.reach e x.settings.budget).self)) ?_
  rintro ⟨answer, c⟩ ⟨⟨hreach, ⟨error, hans⟩ | ⟨r2, ticket, hans, hr2, -, -, hedit, hloads⟩⟩, hrun⟩
  · obtain rfl : answer = .error error := hans
    exact absurd hrun (beginLoad_ok hgood1.reach.ledger hr1 hstate1 hcharge error c)
  obtain rfl : answer = .ok ticket := hans
  cases hr1.symm.trans hr2
  have hview1 : s1.catalog.describe e = .ok r1.view := by
    unfold Catalog.describe
    rw [hr1]
  have hsource1 : s1.sources.find? e = some source := by
    rw [hends.still.sources]
    exact hsource
  have hback : source.backing.isSome = true := by
    obtain ⟨place', p', hev, hflags, -⟩ := (h.eviction e v (by simp) hv).evicting
    cases hsource.symm.trans hev.source
    simp only [Eviction.flags, hstage] at hflags
    exact hflags.2.2.2.1
  have hbeg := hgood1.loadBegins true hr1 hstate1 hsource1 hcharge hedit hloads
  have hrest := hgood1.atRest hr1 (.inl hstate1)
  simp only [hview1]
  refine joined_answers (p := { source, preserved := r1.view.preserved, reuse := true })
    (hgood1.begun _ _ hq hr1 hstate1 hedit hreach) hrest.2.1 hloads ?_ rfl hread (fun _ => hback)
    (Move.loadOwn ⟨hends, hstage, hwait, hkept⟩ hbeg rfl asked).moves
  rw [phase_cons _ rfl, hrest.2.2]
  rfl

theorem rel_refl {α : Type} {R : α → α → Prop} {o : Option α} (h : ∀ a, o = some a → R a a) :
    Option.Rel R o o := by
  cases o with
  | none => exact .none
  | some a => exact .some (h a rfl)

theorem rel_insert {V : Type} {m : OrdMap ExtentId V} {R : V → V → Prop} {a a' : V}
    (ha : m.find? e = some a) (hR : R a a') (hrefl : ∀ e' b, m.find? e' = some b → R b b)
    (e' : ExtentId) : Option.Rel R (m.find? e') ((m.insert e a').find? e') := by
  rw [OrdMap.find?_insert]
  split
  next heq =>
    rw [heq, ha]
    exact .some hR
  · exact rel_refl fun b hb => hrefl e' b hb

section

variable (h : Good x s rest none none)
include h

theorem Good.alike (hv : s.evictions.find? e = some v) : v.Alike v := by
  refine ⟨rfl, fun hstage => ?_⟩
  obtain ⟨place, p, -, hflags, -⟩ := (h.eviction e v (by simp) hv).evicting
  simp only [Eviction.flags, hstage] at hflags
  exact hflags.2.2.2.2.2.2.1

theorem Good.join {l : Load} (hl : s.loads.find? e = some l)
    (asker : TaskRecord) : Good x (s.join e l asker) rest none none := by
  have hwaited : Rewaited s (s.setLoad e { l with waiters := l.waiters ++ [asker.id] }) :=
    ⟨rfl, rel_insert hl rfl fun _ _ _ => rfl, fun e' => rel_refl fun v hv => h.alike hv⟩
  exact (h.rewaited hwaited).other rfl

theorem Good.joinEviction
    (hv : s.evictions.find? e = some v) (hstage : v.stage ≠ .parked) (asker : TaskRecord) :
    Good x ((s.setEviction e { v with waiters := v.waiters ++ [asker.id] }).addWaiting asker) rest
      none none := by
  have hwaited : Rewaited s (s.setEviction e { v with waiters := v.waiters ++ [asker.id] }) :=
    ⟨rfl, fun e' => rel_refl fun _ _ => rfl, rel_insert hv ⟨rfl, fun hs => absurd hs hstage⟩
      fun e' b hb => h.alike hb⟩
  exact (h.rewaited hwaited).other rfl

theorem Good.isLoading
    (hr : s.catalog.extents.find? e = some r) (hstate : r.view.state = .loading) :
    ∃ l, s.loads.find? e = some l := by
  cases hl : s.loads.find? e with
  | some l => exact ⟨l, rfl⟩
  | none =>
    cases hv : s.evictions.find? e with
    | some v =>
      obtain ⟨place, p, hev, -⟩ := (h.eviction e v (by simp) hv).evicting
      obtain ⟨r', hr', -⟩ := hev.ticket
      cases hr.symm.trans hr'.found
      cases hstate.symm.trans hr'.state
    | none =>
      rcases h.settled e (by simp) hl hv with ⟨-, hnone⟩ | ⟨-, r', hr', hlost⟩
      · exact absurd hstate (hnone r hr).1
      cases hr.symm.trans hr'
      cases hstate.symm.trans hlost

end

theorem Answers.map {α β : Type} {f : α → β} {call : Checked (α × Scheduler × List Work)}
    (h : Answers x s rest call) : Answers x s rest (do
      let (a, s, work) ← call
      return (f a, s, work)) := Sat.bind h fun _ hy => hy

theorem materializeOne_answers {t : TaskId} {generation : Nat} (h : Good x s rest none none)
    (hq : quiet rest) (asked : Asks s asker) (ht : asker.id = t)
    (hread : ∀ source, s.sources.find? e = some source → source.read.kind = .read) :
    Answers x s rest (materializeOne x s t asker e generation) := by
  subst ht
  unfold materializeOne
  rcases hview : s.catalog.describe e with _ | view
  · exact .same h
  obtain ⟨r, hr, rfl⟩ := describe_ok hview
  simp only
  cases hstate : r.view.state with
  | resident =>
    simp only
    split <;> exact .same h
  | loading =>
    obtain ⟨l, hl⟩ := h.isLoading hr hstate
    simp only [hl, require, ok_bind]
    split
    · exact .same h
    rename_i hfresh
    split
    · exact .same h
    · exact ⟨h.join hl asker, (Move.joinLoad hl (by simpa using hfresh) asked).moves⟩
  | nonresident =>
    rcases hsource : s.sources.find? e with _ | source
    · exact .same h
    simp only
    split
    · exact .same h
    split
    · exact .same h
    split
    · exact .same h
    split
    · exact .same h
    exact (beginPageIn_answers h hq asked hsource (hread source hsource)).map
  | evicting =>
    rcases hv : s.evictions.find? e with _ | v
    · exact .same h
    simp only
    split
    next hstage =>
      split
      · exact .same h
      rcases hsource : s.sources.find? e with _ | source
      · exact .same h
      simp only
      split
      · exact .same h
      split
      · exact .same h
      obtain ⟨total, htotal, -⟩ := h.reach.ledger.total r.view.descriptor.domain
      simp only [htotal, ok_bind]
      split
      · exact .same h
      rename_i hle
      exact takeBack_answers h hq asked hv hstage hsource (hread source hsource) hview htotal
        (Nat.not_lt.mp hle)
    next hstage =>
      split
      · exact .same h
      rename_i hfresh
      split
      · exact .same h
      exact ⟨h.joinEviction hv hstage asker,
        (Move.joinEviction hv (by simpa using hfresh) asked).moves⟩
  | quarantined => exact .same h

end BeginPageIn

/-! ## Evictions -/

section Evict

variable {asker : TaskRecord} {place : PageSource} {r : ExtentRecord} {writeBack handoff : Bool}

/-- The eviction `Evict` records. -/
def firstEviction (asker : TaskRecord) (place : PageSource) (writeBack handoff : Bool)
    (ticket : Ticket) : Eviction :=
  { ticket, evictor := asker.id, waiters := [asker.id], writeBack
    handoff := handoff && place.backing.isSome
    stage := if writeBack && place.landed then .slot
      else if writeBack then .writing else .unmapping }

variable {ticket : Ticket}

theorem firstEviction_flags (hwb : writeBack = true → place.writeBack = true)
    (hback : writeBack = false → place.backing.isSome = true) :
    (firstEviction asker place writeBack handoff ticket).flags place := by
  refine ⟨fun hh => ?_, hwb, by simp [firstEviction], ?_⟩
  · simp only [firstEviction, Bool.and_eq_true] at hh
    exact hh.2
  cases hw : writeBack with
  | false => simp [firstEviction, hback hw]
  | true => cases hl : place.landed <;> simp [firstEviction, hl]

theorem startEviction_runs {c : Catalog}
    (h : Good x s rest none none) (hq : quiet rest) (asked : Asks s asker)
    (hsource : s.sources.find? e = some place) (hwb : writeBack = true → place.writeBack = true)
    (hback : writeBack = false → place.backing.isSome = true)
    (hr : s.catalog.extents.find? e = some r) (hstate : r.view.state = .resident)
    (hleases : r.view.leases = 0) (hedit : Catalog.Edit s.catalog e (r.evicting writeBack) c)
    (hticket : Catalog.Evicts c e ticket (r.evicting writeBack)) (hreach : Catalog.Reachable c) :
    Runs x s rest (startEviction x { s with catalog := c } asker e place writeBack handoff ticket) := by
  obtain ⟨hl, hv, hidle⟩ := h.atRest hr (.inr hstate)
  set v := firstEviction asker place writeBack handoff ticket with hfirst
  set s1 := ((setEviction { s with catalog := c } e v).addWaiting asker).emit
    (.evicting e (some place) writeBack v.handoff) with hs1
  have hgood : Good x s1 rest (some e) none := by
    refine h.takeAbsent hq hl hv (fun e' hne => ?_) (fun _ => rfl) rfl ⟨rfl, rfl, rfl, rfl⟩ hreach
      (h.mailboxes.cons (by simp))
    exact .of (find_edit hedit hne) rfl (OrdMap.find?_insert_ne hne) rfl
      (phase_cons_other rfl hne)
  have hmove : Moves x s [] s1 [] :=
    (@Move.evict x s { s with catalog := c } [] e v place r asker rfl hl hv hidle hsource
      hr hstate hleases hwb hedit hticket rfl asked).moves
  have hold : Holding x s1 rest e v place
      { place := some place, writeBack, handoff := v.handoff } := by
    refine ⟨hgood, OrdMap.find?_insert_self .., rfl, ⟨hl, ⟨_, hticket, rfl⟩, hsource, ?_, rfl, rfl,
      rfl⟩, rfl⟩
    show phase e (_ :: s.log) = _
    rw [phase_cons _ rfl, hidle]
    rfl
  have hflags : v.flags place := firstEviction_flags hwb hback
  show Runs x s rest (if v.stage = .slot then .ok (s1, [.proceedEviction e])
    else openEvictOrBlock x s1 e v)
  split
  next hslot =>
    exact ⟨hold.put (g := .proceedEviction) hflags ⟨hslot, rfl⟩ (.held rfl), hmove⟩
  rename_i hslot
  have hfresh : v.stands x .free place .fresh ∧ v.stage.opens = true ∧ v.stage ≠ .releasing := by
    rcases hw : writeBack with _ | _
    · simp [hfirst, firstEviction, Eviction.stands, EvictStage.opens, hw]
    cases hlan : place.landed with
    | false => simp [hfirst, firstEviction, Eviction.stands, EvictStage.opens, hw, hlan]
    | true => exact absurd (by simp [hfirst, firstEviction, hw, hlan]) hslot
  exact .after hmove (openEvictOrBlock_runs hold hflags hfresh.1 hfresh.2.1
    fun hs => absurd hs hfresh.2.2)

theorem openRecord_asks {t : TaskId} {r : TaskRecord} (h : s.openRecord t = some r) :
    Asks s r ∧ r.id = t ∧ ∃ view, s.tasks.describe t = some view ∧ view.cancelled = false := by
  unfold openRecord at h
  split at h
  next r' view hr hview =>
    split at h
    · simp at h
    rename_i hopen
    obtain rfl := some.inj h
    simp only [Bool.or_eq_true, not_or, Bool.not_eq_true] at hopen
    have hid : r'.id = t := by
      unfold record? at hr
      split at hr
      · split at hr
        next hid =>
          cases hr
          exact hid.2
        · simp at hr
      · simp at hr
    exact ⟨⟨hid ▸ hr, hopen.1⟩, hid, view, hview, hopen.2⟩
  · simp at h

theorem evictOnce_answers (h : Good x s rest none none)
    (hunm : (s.sources.find? e).all fun place => place.backing.isNone) :
    Answers (α := Except WorkError Readiness) x s rest (do
      match ← s.catalog.beginEvict e false with
      | (.error error, _) => return (.error (errorOf error), s, [])
      | (.ok ticket, catalog) =>
        let ((), catalog) ← expect .freshEvict (catalog.completeEvict ticket)
        return (.ok .ready,
          { s with catalog
                   log := .evicted e false :: .evicting e (s.sources.find? e) false false :: s.log },
          [])) := by
  refine Sat.bind (owned (call_sat h.reach (.beginEvict e false) rfl
    (Catalog.beginEvict_sat e false))) ?_
  rintro ⟨answer, c⟩ ⟨⟨error, hans, -⟩ | ⟨r, ticket, hans, hr, hstate, hleases, -, -, hedit,
    hticket⟩, hreach⟩
  · obtain rfl : answer = .error error := hans
    exact ⟨h, .refl⟩
  obtain rfl : answer = .ok ticket := hans
  refine Sat.bind (owned (expect_sat (a := ()) (P := fun c' => Catalog.Reachable c' ∧
    ∃ r', Catalog.Edit c e r' c' ∧ Evicted (r.evicting false) r')
    ((call_sat hreach (.completeEvict ticket) rfl (Catalog.completeEvict_sat hticket)).imp ?_))) ?_
  · rintro y ⟨⟨hok, r', hedit', hnon, hpre, hdesc, hlea, hreg, hgen⟩, hreach'⟩
    exact ⟨hok, hreach', r', hedit', hnon, hpre, hdesc, hlea, hreg, hgen⟩
  rintro ⟨u, c'⟩ ⟨-, hreach', r', hedit', hevi⟩
  obtain ⟨hl, hv, hidle⟩ := h.atRest hr (.inr hstate)
  obtain ⟨hfree, hown, hqueued, hslot, hblocked, hrel⟩ := h.absent hl hv
  refine ⟨?_, (Move.evictOnce rfl hl hv hidle hr hstate hleases hunm hedit hevi hedit').moves⟩
  refine h.settle hfree hown ?_ ⟨hqueued, hslot, hblocked, hrel⟩ ?_ rfl rfl
    ⟨rfl, rfl, rfl, rfl⟩ hl hv ?_ hreach' ((h.mailboxes.cons (by simp)).cons (by simp))
  · rintro i (⟨l, hl', -⟩ | ⟨v, hv', -⟩)
    · cases hl.symm.trans hl'
    · cases hv.symm.trans hv'
  · intro e' _ hne
    refine .of ((find_edit hedit' hne).trans (find_edit hedit hne)) rfl rfl rfl ?_
    have hab : ∀ event : Event, event.about = some e → event.about ≠ some e' := by
      rintro event habout hthis
      exact hne (some.inj (hthis.symm.trans habout))
    rw [phase_cons_of_ne _ (hab _ rfl), phase_cons_of_ne _ (hab _ rfl)]
  refine .inl ⟨?_, fun r1 hr1 => ?_⟩
  · show phase e (.evicted e false :: .evicting e (s.sources.find? e) false false :: s.log) = .idle
    rw [phase_cons _ rfl, phase_cons _ rfl, hidle]
    have hman : EvictPhase.managed
        { place := s.sources.find? e, writeBack := false, handoff := false } = false := by
      unfold EvictPhase.managed
      cases hs : s.sources.find? e with
      | none => rfl
      | some =>
        simp only [hs, all_some] at hunm
        simpa using hunm
    simp [Phase.step, EvictPhase.step, EvictPhase.done, hman]
  have hfound : c'.extents.find? e = some r' := find_edit_self hedit' (find_edit_self hedit hr)
  cases hfound.symm.trans hr1
  simp [hevi.state]

theorem evict_answers {t : TaskId} {handoff : Bool} (h : Good x s rest none none) (hq : quiet rest) :
    Answers x s rest (evict x s t e handoff) := by
  unfold evict
  rcases hopen : s.openRecord t with _ | asker
  · exact .same h
  obtain ⟨asked, rfl, -⟩ := openRecord_asks hopen
  rcases hview : s.catalog.describe e with _ | view
  · exact .same h
  simp only
  split
  next place hsource hman =>
    generalize hw : ((s.sources.find? e).any PageSource.writeBack &&
      decide (view.descriptor.recovery = .preserve) && !view.discarded) = writeBack at *
    split
    · exact .same h
    split
    · exact .same h
    split
    · exact .same h
    refine Sat.bind (owned (call_sat h.reach (.beginEvict e _) rfl
      (Catalog.beginEvict_sat e writeBack))) ?_
    rintro ⟨answer, c⟩ ⟨⟨error, hans, -⟩ | ⟨r, ticket, hans, hr, hstate, hleases, -, -,
      hedit, hticket⟩, hreach⟩
    · obtain rfl : answer = .error error := hans
      exact ⟨h, .refl⟩
    obtain rfl : answer = .ok ticket := hans
    refine Sat.bind (startEviction_runs h hq asked hsource ?_ ?_ hr hstate hleases hedit hticket
      hreach) fun y hy => hy
    · intro hwb
      rw [hwb, hsource] at hw
      simp only [any_some, Bool.and_eq_true] at hw
      exact hw.1.1
    intro hwb
    simpa [hwb, hsource] using hman
  next hunm =>
    have hall : (s.sources.find? e).all fun place => place.backing.isNone := by
      rcases hs : s.sources.find? e with _ | place
      · rfl
      by_contra hb
      refine hunm place hs ?_
      cases hplace : place.backing with
      | none => simp [hplace] at hb
      | some => simp [hs, hplace]
    exact evictOnce_answers h hall

end Evict

end Scheduler
end JitLlm
