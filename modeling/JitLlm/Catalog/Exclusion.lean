import JitLlm.Catalog.Effects
import JitLlm.Catalog.Occupancy

/-!
# Holds are counted exactly, and exclude eviction

The counts are on the extents, the sets they count in two other tables. `HoldsExact` relates the
three, and says that only a resident extent is held; every effect of `Effect` keeps it. What
excludes an eviction follows: each call that takes an extent out of `RESIDENT`, or that discards
what is in it, looks at the counts first.
-/

namespace JitLlm.Catalog

open Base Lib

variable {c c' c1 : Catalog} {g : ExtentRecord → ExtentRecord} {l : List ExtentId} {e : ExtentId}
    {op : Op} {a : Answer} {registrations : SlotTable .registration Registration}
    {id : RegistrationId}

/-- The live leases whose extents include `e`. -/
def leasesOn (c : Catalog) (e : ExtentId) : Nat :=
  c.leases.sum fun lease => if e ∈ lease.extents then 1 else 0

/-- The live registrations of `e`. -/
def registrationsOn (c : Catalog) (e : ExtentId) : Nat :=
  c.registrations.sum fun registration => if registration.extent = e then 1 else 0

structure HoldsExact (c : Catalog) : Prop where
  leases : ∀ e, c.countAt (·.view.leases) e = c.leases.sum fun lease => lease.extents.count e
  registrations : ∀ e, c.countAt (·.view.registrations) e = c.registrationsOn e
  nodup : ∀ id lease, c.leases.find? id = some lease → lease.extents.Nodup
  resident : ∀ e r, c.extents.find? e = some r → ¬ r.Unheld → r.view.state = .resident

/-! ## Counts after a loop -/

theorem Each.countAt_eq
    (h : Each c l g c') {f : ExtentRecord → Nat} (hf : ∀ r, f (g r) = f r) (e : ExtentId) :
    c'.countAt f e = c.countAt f e := by
  have hiter : ∀ n r, f (g^[n] r) = f r := by
    intro n
    induction n with
    | zero => exact fun r => rfl
    | succ n ih => exact fun r => (ih (g r)).trans (hf r)
  unfold countAt
  rw [h.find]
  cases c.extents.find? e with
  | none => rfl
  | some r => exact hiter _ r

theorem Each.keeps (h : Each c l g c') {r' : ExtentRecord} (hr' : c'.extents.find? e = some r')
    {P : ExtentRecord → ExtentRecord → Prop} (refl : ∀ r, P r r)
    (step : ∀ r r', P (g r) r' → P r r') : ∃ r, c.extents.find? e = some r ∧ P r r' := by
  have hiter : ∀ n r, P r (g^[n] r) := by
    intro n
    induction n with
    | zero => exact refl
    | succ n ih => exact fun r => step r _ (ih (g r))
  rw [h.find] at hr'
  obtain ⟨r, hr, rfl⟩ := Option.map_eq_some_iff.mp hr'
  exact ⟨r, hr, hiter _ r⟩

theorem hold_iterate (n : Nat) (r : ExtentRecord) :
    (ExtentRecord.hold^[n] r).view.leases = r.view.leases + n := by
  induction n generalizing r with
  | zero => rfl
  | succ n ih =>
    rw [Function.iterate_succ_apply, ih]
    simp only [ExtentRecord.hold]
    omega

theorem unhold_iterate (n : Nat) (r : ExtentRecord) :
    (ExtentRecord.unhold^[n] r).view.leases = r.view.leases - n := by
  induction n generalizing r with
  | zero => rfl
  | succ n ih =>
    rw [Function.iterate_succ_apply, ih]
    simp only [ExtentRecord.unhold]
    omega

/-! ## Every effect keeps the holds -/

theorem HoldsExact.of {c' : Catalog} (h : HoldsExact c)
    (hleases : ∀ e, c'.countAt (·.view.leases) e = c.countAt (·.view.leases) e)
    (hreg : ∀ e, c'.countAt (·.view.registrations) e = c.countAt (·.view.registrations) e)
    (hrest : Rest c c')
    (hres : ∀ e r, c'.extents.find? e = some r → ¬ r.Unheld → r.view.state = .resident) :
    HoldsExact c' := by
  refine ⟨fun e => ?_, fun e => ?_, fun id lease hl => ?_, hres⟩
  · rw [hleases, hrest.leases, h.leases]
  · rw [hreg, h.registrations]
    unfold registrationsOn
    rw [hrest.registrations]
  · exact h.nodup id lease (hrest.leases ▸ hl)

variable {r r' : ExtentRecord}

theorem countAt_edit (hr : c.extents.find? e = some r)
    (h : Edit c e r' c') (f : ExtentRecord → Nat) (e' : ExtentId) :
    c'.countAt f e' = if e' = e then f r' else c.countAt f e' := by
  unfold countAt
  rw [h.find hr]
  split <;> rfl

theorem Alters.holds (h : Alters c op a e r r') : r'.view.leases = r.view.leases ∧
      r'.view.registrations = r.view.registrations ∧
      (r.Unheld ∨ r.view.state ≠ .resident ∨ r'.view.state = .resident) := by
  cases h with
  | releasePinned _ _ hunh | invalidateContents _ _ hunh | beginEvict _ _ hunh =>
    exact ⟨rfl, rfl, .inl hunh⟩
  | beginLoad _ hstate => exact ⟨rfl, rfl, .inr (.inl (by simp [hstate]))⟩
  | completeLoad | cancelEvict => exact ⟨rfl, rfl, .inr (.inr rfl)⟩
  | failLoad hloads | quarantineLoad hloads =>
    exact ⟨rfl, rfl, .inr (.inl (by simp [hloads.state]))⟩
  | replaceContents hstate => exact ⟨rfl, rfl, .inr (.inr hstate)⟩
  | completeEvict hevi | quarantineEviction hevi =>
    exact ⟨rfl, rfl, .inr (.inl (by simp [hevi.state]))⟩

variable {r : ExtentRecord}

section

variable (h : HoldsExact c)
include h

theorem HoldsExact.addExtent {id : ExtentId}
    (hfresh : c.extents.find? id = none) (hunh : r.Unheld) (hrest : Rest c c')
    (hfind : ∀ e, c'.extents.find? e = if e = id then some r else c.extents.find? e) :
    HoldsExact c' := by
  have hcount : ∀ f : ExtentRecord → Nat, f r = 0 → ∀ e, c'.countAt f e = c.countAt f e := by
    intro f hf e
    unfold countAt
    rw [hfind]
    split
    next he =>
      rw [he, hfresh]
      exact hf
    · rfl
  refine h.of (hcount _ hunh.1) (hcount _ hunh.2) hrest fun e r1 hr1 hheld => ?_
  rw [hfind] at hr1
  split at hr1
  · cases hr1
    exact absurd hunh hheld
  · exact h.resident e r1 hr1 hheld

theorem HoldsExact.removeExtent
    (hr : c.extents.find? e = some r) (hstate : r.view.state = .nonresident)
    (hextents : c'.extents = c.extents.erase e) (hrest : Rest c c') : HoldsExact c' := by
  have hunh : r.Unheld := by
    by_contra hheld
    exact absurd (h.resident e r hr hheld) (by simp [hstate])
  have hcount : ∀ f : ExtentRecord → Nat, f r = 0 → ∀ e', c'.countAt f e' = c.countAt f e' := by
    intro f hf e'
    unfold countAt
    rw [hextents, SlotTable.find?_erase]
    split
    next he =>
      rw [he, hr]
      exact hf.symm
    · rfl
  refine h.of (hcount _ hunh.1) (hcount _ hunh.2) hrest fun e' r' hr' hheld => ?_
  rw [hextents, SlotTable.find?_erase] at hr'
  split at hr'
  · cases hr'
  · exact h.resident e' r' hr' hheld

theorem HoldsExact.alter (hr : c.extents.find? e = some r) (halt : Alters c op a e r r')
    (hedit : Edit c e r' c') : HoldsExact c' := by
  obtain ⟨hleases, hreg, hstate⟩ := halt.holds
  have hcount : ∀ f : ExtentRecord → Nat, f r' = f r → ∀ e', c'.countAt f e' = c.countAt f e' := by
    intro f hf e'
    rw [countAt_edit hr hedit]
    split
    next he =>
      rw [he, hf, countAt, hr]
      rfl
    · rfl
  refine h.of (hcount _ hleases) (hcount _ hreg) hedit.rest fun e' r1 hr1 hheld => ?_
  rw [hedit.find hr] at hr1
  split at hr1
  · cases hr1
    have hheld' : ¬ r.Unheld := fun hu => hheld ⟨hleases.trans hu.1, hreg.trans hu.2⟩
    rcases hstate with hu | hne | hres
    · exact absurd hu hheld'
    · exact absurd (h.resident e r hr hheld') hne
    · exact hres
  · exact h.resident e' r1 hr1 hheld

theorem HoldsExact.each (heach : Each c l g c') (hg : ∀ r, (g r).view.leases = r.view.leases ∧
      (g r).view.registrations = r.view.registrations ∧ (g r).view.state = r.view.state) :
    HoldsExact c' := by
  refine h.of (heach.countAt_eq fun r => (hg r).1) (heach.countAt_eq fun r => (hg r).2.1)
    heach.rest fun e r' hr' hheld => ?_
  obtain ⟨r, hr, hl, hn, hs⟩ := heach.keeps hr'
    (P := fun r r' => r'.view.leases = r.view.leases ∧
      r'.view.registrations = r.view.registrations ∧ r'.view.state = r.view.state)
    (fun r => ⟨rfl, rfl, rfl⟩)
    fun r r' hp => ⟨hp.1.trans (hg r).1, hp.2.1.trans (hg r).2.1, hp.2.2.trans (hg r).2.2⟩
  exact hs.trans (h.resident e r hr fun hu => hheld ⟨hl.trans hu.1, hn.trans hu.2⟩)

theorem HoldsExact.congr (hextents : c'.extents = c.extents)
    (hleases : c'.leases = c.leases) (hreg : c'.registrations = c.registrations) :
    HoldsExact c' := by
  refine ⟨fun e => ?_, fun e => ?_, fun id lease hl => h.nodup id lease (hleases ▸ hl),
    fun e r hr => h.resident e r (hextents ▸ hr)⟩
  · rw [hleases, ← h.leases e]
    unfold countAt
    rw [hextents]
  unfold registrationsOn countAt
  rw [hreg, hextents]
  exact h.registrations e

theorem HoldsExact.acquireLease {extents : List ExtentId} {id : LeaseId}
    {leases : SlotTable .lease Lease} (hnodup : extents.Nodup)
    (hres : ∀ e ∈ extents, ∃ r, c.extents.find? e = some r ∧ r.view.state = .resident)
    (hins : c.leases.insert { extents } = some (id, leases))
    (heach : Each { c with leases } extents ExtentRecord.hold c') : HoldsExact c' := by
  refine ⟨fun e => ?_, fun e => ?_, fun id' lease hl => ?_, fun e r' hr' hheld => ?_⟩
  · rw [heach.rest.leases, SlotTable.sum_insert _ hins, ← h.leases e]
    unfold countAt
    rw [heach.find]
    cases hr : c.extents.find? e with
    | none =>
      have hcount : extents.count e = 0 := List.count_eq_zero.mpr fun hmem => by
        obtain ⟨r, hr', -⟩ := hres e hmem
        cases hr.symm.trans hr'
      simp [hcount]
    | some r => exact hold_iterate _ r
  · rw [heach.countAt_eq fun r => rfl]
    unfold registrationsOn
    rw [heach.rest.registrations]
    exact h.registrations e
  · rw [heach.rest.leases, SlotTable.find?_insert hins] at hl
    split at hl
    · cases hl
      exact hnodup
    · exact h.nodup id' lease hl
  obtain ⟨r, hr, hn, hs⟩ := heach.keeps hr'
    (P := fun r r' => r'.view.registrations = r.view.registrations ∧
      r'.view.state = r.view.state) (fun r => ⟨rfl, rfl⟩) fun r r' hp => hp
  rw [hs]
  by_cases hmem : e ∈ extents
  · obtain ⟨r1, hr1, hstate⟩ := hres e hmem
    cases hr.symm.trans hr1
    exact hstate
  have hsame : r' = r := by
    have hfind := heach.find e
    rw [hr', hr, List.count_eq_zero.mpr hmem] at hfind
    exact Option.some.inj hfind
  exact h.resident e r hr (hsame ▸ hheld)

end

theorem HoldsExact.releaseLease (h : HoldsExact c) {id : LeaseId} {lease : Lease}
    (hfound : c.leases.find? id = some lease)
    (heach : Each c lease.extents ExtentRecord.unhold c1) :
    HoldsExact { c1 with leases := c.leases.erase id } := by
  refine ⟨fun e => ?_, fun e => ?_, fun id' lease' hl => ?_, fun e r' hr' hheld => ?_⟩
  · have hsum := SlotTable.sum_erase (fun lease => lease.extents.count e) hfound
    have hexact := h.leases e
    unfold countAt at hexact ⊢
    rw [heach.find]
    cases hr : c.extents.find? e with
    | none =>
      rw [hr] at hexact
      simp only [cellVal_none, Option.map_none] at hexact ⊢
      omega
    | some =>
      rw [hr] at hexact
      simp only [cellVal_some, Option.map_some, unhold_iterate] at hexact ⊢
      omega
  · have hexact := h.registrations e
    rw [← heach.countAt_eq (fun r => rfl) e] at hexact
    unfold registrationsOn at hexact ⊢
    rw [← heach.rest.registrations] at hexact
    exact hexact
  · change (c.leases.erase id).find? id' = some lease' at hl
    rw [SlotTable.find?_erase] at hl
    split at hl
    · cases hl
    · exact h.nodup id' lease' hl
  obtain ⟨r, hr, hl, hn, hs⟩ := heach.keeps hr'
    (P := fun r r' => r'.view.leases ≤ r.view.leases ∧
      r'.view.registrations = r.view.registrations ∧ r'.view.state = r.view.state)
    (fun r => ⟨Nat.le_refl _, rfl, rfl⟩) fun r r' hp => ⟨hp.1.trans (Nat.sub_le _ _), hp.2⟩
  refine hs.trans (h.resident e r hr fun hu => hheld ⟨?_, hn.trans hu.2⟩)
  exact Nat.eq_zero_of_le_zero (hu.1 ▸ hl)

theorem HoldsExact.registering (h : HoldsExact c) (hr : c.extents.find? e = some r)
    (hextents : c'.extents = c.extents.set e r') (hleases : c'.leases = c.leases)
    (hreg : c'.registrations = registrations) (hstate : r'.view.state = .resident)
    (hsame : r'.view.leases = r.view.leases)
    (hsum : ∀ e', registrations.sum (fun registration => if registration.extent = e' then 1 else 0)
      + (if e' = e then r.view.registrations else 0)
        = c.registrationsOn e' + (if e' = e then r'.view.registrations else 0)) :
    HoldsExact c' := by
  have hfind : ∀ e', c'.extents.find? e' = if e' = e then some r' else c.extents.find? e' := by
    intro e'
    rw [hextents, SlotTable.find?_set, hr]
    rfl
  refine ⟨fun e' => ?_, fun e' => ?_, fun id lease hl => h.nodup id lease (hleases ▸ hl),
    fun e' r1 hr1 hheld => ?_⟩
  · rw [hleases, ← h.leases e']
    unfold countAt
    rw [hfind]
    split
    next he =>
      rw [he, hr]
      exact hsame
    · rfl
  · have hs := hsum e'
    have hexact := h.registrations e'
    unfold registrationsOn at hs hexact ⊢
    unfold countAt at hexact ⊢
    rw [hreg, hfind]
    by_cases he : e' = e
    · subst he
      rw [hr] at hexact
      simp only [if_true, cellVal_some] at hs hexact ⊢
      omega
    simp only [if_neg he] at hs ⊢
    omega
  rw [hfind] at hr1
  split at hr1
  · cases hr1
    exact hstate
  · exact h.resident e' r1 hr1 hheld

theorem HoldsExact.addRegistration (h : HoldsExact c)
    (hr : c.extents.find? e = some r) (hstate : r.view.state = .resident)
    (hins : c.registrations.insert { extent := e } = some (id, registrations))
    (hedit : Edit { c with registrations } e r.register c') : HoldsExact c' := by
  refine h.registering hr hedit.extents hedit.leases hedit.registrations hstate rfl fun e' => ?_
  have hsum := SlotTable.sum_insert
    (fun registration : Registration => if registration.extent = e' then 1 else 0) hins
  unfold registrationsOn
  rw [hsum]
  simp only [ExtentRecord.register]
  by_cases he : e' = e
  · subst he
    simp only [if_true]
    omega
  · simp only [if_neg he, if_neg (Ne.symm he)]

theorem HoldsExact.retireRegistration (h : HoldsExact c) {registration : Registration}
    (hfound : c.registrations.find? id = some registration)
    (hr : c.extents.find? registration.extent = some r) (hpos : 0 < r.view.registrations)
    (hedit : Edit c registration.extent r.unregister c1) :
    HoldsExact { c1 with registrations := c.registrations.erase id } := by
  have hheld : ¬ r.Unheld := fun hu => absurd hu.2 (Nat.ne_of_gt hpos)
  refine h.registering hr hedit.extents hedit.leases rfl (h.resident _ r hr hheld) rfl fun e' => ?_
  have hsum := SlotTable.sum_erase
    (fun registration : Registration => if registration.extent = e' then 1 else 0) hfound
  unfold registrationsOn
  simp only [ExtentRecord.unregister]
  by_cases he : e' = registration.extent
  · subst he
    simp only [if_true] at hsum ⊢
    omega
  simp only [if_neg he, if_neg (Ne.symm he)] at hsum ⊢
  omega

theorem HoldsExact.effect (h : HoldsExact c) (heff : Effect c op a c') : HoldsExact c' := by
  cases heff with
  | refused => exact h
  | addDomain name id hextents hrest =>
    exact h.congr hextents hrest.leases hrest.registrations
  | addExtent resident hins hextents hrest =>
    exact h.addExtent (SlotTable.find?_insert_fresh hins) ⟨rfl, rfl⟩ hrest (find_added hins hextents)
  | removeExtent hr hstate _ hextents hrest => exact h.removeExtent hr hstate hextents hrest
  | alter hr halt hedit => exact h.alter hr halt hedit
  | addResource _ _ heach =>
    refine HoldsExact.each ?_ heach fun r => ⟨rfl, rfl, rfl⟩
    exact h.congr rfl rfl rfl
  | removeResource _ heach hafter =>
    subst hafter
    exact (h.each heach fun r => ⟨rfl, rfl, rfl⟩).congr rfl rfl rfl
  | acquireLease hchecked hins heach =>
    obtain ⟨hfound, hall⟩ := checkClosure_ok hchecked
    refine h.acquireLease (sortUnique_nodup _) (fun e hmem => ?_) hins heach
    rw [mem_sortUnique, hfound] at hmem
    obtain ⟨p, hp, rfl⟩ := List.mem_map.mp hmem
    obtain ⟨r, hr, hstate, -⟩ := hall p hp
    exact ⟨r, hr, hstate⟩
  | releaseLease hfound heach hafter =>
    subst hafter
    exact h.releaseLease hfound heach
  | recordUse tick _ heach => exact h.each heach fun r => ⟨rfl, rfl, rfl⟩
  | addRegistration hr hstate hins hedit => exact h.addRegistration hr hstate hins hedit
  | retireRegistration hfound hr hpos hedit hafter =>
    subst hafter
    exact h.retireRegistration hfound hr hpos hedit

theorem HoldsExact.start : HoldsExact {} :=
  ⟨fun _ => by simp [countAt, SlotTable.find?, SlotTable.empty, SlotTable.sum],
    fun _ => by simp [countAt, registrationsOn, SlotTable.find?, SlotTable.empty, SlotTable.sum],
    fun _ _ h => by simp [SlotTable.find?, SlotTable.empty] at h,
    fun _ _ h => by simp [SlotTable.find?, SlotTable.empty] at h⟩

theorem Reachable.holds (h : Reachable c) : HoldsExact c := by
  induction h with
  | start => exact .start
  | step op _ hrun ih =>
    obtain ⟨a, hcall⟩ := Op.call_of_run hrun
    exact ih.effect ((call_does op).val hcall)

/-! ## What follows -/

theorem HoldsExact.leasesOn (h : HoldsExact c) (e : ExtentId) :
    c.countAt (·.view.leases) e = c.leasesOn e := by
  rw [h.leases]
  refine SlotTable.sum_congr fun id lease hl => ?_
  by_cases hmem : e ∈ lease.extents
  · rw [if_pos hmem, (h.nodup id lease hl).count, if_pos hmem]
  · rw [if_neg hmem, List.count_eq_zero.mpr hmem]

theorem HoldsExact.held (h : HoldsExact c) (hheld : c.leasesOn e ≠ 0 ∨ c.registrationsOn e ≠ 0) :
    ∃ r, c.extents.find? e = some r ∧ r.view.state = .resident ∧ ¬ r.Unheld := by
  have key : ∀ r, c.extents.find? e = some r → ¬ r.Unheld →
      ∃ r, c.extents.find? e = some r ∧ r.view.state = .resident ∧ ¬ r.Unheld :=
    fun r hr hu => ⟨r, hr, h.resident e r hr hu, hu⟩
  rcases hheld with hl | hn
  · rw [← h.leasesOn] at hl
    obtain ⟨r, hr, hpos⟩ := countAt_pos (Nat.pos_of_ne_zero hl)
    exact key r hr fun hu => absurd hu.1 (Nat.ne_of_gt hpos)
  rw [← h.registrations] at hn
  obtain ⟨r, hr, hpos⟩ := countAt_pos (Nat.pos_of_ne_zero hn)
  exact key r hr fun hu => absurd hu.2 (Nat.ne_of_gt hpos)

theorem HoldsExact.leasesHeld (h : HoldsExact c) : LeasesHeld c := by
  intro id lease hl e
  rw [h.leases]
  exact SlotTable.le_sum (fun lease => lease.extents.count e) hl

theorem HoldsExact.registrationsHeld (h : HoldsExact c) : RegistrationsHeld c := by
  intro id registration hn
  rw [h.registrations]
  have hle := SlotTable.le_sum
    (fun r : Registration => if r.extent = registration.extent then 1 else 0) hn
  rw [if_pos rfl] at hle
  exact hle

def Op.expels (e : ExtentId) : Op → Prop
  | .beginEvict e' _ | .releasePinned e' | .invalidateContents e' | .removeExtent e' => e' = e
  | _ => False

theorem Effect.expels_unheld (h : Effect c op a c')
    (hop : op.expels e) (ha : ∀ error, a ≠ .refused error) :
    ∃ r, c.extents.find? e = some r ∧ (r.Unheld ∨ r.view.state ≠ .resident) := by
  cases h with
  | refused _ error => exact absurd rfl (ha error)
  | removeExtent hr hstate =>
    cases hop
    exact ⟨_, hr, .inr (by simp [hstate])⟩
  | alter hr halt =>
    cases halt with
    | releasePinned _ _ hu | invalidateContents _ _ hu | beginEvict _ _ hu =>
      cases hop; exact ⟨_, hr, .inl hu⟩
    | _ => exact absurd hop (by simp [Op.expels])
  | _ => exact absurd hop (by simp [Op.expels])

/-- **Holds are exact and exclude eviction.** In every catalog a sequence of calls leads to, an
    extent's counts are the live leases that name it and the live registrations of it, and what is
    held is there and resident. So a held extent is neither evicted nor released, invalidated or
    removed; no lease is granted over an extent that is not resident, and no registration of one;
    and the checks that a hold is missing never fire, nor does any call, `RecordUse` included,
    follow the null pointer of a missing extent. -/
theorem reachable_holds_exact (h : Reachable c) : (∀ e r, c.extents.find? e = some r →
      r.view.leases = c.leasesOn e ∧ r.view.registrations = c.registrationsOn e) ∧
    (∀ e, c.leasesOn e ≠ 0 ∨ c.registrationsOn e ≠ 0 →
      ∃ r, c.extents.find? e = some r ∧ r.view.state = .resident) ∧
    (∀ e, c.leasesOn e ≠ 0 ∨ c.registrationsOn e ≠ 0 → ∀ op : Op, op.expels e →
      ∀ a c', op.call c = .ok (a, c') → ∃ error, a = .refused error ∧ c' = c) ∧
    (∀ closure lease c', Op.call c (.acquireLease closure) = .ok (.lease lease, c') →
      ∀ p ∈ closure.extents, ∃ r, c.extents.find? p.1 = some r ∧ r.view.state = .resident) ∧
    (∀ e registration c', Op.call c (.addRegistration e) = .ok (.registration registration, c') →
      ∃ r, c.extents.find? e = some r ∧ r.view.state = .resident) ∧
    (∀ op f, Op.call c op = .error f →
      f ≠ .leaseNotHeld ∧ f ≠ .registrationNotHeld ∧ f ≠ .missing) := by
  have hx := h.holds
  refine ⟨fun e r hr => ?_, fun e hheld => ?_, fun e hheld op hop a c' hcall => ?_,
    fun closure lease c' hcall p hp => ?_, fun e registration c' hcall => ?_,
    fun op f hcall => ?_⟩
  · have hleases := hx.leasesOn e
    have hreg := hx.registrations e
    unfold countAt at hleases hreg
    rw [hr] at hleases hreg
    exact ⟨hleases, hreg⟩
  · obtain ⟨r, hr, hstate, -⟩ := hx.held hheld
    exact ⟨r, hr, hstate⟩
  · have heff := (call_does op).val hcall
    by_cases ha : ∃ error, a = .refused error
    · obtain ⟨error, rfl⟩ := ha
      cases heff with
      | refused => exact ⟨error, rfl, rfl⟩
      | alter _ halt => cases halt
    obtain ⟨r, hr, hstate, hu⟩ := hx.held hheld
    obtain ⟨r', hr', hor⟩ := heff.expels_unheld hop fun error heq => ha ⟨error, heq⟩
    cases hr.symm.trans hr'
    rcases hor with hu' | hne
    · exact absurd hu' hu
    · exact absurd hstate hne
  · cases (call_does (.acquireLease closure)).val hcall with
    | alter _ halt => cases halt
    | acquireLease hchecked =>
      obtain ⟨r, hr, hstate, -⟩ := (checkClosure_ok hchecked).2 p hp
      exact ⟨r, hr, hstate⟩
  · cases (call_does (.addRegistration e)).val hcall with
    | alter _ halt => cases halt
    | addRegistration hr hstate => exact ⟨_, hr, hstate⟩
  have hfault := (call_does op).err hcall
  exact ⟨fun hf => hfault.lease hf hx.leasesHeld,
    fun hf => hfault.registration hf hx.registrationsHeld,
    fun hf => hfault.missing hf ⟨hx.leasesHeld, h.ledger.placed⟩⟩

/-- The leased extent of a run is counted, and `BeginEvict` of it is refused. -/
theorem reachable_holds_exact_leased : ∃ c, runAll {} leased = .ok c ∧ c.leasesOn ⟨0, 1⟩ = 1 ∧
      ∀ a c', Op.call c (.beginEvict ⟨0, 1⟩ false) = .ok (a, c') →
        ∃ error, a = .refused error ∧ c' = c :=
  ⟨_, rfl, rfl,
    (reachable_holds_exact (Reachable.start.runAll
      (show runAll {} leased = .ok _ from rfl))).2.2.1 ⟨0, 1⟩ (.inl (by decide)) _ rfl⟩

end JitLlm.Catalog
