import JitLlm.Catalog.Ledger

/-!
# Every operation keeps the occupancy ledger

`Ledger.change` is the only arithmetic there is: here each of the catalog's operations is walked
once, to the `change` it makes or to the table it inserts into, and `Ledger.run` collects them.
The queries that add sizes up (`Total`, `ClosureOfExtents`) are bounded by the same totals.
-/

namespace JitLlm.Catalog

open Base Lib List Option

/-! ## What the ledger does not depend on -/

variable {c : Catalog} {id : ExtentId} {r r' : ExtentRecord}

theorem Ledger.congr {c' : Catalog} (hl : Ledger c) (hd : c'.domains = c.domains)
    (he : c'.extents = c.extents) : Ledger c' := by
  refine ⟨fun id r h => ?_, fun d domain h => ?_⟩
  · rw [hd]
    exact hl.placed id r (by rw [← he]; exact h)
  have hx := hl.exact d domain (by rw [← hd]; exact h)
  have hsum : ∀ p, bytesOf c' d p = bytesOf c d p := fun p => by simp only [bytesOf, he]
  exact ⟨fun b => by rw [hsum]; exact hx.parts b, fun k => by rw [hsum]; exact hx.classes k,
    by rw [hsum]; exact hx.registered⟩

theorem Ledger.set (hl : Ledger c) (h : c.extents.find? id = some r)
    (hd : r'.view.descriptor = r.view.descriptor) (hb : bucketOf r.view = bucketOf r'.view) :
    Ledger { c with extents := c.extents.set id r' } := by
  have hchange : c.change id r r' = .ok { c with extents := c.extents.set id r' } := by
    simp [Catalog.change, Catalog.recount, hb]
  exact ((hl.change h hd).val hchange).1

/-! ## Domains and extents -/

theorem Ledger.addDomain (hl : Ledger c) (name : String) : Ledger (c.addDomain name).2 := by
  unfold Catalog.addDomain
  split
  · exact hl
  rename_i id domains hins
  have hfind := SlotTable.find?_insert hins
  have hfresh := SlotTable.find?_insert_fresh hins
  refine ⟨fun e r he => ?_, fun d domain hd => ?_⟩
  · obtain ⟨domain, hdom⟩ := hl.placed e r he
    refine ⟨domain, ?_⟩
    have hne : r.view.descriptor.domain ≠ id := by
      intro hq
      rw [hq, hfresh] at hdom
      cases hdom
    show domains.find? _ = _
    rw [hfind, if_neg hne]
    exact hdom
  change domains.find? d = some domain at hd
  rw [hfind] at hd
  split at hd
  -- No extent is in the domain just added: its sums are empty, as its counters are.
  next hq =>
    subst hq
    simp only [some.injEq] at hd
    subst hd
    have hzero : ∀ p, bytesOf c d p = 0 := by
      intro p
      have hcongr : c.extents.sum (weight d p) = c.extents.sum (fun _ => 0) := by
        refine SlotTable.sum_congr fun e r he => weight_of_ne fun hq => ?_
        obtain ⟨domain, hdom⟩ := hl.placed e r he
        rw [hq, hfresh] at hdom
        cases hdom
      exact hcongr.trans (SlotTable.sum_zero _)
    exact ⟨fun b => (hzero _).symm, fun k => (hzero _).symm, (hzero _).symm⟩
  have hx := hl.exact d domain hd
  exact ⟨hx.parts, hx.classes, hx.registered⟩

theorem bytesOf_insert {record : ExtentRecord} {extents : SlotTable .extent ExtentRecord}
    (h : c.extents.insert record = some (id, extents)) (d : DomainId) (p : ExtentView → Bool) :
    extents.sum (weight d p) = bytesOf c d p + weight d p record :=
  SlotTable.sum_insert _ h

theorem Ledger.addExtent (hl : Ledger c) (descriptor : ExtentDescriptor) (resident : Bool) :
    Sat LedgerSafe (fun y => Ledger y.2) (c.addExtent descriptor resident) := by
  unfold Catalog.addExtent
  rcases hdom : c.domains.find? descriptor.domain with _ | domain
  · exact hl
  simp only
  split
  · exact hl
  rcases hplus : domain.registered.plus descriptor.size with _ | registered
  · exact hl
  simp only
  rcases hins : c.extents.insert { view := { descriptor := descriptor } } with _ | inserted
  · exact hl
  obtain ⟨id, extents⟩ := inserted
  have hfind := SlotTable.find?_insert hins
  have hreg := Bytes.plus_eq_some.mp hplus
  -- Nonresident, the new extent counts towards `registered` alone.
  have hinse : Ledger { c with
      extents, domains := c.domains.set descriptor.domain { domain with registered } } := by
    refine ⟨fun e r he => ?_, fun d dom hd => ?_⟩
    · show ∃ x, (c.domains.set _ _).find? _ = some x
      change extents.find? e = some r at he
      rw [SlotTable.find?_set]
      split
      · exact ⟨_, by rw [hdom]; rfl⟩
      rename_i hne
      rw [hfind] at he
      split at he
      · simp only [some.injEq] at he
        subst he
        exact absurd rfl hne
      · exact hl.placed e r he
    change (c.domains.set _ _).find? d = some dom at hd
    rw [SlotTable.find?_set] at hd
    have hsum := bytesOf_insert hins d
    split at hd
    next hq =>
      subst hq
      simp only [hdom, map_some, some.injEq] at hd
      subst hd
      have hx := hl.exact descriptor.domain domain hdom
      refine ⟨fun b => ?_, fun k => ?_, ?_⟩
      · rw [hx.parts b]
        simp only [bytesOf, hsum, weight_inBucket, bucketOf, reduceCtorEq, if_false, Nat.add_zero]
      · rw [hx.classes k]
        simp only [bytesOf, hsum, weight_occupiesClass, bucketOf, ne_eq,
          not_true_eq_false, false_and, if_false, Nat.add_zero]
      rw [hreg, hx.registered]
      simp [bytesOf, hsum, weight]
    rename_i hne
    have hx := hl.exact d dom hd
    have hsame : ∀ p, extents.sum (weight d p) = bytesOf c d p := by
      intro p
      rw [hsum, weight_of_ne (Ne.symm hne), Nat.add_zero]
    exact ⟨fun b => (hx.parts b).trans (hsame _).symm,
      fun k => (hx.classes k).trans (hsame _).symm,
      hx.registered.trans (hsame _).symm⟩
  rcases resident with _ | _
  · exact hinse
  have hnew : extents.find? id = some { view := { descriptor := descriptor } } := by
    rw [hfind, if_pos rfl]
  exact (hinse.change hnew (by rfl)).bind fun c' hc' => hc'.1

theorem Ledger.removeExtent (hl : Ledger c) (extent : ExtentId) :
    Sat LedgerSafe (fun y => Ledger y.2) (c.removeExtent extent) := by
  unfold Catalog.removeExtent
  rcases he : c.extents.find? extent with _ | r
  · exact hl
  simp only
  split
  · exact hl
  rename_i hstate
  obtain ⟨domain, hdom⟩ := hl.placed extent r he
  have hnon : r.view.state = .nonresident := by
    by_contra hq
    exact hstate (.inl hq)
  have hx := hl.exact _ domain hdom
  have hw : r.view.descriptor.size.value ≤ domain.registered.value := by
    rw [hx.registered]
    have := SlotTable.le_sum (weight r.view.descriptor.domain (fun _ => true)) he
    simpa [weight, bytesOf] using this
  simp only [hdom, subtract_eq hw]
  have hsum : ∀ d p, (c.extents.erase extent).sum (weight d p) + weight d p r
      = bytesOf c d p := fun d p => SlotTable.sum_erase _ he
  refine ⟨fun e r1 h1 => ?_, fun d dom hd => ?_⟩
  · change (c.extents.erase extent).find? e = some r1 at h1
    show ∃ x, (c.domains.set _ _).find? _ = some x
    rw [SlotTable.find?_erase] at h1
    split at h1
    · cases h1
    rw [SlotTable.find?_set]
    split
    · exact ⟨_, by rw [hdom]; rfl⟩
    · exact hl.placed e r1 h1
  change (c.domains.set _ _).find? d = some dom at hd
  rw [SlotTable.find?_set] at hd
  have hbucket : bucketOf r.view = none := bucketOf_eq_none.mpr hnon
  split at hd
  next hq =>
    subst hq
    simp only [hdom, map_some, some.injEq] at hd
    subst hd
    refine ⟨fun b => ?_, fun k => ?_, ?_⟩
    · have := hsum r.view.descriptor.domain (inBucket b)
      rw [weight_inBucket rfl, hbucket] at this
      exact (hx.parts b).trans this.symm
    · have := hsum r.view.descriptor.domain (occupiesClass k)
      rw [weight_occupiesClass rfl, hbucket] at this
      simp only [ne_eq, not_true_eq_false, false_and, if_false, Nat.add_zero] at this
      exact (hx.classes k).trans this.symm
    have := hsum r.view.descriptor.domain (fun _ => true)
    have hwt : weight r.view.descriptor.domain (fun _ => true) r
        = r.view.descriptor.size.value := by simp [weight]
    simp only [bytesOf, hx.registered] at this ⊢
    omega
  next hne =>
    have hy := hl.exact d dom hd
    have hsame : ∀ p, (c.extents.erase extent).sum (weight d p) = bytesOf c d p := by
      intro p
      have := hsum d p
      rw [weight_of_ne (Ne.symm hne)] at this
      exact this
    exact ⟨fun b => (hy.parts b).trans (hsame _).symm,
      fun k => (hy.classes k).trans (hsame _).symm, hy.registered.trans (hsame _).symm⟩

/-! ## Transitions of one extent -/

theorem Ledger.changeAccept {α : Type} (hl : Ledger c)
    (h : c.extents.find? id = some r) (hd : r'.view.descriptor = r.view.descriptor) (a : α) :
    Sat LedgerSafe (fun y => Ledger y.2) (c.change id r r' >>= accept a) :=
  (hl.change h hd).bind fun _ hc' => hc'.1

theorem advance_sat (generation : Nat) : Sat LedgerSafe (fun _ => True) (advance generation) := by
  unfold advance
  split <;> simp [LedgerSafe]

theorem begin_sat (id : ExtentId) (record : ExtentRecord) (operation : Operation) :
    Sat LedgerSafe (fun y => y.2.view = record.view) (begin id record operation) := by
  unfold begin
  split <;> simp [LedgerSafe]

theorem Ledger.releasePinned (hl : Ledger c) (extent : ExtentId) :
    Sat LedgerSafe (fun y => Ledger y.2) (c.releasePinned extent) := by
  unfold Catalog.releasePinned
  rcases he : c.extents.find? extent with _ | _
  · exact hl
  simp only
  split
  · exact hl
  split
  · exact hl
  refine (advance_sat _).bind fun b _ => (advance_sat _).bind fun g _ => ?_
  exact hl.changeAccept he (by rfl) ()

section

variable (hl : Ledger c) (ticket : Ticket)
include hl ticket

theorem Ledger.completeLoad : Sat LedgerSafe (fun y => Ledger y.2) (c.completeLoad ticket) := by
  unfold Catalog.completeLoad
  cases hcur : c.current ticket .load .loading with
  | error => exact hl
  | ok => exact hl.changeAccept (current_ok hcur).1 (by rfl) ()

theorem Ledger.failLoad (completionKnown : Bool) :
    Sat LedgerSafe (fun y => Ledger y.2) (c.failLoad ticket completionKnown) := by
  unfold Catalog.failLoad
  rcases hcur : c.current ticket .load .loading with _ | _
  · exact hl
  have hr := (current_ok hcur).1
  cases completionKnown with
  | true => exact (advance_sat _).bind fun b _ => hl.changeAccept hr (by rfl) ()
  | false => exact hl.changeAccept hr (by rfl) ()

theorem Ledger.completeEvict : Sat LedgerSafe (fun y => Ledger y.2) (c.completeEvict ticket) := by
  unfold Catalog.completeEvict
  rcases hcur : c.current ticket .evict .evicting with _ | _
  · exact hl
  have hr := (current_ok hcur).1
  refine (advance_sat _).bind fun b _ => ?_
  simp only
  split
  · exact (advance_sat _).bind fun g _ => hl.changeAccept hr (by rfl) ()
  · exact hl.changeAccept hr (by rfl) ()

theorem Ledger.cancelEvict : Sat LedgerSafe (fun y => Ledger y.2) (c.cancelEvict ticket) := by
  unfold Catalog.cancelEvict
  cases hcur : c.current ticket .evict .evicting with
  | error => exact hl
  | ok => exact hl.changeAccept (current_ok hcur).1 (by rfl) ()

theorem Ledger.quarantineEviction :
    Sat LedgerSafe (fun y => Ledger y.2) (c.quarantineEviction ticket) := by
  unfold Catalog.quarantineEviction
  cases hcur : c.current ticket .evict .evicting with
  | error => exact hl
  | ok => exact hl.changeAccept (current_ok hcur).1 (by rfl) ()

end

theorem Ledger.beginEvict (hl : Ledger c) (extent : ExtentId) (writeBack : Bool) :
    Sat LedgerSafe (fun y => Ledger y.2) (c.beginEvict extent writeBack) := by
  unfold Catalog.beginEvict
  rcases he : c.extents.find? extent with _ | _
  · exact hl
  simp only
  split
  · exact hl
  split
  · exact hl
  split
  · exact hl
  refine (begin_sat _ _ _).bind fun y hy => ?_
  exact hl.changeAccept he (by rw [hy]) y.1

/-! ## Holds, uses and contents -/

theorem Ledger.hold (hl : Ledger c) (extent : ExtentId) :
    Sat LedgerSafe Ledger (c.hold extent) := by
  unfold Catalog.hold
  rcases he : c.extents.find? extent with _ | _
  · simp [LedgerSafe]
  simp only
  split
  · exact (hl.change he (by rfl)).imp fun c' hc' => hc'.1
  · simp [LedgerSafe]

theorem Ledger.unhold (hl : Ledger c) (extent : ExtentId) :
    Sat LedgerSafe Ledger (c.unhold extent) := by
  unfold Catalog.unhold
  rcases he : c.extents.find? extent with _ | _
  · simp [LedgerSafe]
  simp only
  split
  · exact (hl.change he (by rfl)).imp fun c' hc' => hc'.1
  · simp [LedgerSafe]

theorem Ledger.touch (hl : Ledger c) (tick : Nat) (extent : ExtentId) :
    Sat LedgerSafe Ledger (Catalog.touch tick c extent) := by
  unfold Catalog.touch
  cases he : c.extents.find? extent with
  | none => simp [LedgerSafe]
  | some => exact hl.set he (by rfl) (by rfl)

theorem Ledger.placeResource (hl : Ledger c) (range : Range) :
    Sat LedgerSafe Ledger (c.placeResource range) := by
  unfold Catalog.placeResource
  cases he : c.extents.find? range.extent with
  | none => simp [LedgerSafe]
  | some => exact hl.set he (by rfl) (by rfl)

theorem Ledger.displaceResource (hl : Ledger c) (range : Range) :
    Sat LedgerSafe Ledger (c.displaceResource range) := by
  unfold Catalog.displaceResource
  rcases he : c.extents.find? range.extent with _ | _
  · simp [LedgerSafe]
  simp only
  split
  · exact hl.set he (by rfl) (by rfl)
  · simp [LedgerSafe]

theorem Ledger.foldlM {γ : Type} {f : Catalog → γ → Checked Catalog}
    (step : ∀ {c : Catalog}, Ledger c → ∀ x, Sat LedgerSafe Ledger (f c x)) (hl : Ledger c)
    (l : List γ) : Sat LedgerSafe Ledger (l.foldlM f c) :=
  Sat.foldlM (I := fun _ c => Ledger c) (fun _ x _ h => step h x) hl

section

variable (hl : Ledger c)
include hl

theorem Ledger.acquireLease (closure : Closure) :
    Sat LedgerSafe (fun y => Ledger y.2) (c.acquireLease closure) := by
  unfold Catalog.acquireLease
  rcases c.checkClosure closure.extents with _ | found
  · exact hl
  simp only
  rcases c.leases.insert { extents := sortUnique found } with _ | inserted
  · exact hl
  have hl' : Ledger { c with leases := inserted.2 } := hl.congr rfl rfl
  refine (Ledger.foldlM (fun h x => h.hold x) hl' _).bind fun c' hc' => ?_
  exact hc'

theorem Ledger.releaseLease (lease : LeaseId) :
    Sat LedgerSafe (fun y => Ledger y.2) (c.releaseLease lease) := by
  unfold Catalog.releaseLease
  cases c.leases.find? lease with
  | none => exact hl
  | some =>
    refine (Ledger.foldlM (fun h x => h.unhold x) hl _).bind fun c' hc' => ?_
    exact hc'.congr rfl rfl

theorem Ledger.recordUse (lease : LeaseId) (tick : Nat) :
    Sat LedgerSafe (fun y => Ledger y.2) (c.recordUse lease tick) := by
  unfold Catalog.recordUse
  cases c.leases.find? lease with
  | none => exact hl
  | some =>
    refine (Ledger.foldlM (fun h x => h.touch tick x) hl _).bind fun c' hc' => ?_
    exact hc'

theorem Ledger.addResource (ranges : List Range) :
    Sat LedgerSafe (fun y => Ledger y.2) (c.addResource ranges) := by
  unfold Catalog.addResource
  split
  · exact hl
  rcases c.checkRanges none ranges with _ | _
  · exact hl
  simp only
  rcases c.resources.insert { ranges := ranges } with _ | inserted
  · exact hl
  have hl' : Ledger { c with resources := inserted.2 } := hl.congr rfl rfl
  refine (Ledger.foldlM (fun h x => h.placeResource x) hl' _).bind fun c' hc' => ?_
  exact hc'

theorem Ledger.removeResource (resource : ResourceId) :
    Sat LedgerSafe (fun y => Ledger y.2) (c.removeResource resource) := by
  unfold Catalog.removeResource
  cases c.resources.find? resource with
  | none => exact hl
  | some =>
    refine (Ledger.foldlM (fun h x => h.displaceResource x) hl _).bind fun c' hc' => ?_
    exact hc'.congr rfl rfl

theorem Ledger.addRegistration (extent : ExtentId) :
    Sat LedgerSafe (fun y => Ledger y.2) (c.addRegistration extent) := by
  unfold Catalog.addRegistration
  rcases he : c.extents.find? extent with _ | _
  · exact hl
  simp only
  split
  · exact hl
  rcases c.registrations.insert { extent := extent } with _ | inserted
  · exact hl
  simp only
  split
  · have hl' : Ledger { c with registrations := inserted.2 } := hl.congr rfl rfl
    exact hl'.changeAccept he (by rfl) _
  · simp [LedgerSafe]

theorem Ledger.retireRegistration (registration : RegistrationId) :
    Sat LedgerSafe (fun y => Ledger y.2) (c.retireRegistration registration) := by
  unfold Catalog.retireRegistration
  rcases c.registrations.find? registration with _ | found
  · exact hl
  simp only
  rcases he : c.extents.find? found.extent with _ | _
  · simp [LedgerSafe]
  simp only
  split
  · exact (hl.change he (by rfl)).bind fun c' hc' => hc'.1.congr rfl rfl
  · simp [LedgerSafe]

theorem Ledger.invalidateContents (extent : ExtentId) :
    Sat LedgerSafe (fun y => Ledger y.2) (c.invalidateContents extent) := by
  unfold Catalog.invalidateContents
  rcases he : c.extents.find? extent with _ | _
  · exact hl
  simp only
  split
  · exact hl
  split
  · exact hl
  · exact (advance_sat _).bind fun g _ => hl.set he (by rfl) (by rfl)

theorem Ledger.replaceContents (extent : ExtentId) :
    Sat LedgerSafe (fun y => Ledger y.2) (c.replaceContents extent) := by
  unfold Catalog.replaceContents
  rcases he : c.extents.find? extent with _ | _
  · exact hl
  simp only
  split
  · exact hl
  split
  · exact hl
  · exact (advance_sat _).bind fun g _ => hl.set he (by rfl) (by rfl)

end

/-! ## The queries that add sizes up -/

theorem Occupancy.total_eq {o : Occupancy}
    (h : (Bucket.all.map fun b => (o.part b).value).sum ≤ uint64Max) :
    ∃ total, o.total = .ok total ∧ total.value = (Bucket.all.map fun b => (o.part b).value).sum := by
  have hfold : ∀ (l : List Bucket) (t : Bytes),
      t.value + (l.map fun b => (o.part b).value).sum ≤ uint64Max →
      ∃ total, l.foldlM (fun total b => add total (o.part b)) t = .ok total ∧
        total.value = t.value + (l.map fun b => (o.part b).value).sum := by
    intro l
    induction l with
    | nil => exact fun t _ => ⟨t, rfl, rfl⟩
    | cons b rest ih =>
      intro t ht
      simp only [map_cons, sum_cons] at ht
      obtain ⟨total, hrun, hval⟩ := ih ⟨t.value + (o.part b).value, by omega⟩ (by simp only; omega)
      refine ⟨total, ?_, ?_⟩
      · rw [foldlM_cons, add_eq (by omega)]
        exact hrun
      rw [hval]
      simp only [map_cons, sum_cons]
      omega
  obtain ⟨total, hrun, hval⟩ := hfold Bucket.all Bytes.zero (by simpa using h)
  exact ⟨total, hrun, by simpa using hval⟩

theorem bucketOf_mem (v : ExtentView) :
    (Bucket.all.map fun b => if bucketOf v = some b then v.descriptor.size.value else 0).sum
      = if v.state = .nonresident then 0 else v.descriptor.size.value := by
  rcases hb : bucketOf v with _ | b
  · simp [bucketOf_eq_none.mp hb, Bucket.all]
  have hne : v.state ≠ .nonresident := fun hq => by
    rw [bucketOf_eq_none.mpr hq] at hb
    cases hb
  rw [if_neg hne]
  cases b <;> simp [Bucket.all]

theorem class_mem (v : ExtentView) :
    (MemoryClass.all.map fun k => if v.state ≠ .nonresident ∧ v.descriptor.memoryClass = k then
        v.descriptor.size.value else 0).sum
      = if v.state = .nonresident then 0 else v.descriptor.size.value := by
  by_cases hs : v.state = .nonresident
  · simp [hs, MemoryClass.all]
  · cases hk : v.descriptor.memoryClass <;> simp [hs, MemoryClass.all]

theorem sum_bytesOf {ι : Type} (d : DomainId) (p : ι → ExtentView → Bool) (l : List ι) :
    (l.map fun i => bytesOf c d (p i)).sum
      = c.extents.sum (fun r => (l.map fun i => weight d (p i) r).sum) := by
  induction l with
  | nil => exact (SlotTable.sum_zero _).symm
  | cons i more ih =>
    simp only [map_cons, sum_cons, ih, SlotTable.sum_add]
    rfl

theorem Ledger.parts_sum (hl : Ledger c) {d : DomainId} {domain : Domain}
    (hd : c.domains.find? d = some domain) :
    (Bucket.all.map fun b => (domain.occupancy.part b).value).sum = bytesOf c d occupies := by
  have hx := hl.exact d domain hd
  simp only [hx.parts, sum_bytesOf]
  refine SlotTable.sum_congr fun id r _ => ?_
  by_cases hq : r.view.descriptor.domain = d
  · simp only [weight_inBucket hq, bucketOf_mem]
    simp only [weight, hq, occupies]
    by_cases hs : r.view.state = .nonresident <;> simp [hs]
  · simp [weight_of_ne hq, Bucket.all]

theorem Ledger.classes_sum (hl : Ledger c) {d : DomainId} {domain : Domain}
    (hd : c.domains.find? d = some domain) :
    (MemoryClass.all.map fun k => (domain.occupancy.byClass k).value).sum
      = bytesOf c d occupies := by
  have hx := hl.exact d domain hd
  simp only [hx.classes, sum_bytesOf]
  refine SlotTable.sum_congr fun id r _ => ?_
  by_cases hq : r.view.descriptor.domain = d
  · simp only [weight_occupiesClass hq, ne_eq, bucketOf_eq_none]
    simp only [← ne_eq, class_mem]
    simp only [weight, hq, occupies]
    by_cases hs : r.view.state = .nonresident <;> simp [hs]
  · simp [weight_of_ne hq, MemoryClass.all]

theorem Ledger.total (hl : Ledger c) (d : DomainId) :
    ∃ total, (c.occupancyOf d).total = .ok total ∧ total.value = bytesOf c d occupies := by
  unfold occupancyOf
  cases hd : c.domains.find? d with
  | none =>
    refine ⟨Bytes.zero, rfl, ?_⟩
    have hcongr : c.extents.sum (weight d occupies) = c.extents.sum (fun _ => 0) := by
      refine SlotTable.sum_congr fun e r he => weight_of_ne fun hq => ?_
      obtain ⟨domain, hdom⟩ := hl.placed e r he
      rw [hq, hd] at hdom
      cases hdom
    exact (hcongr.trans (SlotTable.sum_zero _)).symm
  | some domain =>
    have hsum := hl.parts_sum hd
    have hle : bytesOf c d occupies ≤ bytesOf c d (fun _ => true) := sum_le_sum (weight_le d _)
    have hreg := (hl.exact d domain hd).registered
    have hbound := domain.registered.bound
    obtain ⟨total, hrun, hval⟩ := Occupancy.total_eq (o := domain.occupancy) (by omega)
    exact ⟨total, hrun, hval.trans hsum⟩

theorem Ledger.beginLoad (hl : Ledger c) (extent : ExtentId) (budget : Bytes) :
    Sat LedgerSafe (fun y => Ledger y.2) (c.beginLoad extent budget) := by
  unfold Catalog.beginLoad
  rcases he : c.extents.find? extent with _ | r
  · exact hl
  simp only
  split
  · exact hl
  obtain ⟨total, hrun, -⟩ := hl.total r.view.descriptor.domain
  rw [hrun, ok_bind]
  rcases total.plus r.view.descriptor.size with _ | _
  · exact hl
  simp only
  split
  · exact hl
  refine (begin_sat _ _ _).bind fun y hy => ?_
  exact hl.changeAccept he (by rw [hy]) y.1

theorem sumOver_le (f : ExtentRecord → Nat) :
    ∀ (l : List ExtentId) (t : SlotTable .extent ExtentRecord), l.Nodup →
      (l.map fun id => cellVal f (t.find? id)).sum ≤ t.sum f
  | [], _, _ => Nat.zero_le _
  | id :: rest, t, hnd => by
    obtain ⟨hni, hrest⟩ := nodup_cons.mp hnd
    simp only [map_cons, sum_cons]
    rcases hf : t.find? id with _ | _
    · simpa using sumOver_le f rest t hrest
    have ih := sumOver_le f rest (t.erase id) hrest
    have hsame : (rest.map fun id' => cellVal f ((t.erase id).find? id'))
        = rest.map fun id' => cellVal f (t.find? id') := by
      refine map_congr_left fun id' hmem => ?_
      have hne : id' ≠ id := fun hq => hni (hq ▸ hmem)
      rw [SlotTable.find?_erase, if_neg hne]
    rw [hsame] at ih
    have := SlotTable.sum_erase f hf
    simp only [cellVal_some]
    omega

theorem Ledger.gather (hl : Ledger c) : ∀ (rest : List ExtentId) (closure : Closure),
      (∀ d, ((closure.bytesByDomain.find? d).getD Bytes.zero).value
          + (rest.map fun id => cellVal (weight d fun _ => true) (c.extents.find? id)).sum
        ≤ bytesOf c d fun _ => true) →
      Sat LedgerSafe (fun _ => True) (c.gather closure rest)
  | [], _, _ => trivial
  | id :: rest, closure, h => by
    unfold Catalog.gather
    rcases hf : c.extents.find? id with _ | r
    · trivial
    obtain ⟨domain, hdom⟩ := hl.placed id r hf
    have hreg := (hl.exact _ domain hdom).registered
    have hbound := domain.registered.bound
    have hown := h r.view.descriptor.domain
    simp only [map_cons, sum_cons, hf, cellVal_some] at hown
    have hw : weight r.view.descriptor.domain (fun _ => true) r
        = r.view.descriptor.size.value := by simp [weight]
    simp only
    rw [add_eq (by omega)]
    refine hl.gather rest _ fun d => ?_
    have hd := h d
    simp only [map_cons, sum_cons, hf, cellVal_some] at hd
    simp only [OrdMap.find?_insert]
    split
    next hq =>
      subst hq
      simp only [getD_some]
      omega
    · omega

theorem Ledger.closureOfExtents (hl : Ledger c) (extents : List ExtentId) :
    Sat LedgerSafe (fun _ => True) (c.closureOfExtents extents) := by
  refine hl.gather _ _ fun d => ?_
  have := sumOver_le (weight d fun _ => true) (sortUnique extents) c.extents
    (sortUnique_nodup extents)
  simpa [bytesOf] using this

theorem Ledger.closureOf (hl : Ledger c) (resources : List ResourceId) :
    Sat LedgerSafe (fun _ => True) (c.closureOf resources) := by
  unfold Catalog.closureOf
  cases c.extentsOfResources resources with
  | error => trivial
  | ok extents => exact hl.closureOfExtents extents

/-! ## Every run -/

theorem Ledger.run (hl : Ledger c) (op : Op) : Sat LedgerSafe Ledger (op.run c) := by
  cases op with
  | addDomain name => exact hl.addDomain name
  | addExtent descriptor resident => exact forget_sat (hl.addExtent descriptor resident)
  | removeExtent extent => exact forget_sat (hl.removeExtent extent)
  | releasePinned extent => exact forget_sat (hl.releasePinned extent)
  | addResource ranges => exact forget_sat (hl.addResource ranges)
  | removeResource resource => exact forget_sat (hl.removeResource resource)
  | beginLoad extent budget => exact forget_sat (hl.beginLoad extent budget)
  | completeLoad ticket => exact forget_sat (hl.completeLoad ticket)
  | failLoad ticket known => exact forget_sat (hl.failLoad ticket known)
  | acquireLease closure => exact forget_sat (hl.acquireLease closure)
  | releaseLease lease => exact forget_sat (hl.releaseLease lease)
  | recordUse lease tick => exact forget_sat (hl.recordUse lease tick)
  | addRegistration extent => exact forget_sat (hl.addRegistration extent)
  | retireRegistration registration => exact forget_sat (hl.retireRegistration registration)
  | invalidateContents extent => exact forget_sat (hl.invalidateContents extent)
  | replaceContents extent => exact forget_sat (hl.replaceContents extent)
  | beginEvict extent writeBack => exact forget_sat (hl.beginEvict extent writeBack)
  | completeEvict ticket => exact forget_sat (hl.completeEvict ticket)
  | cancelEvict ticket => exact forget_sat (hl.cancelEvict ticket)
  | quarantineEviction ticket => exact forget_sat (hl.quarantineEviction ticket)

theorem Ledger.start : Ledger {} :=
  ⟨fun id r h => by simp [SlotTable.find?, SlotTable.empty] at h,
    fun d domain h => by simp [SlotTable.find?, SlotTable.empty] at h⟩

theorem Reachable.ledger (h : Reachable c) : Ledger c := by
  induction h with
  | start => exact Ledger.start
  | step op _ hrun ih => exact (ih.run op).val hrun

def belongs (v : ExtentView) : Bucket → Prop
  | .held => v.state = .resident ∧ v.descriptor.recovery ≠ .pinned ∧
      (0 < v.leases ∨ 0 < v.registrations)
  | .idle => v.state = .resident ∧ v.descriptor.recovery ≠ .pinned ∧
      v.leases = 0 ∧ v.registrations = 0
  | .pinned => v.state = .resident ∧ v.descriptor.recovery = .pinned
  | .loading => v.state = .loading
  | .evicting => v.state = .evicting
  | .quarantined => v.state = .quarantined

instance (v : ExtentView) (b : Bucket) : Decidable (belongs v b) := by
  cases b <;> unfold belongs <;> infer_instance

theorem inBucket_eq (b : Bucket) : inBucket b = fun v => decide (belongs v b) := by
  funext v
  unfold inBucket bucketOf
  cases hs : v.state with
  | resident =>
    simp only
    split
    · cases b <;> simp_all [belongs]
    · split <;> cases b <;> simp_all [belongs] <;> try omega
  | nonresident | loading | evicting | quarantined => cases b <;> simp [belongs, hs]

/-- The sum of the sizes of domain `d`'s live extents that satisfy `P`. -/
def sizes (c : Catalog) (d : DomainId) (P : ExtentView → Prop) [DecidablePred P] : Nat :=
  c.extents.sum fun r =>
    if r.view.descriptor.domain = d ∧ P r.view then r.view.descriptor.size.value else 0

theorem bytesOf_eq_sizes (d : DomainId) (P : ExtentView → Prop) [DecidablePred P] :
    bytesOf c d (fun v => decide (P v)) = c.sizes d P := by
  refine SlotTable.sum_congr fun id r _ => ?_
  simp [weight]

/-- **The occupancy ledger is exact, and cannot overflow.** In every catalog a sequence of calls
    leads to: a domain's six counters and its class counters are the sums of the sizes of exactly
    the extents they are for; `Total` is defined, is the sum of the classes, and is at most
    `registered`, the sum of all the domain's sizes, below 2^64; and no call and no query made
    next ends the process on the two checks of `Add` and `Subtract`. -/
theorem reachable_occupancy_exact (h : Reachable c) : (∀ d domain, c.domains.find? d = some domain →
      (∀ b, (domain.occupancy.part b).value = c.sizes d (belongs · b)) ∧
      (∀ k, (domain.occupancy.byClass k).value
        = c.sizes d fun v => v.state ≠ .nonresident ∧ v.descriptor.memoryClass = k) ∧
      domain.registered.value = c.sizes d (fun _ => True) ∧
      domain.registered.value < 2 ^ 64 ∧
      ∃ total, domain.occupancy.total = .ok total ∧
        total.value = (MemoryClass.all.map fun k => (domain.occupancy.byClass k).value).sum ∧
        total.value ≤ domain.registered.value) ∧
    (∀ op f, Op.run c op = .error f → f ≠ .occupancyOverflow ∧ f ≠ .occupancyUnderflow) ∧
    (∀ extents f, c.closureOfExtents extents = .error f →
      f ≠ .occupancyOverflow ∧ f ≠ .occupancyUnderflow) ∧
    (∀ resources f, c.closureOf resources = .error f →
      f ≠ .occupancyOverflow ∧ f ≠ .occupancyUnderflow) ∧
    (∀ d f, (c.occupancyOf d).total = .error f →
      f ≠ .occupancyOverflow ∧ f ≠ .occupancyUnderflow) := by
  have hl := h.ledger
  refine ⟨fun d domain hd => ?_, fun op f hf => (hl.run op).err hf,
    fun extents f hf => (hl.closureOfExtents extents).err hf,
    fun resources f hf => (hl.closureOf resources).err hf, fun d f hf => ?_⟩
  · have hx := hl.exact d domain hd
    have hreg := hx.registered
    have hle : bytesOf c d occupies ≤ bytesOf c d (fun _ => true) := sum_le_sum (weight_le d _)
    obtain ⟨total, hrun, hval⟩ := hl.total d
    simp only [occupancyOf, hd] at hrun
    refine ⟨fun b => ?_, fun k => ?_, ?_, ?_, total, hrun, ?_, ?_⟩
    · rw [hx.parts, inBucket_eq, bytesOf_eq_sizes]
    · rw [hx.classes]
      exact bytesOf_eq_sizes d _
    · rw [hreg, ← bytesOf_eq_sizes]
      simp
    · have := domain.registered.bound
      simp only [uint64Max] at this
      omega
    · rw [hval, hl.classes_sum hd]
    · omega
  obtain ⟨total, hrun, -⟩ := hl.total d
  rw [hrun] at hf
  cases hf

def leased : List Op :=
  [.addDomain "device",
    .addExtent { domain := ⟨0, 1⟩, memoryClass := .weights, recovery := .fromArtifact,
                 size := ⟨4096, by decide⟩ } true,
    .acquireLease { extents := [(⟨0, 1⟩, 1)] }]

theorem reachable_occupancy_exact_leased :
    ∃ c domain, runAll {} leased = .ok c ∧ c.domains.find? ⟨0, 1⟩ = some domain ∧
      (domain.occupancy.part .held).value = 4096 ∧
      (domain.occupancy.part .held).value = c.sizes ⟨0, 1⟩ (belongs · .held) :=
  ⟨_, _, rfl, rfl, rfl,
    ((reachable_occupancy_exact (Reachable.start.runAll (show runAll {} leased = .ok _ from rfl))).1 _ _ rfl).1 .held⟩

end JitLlm.Catalog
