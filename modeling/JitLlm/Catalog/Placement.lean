import JitLlm.Catalog.Exclusion

/-!
# Resources name live extents, while the count of their ranges fits

What keeps `RemoveExtent` from an extent that a resource is placed in is a count on the extent,
one for each range. It is 32 bits wide and, unlike the counts of leases and registrations, it is
not checked: it wraps. `RangesExact` says what the count is for, and every call keeps it that
does not take the ranges of one extent past the count (`Fits`); `crowd` is a run that does.
-/

namespace JitLlm.Catalog

open Base Lib

variable {c c' : Catalog} {id : ResourceId} {resource : Resource} {e : ExtentId} {l : List ExtentId}
    {g : ExtentRecord → ExtentRecord} {r : ExtentRecord}

/-- The ranges of live resources that name `e`. -/
def rangesOn (c : Catalog) (e : ExtentId) : Nat :=
  c.resources.sum fun resource => (resource.ranges.map Range.extent).count e

def RangesInside (c : Catalog) : Prop := ∀ id resource, c.resources.find? id = some resource →
  ∃ d, ∀ range ∈ resource.ranges, Inside c d range

structure RangesExact (c : Catalog) : Prop where
  counts : ∀ e, c.countAt (·.resources) e = c.rangesOn e
  small : ∀ e, c.rangesOn e < 2 ^ 32
  inside : RangesInside c

def Fits (c : Catalog) (op : Op) : Prop := ∀ ranges, op = .addResource ranges →
  c.checkRanges none ranges = .ok () →
    ∀ e, c.rangesOn e + (ranges.map Range.extent).count e < 2 ^ 32

/-! ## What keeps ranges inside -/

def Named (c c' : Catalog) : Prop := ∀ e r, c.extents.find? e = some r → c.rangesOn e ≠ 0 →
  ∃ r', c'.extents.find? e = some r' ∧ r'.view.descriptor = r.view.descriptor

theorem Inside.named {d : DomainId} {range : Range} (h : Inside c d range)
    (hnamed : ∀ r, c.extents.find? range.extent = some r →
      ∃ r', c'.extents.find? range.extent = some r' ∧ r'.view.descriptor = r.view.descriptor) :
    Inside c' d range := by
  obtain ⟨r, hr, hd, hpos, hle⟩ := h
  obtain ⟨r', hr', hdesc⟩ := hnamed r hr
  exact ⟨r', hr', by rw [hdesc]; exact hd, hpos, by rw [hdesc]; exact hle⟩

theorem rangesOn_ne_zero (hfound : c.resources.find? id = some resource) {range : Range}
    (hmem : range ∈ resource.ranges) : c.rangesOn range.extent ≠ 0 := by
  have hle := SlotTable.le_sum
    (fun resource : Resource => (resource.ranges.map Range.extent).count range.extent) hfound
  have hpos : 0 < (resource.ranges.map Range.extent).count range.extent :=
    List.count_pos_iff.mpr (List.mem_map_of_mem hmem)
  exact Nat.ne_of_gt (Nat.lt_of_lt_of_le hpos hle)

theorem RangesInside.named (h : RangesInside c) (hnamed : Named c c')
    (hfound : c.resources.find? id = some resource) :
    ∃ d, ∀ range ∈ resource.ranges, Inside c' d range := by
  obtain ⟨d, hd⟩ := h id resource hfound
  exact ⟨d, fun range hmem => (hd range hmem).named fun r hr =>
    hnamed _ r hr (rangesOn_ne_zero hfound hmem)⟩

theorem RangesExact.of (h : RangesExact c)
    (hcounts : ∀ e, c'.countAt (·.resources) e = c.countAt (·.resources) e)
    (hres : c'.resources = c.resources) (hnamed : Named c c') : RangesExact c' := by
  have hon : ∀ e, c'.rangesOn e = c.rangesOn e := by
    intro e
    unfold rangesOn
    rw [hres]
  refine ⟨fun e => ?_, fun e => ?_, fun id resource hfound => ?_⟩
  · rw [hcounts, hon, h.counts]
  · rw [hon]
    exact h.small e
  · exact h.inside.named hnamed (hres ▸ hfound)

theorem RangesExact.congr (h : RangesExact c) (hextents : c'.extents = c.extents)
    (hres : c'.resources = c.resources) : RangesExact c' := by
  refine h.of (fun e => ?_) hres fun e r hr _ => ⟨r, hextents ▸ hr, rfl⟩
  unfold countAt
  rw [hextents]

/-! ## Every effect -/

theorem Alters.places {op : Op} {a : Answer} {r r' : ExtentRecord} (h : Alters c op a e r r') :
    r'.view.descriptor = r.view.descriptor ∧ r'.resources = r.resources := by
  cases h <;> exact ⟨rfl, rfl⟩

theorem RangesExact.edit (h : RangesExact c) {r r' : ExtentRecord} (hr : c.extents.find? e = some r)
    (hextents : c'.extents = c.extents.set e r') (hres : c'.resources = c.resources)
    (hsame : r'.view.descriptor = r.view.descriptor ∧ r'.resources = r.resources) :
    RangesExact c' := by
  have hfind : ∀ e', c'.extents.find? e' = if e' = e then some r' else c.extents.find? e' := by
    intro e'
    rw [hextents, SlotTable.find?_set, hr]
    rfl
  refine h.of (fun e' => ?_) hres fun e' r1 hr1 _ => ?_
  · unfold countAt
    rw [hfind]
    split
    next he =>
      rw [he, hr]
      exact hsame.2
    · rfl
  rw [hfind]
  split
  next he =>
    cases hr.symm.trans (he ▸ hr1)
    exact ⟨r', rfl, hsame.1⟩
  · exact ⟨r1, hr1, rfl⟩

theorem Each.named (h : Each c l g c') (hg : ∀ r, (g r).view.descriptor = r.view.descriptor)
    (hr : c.extents.find? e = some r) :
    ∃ r', c'.extents.find? e = some r' ∧ r'.view.descriptor = r.view.descriptor := by
  have hfind := h.find e
  rw [hr, Option.map_some] at hfind
  obtain ⟨r1, hr1, hdesc⟩ := h.keeps hfind
    (P := fun r r' => r'.view.descriptor = r.view.descriptor) (fun _ => rfl)
    fun r r' hp => hp.trans (hg r)
  cases hr.symm.trans hr1
  exact ⟨_, hfind, hdesc⟩

theorem RangesExact.each (h : RangesExact c) (heach : Each c l g c')
    (hg : ∀ r, (g r).view.descriptor = r.view.descriptor ∧ (g r).resources = r.resources) :
    RangesExact c' :=
  h.of (heach.countAt_eq fun r => (hg r).2) heach.rest.resources fun _ _ hr _ =>
    heach.named (fun r => (hg r).1) hr

theorem place_iterate (n : Nat) (r : ExtentRecord) (h : r.resources < 2 ^ 32) :
    (ExtentRecord.place^[n] r).resources = (r.resources + n) % 2 ^ 32 := by
  induction n generalizing r with
  | zero => exact (Nat.mod_eq_of_lt h).symm
  | succ n ih =>
    rw [Function.iterate_succ_apply, ih r.place (Nat.mod_lt _ (by decide))]
    show ((r.resources + 1) % 2 ^ 32 + n) % 2 ^ 32 = _
    rw [Nat.mod_add_mod, Nat.add_right_comm, Nat.add_assoc]

theorem displace_iterate (n : Nat) (r : ExtentRecord) :
    (ExtentRecord.displace^[n] r).resources = r.resources - n := by
  induction n generalizing r with
  | zero => rfl
  | succ n ih =>
    rw [Function.iterate_succ_apply, ih]
    simp only [ExtentRecord.displace]
    omega

theorem RangesExact.addResource (h : RangesExact c) {ranges : List Range}
    {resources : SlotTable .resource Resource} (hchecked : c.checkRanges none ranges = .ok ())
    (hins : c.resources.insert { ranges } = some (id, resources))
    (heach : Each { c with resources } (ranges.map Range.extent) ExtentRecord.place c')
    (hfits : ∀ e, c.rangesOn e + (ranges.map Range.extent).count e < 2 ^ 32) : RangesExact c' := by
  obtain ⟨d, -, hinside⟩ := checkRanges_ok hchecked
  have hon : ∀ e, c'.rangesOn e = c.rangesOn e + (ranges.map Range.extent).count e := by
    intro e
    unfold rangesOn
    rw [heach.rest.resources]
    exact SlotTable.sum_insert _ hins
  have hnamed : ∀ e r, c.extents.find? e = some r →
      ∃ r', c'.extents.find? e = some r' ∧ r'.view.descriptor = r.view.descriptor :=
    fun e r hr => heach.named (fun _ => rfl) hr
  refine ⟨fun e => ?_, fun e => by rw [hon]; exact hfits e, fun id' resource hfound => ?_⟩
  · have hexact := h.counts e
    rw [hon, ← hexact]
    unfold countAt at hexact ⊢
    rw [heach.find]
    cases hr : c.extents.find? e with
    | none =>
      have hcount : (ranges.map Range.extent).count e = 0 := List.count_eq_zero.mpr fun hmem => by
        obtain ⟨range, hrange, rfl⟩ := List.mem_map.mp hmem
        obtain ⟨r, hr', -⟩ := hinside range hrange
        cases hr.symm.trans hr'
      simp [hcount]
    | some r =>
      rw [hr] at hexact
      have hfit := hfits e
      rw [← hexact] at hfit
      simp only [cellVal_some] at hfit
      show (ExtentRecord.place^[_] r).resources = _
      rw [place_iterate _ r (Nat.lt_of_le_of_lt (Nat.le_add_right _ _) hfit), Nat.mod_eq_of_lt hfit]
      rfl
  rw [heach.rest.resources, SlotTable.find?_insert hins] at hfound
  split at hfound
  · cases hfound
    exact ⟨d, fun range hmem => (hinside range hmem).named (hnamed _)⟩
  · exact h.inside.named (fun e r hr _ => hnamed e r hr) hfound

theorem RangesExact.removeResource (h : RangesExact c) {c1 : Catalog}
    (hfound : c.resources.find? id = some resource)
    (heach : Each c (resource.ranges.map Range.extent) ExtentRecord.displace c1) :
    RangesExact { c1 with resources := c.resources.erase id } := by
  have hon : ∀ e, rangesOn { c1 with resources := c.resources.erase id } e
      + (resource.ranges.map Range.extent).count e = c.rangesOn e :=
    fun e => SlotTable.sum_erase _ hfound
  refine ⟨fun e => ?_, fun e => ?_, fun id' resource' hfound' => ?_⟩
  · have hexact := h.counts e
    have hsum := hon e
    unfold countAt at hexact ⊢
    rw [heach.find]
    cases hr : c.extents.find? e with
    | none =>
      rw [hr] at hexact
      simp only [cellVal_none, Option.map_none] at hexact ⊢
      omega
    | some =>
      rw [hr] at hexact
      simp only [cellVal_some, Option.map_some, displace_iterate] at hexact ⊢
      omega
  · have hsum := hon e
    have hsmall := h.small e
    omega
  change (c.resources.erase id).find? id' = some resource' at hfound'
  rw [SlotTable.find?_erase] at hfound'
  split at hfound'
  · cases hfound'
  obtain ⟨d, hd⟩ := h.inside id' resource' hfound'
  exact ⟨d, fun range hmem => (hd range hmem).named fun r hr =>
    heach.named (fun _ => rfl) hr⟩

theorem RangesExact.removeExtent (h : RangesExact c)
    (hr : c.extents.find? e = some r) (hunp : r.resources = 0)
    (hextents : c'.extents = c.extents.erase e) (hres : c'.resources = c.resources) :
    RangesExact c' := by
  have hzero : c.countAt (·.resources) e = 0 := by
    unfold countAt
    rw [hr]
    exact hunp
  refine h.of (fun e' => ?_) hres fun e' r' hr' hnamed => ?_
  · unfold countAt at hzero ⊢
    rw [hextents, SlotTable.find?_erase]
    split
    next he =>
      rw [he, hzero]
      rfl
    · rfl
  have hne : e' ≠ e := fun he => hnamed (by rw [he, ← h.counts, hzero])
  rw [hextents, SlotTable.find?_erase, if_neg hne]
  exact ⟨r', hr', rfl⟩

theorem RangesExact.effect (h : RangesExact c) {op : Op} {a : Answer}
    (heff : Effect c op a c') (hfits : Fits c op) : RangesExact c' := by
  cases heff with
  | refused => exact h
  | addDomain name id hextents hrest => exact h.congr hextents hrest.resources
  | addExtent resident hins hextents hrest =>
    have hfind := find_added hins hextents
    have hfresh := SlotTable.find?_insert_fresh hins
    refine h.of (fun e => ?_) hrest.resources fun e r hr _ => ?_
    · unfold countAt
      rw [hfind]
      split
      next he =>
        rw [he, hfresh]
        rfl
      · rfl
    rw [hfind, if_neg fun he => absurd (hfresh.symm.trans (he ▸ hr)) (by simp)]
    exact ⟨r, hr, rfl⟩
  | removeExtent hr _ hunp hextents hrest =>
    exact h.removeExtent hr hunp hextents hrest.resources
  | alter hr halt hedit => exact h.edit hr hedit.extents hedit.resources halt.places
  | addResource hchecked hins heach =>
    exact h.addResource hchecked hins heach (hfits _ rfl hchecked)
  | removeResource hfound heach hafter =>
    subst hafter
    exact h.removeResource hfound heach
  | acquireLease _ _ heach =>
    refine RangesExact.each ?_ heach fun r => ⟨rfl, rfl⟩
    exact h.congr rfl rfl
  | releaseLease _ heach hafter =>
    subst hafter
    exact (h.each heach fun r => ⟨rfl, rfl⟩).congr rfl rfl
  | recordUse tick _ heach => exact h.each heach fun r => ⟨rfl, rfl⟩
  | addRegistration hr _ _ hedit =>
    exact h.edit hr hedit.extents hedit.resources ⟨rfl, rfl⟩
  | retireRegistration _ hr _ hedit hafter =>
    subst hafter
    exact h.edit hr hedit.extents hedit.resources ⟨rfl, rfl⟩

/-! ## Runs -/

inductive FittingReachable : Catalog → Prop
  | start : FittingReachable {}
  | step {c c' : Catalog} (op : Op) : FittingReachable c → Fits c op → op.run c = .ok c' →
      FittingReachable c'

theorem RangesExact.start : RangesExact {} :=
  ⟨fun _ => by simp [countAt, rangesOn, SlotTable.find?, SlotTable.empty, SlotTable.sum],
    fun _ => by simp [rangesOn, SlotTable.empty, SlotTable.sum],
    fun _ _ h => by simp [SlotTable.find?, SlotTable.empty] at h⟩

theorem FittingReachable.ranges (h : FittingReachable c) : RangesExact c := by
  induction h with
  | start => exact .start
  | step op _ hfits hrun ih =>
    obtain ⟨a, hcall⟩ := Op.call_of_run hrun
    exact ih.effect ((call_does op).val hcall) hfits

/-- No resource dangles: its ranges lie in live extents of one domain, an extent that is removed
    is one no resource names, and no resource is found placed in a missing extent. -/
structure Undangling (c : Catalog) : Prop where
  inside : RangesInside c
  removed : ∀ e c', Op.call c (.removeExtent e) = .ok (.done, c') →
    ∀ id resource, c.resources.find? id = some resource →
      ∀ range ∈ resource.ranges, range.extent ≠ e
  placed : ∀ op, Op.call c op ≠ .error .missingExtent

theorem RangesExact.undangling (h : RangesExact c) : Undangling c := by
  refine ⟨h.inside, fun e c' hcall id resource hfound range hmem he => ?_, fun op hcall => ?_⟩
  · cases (call_does (.removeExtent e)).val hcall with
    | alter _ halt => cases halt
    | removeExtent hr _ hunp =>
      have hcounts := h.counts e
      unfold countAt at hcounts
      rw [hr] at hcounts
      exact rangesOn_ne_zero hfound hmem (by rw [he, ← hcounts]; exact hunp)
  refine ((call_does op).err hcall).resource rfl fun id resource hfound e => ?_
  rw [h.counts]
  exact SlotTable.le_sum
    (fun resource : Resource => (resource.ranges.map Range.extent).count e) hfound

/-- **No resource dangles in a run whose calls all fit**: in every catalog it leads to, every range
    of a live resource is inside a live extent, and the removals and checks to come respect it. -/
theorem fitting_undangling (h : FittingReachable c) : Undangling c := h.ranges.undangling

/-! ## Crowding one extent -/

theorem checkRanges_of_inside {d : DomainId} : ∀ {domain : Option DomainId} {ranges : List Range},
    (domain = none ∨ domain = some d) → (∀ range ∈ ranges, Inside c d range) →
      c.checkRanges domain ranges = .ok ()
  | _, [], _, _ => rfl
  | domain, range :: rest, hd, h => by
    obtain ⟨r, hr, hdom, hpos, hle⟩ := h range List.mem_cons_self
    have hplus : range.offset.plus range.length = some
        ⟨range.offset.value + range.length.value, hle.trans r.view.descriptor.size.bound⟩ :=
      Bytes.plus_eq_some.mpr rfl
    have hlen : range.length ≠ Bytes.zero := fun hz => by
      rw [hz] at hpos
      exact absurd hpos (Nat.lt_irrefl 0)
    have hsame : ¬ (domain.isSome = true ∧ domain ≠ some r.view.descriptor.domain) := by
      rintro ⟨hsome, hne⟩
      rcases hd with rfl | rfl
      · cases hsome
      · exact hne (by rw [hdom])
    unfold checkRanges
    simp only [hr, hplus]
    rw [if_neg (by simp [hlen, hle]), if_neg hsame, hdom]
    exact checkRanges_of_inside (Or.inr rfl) fun range' hmem =>
      h range' (List.mem_cons_of_mem _ hmem)

def crowded : Range := ⟨⟨0, 1⟩, Bytes.zero, ⟨1, by decide⟩⟩

def crowdedDescriptor : ExtentDescriptor :=
  { domain := ⟨0, 1⟩, memoryClass := .weights, recovery := .fromArtifact, size := ⟨1, by decide⟩ }

/-- A catalog whose one extent is the byte `crowded`, nonresident. -/
def uncrowded : List Op := [.addDomain "device", .addExtent crowdedDescriptor false]

theorem uncrowded_runs : ∃ c, runAll {} uncrowded = .ok c ∧ FittingReachable c ∧
    c.resources = .empty ∧ c.extents.find? ⟨0, 1⟩ = some (.fresh crowdedDescriptor false) := by
  have hdom : FittingReachable (Catalog.addDomain {} "device").2 :=
    .step (.addDomain "device") .start (fun _ heq => absurd heq (by simp)) rfl
  exact ⟨_, rfl, .step (.addExtent crowdedDescriptor false) hdom
    (fun _ heq => absurd heq (by simp)) rfl, rfl, rfl⟩

theorem crowd_runs (hc : c.resources = .empty)
    (hr : c.extents.find? ⟨0, 1⟩ = some (.fresh crowdedDescriptor false)) {n : Nat} (hn : 0 < n) :
    ∃ c' id r, Op.run c (.addResource (List.replicate n crowded)) = .ok c' ∧
      c'.resources.find? id = some { ranges := List.replicate n crowded } ∧
      c'.extents.find? ⟨0, 1⟩ = some r ∧ r.view.state = .nonresident ∧
      r.resources = n % 2 ^ 32 := by
  have hinside : ∀ range ∈ List.replicate n crowded, Inside c ⟨0, 1⟩ range := by
    intro range hmem
    rw [List.eq_of_mem_replicate hmem]
    exact ⟨_, hr, rfl, Nat.one_pos, Nat.le_refl 1⟩
  have hchecked := checkRanges_of_inside (Or.inl rfl) hinside
  obtain ⟨id, resources, hins⟩ : ∃ id resources,
      c.resources.insert { ranges := List.replicate n crowded } = some (id, resources) := by
    rw [hc]
    exact ⟨_, _, rfl⟩
  have hwalk := placeResources_each (List.replicate n crowded) { c with resources }
    fun range hmem => by
      obtain ⟨r, hr', -⟩ := hinside range hmem
      exact ⟨r, hr'⟩
  have hne : (List.replicate n crowded).isEmpty = false := by
    obtain ⟨k, rfl⟩ := Nat.exists_eq_succ_of_ne_zero (Nat.ne_of_gt hn)
    rfl
  rcases hfold : (List.replicate n crowded).foldlM placeResource { c with resources } with _ | c'
  · exact (hwalk.err hfold).elim
  have heach := hwalk.val hfold
  have hcount : ((List.replicate n crowded).map Range.extent).count ⟨0, 1⟩ = n := by
    rw [List.map_replicate]
    exact List.count_replicate_self
  have hfind := heach.find ⟨0, 1⟩
  rw [hcount, hr, Option.map_some] at hfind
  refine ⟨c', id, _, ?_, ?_, hfind, ?_, ?_⟩
  · show forget (c.addResource (List.replicate n crowded)) = .ok c'
    simp only [addResource, hne, hchecked, hins, hfold]
    rfl
  · rw [heach.rest.resources]
    exact (SlotTable.find?_insert hins id).trans (if_pos rfl)
  · obtain ⟨r, hr', hstate⟩ := heach.keeps hfind
      (P := fun r r' => r'.view.state = r.view.state) (fun _ => rfl) fun _ _ hp => hp
    cases hr.symm.trans hr'
    exact hstate
  rw [place_iterate n _ (by decide)]
  exact congrArg (· % 2 ^ 32) (Nat.zero_add n)

theorem fitting_undangling_twice : ∃ c c', runAll {} uncrowded = .ok c ∧
      Op.run c (.addResource (List.replicate 2 crowded)) = .ok c' ∧ Undangling c' := by
  obtain ⟨c, hrun, hreach, hempty, hfind⟩ := uncrowded_runs
  obtain ⟨c', id, r, hadd, -⟩ := crowd_runs hempty hfind (n := 2) (by decide)
  refine ⟨c, c', hrun, hadd, fitting_undangling (hreach.step _ (fun ranges heq _ e => ?_) hadd)⟩
  have hnone : c.rangesOn e = 0 := by
    unfold rangesOn
    rw [hempty]
    rfl
  cases heq
  rw [hnone]
  exact Nat.lt_of_le_of_lt (Nat.add_le_add_left List.count_le_length 0) (by decide)

theorem removeExtent_accepts (hl : Ledger c)
    (hr : c.extents.find? e = some r) (hstate : r.view.state = .nonresident)
    (hzero : r.resources = 0) : ∃ c', Op.call c (.removeExtent e) = .ok (.done, c') := by
  obtain ⟨domain, hdom⟩ := hl.placed e r hr
  have hle : r.view.descriptor.size.value ≤ domain.registered.value := by
    rw [(hl.exact _ domain hdom).registered]
    have hsum := SlotTable.le_sum (weight r.view.descriptor.domain fun _ => true) hr
    simpa [weight, bytesOf] using hsum
  refine ⟨{ c with
    domains := c.domains.set r.view.descriptor.domain { domain with
      registered := ⟨domain.registered.value - r.view.descriptor.size.value,
        (Nat.sub_le _ _).trans domain.registered.bound⟩ }
    extents := c.extents.erase e }, ?_⟩
  simp only [Op.call, removeExtent, hr, hstate, hzero, hdom, subtract_eq hle]
  rfl

/-- **2^32 ranges of one extent leave its count at zero**, and `RemoveExtent` accepts it while the
    resource still names it. -/
theorem crowded_dangles : ¬ ∀ c, Reachable c → Undangling c := by
  intro hall
  obtain ⟨c, hrun, -, hempty, hfind⟩ := uncrowded_runs
  obtain ⟨c', id, r, hadd, hres, hr, hstate, hzero⟩ :=
    crowd_runs hempty hfind (n := 2 ^ 32) (by decide)
  have hreach : Reachable c' := (Reachable.start.runAll hrun).step _ hadd
  have hund := hall c' hreach
  obtain ⟨c'', hcall⟩ := removeExtent_accepts hreach.ledger hr hstate hzero
  refine hund.removed _ c'' hcall id _ hres crowded ?_ rfl
  exact List.mem_replicate.mpr ⟨by decide, rfl⟩

end JitLlm.Catalog
