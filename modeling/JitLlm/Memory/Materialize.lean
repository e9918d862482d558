import JitLlm.Memory.Victims
import JitLlm.Catalog.Proceeds
import JitLlm.Catalog.Contents

/-!
# `memory/materialize.h`, `materialize.cc` — planning a closure's materialization

`PlanMaterialization` sorts a closure's extents in a domain by what they need, adds up the bytes that
are missing, and chooses victims for what does not fit the budget. A feasible plan can be carried
out in any order: its victims are evicted, and once they are gone its loads begin, each within the
budget. What a begun operation of an extent can fail on is only a counter of 64 bits at its end.
-/

namespace JitLlm.Memory

open Base Lib Catalog List

structure MaterializationPlan where
  load : List ExtentId := []
  loading : List ExtentId := []
  cancel : List ExtentId := []
  quarantined : List ExtentId := []
  stale : List ExtentId := []
  missing : Bytes := Bytes.zero
  shortfall : Bytes := Bytes.zero
  victims : VictimPlan := {}
  feasible : Bool := false
  ready : Bool := false

/-- The loop's step for one extent of the closure; the second part is `overflow`. -/
def classify (c : Catalog) (domain : Catalog.DomainId) (soFar : MaterializationPlan × Bool)
    (entry : ExtentId × Nat) : MaterializationPlan × Bool :=
  let plan := soFar.1
  match c.describe entry.1 with
  | .error _ => ({ plan with stale := plan.stale ++ [entry.1] }, soFar.2)
  | .ok view =>
    if view.descriptor.domain ≠ domain then soFar
    else if view.contentGeneration ≠ entry.2 ∨ view.discarded then
      ({ plan with stale := plan.stale ++ [entry.1] }, soFar.2)
    else match view.state with
      | .resident => soFar
      | .nonresident =>
        let missing := plan.missing.plus view.descriptor.size
        ({ plan with load := plan.load ++ [entry.1], missing := missing.getD plan.missing },
          soFar.2 || missing.isNone)
      | .loading => ({ plan with loading := plan.loading ++ [entry.1] }, soFar.2)
      | .evicting => ({ plan with cancel := plan.cancel ++ [entry.1] }, soFar.2)
      | .quarantined => ({ plan with quarantined := plan.quarantined ++ [entry.1] }, soFar.2)

def planMaterialization (c : Catalog) (domain : Catalog.DomainId) (budget : Bytes)
    (closure : Closure) (protect : List ExtentId) : Checked MaterializationPlan := do
  let keep := protect ++ closure.extents.map Prod.fst
  let (plan, overflow) := closure.extents.foldl (classify c domain) ({}, false)
  let total ← (c.occupancyOf domain).total
  match total.plus plan.missing with
  | none => return plan
  | some after =>
    if overflow then return plan
    else
      let plan :=
        if after.value > budget.value then
          let shortfall := (after.minus budget).getD Bytes.zero
          { plan with shortfall, victims := selectVictims c domain shortfall keep }
        else plan
      let feasible := plan.quarantined.isEmpty && plan.stale.isEmpty &&
        (plan.shortfall = Bytes.zero || plan.victims.sufficient)
      return { plan with
        feasible
        ready := feasible && plan.load.isEmpty && plan.loading.isEmpty && plan.cancel.isEmpty }

/-! ## The closure -/

variable {c : Catalog} {d : Catalog.DomainId} {closure : Closure} {entries : List (ExtentId × Nat)}
    {budget : Bytes} {protect : List ExtentId} {plan : MaterializationPlan}

theorem gather_extents : ∀ {rest : List ExtentId} {closure closure' : Closure},
    c.gather closure rest = .ok (.ok closure') →
      closure'.extents.map Prod.fst = closure.extents.map Prod.fst ++ rest := by
  intro rest
  induction rest with
  | nil =>
    intro closure closure' h
    cases h
    rw [append_nil]
  | cons e rest ih =>
    intro closure closure' h
    unfold gather at h
    split at h
    · cases h
    obtain ⟨bytes, -, h⟩ := bind_ok h
    rw [ih h, map_append, append_assoc]
    rfl

theorem closureOf_nodup {resources : List ResourceId}
    (h : c.closureOf resources = .ok (.ok closure)) : (closure.extents.map Prod.fst).Nodup := by
  unfold closureOf at h
  split at h
  · cases h
  rename_i extents _
  rw [gather_extents h]
  exact sortUnique_nodup extents

def loads (c : Catalog) (d : Catalog.DomainId) (entry : ExtentId × Nat) : Bool :=
  match c.extents.find? entry.1 with
  | none => false
  | some record => record.view.descriptor.domain = d ∧ record.view.contentGeneration = entry.2 ∧
      record.view.discarded = false ∧ record.view.state = .nonresident

theorem loads_iff {entry : ExtentId × Nat} : loads c d entry = true ↔
    ∃ r, c.extents.find? entry.1 = some r ∧ r.view.descriptor.domain = d ∧
      r.view.contentGeneration = entry.2 ∧ r.view.discarded = false ∧ r.view.state = .nonresident := by
  unfold loads
  split
  next hr =>
    simp [hr]
  rename_i r hr
  simp [hr]

def loadsOf (c : Catalog) (d : Catalog.DomainId) (entries : List (ExtentId × Nat)) :
    List ExtentId :=
  (entries.filter (loads c d)).map Prod.fst

structure Classified (c : Catalog) (d : Catalog.DomainId) (entries : List (ExtentId × Nat))
    (plan plan' : MaterializationPlan) : Prop where
  load : plan'.load = plan.load ++ loadsOf c d entries
  missing : plan'.missing.value = plan.missing.value + c.sizesAt (loadsOf c d entries)
  shortfall : plan'.shortfall = plan.shortfall
  victims : plan'.victims = plan.victims
  clean : (∀ entry ∈ entries, loads c d entry = true) →
    plan'.stale = plan.stale ∧ plan'.quarantined = plan.quarantined

theorem classify_one (entry : ExtentId × Nat) (plan : MaterializationPlan)
    (hrange : plan.missing.value + c.sizesAt (loadsOf c d [entry]) ≤ uint64Max) :
    ∃ plan', classify c d (plan, false) entry = (plan', false) ∧ Classified c d [entry] plan plan' := by
  have hnot : loads c d entry = false → loadsOf c d [entry] = [] := by
    intro hno
    unfold loadsOf
    rw [filter_cons, hno]
    rfl
  have hkeep : ∀ {plan' : MaterializationPlan}, loads c d entry = false →
      plan'.load = plan.load → plan'.missing = plan.missing → plan'.shortfall = plan.shortfall →
      plan'.victims = plan.victims → Classified c d [entry] plan plan' := by
    intro plan' hno hload hmis hshor hvic
    refine ⟨?_, ?_, hshor, hvic, ?_⟩
    · rw [hnot hno, append_nil, hload]
    · rw [hnot hno, hmis]
      rfl
    intro hall
    rw [hall entry mem_cons_self] at hno
    cases hno
  unfold classify describe
  rcases hr : c.extents.find? entry.1 with _ | r
  · have hno : loads c d entry = false := by simp [loads, hr]
    exact ⟨_, rfl, hkeep hno rfl rfl rfl rfl⟩
  simp only
  by_cases hd : r.view.descriptor.domain = d
  · rw [if_neg (by simp [hd])]
    by_cases hstale : r.view.contentGeneration ≠ entry.2 ∨ r.view.discarded = true
    · have hno : loads c d entry = false := by
        simp only [loads, hr, decide_eq_false_iff_not]
        rintro ⟨-, hg, hdis, -⟩
        rcases hstale with hne | hyes
        · exact hne hg
        rw [hdis] at hyes
        cases hyes
      rw [if_pos hstale]
      exact ⟨_, rfl, hkeep hno rfl rfl rfl rfl⟩
    rw [if_neg hstale]
    simp only [not_or, ne_eq, not_not, Bool.not_eq_true] at hstale
    have hother : r.view.state ≠ .nonresident → loads c d entry = false := by
      intro hs
      simp only [loads, hr, decide_eq_false_iff_not]
      exact fun hall => hs hall.2.2.2
    cases hs : r.view.state with
    | nonresident =>
      have hyes : loads c d entry = true := loads_iff.mpr ⟨r, hr, hd, hstale.1, hstale.2, hs⟩
      have hone : loadsOf c d [entry] = [entry.1] := by
        unfold loadsOf
        rw [filter_cons, if_pos hyes]
        rfl
      have hsize : c.sizesAt [entry.1] = r.view.descriptor.size.value := by
        rw [sizesAt_cons, sizeAt_of_find hr]
        rfl
      rw [hone, hsize] at hrange
      have hplus : plan.missing.plus r.view.descriptor.size = some ⟨_, hrange⟩ := dif_pos hrange
      simp only [hplus, Option.getD_some, Option.isNone_some, Bool.or_false]
      refine ⟨_, rfl, ?_, ?_, rfl, rfl, fun _ => ⟨rfl, rfl⟩⟩
      · rw [hone]
      · rw [hone, hsize]
    | resident | loading | evicting | quarantined =>
      exact ⟨_, rfl, hkeep (hother (by simp [hs])) rfl rfl rfl rfl⟩
  have hno : loads c d entry = false := by
    simp only [loads, hr, decide_eq_false_iff_not]
    exact fun hall => hd hall.1
  rw [if_pos hd]
  exact ⟨_, rfl, hkeep hno rfl rfl rfl rfl⟩

theorem loadsOf_cons (entry : ExtentId × Nat) (entries : List (ExtentId × Nat)) :
    loadsOf c d (entry :: entries) = loadsOf c d [entry] ++ loadsOf c d entries := by
  unfold loadsOf
  rw [← map_append, ← filter_append]
  rfl

theorem foldl_classify : ∀ (entries : List (ExtentId × Nat)) (plan : MaterializationPlan),
    plan.missing.value + c.sizesAt (loadsOf c d entries) ≤ uint64Max →
    ∃ plan', entries.foldl (classify c d) (plan, false) = (plan', false) ∧
      Classified c d entries plan plan' := by
  intro entries
  induction entries with
  | nil =>
    intro plan _
    refine ⟨plan, rfl, ?_, ?_, rfl, rfl, fun _ => ⟨rfl, rfl⟩⟩
    · exact (append_nil _).symm
    · rfl
  | cons entry rest ih =>
    intro plan hrange
    have happ : c.sizesAt (loadsOf c d (entry :: rest)) =
        c.sizesAt (loadsOf c d [entry]) + c.sizesAt (loadsOf c d rest) := by
      rw [loadsOf_cons entry rest]
      simp [sizesAt]
    obtain ⟨plan1, hone, hload1, hmis1, hshor1, hvic1, hclean1⟩ :=
      classify_one (c := c) (d := d) entry plan (by omega)
    obtain ⟨plan', hrest, hload, hmis, hshor, hvic, hclean⟩ := ih plan1 (by omega)
    refine ⟨plan', ?_, ?_, ?_, hshor.trans hshor1, hvic.trans hvic1, ?_⟩
    · rw [foldl_cons, hone, hrest]
    · rw [hload, hload1, loadsOf_cons entry rest, append_assoc]
    · rw [hmis, hmis1, happ]
      omega
    intro hall
    have hhead := hclean1 fun x hx => hall x (by
      rw [mem_singleton.mp hx]
      exact mem_cons_self)
    have htail := hclean fun x hx => hall x (mem_cons_of_mem _ hx)
    exact ⟨htail.1.trans hhead.1, htail.2.trans hhead.2⟩

/-! ## The plan -/

theorem mem_loadsOf {e : ExtentId} (h : e ∈ loadsOf c d entries) :
    e ∈ entries.map Prod.fst ∧ ∃ r, c.extents.find? e = some r ∧ r.view.descriptor.domain = d ∧
      r.view.state = .nonresident := by
  obtain ⟨entry, hentry, rfl⟩ := mem_map.mp h
  obtain ⟨hmem, hloads⟩ := mem_filter.mp hentry
  obtain ⟨r, hr, hd, -, -, hs⟩ := loads_iff.mp hloads
  exact ⟨mem_map_of_mem hmem, r, hr, hd, hs⟩

theorem loadsOf_nodup (hn : (entries.map Prod.fst).Nodup) :
    (loadsOf c d entries).Nodup := hn.sublist (List.filter_sublist.map _)

theorem occupied_and_missing (hl : Ledger c) (hn : (entries.map Prod.fst).Nodup) :
    bytesOf c d occupies + c.sizesAt (loadsOf c d entries) ≤ uint64Max := by
  have hmis : c.sizesAt (loadsOf c d entries) ≤ bytesOf c d fun v => !occupies v := by
    refine Nat.le_trans (Nat.le_of_eq ?_)
      (sumOver_le (weight d fun v => !occupies v) _ c.extents (loadsOf_nodup (c := c) (d := d) hn))
    refine congrArg List.sum (map_congr_left ?_)
    intro e he
    obtain ⟨-, r, hr, hd, hs⟩ := mem_loadsOf he
    rw [sizeAt_of_find hr, hr]
    simp [weight, hd, hs, occupies]
  have hsum : bytesOf c d occupies + bytesOf c d (fun v => !occupies v) =
      bytesOf c d fun _ => true := by
    unfold bytesOf
    rw [← SlotTable.sum_add]
    refine SlotTable.sum_congr ?_
    intro id r _
    by_cases hd : r.view.descriptor.domain = d
    · cases ho : occupies r.view <;> simp [weight, hd, ho]
    · simp [weight, hd]
  have hreg := registered_le hl d
  omega

structure Planned (c : Catalog) (d : Catalog.DomainId) (budget : Bytes) (closure : Closure)
    (protect : List ExtentId) (plan : MaterializationPlan) : Prop where
  load : plan.load = loadsOf c d closure.extents
  missing : plan.missing.value = c.sizesAt plan.load
  shortfall : plan.shortfall.value = bytesOf c d occupies + plan.missing.value - budget.value
  victims : plan.victims = if plan.shortfall.value = 0 then {}
    else selectVictims c d plan.shortfall (protect ++ closure.extents.map Prod.fst)
  feasible : plan.feasible = true ↔ plan.quarantined = [] ∧ plan.stale = [] ∧
    (plan.shortfall.value = 0 ∨ plan.victims.sufficient = true)
  clean : (∀ entry ∈ closure.extents, loads c d entry = true) →
    plan.stale = [] ∧ plan.quarantined = []

theorem planMaterialization_spec (hl : Ledger c) (d : Catalog.DomainId) (budget : Bytes)
    (hn : (closure.extents.map Prod.fst).Nodup) (protect : List ExtentId) :
    ∃ plan, planMaterialization c d budget closure protect = .ok plan ∧
      Planned c d budget closure protect plan := by
  have hrange := occupied_and_missing (d := d) hl hn
  obtain ⟨plan, hfold, hload, hmis, hshor, hvic, hclean⟩ :=
    foldl_classify (c := c) (d := d) closure.extents {} (by
      rw [Bytes.zero_value]
      omega)
  obtain ⟨total, htotal, hvalue⟩ := hl.total d
  simp only [List.nil_append, Bytes.zero_value, Nat.zero_add] at hload hmis hshor hvic
  have hsum : total.value + plan.missing.value ≤ uint64Max := by
    rw [hvalue, hmis]
    exact hrange
  have hplus : total.plus plan.missing = some ⟨_, hsum⟩ := dif_pos hsum
  have hmis' : plan.missing.value = c.sizesAt plan.load := by rw [hload, hmis]
  unfold planMaterialization
  simp only [hfold, htotal, ok_bind, hplus, Bool.false_eq_true, if_false]
  by_cases hover : total.value + plan.missing.value > budget.value
  · have hminus : (⟨total.value + plan.missing.value, hsum⟩ : Bytes).minus budget =
        some ⟨total.value + plan.missing.value - budget.value, (Nat.sub_le _ _).trans hsum⟩ :=
      if_neg (by simp only; omega)
    simp only [hover, if_true, hminus, Option.getD_some]
    refine ⟨_, rfl, hload, hmis', ?_, ?_, ?_, hclean⟩
    · simp only
      rw [hvalue]
    · simp only
      rw [if_neg (by omega)]
    simp only [Bool.and_eq_true, List.isEmpty_iff, Bool.or_eq_true, decide_eq_true_eq, and_assoc,
      Bytes.ext_iff, Bytes.zero_value]
  simp only [hover, if_false]
  refine ⟨_, rfl, hload, hmis', ?_, ?_, ?_, hclean⟩
  · simp only [hshor, Bytes.zero_value]
    omega
  · simp only [hshor, hvic, Bytes.zero_value, if_true]
  simp only [Bool.and_eq_true, List.isEmpty_iff, Bool.or_eq_true, decide_eq_true_eq, and_assoc,
    Bytes.ext_iff, Bytes.zero_value]

/-! ## Carrying a plan out -/

def MaterializationPlan.evicts (plan : MaterializationPlan) : List ExtentId :=
  plan.victims.victims.map Victim.extent

theorem selectVictims_evicts (hl : Ledger c) (d : Catalog.DomainId) (needed : Bytes)
    (protect : List ExtentId) :
    ((selectVictims c d needed protect).victims.map Victim.extent).Nodup ∧
      (∀ e ∈ (selectVictims c d needed protect).victims.map Victim.extent,
        ∃ r, c.extents.find? e = some r ∧ r.view.descriptor.domain = d ∧
          evictable r.view = true ∧ e ∉ protect) ∧
      ((selectVictims c d needed protect).sufficient = true →
        needed.value ≤
          c.sizesAt ((selectVictims c d needed protect).victims.map Victim.extent)) := by
  obtain ⟨n, -, hvic, -, -, -, hend, hsuf⟩ := selectVictims_spec hl d needed protect
  have hids : (selectVictims c d needed protect).victims.map Victim.extent =
      ((victimOrder c d protect).take n).map Prod.fst := by
    rw [hvic, map_map]
    rfl
  have hfound : ∀ p ∈ (victimOrder c d protect).take n, ∃ r, c.extents.find? p.1 = some r ∧
      r.view = p.2 ∧ r.view.descriptor.domain = d ∧ evictable r.view = true ∧ p.1 ∉ protect := by
    rintro ⟨e, view⟩ hp
    obtain ⟨⟨r, hr, rfl⟩, hd, hevi, hprot⟩ := mem_victimOrder.mp (mem_of_mem_take hp)
    exact ⟨r, hr, rfl, hd, hevi, hprot⟩
  rw [hids]
  refine ⟨(victimOrder_nodup c d protect).sublist ((take_sublist _ _).map _), ?_, ?_⟩
  · intro e he
    obtain ⟨p, hp, rfl⟩ := mem_map.mp he
    obtain ⟨r, hr, -, hd, hevi, hprot⟩ := hfound p hp
    exact ⟨r, hr, hd, hevi, hprot⟩
  intro hyes
  have htotal : c.sizesAt (((victimOrder c d protect).take n).map Prod.fst) =
      total ((victimOrder c d protect).take n) := by
    unfold sizesAt total
    rw [map_map]
    refine congrArg List.sum (map_congr_left ?_)
    intro p hp
    obtain ⟨r, hr, hview, -⟩ := hfound p hp
    show c.sizeAt p.1 = _
    rw [sizeAt_of_find hr, hview]
  rw [htotal]
  have hall := hsuf.mp hyes
  rcases hend with hcov | rfl
  · exact hcov
  rw [take_length]
  exact hall

theorem Planned.evicts (hp : Planned c d budget closure protect plan) (hl : Ledger c) :
    plan.evicts.Nodup ∧
      (∀ e ∈ plan.evicts, ∃ r, c.extents.find? e = some r ∧ r.view.descriptor.domain = d ∧
        evictable r.view = true ∧ e ∉ closure.extents.map Prod.fst ∧ e ∉ protect) ∧
      (plan.feasible = true → bytesOf c d occupies + c.sizesAt plan.load ≤
        budget.value + c.sizesAt plan.evicts) := by
  have hshor := hp.shortfall
  have hmis := hp.missing
  unfold MaterializationPlan.evicts
  rw [hp.victims]
  split
  · refine ⟨nodup_nil, ?_, ?_⟩
    · intro e he
      cases he
    intro _
    omega
  rename_i hover
  obtain ⟨hnodup, hmem, hcover⟩ := selectVictims_evicts hl d plan.shortfall
    (protect ++ closure.extents.map Prod.fst)
  refine ⟨hnodup, ?_, ?_⟩
  · intro e he
    obtain ⟨r, hr, hd, hevi, hkeep⟩ := hmem e he
    rw [mem_append, not_or] at hkeep
    exact ⟨r, hr, hd, hevi, hkeep.2, hkeep.1⟩
  intro hfeas
  have hsuf := (hp.feasible.mp hfeas).2.2.resolve_left hover
  rw [hp.victims, if_neg hover] at hsuf
  have hcov := hcover hsuf
  omega

def Spare (r : ExtentRecord) : Prop :=
  r.operations < uint64Max ∧ r.view.backingGeneration < uint64Max ∧
    (r.view.descriptor.recovery ≠ .fromArtifact → r.view.contentGeneration < uint64Max)

theorem Planned.fits (hp : Planned c d budget closure protect plan) (hl : Ledger c)
    (hfeas : plan.feasible = true) {c1 : Catalog} (hcleared : Cleared c d plan.evicts c1 [] []) :
    (∀ e ∈ plan.load, c1.extents.find? e = c.extents.find? e) ∧
      bytesOf c1 d occupies + c1.sizesAt plan.load ≤ budget.value := by
  obtain ⟨-, hevi, hcover⟩ := hp.evicts hl
  have hsame : ∀ e ∈ plan.load, c1.extents.find? e = c.extents.find? e := by
    intro e he
    refine hcleared.others e ?_
    intro hvic
    rw [hp.load] at he
    obtain ⟨r, -, -, -, hnot, -⟩ := hevi e hvic
    exact hnot (mem_loadsOf he).1
  have hsizes : c1.sizesAt plan.load = c.sizesAt plan.load := by
    refine congrArg List.sum (map_congr_left ?_)
    intro e he
    unfold sizeAt
    rw [hsame e he]
  refine ⟨hsame, ?_⟩
  have hbytes := hcleared.bytes
  have hfree := hcover hfeas
  simp only [sizesAt, map_nil, sum_nil, Nat.add_zero] at hbytes hfree hsizes ⊢
  omega

theorem sum_le_of_mem {α : Type} [DecidableEq α] (f : α → Nat) : ∀ {l l' : List α}, l.Nodup →
    (∀ a ∈ l, f a ≠ 0 → a ∈ l') → (l.map f).sum ≤ (l'.map f).sum := by
  intro l
  induction l with
  | nil =>
    intro l' _ _
    exact Nat.zero_le _
  | cons a rest ih =>
    intro l' hn hmem
    obtain ⟨hnot, hrest⟩ := nodup_cons.mp hn
    rw [map_cons, sum_cons]
    by_cases hzero : f a = 0
    · have hle := ih hrest fun b hb => hmem b (mem_cons_of_mem _ hb)
      omega
    have hperm := perm_cons_erase (hmem a mem_cons_self hzero)
    rw [(hperm.map f).sum_eq, map_cons, sum_cons]
    refine Nat.add_le_add_left (ih hrest ?_) _
    intro b hb hb0
    have hne : b ≠ a := fun heq => hnot (heq ▸ hb)
    exact (mem_erase_of_ne hne).mpr (hmem b (mem_cons_of_mem _ hb) hb0)

def held (c : Catalog) (d : Catalog.DomainId) (l : List ExtentId) : Nat :=
  (l.map fun e => cellVal (weight d fun _ => true) (c.extents.find? e)).sum

theorem Planned.insufficient (hp : Planned c d budget closure protect plan) (hl : Ledger c)
    (hfeas : plan.feasible = false) (hstale : plan.stale = []) (hquar : plan.quarantined = [])
    {l : List ExtentId} (hn : l.Nodup)
    (hmem : ∀ e ∈ l, ∃ r, c.extents.find? e = some r ∧ evictable r.view = true ∧
      e ∉ closure.extents.map Prod.fst ∧ e ∉ protect) :
    budget.value + held c d l < bytesOf c d occupies + plan.missing.value := by
  have hno : ¬ (plan.shortfall.value = 0 ∨ plan.victims.sufficient = true) := by
    intro hyes
    have htrue := hp.feasible.mpr ⟨hquar, hstale, hyes⟩
    rw [hfeas] at htrue
    cases htrue
  rw [not_or] at hno
  obtain ⟨hover, hnot⟩ := hno
  rw [hp.victims, if_neg hover] at hnot
  obtain ⟨-, -, -, -, -, -, -, hsuf⟩ :=
    selectVictims_spec hl d plan.shortfall (protect ++ closure.extents.map Prod.fst)
  rw [hsuf, Nat.not_le] at hnot
  have htotal : (((victimOrder c d (protect ++ closure.extents.map Prod.fst)).map Prod.fst).map
      fun e => cellVal (weight d fun _ => true) (c.extents.find? e)).sum =
      total (victimOrder c d (protect ++ closure.extents.map Prod.fst)) := by
    rw [map_map]
    refine congrArg List.sum (map_congr_left ?_)
    rintro ⟨e, view⟩ he
    obtain ⟨⟨r, hr, rfl⟩, hd, -⟩ := mem_victimOrder.mp he
    show cellVal _ (c.extents.find? e) = _
    rw [hr]
    simp [weight, hd]
  have hheld : held c d l ≤ total (victimOrder c d (protect ++ closure.extents.map Prod.fst)) := by
    rw [← htotal]
    refine sum_le_of_mem _ hn ?_
    intro e he hne
    obtain ⟨r, hr, hevi, hclos, hprot⟩ := hmem e he
    have hd : r.view.descriptor.domain = d := by
      by_contra hother
      rw [hr] at hne
      exact hne (by simp [weight, hother])
    refine mem_map.mpr ⟨(e, r.view), mem_victimOrder.mpr ⟨⟨r, hr, rfl⟩, hd, hevi, ?_⟩, rfl⟩
    rw [mem_append, not_or]
    exact ⟨hprot, hclos⟩
  have hshor := hp.shortfall
  omega

/-- **A feasible plan can be carried out in any order**, in every reachable catalog and for every
    closure of it, unless a counter is at its end: its victims are needed by neither the closure nor
    the caller and their evictions begin and complete; once they are gone, its loads begin within
    the budget. Its sums are exact. And if it is not feasible, with nothing stale or quarantined,
    no evictable extents outside the closure and what is protected free enough. -/
theorem reachable_plan_sound (h : Catalog.Reachable c) {resources : List ResourceId}
    (hclosure : c.closureOf resources = .ok (.ok closure)) (d : Catalog.DomainId) (budget : Bytes)
    (protect : List ExtentId) : ∃ plan, planMaterialization c d budget closure protect = .ok plan ∧
      plan.missing.value = c.sizesAt plan.load ∧
      plan.shortfall.value =
        c.sizes d (fun v => v.state ≠ .nonresident) + plan.missing.value - budget.value ∧
      (∀ e ∈ plan.evicts, e ∉ closure.extents.map Prod.fst ∧ e ∉ protect) ∧
      (plan.feasible = true →
        (∀ e ∈ plan.evicts, ∀ r, c.extents.find? e = some r → Spare r) →
        (∀ e ∈ plan.load, ∀ r, c.extents.find? e = some r → r.operations < uint64Max) →
        ∀ c₁ todo tickets, Clearing c plan.evicts c₁ todo tickets →
          (∀ e ∈ todo, ∃ ticket c₂, c₁.beginEvict e false = .ok (.ok ticket, c₂)) ∧
          (∀ ticket ∈ tickets, ∃ c₂, c₁.completeEvict ticket = .ok (.ok (), c₂)) ∧
          (todo = [] → tickets = [] → ∀ c₂ rest, Loading c₁ budget plan.load c₂ rest →
            ∀ e ∈ rest, ∃ ticket c₃, c₂.beginLoad e budget = .ok (.ok ticket, c₃))) ∧
      (plan.feasible = false → plan.stale = [] → plan.quarantined = [] →
        ∀ l : List ExtentId, l.Nodup → (∀ e ∈ l, ∃ r, c.extents.find? e = some r ∧
          evictable r.view = true ∧ e ∉ closure.extents.map Prod.fst ∧ e ∉ protect) →
        budget.value + held c d l <
          c.sizes d (fun v => v.state ≠ .nonresident) + plan.missing.value) := by
  have hl := h.ledger
  have hn := closureOf_nodup hclosure
  obtain ⟨plan, hplan, hp⟩ := planMaterialization_spec hl d budget hn protect
  obtain ⟨hnodup, hevi, -⟩ := hp.evicts hl
  have hocc : c.sizes d (fun v => v.state ≠ .nonresident) = bytesOf c d occupies :=
    (bytesOf_eq_sizes d _).symm
  rw [hocc]
  refine ⟨plan, hplan, hp.missing, hp.shortfall, ?_, ?_, ?_⟩
  · intro e he
    obtain ⟨r, -, -, -, hkeep⟩ := hevi e he
    exact hkeep
  · intro hfeas hspare hope c₁ todo tickets hclear
    have hgo : ∀ e ∈ plan.evicts, ∃ r, c.extents.find? e = some r ∧ r.view.descriptor.domain = d ∧
        r.CanGo := by
      intro e he
      obtain ⟨r, hr, hd, hevic, -⟩ := hevi e he
      obtain ⟨ho, hb, hcon⟩ := hspare e he r hr
      exact ⟨r, hr, hd, hevic, ho, hb, hcon⟩
    have hcleared := hclear.cleared hl hnodup hgo
    refine ⟨?_, ?_, ?_⟩
    · intro e he
      obtain ⟨ticket, c₂, hbegin, -⟩ := hcleared.begins_ok hgo he
      exact ⟨ticket, c₂, hbegin⟩
    · intro ticket ht
      obtain ⟨c₂, hcom, -⟩ := hcleared.completes_ok hgo ht
      exact ⟨c₂, hcom⟩
    rintro rfl rfl c₂ rest hloading e he
    obtain ⟨hsame, hfits⟩ := hp.fits hl hfeas hcleared
    have hload : ∀ e ∈ plan.load, ∃ r, c₁.extents.find? e = some r ∧
        r.view.descriptor.domain = d ∧ r.view.state = .nonresident ∧ r.operations < uint64Max := by
      intro e he
      have hmem := he
      rw [hp.load] at hmem
      obtain ⟨-, r, hr, hd, hs⟩ := mem_loadsOf hmem
      exact ⟨r, (hsame e he).trans hr, hd, hs, hope e he r hr⟩
    have hnodup' : plan.load.Nodup := by
      rw [hp.load]
      exact loadsOf_nodup hn
    obtain ⟨ticket, c₃, hbegin, -⟩ :=
      (hloading.loaded hcleared.ledger hnodup' hload hfits).begins_ok hload hfits he
    exact ⟨ticket, c₃, hbegin⟩
  intro hfeas hstale hquar l hn' hmem
  exact hp.insufficient hl hfeas hstale hquar hn' hmem

/-! ## A full domain -/

def oneResident : List Catalog.Op :=
  let weights : ExtentDescriptor :=
    { domain := ⟨0, 1⟩, memoryClass := .weights, recovery := .fromArtifact, size := .ofNat 4 }
  [.addDomain "device", .addExtent weights true, .addExtent weights false,
    .addResource [{ extent := ⟨1, 1⟩, offset := Bytes.zero, length := .ofNat 4 }]]

def planned : Checked Catalog → Option (Bool × List ExtentId × List ExtentId)
  | .ok c =>
    match c.closureOf [⟨0, 1⟩] with
    | .ok (.ok closure) =>
      match planMaterialization c ⟨0, 1⟩ (.ofNat 4) closure [] with
      | .ok plan => some (plan.feasible, plan.evicts, plan.load)
      | .error _ => none
    | _ => none
  | .error _ => none

theorem planned_eq {feasible : Bool} {evicts load : List ExtentId}
    (h : planned (.ok c) = some (feasible, evicts, load)) :
    ∃ closure plan, c.closureOf [⟨0, 1⟩] = .ok (.ok closure) ∧
      planMaterialization c ⟨0, 1⟩ ⟨4, by decide⟩ closure [] = .ok plan ∧
      plan.feasible = feasible ∧ plan.evicts = evicts ∧ plan.load = load := by
  unfold planned at h
  simp only at h
  split at h
  next closure hclos =>
    split at h
    next plan hplan =>
      cases h
      exact ⟨closure, plan, hclos, hplan, rfl, rfl, rfl⟩
    · cases h
  · cases h

theorem reachable_plan_sound_resident : ∃ c closure plan ticket c₂, runAll {} oneResident = .ok c ∧
      c.closureOf [⟨0, 1⟩] = .ok (.ok closure) ∧
      planMaterialization c ⟨0, 1⟩ ⟨4, by decide⟩ closure [] = .ok plan ∧
      plan.feasible = true ∧ plan.evicts = [⟨0, 1⟩] ∧ plan.load = [⟨1, 1⟩] ∧
      c.beginEvict ⟨0, 1⟩ false = .ok (.ok ticket, c₂) := by
  have hplanned : planned (runAll {} oneResident) = some (true, [⟨0, 1⟩], [⟨1, 1⟩]) := by
    decide +kernel
  obtain ⟨c, r, r', hrun, hr, hspare, hr', hspare'⟩ : ∃ c r r', runAll {} oneResident = .ok c ∧
      c.extents.find? ⟨0, 1⟩ = some r ∧ Spare r ∧ c.extents.find? ⟨1, 1⟩ = some r' ∧
      r'.operations < uint64Max :=
    ⟨_, _, _, rfl, rfl, ⟨by decide, by decide, by decide⟩, rfl, by decide⟩
  rw [hrun] at hplanned
  obtain ⟨closure, plan, hclos, hplan, hfeas, hevi, hload⟩ := planned_eq hplanned
  obtain ⟨plan', hplan', -, -, -, hsound, -⟩ := reachable_plan_sound (Reachable.start.runAll hrun)
    hclos ⟨0, 1⟩ ⟨4, by decide⟩ []
  cases hplan.symm.trans hplan'
  have hall := hsound hfeas
    (by
      intro e he r1 hr1
      rw [hevi, mem_singleton] at he
      subst he
      cases hr.symm.trans hr1
      exact hspare)
    (by
      intro e he r1 hr1
      rw [hload, mem_singleton] at he
      subst he
      cases hr'.symm.trans hr1
      exact hspare')
    c _ [] .start
  obtain ⟨ticket, c₂, hbegin⟩ := hall.1 ⟨0, 1⟩ (by rw [hevi]; exact mem_singleton.mpr rfl)
  exact ⟨c, closure, plan, ticket, c₂, hrun, hclos, hplan, hfeas, hevi, hload, hbegin⟩

/-- The counter of the resident extent is at its end after as many evictions begun and cancelled.
    The plan is feasible and its victim is that extent, and beginning its eviction ends the
    process. -/
theorem exhausted_victim_ends :
    ∃ c closure plan e, Catalog.Reachable c ∧ c.closureOf [⟨0, 1⟩] = .ok (.ok closure) ∧
      planMaterialization c ⟨0, 1⟩ ⟨4, by decide⟩ closure [] = .ok plan ∧ plan.feasible = true ∧
      e ∈ plan.evicts ∧ c.beginEvict e false = .error .operationCounter := by
  obtain ⟨c0, r0, r1, hrun, hr0, hevi, hope, hplace, hr1, hloads, hextents, hbytes,
    hent⟩ :
      ∃ c0 r0 r1, runAll {} oneResident = .ok c0 ∧ c0.extents.find? ⟨0, 1⟩ = some r0 ∧
        evictable r0.view = true ∧ r0.operations = 0 ∧
        (r0.view.descriptor.domain = ⟨0, 1⟩ ∧ r0.view.descriptor.size.value = 4) ∧
        c0.extents.find? ⟨1, 1⟩ = some r1 ∧
        (r1.view.descriptor.domain = ⟨0, 1⟩ ∧ r1.view.discarded = false ∧
          r1.view.state = .nonresident ∧ r1.view.descriptor.size.value = 4) ∧
        c0.extentsOfResources [⟨0, 1⟩] = .ok [⟨1, 1⟩] ∧ bytesOf c0 ⟨0, 1⟩ occupies = 4 ∧
        c0.extents.entries = [(⟨0, 1⟩, r0), (⟨1, 1⟩, r1)] :=
    ⟨_, _, _, rfl, rfl, rfl, rfl, ⟨rfl, rfl⟩, rfl, ⟨rfl, rfl, rfl, rfl⟩, rfl, rfl, rfl⟩
  obtain ⟨c, r, htur, hmax⟩ := (Reachable.start.runAll hrun).spin uint64Max hr0 hevi (by omega)
  have hl := htur.reachable.ledger
  have hr1' : c.extents.find? ⟨1, 1⟩ = some r1 := (htur.others ⟨1, 1⟩ (by decide)).trans hr1
  -- The closure names the extent that is not resident.
  obtain ⟨closure, hsin, hclos⟩ := closureOfExtents_single hr1'
  have hof : c.closureOf [⟨0, 1⟩] = .ok (.ok closure) := by
    unfold closureOf
    have hsame : c.extentsOfResources [⟨0, 1⟩] = .ok [⟨1, 1⟩] := by
      rw [← hextents]
      simp only [extentsOfResources, htur.resources]
    rw [hsame]
    exact hsin
  have hyes : loads c ⟨0, 1⟩ (⟨1, 1⟩, r1.view.contentGeneration) = true :=
    loads_iff.mpr ⟨r1, hr1', hloads.1, rfl, hloads.2.1, hloads.2.2.1⟩
  obtain ⟨plan, hplan, hp⟩ := planMaterialization_spec hl ⟨0, 1⟩ ⟨4, by decide⟩ (closureOf_nodup hof) []
  have hload : plan.load = [⟨1, 1⟩] := by
    rw [hp.load, hclos]
    unfold loadsOf
    rw [filter_cons, if_pos hyes]
    rfl
  have hshor : plan.shortfall.value = 4 := by
    rw [hp.shortfall, hp.missing, hload, sizesAt_cons, sizeAt_of_find hr1', hloads.2.2.2,
      htur.bytes, hbytes]
    rfl
  have hover : ¬ plan.shortfall.value = 0 := by omega
  -- The resident one is evictable, covers the shortfall, and is the only one that is.
  have hres : (⟨0, 1⟩, r0.view) ∈ victimOrder c ⟨0, 1⟩ ([] ++ closure.extents.map Prod.fst) := by
    refine mem_victimOrder.mpr ⟨⟨r, htur.found, htur.view⟩, ?_, hevi, ?_⟩
    · exact hplace.1
    rw [hclos, nil_append, map_cons, map_nil, mem_singleton]
    simp
  have hcov : 4 ≤ total (victimOrder c ⟨0, 1⟩ ([] ++ closure.extents.map Prod.fst)) := by
    obtain ⟨first, second, hsplit⟩ := append_of_mem hres
    rw [hsplit]
    simp only [total, map_append, map_cons, sum_append, sum_cons]
    omega
  have hsuf : plan.victims.sufficient = true := by
    obtain ⟨-, -, -, -, -, -, -, hiff⟩ :=
      selectVictims_spec hl ⟨0, 1⟩ plan.shortfall ([] ++ closure.extents.map Prod.fst)
    rw [hp.victims, if_neg hover, hiff, hshor]
    exact hcov
  obtain ⟨hstale, hquar⟩ := hp.clean (by
    intro entry hentry
    rw [hclos, mem_singleton] at hentry
    rw [hentry]
    exact hyes)
  have hfeas : plan.feasible = true := hp.feasible.mpr ⟨hquar, hstale, .inr hsuf⟩
  obtain ⟨-, hevicts, hfits⟩ := hp.evicts hl
  have hfree := hfits hfeas
  rw [hload, sizesAt_cons, sizeAt_of_find hr1', hloads.2.2.2, htur.bytes, hbytes] at hfree
  obtain ⟨e, he⟩ : ∃ e, e ∈ plan.evicts := by
    cases hlist : plan.evicts with
    | nil =>
      rw [hlist] at hfree
      exact absurd hfree (by simp [sizesAt])
    | cons e => exact ⟨e, mem_cons_self⟩
  obtain ⟨r', hr', -, hevi', -⟩ := hevicts e he
  have hself : e = ⟨0, 1⟩ := by
    by_contra hne
    have hmem := SlotTable.mem_entries.mpr ((htur.others e hne).symm.trans hr')
    rw [hent, mem_cons, mem_singleton] at hmem
    rcases hmem with heq | heq
    · exact hne (congrArg Prod.fst heq)
    cases heq
    have hres' := (evictable_unheld hevi').1
    rw [hloads.2.2.1] at hres'
    cases hres'
  subst hself
  refine ⟨c, closure, plan, _, htur.reachable, hof, hplan, hfeas, he, ?_⟩
  obtain ⟨hstate, hleases, hreg⟩ := evictable_unheld hevi
  unfold Catalog.beginEvict
  simp only [htur.found, htur.view]
  rw [if_neg (by simp [hstate]), if_neg (by simp [hleases, hreg]),
    if_neg (by simp [mayEvict, hevi])]
  unfold begin
  rw [if_neg (by simp only; omega)]
  rfl

end JitLlm.Memory
