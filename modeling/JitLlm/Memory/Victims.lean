import Mathlib.Data.Prod.Lex
import Mathlib.Data.List.Lex
import JitLlm.Lib.Sorting
import JitLlm.Catalog.Occupancy

/-!
# `memory/victims.h`, `victims.cc` — the choice of victims

`SelectVictims` walks the evictable extents of a domain in a fixed order, discarded contents first
and then by least recent use, and takes them until what it needs is covered. The sum it keeps is
cut off at 2^64 - 1; it never is, because the bytes registered in a domain are below that.
-/

namespace JitLlm

open List
namespace Catalog

open Base Lib

def extentsOf (c : Catalog) (domain : DomainId) : List (ExtentId × ExtentView) :=
  (c.extents.entries.filter fun entry => entry.2.view.descriptor.domain = domain).map fun entry =>
    (entry.1, entry.2.view)

theorem mem_extentsOf {c : Catalog} {d : DomainId} {id : ExtentId} {view : ExtentView} :
    (id, view) ∈ c.extentsOf d ↔
      ∃ record, c.extents.find? id = some record ∧ record.view = view ∧
        view.descriptor.domain = d := by
  unfold extentsOf
  rw [mem_map]
  constructor
  · rintro ⟨⟨id', record⟩, hmem, heq⟩
    cases heq
    obtain ⟨hentry, hd⟩ := List.mem_filter.mp hmem
    exact ⟨record, SlotTable.mem_entries.mp hentry, rfl, of_decide_eq_true hd⟩
  rintro ⟨record, hr, rfl, hd⟩
  exact ⟨(id, record), List.mem_filter.mpr ⟨SlotTable.mem_entries.mpr hr, decide_eq_true hd⟩, rfl⟩

theorem extentsOf_nodup (c : Catalog) (d : DomainId) : ((c.extentsOf d).map Prod.fst).Nodup := by
  unfold extentsOf
  rw [map_map]
  exact (SlotTable.entries_nodup c.extents).sublist (List.filter_sublist.map _)

end Catalog

namespace Memory

open Base Lib Catalog

structure Victim where
  extent : ExtentId
  memoryClass : MemoryClass := .unknown
  bytes : Bytes
deriving DecidableEq

structure VictimPlan where
  victims : List Victim := []
  credited : Bytes := Bytes.zero
  passedOver : Nat := 0
  sufficient : Bool := false
deriving DecidableEq

abbrev Candidate := ExtentId × ExtentView

/-- The tuple the source compares: `ContentKey` by its members, the artifact byte by byte. -/
abbrev VictimKey := Nat ×ₗ Nat ×ₗ List Nat ×ₗ Nat ×ₗ Nat ×ₗ ExtentId

def victimKey (candidate : Candidate) : VictimKey :=
  let view := candidate.2
  let content := view.descriptor.content
  let order := if view.discarded ∨ view.descriptor.recovery = .discardable then 0 else 1
  toLex (order, toLex (view.lastUse, toLex (content.artifact.toList.map UInt8.toNat,
    toLex (content.group, toLex (content.chunk, candidate.1)))))

def VictimPlan.consider (needed : Bytes) (plan : VictimPlan) (candidate : Candidate) : VictimPlan :=
  let descriptor := candidate.2.descriptor
  if plan.credited.value ≥ needed.value then { plan with passedOver := plan.passedOver + 1 }
  else
    { plan with
      victims := plan.victims ++
        [{ extent := candidate.1, memoryClass := descriptor.memoryClass, bytes := descriptor.size }]
      credited := (plan.credited.plus descriptor.size).getD ⟨uint64Max, Nat.le_refl _⟩ }

def candidates (extents : List Candidate) (protect : List ExtentId) : List Candidate :=
  extents.filter fun candidate =>
    evictable candidate.2 && !binarySearch (sortBy (fun id => id) protect) candidate.1

/-- `SelectVictims`, of the extents of the domain. -/
def selectAmong (extents : List Candidate) (needed : Bytes) (protect : List ExtentId) : VictimPlan :=
  let plan := (sortBy victimKey (candidates extents protect)).foldl (VictimPlan.consider needed) {}
  { plan with sufficient := plan.credited.value ≥ needed.value }

def selectVictims (c : Catalog) (domain : Catalog.DomainId) (needed : Bytes)
    (protect : List ExtentId) : VictimPlan :=
  selectAmong (c.extentsOf domain) needed protect

/-! ## Candidates -/

variable {extents : List Candidate} {protect protect' : List ExtentId} {needed : Bytes}
    {c : Catalog} {d : Catalog.DomainId}

theorem mem_candidates {candidate : Candidate} : candidate ∈ candidates extents protect ↔
      candidate ∈ extents ∧ evictable candidate.2 = true ∧ candidate.1 ∉ protect := by
  have hsor : (sortBy (fun id : ExtentId => id) protect).Pairwise (· ≤ ·) := sortBy_sorted _ _
  have hsearch : binarySearch (sortBy (fun id => id) protect) candidate.1 = true ↔
      candidate.1 ∈ protect := (binarySearch_iff hsor).trans mem_sortBy
  unfold candidates
  rw [mem_filter, Bool.and_eq_true, Bool.not_eq_true', ← hsearch, Bool.not_eq_true]

theorem candidates_congr (h : ∀ id, id ∈ protect' ↔ id ∈ protect) :
    candidates extents protect' = candidates extents protect := by
  refine filter_congr ?_
  intro candidate _
  have hsearch : ∀ l : List ExtentId, binarySearch (sortBy (fun id => id) l) candidate.1 = true ↔
      candidate.1 ∈ l := by
    intro l
    exact (binarySearch_iff (sortBy_sorted _ l)).trans mem_sortBy
  have heq : binarySearch (sortBy (fun id => id) protect') candidate.1 =
      binarySearch (sortBy (fun id => id) protect) candidate.1 := by
    rw [Bool.eq_iff_iff, hsearch, hsearch]
    exact h candidate.1
  rw [heq]

theorem victimKey_id {candidate candidate' : Candidate}
    (h : victimKey candidate = victimKey candidate') : candidate.1 = candidate'.1 := by
  simp only [victimKey, EmbeddingLike.apply_eq_iff_eq, Prod.mk.injEq] at h
  exact h.2.2.2.2.2

theorem victimKey_distinguishes (hn : (extents.map Prod.fst).Nodup) :
    Distinguishes victimKey extents := by
  intro candidate hc candidate' hc' hkey
  exact inj_on_of_nodup_map hn hc hc' (victimKey_id hkey)

theorem candidates_nodup (hn : (extents.map Prod.fst).Nodup) (protect : List ExtentId) :
    ((candidates extents protect).map Prod.fst).Nodup :=
  hn.sublist (List.filter_sublist.map _)

/-! ## The loop -/

def total (l : List Candidate) : Nat := (l.map fun candidate => candidate.2.descriptor.size.value).sum

@[simp] theorem total_nil : total [] = 0 := rfl

@[simp] theorem total_cons (candidate : Candidate) (l : List Candidate) :
    total (candidate :: l) = candidate.2.descriptor.size.value + total l := by
  simp [total]

theorem total_take_le (l : List Candidate) (n : Nat) : total (l.take n) ≤ total l := by
  have hsplit : total l = total (l.take n) + total (l.drop n) := by
    conv_lhs => rw [← take_append_drop n l]
    simp [total]
  omega

def victimOf (candidate : Candidate) : Victim :=
  { extent := candidate.1
    memoryClass := candidate.2.descriptor.memoryClass
    bytes := candidate.2.descriptor.size }

theorem foldl_consider (needed : Bytes) : ∀ (l : List Candidate) (plan : VictimPlan),
    plan.credited.value + total l ≤ uint64Max → ∃ n, n ≤ l.length ∧
      (l.foldl (VictimPlan.consider needed) plan).victims = plan.victims ++ (l.take n).map victimOf ∧
      (l.foldl (VictimPlan.consider needed) plan).credited.value =
        plan.credited.value + total (l.take n) ∧
      (l.foldl (VictimPlan.consider needed) plan).passedOver = plan.passedOver + (l.length - n) ∧
      (∀ m, m < n → plan.credited.value + total (l.take m) < needed.value) ∧
      (needed.value ≤ plan.credited.value + total (l.take n) ∨ n = l.length) := by
  intro l
  induction l with
  | nil =>
    intro plan _
    refine ⟨0, Nat.le_refl 0, ?_, rfl, rfl, ?_, .inr rfl⟩
    · simp
    intro m hm
    exact absurd hm (Nat.not_lt_zero m)
  | cons candidate rest ih =>
    intro plan hrange
    rw [total_cons] at hrange
    rw [foldl_cons]
    by_cases hcov : plan.credited.value ≥ needed.value
    · have hstep : plan.consider needed candidate =
          { plan with passedOver := plan.passedOver + 1 } := if_pos hcov
      rw [hstep]
      obtain ⟨n, hn, hvic, hcred, hpas, hmin, hend⟩ :=
        ih { plan with passedOver := plan.passedOver + 1 } (by simp only; omega)
      -- What is covered stays covered: the rest is passed over too.
      obtain rfl : n = 0 := by
        by_contra hpos
        have hfirst := hmin 0 (Nat.pos_of_ne_zero hpos)
        simp only [take_zero, total_nil, Nat.add_zero] at hfirst
        omega
      refine ⟨0, Nat.zero_le _, hvic, hcred, ?_, ?_, .inl ?_⟩
      · rw [hpas, length_cons]
        simp only
        omega
      · intro m hm
        exact absurd hm (Nat.not_lt_zero m)
      · exact hcov
    have hsum : plan.credited.value + candidate.2.descriptor.size.value ≤ uint64Max := by omega
    have hplus : plan.credited.plus candidate.2.descriptor.size = some ⟨_, hsum⟩ := dif_pos hsum
    have hstep : plan.consider needed candidate =
        { plan with
          victims := plan.victims ++ [victimOf candidate]
          credited := ⟨_, hsum⟩ } := by
      unfold VictimPlan.consider
      simp only [if_neg hcov, hplus, Option.getD_some]
      rfl
    rw [hstep]
    obtain ⟨n, hn, hvic, hcred, hpas, hmin, hend⟩ := ih
      { plan with
        victims := plan.victims ++ [victimOf candidate]
        credited := ⟨_, hsum⟩ } (by simp only; omega)
    refine ⟨n + 1, Nat.succ_le_succ hn, ?_, ?_, ?_, ?_, ?_⟩
    · rw [hvic, take_succ_cons, map_cons, append_assoc]
      rfl
    · rw [hcred, take_succ_cons, total_cons]
      simp only
      omega
    · rw [hpas, length_cons]
      simp only
      omega
    · intro m hm
      rcases m with _ | m
      · rw [take_zero, total_nil]
        omega
      have hlt := hmin m (Nat.lt_of_succ_lt_succ hm)
      rw [take_succ_cons, total_cons]
      simp only at hlt
      omega
    rw [take_succ_cons, total_cons, length_cons]
    simp only at hend
    omega

/-! ## The choice -/

def victimOrder (c : Catalog) (d : Catalog.DomainId) (protect : List ExtentId) : List Candidate :=
  sortBy victimKey (candidates (c.extentsOf d) protect)

theorem mem_victimOrder {id : ExtentId} {view : ExtentView} : (id, view) ∈ victimOrder c d protect ↔
      (∃ record, c.extents.find? id = some record ∧ record.view = view) ∧
        view.descriptor.domain = d ∧ evictable view = true ∧ id ∉ protect := by
  unfold victimOrder
  rw [mem_sortBy, mem_candidates, mem_extentsOf]
  constructor
  · rintro ⟨⟨record, hr, hview, hd⟩, hrest⟩
    exact ⟨⟨record, hr, hview⟩, hd, hrest⟩
  rintro ⟨⟨record, hr, hview⟩, hd, hrest⟩
  exact ⟨⟨record, hr, hview, hd⟩, hrest⟩

theorem victimOrder_strict (c : Catalog) (d : Catalog.DomainId) (protect : List ExtentId) :
    (victimOrder c d protect).Pairwise fun a b => victimKey a < victimKey b := by
  have hn := candidates_nodup (extentsOf_nodup c d) protect
  exact sortBy_strict (victimKey_distinguishes hn) (List.Nodup.of_map _ hn)

theorem total_le_registered {l : List Candidate} (hn : (l.map Prod.fst).Nodup)
    (hl : ∀ id view, (id, view) ∈ l → ∃ record, c.extents.find? id = some record ∧
      record.view = view ∧ view.descriptor.domain = d) : total l ≤ bytesOf c d fun _ => true := by
  refine Nat.le_trans (Nat.le_of_eq ?_) (sumOver_le (weight d fun _ => true) _ c.extents hn)
  rw [map_map]
  refine congrArg List.sum (map_congr_left ?_)
  rintro ⟨id, view⟩ hmem
  obtain ⟨record, hr, rfl, hd⟩ := hl id view hmem
  simp [hr, weight, hd]

theorem victimOrder_nodup (c : Catalog) (d : Catalog.DomainId) (protect : List ExtentId) :
    ((victimOrder c d protect).map Prod.fst).Nodup :=
  ((sortBy_perm victimKey _).map _).nodup_iff.mpr (candidates_nodup (extentsOf_nodup c d) protect)

theorem registered_le (hl : Ledger c) (d : Catalog.DomainId) :
    (bytesOf c d fun _ => true) ≤ uint64Max := by
  cases hd : c.domains.find? d with
  | some domain =>
    rw [← (hl.exact d domain hd).registered]
    exact domain.registered.bound
  | none =>
    have hzero : (bytesOf c d fun _ => true) = 0 := by
      unfold bytesOf
      rw [SlotTable.sum_congr (g := fun _ => 0), SlotTable.sum_zero]
      intro id record hr
      obtain ⟨domain, hdom⟩ := hl.placed id record hr
      refine if_neg ?_
      rintro ⟨rfl, -⟩
      rw [hd] at hdom
      cases hdom
    rw [hzero]
    exact Nat.zero_le _

theorem total_victimOrder (hl : Ledger c) (protect : List ExtentId) :
    total (victimOrder c d protect) ≤ uint64Max := by
  refine (total_le_registered (victimOrder_nodup c d protect) ?_).trans (registered_le hl d)
  intro id view hmem
  obtain ⟨⟨record, hr, hview⟩, hd, -⟩ := mem_victimOrder.mp hmem
  exact ⟨record, hr, hview, hd⟩

theorem selectAmong_congr {extents extents' : List Candidate} (hn : (extents.map Prod.fst).Nodup)
    (h : extents.Perm extents') (hprot : ∀ id, id ∈ protect' ↔ id ∈ protect) :
    selectAmong extents' needed protect' = selectAmong extents needed protect := by
  have hperm : (candidates extents protect).Perm (candidates extents' protect) := h.filter _
  unfold selectAmong
  rw [candidates_congr hprot,
    sortBy_congr (victimKey_distinguishes (candidates_nodup hn protect)) hperm]

theorem selectVictims_spec (hl : Ledger c) (d : Catalog.DomainId) (needed : Bytes)
    (protect : List ExtentId) : ∃ n, n ≤ (victimOrder c d protect).length ∧
      (selectVictims c d needed protect).victims =
        ((victimOrder c d protect).take n).map victimOf ∧
      (selectVictims c d needed protect).credited.value = total ((victimOrder c d protect).take n) ∧
      (selectVictims c d needed protect).passedOver = (victimOrder c d protect).length - n ∧
      (∀ m, m < n → total ((victimOrder c d protect).take m) < needed.value) ∧
      (needed.value ≤ total ((victimOrder c d protect).take n) ∨
        n = (victimOrder c d protect).length) ∧
      ((selectVictims c d needed protect).sufficient = true ↔
        needed.value ≤ total (victimOrder c d protect)) := by
  have hrange := total_victimOrder hl (d := d) protect
  obtain ⟨n, hn, hvic, hcred, hpas, hmin, hend⟩ :=
    foldl_consider needed (victimOrder c d protect) {} (by simpa using hrange)
  simp only [Bytes.zero_value, Nat.zero_add] at hcred hmin hend
  refine ⟨n, hn, hvic, hcred, ?_, hmin, hend, ?_⟩
  · rw [← Nat.zero_add (List.length _ - n)]
    exact hpas
  have hsuf : (selectVictims c d needed protect).sufficient = true ↔
      needed.value ≤ total ((victimOrder c d protect).take n) := by
    rw [← hcred]
    exact decide_eq_true_iff
  rw [hsuf]
  constructor
  · intro hle
    exact hle.trans (total_take_le _ n)
  intro hle
  rcases hend with hcov | rfl
  · exact hcov
  rw [take_length]
  exact hle

/-- **Victim choice is the shortest prefix of a strict total order of the evictable, unprotected
    extents of the domain that covers what is needed**, or all of them, in every reachable catalog;
    and it depends on the sets of extents and of protected ones only. -/
theorem reachable_victims_shortest (h : Catalog.Reachable c) (d : Catalog.DomainId) (needed : Bytes)
    (protect : List ExtentId) :
    ∃ order : List Candidate, order.Pairwise (fun a b => victimKey a < victimKey b) ∧
      (∀ id view, (id, view) ∈ order ↔
        (∃ record, c.extents.find? id = some record ∧ record.view = view) ∧
          view.descriptor.domain = d ∧ evictable view = true ∧ id ∉ protect) ∧
      (∃ n, n ≤ order.length ∧
        (selectVictims c d needed protect).victims = (order.take n).map victimOf ∧
        (selectVictims c d needed protect).credited.value = total (order.take n) ∧
        (selectVictims c d needed protect).passedOver = order.length - n ∧
        (∀ m, m < n → total (order.take m) < needed.value) ∧
        (needed.value ≤ total (order.take n) ∨ n = order.length)) ∧
      ((selectVictims c d needed protect).sufficient = true ↔ needed.value ≤ total order) ∧
      (∀ extents protect', extents.Perm (c.extentsOf d) → (∀ id, id ∈ protect' ↔ id ∈ protect) →
        selectAmong extents needed protect' = selectVictims c d needed protect) ∧
      ∀ c' : Catalog, (∀ id, (c'.extents.find? id).map ExtentRecord.view =
          (c.extents.find? id).map ExtentRecord.view) →
        selectVictims c' d needed protect = selectVictims c d needed protect := by
  obtain ⟨n, hn, hvic, hcred, hpas, hmin, hend, hsuf⟩ :=
    selectVictims_spec h.ledger d needed protect
  refine ⟨victimOrder c d protect, victimOrder_strict c d protect, fun id view => mem_victimOrder,
    ⟨n, hn, hvic, hcred, hpas, hmin, hend⟩, hsuf, ?_, ?_⟩
  · intro extents protect' hperm hprot
    exact selectAmong_congr (extentsOf_nodup c d) hperm.symm hprot
  intro c' hsame
  refine selectAmong_congr (extentsOf_nodup c d) ?_ fun id => Iff.rfl
  refine (perm_ext_iff_of_nodup (List.Nodup.of_map _ (extentsOf_nodup c d))
    (List.Nodup.of_map _ (extentsOf_nodup c' d))).mpr ?_
  rintro ⟨id, view⟩
  have hview : ∀ c : Catalog, (id, view) ∈ c.extentsOf d ↔
      (c.extents.find? id).map ExtentRecord.view = some view ∧ view.descriptor.domain = d := by
    intro c
    rw [mem_extentsOf, Option.map_eq_some_iff]
    constructor
    · rintro ⟨record, hr, heq, hd⟩
      exact ⟨⟨record, hr, heq⟩, hd⟩
    rintro ⟨⟨record, hr, heq⟩, hd⟩
    exact ⟨record, hr, heq, hd⟩
  rw [hview, hview, hsame]

def threeResident : List Catalog.Op :=
  let weights : ExtentDescriptor :=
    { domain := ⟨0, 1⟩, memoryClass := .weights, recovery := .fromArtifact, size := .ofNat 4 }
  [.addDomain "device", .addExtent weights true, .addExtent weights true,
    .addExtent { weights with memoryClass := .scratch, recovery := .discardable } true]

def chosen (needed : Bytes) (protect : List ExtentId) : Checked Catalog →
    Option (List ExtentId × Nat × Nat)
  | .ok c =>
    let plan := selectVictims c ⟨0, 1⟩ needed protect
    some (plan.victims.map Victim.extent, plan.credited.value, plan.passedOver)
  | .error _ => none

/-- The scratch goes first, though it was added last. -/
theorem reachable_victims_shortest_scratch : ∃ c order n, runAll {} threeResident = .ok c ∧
      (selectVictims c ⟨0, 1⟩ ⟨6, by decide⟩ [⟨0, 1⟩]).victims.map Victim.extent =
        [⟨2, 1⟩, ⟨1, 1⟩] ∧
      (selectVictims c ⟨0, 1⟩ ⟨6, by decide⟩ [⟨0, 1⟩]).victims = (List.take n order).map victimOf := by
  have hchosen : chosen ⟨6, by decide⟩ [⟨0, 1⟩] (runAll {} threeResident) =
      some ([⟨2, 1⟩, ⟨1, 1⟩], 8, 0) := by decide +kernel
  rcases hrun : runAll {} threeResident with _ | c
  · rw [hrun] at hchosen
    cases hchosen
  rw [hrun] at hchosen
  simp only [chosen, Option.some.injEq, Prod.mk.injEq] at hchosen
  obtain ⟨order, -, -, ⟨n, -, hvic, -⟩, -⟩ :=
    reachable_victims_shortest (Reachable.start.runAll hrun) ⟨0, 1⟩ ⟨6, by decide⟩ [⟨0, 1⟩]
  exact ⟨c, order, n, rfl, hchosen.1, hvic⟩

end Memory
end JitLlm
