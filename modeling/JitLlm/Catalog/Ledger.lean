import JitLlm.Catalog.Ops

/-!
# The occupancy ledger is exact

Occupancy is never recomputed: `recount` moves one extent's bytes from the bucket it was in to
the bucket it is in now, and every transition has to call it with the right `before`. What makes
the counters trustworthy is the invariant `Ledger`: each is the sum it stands for, over the live
extents. It is stated once, about the sums, and *one* lemma (`Ledger.change`) re-establishes it
for every transition, since each of them is a `change` of one record whose descriptor stays.

The no-overflow half rests on the separate `registered` total. A counter's new value is a sum
over a subset of the domain's extents, hence at most `registered`, which `AddExtent` kept below
2^64 — so the checked additions succeed, and `Sat LedgerSafe` carries that through every
operation beside the invariant itself.
-/

namespace JitLlm.Catalog

open Base Lib Option

/-! ## The sums the counters stand for -/

/-- What one extent counts for in domain `d` under the selection `p`. -/
def weight (d : DomainId) (p : ExtentView → Bool) (r : ExtentRecord) : Nat :=
  if r.view.descriptor.domain = d ∧ p r.view then r.view.descriptor.size.value else 0

/-- The bytes of the live extents of domain `d` that `p` selects. -/
def bytesOf (c : Catalog) (d : DomainId) (p : ExtentView → Bool) : Nat :=
  c.extents.sum (weight d p)

def inBucket (b : Bucket) (v : ExtentView) : Bool := bucketOf v = some b

def occupies (v : ExtentView) : Bool := v.state ≠ .nonresident

def occupiesClass (k : MemoryClass) (v : ExtentView) : Bool :=
  v.state ≠ .nonresident ∧ v.descriptor.memoryClass = k

structure LedgerExact (c : Catalog) (d : DomainId) (domain : Domain) : Prop where
  parts : ∀ b, (domain.occupancy.part b).value = bytesOf c d (inBucket b)
  classes : ∀ k, (domain.occupancy.byClass k).value = bytesOf c d (occupiesClass k)
  registered : domain.registered.value = bytesOf c d (fun _ => true)

/-- The ledger of the whole catalog: every extent's domain is known, and every domain's
    counters are exact. -/
structure Ledger (c : Catalog) : Prop where
  placed : ∀ id r, c.extents.find? id = some r →
    ∃ domain, c.domains.find? r.view.descriptor.domain = some domain
  exact : ∀ d domain, c.domains.find? d = some domain → LedgerExact c d domain

/-- The checks of `Add` and `Subtract` did not fire. -/
def LedgerSafe (f : Fatal) : Prop := f ≠ .occupancyOverflow ∧ f ≠ .occupancyUnderflow

theorem bucketOf_eq_none {v : ExtentView} : bucketOf v = none ↔ v.state = .nonresident := by
  unfold bucketOf
  cases v.state <;> simp
  split <;> (try split) <;> simp

theorem weight_le (d : DomainId) (p : ExtentView → Bool) (r : ExtentRecord) :
    weight d p r ≤ weight d (fun _ => true) r := by
  unfold weight
  split
  next h =>
    simp [h.1]
  · exact Nat.zero_le _

theorem sum_le_sum {t : SlotTable .extent ExtentRecord} {f g : ExtentRecord → Nat}
    (h : ∀ r, f r ≤ g r) : t.sum f ≤ t.sum g := by
  unfold SlotTable.sum
  induction t.slots with
  | nil => exact Nat.le_refl _
  | cons s rest ih =>
    have hs : cellVal f s.value ≤ cellVal g s.value := by
      cases s.value with
      | none => exact Nat.le_refl _
      | some r => exact h r
    exact Nat.add_le_add hs ih

/-! ## `recount` on the counters alone -/

theorem add_eq {a b : Bytes} (h : a.value + b.value ≤ uint64Max) :
    add a b = .ok ⟨a.value + b.value, h⟩ := by
  simp [add, Bytes.plus, h]

theorem subtract_eq {a b : Bytes} (h : b.value ≤ a.value) :
    subtract a b = .ok ⟨a.value - b.value, Nat.le_trans (Nat.sub_le _ _) a.bound⟩ := by
  simp [subtract, Bytes.minus, Nat.not_lt.mpr h]

variable {k : MemoryClass} {d : DomainId}

theorem Occupancy.move_sat {o : Occupancy} {size : Bytes}
    {before after : Option Bucket} (newPart : Bucket → Nat) (newClass : MemoryClass → Nat)
    (hne : before ≠ after) (hpart : ∀ b, newPart b + (if before = some b then size.value else 0)
      = (o.part b).value + (if after = some b then size.value else 0))
    (hclass : ∀ k', newClass k' + (if before ≠ none ∧ k = k' then size.value else 0)
      = (o.byClass k').value + (if after ≠ none ∧ k = k' then size.value else 0))
    (hpartLe : ∀ b, newPart b ≤ uint64Max) (hclassLe : ∀ k', newClass k' ≤ uint64Max) :
    Sat LedgerSafe
      (fun o' => (∀ b, (o'.part b).value = newPart b) ∧ ∀ k', (o'.byClass k').value = newClass k')
      (o.move k size before after) := by
  -- First the bytes leave: afterwards the counters lack what the second half will add.
  have hleave : Sat LedgerSafe
      (fun left => (∀ b, (left.part b).value + (if after = some b then size.value else 0)
          = newPart b) ∧
        ∀ k', (left.byClass k').value = newClass k' + (if after = none ∧ k = k' then size.value
          else 0)) (o.leave k size before) := by
    cases before with
    | none =>
      have hk := hclass k
      have hle := hclassLe k
      have hafter : after ≠ none := fun hq => hne hq.symm
      simp only [ne_eq, not_true_eq_false, false_and, if_false, hafter, not_false_eq_true,
        true_and, if_true, Nat.add_zero] at hk
      simp only [Occupancy.leave, add_eq (show (o.byClass k).value + size.value ≤ uint64Max by omega)]
      refine ⟨fun b => ?_, fun k' => ?_⟩
      · have := hpart b
        simp only [reduceCtorEq, if_false, Nat.add_zero] at this
        simp only [Occupancy.setClass]
        omega
      have := hclass k'
      simp only [ne_eq, not_true_eq_false, false_and, if_false, hafter, not_false_eq_true,
        true_and, Nat.add_zero] at this
      simp only [Occupancy.setClass, hafter, false_and, if_false, Nat.add_zero]
      by_cases hq : k' = k
      · subst hq
        simp only [if_true] at this ⊢
        omega
      simp only [hq, Ne.symm hq, if_false] at this ⊢
      omega
    | some b0 =>
      have hb := hpart b0
      have hafter : after ≠ some b0 := fun hq => hne hq.symm
      simp only [if_true, hafter, if_false, Nat.add_zero] at hb
      simp only [Occupancy.leave, subtract_eq (show size.value ≤ (o.part b0).value by omega)]
      refine ⟨fun b => ?_, fun k' => ?_⟩
      · have := hpart b
        simp only [Occupancy.setPart]
        by_cases hq : b = b0
        · subst hq
          simp only [if_true, hafter, if_false] at this ⊢
          omega
        simp only [some.injEq, Ne.symm hq, hq, if_false] at this ⊢
        omega
      have := hclass k'
      simp only [ne_eq, reduceCtorEq, not_false_eq_true, true_and] at this
      simp only [Occupancy.setPart]
      by_cases hq : k = k' <;> by_cases ha : after = none <;>
        simp only [hq, ha, not_true_eq_false, not_false_eq_true, and_true, and_false, if_true,
          if_false] at this ⊢ <;> omega
  refine hleave.bind fun left hleft => ?_
  obtain ⟨hp, hc⟩ := hleft
  cases after with
  | none =>
    have hk := hc k
    simp only [true_and, if_true] at hk
    simp only [Occupancy.enter, subtract_eq (show size.value ≤ (left.byClass k).value by omega)]
    refine ⟨fun b => by simpa [Occupancy.setClass] using hp b, fun k' => ?_⟩
    have := hc k'
    simp only [true_and] at this
    simp only [Occupancy.setClass]
    by_cases hq : k' = k
    · subst hq
      simp only [if_true] at this ⊢
      omega
    simp only [hq, Ne.symm hq, if_false] at this ⊢
    omega
  | some b0 =>
    have hb := hp b0
    have hle := hpartLe b0
    simp only [if_true] at hb
    simp only [Occupancy.enter, add_eq (show (left.part b0).value + size.value ≤ uint64Max by omega)]
    refine ⟨fun b => ?_, fun k' => by simpa [Occupancy.setPart] using hc k'⟩
    have := hp b
    simp only [Occupancy.setPart]
    by_cases hq : b = b0
    · subst hq
      simp only [if_true] at this ⊢
      omega
    simp only [some.injEq, Ne.symm hq, hq, if_false] at this ⊢
    omega

/-! ## One transition -/

variable {r : ExtentRecord}

theorem weight_inBucket {b : Bucket} (hd : r.view.descriptor.domain = d) : weight d (inBucket b) r
      = if bucketOf r.view = some b then r.view.descriptor.size.value else 0 := by
  simp [weight, inBucket, hd]

theorem weight_occupiesClass (hd : r.view.descriptor.domain = d) : weight d (occupiesClass k) r
      = if bucketOf r.view ≠ none ∧ r.view.descriptor.memoryClass = k then
          r.view.descriptor.size.value else 0 := by
  simp [weight, occupiesClass, hd, bucketOf_eq_none]

theorem weight_of_ne {p : ExtentView → Bool}
    (hd : r.view.descriptor.domain ≠ d) : weight d p r = 0 := by
  simp [weight, hd]

section Change

variable {c : Catalog} {id : ExtentId} {r r' : ExtentRecord}

theorem bytesOf_set (h : c.extents.find? id = some r) (r' : ExtentRecord) (d : DomainId)
    (p : ExtentView → Bool) : bytesOf { c with extents := c.extents.set id r' } d p + weight d p r
      = bytesOf c d p + weight d p r' :=
  SlotTable.sum_set _ h

section

variable (hl : Ledger c) (h : c.extents.find? id = some r)
    (hd : r'.view.descriptor = r.view.descriptor)
include hl h hd

theorem Ledger.newSum_le {d : DomainId} {domain : Domain}
    (hdom : c.domains.find? d = some domain) (p : ExtentView → Bool) :
    bytesOf { c with extents := c.extents.set id r' } d p ≤ uint64Max := by
  have hle : bytesOf { c with extents := c.extents.set id r' } d p
      ≤ bytesOf { c with extents := c.extents.set id r' } d (fun _ => true) :=
    sum_le_sum (weight_le d p)
  have hall := bytesOf_set h r' d (fun _ => true)
  have hsame : weight d (fun _ => true) r' = weight d (fun _ => true) r := by
    simp [weight, hd]
  have hreg := (hl.exact d domain hdom).registered
  have hb := domain.registered.bound
  omega

theorem Ledger.change : Sat LedgerSafe
      (fun c' => Ledger c' ∧ c'.extents = c.extents.set id r' ∧ c'.resources = c.resources ∧
        c'.leases = c.leases ∧ c'.registrations = c.registrations)
      (c.change id r r') := by
  obtain ⟨domain, hdom⟩ := hl.placed id r h
  have hex := hl.exact _ domain hdom
  have hplaced : ∀ (domains : SlotTable .domain Domain),
      (∀ d, (∃ x, c.domains.find? d = some x) → ∃ x, domains.find? d = some x) →
      ∀ id1 r1, (c.extents.set id r').find? id1 = some r1 →
        ∃ x, domains.find? r1.view.descriptor.domain = some x := by
    intro domains hkeep id1 r1 h1
    rw [SlotTable.find?_set] at h1
    split at h1
    · simp only [h, map_some, some.injEq] at h1
      subst h1
      rw [hd]
      exact hkeep _ ⟨domain, hdom⟩
    · exact hkeep _ (hl.placed id1 r1 h1)
  unfold Catalog.change Catalog.recount
  simp only [hd, hdom]
  split
  -- The bucket is the same, so is every sum.
  next hsame =>
    refine ⟨⟨hplaced _ (fun d hx => hx), fun d dom hdm => ?_⟩, rfl, rfl, rfl, rfl⟩
    have hx := hl.exact d dom hdm
    by_cases hdd : r.view.descriptor.domain = d
    · refine ⟨fun b => ?_, fun k => ?_, ?_⟩
      · have := bytesOf_set h r' d (inBucket b)
        rw [weight_inBucket hdd, weight_inBucket (by rw [hd]; exact hdd), hsame, hd] at this
        rw [hx.parts b]
        omega
      · have := bytesOf_set h r' d (occupiesClass k)
        rw [weight_occupiesClass hdd, weight_occupiesClass (by rw [hd]; exact hdd), hsame, hd]
          at this
        rw [hx.classes k]
        omega
      have := bytesOf_set h r' d (fun _ => true)
      simp only [weight, hd] at this
      rw [hx.registered]
      omega
    have hzero : ∀ p, bytesOf { c with extents := c.extents.set id r' } d p = bytesOf c d p := by
      intro p
      have := bytesOf_set h r' d p
      rw [weight_of_ne hdd, weight_of_ne (by rw [hd]; exact hdd)] at this
      omega
    exact ⟨fun b => by rw [hx.parts b]; exact (hzero _).symm,
      fun k => by rw [hx.classes k]; exact (hzero _).symm,
      by rw [hx.registered]; exact (hzero _).symm⟩
  next hne =>
    have hmove := Occupancy.move_sat
      (fun b => bytesOf { c with extents := c.extents.set id r' }
        r.view.descriptor.domain (inBucket b))
      (fun k => bytesOf { c with extents := c.extents.set id r' }
        r.view.descriptor.domain (occupiesClass k)) hne
      (fun b => by
        have := bytesOf_set h r' r.view.descriptor.domain (inBucket b)
        rw [weight_inBucket rfl, weight_inBucket (by rw [hd]), hd] at this
        rw [hex.parts b]
        exact this)
      (fun k => by
        have := bytesOf_set h r' r.view.descriptor.domain (occupiesClass k)
        rw [weight_occupiesClass rfl, weight_occupiesClass (by rw [hd]), hd] at this
        rw [hex.classes k]
        exact this)
      (fun b => hl.newSum_le h hd hdom _) (fun k => hl.newSum_le h hd hdom _)
    refine (hmove.bind fun occupancy hocc => ?_ : Sat _ (fun counted : Catalog =>
      counted.extents = c.extents ∧ counted.resources = c.resources ∧
      counted.leases = c.leases ∧ counted.registrations = c.registrations ∧
      ∃ occupancy : Occupancy,
        (∀ b, (occupancy.part b).value = bytesOf { c with extents := c.extents.set id r' }
          r.view.descriptor.domain (inBucket b)) ∧
        (∀ k, (occupancy.byClass k).value = bytesOf { c with extents := c.extents.set id r' }
          r.view.descriptor.domain (occupiesClass k)) ∧
        counted.domains = c.domains.set r.view.descriptor.domain { domain with occupancy }) _).bind
      fun counted hcoun => ?_
    · exact ⟨rfl, rfl, rfl, rfl, occupancy, hocc.1, hocc.2, rfl⟩
    obtain ⟨hce, hcr, hcl, hcg, occupancy, hparts, hclas, hdoms⟩ := hcoun
    refine ⟨⟨?_, fun d dom hdm => ?_⟩, by simp only [hce], hcr, hcl, hcg⟩
    · simp only [hce]
      refine hplaced _ fun d hx => ?_
      rw [hdoms, SlotTable.find?_set]
      split
      · exact ⟨_, by rw [hdom]; rfl⟩
      · exact hx
    simp only [hdoms, SlotTable.find?_set] at hdm
    split at hdm
    -- The extent's own domain: the counters are the new sums.
    next hdd =>
      subst hdd
      simp only [hdom, map_some, some.injEq] at hdm
      subst hdm
      refine ⟨fun b => ?_, fun k => ?_, ?_⟩
      · rw [hparts b]
        simp only [bytesOf, hce]
      · rw [hclas k]
        simp only [bytesOf, hce]
      have := bytesOf_set h r' r.view.descriptor.domain (fun _ => true)
      simp only [weight, hd] at this
      simp only [hex.registered]
      simp only [bytesOf, hce] at this ⊢
      omega
    -- Another domain: the extent counts for nothing in it.
    next hdd =>
      have hx := hl.exact d dom hdm
      have hzero : ∀ p, bytesOf { counted with extents := counted.extents.set id r' } d p
          = bytesOf c d p := by
        intro p
        have := bytesOf_set h r' d p
        rw [weight_of_ne (Ne.symm hdd), weight_of_ne (by rw [hd]; exact Ne.symm hdd)] at this
        simp only [bytesOf, hce] at this ⊢
        omega
      exact ⟨fun b => by rw [hx.parts b]; exact (hzero _).symm,
        fun k => by rw [hx.classes k]; exact (hzero _).symm,
        by rw [hx.registered]; exact (hzero _).symm⟩

end

end Change
end JitLlm.Catalog
