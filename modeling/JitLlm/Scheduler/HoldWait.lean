import JitLlm.Scheduler.Kinship
import JitLlm.Scheduler.Whole
import Mathlib.Data.Fintype.Basic
import Mathlib.Data.Fintype.EquivFin
import Mathlib.Data.Fintype.Lattice

/-!
# Holders never wait for holders

`AwaitRelease` looks at who holds a lease when it is called; the task or an ancestor may take one
later, while it still waits. Such a lease is younger than the one waited for. So in a ring of
holders, each with a waiter for the next one's lease at or below it, leases would be younger all
the way round (`Aged`).
-/

namespace JitLlm.Scheduler

open Base Lib
open Catalog hiding Operation Reachable

variable {x : Config} {s s' : Scheduler} {k k' : List Debt} {w : World}

structure Keeps (s : Scheduler) (lease : LeaseId) (held : Held) : Prop where
  found : s.held.find? lease = some held
  standing : held.ending = false

theorem holds_iff {t : TaskId} :
    s.holds t = true ↔ ∃ lease held, s.Keeps lease held ∧ held.task = t := by
  unfold holds
  simp only [List.any_eq_true, Bool.and_eq_true, decide_eq_true_eq, Bool.not_eq_true', Prod.exists]
  constructor
  · rintro ⟨lease, held, hmem, htask, hend⟩
    exact ⟨lease, held, ⟨OrdMap.mem_entries_iff.mp hmem, hend⟩, htask⟩
  rintro ⟨lease, held, ⟨hfound, hend⟩, htask⟩
  exact ⟨lease, held, OrdMap.mem_entries_iff.mpr hfound, htask, hend⟩

theorem ancestorHolds_false {fuel : Nat} {d a : TaskId} (h : s.ancestorHolds fuel d = .ok false)
    (hb : s.tasks.Below d a) : s.holds a = false := by
  induction hb generalizing fuel with
  | self =>
    rcases fuel with _ | fuel
    · cases h
    unfold ancestorHolds at h
    split at h
    · cases h
    · next hno => simpa using hno
  | up found parent above ih =>
    rcases fuel with _ | _
    · cases h
    unfold ancestorHolds at h
    split at h
    · cases h
    rw [found, Option.bind_some, parent] at h
    exact ih h

/-! ## What a way does to the leases held -/

def Fewer (s s' : Scheduler) : Prop :=
  ∀ lease held', s'.held.find? lease = some held' → ∃ held, s.held.find? lease = some held ∧
    held'.task = held.task ∧ (held'.ending = false → held.ending = false) ∧
    ∀ d ∈ held'.waiters, d ∈ held.waiters

theorem Fewer.of (h : s'.held = s.held) : Fewer s s' := by
  intro lease held hfound
  rw [h] at hfound
  exact ⟨held, hfound, rfl, fun he => he, fun _ hd => hd⟩

theorem Fewer.insert {lease : LeaseId} {held held' : Held} (hfound : s.held.find? lease = some held)
    (heq : s'.held = s.held.insert lease held') (htask : held'.task = held.task)
    (hend : held'.ending = false → held.ending = false)
    (hwait : ∀ d ∈ held'.waiters, d ∈ held.waiters) : Fewer s s' := by
  intro lease' held'' hfound''
  rw [heq, OrdMap.find?_insert] at hfound''
  split at hfound''
  · next h =>
    cases hfound''
    exact ⟨held, h ▸ hfound, htask, hend, hwait⟩
  · exact ⟨held'', hfound'', rfl, fun he => he, fun _ hd => hd⟩

/-- What a way may do to the leases held: nothing new, a new lease, or a waiter that holds none
    and whose ancestors hold none, unless the lease is ending. -/
inductive Leases (s s' : Scheduler) : Prop
  | fewer (fewer : Fewer s s')
  | hold {lease : LeaseId} {held : Held} (held_eq : s'.held = s.held.insert lease held)
      (waiters : held.waiters = [])
  | wait {lease : LeaseId} {held : Held} {r : TaskRecord}
      (found : s.held.find? lease = some held)
      (held_eq : s'.held = s.held.insert lease { held with waiters := held.waiters ++ [r.id] })
      (asked : Asks s r) (free : held.ending = true ∨ ∃ fuel, s.ancestorHolds fuel r.id = .ok false)

theorem lease_fewer {t : TaskId} {basis : Over} {own held : Option LeaseId}
    (h : s.lease t basis = .ok (.ok (own, held), s')) : Fewer s s' := by
  unfold lease at h
  cases basis with
  | held lease =>
    simp only at h
    split at h
    · cases h
    next held' hfound =>
    split at h
    · cases h
    split at h
    · cases h
    split at h
    · cases h
    cases h
    exact .insert hfound rfl rfl (fun he => he) (fun _ hd => hd)
  | closure =>
    simp only at h
    split at h
    · cases h
    obtain ⟨⟨answer, c⟩, -, h⟩ := bind_ok h
    rcases answer with _ | _
    · cases h
    obtain ⟨⟨⟨⟩, c'⟩, -, h⟩ := bind_ok h
    cases h
    exact .of rfl

theorem Move.leases (h : Move x s k s' k') : Leases s s' := by
  cases h with
  | keep still | endLoad still | park still => exact .fewer (.of still.held)
  | wake t failed woken =>
    obtain ⟨records, ready, rfl⟩ := ((wake_woken t failed).val woken).eq
    exact .fewer (.of rfl)
  | task moved =>
    obtain ⟨tasks, records, rfl⟩ := moved.eq
    exact .fewer (.of rfl)
  | load begins => exact .fewer (.of begins.still.held)
  | loadOwn handed begins =>
    exact .fewer (.of (begins.still.held.trans handed.ends.still.held))
  | loadFrom other begins reuse handed =>
    exact .fewer (.of (handed.ends.still.held.trans begins.still.held))
  | evict catalog | evictOnce catalog =>
    rw [catalog]
    exact .fewer (.of rfl)
  | joinLoad | joinEviction | loseWork | leave => exact .fewer (.of rfl)
  | endEviction ends => exact .fewer (.of ends.still.held)
  | submit asked leased prepared work running made cell absent opened =>
    have hheld := congrArg Scheduler.held opened
    exact .fewer fun lease held hfound => lease_fewer leased lease held (hheld ▸ hfound)
  | endWork found work running retired lease kept ends held =>
    split at held
    · exact .fewer (.of held.1)
    obtain ⟨held', hfound, -, heq, -⟩ := held
    exact .fewer (.insert hfound heq rfl (fun he => he) (fun _ hd => hd))
  | hold => exact .hold rfl rfl
  | ending found => exact .fewer (.insert found rfl rfl nofun (fun _ hd => hd))
  | waitOwn found own ending operations fresh asked => exact .wait found rfl asked (.inl ending)
  | waitRelease found other free fresh asked => exact .wait found rfl asked (.inr ⟨_, free⟩)
  | release =>
    refine .fewer fun lease' held' hfound => ?_
    simp only [OrdMap.find?_erase] at hfound
    split at hfound
    · cases hfound
    · exact ⟨held', hfound, rfl, fun he => he, fun _ hd => hd⟩
  | leaveHeld =>
    refine .fewer fun lease' held' hfound => ?_
    simp only [OrdMap.find?_mapVals] at hfound
    obtain ⟨held, hheld, rfl⟩ := Option.map_eq_some_iff.mp hfound
    refine ⟨held, hheld, rfl, fun he => ?_, fun d hd => ?_⟩
    · simp only [Held.leave, Bool.or_eq_false_iff] at he
      exact he.1
    · exact (List.mem_filter.mp hd).1

/-! ## Ages -/

/-- Leases have ages, and whoever is at or below a holder and waits for a standing lease waits for
    one older than the holder's. -/
structure Aged (s : Scheduler) (rank : LeaseId → Nat) (bound : Nat) : Prop where
  bounded : ∀ lease held, s.held.find? lease = some held → rank lease < bound
  past : ∀ lease held, s.held.find? lease = some held → ∀ d ∈ held.waiters, s.tasks.tasks.Past d
  older : ∀ lease held, s.Keeps lease held → ∀ d ∈ held.waiters, ∀ own mine, s.Keeps own mine →
    s.tasks.Below d mine.task → rank lease < rank own

section Step

variable {rank : LeaseId → Nat} {bound : Nat}

section

variable (h : Aged s rank bound) (hr : Roster s k) (hkin : s.tasks.Kin s'.tasks)
include h hr hkin

theorem Aged.fewer (hfewer : Fewer s s') : Aged s' rank bound := by
  have hkeeps : ∀ lease held', s'.Keeps lease held' → ∃ held, s.Keeps lease held ∧
      held'.task = held.task ∧ ∀ d ∈ held'.waiters, d ∈ held.waiters := by
    rintro lease held' ⟨hfound, hstan⟩
    obtain ⟨held, h1, h2, h3, h4⟩ := hfewer lease held' hfound
    exact ⟨held, ⟨h1, h3 hstan⟩, h2, h4⟩
  constructor
  · intro lease held' hfound
    obtain ⟨held, h1, -, -, -⟩ := hfewer lease held' hfound
    exact h.bounded lease held h1
  · intro lease held' hfound d hd
    obtain ⟨held, h1, -, -, h4⟩ := hfewer lease held' hfound
    exact hkin.onward d (h.past lease held h1 d (h4 d hd))
  intro lease held' hkeep d hd own mine' hmine hbelow
  obtain ⟨held, h1, -, h3⟩ := hkeeps lease held' hkeep
  obtain ⟨mine, m1, m2, -⟩ := hkeeps own mine' hmine
  have hpast := h.past lease held h1.found d (h3 d hd)
  exact h.older lease held h1 d (h3 d hd) own mine m1 (m2 ▸ hkin.above hr.parent hpast hbelow)

theorem Aged.hold {lease : LeaseId} {held : Held} (heq : s'.held = s.held.insert lease held)
    (hwait : held.waiters = []) : Aged s' (Function.update rank lease bound) (bound + 1) := by
  have hfound : ∀ lease' held', s'.held.find? lease' = some held' →
      (lease' = lease ∧ held' = held) ∨ (lease' ≠ lease ∧ s.held.find? lease' = some held') := by
    intro lease' held' hf
    rw [heq, OrdMap.find?_insert] at hf
    split at hf
    · next h => exact .inl ⟨h, (Option.some.inj hf).symm⟩
    · next h => exact .inr ⟨h, hf⟩
  constructor
  · intro lease' held' hf
    rcases hfound lease' held' hf with ⟨rfl, -⟩ | ⟨hne, hf⟩
    · rw [Function.update_self]
      exact Nat.lt_succ_self bound
    rw [Function.update_of_ne hne]
    exact Nat.lt_succ_of_lt (h.bounded lease' held' hf)
  · intro lease' held' hf d hd
    rcases hfound lease' held' hf with ⟨-, rfl⟩ | ⟨-, hf⟩
    · rw [hwait] at hd
      exact absurd hd List.not_mem_nil
    · exact hkin.onward d (h.past lease' held' hf d hd)
  intro lease' held' hkeep d hd own mine hmine hbelow
  rcases hfound lease' held' hkeep.found with ⟨-, rfl⟩ | ⟨hne, hf⟩
  · rw [hwait] at hd
    exact absurd hd List.not_mem_nil
  rw [Function.update_of_ne hne]
  rcases hfound own mine hmine.found with ⟨rfl, -⟩ | ⟨hne', hf'⟩
  · rw [Function.update_self]
    exact h.bounded lease' held' hf
  rw [Function.update_of_ne hne']
  exact h.older lease' held' ⟨hf, hkeep.standing⟩ d hd own mine ⟨hf', hmine.standing⟩
    (hkin.above hr.parent (h.past lease' held' hf d hd) hbelow)

theorem Aged.wait
    {lease : LeaseId} {held : Held} {r : TaskRecord} (found : s.held.find? lease = some held)
    (heq : s'.held = s.held.insert lease { held with waiters := held.waiters ++ [r.id] })
    (asked : Asks s r) (free : held.ending = true ∨ ∃ fuel, s.ancestorHolds fuel r.id = .ok false) :
    Aged s' rank bound := by
  have hback : ∀ lease' held', s'.held.find? lease' = some held' → ∃ held0,
      s.held.find? lease' = some held0 ∧ held'.task = held0.task ∧ held'.ending = held0.ending ∧
      ∀ d ∈ held'.waiters, d ∈ held0.waiters ∨ (d = r.id ∧ held0 = held) := by
    intro lease' held' hf
    rw [heq, OrdMap.find?_insert] at hf
    split at hf
    · next h =>
      cases hf
      refine ⟨held, h ▸ found, rfl, rfl, fun d hd => ?_⟩
      rcases List.mem_append.mp hd with hd | hd
      · exact .inl hd
      · exact .inr ⟨List.mem_singleton.mp hd, rfl⟩
    · exact ⟨held', hf, rfl, rfl, fun d hd => .inl hd⟩
  have hpast : s.tasks.tasks.Past r.id := by
    obtain ⟨v, hv, -⟩ := hr.known r.id r asked.1
    exact TaskTable.past_of_describe hv
  constructor
  · intro lease' held' hf
    obtain ⟨held0, h1, -⟩ := hback lease' held' hf
    exact h.bounded lease' held0 h1
  · intro lease' held' hf d hd
    obtain ⟨held0, h1, -, -, h4⟩ := hback lease' held' hf
    rcases h4 d hd with hd | ⟨rfl, -⟩
    · exact hkin.onward d (h.past lease' held0 h1 d hd)
    · exact hkin.onward _ hpast
  intro lease' held' hkeep d hd own mine' hmine hbelow
  obtain ⟨held0, h1, -, h3, h4⟩ := hback lease' held' hkeep.found
  obtain ⟨mine, m1, m2, m3, -⟩ := hback own mine' hmine.found
  have hmine0 : s.Keeps own mine := ⟨m1, m3 ▸ hmine.standing⟩
  rw [m2] at hbelow
  rcases h4 d hd with hd | ⟨rfl, rfl⟩
  · exact h.older lease' held0 ⟨h1, h3 ▸ hkeep.standing⟩ d hd own mine hmine0
      (hkin.above hr.parent (h.past lease' held0 h1 d hd) hbelow)
  -- the check of the ancestors passed the holder
  rcases free with hend | ⟨fuel, hfree⟩
  · exact nomatch hkeep.standing.symm.trans (h3.trans hend)
  have hnone := ancestorHolds_false hfree (hkin.above hr.parent hpast hbelow)
  have hholds : s.holds mine.task = true := holds_iff.mpr ⟨own, mine, hmine0, rfl⟩
  cases hnone.symm.trans hholds

end

end Step

def Ordered (s : Scheduler) : Prop := ∃ rank bound, Aged s rank bound

section

variable (h : Ordered s) (hr : Roster s k)
include h hr

theorem Ordered.leases (hkin : s.tasks.Kin s'.tasks) (hleases : Leases s s') : Ordered s' := by
  obtain ⟨rank, bound, h⟩ := h
  cases hleases with
  | fewer fewer => exact ⟨rank, bound, h.fewer hr hkin fewer⟩
  | hold held_eq waiters => exact ⟨_, _, h.hold hr hkin held_eq waiters⟩
  | wait found held_eq asked free => exact ⟨rank, bound, h.wait hr hkin found held_eq asked free⟩

theorem Ordered.way {own : Set Label} (hw : Way x own s k s' k') : Ordered s' := by
  refine h.leases hr (hw.kin hr) ?_
  cases hw with
  | move moved => exact moved.leases
  | finish | pop => exact .fewer (.of rfl)
  | owner op may called =>
    rcases ownerCall_log called with ⟨catalog, rfl, -⟩ | ⟨e, catalog, -, -, rfl⟩
    · exact .fewer (.of rfl)
    · exact .fewer (.of rfl)
  | register =>
    obtain ⟨sources, log, heq⟩ := setSource_eq x s _ _
    exact .fewer (.of (by rw [heq]))

theorem Ordered.ways {own : Set Label} (hw : Ways x own s k s' k') : Ordered s' := by
  induction hw with
  | refl => exact h
  | tail hbef hstep ih => exact ih.way (hr.ways hbef) hstep

end

theorem Reachable.ordered (h : Reachable x w) : Ordered w.state := by
  induction h with
  | start => exact ⟨fun _ => 0, 1, nofun, nofun, fun _ _ hkeep => nomatch hkeep.found⟩
  | step label hreach hstep ih =>
    exact ih.ways hreach.fine.roster ((hreach.fine.step label).val hstep _ rfl).ways

/-! ## Rings -/

/-- A task at or below `t` waits for the release of a standing lease of `u`'s. -/
def WaitsOn (s : Scheduler) (t u : TaskId) : Prop :=
  ∃ d lease held, s.tasks.Below d t ∧ s.Keeps lease held ∧ held.task = u ∧ d ∈ held.waiters

/-- There is no ring of holders of standing leases, each with a waiter at or below it for the next
    one's: going round, each lease waited for would be older than the last. -/
theorem reachable_no_ring (h : Reachable x w) : ¬∃ (n : Nat) (ring : Fin (n + 1) → TaskId), ∀ i,
    Unfinished w.state (ring i) ∧ w.state.holds (ring i) = true ∧
      w.state.WaitsOn (ring i) (ring (i + 1)) := by
  rintro ⟨n, ring, hring⟩
  obtain ⟨rank, bound, haged⟩ := h.ordered
  have hwaits : ∀ i, ∃ lease held, w.state.Keeps lease held ∧ held.task = ring (i + 1) ∧
      ∀ own mine, w.state.Keeps own mine → mine.task = ring i → rank lease < rank own := by
    intro i
    obtain ⟨-, -, d, lease, held, hbelow, hkeep, htask, hd⟩ := hring i
    refine ⟨lease, held, hkeep, htask, fun own mine hmine hown => ?_⟩
    exact haged.older lease held hkeep d hd own mine hmine (hown ▸ hbelow)
  choose lease held hkeep htask hyoun using hwaits
  have holder : ∀ i, rank (lease (i + 1)) < rank (lease i) := fun i =>
    hyoun (i + 1) (lease i) (held i) (hkeep i) (htask i)
  obtain ⟨i, hi⟩ := Finite.exists_min fun i => rank (lease i)
  exact absurd (holder i) (Nat.not_lt.mpr (hi (i + 1)))

def heldLabels : List Label :=
  loadedLabels ++ [.work .accepted, .next, .call (.holdLease { extents := [(⟨0, 1⟩, 1)] }),
    .yield .yield .succeeded, .start 2 true 0, .next, .yield .yield .succeeded, .next,
    .call (.awaitRelease [⟨0, 1⟩])]

theorem reachable_no_ring_held : ∃ w,
    runLabels oneLane { state := initial oneLane } heldLabels = some w ∧
      w.state.held.entries.map (fun p => p.2.waiters) = [[⟨1, 1⟩]] ∧
      ¬∃ (n : Nat) (ring : Fin (n + 1) → TaskId), ∀ i, Unfinished w.state (ring i) ∧
        w.state.holds (ring i) = true ∧ w.state.WaitsOn (ring i) (ring (i + 1)) := by
  have hrun : (runLabels oneLane { state := initial oneLane } heldLabels).map
      (fun w => w.state.held.entries.map fun p => p.2.waiters) = some [[⟨1, 1⟩]] := by decide +kernel
  obtain ⟨w, hw, hheld⟩ := Option.map_eq_some_iff.mp hrun
  exact ⟨w, hw, hheld, reachable_no_ring (runLabels_reachable .start hw)⟩

end JitLlm.Scheduler
