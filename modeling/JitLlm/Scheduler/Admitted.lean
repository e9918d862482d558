import JitLlm.Scheduler.Admission
import JitLlm.Memory.Cohorts
import JitLlm.Lib.Sat

/-!
# Admission keeps its promises

Every live request is in the list its state says, an admitted one has a live grant of its own, and
the ledger's cohort and promised resumption are those of the running set and the open pause. What
`SyncCohort` then asks of the ledger is what the ledger already holds, so none of its checks fires.
-/

namespace JitLlm.Admission

open Base Lib Memory Option
open List (mem_append mem_cons_of_mem mem_cons_self mem_singleton)

variable {a a' : Admission} {id : RequestId} {now : Tick}

/-! ## The invariant -/

def stateIn (t : SlotTable .request Request) (id : RequestId) : Option RequestState :=
  (t.find? id).map Request.state

def grantIn (t : SlotTable .request Request) (id : RequestId) : Option GrantId :=
  (t.find? id).bind Request.grant

def stateAt (a : Admission) (id : RequestId) : Option RequestState := stateIn a.requests id

def grantAt (a : Admission) (id : RequestId) : Option GrantId := grantIn a.requests id

def list (a : Admission) : RequestState → List RequestId
  | .queued => a.queued
  | .waiting => a.waiting
  | .running => a.running
  | .paused => a.paused.toList
  | .retired => []

def grantsOf (a : Admission) (ids : List RequestId) : List GrantId := ids.filterMap a.grantAt

def promise (a : Admission) : Option (List GrantId × GrantId) :=
  match a.paused, a.substitute with
  | some paused, some substitute =>
    (a.grantAt substitute).map fun grant =>
      (a.grantsOf (erase a.running substitute ++ [paused]), grant)
  | _, _ => none

structure Listed (a : Admission) : Prop where
  nodup : ∀ s, (a.list s).Nodup
  mem : ∀ s id, id ∈ a.list s ↔ a.stateAt id = some s

/-- The admitted requests hold grants of the domain, each its own. -/
structure Granted (a : Admission) : Prop where
  queued : ∀ id, a.stateAt id = some .queued → a.grantAt id = none
  admitted : ∀ id s, a.stateAt id = some s → s ≠ .queued → ∃ g, a.grantAt id = some g
  live : ∀ id g, a.grantAt id = some g → a.ledger.isGrantOf a.domain g = true
  distinct : ∀ id id' g, a.grantAt id = some g → a.grantAt id' = some g → id = id'

structure Consistent (a : Admission) : Prop where
  ledger : a.ledger.Sound
  listed : a.Listed
  granted : a.Granted
  paired : a.paused.isSome = a.substitute.isSome
  substitute : ∀ s, a.substitute = some s → s ∈ a.running
  promised : a.ledger.Promised a.domain (a.grantsOf a.running) a.promise

def Idle (a : Admission) : Prop := a.running = [] → a.waiting = []

/-! ## Grants of lists -/

variable {ids : List RequestId}

theorem grantsOf_congr (h : ∀ x ∈ ids, a'.grantAt x = a.grantAt x) :
    a'.grantsOf ids = a.grantsOf ids := List.filterMap_congr h

theorem grantsOf_table {t : SlotTable .request Request} (h : ∀ x, grantIn t x = a.grantAt x)
    (ids : List RequestId) : ids.filterMap (grantIn t) = a.grantsOf ids :=
  List.filterMap_congr fun x _ => h x

theorem mem_grantsOf {g : GrantId} :
    g ∈ a.grantsOf ids ↔ ∃ id ∈ ids, a.grantAt id = some g := List.mem_filterMap

theorem mem_erase {x : RequestId} : x ∈ erase ids id ↔ x ∈ ids ∧ x ≠ id := by
  simp [erase]

theorem erase_of_not_mem (h : id ∉ ids) : erase ids id = ids :=
  List.filter_eq_self.mpr fun x hx => decide_eq_true fun heq : x = id => h (heq ▸ hx)

def Distinct (a : Admission) : Prop :=
  ∀ id id' g, a.grantAt id = some g → a.grantAt id' = some g → id = id'

theorem grantsOf_erase {g : GrantId} (hd : a.Distinct) (hg : a.grantAt id = some g)
    (ids : List RequestId) : (a.grantsOf ids).filter (· ≠ g) = a.grantsOf (erase ids id) := by
  induction ids with
  | nil => rfl
  | cons x rest ih =>
    by_cases hx : x = id
    · subst hx
      have herase : erase (x :: rest) x = erase rest x := by simp [erase]
      rw [herase, ← ih]
      simp [grantsOf, hg]
    have herase : erase (x :: rest) id = x :: erase rest id := by simp [erase, hx]
    rw [herase]
    unfold grantsOf at ih ⊢
    rcases hgx : a.grantAt x with _ | g'
    · simpa [List.filterMap_cons, hgx] using ih
    have hne : g' ≠ g := fun heq => hx (hd x id g (heq ▸ hgx) hg)
    rw [List.filterMap_cons_some hgx, List.filterMap_cons_some hgx,
      List.filter_cons_of_pos (by simpa using hne), ih]

def Hold (a : Admission) (ids : List RequestId) : Prop :=
  ∀ id ∈ ids, ∃ g, a.grantAt id = some g ∧ a.ledger.isGrantOf a.domain g = true

theorem Hold.grants (h : a.Hold ids) : a.grants ids = .ok (a.grantsOf ids) := by
  unfold Admission.grants grantsOf
  induction ids with
  | nil => rfl
  | cons x rest ih =>
    obtain ⟨g, hg, -⟩ := h x mem_cons_self
    have hx : a.grantOf x = .ok g := by
      unfold grantOf
      rw [show (a.requests.find? x).bind Request.grant = some g from hg]
      rfl
    rw [List.mapM_cons, hx, ih fun y hy => h y (mem_cons_of_mem _ hy),
      List.filterMap_cons_some hg]
    rfl

theorem Hold.live (h : a.Hold ids) (hd : a.Distinct) (hn : ids.Nodup) :
    a.ledger.Live a.domain (a.grantsOf ids) := by
  refine ⟨?_, fun g hg => ?_⟩
  · unfold grantsOf
    refine hn.filterMap fun x y g hx hy => hd x y g hx hy
  obtain ⟨x, hx, hgx⟩ := mem_grantsOf.mp hg
  obtain ⟨g', hg', hlive⟩ := h x hx
  cases hgx.symm.trans hg'
  exact hlive

theorem Consistent.hold (h : a.Consistent)
    (hids : ∀ x ∈ ids, ∃ s, a.stateAt x = some s ∧ s ≠ .queued) : a.Hold ids := by
  intro x hx
  obtain ⟨s, hs, hne⟩ := hids x hx
  obtain ⟨g, hg⟩ := h.granted.admitted x s hs hne
  exact ⟨g, hg, h.granted.live x g hg⟩

/-! ## `SyncCohort` -/

/-- What `SyncCohort` needs of the running set and the pause: live grants that fit. -/
structure Syncable (a : Admission) : Prop where
  ledger : a.ledger.Sound
  distinct : a.Distinct
  nodup : a.running.Nodup
  hold : a.Hold a.running
  fits : a.ledger.Affords a.domain (a.grantsOf a.running) []
  pause : ∀ p s, a.paused = some p → a.substitute = some s →
    s ∈ a.running ∧ p ∉ a.running ∧ a.Hold [p] ∧
    ∀ g, a.grantAt s = some g →
      a.ledger.Affords a.domain (a.grantsOf (erase a.running s ++ [p])) [g]

theorem Syncable.sync (h : a.Syncable) :
    ∃ ledger, a.syncCohort = .ok { a with ledger } ∧ ledger.Sound ∧
      (∀ g, ledger.isGrantOf a.domain g = a.ledger.isGrantOf a.domain g) ∧
      ledger.Promised a.domain (a.grantsOf a.running) a.promise := by
  obtain ⟨state, hd, -⟩ := id h.fits
  have hcleared := (h.ledger.clearResumption a.domain).1
  rw [CommitmentLedger.clearResumption_ok hd] at hcleared
  -- The cohort, with no resumption promised.
  obtain ⟨members, hmemb, hset⟩ := CommitmentLedger.setCohort_ok
    (l := a.ledger.setDomain a.domain { state with resumption := none })
    (OrdMap.find?_insert_self _ _ _) rfl
    (show CommitmentLedger.Live _ a.domain (a.grantsOf a.running) from
      ⟨(h.hold.live h.distinct h.nodup).nodup, (h.hold.live h.distinct h.nodup).grant⟩)
    (h.fits.setDomain hd rfl rfl rfl)
  have hcoh := (hcleared.setCohort a.domain (a.grantsOf a.running)).1
  rw [hset] at hcoh
  unfold syncCohort
  rw [CommitmentLedger.clearResumption_ok hd]
  simp only [ensure, ok_bind, h.hold.grants, hset]
  rcases hp : a.paused with _ | p
  · refine ⟨_, rfl, hcoh, fun g => rfl, _, OrdMap.find?_insert_self _ _ _, hmemb, ?_⟩
    simp [promise, hp]
  rcases hs : a.substitute with _ | s
  · refine ⟨_, rfl, hcoh, fun g => rfl, _, OrdMap.find?_insert_self _ _ _, hmemb, ?_⟩
    simp [promise, hp, hs]
  obtain ⟨hmem, hnot, hholds, hres⟩ := h.pause p s hp hs
  obtain ⟨g, hg, hlive⟩ := h.hold s hmem
  have hholdr : a.Hold (erase a.running s ++ [p]) := by
    intro x hx
    rcases mem_append.mp hx with hx | hx
    · exact h.hold x (mem_erase.mp hx).1
    · exact hholds x hx
  have hnodup : (erase a.running s ++ [p]).Nodup := by
    refine List.nodup_append.mpr ⟨h.nodup.filter _, List.nodup_singleton p, ?_⟩
    rintro x hx y hy rfl
    exact hnot (mem_singleton.mp hy ▸ (mem_erase.mp hx).1)
  have hapart : g ∉ a.grantsOf (erase a.running s ++ [p]) := by
    intro hmem'
    obtain ⟨x, hx, hgx⟩ := mem_grantsOf.mp hmem'
    have heq := h.distinct x s g hgx hg
    subst heq
    rcases mem_append.mp hx with hx | hx
    · exact (mem_erase.mp hx).2 rfl
    · exact hnot (mem_singleton.mp hx ▸ hmem)
  have hthen : (a.ledger.setDomain a.domain { state with resumption := none }).Affords a.domain
      (a.grantsOf (erase a.running s ++ [p])) [g] := (hres g hg).setDomain hd rfl rfl rfl
  obtain ⟨members', hmemb', hset'⟩ := CommitmentLedger.setResumption_ok
    (l := (a.ledger.setDomain a.domain { state with resumption := none }).setDomain a.domain
      { state with resumption := none, cohort := members })
    (OrdMap.find?_insert_self _ _ _)
    (show CommitmentLedger.Live _ a.domain (a.grantsOf (erase a.running s ++ [p])) from
      ⟨(hholdr.live h.distinct hnodup).nodup, (hholdr.live h.distinct hnodup).grant⟩)
    hlive hapart (hthen.setDomain (OrdMap.find?_insert_self _ _ _) rfl rfl rfl)
  have hresu := (hcoh.setResumption a.domain (a.grantsOf (erase a.running s ++ [p])) g).1
  rw [hset'] at hresu
  have hgrant : a.grantOf s = .ok g := by
    unfold grantOf
    rw [show (a.requests.find? s).bind Request.grant = some g from hg]
    rfl
  simp only [hholdr.grants, hgrant, ok_bind, hset']
  refine ⟨_, rfl, hresu, fun g => rfl, _, OrdMap.find?_insert_self _ _ _, hmemb, ?_⟩
  simp only [promise, hp, hs, hg, map_some]
  exact ⟨_, rfl, rfl, hmemb'⟩

/-! ## Changes of the request table -/

section Table

variable {t t' : SlotTable .request Request} {r r' : Request}

theorem stateIn_set (h : t.find? id = some r) (x : RequestId) :
    stateIn (t.set id r') x = if x = id then some r'.state else stateIn t x := by
  unfold stateIn
  rw [SlotTable.find?_set, h]
  split <;> rfl

theorem grantIn_set (h : t.find? id = some r) (x : RequestId) :
    grantIn (t.set id r') x = if x = id then r'.grant else grantIn t x := by
  unfold grantIn
  rw [SlotTable.find?_set, h]
  split <;> rfl

theorem stateIn_erase (x : RequestId) :
    stateIn (t.erase id) x = if x = id then none else stateIn t x := by
  unfold stateIn
  rw [SlotTable.find?_erase]
  split <;> rfl

theorem grantIn_erase (x : RequestId) :
    grantIn (t.erase id) x = if x = id then none else grantIn t x := by
  unfold grantIn
  rw [SlotTable.find?_erase]
  split <;> rfl

theorem stateIn_insert (h : t.insert r = some (id, t')) (x : RequestId) :
    stateIn t' x = if x = id then some r.state else stateIn t x := by
  unfold stateIn
  rw [SlotTable.find?_insert h]
  split <;> rfl

theorem grantIn_insert (h : t.insert r = some (id, t')) (x : RequestId) :
    grantIn t' x = if x = id then r.grant else grantIn t x := by
  unfold grantIn
  rw [SlotTable.find?_insert h]
  split <;> rfl

theorem find_of_stateIn {s : RequestState} (h : stateIn t id = some s) :
    ∃ r, t.find? id = some r ∧ r.state = s := map_eq_some_iff.mp h

theorem stateIn_of_find (h : t.find? id = some r) : stateIn t id = some r.state := by
  rw [stateIn, h]
  rfl

theorem grantIn_of_find (h : t.find? id = some r) : grantIn t id = r.grant := by
  rw [grantIn, h]
  rfl

end Table

variable {t : SlotTable .request Request}

theorem Consistent.same (h : a.Consistent)
    (hs : stateIn t = stateIn a.requests) (hg : grantIn t = grantIn a.requests) :
    Consistent { a with requests := t } := by
  have hstate : stateAt { a with requests := t } = a.stateAt := hs
  have hgrant : grantAt { a with requests := t } = a.grantAt := hg
  refine ⟨h.ledger, ⟨h.listed.nodup, ?_⟩, ⟨?_, ?_, ?_, ?_⟩, h.paired, h.substitute, ?_⟩
  · rw [hstate]
    exact h.listed.mem
  · rw [hstate, hgrant]
    exact h.granted.queued
  · rw [hstate, hgrant]
    exact h.granted.admitted
  · rw [hgrant]
    exact h.granted.live
  · rw [hgrant]
    exact h.granted.distinct
  have hp := h.promised
  unfold promise grantsOf at hp ⊢
  rw [hgrant]
  exact hp

variable {before after : Option RequestState}

theorem Listed.move (h : a.Listed) (hbef : a.stateAt id = before)
    (hstate : ∀ x, a'.stateAt x = if x = id then after else a.stateAt x)
    (hlist : ∀ s, (a'.list s).Perm ((if before = some s then erase (a.list s) id else a.list s) ++
      if after = some s then [id] else [])) : a'.Listed := by
  -- In either case it is the old list without the request, then the request if it moves here.
  have hlist' : ∀ s, (a'.list s).Perm (erase (a.list s) id ++ if after = some s then [id] else []) := by
    intro s
    refine (hlist s).trans (List.Perm.of_eq ?_)
    split
    · rfl
    rename_i hne
    rw [erase_of_not_mem fun hmem => hne (hbef ▸ (h.mem s id).mp hmem)]
  refine ⟨fun s => (hlist' s).nodup_iff.mpr (List.nodup_append.mpr ⟨(h.nodup s).filter _, ?_, ?_⟩),
    fun s x => ?_⟩
  · split
    · exact List.nodup_singleton id
    · exact List.nodup_nil
  · intro x hx y hy
    split at hy
    · rw [mem_singleton.mp hy]
      exact (mem_erase.mp hx).2
    · cases hy
  rw [(hlist' s).mem_iff, mem_append, mem_erase, h.mem s x, hstate]
  by_cases hx : x = id
  · simp [hx]
  simp only [hx, ne_eq, not_false_eq_true, and_true, if_false, or_iff_left_iff_imp]
  split
  · intro hmem
    exact absurd (mem_singleton.mp hmem) hx
  · simp

/-! ## What only reads never fails -/

abbrev Sure {α : Type} (P : α → Prop) (x : Checked α) : Prop := Sat (fun _ => False) P x

def Alive (a : Admission) (ids : List RequestId) : Prop := ∀ x ∈ ids, ∃ s, a.stateAt x = some s

theorem Listed.alive (h : a.Listed) (s : RequestState) : a.Alive (a.list s) :=
  fun x hx => ⟨s, (h.mem s x).mp hx⟩

variable {ids : List RequestId} {x : RequestId}

theorem Alive.find (h : a.Alive ids) (hx : x ∈ ids) : ∃ r, a.requests.find? x = some r := by
  obtain ⟨s, hs⟩ := h x hx
  obtain ⟨r, hr, -⟩ := find_of_stateIn hs
  exact ⟨r, hr⟩

theorem Alive.valid (h : a.Alive ids) (hx : x ∈ ids) : x.valid = true := by
  obtain ⟨r, hr⟩ := h.find hx
  by_contra hv
  rw [SlotTable.find?_of_not_valid (Bool.eq_false_iff.mpr hv)] at hr
  cases hr

variable {r : Request}

theorem request_ok (h : a.requests.find? id = some r) : a.request id = .ok r := by
  rw [request, h]
  rfl

theorem Alive.request (h : a.Alive ids) (hx : x ∈ ids) : Sure (fun _ => True) (a.request x) := by
  obtain ⟨r, hr⟩ := h.find hx
  rw [request_ok hr]
  trivial

theorem Alive.mapM (h : a.Alive ids) : Sure (fun _ => True) (ids.mapM a.request) := by
  induction ids with
  | nil => trivial
  | cons x rest ih =>
    rw [List.mapM_cons]
    refine (h.request mem_cons_self).bind fun r _ => ?_
    exact (ih fun y hy => h y (mem_cons_of_mem _ hy)).bind fun rs _ => trivial

/-- What the estimates follow: live requests in every list, grants of the running ones, and a
    domain the ledger holds. -/
structure Readable (a : Admission) : Prop where
  queued : a.Alive a.queued
  waiting : a.Alive a.waiting
  running : a.Alive a.running
  paused : a.Alive a.paused.toList
  hold : a.Hold a.running
  totals : (a.ledger.totals a.domain).isSome = true

theorem Consistent.readable (h : a.Consistent) : a.Readable := by
  refine ⟨h.listed.alive .queued, h.listed.alive .waiting, h.listed.alive .running,
    h.listed.alive .paused, ?_, ?_⟩
  · exact h.hold fun x hx => ⟨.running, (h.listed.mem .running x).mp hx, by simp⟩
  obtain ⟨state, hd, -⟩ := h.promised
  obtain ⟨totals, htot, -⟩ := ((h.ledger.domains _ _ hd).committed hd).totals
  rw [htot]
  rfl

theorem Readable.fitsAlone (h : a.Readable) (spec : RequestSpec) :
    Sure (fun _ => True) (a.fitsAlone spec) := by
  obtain ⟨totals, htot⟩ := isSome_iff_exists.mp h.totals
  unfold Admission.fitsAlone Admission.totals
  rw [htot]
  simp only [require, ok_bind]
  split <;> trivial

theorem Readable.waitForSlot (h : a.Readable) (target : Request) (immediate : Bool) (now : Tick)
    (soFar : Option Tick × Option Tick) (hid : id ∈ a.running) :
    Sure (fun _ => True) (a.waitForSlot target immediate now soFar id) := by
  unfold Admission.waitForSlot
  refine (h.running.request hid).bind fun r _ => ?_
  have hpeers : a.Hold (erase a.running id) := fun x hx => h.hold x (mem_erase.mp hx).1
  simp only [hpeers.grants, ok_bind]
  split
  · trivial
  split
  · trivial
  · split <;> trivial

theorem Readable.waitAhead (h : a.Readable) (spec : RequestSpec) (sequence : Nat) (now : Tick) :
    Sure (fun _ => True) (a.waitAhead spec sequence now) := by
  unfold Admission.waitAhead
  refine h.queued.mapM.bind fun queued _ => h.waiting.mapM.bind fun waiting _ => ?_
  refine Sat.bind (P := fun _ => True) ?_ fun slot _ => ?_
  · refine (Sat.foldlM (I := fun rest _ => ∀ x ∈ rest, x ∈ a.running) ?_ ?_).imp fun _ _ => trivial
    · intro soFar x rest hrest
      refine (h.waitForSlot _ _ now soFar (hrest x mem_cons_self)).imp fun _ _ y hy => ?_
      exact hrest y (mem_cons_of_mem _ hy)
    · exact fun x hx => hx
  cases hp : a.paused with
  | none => trivial
  | some p => exact (h.paused.request (x := p) (by simp [hp])).bind fun r _ => trivial

theorem Readable.unrunnable (h : a.Readable) (request : Request) (now : Tick) :
    Sure (fun _ => True) (a.unrunnable request now) := by
  unfold Admission.unrunnable
  refine (h.fitsAlone request.spec).bind fun fits _ => ?_
  split
  · trivial
  split
  · trivial
  split
  · trivial
  refine (h.waitAhead request.spec request.sequence now).bind fun wait _ => ?_
  simp only
  split
  · trivial
  · split <;> trivial

/-! ## The choice -/

theorem Readable.peekNext (h : a.Readable) :
    Sure (fun c => (c = none ∧ a.waiting = []) ∨ ∃ id, c = some id ∧ id ∈ a.waiting) a.peekNext := by
  unfold Admission.peekNext
  refine Sat.bind (P := fun chosen => (chosen = {} ∧ a.waiting = []) ∨ chosen ∈ a.waiting) ?_ ?_
  · refine (Sat.foldlM (I := fun rest (chosen : RequestId) =>
      (∀ x ∈ rest, x ∈ a.waiting) ∧ ((chosen = {} ∧ a.waiting = rest) ∨ chosen ∈ a.waiting))
      ?_ ?_).imp ?_
    · rintro chosen x rest ⟨hrest, hchosen⟩
      have hx := hrest x mem_cons_self
      have hrest' : ∀ y ∈ rest, y ∈ a.waiting := fun y hy => hrest y (mem_cons_of_mem _ hy)
      split
      · exact ⟨hrest', .inr hx⟩
      rename_i hvalid
      have hmem : chosen ∈ a.waiting := by
        rcases hchosen with ⟨rfl, -⟩ | hmem
        · exact absurd rfl hvalid
        · exact hmem
      refine (h.waiting.request hx).bind fun r _ => (h.waiting.request hmem).bind fun r' _ => ?_
      split
      · exact ⟨hrest', .inr hx⟩
      · exact ⟨hrest', .inr hmem⟩
    · exact ⟨fun x hx => hx, .inl ⟨rfl, rfl⟩⟩
    rintro chosen ⟨-, hchosen⟩
    exact hchosen
  rintro chosen (⟨rfl, hempty⟩ | hmem)
  · exact .inl ⟨rfl, hempty⟩
  refine .inr ⟨chosen, ?_, hmem⟩
  rw [h.waiting.valid hmem]
  rfl

theorem passOver_state (chosen : RequestClass) (request : Request) :
    (passOver chosen request).state = request.state := by
  unfold passOver
  split <;> rfl

theorem passOver_grant (chosen : RequestClass) (request : Request) :
    (passOver chosen request).grant = request.grant := by
  unfold passOver
  split <;> rfl

theorem modify_ok (h : a.requests.find? id = some r) (f : Request → Request) :
    a.modify id f = .ok { a with requests := a.requests.set id (f r) } := by
  rw [modify, request_ok h]
  rfl

theorem set_same (h : t.find? id = some r)
    (r' : Request) (hs : r'.state = r.state) (hg : r'.grant = r.grant) :
    stateIn (t.set id r') = stateIn t ∧ grantIn (t.set id r') = grantIn t := by
  constructor
  · funext x
    rw [stateIn_set h]
    split
    next hx =>
      rw [hx, stateIn_of_find h, hs]
    · rfl
  funext x
  rw [grantIn_set h]
  split
  next hx =>
    rw [hx, grantIn_of_find h, hg]
  · rfl

theorem Readable.chooseNext (h : a.Readable) :
    Sure (fun y => a.peekNext = .ok y.1 ∧ ∃ t, y.2 = { a with requests := t } ∧
      stateIn t = stateIn a.requests ∧ grantIn t = grantIn a.requests) a.chooseNext := by
  unfold Admission.chooseNext
  refine h.peekNext.self.bind ?_
  rintro c ⟨hc, hpeek⟩
  rcases hc with ⟨rfl, -⟩ | ⟨chosen, rfl, hmem⟩
  · exact ⟨hpeek, a.requests, rfl, rfl, rfl⟩
  refine (h.waiting.request hmem).bind fun r _ => ?_
  refine Sat.bind (P := fun a' : Admission => ∃ t, a' = { a with requests := t } ∧
    stateIn t = stateIn a.requests ∧ grantIn t = grantIn a.requests) ?_ fun a' ha' => ⟨hpeek, ha'⟩
  refine (Sat.foldlM (I := fun rest (a' : Admission) => (∀ x ∈ rest, x ∈ a.waiting) ∧
    ∃ t, a' = { a with requests := t } ∧ stateIn t = stateIn a.requests ∧
      grantIn t = grantIn a.requests) ?_ ?_).imp fun a' ha' => ha'.2
  · rintro a' x rest ⟨hrest, t, rfl, hs, hg⟩
    obtain ⟨s, hx⟩ := h.waiting x (hrest x mem_cons_self)
    obtain ⟨r', hr', -⟩ := find_of_stateIn (show stateIn t x = some s by rw [hs]; exact hx)
    rw [modify_ok (a := { a with requests := t }) hr']
    refine ⟨fun y hy => hrest y (mem_cons_of_mem _ hy), _, rfl, ?_⟩
    have hsame := set_same hr' (if x ≠ chosen then passOver r.spec.requestClass r' else r')
      (by split <;> simp [passOver_state]) (by split <;> simp [passOver_grant])
    exact ⟨hsame.1.trans hs, hsame.2.trans hg⟩
  · exact ⟨fun x hx => hx, a.requests, rfl, rfl, rfl⟩

/-! ## Changes of the running set -/

theorem grantsOf_mem_congr {ids ids' : List RequestId} (h : ∀ x, x ∈ ids ↔ x ∈ ids') (g : GrantId) :
    g ∈ a.grantsOf ids ↔ g ∈ a.grantsOf ids' := by
  simp only [mem_grantsOf, h]

variable {l : CommitmentLedger}

theorem affords_of_check {d : DomainId} {cohort : List GrantId}
    (h : l.check d { cohort := some cohort } = .ok ()) : l.Affords d cohort [] := by
  cases hd : l.domains.find? d with
  | none => simp [CommitmentLedger.check, CommitmentLedger.evaluate, hd] at h
  | some state => exact ⟨state, hd, ((CommitmentLedger.check_ok hd rfl).mp h).1⟩

theorem Granted.restate (h : a.Granted) {s s' : RequestState} (hs : a.stateAt id = some s)
    (hne : s ≠ .queued) (hne' : s' ≠ .queued)
    (hstate : ∀ x, a'.stateAt x = if x = id then some s' else a.stateAt x)
    (hgrant : ∀ x, a'.grantAt x = a.grantAt x) (hled : a'.ledger = a.ledger)
    (hdom : a'.domain = a.domain) : a'.Granted := by
  refine ⟨fun x hx => ?_, fun x s'' hx hs'' => ?_, fun x g hg => ?_, fun x y g hx hy => ?_⟩
  · rw [hstate] at hx
    split at hx
    · exact absurd (some.inj hx) hne'
    · exact (hgrant x).trans (h.queued x hx)
  · rw [hstate] at hx
    rw [hgrant]
    split at hx
    next heq =>
      exact h.admitted x s (heq ▸ hs) hne
    · exact h.admitted x s'' hx hs''
  · rw [hled, hdom]
    exact h.live x g ((hgrant x).symm.trans hg)
  · exact h.distinct x y g ((hgrant x).symm.trans hx) ((hgrant y).symm.trans hy)

theorem Consistent.ofSync (hsound : a.ledger.Sound) (hlis : a.Listed) (hgran : a.Granted)
    (hpaired : a.paused.isSome = a.substitute.isSome)
    (hsub : ∀ s, a.substitute = some s → s ∈ a.running)
    (hfits : a.ledger.Affords a.domain (a.grantsOf a.running) [])
    (hpause : ∀ p s g, a.paused = some p → a.substitute = some s → a.grantAt s = some g →
      a.ledger.Affords a.domain (a.grantsOf (erase a.running s ++ [p])) [g]) :
    ∃ ledger, a.syncCohort = .ok { a with ledger } ∧ Consistent { a with ledger } := by
  have hhold : ∀ s, s ≠ .queued → a.Hold (a.list s) := fun s hs x hx => by
    obtain ⟨g, hg⟩ := hgran.admitted x s ((hlis.mem s x).mp hx) hs
    exact ⟨g, hg, hgran.live x g hg⟩
  have hsync : a.Syncable := by
    refine ⟨hsound, hgran.distinct, hlis.nodup .running, hhold .running (by simp), hfits,
      fun p s hp hs => ⟨hsub s hs, fun hmem => ?_, ?_, fun g hg => hpause p s g hp hs hg⟩⟩
    · have hrun := (hlis.mem .running p).mp hmem
      have hpaused := (hlis.mem .paused p).mp (by simp [list, hp])
      rw [hrun] at hpaused
      cases hpaused
    have hlist := hhold .paused (by simp)
    simpa [list, hp] using hlist
  obtain ⟨ledger, heq, hsound', hlive, hprom⟩ := hsync.sync
  refine ⟨ledger, heq, hsound', ⟨hlis.nodup, hlis.mem⟩, ?_, hpaired, hsub, hprom⟩
  exact ⟨hgran.queued, hgran.admitted, fun x g hg => (hlive g).trans (hgran.live x g hg),
    hgran.distinct⟩

theorem Consistent.giveSlot (h : a.Consistent) (now : Tick) :
    Sure (fun y => y.2.Consistent ∧ y.2.Idle) (a.giveSlot now) := by
  unfold Admission.giveSlot
  split
  next hbusy =>
    refine ⟨h, fun hempty => ?_⟩
    change a.running = [] at hempty
    -- A pause's substitute is running.
    simp only [hempty, List.isEmpty_nil, Bool.not_true, Bool.false_or] at hbusy
    have hsome := h.paired ▸ hbusy
    obtain ⟨s, hs⟩ := isSome_iff_exists.mp hsome
    have hmem := h.substitute s hs
    rw [hempty] at hmem
    cases hmem
  rename_i hfree
  simp only [Bool.or_eq_true, not_or, Bool.not_eq_true, Bool.not_eq_false', List.isEmpty_iff,
    isSome_eq_false_iff, isNone_iff_eq_none] at hfree
  obtain ⟨hrun, hpaused⟩ := hfree
  refine h.readable.chooseNext.bind ?_
  rintro ⟨c, a1⟩ ⟨hpeek, t, rfl, hs, hg⟩
  have hc := h.readable.peekNext.val hpeek
  have h1 : Consistent { a with requests := t } := h.same hs hg
  rcases hc with ⟨rfl, hwait⟩ | ⟨next, rfl, hnext⟩
  · exact ⟨h1, fun _ => hwait⟩
  simp only
  have hstate : stateIn t next = some .waiting := by
    rw [hs]
    exact (h.listed.mem .waiting next).mp hnext
  obtain ⟨r, hr, hrs⟩ := find_of_stateIn hstate
  rw [modify_ok (a := { a with requests := t }) hr]
  simp only [ok_bind]
  obtain ⟨g, hgrant⟩ := h1.granted.admitted next .waiting hstate (by simp)
  have hstate' : ∀ x, stateIn (t.set next (start now r)) x
      = if x = next then some .running else stateIn t x := fun x => stateIn_set hr x
  have hgrant' : ∀ x, grantIn (t.set next (start now r)) x = grantIn t x := by
    intro x
    rw [grantIn_set hr]
    split
    next hx =>
      rw [hx, grantIn_of_find hr]
      rfl
    · rfl
  have hsub : a.substitute = none := by
    have hp := h.paired
    rw [hpaused] at hp
    simpa using hp.symm
  obtain ⟨ledger, hsync, hcon⟩ := Consistent.ofSync
    (a := { a with
      requests := t.set next (start now r)
      waiting := erase a.waiting next
      running := a.running ++ [next] })
    h.ledger
    (h1.listed.move hstate hstate' fun s => by
      cases s <;> simp [list, hpaused])
    (h1.granted.restate hstate (by simp) (by simp) hstate' hgrant' rfl rfl)
    h.paired
    (fun s hs' => nomatch hsub.symm.trans hs')
    (by
      have halone := (h.promised.affords h.ledger).alone (h1.granted.live next g hgrant)
      have hone : [next].filterMap (grantIn (t.set next (start now r))) = [g] := by
        simp [hgrant' next, show grantIn t next = some g from hgrant]
      show a.ledger.Affords a.domain ((a.running ++ [next]).filterMap (grantIn _)) []
      rw [hrun, List.nil_append, hone]
      exact halone)
    (fun p s g hp => nomatch hpaused.symm.trans hp)
  rw [hsync]
  refine ⟨hcon, fun hempty => ?_⟩
  exact absurd hempty (by simp)

/-! ## Comings and goings -/

theorem promise_congr (hpaused : a'.paused = a.paused) (hsubs : a'.substitute = a.substitute)
    (hrun : a'.running = a.running) (hsub : ∀ s, a.substitute = some s → s ∈ a.running)
    (hgrant : ∀ x, x ∈ a.running ∨ a.paused = some x → a'.grantAt x = a.grantAt x) :
    a'.promise = a.promise := by
  unfold promise
  rw [hpaused, hsubs, hrun]
  rcases hp : a.paused with _ | _
  · rfl
  rcases hs : a.substitute with _ | s
  · rfl
  simp only
  rw [hgrant s (.inl (hsub s hs)), grantsOf_congr fun x hx => ?_]
  refine hgrant x ?_
  rcases mem_append.mp hx with hx | hx
  · exact .inl (mem_erase.mp hx).1
  rw [hp, mem_singleton.mp hx]
  exact .inr rfl

theorem promise_map {f : List GrantId → List GrantId}
    (hf : ∀ p s, a.paused = some p → a.substitute = some s →
      f (a.grantsOf (erase a.running s ++ [p])) = a.grantsOf (erase a.running s ++ [p])) :
    a.promise.map (fun q => (f q.1, q.2)) = a.promise := by
  unfold promise
  rcases hp : a.paused with _ | p
  · rfl
  rcases hs : a.substitute with _ | s
  · rfl
  simp only [map_map]
  refine congrArg (fun k => (a.grantAt s).map k) (funext fun g => ?_)
  exact Prod.ext (hf p s hp hs) rfl

theorem Consistent.renumber (h : a.Consistent) (n : Nat) :
    Consistent { a with nextSequence := n } :=
  ⟨h.ledger, ⟨h.listed.nodup, h.listed.mem⟩,
    ⟨h.granted.queued, h.granted.admitted, h.granted.live, h.granted.distinct⟩, h.paired,
    h.substitute, h.promised⟩

variable {queue : List RequestId}

theorem Consistent.requeue (h : a.Consistent)
        (hbef : a.stateAt id = before)
    (hqueued : (before = none ∧ after = some .queued) ∨ (before = some .queued ∧ after = none))
    (hstate : ∀ x, stateIn t x = if x = id then after else a.stateAt x)
    (hgrant : ∀ x, grantIn t x = a.grantAt x)
    (hqueue : queue.Perm ((if before = some .queued then erase a.queued id else a.queued) ++
      if after = some .queued then [id] else [])) :
    Consistent { a with requests := t, queued := queue } := by
  refine ⟨h.ledger, ?_, ⟨fun x hx => ?_, fun x s hx hs => ?_, fun x g hg => ?_,
    fun x y g hx hy => ?_⟩, h.paired, h.substitute, ?_⟩
  · refine h.listed.move hbef hstate fun s => ?_
    cases s with
    | queued => exact hqueue
    | _ => rcases hqueued with ⟨rfl, rfl⟩ | ⟨rfl, rfl⟩ <;> simp [list]
  · have hx' := (hstate x).symm.trans hx
    refine (hgrant x).trans ?_
    split at hx'
    next heq =>
      rw [heq]
      -- Before it came it held nothing, and while it was queued it held nothing.
      rcases hqueued with ⟨rfl, -⟩ | ⟨rfl, -⟩
      · have hnone : a.requests.find? id = none := map_eq_none_iff.mp hbef
        simp [grantAt, grantIn, hnone]
      · exact h.granted.queued id hbef
    · exact h.granted.queued x hx'
  · have hx' := (hstate x).symm.trans hx
    have hne : x ≠ id := by
      rintro rfl
      rw [if_pos rfl] at hx'
      rcases hqueued with ⟨-, rfl⟩ | ⟨-, rfl⟩
      · exact hs (some.inj hx').symm
      · cases hx'
    rw [if_neg hne] at hx'
    obtain ⟨g, hg⟩ := h.granted.admitted x s hx' hs
    exact ⟨g, (hgrant x).trans hg⟩
  · exact h.granted.live x g ((hgrant x).symm.trans hg)
  · exact h.granted.distinct x y g ((hgrant x).symm.trans hx) ((hgrant y).symm.trans hy)
  have hprom : promise { a with requests := t, queued := queue } = a.promise :=
    promise_congr rfl rfl rfl h.substitute fun x _ => hgrant x
  rw [hprom]
  have hcoh : grantsOf { a with requests := t, queued := queue } a.running
      = a.grantsOf a.running := grantsOf_congr fun x _ => hgrant x
  rw [hcoh]
  exact h.promised

theorem Consistent.admitted (h : a.Consistent)
    {before : Option RequestState} {envelope : Envelope} {g : GrantId}
    {ledger : CommitmentLedger} (hled : a.ledger.grant a.domain envelope = (.ok g, ledger))
    (hbef : a.stateAt id = before) (hqueued : before = none ∨ before = some .queued)
    (hstate : ∀ x, stateIn t x = if x = id then some .waiting else a.stateAt x)
    (hgrant : ∀ x, grantIn t x = if x = id then some g else a.grantAt x)
    (hqueue : queue.Perm (if before = some .queued then erase a.queued id else a.queued)) :
    Consistent { a with ledger, requests := t, queued := queue, waiting := a.waiting ++ [id] } := by
  obtain ⟨hsteady, hlive, hfresh⟩ := CommitmentLedger.grant_ok hled
  have hsound := (h.ledger.grant a.domain envelope).1
  rw [hled] at hsound
  have hout : ∀ s, a.stateAt id = some s → s = .queued := by
    intro s hs
    rcases hqueued with rfl | rfl
    · cases hbef.symm.trans hs
    · exact (some.inj (hbef.symm.trans hs)).symm
  have hother : ∀ s, s ≠ .queued → ∀ x ∈ a.list s, x ≠ id := by
    rintro s hs x hx rfl
    exact hs (hout s ((h.listed.mem s x).mp hx))
  refine ⟨hsound, ?_, ⟨fun x hx => ?_, fun x s hx hs => ?_, fun x g' hg => ?_,
    fun x y g' hx hy => ?_⟩, h.paired, h.substitute, ?_⟩
  · refine h.listed.move hbef hstate fun s => ?_
    cases s with
    | queued => simpa [list] using hqueue
    | _ => rcases hqueued with rfl | rfl <;> simp [list]
  · have hx' := (hstate x).symm.trans hx
    split at hx'
    · cases hx'
    rename_i hne
    exact (hgrant x).trans ((if_neg hne).trans (h.granted.queued x hx'))
  · have hx' := (hstate x).symm.trans hx
    split at hx'
    next heq =>
      exact ⟨g, (hgrant x).trans (if_pos heq)⟩
    rename_i hne
    obtain ⟨g', hg'⟩ := h.granted.admitted x s hx' hs
    exact ⟨g', (hgrant x).trans ((if_neg hne).trans hg')⟩
  · have hg' := (hgrant x).symm.trans hg
    split at hg'
    · cases hg'
      exact hlive
    · exact hsteady.grant g' (h.granted.live x g' hg')
  · -- The fresh grant was no request's.
    have hnew : ∀ z, a.grantAt z ≠ some g := fun z hz =>
      nomatch (h.granted.live z g hz).symm.trans hfresh
    have hx' := (hgrant x).symm.trans hx
    have hy' := (hgrant y).symm.trans hy
    split at hx' <;> split at hy'
    next hx1 hy1 =>
      rw [hx1, hy1]
    · cases hx'
      exact absurd hy' (hnew y)
    · cases hy'
      exact absurd hx' (hnew x)
    · exact h.granted.distinct x y g' hx' hy'
  have hgrant' : ∀ x, x ∈ a.running ∨ a.paused = some x → grantIn t x = a.grantAt x := by
    intro x hx
    refine (hgrant x).trans (if_neg ?_)
    rcases hx with hx | hx
    · exact hother .running (by simp) x hx
    · exact hother .paused (by simp) x (by simp [list, hx])
  have hprom : promise { a with ledger, requests := t, queued := queue, waiting := a.waiting ++ [id] }
      = a.promise := promise_congr rfl rfl rfl h.substitute hgrant'
  have hcoh : grantsOf { a with ledger, requests := t, queued := queue, waiting := a.waiting ++ [id] }
      a.running = a.grantsOf a.running := grantsOf_congr fun x hx => hgrant' x (.inl hx)
  rw [hprom]
  show ledger.Promised a.domain (grantsOf
    { a with ledger, requests := t, queued := queue, waiting := a.waiting ++ [id] } a.running) _
  rw [hcoh]
  exact h.promised.steady hsteady

/-! ## `Drain` -/

theorem eraseIdx_eq_erase (hn : ids.Nodup) {i : Nat} (hi : ids[i]? = some id) :
    ids.eraseIdx i = erase ids id := by
  obtain ⟨hlt, rfl⟩ := List.getElem?_eq_some_iff.mp hi
  rw [← hn.erase_getElem i hlt, hn.erase_eq_filter, erase]
  exact List.filter_congr fun x _ => by simp [bne, beq_eq_decide]

/-- The `i`-th of the queue is refused. -/
def refuseAt (a : Admission) (i : Nat) (id : RequestId) : Admission :=
  { a with queued := a.queued.eraseIdx i, requests := a.requests.erase id }

theorem Consistent.refuseAt (h : a.Consistent) {i : Nat} (hi : a.queued[i]? = some id) :
    (a.refuseAt i id).Consistent := by
  have hstate := (h.listed.mem .queued id).mp (List.mem_of_getElem? hi)
  refine h.requeue hstate (.inr ⟨rfl, rfl⟩) (fun x => stateIn_erase x) ?_ ?_
  · intro x
    rw [grantIn_erase]
    split
    next hx =>
      rw [hx]
      exact (h.granted.queued id hstate).symm
    · rfl
  have hnodup : a.queued.Nodup := h.listed.nodup .queued
  rw [eraseIdx_eq_erase hnodup hi]
  simp

theorem Consistent.refuseQueued (now : Tick) : ∀ (fuel i : Nat) (so : List (RequestId × AdmissionError))
    {a : Admission}, a.Consistent →
    Sure (fun y => y.2.Consistent ∧ y.2.running = a.running) (refuseQueued now fuel i so a)
  | 0, _, _, _, h => ⟨h, rfl⟩
  | fuel + 1, i, so, a, h => by
    unfold Admission.refuseQueued
    rcases hi : a.queued[i]? with _ | _
    · exact ⟨h, rfl⟩
    obtain ⟨r, hr⟩ := (h.listed.alive .queued).find (List.mem_of_getElem? hi)
    simp only [request_ok hr, ok_bind]
    refine (h.readable.unrunnable r now).bind fun why _ => ?_
    cases why with
    | none => exact Consistent.refuseQueued now fuel (i + 1) so h
    | some => exact Consistent.refuseQueued now fuel i _ (h.refuseAt hi)

theorem Consistent.admitQueued : ∀ (fuel : Nat) {a : Admission}, a.Consistent →
    Sure (fun a' => a'.Consistent ∧ a'.running = a.running) (admitQueued fuel a)
  | 0, _, h => ⟨h, rfl⟩
  | fuel + 1, a, h => by
    unfold Admission.admitQueued
    rcases hq : a.queued with _ | ⟨id, rest⟩
    · exact ⟨h, rfl⟩
    have hmem : id ∈ a.queued := by simp [hq]
    have hstate : a.stateAt id = some .queued := (h.listed.mem .queued id).mp hmem
    obtain ⟨r, hr⟩ := (h.listed.alive .queued).find hmem
    simp only [request_ok hr, ok_bind]
    cases hgrant : a.ledger.grant a.domain r.spec.envelope with
    | mk answer ledger =>
      cases answer with
      | error error =>
        have hsame := (h.ledger.grant a.domain r.spec.envelope).2 error (by rw [hgrant])
        rw [hgrant] at hsame
        cases hsame
        refine ⟨?_, rfl⟩
        rw [← hq]
        exact h
      | ok =>
        refine Consistent.admitQueued fuel (h.admitted hgrant hstate (.inr rfl)
          (fun x => stateIn_set hr x) (fun x => grantIn_set hr x) ?_)
        have hnodup := h.listed.nodup .queued
        simp only [list, hq, List.nodup_cons] at hnodup
        rw [if_pos rfl, hq]
        refine List.Perm.of_eq ?_
        have herase : erase (id :: rest) id = erase rest id := by simp [erase]
        rw [herase, erase_of_not_mem hnodup.1]

theorem Consistent.drain (h : a.Consistent) (now : Tick) :
    Sure (fun y => y.2.Consistent ∧ y.2.Idle ∧ (a.running ≠ [] → y.2.running = a.running))
      (a.drain now) := by
  unfold Admission.drain
  refine (Consistent.refuseQueued now _ 0 [] h).bind ?_
  rintro ⟨refused, a1⟩ ⟨h1, hrun1⟩
  refine (Consistent.admitQueued _ h1).bind ?_
  rintro a2 ⟨h2, hrun2⟩
  refine (h2.giveSlot now).self.bind ?_
  rintro ⟨slot, a3⟩ ⟨⟨h3, hidle⟩, heq⟩
  refine ⟨h3, hidle, fun hne => ?_⟩
  have hrun : a2.running = a.running := hrun2.trans hrun1
  -- The slot is taken, so `GiveSlot` gives nothing.
  unfold Admission.giveSlot at heq
  rw [if_pos (by simp [hrun, hne])] at heq
  cases heq
  exact hrun

theorem Consistent.drained (h : a.Consistent) (decision : Decision) (now : Tick) :
    Sure (fun y => y.2.Consistent ∧ y.2.Idle ∧ (a.running ≠ [] → y.2.running = a.running) ∧
      (∀ id, decision.run = some id → y.1.run = some id)) (a.drained decision now) := by
  unfold Admission.drained
  refine (h.drain now).bind ?_
  rintro ⟨drained, a'⟩ ⟨h', hidle, hrun⟩
  refine ⟨h', hidle, hrun, fun id hid => ?_⟩
  simp [hid]

/-! ## The events -/

/-- Not granted: queued, or refused. -/
theorem Consistent.queues (h : a.Consistent) (hidle : a.Idle) (spec : RequestSpec) (now : Tick) :
    Sure (fun y : Answer Submitted => y.2.Consistent ∧ y.2.Idle)
      (if a.queued.length ≥ a.settings.queueLimit then pure (.error .queueFull, a)
        else match a.requests.insert { spec, submitted := now, sequence := a.nextSequence } with
          | none => pure (.error .queueFull, a)
          | some (id, requests) =>
            pure (.ok { id, decision := {} },
              { a with
                requests
                nextSequence := (a.nextSequence + 1) % 2 ^ 64
                queued := a.queued ++ [id] })) := by
  split
  · exact ⟨h, hidle⟩
  split
  · exact ⟨h, hidle⟩
  rename_i id requests hins
  have hfresh := SlotTable.find?_insert_fresh hins
  have hbef : a.stateAt id = none := by simp [stateAt, stateIn, hfresh]
  refine ⟨Consistent.renumber (a := { a with requests, queued := a.queued ++ [id] }) ?_ _, hidle⟩
  refine h.requeue hbef (.inl ⟨rfl, rfl⟩) (fun x => ?_) (fun x => ?_) (by simp)
  · rw [stateIn_insert hins]
    rfl
  rw [grantIn_insert hins]
  split
  next hx => simp [hx, grantAt, grantIn, hfresh]
  · rfl

theorem Consistent.submit (h : a.Consistent) (hidle : a.Idle) (spec : RequestSpec) (now : Tick) :
    Sure (fun y => y.2.Consistent ∧ y.2.Idle) (a.submit spec now) := by
  unfold Admission.submit
  refine (h.readable.unrunnable _ now).bind fun why _ => ?_
  cases why with
  | some => exact ⟨h, hidle⟩
  | none =>
    have hnone := h.queues hidle spec now
    by_cases hempty : a.queued.isEmpty = true
    · simp only [hempty, if_true]
      cases hgrant : a.ledger.grant a.domain spec.envelope with
      | mk answer ledger =>
        cases answer with
        | error error =>
          have hsame := (h.ledger.grant a.domain spec.envelope).2 error (by rw [hgrant])
          rw [hgrant] at hsame
          cases hsame
          exact hnone
        | ok g =>
          simp only
          split
          · -- The request table is full: the fresh grant is retired again.
            obtain ⟨hsteady, hlive, hfresh⟩ := CommitmentLedger.grant_ok hgrant
            have hsound := (h.ledger.grant a.domain spec.envelope).1
            rw [hgrant] at hsound
            obtain ⟨l', hret, hsound', hprom, -, hothers⟩ :=
              CommitmentLedger.retire_ok hsound hlive (h.promised.steady hsteady)
            have hnot : ∀ x, a.grantAt x ≠ some g := fun x hx =>
              by cases (h.granted.live x g hx).symm.trans hfresh
            have hfil : ∀ ids, (a.grantsOf ids).filter (· ≠ g) = a.grantsOf ids := fun ids =>
              List.filter_eq_self.mpr fun g' hg' => by
                obtain ⟨x, -, hx⟩ := mem_grantsOf.mp hg'
                exact decide_eq_true fun heq : g' = g => hnot x (heq ▸ hx)
            have hpromise : a.promise.map (fun p => (p.1.filter (· ≠ g), p.2)) = a.promise :=
              promise_map fun p s _ _ => hfil _
            rw [hret]
            refine ⟨⟨hsound', ⟨h.listed.nodup, h.listed.mem⟩, ⟨h.granted.queued, h.granted.admitted,
              fun x g' hx => ?_, h.granted.distinct⟩, h.paired, h.substitute, ?_⟩, hidle⟩
            · have hne : g' ≠ g := fun heq => hnot x (heq ▸ hx)
              exact (hothers g' hne).trans (hsteady.grant g' (h.granted.live x g' hx))
            rw [hfil, hpromise] at hprom
            exact hprom
          next id requests hins =>
            have hfresh := SlotTable.find?_insert_fresh hins
            have hbef : a.stateAt id = none := by simp [stateAt, stateIn, hfresh]
            have hadm : Consistent { a with ledger, requests, waiting := a.waiting ++ [id] } :=
              h.admitted hgrant hbef (.inl rfl) (fun x => stateIn_insert hins x)
                (fun x => grantIn_insert hins x) (by simp)
            refine ((hadm.renumber _).giveSlot now).bind ?_
            rintro ⟨decision, a'⟩ h'
            exact h'
    simp only [hempty]
    exact hnone

theorem Readable.candidateAt (h : a.Readable) (request : Request) (now : Tick) :
    Sure (fun c => ∀ candidate, c = some candidate →
      a.paused = none ∧ candidate ∈ a.waiting ∧ a.peekNext = .ok (some candidate))
      (a.candidateAt request now) := by
  unfold Admission.candidateAt
  split
  · exact fun candidate hc => absurd hc (by simp)
  rename_i hguard
  have hpaused : a.paused = none := by
    simp only [Bool.or_eq_true, not_or, Bool.not_eq_true, isSome_eq_false_iff,
      isNone_iff_eq_none] at hguard
    exact hguard.1.1
  simp only
  split
  · exact fun candidate hc => absurd hc (by simp)
  refine h.peekNext.self.bind ?_
  rintro c ⟨⟨rfl, -⟩ | ⟨chosen, rfl, hmem⟩, hpeek⟩
  · exact fun candidate hc => absurd hc (by simp)
  have hchosen : ∀ passed : Bool, Sure (fun c => ∀ candidate, c = some candidate →
      a.paused = none ∧ candidate ∈ a.waiting ∧ a.peekNext = .ok (some candidate))
      (if passed = true then pure none else pure (some chosen)) := by
    intro passed
    split
    · exact fun candidate hc => absurd hc (by simp)
    rintro candidate hc
    cases hc
    exact ⟨hpaused, hmem, hpeek⟩
  exact (h.waiting.request hmem).bind fun other _ => hchosen _

theorem grantIn_set_same (h : t.find? id = some r)
    (r' : Request) (hg : r'.grant = r.grant) (x : RequestId) :
    grantIn (t.set id r') x = grantIn t x := by
  rw [grantIn_set h]
  split
  next hx =>
    rw [hx, grantIn_of_find h, hg]
  · rfl

theorem Consistent.pauseFor (h : a.Consistent) {candidate : RequestId} (hid : id ∈ a.running)
    (hcan : candidate ∈ a.waiting) (hpaused : a.paused = none)
    (hpeek : a.peekNext = .ok (some candidate))
    (hfits : a.ledger.Affords a.domain (a.grantsOf (erase a.running id ++ [candidate])) []) :
    Sure (fun y => y.2.Consistent ∧ y.2.Idle) (a.pauseFor id candidate now) := by
  unfold Admission.pauseFor
  refine h.readable.chooseNext.bind ?_
  rintro ⟨c, a1⟩ ⟨hc, t, rfl, hs, hg⟩
  cases hpeek.symm.trans hc
  have h1 : Consistent { a with requests := t } := h.same hs hg
  have hrunn : stateIn t id = some .running := by
    rw [hs]
    exact (h.listed.mem .running id).mp hid
  have hwaiting : stateIn t candidate = some .waiting := by
    rw [hs]
    exact (h.listed.mem .waiting candidate).mp hcan
  have hne : candidate ≠ id := by
    rintro rfl
    cases hrunn.symm.trans hwaiting
  obtain ⟨r, hr, -⟩ := find_of_stateIn hrunn
  simp only [check, decide_true, if_true, ok_bind]
  rw [modify_ok (a := { a with requests := t }) hr]
  simp only [ok_bind]
  generalize ht2 : t.set id { r with state := .paused, pauses := r.pauses + 1 } = t2
  have hstate2 : ∀ x, stateIn t2 x = if x = id then some .paused else stateIn t x := fun x => by
    rw [← ht2, stateIn_set hr]
  have hgrant2 : ∀ x, grantIn t2 x = grantIn t x := fun x => by
    rw [← ht2]
    exact grantIn_set_same hr { r with state := .paused, pauses := r.pauses + 1 } rfl x
  have hwaiting2 : stateIn t2 candidate = some .waiting := by
    rw [hstate2, if_neg hne]
    exact hwaiting
  obtain ⟨r', hr', -⟩ := find_of_stateIn hwaiting2
  rw [modify_ok (a := { a with requests := t2 }) hr']
  simp only [ok_bind]
  have hlis2 : Listed { a with
      requests := t2, running := erase a.running id, paused := some id } :=
    h1.listed.move hrunn hstate2 fun s => by cases s <;> simp [list, hpaused]
  have hgran2 : Granted { a with
      requests := t2, running := erase a.running id, paused := some id } :=
    h1.granted.restate hrunn (by simp) (by simp) hstate2 hgrant2 rfl rfl
  have hgrant3 : ∀ x, grantIn (t2.set candidate (start now r')) x = grantIn t2 x :=
    grantIn_set_same hr' (start now r') rfl
  have hstate3 : ∀ x, stateIn (t2.set candidate (start now r')) x
      = if x = candidate then some .running else stateIn t2 x := fun x => stateIn_set hr' x
  have hgrant : ∀ x, grantIn (t2.set candidate (start now r')) x = a.grantAt x := fun x =>
    (hgrant3 x).trans ((hgrant2 x).trans (congrFun hg x))
  obtain ⟨ledger, hsync, hcon⟩ := Consistent.ofSync
    (a := { a with
      requests := t2.set candidate (start now r')
      running := erase a.running id ++ [candidate]
      paused := some id
      substitute := some candidate
      waiting := erase a.waiting candidate })
    h.ledger
    (hlis2.move hwaiting2 hstate3 fun s => by cases s <;> simp [list])
    (hgran2.restate hwaiting2 (by simp) (by simp) hstate3 hgrant3 rfl rfl)
    rfl
    (fun s hs' => by
      cases hs'
      exact List.mem_append_right _ (mem_singleton.mpr rfl))
    (by
      show a.ledger.Affords a.domain ((erase a.running id ++ [candidate]).filterMap (grantIn _)) []
      rw [grantsOf_table hgrant]
      exact hfits)
    (fun p s g hp hs' _ => by
      cases hp
      cases hs'
      -- Without the substitute and with the paused request, what ran before.
      have hset : ∀ x, x ∈ a.running ↔
          x ∈ erase (erase a.running id ++ [candidate]) candidate ++ [id] := by
        intro x
        have hnot : candidate ∉ a.running := fun hmem => by
          have hrun := (h.listed.mem .running candidate).mp hmem
          have hwait := (h.listed.mem .waiting candidate).mp hcan
          cases hrun.symm.trans hwait
        simp only [mem_append, mem_erase, mem_singleton]
        constructor
        · intro hx
          by_cases heq : x = id
          · exact .inr heq
          · exact .inl ⟨.inl ⟨hx, heq⟩, fun hc => hnot (hc ▸ hx)⟩
        rintro (⟨⟨hx, -⟩ | rfl, hne'⟩ | rfl)
        · exact hx
        · exact absurd rfl hne'
        · exact hid
      show a.ledger.Affords a.domain
        ((erase (erase a.running id ++ [candidate]) candidate ++ [id]).filterMap (grantIn _)) [g]
      rw [grantsOf_table hgrant]
      exact ((h.promised.affords h.ledger).without g).congr (grantsOf_mem_congr hset))
  rw [hsync]
  exact ⟨hcon, fun hempty => absurd hempty (by simp)⟩

theorem Consistent.boundary (h : a.Consistent) (hidle : a.Idle) (id : RequestId) (done now : Tick) :
    Sure (fun y => y.2.Consistent ∧ y.2.Idle) (a.boundary id done now) := by
  unfold Admission.boundary
  rcases hr : a.requests.find? id with _ | r
  · exact ⟨h, hidle⟩
  simp only
  split
  · exact ⟨h, hidle⟩
  rename_i hstate
  simp only [ne_eq, not_not] at hstate
  have hsame := set_same hr { r with done := Nat.max r.done done } rfl rfl
  have h1 := h.same hsame.1 hsame.2
  have hid : id ∈ a.running := (h.listed.mem .running id).mpr
    ((stateIn_of_find hr).trans (congrArg some hstate))
  refine (h1.readable.candidateAt _ now).bind fun c hc => ?_
  rcases c with _ | candidate
  · exact ⟨h1, hidle⟩
  obtain ⟨hpaused, hcan, hpeek⟩ := hc candidate rfl
  have hhold : Hold _ (erase a.running id ++ [candidate]) := h1.hold fun x hx => by
    rcases mem_append.mp hx with hx | hx
    · exact ⟨.running, (h1.listed.mem .running x).mp (mem_erase.mp hx).1, by simp⟩
    rw [mem_singleton.mp hx]
    exact ⟨.waiting, (h1.listed.mem .waiting candidate).mp hcan, by simp⟩
  simp only [hhold.grants, ok_bind]
  split
  · exact ⟨h1, hidle⟩
  rename_i hcheck
  refine (h1.pauseFor hid hcan hpaused hpeek (affords_of_check hcheck)).bind ?_
  rintro ⟨decision, a'⟩ h'
  exact h'

theorem Consistent.join (h : a.Consistent) (hidle : a.Idle) (id : RequestId) (now : Tick) :
    Sure (fun y => y.2.Consistent ∧ y.2.Idle) (a.join id now) := by
  unfold Admission.join
  rcases hr : a.requests.find? id with _ | r
  · exact ⟨h, hidle⟩
  simp only
  split
  · exact ⟨h, hidle⟩
  rename_i hstate
  simp only [ne_eq, not_not] at hstate
  split
  · exact ⟨h, hidle⟩
  rename_i hopen
  have hpaused : a.paused = none := by simpa using hopen
  have hsub : a.substitute = none := by
    have hp := h.paired
    rw [hpaused] at hp
    simpa using hp.symm
  have hwait : a.stateAt id = some .waiting := (stateIn_of_find hr).trans (congrArg some hstate)
  have hhold : a.Hold (a.running ++ [id]) := h.hold fun x hx => by
    rcases mem_append.mp hx with hx | hx
    · exact ⟨.running, (h.listed.mem .running x).mp hx, by simp⟩
    rw [mem_singleton.mp hx]
    exact ⟨.waiting, hwait, by simp⟩
  simp only [hhold.grants, ok_bind]
  split
  · exact ⟨h, hidle⟩
  rename_i hcheck
  have hgrant : ∀ x, grantIn
      (a.requests.set id { r with state := .running, runStarted := now }) x = a.grantAt x :=
    grantIn_set_same hr { r with state := .running, runStarted := now } rfl
  have hstate' : ∀ x, stateIn
      (a.requests.set id { r with state := .running, runStarted := now }) x
      = if x = id then some .running else stateIn a.requests x := fun x => stateIn_set hr x
  obtain ⟨ledger, hsync, hcon⟩ := Consistent.ofSync
    (a := { a with
      waiting := erase a.waiting id
      requests := a.requests.set id { r with state := .running, runStarted := now }
      running := a.running ++ [id] })
    h.ledger
    (h.listed.move hwait hstate' fun s => by cases s <;> simp [list])
    (h.granted.restate hwait (by simp) (by simp) hstate' hgrant rfl rfl)
    h.paired
    (fun s hs' => nomatch hsub.symm.trans hs')
    (by
      show a.ledger.Affords a.domain ((a.running ++ [id]).filterMap (grantIn _)) []
      rw [grantsOf_table hgrant]
      exact affords_of_check hcheck)
    (fun p s g hp => nomatch hpaused.symm.trans hp)
  rw [hsync]
  exact ⟨hcon, fun hempty => absurd hempty (by simp)⟩

/-! ## Retirement -/

theorem Granted.forget (h : a.Granted) {g : GrantId} (hg : a.grantAt id = some g)
    (hreq : a'.requests = a.requests.erase id) (hdom : a'.domain = a.domain)
    (hled : ∀ g', g' ≠ g → a'.ledger.isGrantOf a.domain g' = a.ledger.isGrantOf a.domain g') :
    a'.Granted := by
  have hstate : ∀ x, a'.stateAt x = if x = id then none else a.stateAt x := fun x => by
    rw [stateAt, hreq, stateIn_erase]
    rfl
  have hgrant : ∀ x, a'.grantAt x = if x = id then none else a.grantAt x := fun x => by
    rw [grantAt, hreq, grantIn_erase]
    rfl
  have hold : ∀ x g', a'.grantAt x = some g' → x ≠ id ∧ a.grantAt x = some g' := fun x g' hx => by
    rw [hgrant] at hx
    split at hx
    · cases hx
    rename_i hne
    exact ⟨hne, hx⟩
  refine ⟨fun x hx => ?_, fun x s hx hs => ?_, fun x g' hx => ?_, fun x y g' hx hy => ?_⟩
  · rw [hstate] at hx
    split at hx
    · cases hx
    rename_i hne
    rw [hgrant, if_neg hne]
    exact h.queued x hx
  · rw [hstate] at hx
    split at hx
    · cases hx
    rename_i hne
    rw [hgrant, if_neg hne]
    exact h.admitted x s hx hs
  · obtain ⟨hne, hx'⟩ := hold x g' hx
    rw [hdom, hled g' fun heq => hne (h.distinct x id g (heq ▸ hx') hg)]
    exact h.live x g' hx'
  · exact h.distinct x y g' (hold x g' hx).2 (hold y g' hy).2

theorem Promised.forget
    (h : l.Promised a.domain (a.grantsOf a.running) a.promise) (hrun : id ∉ a.running)
    (hpaused : a.paused ≠ some id) (hsub : ∀ s, a.substitute = some s → s ∈ a.running) :
    l.Promised a.domain (grantsOf { a with requests := a.requests.erase id } a.running)
      (promise { a with requests := a.requests.erase id }) := by
  have hgrant : ∀ x, x ∈ a.running ∨ a.paused = some x →
      grantAt { a with requests := a.requests.erase id } x = a.grantAt x := by
    intro x hx
    refine (grantIn_erase x).trans (if_neg ?_)
    rintro rfl
    exact hx.elim hrun hpaused
  rw [grantsOf_congr fun x hx => hgrant x (.inl hx)]
  have hprom : promise { a with requests := a.requests.erase id } = a.promise :=
    promise_congr rfl rfl rfl hsub hgrant
  rw [hprom]
  exact h

theorem Syncable.retired (h : a.Syncable) (hlis : Listed { a with requests := a.requests.erase id })
    (hgran : Granted { a with requests := a.requests.erase id })
    (hpaired : a.paused.isSome = a.substitute.isSome)
    (hsub : ∀ s, a.substitute = some s → s ∈ a.running) (hrun : id ∉ a.running)
    (hpaused : a.paused ≠ some id) : ∃ ledger, a.syncCohort = .ok { a with ledger } ∧
      Consistent { a with ledger, requests := a.requests.erase id } := by
  obtain ⟨ledger, hsync, hsound, hlive, hprom⟩ := h.sync
  refine ⟨ledger, hsync, hsound, ⟨hlis.nodup, hlis.mem⟩, ⟨hgran.queued,
    hgran.admitted, fun x g hg => (hlive g).trans (hgran.live x g hg), hgran.distinct⟩,
    hpaired, hsub, Promised.forget (a := a) hprom hrun hpaused hsub⟩

section Retire

variable {r : Request} {g : GrantId} {ledger : CommitmentLedger}

structure Retired (a : Admission) (id : RequestId) (g : GrantId) (ledger : CommitmentLedger) :
    Prop where
  grant : a.grantAt id = some g
  sound : ledger.Sound
  promised : ledger.Promised a.domain (a.grantsOf (erase a.running id))
    (a.promise.map fun p => (p.1.filter (· ≠ g), p.2))
  gone : ledger.grants.find? g = none
  others : ∀ g', g' ≠ g → ledger.isGrantOf a.domain g' = a.ledger.isGrantOf a.domain g'

theorem Consistent.retired (h : a.Consistent) (hg : a.grantAt id = some g) :
    ∃ ledger, a.ledger.retire g = (.ok (), ledger) ∧ a.Retired id g ledger := by
  obtain ⟨ledger, heq, hsound, hprom, hgone, hothers⟩ :=
    CommitmentLedger.retire_ok h.ledger (h.granted.live id g hg) h.promised
  rw [grantsOf_erase h.granted.distinct hg] at hprom
  exact ⟨ledger, heq, hg, hsound, hprom, hgone, hothers⟩

theorem Retired.hold (h : a.Retired id g ledger) (hc : a.Consistent) {ids : List RequestId}
    (hids : ∀ x ∈ ids, x ≠ id ∧ ∃ s, a.stateAt x = some s ∧ s ≠ .queued) :
    ∀ x ∈ ids, ∃ g', a.grantAt x = some g' ∧ ledger.isGrantOf a.domain g' = true := by
  intro x hx
  obtain ⟨hne, s, hs, hsq⟩ := hids x hx
  obtain ⟨g', hg'⟩ := hc.granted.admitted x s hs hsq
  refine ⟨g', hg', ?_⟩
  rw [h.others g' fun heq => hne (hc.granted.distinct x id g (heq ▸ hg') h.grant)]
  exact hc.granted.live x g' hg'

theorem Retired.resumes (h : a.Retired id g ledger) (hc : a.Consistent) {p s : RequestId}
    {gs : GrantId} (hp : a.paused = some p) (hs : a.substitute = some s)
    (hgs : a.grantAt s = some gs) :
    ledger.Affords a.domain (a.grantsOf (erase (erase a.running s ++ [p]) id)) [gs] := by
  have hprom := h.promised
  have hpromise : a.promise = some (a.grantsOf (erase a.running s ++ [p]), gs) := by
    simp [promise, hp, hs, hgs]
  rw [hpromise, map_some, grantsOf_erase hc.granted.distinct h.grant] at hprom
  exact hprom.resumes h.sound

theorem Retired.waiting (h : a.Retired id g ledger) (hc : a.Consistent)
    (hstate : a.stateAt id = some .waiting) : Consistent { a with
      ledger, waiting := erase a.waiting id, requests := a.requests.erase id } := by
  have hrun : id ∉ a.running := fun hmem =>
    absurd (((hc.listed.mem .running id).mp hmem).symm.trans hstate) (by simp)
  have hpaused : a.paused ≠ some id := fun hp =>
    absurd (((hc.listed.mem .paused id).mp (by simp [list, hp])).symm.trans hstate) (by simp)
  refine ⟨h.sound, ?_, hc.granted.forget h.grant rfl rfl h.others, hc.paired, hc.substitute, ?_⟩
  · exact hc.listed.move hstate (fun x => stateIn_erase x) fun s => by cases s <;> simp [list]
  have hprom := h.promised
  rw [erase_of_not_mem hrun, promise_map fun p s hp hs => ?_] at hprom
  · exact Promised.forget (a := a) hprom hrun hpaused hc.substitute
  rw [grantsOf_erase hc.granted.distinct h.grant, erase_of_not_mem]
  intro hmem
  rcases mem_append.mp hmem with hmem | hmem
  · exact hrun (mem_erase.mp hmem).1
  · exact hpaused (mem_singleton.mp hmem ▸ hp)

theorem Retired.paused (h : a.Retired id g ledger) (hc : a.Consistent)
    (hstate : a.stateAt id = some .paused) :
    ∃ ledger', syncCohort { a with ledger, paused := none, substitute := none }
        = .ok { a with ledger := ledger', paused := none, substitute := none } ∧
      Consistent { a with
        ledger := ledger', paused := none, substitute := none
        requests := a.requests.erase id } := by
  have hrun : id ∉ a.running := fun hmem =>
    absurd (((hc.listed.mem .running id).mp hmem).symm.trans hstate) (by simp)
  have hpaused : a.paused = some id := by
    have hmem := (hc.listed.mem .paused id).mpr hstate
    simpa [list] using hmem
  have hprom := h.promised
  rw [erase_of_not_mem hrun] at hprom
  refine Syncable.retired (a := { a with ledger, paused := none, substitute := none })
    ⟨h.sound, hc.granted.distinct, hc.listed.nodup .running, ?_, hprom.affords h.sound,
      fun p s hp => absurd hp (by simp)⟩ ?_
    (hc.granted.forget h.grant rfl rfl h.others) rfl (fun s hs => absurd hs (by simp)) hrun
    (by simp)
  · exact h.hold hc fun x hx => ⟨fun heq => hrun (heq ▸ hx), .running,
      (hc.listed.mem .running x).mp hx, by simp⟩
  exact hc.listed.move hstate (fun x => stateIn_erase x) fun s => by
    cases s <;> simp [list, hpaused, erase]

theorem Retired.running (h : a.Retired id g ledger) (hc : a.Consistent)
    (hstate : a.stateAt id = some .running) (hsub : a.substitute ≠ some id) :
    ∃ ledger', syncCohort { a with ledger, running := erase a.running id }
        = .ok { a with ledger := ledger', running := erase a.running id } ∧
      Consistent { a with
        ledger := ledger', running := erase a.running id
        requests := a.requests.erase id } := by
  have hpaused : a.paused ≠ some id := fun hp =>
    absurd (((hc.listed.mem .paused id).mp (by simp [list, hp])).symm.trans hstate) (by simp)
  have hsubs : ∀ s, a.substitute = some s → s ∈ erase a.running id := fun s hs =>
    mem_erase.mpr ⟨hc.substitute s hs, fun heq => hsub (heq ▸ hs)⟩
  refine Syncable.retired (a := { a with ledger, running := erase a.running id })
    ⟨h.sound, hc.granted.distinct, (hc.listed.nodup .running).filter _, ?_,
      h.promised.affords h.sound, fun p s hp hs => ⟨hsubs s hs, ?_, ?_, fun gs hgs => ?_⟩⟩ ?_
    (hc.granted.forget h.grant rfl rfl h.others) hc.paired hsubs
    (fun hmem => (mem_erase.mp hmem).2 rfl) hpaused
  · exact h.hold hc fun x hx => ⟨(mem_erase.mp hx).2, .running,
      (hc.listed.mem .running x).mp (mem_erase.mp hx).1, by simp⟩
  · intro hmem
    have hrun := (hc.listed.mem .running p).mp (mem_erase.mp hmem).1
    have hpause := (hc.listed.mem .paused p).mp (by simpa [list] using hp)
    cases hrun.symm.trans hpause
  · refine h.hold hc fun x hx => ?_
    rw [mem_singleton.mp hx]
    exact ⟨fun heq => hpaused (heq ▸ hp), .paused,
      (hc.listed.mem .paused p).mp (by simpa [list] using hp), by simp⟩
  · refine (h.resumes hc hp hs hgs).congr (grantsOf_mem_congr fun x => ?_)
    have hpid : p ≠ id := fun heq => hpaused (heq ▸ hp)
    simp only [mem_erase, mem_append, mem_singleton]
    constructor
    · rintro ⟨⟨hx, hxs⟩ | rfl, hxid⟩
      · exact .inl ⟨⟨hx, hxid⟩, hxs⟩
      · exact .inr rfl
    rintro (⟨⟨hx, hxid⟩, hxs⟩ | rfl)
    · exact ⟨.inl ⟨hx, hxs⟩, hxid⟩
    · exact ⟨.inr rfl, hpid⟩
  · exact hc.listed.move hstate (fun x => stateIn_erase x) fun s => by cases s <;> simp [list]

theorem Retired.substitute (h : a.Retired id g ledger) (hc : a.Consistent) {p : RequestId}
    (hsub : a.substitute = some id) (hp : a.paused = some p) {rp : Request}
    (hrp : a.requests.find? p = some rp) (now : Tick) :
    let requests := a.requests.set p { rp with state := .running, runStarted := now }
    ∃ ledger', syncCohort { a with
          ledger, requests, running := erase a.running id ++ [p], paused := none
          substitute := none }
        = .ok { a with
          ledger := ledger', requests, running := erase a.running id ++ [p], paused := none
          substitute := none } ∧
      Consistent { a with
        ledger := ledger', running := erase a.running id ++ [p], paused := none
        substitute := none, requests := requests.erase id } := by
  intro requests
  have hrun : id ∈ a.running := hc.substitute id hsub
  have hstate : a.stateAt id = some .running := (hc.listed.mem .running id).mp hrun
  have hpaused : a.stateAt p = some .paused :=
    (hc.listed.mem .paused p).mp (by simpa [list] using hp)
  have hne : p ≠ id := by
    rintro rfl
    cases hstate.symm.trans hpaused
  have hnot : p ∉ a.running := fun hmem =>
    absurd (((hc.listed.mem .running p).mp hmem).symm.trans hpaused) (by simp)
  have hstate' : ∀ x, stateIn requests x = if x = p then some .running else a.stateAt x :=
    fun x => stateIn_set hrp x
  have hgrant' : ∀ x, grantIn requests x = a.grantAt x :=
    grantIn_set_same hrp { rp with state := .running, runStarted := now } rfl
  -- The paused request first moves to the running ones, then the substitute goes.
  have hlis : Listed { a with requests, running := a.running ++ [p], paused := none } :=
    hc.listed.move hpaused hstate' fun s => by cases s <;> simp [list, hp, erase]
  have hgran : Granted { a with requests, running := a.running ++ [p], paused := none } :=
    hc.granted.restate hpaused (by simp) (by simp) hstate' hgrant' rfl rfl
  have hstate1 : stateIn requests id = some .running := by
    rw [hstate', if_neg (Ne.symm hne)]
    exact hstate
  have hidnot : id ∉ erase a.running id ++ [p] := by
    intro hmem
    rcases mem_append.mp hmem with hmem | hmem
    · exact (mem_erase.mp hmem).2 rfl
    · exact hne (mem_singleton.mp hmem).symm
  refine Syncable.retired (a := { a with
      ledger, requests, running := erase a.running id ++ [p], paused := none, substitute := none })
    ⟨h.sound, hgran.distinct, ?_, ?_, ?_, fun p s hp => absurd hp (by simp)⟩ ?_
    (hgran.forget (g := g) ((hgrant' id).trans h.grant) rfl rfl h.others) rfl
    (fun s hs => absurd hs (by simp)) hidnot (by simp)
  · refine List.nodup_append.mpr ⟨(hc.listed.nodup .running).filter _, List.nodup_singleton p, ?_⟩
    rintro x hx y hy rfl
    exact hnot (mem_singleton.mp hy ▸ (mem_erase.mp hx).1)
  · intro x hx
    have hadm : ∃ s, a.stateAt x = some s ∧ s ≠ .queued := by
      rcases mem_append.mp hx with hx | hx
      · exact ⟨.running, (hc.listed.mem .running x).mp (mem_erase.mp hx).1, by simp⟩
      rw [mem_singleton.mp hx]
      exact ⟨.paused, hpaused, by simp⟩
    have hids : ∀ y ∈ [x], y ≠ id ∧ ∃ s, a.stateAt y = some s ∧ s ≠ .queued := by
      intro y hy
      rw [mem_singleton.mp hy]
      exact ⟨fun heq => hidnot (heq ▸ hx), hadm⟩
    obtain ⟨g', hg', hlive⟩ := h.hold hc hids x (mem_singleton.mpr rfl)
    exact ⟨g', (hgrant' x).trans hg', hlive⟩
  · show ledger.Affords a.domain ((erase a.running id ++ [p]).filterMap (grantIn requests)) []
    rw [grantsOf_table hgrant']
    have hres := h.resumes hc hp hsub h.grant
    rw [erase_of_not_mem hidnot] at hres
    exact hres.of_gone h.gone
  exact hlis.move hstate1 (fun x => stateIn_erase x) fun s => by
    cases s <;> simp [list, erase, hne]

theorem Consistent.leaves (h : a.Consistent) {r : Request} (hr : a.requests.find? id = some r)
    (now : Tick) : ∃ ledger decision b,
      (match r.grant with
        | none => (pure a.ledger : Checked CommitmentLedger)
        | some grant => ensure .grantMissing (a.ledger.retire grant)) = .ok ledger ∧
      leave { a with ledger } id now r.state = .ok (some (decision, b)) ∧
      Consistent { b with requests := b.requests.erase id } ∧
      ∀ p, a.paused = some p → a.substitute = some id →
        decision.run = some p ∧ p ∈ b.running := by
  have hstate : a.stateAt id = some r.state := stateIn_of_find hr
  have hgrant : a.grantAt id = r.grant := grantIn_of_find hr
  -- Who is not running is no substitute.
  have hother : r.state ≠ .running → ∀ {α : Prop}, a.substitute = some id → α := by
    intro hne α hs
    have hrun := (h.listed.mem .running id).mp (h.substitute id hs)
    exact absurd (some.inj (hstate.symm.trans hrun)) hne
  cases hg : r.grant with
  | none =>
    have hqueued : r.state = .queued := by
      by_contra hne
      obtain ⟨g, hg'⟩ := h.granted.admitted id r.state hstate hne
      exact nomatch (hgrant.trans hg).symm.trans hg'
    rw [hqueued]
    refine ⟨a.ledger, {}, _, rfl, rfl, ?_, fun p _ => hother (by simp [hqueued])⟩
    refine h.requeue (hstate.trans (congrArg some hqueued)) (.inr ⟨rfl, rfl⟩)
      (fun x => stateIn_erase x) (fun x => ?_) (by simp)
    rw [grantIn_erase]
    split
    next hx =>
      rw [hx]
      exact (hgrant.trans hg).symm
    · rfl
  | some =>
    obtain ⟨ledger, hretire, hret⟩ := h.retired (hgrant.trans hg)
    simp only [hretire, ensure]
    cases hs : r.state with
    | queued =>
      have hnone := h.granted.queued id (hstate.trans (congrArg some hs))
      exact nomatch (hgrant.trans hg).symm.trans hnone
    | waiting =>
      exact ⟨ledger, {}, _, rfl, rfl, hret.waiting h (hstate.trans (congrArg some hs)),
        fun p _ => hother (by simp [hs])⟩
    | paused =>
      obtain ⟨ledger', hsync, hleft⟩ := hret.paused h (hstate.trans (congrArg some hs))
      refine ⟨ledger, {}, { a with ledger := ledger', paused := none, substitute := none }, rfl, ?_,
        hleft, fun p _ => hother (by simp [hs])⟩
      simp only [leave, hsync, ok_bind]
      rfl
    | retired =>
      have hmem := (h.listed.mem .retired id).mpr (hstate.trans (congrArg some hs))
      exact absurd hmem (by simp [list])
    | running =>
      have hrunn := hstate.trans (congrArg some hs)
      by_cases hsub : a.substitute = some id
      · obtain ⟨p, hp⟩ := isSome_iff_exists.mp (h.paired.trans (by simp [hsub]))
        have hpmem : p ∈ a.list .paused := by simpa [list] using hp
        obtain ⟨rp, hrp⟩ := (h.listed.alive .paused).find hpmem
        have hvalid := (h.listed.alive .paused).valid hpmem
        obtain ⟨ledger', hsync, hleft⟩ := hret.substitute h hsub hp hrp now
        refine ⟨ledger, { run := some p },
          { a with
            ledger := ledger'
            requests := a.requests.set p { rp with state := .running, runStarted := now }
            running := erase a.running id ++ [p]
            paused := none
            substitute := none }, rfl, ?_, hleft, fun p' hp' _ => ?_⟩
        · simp only [leave, endRunning, hsub, if_true, hp, check, hvalid, ok_bind]
          rw [modify_ok (a := { a with
            ledger, running := erase a.running id, paused := some p, substitute := some id }) hrp]
          simp only [ok_bind, hsync]
          rfl
        cases hp.symm.trans hp'
        exact ⟨rfl, List.mem_append_right _ (mem_singleton.mpr rfl)⟩
      obtain ⟨ledger', hsync, hleft⟩ := hret.running h hrunn hsub
      refine ⟨ledger, {}, { a with ledger := ledger', running := erase a.running id }, rfl, ?_,
        hleft, fun p _ hs' => absurd hs' hsub⟩
      simp only [leave, endRunning, hsub, if_false, hsync, ok_bind]
      rfl

theorem retire_eq {now : Tick} {b : Admission} {decision : Decision}
    (hr : a.requests.find? id = some r)
    (hled : (match r.grant with
      | none => (pure a.ledger : Checked CommitmentLedger)
      | some grant => ensure .grantMissing (a.ledger.retire grant)) = .ok ledger)
    (hleave : leave { a with ledger } id now r.state = .ok (some (decision, b))) :
    a.retire id now = (do
      let (decision, a) ← Admission.drained { b with requests := b.requests.erase id } decision now
      return (.ok decision, a)) := by
  unfold Admission.retire
  rw [hr]
  simp only
  cases hg : r.grant with
  | none =>
    simp only [hg] at hled
    cases hled
    simp only [pure_bind, hleave, ok_bind]
  | some =>
    simp only [hg] at hled
    simp only [hled, hleave, ok_bind]

theorem Consistent.retire (h : a.Consistent) (hidle : a.Idle) (id : RequestId) (now : Tick) :
    Sure (fun y => y.2.Consistent ∧ y.2.Idle ∧
      ∀ p, a.paused = some p → a.substitute = some id →
        ∃ decision, y.1 = .ok decision ∧ decision.run = some p ∧ p ∈ y.2.running)
      (a.retire id now) := by
  cases hr : a.requests.find? id with
  | none =>
    unfold Admission.retire
    rw [hr]
    refine ⟨h, hidle, fun p _ hs => ?_⟩
    obtain ⟨r, hr'⟩ := (h.listed.alive .running).find (h.substitute id hs)
    cases hr.symm.trans hr'
  | some r =>
    obtain ⟨ledger, decision, b, hled, hleave, hleft, hres⟩ := h.leaves hr now
    rw [retire_eq hr hled hleave]
    refine (hleft.drained decision now).bind ?_
    rintro ⟨decision', a'⟩ ⟨h', hidle', hruns, hrun⟩
    refine ⟨h', hidle', fun p hp hs => ⟨decision', rfl, hrun p (hres p hp hs).1, ?_⟩⟩
    have hmem := (hres p hp hs).2
    rw [hruns (List.ne_nil_of_mem hmem)]
    exact hmem

end Retire

/-! ## Capacity -/

variable {ledger : CommitmentLedger}

theorem Consistent.steady (h : a.Consistent) (hsound : ledger.Sound)
    (hsteady : a.ledger.Steady ledger a.domain) : Consistent { a with ledger } :=
  ⟨hsound, ⟨h.listed.nodup, h.listed.mem⟩,
    ⟨h.granted.queued, h.granted.admitted,
      fun x g hg => hsteady.grant g (h.granted.live x g hg), h.granted.distinct⟩,
    h.paired, h.substitute, h.promised.steady hsteady⟩

theorem Consistent.transaction (h : a.Consistent) (hidle : a.Idle)
    (refusal : CommitmentError → AdmissionError) {y : Memory.Result Unit × CommitmentLedger}
    (hkeeps : CommitmentLedger.Keeps a.ledger y) (hsteady : a.ledger.Steady y.2 a.domain)
    (now : Tick) : Sure (fun z => z.2.Consistent ∧ z.2.Idle) (a.transaction refusal y now) := by
  obtain ⟨answer, ledger⟩ := y
  have h' := h.steady hkeeps.1 hsteady
  unfold Admission.transaction
  rcases answer with _ | _
  · exact ⟨h', hidle⟩
  refine (h'.drained {} now).bind ?_
  rintro ⟨decision, a'⟩ ⟨h'', hidle'', -⟩
  exact ⟨h'', hidle''⟩

theorem Consistent.replaceEnvelope (h : a.Consistent) (hidle : a.Idle) (id : RequestId)
    (envelope : Envelope) (now : Tick) :
    Sure (fun y => y.2.Consistent ∧ y.2.Idle) (a.replaceEnvelope id envelope now) := by
  unfold Admission.replaceEnvelope
  rcases hr : a.requests.find? id with _ | r
  · exact ⟨h, hidle⟩
  simp only
  rcases hg : r.grant with _ | g
  · exact ⟨h, hidle⟩
  have hkeeps := h.ledger.replace g envelope
  have hsteady : a.ledger.Steady (a.ledger.replace g envelope).2 a.domain :=
    CommitmentLedger.Steady.replace a.ledger g envelope
  simp only
  generalize a.ledger.replace g envelope = y at hkeeps hsteady
  obtain ⟨answer, ledger⟩ := y
  have h' := h.steady hkeeps.1 hsteady
  rcases answer with _ | _
  · exact ⟨h', hidle⟩
  have hsame := set_same hr { r with grant := some g, spec := { r.spec with envelope } } rfl hg.symm
  have hset : Consistent { a with
      ledger
      requests := a.requests.set id
        { r with grant := some g, spec := { r.spec with envelope } } } :=
    h'.same hsame.1 hsame.2
  refine Sat.bind (hset.drained {} now) ?_
  rintro ⟨decision, a'⟩ ⟨h'', hidle'', -⟩
  exact ⟨h'', hidle''⟩

/-! ## Every state reached -/

inductive Op
  | submit (spec : RequestSpec) (now : Tick)
  | boundary (id : RequestId) (done now : Tick)
  | retire (id : RequestId) (now : Tick)
  | replaceEnvelope (id : RequestId) (envelope : Envelope) (now : Tick)
  | addFixed (bytes : Bytes) (now : Tick)
  | addBackground (bytes : Bytes) (now : Tick)
  | setBudget (budget : Bytes) (now : Tick)
  | releaseFixed (bytes : Bytes) (now : Tick)
  | releaseBackground (bytes : Bytes) (now : Tick)
  | join (id : RequestId) (now : Tick)
  | drain (now : Tick)

def Op.run (a : Admission) : Op → Checked Admission
  | .submit spec now => Prod.snd <$> a.submit spec now
  | .boundary id done now => Prod.snd <$> a.boundary id done now
  | .retire id now => Prod.snd <$> a.retire id now
  | .replaceEnvelope id envelope now => Prod.snd <$> a.replaceEnvelope id envelope now
  | .addFixed bytes now => Prod.snd <$> a.addFixed bytes now
  | .addBackground bytes now => Prod.snd <$> a.addBackground bytes now
  | .setBudget budget now => Prod.snd <$> a.setBudget budget now
  | .releaseFixed bytes now => Prod.snd <$> a.releaseFixed bytes now
  | .releaseBackground bytes now => Prod.snd <$> a.releaseBackground bytes now
  | .join id now => Prod.snd <$> a.join id now
  | .drain now => Prod.snd <$> a.drain now

theorem Sure.map {α β : Type} {P : β → Prop} {x : Checked α} {f : α → β}
    (h : Sure (fun y => P (f y)) x) : Sure P (f <$> x) := by
  cases x with
  | ok | error => exact h

theorem Consistent.run (h : a.Consistent) (hidle : a.Idle) (op : Op) :
    Sure (fun a' => a'.Consistent ∧ a'.Idle) (op.run a) := by
  cases op with
  | submit spec now => exact Sure.map (h.submit hidle spec now)
  | boundary id done now => exact Sure.map (h.boundary hidle id done now)
  | retire id now =>
    exact Sure.map ((h.retire hidle id now).imp fun y hy => ⟨hy.1, hy.2.1⟩)
  | replaceEnvelope id envelope now => exact Sure.map (h.replaceEnvelope hidle id envelope now)
  | addFixed bytes now =>
    exact Sure.map (h.transaction hidle _ (h.ledger.addFixed a.domain bytes) (.addFixed _ _ _) now)
  | addBackground bytes now =>
    exact Sure.map
      (h.transaction hidle _ (h.ledger.addBackground a.domain bytes) (.addBackground _ _ _) now)
  | setBudget budget now =>
    exact Sure.map (h.transaction hidle _ (h.ledger.setBudget a.domain budget) (.setBudget _ _ _) now)
  | releaseFixed bytes now =>
    exact Sure.map
      (h.transaction hidle _ (h.ledger.releaseFixed a.domain bytes) (.releaseFixed _ _ _) now)
  | releaseBackground bytes now =>
    exact Sure.map (h.transaction hidle _ (h.ledger.releaseBackground a.domain bytes)
      (.releaseBackground _ _ _) now)
  | join id now => exact Sure.map (h.join hidle id now)
  | drain now => exact Sure.map ((h.drain now).imp fun y hy => ⟨hy.1, hy.2.1⟩)

structure Fresh (ledger : CommitmentLedger) (domain : DomainId) : Prop where
  reached : CommitmentLedger.Reachable ledger
  grants : ∀ g, ledger.isGrantOf domain g = false
  resumption : ∀ state, ledger.domains.find? domain = some state → state.resumption = none

inductive Reachable : Admission → Prop
  | init {ledger : CommitmentLedger} {domain : DomainId} {settings : PolicySettings}
      {a : Admission} : Fresh ledger domain → create ledger domain settings = .ok a → Reachable a
  | step {a a' : Admission} (op : Op) : Reachable a → op.run a = .ok a' → Reachable a'

theorem Fresh.consistent {domain : DomainId} {settings : PolicySettings}
    (h : Fresh ledger domain) (hcreate : create ledger domain settings = .ok a) :
    a.Consistent ∧ a.Idle := by
  have hsound := h.reached.sound
  unfold create at hcreate
  rcases htot : ledger.totals domain with _ | totals
  · rw [htot] at hcreate
    exact absurd hcreate (by simp [check, Bind.bind, Except.bind])
  rw [htot] at hcreate
  cases hcreate
  obtain ⟨state, hd⟩ : ∃ state, ledger.domains.find? domain = some state := by
    cases hd : ledger.domains.find? domain with
    | none => simp [CommitmentLedger.totals, CommitmentLedger.evaluate, hd] at htot
    | some state => exact ⟨state, rfl⟩
  have hnone : ∀ id, (SlotTable.empty : SlotTable .request Request).find? id = none := fun id => by
    simp [SlotTable.find?, SlotTable.empty]
  refine ⟨⟨hsound, ⟨fun s => ?_, fun s id => ?_⟩, ⟨fun id hid => ?_, fun id s hid => ?_,
    fun id g hg => ?_, fun id id' g hg => ?_⟩, rfl, fun s hs => absurd hs (by simp), ?_⟩,
    fun _ => rfl⟩
  · cases s <;> simp [list]
  · cases s <;> simp [list, stateAt, stateIn, hnone]
  · simp [stateAt, stateIn, hnone] at hid
  · simp [stateAt, stateIn, hnone] at hid
  · simp [grantAt, grantIn, hnone] at hg
  · simp [grantAt, grantIn, hnone] at hg
  refine ⟨state, hd, ?_, h.resumption state hd⟩
  -- A cohort names only live grants, and there is none.
  have hcoh := (hsound.domains domain state hd).cohort
  cases hc : state.cohort with
  | nil => exact List.Perm.refl _
  | cons g =>
    have hg := hcoh.grant g (by simp [hc])
    cases hg.symm.trans (h.grants g)

theorem Reachable.consistent (h : Reachable a) : a.Consistent ∧ a.Idle := by
  induction h with
  | init hfresh hcreate => exact hfresh.consistent hcreate
  | step op _ hrun ih => exact (ih.1.run ih.2 op).val hrun

/-- **Admission is consistent in every state reached, and none of its checks fires**: not even
    when the substitute retires, which always makes the paused request run. -/
theorem reachable_admission_kept (h : Reachable a) :
    a.Consistent ∧ (a.running = [] → a.waiting = [] ∧ a.paused = none) ∧
    (∀ op : Op, ∃ a', op.run a = .ok a') ∧ ∀ p s now, a.paused = some p → a.substitute = some s →
      ∃ decision a', a.retire s now = .ok (.ok decision, a') ∧ decision.run = some p ∧
        p ∈ a'.running := by
  obtain ⟨hc, hidle⟩ := h.consistent
  refine ⟨hc, fun hempty => ⟨hidle hempty, ?_⟩, fun op => ?_, fun p s now hp hs => ?_⟩
  · by_contra hp
    obtain ⟨s, hs⟩ := isSome_iff_exists.mp (hc.paired ▸ isSome_iff_ne_none.mpr hp)
    have hmem := hc.substitute s hs
    rw [hempty] at hmem
    cases hmem
  · cases hrun : op.run a with
    | ok a' => exact ⟨a', rfl⟩
    | error => exact ((hc.run hidle op).err hrun).elim
  have hret := hc.retire hidle s now
  rcases hrun : a.retire s now with _ | y
  · exact (hret.err hrun).elim
  obtain ⟨answer, a'⟩ := y
  obtain ⟨-, -, hres⟩ := hret.val hrun
  obtain ⟨decision, rfl, hdec, hmem⟩ := hres p hp hs
  exact ⟨decision, a', rfl, hdec, hmem⟩

theorem reachable_events (h : Reachable a) {ops : List Op}
    (hrun : ops.foldlM (fun (a : Admission) op => op.run a) a = .ok a') : Reachable a' := by
  induction ops generalizing a with
  | nil =>
    cases hrun
    exact h
  | cons op rest ih =>
    obtain ⟨a1, hop, hrest⟩ := bind_ok hrun
    exact ih (h.step op hop) hrest

def oneDomain : CommitmentLedger :=
  (CommitmentLedger.Op.call {} (.addDomain ⟨0, 1⟩ (.ofNat 9))).2

theorem oneDomain_fresh : Fresh oneDomain ⟨0, 1⟩ := by
  refine ⟨CommitmentLedger.Reachable.init.step _, fun g => ?_, fun state hd => ?_⟩
  · have hgrants : oneDomain.grants = SlotTable.empty := rfl
    simp [CommitmentLedger.isGrantOf, hgrants, SlotTable.find?, SlotTable.empty]
  have heq : oneDomain.domains.find? ⟨0, 1⟩ = some { budget := ⟨9, by decide⟩ } := by
    exact OrdMap.find?_insert_self _ _ _
  cases heq.symm.trans hd
  rfl

def interrupted : Checked Admission := do
  let envelope : Envelope := { retained := .ofNat 1, phase := .ofNat 3 }
  let ops : List Op :=
    [.submit { requestClass := .background, envelope, work := 10 } 0,
      .submit { requestClass := .interactive, envelope, work := 4 } 1, .boundary ⟨0, 1⟩ 5 6]
  let a ← create oneDomain ⟨0, 1⟩ {}
  ops.foldlM (fun (a : Admission) op => op.run a) a

def pausedFor (paused substitute : RequestId) : Checked Admission → Bool
  | .ok a => a.paused = some paused ∧ a.substitute = some substitute
  | .error _ => false

theorem interrupted_pauses :
    ∃ a, Reachable a ∧ a.paused = some ⟨0, 1⟩ ∧ a.substitute = some ⟨1, 1⟩ := by
  have hpaused : pausedFor ⟨0, 1⟩ ⟨1, 1⟩ interrupted = true := by decide +kernel
  rcases hrun : interrupted with _ | a
  · rw [hrun] at hpaused
    exact absurd hpaused (by simp [pausedFor])
  rw [hrun] at hpaused
  simp only [pausedFor, decide_eq_true_eq] at hpaused
  obtain ⟨a0, hcreate, heve⟩ := bind_ok hrun
  have hreach := reachable_events (.init oneDomain_fresh hcreate) heve
  exact ⟨a, hreach, hpaused⟩

/-- The pause opens, and the substitute's end resumes the paused request. -/
theorem reachable_admission_kept_interrupted :
    ∃ a, Reachable a ∧ a.paused = some ⟨0, 1⟩ ∧ a.substitute = some ⟨1, 1⟩ ∧
      ∃ decision a', a.retire ⟨1, 1⟩ 9 = .ok (.ok decision, a') ∧ decision.run = some ⟨0, 1⟩ ∧
        ⟨0, 1⟩ ∈ a'.running := by
  obtain ⟨a, hreach, hpaused, hsub⟩ := interrupted_pauses
  exact ⟨a, hreach, hpaused, hsub, (reachable_admission_kept hreach).2.2.2 _ _ 9 hpaused hsub⟩

end JitLlm.Admission
