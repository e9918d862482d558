import JitLlm.Catalog.Transitions
import Mathlib.Logic.Function.Iterate

/-!
# What a call does

`Effect c op a c'` lists, call by call, everything an accepted call does to the tables and what
it found there first; a refused one does nothing. Each call is walked here once, and every
invariant of the catalog is a case analysis of `Effect` instead. The error side of the walk,
`Faults`, says what must be wrong with the catalog for each of its checks to fire.
-/

namespace JitLlm.Catalog

open Base Lib List

variable {c c' : Catalog} {e : ExtentId} {f : ExtentRecord → Nat} {g : ExtentRecord → ExtentRecord}
    {l : List ExtentId} {op : Op} {a : Answer} {calls : List (Op × Answer)}

structure Rest (c c' : Catalog) : Prop where
  resources : c'.resources = c.resources
  leases : c'.leases = c.leases
  registrations : c'.registrations = c.registrations

theorem Edit.rest {r' : ExtentRecord} (h : Edit c e r' c') : Rest c c' :=
  ⟨h.resources, h.leases, h.registrations⟩

/-- The count `f` of an extent; one that is not there counts nothing. -/
def countAt (c : Catalog) (f : ExtentRecord → Nat) (e : ExtentId) : Nat :=
  cellVal f (c.extents.find? e)

theorem countAt_pos (h : 0 < c.countAt f e) : ∃ r, c.extents.find? e = some r ∧ 0 < f r := by
  unfold countAt at h
  cases hr : c.extents.find? e with
  | none =>
    rw [hr] at h
    exact absurd h (Nat.lt_irrefl 0)
  | some r =>
    rw [hr] at h
    exact ⟨r, rfl, h⟩

variable {r r' : ExtentRecord}

theorem Edit.live {e e' : ExtentId} (h : Edit c e r' c')
    (hr : c.extents.find? e = some r) (hlive : ∃ r, c.extents.find? e' = some r) :
    ∃ r, c'.extents.find? e' = some r := by
  rw [h.find hr]
  split
  · exact ⟨_, rfl⟩
  · exact hlive

/-! ## Loops over extents -/

/-- Every record listed in `l` had `g` done to it, as often as it is listed. -/
structure Each (c : Catalog) (l : List ExtentId) (g : ExtentRecord → ExtentRecord)
    (c' : Catalog) : Prop where
  find : ∀ e, c'.extents.find? e = (c.extents.find? e).map g^[l.count e]
  gone : ∀ e, c.extents.Gone e → c'.extents.Gone e
  rest : Rest c c'

theorem Each.nil (c : Catalog) (g : ExtentRecord → ExtentRecord) : Each c [] g c :=
  ⟨fun e => by cases c.extents.find? e <;> simp, fun _ h => h, rfl, rfl, rfl⟩

variable {r : ExtentRecord}

theorem Each.cons {c1 : Catalog} (hr : c.extents.find? e = some r) (h : Edit c e (g r) c1)
    (hl : Each c1 l g c') : Each c (e :: l) g c' := by
  refine ⟨fun e' => ?_, fun e' hg => hl.gone e' ?_, hl.rest.resources.trans h.resources,
    hl.rest.leases.trans h.leases, hl.rest.registrations.trans h.registrations⟩
  · rw [hl.find, h.find hr]
    by_cases he : e' = e
    · subst he
      rw [if_pos rfl, hr, count_cons_self]
      rfl
    · rw [if_neg he, count_cons_of_ne (Ne.symm he)]
  rw [h.extents]
  exact hg.set e (g r)

theorem foldlM_each {γ : Type} {E : Fatal → Prop} {f : Catalog → γ → Checked Catalog}
    {k : γ → ExtentId} {I : List γ → Catalog → Prop} (step : ∀ c x rest, I (x :: rest) c → Sat E
      (fun c' => (∃ r, c.extents.find? (k x) = some r ∧ Edit c (k x) (g r) c') ∧ I rest c')
      (f c x)) : ∀ (l : List γ) (c : Catalog), I l c → Sat E (Each c (l.map k) g) (l.foldlM f c)
  | [], c, _ => Each.nil c g
  | x :: rest, c, h => by
    rw [foldlM_cons]
    refine (step c x rest h).bind fun c1 h1 => ?_
    obtain ⟨⟨r, hr, hedit⟩, hI⟩ := h1
    exact (foldlM_each step rest c1 hI).imp fun _ hl => .cons hr hedit hl

/-! ## The calls' effects -/

def ExtentRecord.hold (r : ExtentRecord) : ExtentRecord :=
  { r with view := { r.view with leases := r.view.leases + 1 } }

def ExtentRecord.unhold (r : ExtentRecord) : ExtentRecord :=
  { r with view := { r.view with leases := r.view.leases - 1 } }

def ExtentRecord.register (r : ExtentRecord) : ExtentRecord :=
  { r with view := { r.view with registrations := r.view.registrations + 1 } }

def ExtentRecord.unregister (r : ExtentRecord) : ExtentRecord :=
  { r with view := { r.view with registrations := r.view.registrations - 1 } }

def ExtentRecord.used (tick : Nat) (r : ExtentRecord) : ExtentRecord :=
  { r with view := { r.view with lastUse := max r.view.lastUse tick } }

def ExtentRecord.displace (r : ExtentRecord) : ExtentRecord :=
  { r with resources := r.resources - 1 }

def ExtentRecord.Unheld (r : ExtentRecord) : Prop := r.view.leases = 0 ∧ r.view.registrations = 0

/-- What an accepted call that changes one extent's record does to it. -/
inductive Alters (c : Catalog) : Op → Answer → ExtentId → ExtentRecord → ExtentRecord → Prop
  | releasePinned {e : ExtentId} {r : ExtentRecord} (state : r.view.state = .resident)
      (pinned : r.view.descriptor.recovery = .pinned) (unheld : r.Unheld) :
      Alters c (.releasePinned e) .done e r { r with
        view := { r.view with
          state := .nonresident
          backingGeneration := r.view.backingGeneration + 1
          contentGeneration := r.view.contentGeneration + 1 } }
  | beginLoad {e : ExtentId} {r : ExtentRecord} (budget : Bytes)
      (state : r.view.state = .nonresident) :
      Alters c (.beginLoad e budget)
        (.ticket { extent := e, operation := .load, serial := r.operations + 1 }) e r r.loading
  | completeLoad {t : Ticket} {r : ExtentRecord} (loads : Loads c t.extent t r) :
      Alters c (.completeLoad t) .done t.extent r r.loaded
  | failLoad {t : Ticket} {r : ExtentRecord} (loads : Loads c t.extent t r) :
      Alters c (.failLoad t true) .done t.extent r { r with
        view := { r.view with
          state := .nonresident, backingGeneration := r.view.backingGeneration + 1 } }
  | quarantineLoad {t : Ticket} {r : ExtentRecord} (loads : Loads c t.extent t r) :
      Alters c (.failLoad t false) .done t.extent r r.quarantined
  | invalidateContents {e : ExtentId} {r : ExtentRecord} (state : r.view.state = .resident)
      (recovery : r.view.descriptor.recovery ≠ .pinned ∧
        r.view.descriptor.recovery ≠ .fromArtifact) (unheld : r.Unheld) :
      Alters c (.invalidateContents e) .done e r { r with
        view := { r.view with
          contentGeneration := r.view.contentGeneration + 1, discarded := true } }
  | replaceContents {e : ExtentId} {r : ExtentRecord} (state : r.view.state = .resident)
      (recovery : r.view.descriptor.recovery = .preserve)
      (held : r.view.leases = 1 ∧ r.view.registrations = 0) :
      Alters c (.replaceContents e) .done e r { r with
        view := { r.view with
          contentGeneration := r.view.contentGeneration + 1, discarded := false } }
  | beginEvict {e : ExtentId} {r : ExtentRecord} (writeBack : Bool)
      (state : r.view.state = .resident) (unheld : r.Unheld)
      (may : mayEvict r.view writeBack = true) :
      Alters c (.beginEvict e writeBack)
        (.ticket { extent := e, operation := .evict, serial := r.operations + 1 }) e r
        (r.evicting writeBack)
  | completeEvict {t : Ticket} {r : ExtentRecord} (evicts : Evicts c t.extent t r) :
      Alters c (.completeEvict t) .done t.extent r { r with
        view := { r.view with
          state := .nonresident
          backingGeneration := r.view.backingGeneration + 1
          contentGeneration :=
            if r.view.descriptor.recovery ≠ .fromArtifact ∧ !r.writingBack then
              r.view.contentGeneration + 1
            else r.view.contentGeneration
          discarded := false
          preserved := r.writingBack }
        writingBack := false }
  | cancelEvict {t : Ticket} {r : ExtentRecord} (evicts : Evicts c t.extent t r) :
      Alters c (.cancelEvict t) .done t.extent r r.kept
  | quarantineEviction {t : Ticket} {r : ExtentRecord} (evicts : Evicts c t.extent t r) :
      Alters c (.quarantineEviction t) .done t.extent r { r.quarantined with writingBack := false }

inductive Effect (c : Catalog) : Op → Answer → Catalog → Prop
  | refused (op : Op) (error : CatalogError) : Effect c op (.refused error) c
  | addDomain {c' : Catalog} (name : String) (id : Option DomainId)
      (extents : c'.extents = c.extents) (rest : Rest c c') :
      Effect c (.addDomain name) (.domain id) c'
  | addExtent {c' : Catalog} {descriptor : ExtentDescriptor} {id : ExtentId}
      {extents : SlotTable .extent ExtentRecord} (resident : Bool)
      (inserted : c.extents.insert { view := { descriptor } } = some (id, extents))
      (after : c'.extents = if resident then
        extents.set id { view := { descriptor, state := .resident } } else extents)
      (rest : Rest c c') : Effect c (.addExtent descriptor resident) (.extent id) c'
  | removeExtent {c' : Catalog} {e : ExtentId} {r : ExtentRecord}
      (found : c.extents.find? e = some r) (state : r.view.state = .nonresident)
      (unplaced : r.resources = 0) (after : c'.extents = c.extents.erase e) (rest : Rest c c') :
      Effect c (.removeExtent e) .done c'
  | alter {c' : Catalog} {op : Op} {a : Answer} {e : ExtentId} {r r' : ExtentRecord}
      (found : c.extents.find? e = some r) (alters : Alters c op a e r r') (edit : Edit c e r' c') :
      Effect c op a c'
  | addResource {c' : Catalog} {ranges : List Range} {id : ResourceId}
      {resources : SlotTable .resource Resource} (checked : c.checkRanges none ranges = .ok ())
      (inserted : c.resources.insert { ranges } = some (id, resources))
      (each : Each { c with resources } (ranges.map Range.extent) ExtentRecord.place c') :
      Effect c (.addResource ranges) (.resource id) c'
  | removeResource {c₁ c' : Catalog} {id : ResourceId} {resource : Resource}
      (found : c.resources.find? id = some resource)
      (each : Each c (resource.ranges.map Range.extent) ExtentRecord.displace c₁)
      (after : c' = { c₁ with resources := c.resources.erase id }) :
      Effect c (.removeResource id) .done c'
  | acquireLease {c' : Catalog} {closure : Closure} {extents : List ExtentId} {id : LeaseId}
      {leases : SlotTable .lease Lease} (checked : c.checkClosure closure.extents = .ok extents)
      (inserted : c.leases.insert { extents := sortUnique extents } = some (id, leases))
      (each : Each { c with leases } (sortUnique extents) ExtentRecord.hold c') :
      Effect c (.acquireLease closure) (.lease id) c'
  | releaseLease {c₁ c' : Catalog} {id : LeaseId} {lease : Lease}
      (found : c.leases.find? id = some lease)
      (each : Each c lease.extents ExtentRecord.unhold c₁)
      (after : c' = { c₁ with leases := c.leases.erase id }) :
      Effect c (.releaseLease id) .done c'
  | recordUse {c' : Catalog} {id : LeaseId} {lease : Lease} (tick : Nat)
      (found : c.leases.find? id = some lease)
      (each : Each c lease.extents (ExtentRecord.used tick) c') :
      Effect c (.recordUse id tick) .done c'
  | addRegistration {c' : Catalog} {e : ExtentId} {r : ExtentRecord} {id : RegistrationId}
      {registrations : SlotTable .registration Registration}
      (found : c.extents.find? e = some r) (state : r.view.state = .resident)
      (inserted : c.registrations.insert { extent := e } = some (id, registrations))
      (edit : Edit { c with registrations } e r.register c') :
      Effect c (.addRegistration e) (.registration id) c'
  | retireRegistration {c₁ c' : Catalog} {id : RegistrationId} {registration : Registration}
      {r : ExtentRecord} (found : c.registrations.find? id = some registration)
      (held : c.extents.find? registration.extent = some r) (positive : 0 < r.view.registrations)
      (edit : Edit c registration.extent r.unregister c₁)
      (after : c' = { c₁ with registrations := c.registrations.erase id }) :
      Effect c (.retireRegistration id) .done c'

def ExtentRecord.fresh (descriptor : ExtentDescriptor) (resident : Bool) : ExtentRecord :=
  { view := { descriptor, state := if resident then .resident else .nonresident } }

theorem find_added {descriptor : ExtentDescriptor} {id : ExtentId}
    {extents : SlotTable .extent ExtentRecord} {resident : Bool}
    (inserted : c.extents.insert { view := { descriptor } } = some (id, extents))
    (after : c'.extents = if resident then
      extents.set id { view := { descriptor, state := .resident } } else extents) (e : ExtentId) :
    c'.extents.find? e =
      if e = id then some (.fresh descriptor resident) else c.extents.find? e := by
  have hfind := SlotTable.find?_insert inserted
  cases resident with
  | true =>
    rw [after, if_pos rfl, SlotTable.find?_set, hfind, hfind, if_pos rfl]
    split <;> rfl
  | false =>
    rw [after]
    exact hfind e

/-! ## When a check fires -/

def LeasesHeld (c : Catalog) : Prop := ∀ id lease, c.leases.find? id = some lease →
  ∀ e, lease.extents.count e ≤ c.countAt (·.view.leases) e

def RegistrationsHeld (c : Catalog) : Prop := ∀ id registration,
  c.registrations.find? id = some registration →
    0 < c.countAt (·.view.registrations) registration.extent

def ResourcesPlaced (c : Catalog) : Prop := ∀ id resource, c.resources.find? id = some resource →
  ∀ e, (resource.ranges.map Range.extent).count e ≤ c.countAt (·.resources) e

def DomainsKnown (c : Catalog) : Prop := ∀ e r, c.extents.find? e = some r →
  ∃ domain, c.domains.find? r.view.descriptor.domain = some domain

/-- A check of the catalog's own fires, and if it is one of those below, for the reason given. -/
structure Faults (c : Catalog) (f : Fatal) : Prop where
  own : Own f
  lease : f = .leaseNotHeld → ¬ LeasesHeld c
  registration : f = .registrationNotHeld → ¬ RegistrationsHeld c
  resource : f = .missingExtent → ¬ ResourcesPlaced c
  missing : f = .missing → ¬ (LeasesHeld c ∧ DomainsKnown c)

theorem Plain.faults {f : Fatal} (h : Plain f) : Faults c f := by
  refine ⟨h.own, ?_, ?_, ?_, ?_⟩ <;> rintro rfl <;> exact absurd h (by simp [Plain, Fatal.ofChange])

/-! ## Each call, walked -/

def Does (c : Catalog) (op : Op) (x : Checked (Answer × Catalog)) : Prop :=
  Sat (Faults c) (fun y => Effect c op y.1 y.2) x

theorem Does.answering {α : Type} {wrap : α → Answer} {x : Checked (Result α × Catalog)}
    (h : Sat (Faults c) (fun y => match y.1 with
      | .ok a => Effect c op (wrap a) y.2
      | .error _ => y.2 = c) x) : Does c op (answering wrap x) := by
  refine h.bind fun y hy => ?_
  obtain ⟨r, c1⟩ := y
  cases r with
  | ok => exact hy
  | error error =>
    cases (show c1 = c from hy)
    exact .refused op error

theorem Alters.does {α : Type} {w : α → Answer} {a : α}
    (h : Alters c op (w a) e r r') (hr : c.extents.find? e = some r) :
    Sat (Faults c) (fun y => match y.1 with
      | .ok a => Effect c op (w a) y.2
      | .error _ => y.2 = c) (c.change e r r' >>= accept a) :=
  (change_plain e r r').mono (fun _ => Plain.faults) (fun _ h => h) |>.bind fun _ hedit =>
    .alter hr h hedit

theorem advance_faults (g : Nat) : Sat (Faults c) (fun g' => g' = g + 1) (advance g) :=
  (advance_plain g).mono (fun _ => Plain.faults) fun _ h => h

theorem addDomain_does (name : String) : Does c (.addDomain name) (Op.call c (.addDomain name)) := by
  refine .addDomain name _ ?_ ?_ <;> unfold addDomain <;> split
  · rfl
  · rfl
  · exact ⟨rfl, rfl, rfl⟩
  · exact ⟨rfl, rfl, rfl⟩

theorem addExtent_does (descriptor : ExtentDescriptor) (resident : Bool) :
    Does c (.addExtent descriptor resident) (Op.call c (.addExtent descriptor resident)) := by
  refine .answering ?_
  unfold addExtent
  rcases c.domains.find? descriptor.domain with _ | domain
  · rfl
  simp only
  split
  · rfl
  rcases domain.registered.plus descriptor.size with _ | _
  · rfl
  rcases hins : c.extents.insert { view := { descriptor := descriptor } } with _ | p
  · rfl
  obtain ⟨id, extents⟩ := p
  cases resident with
  | true =>
    refine ((change_plain id _ _).mono (fun _ => Plain.faults) (fun _ h => h)).bind
      fun _ hedit => ?_
    exact .addExtent true hins hedit.extents ⟨hedit.resources, hedit.leases, hedit.registrations⟩
  | false => exact .addExtent false hins rfl ⟨rfl, rfl, rfl⟩

theorem removeExtent_does (e : ExtentId) :
    Does c (.removeExtent e) (Op.call c (.removeExtent e)) := by
  refine .answering ?_
  unfold removeExtent
  rcases hr : c.extents.find? e with _ | r
  · rfl
  simp only
  split
  · rfl
  rename_i hwrong
  simp only [not_or, not_not] at hwrong
  cases hdom : c.domains.find? r.view.descriptor.domain with
  | none =>
    refine ⟨rfl, by simp, by simp, by simp, fun _ hbad => ?_⟩
    obtain ⟨domain, hfound⟩ := hbad.2 e r hr
    rw [hdom] at hfound
    cases hfound
  | some =>
    refine ((subtract_plain _ _).mono (fun _ => Plain.faults) (fun _ h => h)).bind
      fun registered _ => ?_
    exact .removeExtent hr hwrong.1 hwrong.2 rfl ⟨rfl, rfl, rfl⟩

theorem releasePinned_does (e : ExtentId) :
    Does c (.releasePinned e) (Op.call c (.releasePinned e)) := by
  refine .answering ?_
  unfold releasePinned
  rcases hr : c.extents.find? e with _ | r
  · rfl
  simp only
  split
  · rfl
  rename_i hwrong
  simp only [not_or, not_not] at hwrong
  split
  · rfl
  rename_i hheld
  refine (advance_faults _).bind fun b hb => (advance_faults _).bind fun g hg => ?_
  subst hb hg
  exact (Alters.releasePinned hwrong.1 hwrong.2 ⟨by omega, by omega⟩).does hr

/-! ### Resources -/

def Inside (c : Catalog) (d : DomainId) (range : Range) : Prop :=
  ∃ r, c.extents.find? range.extent = some r ∧ r.view.descriptor.domain = d ∧
    0 < range.length.value ∧ range.offset.value + range.length.value ≤ r.view.descriptor.size.value

theorem checkRanges_ok : ∀ {domain : Option DomainId} {ranges : List Range},
    c.checkRanges domain ranges = .ok () →
      ∃ d, (∀ d', domain = some d' → d' = d) ∧ ∀ range ∈ ranges, Inside c d range
  | none, [], _ => ⟨{}, by simp, by simp⟩
  | some d, [], _ => ⟨d, by simp, by simp⟩
  | domain, range :: rest, h => by
    unfold checkRanges at h
    rcases hr : c.extents.find? range.extent with _ | r
    · simp [hr] at h
    rcases hlast : range.offset.plus range.length with _ | last
    · simp [hr, hlast] at h
    simp only [hr, hlast] at h
    split at h
    · cases h
    rename_i hbad
    split at h
    · cases h
    rename_i hdom
    obtain ⟨d, hd, hrest⟩ := checkRanges_ok h
    have heq := hd _ rfl
    subst heq
    have hsum := Bytes.plus_eq_some.mp hlast
    simp only [not_or, not_lt] at hbad
    refine ⟨r.view.descriptor.domain, fun d' hd' => ?_, fun range' hmem => ?_⟩
    · subst hd'
      simpa using hdom
    rcases List.mem_cons.mp hmem with rfl | hmem
    · refine ⟨r, hr, rfl, Nat.pos_of_ne_zero fun hz => hbad.1 (Bytes.ext hz), ?_⟩
      exact hsum ▸ hbad.2
    · exact hrest range' hmem

theorem placeResources_each (ranges : List Range) (c : Catalog)
    (h : ∀ range ∈ ranges, ∃ r, c.extents.find? range.extent = some r) :
    Sat (fun _ => False) (Each c (ranges.map Range.extent) ExtentRecord.place)
      (ranges.foldlM placeResource c) := by
  refine foldlM_each (k := Range.extent)
    (I := fun rest c1 => ∀ range ∈ rest, ∃ r, c1.extents.find? range.extent = some r)
    (fun c1 range rest hI => ?_) ranges c h
  obtain ⟨r, hr⟩ := hI range mem_cons_self
  unfold placeResource
  rw [hr]
  have hedit : Edit c1 range.extent r.place { c1 with
      extents := c1.extents.set range.extent r.place } := ⟨rfl, rfl, rfl, rfl⟩
  exact ⟨⟨r, rfl, hedit⟩, fun range' hmem =>
    hedit.live hr (hI range' (mem_cons_of_mem _ hmem))⟩

theorem addResource_does (ranges : List Range) :
    Does c (.addResource ranges) (Op.call c (.addResource ranges)) := by
  refine .answering ?_
  unfold addResource
  split
  · rfl
  rcases hchecked : c.checkRanges none ranges with _ | _
  · exact rfl
  rcases hins : c.resources.insert { ranges := ranges } with _ | p
  · rfl
  obtain ⟨id, resources⟩ := p
  obtain ⟨d, -, hinside⟩ := checkRanges_ok hchecked
  refine ((placeResources_each ranges { c with resources } fun range hmem => ?_).mono
    (fun _ => False.elim) (fun _ h => h)).bind fun c' heach => .addResource hchecked hins heach
  obtain ⟨r, hr, -⟩ := hinside range hmem
  exact ⟨r, hr⟩

theorem count_after_edit
    {rest : List ExtentId} (hr : c.extents.find? e = some r) (hedit : Edit c e r' c')
    (hf : f r' + 1 = f r) (h : ∀ e', (e :: rest).count e' ≤ c.countAt f e') (e' : ExtentId) :
    rest.count e' ≤ c'.countAt f e' := by
  have he' := h e'
  unfold countAt at he' ⊢
  rw [hedit.find hr]
  by_cases he : e' = e
  · subst he
    rw [hr, count_cons_self] at he'
    simp only [cellVal_some] at he'
    rw [if_pos rfl]
    show rest.count e' ≤ f r'
    omega
  rw [count_cons_of_ne (Ne.symm he)] at he'
  rw [if_neg he]
  exact he'

theorem count_head {rest : List ExtentId} (h : ∀ e', (e :: rest).count e' ≤ c.countAt f e') :
    ∃ r, c.extents.find? e = some r ∧ 0 < f r := by
  refine countAt_pos (Nat.lt_of_lt_of_le ?_ (h e))
  rw [count_cons_self]
  exact Nat.succ_pos _

theorem removeResource_does (id : ResourceId) :
    Does c (.removeResource id) (Op.call c (.removeResource id)) := by
  refine .answering ?_
  unfold removeResource
  rcases hfound : c.resources.find? id with _ | resource
  · rfl
  refine (foldlM_each (k := Range.extent) (g := ExtentRecord.displace)
    (I := fun rest c1 => c1.resources = c.resources ∧ (ResourcesPlaced c →
      ∀ e, (rest.map Range.extent).count e ≤ c1.countAt (·.resources) e))
    (fun c1 range rest hI => ?_) resource.ranges c ⟨rfl, fun h e => h id resource hfound e⟩).bind
    fun c1 heach => .removeResource hfound heach (by rw [heach.rest.resources])
  obtain ⟨hsame, hcount⟩ := hI
  -- The check fails only if this extent lacks a count it should have.
  have hfault : (∀ r, c1.extents.find? range.extent = some r → ¬ 0 < r.resources) →
      Faults c .missingExtent := fun hnone =>
    ⟨rfl, by simp, by simp, fun _ hplaced => by
      obtain ⟨r, hr, hpos⟩ := count_head (hcount hplaced)
      exact hnone r hr hpos, by simp⟩
  unfold displaceResource
  rcases hr : c1.extents.find? range.extent with _ | r
  · exact hfault fun r h => nomatch hr.symm.trans h
  simp only
  split
  next hpos =>
    have hedit : Edit c1 range.extent r.displace { c1 with
        extents := c1.extents.set range.extent r.displace } := ⟨rfl, rfl, rfl, rfl⟩
    exact ⟨⟨r, rfl, hedit⟩, hsame, fun hplaced =>
      count_after_edit hr hedit (Nat.succ_pred_eq_of_pos hpos) (hcount hplaced)⟩
  rename_i hpos
  exact hfault fun r' h => Option.some.inj (hr.symm.trans h) ▸ hpos

/-! ### Loads and evictions -/

theorem Loads.of_current {t : Ticket}
    (h : c.current t .load .loading = .ok r) : Loads c t.extent t r := by
  obtain ⟨hr, hop, hrop, hser, hstate⟩ := current_ok h
  exact ⟨hr, hstate, hrop, by rw [← hop, ← hser]⟩

theorem Evicts.of_current {t : Ticket}
    (h : c.current t .evict .evicting = .ok r) : Evicts c t.extent t r := by
  obtain ⟨hr, hop, hrop, hser, hstate⟩ := current_ok h
  exact ⟨hr, hstate, hrop, by rw [← hop, ← hser]⟩

theorem begin_faults (e : ExtentId) (r : ExtentRecord) (operation : Operation) :
    Sat (Faults c) (fun y => y = ({ extent := e, operation, serial := r.operations + 1 },
      { r with operations := r.operations + 1, operation })) (begin e r operation) := by
  unfold begin
  split
  · rfl
  · exact Plain.faults rfl

theorem beginLoad_does (e : ExtentId) (budget : Bytes) :
    Does c (.beginLoad e budget) (Op.call c (.beginLoad e budget)) := by
  refine .answering ?_
  unfold beginLoad
  rcases hr : c.extents.find? e with _ | r
  · rfl
  simp only
  split
  · rfl
  rename_i hstate
  have htotal : Sat Plain (fun _ => True) (c.occupancyOf r.view.descriptor.domain).total :=
    Sat.foldlM (I := fun _ _ => True) (fun a x _ _ => add_plain _ _) trivial
  refine (htotal.mono (fun _ => Plain.faults) fun _ h => h).bind fun total _ => ?_
  rcases total.plus r.view.descriptor.size with _ | _
  · rfl
  simp only
  split
  · rfl
  refine (begin_faults e _ _).bind fun y hy => ?_
  subst hy
  exact (Alters.beginLoad budget (not_not.mp hstate)).does hr

theorem completeLoad_does (t : Ticket) :
    Does c (.completeLoad t) (Op.call c (.completeLoad t)) := by
  refine .answering ?_
  unfold completeLoad
  cases hcur : c.current t .load .loading with
  | error => exact rfl
  | ok =>
    have hloads := Loads.of_current hcur
    exact (Alters.completeLoad hloads).does hloads.found

theorem failLoad_does (t : Ticket) (known : Bool) :
    Does c (.failLoad t known) (Op.call c (.failLoad t known)) := by
  refine .answering ?_
  unfold failLoad
  rcases hcur : c.current t .load .loading with _ | _
  · exact rfl
  have hloads := Loads.of_current hcur
  cases known with
  | true =>
    refine (advance_faults _).bind fun b hb => ?_
    subst hb
    exact (Alters.failLoad hloads).does hloads.found
  | false => exact (Alters.quarantineLoad hloads).does hloads.found

theorem beginEvict_does (e : ExtentId) (writeBack : Bool) :
    Does c (.beginEvict e writeBack) (Op.call c (.beginEvict e writeBack)) := by
  refine .answering ?_
  unfold beginEvict
  rcases hr : c.extents.find? e with _ | r
  · rfl
  simp only
  split
  · rfl
  rename_i hstate
  split
  · rfl
  rename_i hheld
  split
  · rfl
  rename_i hmay
  refine (begin_faults e _ _).bind fun y hy => ?_
  subst hy
  exact (Alters.beginEvict writeBack (not_not.mp hstate) ⟨by omega, by omega⟩
    (by simpa using hmay)).does hr

theorem completeEvict_does (t : Ticket) :
    Does c (.completeEvict t) (Op.call c (.completeEvict t)) := by
  refine .answering ?_
  unfold completeEvict
  rcases hcur : c.current t .evict .evicting with _ | r
  · exact rfl
  have hevi := Evicts.of_current hcur
  refine (advance_faults _).bind fun b hb => ?_
  have heff := (Alters.completeEvict hevi).does (w := fun _ : Unit => .done) (a := ()) hevi.found
  subst hb
  split
  next hgone =>
    refine (advance_faults _).bind fun g hg => ?_
    subst hg
    rw [if_pos hgone] at heff
    exact heff
  rename_i hkept
  rw [if_neg hkept] at heff
  exact heff

theorem cancelEvict_does (t : Ticket) : Does c (.cancelEvict t) (Op.call c (.cancelEvict t)) := by
  refine .answering ?_
  unfold cancelEvict
  cases hcur : c.current t .evict .evicting with
  | error => exact rfl
  | ok =>
    have hevi := Evicts.of_current hcur
    exact (Alters.cancelEvict hevi).does hevi.found

theorem quarantineEviction_does (t : Ticket) :
    Does c (.quarantineEviction t) (Op.call c (.quarantineEviction t)) := by
  refine .answering ?_
  unfold quarantineEviction
  cases hcur : c.current t .evict .evicting with
  | error => exact rfl
  | ok =>
    have hevi := Evicts.of_current hcur
    exact (Alters.quarantineEviction hevi).does hevi.found

/-! ### Leases, registrations and contents -/

theorem checkClosure_ok : ∀ {l : List (ExtentId × Nat)} {found : List ExtentId},
    c.checkClosure l = .ok found → found = l.map Prod.fst ∧
      ∀ p ∈ l, ∃ r, c.extents.find? p.1 = some r ∧ r.view.state = .resident ∧
        r.view.contentGeneration = p.2 ∧ r.view.discarded = false
  | [], found, h => ⟨(Except.ok.inj h).symm, by simp⟩
  | (e, g) :: rest, found, h => by
    unfold checkClosure at h
    rcases hr : c.extents.find? e with _ | r
    · simp [hr] at h
    simp only [hr] at h
    split at h
    · cases h
    rename_i hstate
    split at h
    · cases h
    rename_i hstale
    obtain ⟨found', hrest, heq⟩ := bind_ok h
    cases heq
    obtain ⟨hfound, hall⟩ := checkClosure_ok hrest
    simp only [not_or, not_not, Bool.not_eq_true] at hstale
    refine ⟨by rw [hfound]; rfl, fun p hmem => ?_⟩
    rcases List.mem_cons.mp hmem with rfl | hmem
    · exact ⟨r, hr, not_not.mp hstate, hstale.1, hstale.2⟩
    · exact hall p hmem

theorem hold_each (e : ExtentId) (hr : c.extents.find? e = some r)
    {c0 : Catalog} : Sat (Faults c0) (Edit c e r.hold) (c.hold e) := by
  unfold Catalog.hold
  rw [hr]
  simp only
  split
  · exact (change_plain e r _).mono (fun _ => Plain.faults) fun _ h => h
  · exact ⟨rfl, by simp, by simp, by simp, by simp⟩

theorem acquireLease_does (closure : Closure) :
    Does c (.acquireLease closure) (Op.call c (.acquireLease closure)) := by
  refine .answering ?_
  unfold acquireLease
  rcases hchecked : c.checkClosure closure.extents with _ | found
  · exact rfl
  simp only
  rcases hins : c.leases.insert { extents := sortUnique found } with _ | p
  · rfl
  obtain ⟨id, leases⟩ := p
  obtain ⟨hfound, hall⟩ := checkClosure_ok hchecked
  have hwalk := foldlM_each (E := Faults c) (f := Catalog.hold) (k := fun e => e)
    (g := ExtentRecord.hold)
    (I := fun rest c1 => ∀ e ∈ rest, ∃ r, c1.extents.find? e = some r)
    (fun c1 e rest hI => ?_) (sortUnique found) { c with leases } fun e hmem => ?_
  · rw [map_id'] at hwalk
    exact hwalk.bind fun c' heach => .acquireLease hchecked hins heach
  · obtain ⟨r, hr⟩ := hI e mem_cons_self
    exact (hold_each e hr).imp fun c2 hedit => ⟨⟨r, hr, hedit⟩, fun e' hmem =>
      hedit.live hr (hI e' (mem_cons_of_mem _ hmem))⟩
  rw [mem_sortUnique, hfound] at hmem
  obtain ⟨p, hp, rfl⟩ := List.mem_map.mp hmem
  obtain ⟨r, hr, -⟩ := hall p hp
  exact ⟨r, hr⟩

theorem releaseLease_does (id : LeaseId) :
    Does c (.releaseLease id) (Op.call c (.releaseLease id)) := by
  refine .answering ?_
  unfold releaseLease
  rcases hfound : c.leases.find? id with _ | lease
  · rfl
  have hwalk := foldlM_each (E := Faults c) (f := Catalog.unhold) (k := fun e => e)
    (g := ExtentRecord.unhold)
    (I := fun rest c1 => LeasesHeld c → ∀ e, rest.count e ≤ c1.countAt (·.view.leases) e)
    (fun c1 e rest hI => ?_) lease.extents c fun h e => h id lease hfound e
  · rw [map_id'] at hwalk
    exact hwalk.bind fun c1 heach => .releaseLease hfound heach (by rw [heach.rest.leases])
  have hfault : (∀ r, c1.extents.find? e = some r → ¬ 0 < r.view.leases) →
      Faults c .leaseNotHeld := fun hnone =>
    ⟨rfl, fun _ hheld => by
      obtain ⟨r, hr, hpos⟩ := count_head (hI hheld)
      exact hnone r hr hpos, by simp, by simp, by simp⟩
  unfold Catalog.unhold
  rcases hr : c1.extents.find? e with _ | r
  · exact hfault fun r h => nomatch hr.symm.trans h
  simp only
  split
  next hpos =>
    refine (change_plain e r _).mono (fun _ => Plain.faults) fun c2 hedit => ?_
    exact ⟨⟨r, rfl, hedit⟩, fun hheld =>
      count_after_edit hr hedit (Nat.succ_pred_eq_of_pos hpos) (hI hheld)⟩
  rename_i hpos
  exact hfault fun r' h => Option.some.inj (hr.symm.trans h) ▸ hpos

theorem recordUse_does (id : LeaseId) (tick : Nat) :
    Does c (.recordUse id tick) (Op.call c (.recordUse id tick)) := by
  refine .answering ?_
  unfold recordUse
  rcases hfound : c.leases.find? id with _ | lease
  · rfl
  have hwalk := foldlM_each (E := Faults c) (f := touch tick) (k := fun e => e)
    (g := ExtentRecord.used tick)
    (I := fun rest c1 => LeasesHeld c → ∀ e ∈ rest, ∃ r, c1.extents.find? e = some r)
    (fun c1 e rest hI => ?_) lease.extents c fun hheld e hmem => ?_
  · rw [map_id'] at hwalk
    exact hwalk.bind fun c' heach => .recordUse tick hfound heach
  · unfold touch
    cases hr : c1.extents.find? e with
    | none =>
      refine ⟨rfl, by simp, by simp, by simp, fun _ hheld => ?_⟩
      obtain ⟨r, hr'⟩ := hI hheld.1 e mem_cons_self
      cases hr.symm.trans hr'
    | some r =>
      have hedit : Edit c1 e (r.used tick) { c1 with extents := c1.extents.set e (r.used tick) } :=
        ⟨rfl, rfl, rfl, rfl⟩
      exact ⟨⟨r, rfl, hedit⟩, fun hheld e' hmem =>
        hedit.live hr (hI hheld e' (mem_cons_of_mem _ hmem))⟩
  obtain ⟨r, hr, -⟩ := countAt_pos
    (Nat.lt_of_lt_of_le (List.count_pos_iff.mpr hmem) (hheld id lease hfound e))
  exact ⟨r, hr⟩

theorem addRegistration_does (e : ExtentId) :
    Does c (.addRegistration e) (Op.call c (.addRegistration e)) := by
  refine .answering ?_
  unfold addRegistration
  rcases hr : c.extents.find? e with _ | r
  · rfl
  simp only
  split
  · rfl
  rename_i hstate
  rcases hins : c.registrations.insert { extent := e } with _ | p
  · rfl
  simp only
  split
  · refine ((change_plain e r _).mono (fun _ => Plain.faults) (fun _ h => h)).bind
      fun c' hedit => ?_
    exact .addRegistration hr (not_not.mp hstate) hins hedit
  · exact ⟨rfl, by simp, by simp, by simp, by simp⟩

theorem retireRegistration_does (id : RegistrationId) :
    Does c (.retireRegistration id) (Op.call c (.retireRegistration id)) := by
  refine .answering ?_
  unfold retireRegistration
  rcases hfound : c.registrations.find? id with _ | registration
  · rfl
  have hfault : (∀ r, c.extents.find? registration.extent = some r →
      ¬ 0 < r.view.registrations) → Faults c .registrationNotHeld := fun hnone =>
    ⟨rfl, by simp, fun _ hheld => by
      obtain ⟨r, hr, hpos⟩ := countAt_pos (hheld id registration hfound)
      exact hnone r hr hpos, by simp, by simp⟩
  simp only
  rcases hr : c.extents.find? registration.extent with _ | r
  · exact hfault fun r h => nomatch hr.symm.trans h
  simp only
  split
  next hpos =>
    refine ((change_plain _ r _).mono (fun _ => Plain.faults) (fun _ h => h)).bind
      fun c1 hedit => ?_
    exact .retireRegistration hfound hr hpos hedit (by rw [hedit.registrations])
  rename_i hpos
  exact hfault fun r' h => Option.some.inj (hr.symm.trans h) ▸ hpos

theorem invalidateContents_does (e : ExtentId) :
    Does c (.invalidateContents e) (Op.call c (.invalidateContents e)) := by
  refine .answering ?_
  unfold invalidateContents
  rcases hr : c.extents.find? e with _ | r
  · rfl
  simp only
  split
  · rfl
  rename_i hwrong
  simp only [not_or, not_not] at hwrong
  split
  · rfl
  rename_i hheld
  refine (advance_faults _).bind fun g hg => ?_
  subst hg
  exact .alter hr (.invalidateContents hwrong.1 hwrong.2 ⟨by omega, by omega⟩) ⟨rfl, rfl, rfl, rfl⟩

theorem replaceContents_does (e : ExtentId) :
    Does c (.replaceContents e) (Op.call c (.replaceContents e)) := by
  refine .answering ?_
  unfold replaceContents
  rcases hr : c.extents.find? e with _ | r
  · rfl
  simp only
  split
  · rfl
  rename_i hwrong
  simp only [not_or, not_not] at hwrong
  split
  · rfl
  rename_i hheld
  simp only [not_or, not_not] at hheld
  refine (advance_faults _).bind fun g hg => ?_
  subst hg
  exact .alter hr (.replaceContents hwrong.1 hwrong.2.1 hheld) ⟨rfl, rfl, rfl, rfl⟩

theorem call_does (op : Op) : Does c op (op.call c) := by
  cases op with
  | addDomain name => exact addDomain_does name
  | addExtent descriptor resident => exact addExtent_does descriptor resident
  | removeExtent extent => exact removeExtent_does extent
  | releasePinned extent => exact releasePinned_does extent
  | addResource ranges => exact addResource_does ranges
  | removeResource resource => exact removeResource_does resource
  | beginLoad extent budget => exact beginLoad_does extent budget
  | completeLoad ticket => exact completeLoad_does ticket
  | failLoad ticket known => exact failLoad_does ticket known
  | acquireLease closure => exact acquireLease_does closure
  | releaseLease lease => exact releaseLease_does lease
  | recordUse lease tick => exact recordUse_does lease tick
  | addRegistration extent => exact addRegistration_does extent
  | retireRegistration registration => exact retireRegistration_does registration
  | invalidateContents extent => exact invalidateContents_does extent
  | replaceContents extent => exact replaceContents_does extent
  | beginEvict extent writeBack => exact beginEvict_does extent writeBack
  | completeEvict ticket => exact completeEvict_does ticket
  | cancelEvict ticket => exact cancelEvict_does ticket
  | quarantineEviction ticket => exact quarantineEviction_does ticket

/-! ## One extent, over a call -/

def ExtentRecord.bare (r : ExtentRecord) : ExtentRecord :=
  { r with
    view := { r.view with leases := 0, registrations := 0, lastUse := 0 }
    resources := 0 }

inductive Evolves (c : Catalog) (op : Op) (a : Answer) (e : ExtentId) :
    Option ExtentRecord → Option ExtentRecord → Prop
  | same {o o' : Option ExtentRecord}
      (bare : o'.map ExtentRecord.bare = o.map ExtentRecord.bare) : Evolves c op a e o o'
  | added (descriptor : ExtentDescriptor) (resident : Bool) (answer : a = .extent e) :
      Evolves c op a e none (some (.fresh descriptor resident))
  | removed {r : ExtentRecord} (call : op = .removeExtent e) (answer : a = .done)
      (state : r.view.state = .nonresident) : Evolves c op a e (some r) none
  | altered {r r' : ExtentRecord} (alters : Alters c op a e r r') :
      Evolves c op a e (some r) (some r')

theorem Each.bare (h : Each c l g c') (hg : ∀ r, (g r).bare = r.bare) (e : ExtentId) :
    (c'.extents.find? e).map ExtentRecord.bare = (c.extents.find? e).map ExtentRecord.bare := by
  have hiter : ∀ n r, (g^[n] r).bare = r.bare := by
    intro n
    induction n with
    | zero => exact fun r => rfl
    | succ n ih => exact fun r => (ih (g r)).trans (hg r)
  rw [h.find]
  cases c.extents.find? e with
  | none => rfl
  | some r => exact congrArg some (hiter _ r)

theorem evolves_set (hr : c.extents.find? e = some r) (hextents : c'.extents = c.extents.set e r')
    (hself : Evolves c op a e (some r) (some r')) (e' : ExtentId) :
    Evolves c op a e' (c.extents.find? e') (c'.extents.find? e') := by
  rw [hextents, SlotTable.find?_set, hr]
  split
  next he =>
    rw [he, hr]
    exact hself
  · exact .same rfl

theorem Effect.evolves (h : Effect c op a c') (e : ExtentId) :
    Evolves c op a e (c.extents.find? e) (c'.extents.find? e) := by
  cases h with
  | refused => exact .same rfl
  | addDomain name id hextents =>
    rw [hextents]
    exact .same rfl
  | addExtent resident hins hextents =>
    rw [find_added hins hextents]
    split
    next he =>
      rw [he, SlotTable.find?_insert_fresh hins]
      exact .added _ resident rfl
    · exact .same rfl
  | removeExtent hr hstate _ hextents =>
    rw [hextents, SlotTable.find?_erase]
    split
    next he =>
      rw [he, hr]
      exact .removed rfl rfl hstate
    · exact .same rfl
  | alter hr halt hedit => exact evolves_set hr hedit.extents (.altered halt) e
  | addResource _ _ heach | acquireLease _ _ heach | recordUse tick _ heach =>
    exact .same (heach.bare (fun _ => rfl) e)
  | removeResource _ heach hafter | releaseLease _ heach hafter =>
    subst hafter
    exact .same (heach.bare (fun _ => rfl) e)
  | addRegistration hr _ _ hedit => exact evolves_set hr hedit.extents (.same (by rfl)) e
  | retireRegistration _ hr _ hedit hafter =>
    subst hafter
    exact evolves_set hr hedit.extents (.same (by rfl)) e

theorem Effect.gone (h : Effect c op a c') (hgone : c.extents.Gone e) : c'.extents.Gone e := by
  cases h with
  | refused => exact hgone
  | addDomain name id hextents =>
    rw [hextents]
    exact hgone
  | addExtent resident hins hextents =>
    rw [hextents]
    have hins' := hgone.insert hins
    split
    · exact hins'.set _ _
    · exact hins'
  | removeExtent _ _ _ hextents =>
    rw [hextents]
    exact hgone.erase _
  | alter _ _ hedit | addRegistration _ _ _ hedit =>
    rw [hedit.extents]
    exact hgone.set _ _
  | addResource _ _ heach | acquireLease _ _ heach | recordUse _ _ heach => exact heach.gone e hgone
  | removeResource _ heach hafter | releaseLease _ heach hafter =>
    subst hafter
    exact heach.gone e hgone
  | retireRegistration _ _ _ hedit hafter =>
    subst hafter
    show (Catalog.extents _).Gone e
    rw [hedit.extents]
    exact hgone.set _ _

theorem Effect.removed (h : Effect c (.removeExtent e) .done c') : c'.extents.Gone e := by
  cases h with
  | removeExtent hr _ _ hextents =>
    rw [hextents]
    exact SlotTable.gone_of_erase hr
  | alter _ halt => cases halt

/-! ## Runs -/

inductive Run : Catalog → List (Op × Answer) → Catalog → Prop
  | nil (c : Catalog) : Run c [] c
  | cons {c c₁ c' : Catalog} {op : Op} {a : Answer} {rest : List (Op × Answer)}
      (call : op.call c = .ok (a, c₁)) (run : Run c₁ rest c') : Run c ((op, a) :: rest) c'

theorem Run.split : ∀ {first second : List (Op × Answer)} {c : Catalog},
    Run c (first ++ second) c' → ∃ c1, Run c first c1 ∧ Run c1 second c'
  | [], _, c, h => ⟨c, .nil c, h⟩
  | _ :: first, second, c, h => by
    cases h with
    | cons hcall hrest =>
      obtain ⟨c1, hfirst, hsec⟩ := Run.split hrest
      exact ⟨c1, .cons hcall hfirst, hsec⟩

theorem Run.unique {c1 c2 : Catalog} (h : Run c calls c1) (h' : Run c calls c2) : c1 = c2 := by
  induction h with
  | nil =>
    cases h'
    rfl
  | cons hcall _ ih =>
    cases h' with
    | cons hcall' hrest' =>
      cases hcall.symm.trans hcall'
      exact ih hrest'

theorem Run.keeps {P : Catalog → Prop} (step : ∀ c c' op a, P c → Effect c op a c' → P c')
    (h : Run c calls c') (hc : P c) : P c' := by
  induction h with
  | nil => exact hc
  | cons hcall _ ih => exact ih (step _ _ _ _ hc ((call_does _).val hcall))

theorem Reachable.run (h : Reachable c) (hrun : Run c calls c') : Reachable c' := by
  induction hrun with
  | nil => exact h
  | cons hcall _ ih => exact ih (h.step _ (Op.run_of_call hcall))

/-! ## Refusals -/

/-- Whether the call was refused; `AddDomain` says so by an invalid identity. -/
def Answer.refuses : Answer → Bool
  | .refused _ => true
  | .domain none => true
  | _ => false

/-- The answers of a sequence of calls. -/
def answers (c : Catalog) : List Op → Checked (List Answer)
  | [] => .ok []
  | op :: rest => do
    let (a, c) ← op.call c
    return a :: (← answers c rest)

theorem Alters.accepts (h : Alters c op a e r r') : a.refuses = false := by
  cases h <;> rfl

theorem addDomain_refused {name : String} (h : (c.addDomain name).1 = none) :
    (c.addDomain name).2 = c := by
  unfold addDomain at h ⊢
  split at h
  · rfl
  · cases h

/-- **A refused call changes nothing**: the catalog is the same, and so are the answers of every
    later sequence of calls. -/
theorem refused_changes_nothing (hcall : op.call c = .ok (a, c')) (href : a.refuses = true) :
    c' = c ∧ ∀ later, c'.answers later = c.answers later := by
  have hsame : c' = c := by
    have hdoes := call_does (c := c) op
    rw [hcall] at hdoes
    have heff : Effect c op a c' := hdoes
    cases heff with
    | refused => rfl
    | addDomain name id =>
      obtain rfl : id = none := by
        cases id with
        | none => rfl
        | some => cases href
      obtain ⟨hnone, rfl⟩ := Prod.mk.inj (Except.ok.inj hcall)
      exact addDomain_refused (Answer.domain.inj hnone)
    | alter found alters edit =>
      rw [alters.accepts] at href
      cases href
    | _ => cases href
  exact ⟨hsame, fun later => by rw [hsame]⟩

/-- A load of an extent that is not there, after a domain was added. -/
theorem refused_changes_nothing_unknown : ∃ c c', Op.run {} (.addDomain "device") = .ok c ∧
    Op.call c (.beginLoad ⟨0, 1⟩ Bytes.zero) = .ok (.refused .unknownId, c') ∧ c' = c := by
  refine ⟨_, _, rfl, rfl, ?_⟩
  exact (refused_changes_nothing (show Op.call (Catalog.addDomain {} "device").2
    (.beginLoad ⟨0, 1⟩ Bytes.zero) = .ok (.refused .unknownId, _) from rfl) rfl).1

end JitLlm.Catalog
