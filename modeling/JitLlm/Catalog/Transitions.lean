import JitLlm.Catalog.Ops

/-!
# What the calls that begin and end loads and evictions do

For their one caller, the scheduler: given that the extent is where the call needs it, the call
is accepted, and one record of the extent table changes (`Edit`). The error side says only that
a call ends the process on no check but the catalog's own.
-/

namespace JitLlm.Catalog

open Base Lib

/-- One record of the extent table is `r'` now, and of the rest only the ledger changed. -/
structure Edit (c : Catalog) (e : ExtentId) (r' : ExtentRecord) (c' : Catalog) : Prop where
  extents : c'.extents = c.extents.set e r'
  resources : c'.resources = c.resources
  leases : c'.leases = c.leases
  registrations : c'.registrations = c.registrations

def Own (f : Fatal) : Prop := f.ofCatalog = true

variable {e : ExtentId} {c : Catalog} {ticket : Ticket} {r : ExtentRecord}

theorem Edit.find {c c' : Catalog} {r r' : ExtentRecord} (h : Edit c e r' c')
    (hr : c.extents.find? e = some r) (e' : ExtentId) :
    c'.extents.find? e' = if e' = e then some r' else c.extents.find? e' := by
  rw [h.extents, SlotTable.find?_set, hr]
  rfl

def Plain (f : Fatal) : Prop := f.ofChange = true

theorem Plain.own {f : Fatal} (h : Plain f) : Own f := by
  cases f <;> first | exact rfl | exact absurd h (by simp [Plain, Fatal.ofChange])

theorem add_plain (a b : Bytes) : Sat Plain (fun _ => True) (add a b) := by
  unfold add
  split
  · trivial
  · rfl

theorem subtract_plain (a b : Bytes) : Sat Plain (fun _ => True) (subtract a b) := by
  unfold subtract
  split
  · trivial
  · rfl

theorem advance_plain (g : Nat) : Sat Plain (fun g' => g' = g + 1) (advance g) := by
  unfold advance
  split
  · rfl
  · rfl

theorem move_plain (o : Occupancy) (k : MemoryClass) (size : Bytes)
    (before after : Option Bucket) : Sat Plain (fun _ => True) (o.move k size before after) := by
  have hleave : Sat Plain (fun _ => True) (o.leave k size before) := by
    cases before with
    | none => exact (add_plain _ _).bind fun _ _ => trivial
    | some => exact (subtract_plain _ _).bind fun _ _ => trivial
  refine hleave.bind fun left _ => ?_
  cases after with
  | none => exact (subtract_plain _ _).bind fun _ _ => trivial
  | some => exact (add_plain _ _).bind fun _ _ => trivial

theorem recount_plain (r : ExtentRecord) (before : Option Bucket) :
    Sat Plain (fun c' => c'.extents = c.extents ∧ c'.resources = c.resources ∧
      c'.leases = c.leases ∧ c'.registrations = c.registrations) (c.recount r before) := by
  unfold recount
  simp only
  split
  · exact ⟨rfl, rfl, rfl, rfl⟩
  cases c.domains.find? r.view.descriptor.domain with
  | none => rfl
  | some => exact (move_plain _ _ _ _ _).bind fun _ _ => ⟨rfl, rfl, rfl, rfl⟩

theorem change_plain (e : ExtentId) (r r' : ExtentRecord) :
    Sat Plain (Edit c e r') (c.change e r r') := by
  refine (recount_plain r' _).bind fun counted h => ?_
  exact ⟨by rw [h.1], h.2.1, h.2.2.1, h.2.2.2⟩

theorem changeAccept_plain {α : Type} (e : ExtentId) (r r' : ExtentRecord) (a : α) :
    Sat Plain (fun y => y.1 = .ok a ∧ Edit c e r' y.2) (c.change e r r' >>= accept a) :=
  (change_plain e r r').bind fun _ h => ⟨rfl, h⟩

theorem add_own (a b : Bytes) : Sat Own (fun _ => True) (add a b) :=
  (add_plain a b).mono (fun _ => Plain.own) fun _ h => h

theorem advance_own (g : Nat) : Sat Own (fun _ => True) (advance g) :=
  (advance_plain g).mono (fun _ => Plain.own) fun _ _ => trivial

theorem change_own (e : ExtentId) (r r' : ExtentRecord) : Sat Own (Edit c e r') (c.change e r r') :=
  (change_plain e r r').mono (fun _ => Plain.own) fun _ h => h

theorem changeAccept_own {α : Type} (e : ExtentId) (r r' : ExtentRecord) (a : α) :
    Sat Own (fun y => y.1 = .ok a ∧ Edit c e r' y.2) (c.change e r r' >>= accept a) :=
  (changeAccept_plain e r r' a).mono (fun _ => Plain.own) fun _ h => h

/-! ## Loads -/

/-- The extent's current operation is the load of this ticket. -/
structure Loads (c : Catalog) (e : ExtentId) (ticket : Ticket) (r : ExtentRecord) : Prop where
  found : c.extents.find? e = some r
  state : r.view.state = .loading
  operation : r.operation = .load
  ticket : ticket = { extent := e, operation := .load, serial := r.operations }

/-- The extent's current operation is the eviction of this ticket. -/
structure Evicts (c : Catalog) (e : ExtentId) (ticket : Ticket) (r : ExtentRecord) : Prop where
  found : c.extents.find? e = some r
  state : r.view.state = .evicting
  operation : r.operation = .evict
  ticket : ticket = { extent := e, operation := .evict, serial := r.operations }

theorem Loads.current (h : Loads c e ticket r) : c.current ticket .load .loading = .ok r := by
  simp [Catalog.current, h.ticket, h.found, h.operation, h.state]

theorem Evicts.current (h : Evicts c e ticket r) : c.current ticket .evict .evicting = .ok r := by
  simp [Catalog.current, h.ticket, h.found, h.operation, h.state]

def ExtentRecord.loaded (r : ExtentRecord) : ExtentRecord :=
  { r with view := { r.view with state := .resident, discarded := false, preserved := false } }

theorem completeLoad_sat (h : Loads c e ticket r) :
    Sat Own (fun y => y.1 = .ok () ∧ Edit c e r.loaded y.2) (c.completeLoad ticket) := by
  unfold completeLoad
  have he : ticket.extent = e := by rw [h.ticket]
  rw [h.current]
  simp only [he]
  exact changeAccept_own e r _ ()

theorem failLoad_sat (h : Loads c e ticket r) : Sat Own (fun y => y.1 = .ok () ∧ ∃ g, Edit c e
      { r with view := { r.view with state := .nonresident, backingGeneration := g } } y.2)
      (c.failLoad ticket true) := by
  unfold failLoad
  have he : ticket.extent = e := by rw [h.ticket]
  rw [h.current]
  simp only [he, if_true]
  exact (advance_own _).bind fun g _ =>
    (changeAccept_own e r _ ()).imp fun y hy => ⟨hy.1, g, hy.2⟩

def ExtentRecord.quarantined (r : ExtentRecord) : ExtentRecord :=
  { r with view := { r.view with state := .quarantined } }

theorem quarantineLoad_sat (h : Loads c e ticket r) :
    Sat Own (fun y => y.1 = .ok () ∧ Edit c e r.quarantined y.2) (c.failLoad ticket false) := by
  unfold failLoad
  have he : ticket.extent = e := by rw [h.ticket]
  rw [h.current]
  simp only [he, Bool.false_eq_true, if_false]
  exact changeAccept_own e r _ ()

def ExtentRecord.loading (r : ExtentRecord) : ExtentRecord :=
  { r with
    view := { r.view with state := .loading }
    operations := r.operations + 1
    operation := .load }

theorem beginLoad_sat (e : ExtentId) (budget : Bytes) :
    Sat Own (fun y => (∃ error, y.1 = .error error ∧ y.2 = c) ∨
      ∃ r ticket total, y.1 = .ok ticket ∧ c.extents.find? e = some r ∧
        r.view.state = .nonresident ∧ (c.occupancyOf r.view.descriptor.domain).total = .ok total ∧
        total.value + r.view.descriptor.size.value ≤ budget.value ∧
        Edit c e r.loading y.2 ∧ Loads y.2 e ticket r.loading)
      (c.beginLoad e budget) := by
  unfold beginLoad
  rcases hr : c.extents.find? e with _ | r
  · exact Or.inl ⟨_, rfl, rfl⟩
  simp only
  split
  · exact Or.inl ⟨_, rfl, rfl⟩
  rename_i hs
  have htotal : Sat Own (fun _ => True) (c.occupancyOf r.view.descriptor.domain).total :=
    Sat.foldlM (I := fun _ _ => True) (fun a x _ _ => add_own _ _) trivial
  refine htotal.self.bind fun total ht => ?_
  rcases hplus : total.plus r.view.descriptor.size with _ | _
  · exact Or.inl ⟨_, rfl, rfl⟩
  simp only
  have hafter := Bytes.plus_eq_some.mp hplus
  split
  · exact Or.inl ⟨_, rfl, rfl⟩
  unfold begin
  split
  · refine (changeAccept_own e r r.loading _).imp fun y hy => Or.inr ⟨r, _, total, hy.1, rfl,
      by simpa using hs, ht.2, by omega, hy.2, ?_⟩
    refine ⟨?_, rfl, rfl, rfl⟩
    rw [hy.2.find hr, if_pos rfl]
  · rfl

/-! ## Evictions -/

def ExtentRecord.evicting (r : ExtentRecord) (writeBack : Bool) : ExtentRecord :=
  { r with
    view := { r.view with state := .evicting }
    writingBack := writeBack
    operations := r.operations + 1
    operation := .evict }

theorem beginEvict_sat (e : ExtentId) (writeBack : Bool) :
    Sat Own (fun y => (∃ error, y.1 = .error error ∧ y.2 = c) ∨
      ∃ r ticket, y.1 = .ok ticket ∧ c.extents.find? e = some r ∧ r.view.state = .resident ∧
        r.view.leases = 0 ∧ r.view.registrations = 0 ∧
        (writeBack = true → r.view.descriptor.recovery = .preserve ∧ r.view.discarded = false) ∧
        Edit c e (r.evicting writeBack) y.2 ∧ Evicts y.2 e ticket (r.evicting writeBack))
      (c.beginEvict e writeBack) := by
  unfold beginEvict
  rcases hr : c.extents.find? e with _ | r
  · exact Or.inl ⟨_, rfl, rfl⟩
  simp only
  split
  · exact Or.inl ⟨_, rfl, rfl⟩
  rename_i hs
  split
  · exact Or.inl ⟨_, rfl, rfl⟩
  rename_i hheld
  split
  · exact Or.inl ⟨_, rfl, rfl⟩
  rename_i hmay
  have hwb : writeBack = true → r.view.descriptor.recovery = .preserve ∧
      r.view.discarded = false := by
    intro hw
    simp only [mayEvict, hw, if_true, Bool.not_eq_true', Bool.not_eq_false,
      Bool.and_eq_true, decide_eq_true_eq] at hmay
    exact ⟨hmay.1.1, by simpa using hmay.1.2⟩
  unfold begin
  split
  · refine (changeAccept_own e r (r.evicting writeBack) _).imp fun y hy => Or.inr
      ⟨r, _, hy.1, rfl, by simpa using hs, by omega, by omega, hwb, hy.2, ?_⟩
    refine ⟨?_, rfl, rfl, rfl⟩
    rw [hy.2.find hr, if_pos rfl]
  · rfl

theorem completeEvict_sat (h : Evicts c e ticket r) :
    Sat Own (fun y => y.1 = .ok () ∧ ∃ r', Edit c e r' y.2 ∧
        r'.view.state = .nonresident ∧ r'.view.preserved = r.writingBack ∧
        r'.view.descriptor = r.view.descriptor ∧ r'.view.leases = r.view.leases ∧
        r'.view.registrations = r.view.registrations ∧
        (r.view.descriptor.recovery = .fromArtifact ∨ r.writingBack = true →
          r'.view.contentGeneration = r.view.contentGeneration))
      (c.completeEvict ticket) := by
  unfold completeEvict
  have he : ticket.extent = e := by rw [h.ticket]
  rw [h.current]
  simp only [he]
  refine (advance_own _).bind fun b _ => ?_
  split
  next hkeep =>
    refine (advance_own _).bind fun g _ => (changeAccept_own e r _ ()).imp fun y hy =>
      ⟨hy.1, _, hy.2, rfl, rfl, rfl, rfl, rfl, fun hor => ?_⟩
    rcases hor with hor | hor
    · exact absurd hor hkeep.1
    · exact absurd hor (by simpa using hkeep.2)
  exact (changeAccept_own e r _ ()).imp fun y hy =>
    ⟨hy.1, _, hy.2, rfl, rfl, rfl, rfl, rfl, fun _ => rfl⟩

def ExtentRecord.kept (r : ExtentRecord) : ExtentRecord :=
  { r with view := { r.view with state := .resident }, writingBack := false }

theorem cancelEvict_sat (h : Evicts c e ticket r) :
    Sat Own (fun y => y.1 = .ok () ∧ Edit c e r.kept y.2) (c.cancelEvict ticket) := by
  unfold cancelEvict
  have he : ticket.extent = e := by rw [h.ticket]
  rw [h.current]
  simp only [he]
  exact changeAccept_own e r _ ()

theorem quarantineEviction_sat (h : Evicts c e ticket r) :
    Sat Own (fun y => y.1 = .ok () ∧ Edit c e { r.quarantined with writingBack := false } y.2)
      (c.quarantineEviction ticket) := by
  unfold quarantineEviction
  have he : ticket.extent = e := by rw [h.ticket]
  rw [h.current]
  simp only [he]
  exact changeAccept_own e r _ ()

end JitLlm.Catalog
