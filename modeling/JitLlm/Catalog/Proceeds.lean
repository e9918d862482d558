import JitLlm.Catalog.Effects
import JitLlm.Catalog.Occupancy

/-!
# Operations that go through

With an exact ledger a change of a record fails on nothing but a counter at its end. So a list of
evictable extents can be evicted in any order, and what is nonresident and fits a budget together
can begin to load in any order. `Clearing` and `Loading` are these two courses of calls, with no
other call between them.
-/

namespace JitLlm.Catalog

open Base Lib List

variable {c c' : Catalog} {e : ExtentId} {r r' : ExtentRecord}

/-! ## One operation -/

theorem move_arithmetic (o : Occupancy) (k : MemoryClass) (size : Bytes)
    (before after : Option Bucket) :
    Sat (fun f => ¬ LedgerSafe f) (fun _ => True) (o.move k size before after) := by
  have hadd : ∀ a b : Bytes, Sat (fun f => ¬ LedgerSafe f) (fun _ => True) (add a b) := by
    intro a b
    unfold add
    split
    · trivial
    · exact fun h => h.1 rfl
  have hsub : ∀ a b : Bytes, Sat (fun f => ¬ LedgerSafe f) (fun _ => True) (subtract a b) := by
    intro a b
    unfold subtract
    split
    · trivial
    · exact fun h => h.2 rfl
  refine Sat.bind (P := fun _ => True) ?_ fun left _ => ?_
  · cases before with
    | none => exact (hadd _ _).bind fun _ _ => trivial
    | some => exact (hsub _ _).bind fun _ _ => trivial
  cases after with
  | none => exact (hsub _ _).bind fun _ _ => trivial
  | some => exact (hadd _ _).bind fun _ _ => trivial

theorem Ledger.change_ok (hl : Ledger c) (h : c.extents.find? e = some r) (r' : ExtentRecord)
    (hd : r'.view.descriptor = r.view.descriptor) :
    ∃ c', c.change e r r' = .ok c' ∧ Ledger c' ∧ c'.extents = c.extents.set e r' := by
  have hsat := hl.change h hd
  cases hchange : c.change e r r' with
  | ok c' =>
    obtain ⟨hl', hextents, -⟩ := hsat.val hchange
    exact ⟨c', rfl, hl', hextents⟩
  | error =>
    have hsafe := hsat.err hchange
    unfold Catalog.change Catalog.recount at hchange
    simp only at hchange
    split at hchange
    · cases hchange
    obtain ⟨domain, hdom⟩ := hl.placed e r h
    rw [hd, hdom] at hchange
    cases hmove : domain.occupancy.move r.view.descriptor.memoryClass r.view.descriptor.size
        (bucketOf r.view) (bucketOf r'.view) with
    | ok occupancy =>
      simp only [hmove, ok_bind] at hchange
      cases hchange
    | error f' =>
      simp only [hmove, error_bind] at hchange
      cases hchange
      exact absurd hsafe ((move_arithmetic _ _ _ _ _).err hmove)

theorem bytesOf_edit (h : c.extents.find? e = some r) (hextents : c'.extents = c.extents.set e r')
    (d : DomainId) (p : ExtentView → Bool) :
    bytesOf c' d p + weight d p r = bytesOf c d p + weight d p r' := by
  have hset := bytesOf_set h r' d p
  unfold bytesOf at hset ⊢
  rw [hextents]
  exact hset

theorem evictable_unheld {view : ExtentView} (h : evictable view = true) :
    view.state = .resident ∧ view.leases = 0 ∧ view.registrations = 0 := by
  unfold evictable at h
  split at h
  · cases h
  rename_i hno
  simp only [ne_eq, not_or, not_not] at hno
  exact ⟨hno.1, hno.2.1, hno.2.2.1⟩

theorem Ledger.beginEvict_ok (hl : Ledger c) (h : c.extents.find? e = some r)
    (hevi : evictable r.view = true) (hspare : r.operations < uint64Max) :
    ∃ ticket c', c.beginEvict e false = .ok (.ok ticket, c') ∧ Ledger c' ∧
      c'.extents = c.extents.set e (r.evicting false) ∧
      ticket = { extent := e, operation := .evict, serial := r.operations + 1 } := by
  obtain ⟨hstate, hleases, hreg⟩ := evictable_unheld hevi
  obtain ⟨c', hchange, hl', hextents⟩ := hl.change_ok h (r.evicting false) rfl
  refine ⟨_, c', ?_, hl', hextents, rfl⟩
  unfold Catalog.beginEvict
  have hbegin : begin e { r with view := { r.view with state := .evicting }, writingBack := false }
      .evict = .ok ({ extent := e, operation := .evict, serial := r.operations + 1 },
        r.evicting false) := if_pos hspare
  simp only [h]
  rw [if_neg (by simp [hstate]), if_neg (by simp [hleases, hreg]),
    if_neg (by simp [mayEvict, hevi]), hbegin, ok_bind]
  rw [hchange]
  rfl

theorem Ledger.cancelEvict_ok (hl : Ledger c) {ticket : Ticket} (h : Evicts c e ticket r) :
    ∃ c', c.cancelEvict ticket = .ok (.ok (), c') ∧ c'.extents = c.extents.set e r.kept := by
  obtain ⟨c', hchange, -, hextents⟩ := hl.change_ok h.found r.kept rfl
  refine ⟨c', ?_, hextents⟩
  have hticket : ticket.extent = e := by rw [h.ticket]
  unfold Catalog.cancelEvict
  simp only [h.current, hticket]
  show (c.change e r r.kept >>= accept ()) = _
  rw [hchange]
  rfl

theorem Ledger.completeEvict_ok (hl : Ledger c) {ticket : Ticket} (h : Evicts c e ticket r)
    (hback : r.view.backingGeneration < uint64Max)
    (hcon : r.view.descriptor.recovery ≠ .fromArtifact → r.view.contentGeneration < uint64Max) :
    ∃ c' r', c.completeEvict ticket = .ok (.ok (), c') ∧ Ledger c' ∧
      c'.extents = c.extents.set e r' ∧ r'.view.state = .nonresident ∧
      r'.view.descriptor = r.view.descriptor := by
  obtain ⟨g, hg⟩ : ∃ g, (r.view.descriptor.recovery ≠ .fromArtifact ∧ (!r.writingBack) = true ∧
        advance r.view.contentGeneration = .ok g) ∨
      (¬ (r.view.descriptor.recovery ≠ .fromArtifact ∧ (!r.writingBack) = true) ∧
        g = r.view.contentGeneration) := by
    by_cases hlive : r.view.descriptor.recovery ≠ .fromArtifact ∧ (!r.writingBack) = true
    · exact ⟨_, .inl ⟨hlive.1, hlive.2, if_pos (hcon hlive.1)⟩⟩
    · exact ⟨_, .inr ⟨hlive, rfl⟩⟩
  obtain ⟨c', hchange, hl', hextents⟩ := hl.change_ok h.found { r with
    view := { r.view with
      state := .nonresident
      backingGeneration := r.view.backingGeneration + 1
      contentGeneration := g
      discarded := false
      preserved := r.writingBack }
    writingBack := false } rfl
  refine ⟨c', _, ?_, hl', hextents, rfl, rfl⟩
  unfold Catalog.completeEvict
  have hadv : advance r.view.backingGeneration = .ok (r.view.backingGeneration + 1) := if_pos hback
  have hticket : ticket.extent = e := by rw [h.ticket]
  simp only [h.current, hadv, ok_bind, hticket]
  rcases hg with ⟨hrec, hfresh, hg⟩ | ⟨hkept, rfl⟩
  · rw [if_pos ⟨hrec, hfresh⟩, hg, ok_bind, hchange]
    rfl
  rw [if_neg hkept]
  simp only [pure_bind]
  rw [hchange]
  rfl

theorem Ledger.beginLoad_ok (hl : Ledger c) (h : c.extents.find? e = some r)
    (hstate : r.view.state = .nonresident) (hspare : r.operations < uint64Max) (budget : Bytes)
    (hfits : bytesOf c r.view.descriptor.domain occupies + r.view.descriptor.size.value
      ≤ budget.value) : ∃ ticket c', c.beginLoad e budget = .ok (.ok ticket, c') ∧ Ledger c' ∧
      c'.extents = c.extents.set e r.loading := by
  obtain ⟨total, htotal, hvalue⟩ := hl.total r.view.descriptor.domain
  obtain ⟨c', hchange, hl', hextents⟩ := hl.change_ok h r.loading rfl
  refine ⟨{ extent := e, operation := .load, serial := r.operations + 1 }, c', ?_, hl', hextents⟩
  have hrange : total.value + r.view.descriptor.size.value ≤ uint64Max := by
    have := budget.bound
    omega
  have hplus : total.plus r.view.descriptor.size = some ⟨_, hrange⟩ := dif_pos hrange
  have hbegin : begin e { r with view := { r.view with state := .loading } } .load =
      .ok ({ extent := e, operation := .load, serial := r.operations + 1 }, r.loading) :=
    if_pos hspare
  unfold Catalog.beginLoad
  simp only [h]
  rw [if_neg (by simp [hstate]), htotal, ok_bind, hplus]
  simp only
  rw [if_neg (by omega), hbegin, ok_bind]
  rw [hchange]
  rfl

/-! ## Evicting some -/

def sizeAt (c : Catalog) (e : ExtentId) : Nat :=
  cellVal (fun r => r.view.descriptor.size.value) (c.extents.find? e)

def sizesAt (c : Catalog) (l : List ExtentId) : Nat := (l.map c.sizeAt).sum

theorem sizesAt_cons (e : ExtentId) (l : List ExtentId) :
    c.sizesAt (e :: l) = c.sizeAt e + c.sizesAt l := by
  simp [sizesAt]

theorem sizesAt_perm {l l' : List ExtentId} (h : l.Perm l') : c.sizesAt l = c.sizesAt l' :=
  (h.map _).sum_eq

theorem sizesAt_erase {l : List ExtentId} (h : e ∈ l) :
    c.sizesAt l = c.sizeAt e + c.sizesAt (l.erase e) := by
  rw [sizesAt_perm (perm_cons_erase h), sizesAt_cons]

/-- `BeginEvict` and `CompleteEvict` of these extents, in any order; what is still to begin and the
    tickets that are open. -/
inductive Clearing (c : Catalog) (victims : List ExtentId) :
    Catalog → List ExtentId → List Ticket → Prop
  | start : Clearing c victims c victims []
  | begins {c₁ c₂ : Catalog} {todo : List ExtentId} {tickets : List Ticket} {e : ExtentId}
      {ticket : Ticket} : Clearing c victims c₁ todo tickets → e ∈ todo →
      c₁.beginEvict e false = .ok (.ok ticket, c₂) →
      Clearing c victims c₂ (todo.erase e) (ticket :: tickets)
  | completes {c₁ c₂ : Catalog} {todo : List ExtentId} {tickets : List Ticket} {ticket : Ticket} :
      Clearing c victims c₁ todo tickets → ticket ∈ tickets →
      c₁.completeEvict ticket = .ok (.ok (), c₂) →
      Clearing c victims c₂ todo (tickets.erase ticket)

/-- The extent is evictable, and no counter of it is at its end. -/
structure ExtentRecord.CanGo (r : ExtentRecord) : Prop where
  evictable : evictable r.view = true
  operations : r.operations < uint64Max
  backing : r.view.backingGeneration < uint64Max
  content : r.view.descriptor.recovery ≠ .fromArtifact → r.view.contentGeneration < uint64Max

structure Cleared (c : Catalog) (d : DomainId) (victims : List ExtentId) (c₁ : Catalog)
    (todo : List ExtentId) (tickets : List Ticket) : Prop where
  ledger : Ledger c₁
  nodup : (todo ++ tickets.map Ticket.extent).Nodup
  mem : ∀ e ∈ todo ++ tickets.map Ticket.extent, e ∈ victims
  ahead : ∀ e ∈ todo, c₁.extents.find? e = c.extents.find? e
  begun : ∀ t ∈ tickets, ∃ r, c.extents.find? t.extent = some r ∧
    Evicts c₁ t.extent t (r.evicting false)
  others : ∀ e, e ∉ victims → c₁.extents.find? e = c.extents.find? e
  bytes : bytesOf c₁ d occupies + c.sizesAt victims =
    bytesOf c d occupies + c.sizesAt todo + c.sizesAt (tickets.map Ticket.extent)

section Clearing

variable {d : DomainId} {victims todo : List ExtentId} {tickets : List Ticket} {c₁ c₂ : Catalog}

theorem find_set_of_extents (h : c.extents.find? e = some r)
    (hextents : c'.extents = c.extents.set e r') (x : ExtentId) :
    c'.extents.find? x = if x = e then some r' else c.extents.find? x := by
  rw [hextents, SlotTable.find?_set, h]
  rfl

theorem sizeAt_of_find (h : c.extents.find? e = some r) :
    c.sizeAt e = r.view.descriptor.size.value := by
  unfold sizeAt
  rw [h]
  rfl

theorem weight_occupies (hd : r.view.descriptor.domain = d) :
    weight d occupies r = if r.view.state = .nonresident then 0 else r.view.descriptor.size.value := by
  by_cases hs : r.view.state = .nonresident <;> simp [weight, occupies, hd, hs]

section

variable (h : Cleared c d victims c₁ todo tickets)
    (hgo : ∀ e ∈ victims, ∃ r, c.extents.find? e = some r ∧ r.view.descriptor.domain = d ∧ r.CanGo)
include h hgo

theorem Cleared.begins_ok (he : e ∈ todo) :
    ∃ ticket c₂, c₁.beginEvict e false = .ok (.ok ticket, c₂) ∧
      Cleared c d victims c₂ (todo.erase e) (ticket :: tickets) := by
  obtain ⟨r, hr, hd, hcan⟩ := hgo e (h.mem e (mem_append_left _ he))
  have hr1 : c₁.extents.find? e = some r := (h.ahead e he).trans hr
  obtain ⟨ticket, c₂, hbegin, hl, hextents, hticket⟩ :=
    h.ledger.beginEvict_ok hr1 hcan.evictable hcan.operations
  have hfind := find_set_of_extents hr1 hextents
  have hextent : ticket.extent = e := by rw [hticket]
  have hperm : (todo.erase e ++ (ticket :: tickets).map Ticket.extent).Perm
      (todo ++ tickets.map Ticket.extent) := by
    rw [map_cons, hextent]
    exact (perm_middle).trans ((perm_cons_erase he).symm.append_right _)
  have hnodup : (todo.erase e ++ (ticket :: tickets).map Ticket.extent).Nodup :=
    hperm.nodup_iff.mpr h.nodup
  refine ⟨ticket, c₂, hbegin, hl, hnodup, fun x hx => h.mem x (hperm.mem_iff.mp hx), ?_, ?_, ?_, ?_⟩
  · intro x hx
    have hne : x ≠ e := by
      rintro rfl
      rw [map_cons, hextent] at hnodup
      exact (nodup_append.mp hnodup).2.2 x hx x mem_cons_self rfl
    rw [hfind x, if_neg hne]
    exact h.ahead x (mem_of_mem_erase hx)
  · intro t ht
    rcases mem_cons.mp ht with rfl | ht
    · rw [hextent]
      refine ⟨r, hr, ?_, rfl, rfl, hticket⟩
      rw [hfind e, if_pos rfl]
    obtain ⟨r', hr', hevi⟩ := h.begun t ht
    have hne : t.extent ≠ e := by
      intro heq
      have hdis := (nodup_append.mp h.nodup).2.2 e he t.extent (mem_map_of_mem ht)
      exact hdis heq.symm
    refine ⟨r', hr', ?_, hevi.state, hevi.operation, hevi.ticket⟩
    rw [hfind t.extent, if_neg hne]
    exact hevi.found
  · intro x hx
    have hne : x ≠ e := by
      rintro rfl
      exact hx (h.mem x (mem_append_left _ he))
    rw [hfind x, if_neg hne]
    exact h.others x hx
  have hweight := bytesOf_edit hr1 hextents d occupies
  have hstate := (evictable_unheld hcan.evictable).1
  rw [weight_occupies hd, weight_occupies (r := r.evicting false) hd, if_neg (by simp [hstate]),
    if_neg (by simp [ExtentRecord.evicting])] at hweight
  have hsame : (r.evicting false).view.descriptor.size = r.view.descriptor.size := rfl
  have hbytes := h.bytes
  have hsplit := sizesAt_erase (c := c) he
  rw [map_cons, hextent, sizesAt_cons]
  rw [hsame] at hweight
  omega

theorem Cleared.completes_ok {ticket : Ticket} (ht : ticket ∈ tickets) :
    ∃ c₂, c₁.completeEvict ticket = .ok (.ok (), c₂) ∧
      Cleared c d victims c₂ todo (tickets.erase ticket) := by
  obtain ⟨r, hr, hevi⟩ := h.begun ticket ht
  have hmem : ticket.extent ∈ tickets.map Ticket.extent := mem_map_of_mem ht
  obtain ⟨r1, hr1, hd, hcan⟩ := hgo ticket.extent (h.mem _ (mem_append_right _ hmem))
  cases hr.symm.trans hr1
  obtain ⟨c₂, r', hcom, hl, hextents, hstate, hdes⟩ :=
    h.ledger.completeEvict_ok hevi hcan.backing hcan.content
  have hfind := find_set_of_extents hevi.found hextents
  have hperm : (tickets.map Ticket.extent).Perm
      (ticket.extent :: (tickets.erase ticket).map Ticket.extent) :=
    (perm_cons_erase ht).map Ticket.extent
  have hsub : (todo ++ (tickets.erase ticket).map Ticket.extent).Sublist
      (todo ++ tickets.map Ticket.extent) :=
    ((erase_sublist).map _).append_left todo
  have hnodup := (perm_append_left_iff todo).mpr hperm |>.nodup_iff.mp h.nodup
  have hne : ∀ t ∈ tickets.erase ticket, t.extent ≠ ticket.extent := by
    intro t ht' heq
    have hcons := (nodup_append.mp hnodup).2.1
    exact (nodup_cons.mp hcons).1 (heq ▸ mem_map_of_mem ht')
  refine ⟨c₂, hcom, hl, h.nodup.sublist hsub, fun x hx => h.mem x (hsub.subset hx), ?_, ?_, ?_, ?_⟩
  · intro x hx
    have hne' : x ≠ ticket.extent := (nodup_append.mp h.nodup).2.2 x hx _ hmem
    rw [hfind x, if_neg hne']
    exact h.ahead x hx
  · intro t ht'
    obtain ⟨rt, hrt, hevi'⟩ := h.begun t (mem_of_mem_erase ht')
    refine ⟨rt, hrt, ?_, hevi'.state, hevi'.operation, hevi'.ticket⟩
    rw [hfind t.extent, if_neg (hne t ht')]
    exact hevi'.found
  · intro x hx
    have hne' : x ≠ ticket.extent := by
      rintro rfl
      exact hx (h.mem _ (mem_append_right _ hmem))
    rw [hfind x, if_neg hne']
    exact h.others x hx
  have hweight := bytesOf_edit hevi.found hextents d occupies
  have hd' : r'.view.descriptor.domain = d := by
    rw [hdes]
    exact hd
  rw [weight_occupies (r := r.evicting false) hd, weight_occupies hd', if_pos hstate,
    if_neg (by simp [ExtentRecord.evicting])] at hweight
  have hsame : (r.evicting false).view.descriptor.size = r.view.descriptor.size := rfl
  have hsize := sizeAt_of_find hr
  have hbytes := h.bytes
  rw [sizesAt_perm hperm, sizesAt_cons] at hbytes
  rw [hsame] at hweight
  omega

end

theorem Clearing.cleared (h : Clearing c victims c₁ todo tickets) (hl : Ledger c)
    (hn : victims.Nodup)
    (hgo : ∀ e ∈ victims, ∃ r, c.extents.find? e = some r ∧ r.view.descriptor.domain = d ∧ r.CanGo) :
    Cleared c d victims c₁ todo tickets := by
  induction h with
  | start =>
    refine ⟨hl, by simpa using hn, fun e he => by simpa using he, fun _ _ => rfl, ?_,
      fun _ _ => rfl, ?_⟩
    · intro t ht
      cases ht
    · simp [sizesAt]
  | begins _ he hbegin ih =>
    obtain ⟨ticket, c₂, hbegin', hnext⟩ := ih.begins_ok hgo he
    cases hbegin.symm.trans hbegin'
    exact hnext
  | completes _ ht hcom ih =>
    obtain ⟨c₂, hcom', hnext⟩ := ih.completes_ok hgo ht
    cases hcom.symm.trans hcom'
    exact hnext

end Clearing

/-! ## Loading some -/

/-- `BeginLoad` of these extents against the budget, in any order; what is still to begin. -/
inductive Loading (c : Catalog) (budget : Bytes) (load : List ExtentId) :
    Catalog → List ExtentId → Prop
  | start : Loading c budget load c load
  | begins {c₁ c₂ : Catalog} {todo : List ExtentId} {e : ExtentId} {ticket : Ticket} :
      Loading c budget load c₁ todo → e ∈ todo → c₁.beginLoad e budget = .ok (.ok ticket, c₂) →
      Loading c budget load c₂ (todo.erase e)

structure Loaded (c : Catalog) (d : DomainId) (load : List ExtentId) (c₁ : Catalog)
    (todo : List ExtentId) : Prop where
  ledger : Ledger c₁
  nodup : todo.Nodup
  mem : ∀ e ∈ todo, e ∈ load
  ahead : ∀ e ∈ todo, c₁.extents.find? e = c.extents.find? e
  bytes : bytesOf c₁ d occupies + c.sizesAt todo = bytesOf c d occupies + c.sizesAt load

section Loading

variable {d : DomainId} {load todo : List ExtentId} {c₁ c₂ : Catalog} {budget : Bytes}

theorem Loaded.begins_ok (h : Loaded c d load c₁ todo)
    (hload : ∀ e ∈ load, ∃ r, c.extents.find? e = some r ∧ r.view.descriptor.domain = d ∧
      r.view.state = .nonresident ∧ r.operations < uint64Max)
    (hfits : bytesOf c d occupies + c.sizesAt load ≤ budget.value) (he : e ∈ todo) :
    ∃ ticket c₂, c₁.beginLoad e budget = .ok (.ok ticket, c₂) ∧
      Loaded c d load c₂ (todo.erase e) := by
  obtain ⟨r, hr, hd, hstate, hspare⟩ := hload e (h.mem e he)
  have hr1 : c₁.extents.find? e = some r := (h.ahead e he).trans hr
  have hsplit := sizesAt_erase (c := c) he
  have hsize := sizeAt_of_find hr
  have hbytes := h.bytes
  obtain ⟨ticket, c₂, hbegin, hl, hextents⟩ := h.ledger.beginLoad_ok hr1 hstate hspare
    budget (by rw [hd]; omega)
  have hfind := find_set_of_extents hr1 hextents
  refine ⟨ticket, c₂, hbegin, hl, h.nodup.erase e, fun x hx => h.mem x (mem_of_mem_erase hx),
    ?_, ?_⟩
  · intro x hx
    have hne : x ≠ e := ((h.nodup.mem_erase_iff).mp hx).1
    rw [hfind x, if_neg hne]
    exact h.ahead x (mem_of_mem_erase hx)
  have hweight := bytesOf_edit hr1 hextents d occupies
  rw [weight_occupies hd, weight_occupies (r := r.loading) hd, if_pos hstate,
    if_neg (by simp [ExtentRecord.loading])] at hweight
  have hsame : r.loading.view.descriptor.size = r.view.descriptor.size := rfl
  rw [hsame] at hweight
  omega

theorem Loading.loaded (h : Loading c budget load c₁ todo) (hl : Ledger c) (hn : load.Nodup)
    (hload : ∀ e ∈ load, ∃ r, c.extents.find? e = some r ∧ r.view.descriptor.domain = d ∧
      r.view.state = .nonresident ∧ r.operations < uint64Max)
    (hfits : bytesOf c d occupies + c.sizesAt load ≤ budget.value) : Loaded c d load c₁ todo := by
  induction h with
  | start => exact ⟨hl, hn, fun _ he => he, fun _ _ => rfl, rfl⟩
  | begins _ he hbegin ih =>
    obtain ⟨ticket, c₂, hbegin', hnext⟩ := ih.begins_ok hload hfits he
    cases hbegin.symm.trans hbegin'
    exact hnext

end Loading

/-! ## Counters at their end -/

structure Turned (c : Catalog) (e : ExtentId) (r : ExtentRecord) (c' : Catalog) (r' : ExtentRecord) :
    Prop where
  reachable : Reachable c'
  found : c'.extents.find? e = some r'
  view : r'.view = r.view
  others : ∀ x, x ≠ e → c'.extents.find? x = c.extents.find? x
  resources : c'.resources = c.resources
  bytes : ∀ d, bytesOf c' d occupies = bytesOf c d occupies

theorem Reachable.turn (h : Reachable c) (hr : c.extents.find? e = some r)
    (hevi : evictable r.view = true) (hspare : r.operations < uint64Max) :
    ∃ c' r', Turned c e r c' r' ∧ r'.operations = r.operations + 1 := by
  have hl := h.ledger
  have hstate := (evictable_unheld hevi).1
  obtain ⟨ticket, c₁, hbegin, hl1, hextents1, hticket⟩ := hl.beginEvict_ok hr hevi hspare
  have hfind1 := find_set_of_extents hr hextents1
  have hr1 : c₁.extents.find? e = some (r.evicting false) := by rw [hfind1, if_pos rfl]
  have hevicts : Evicts c₁ e ticket (r.evicting false) := ⟨hr1, rfl, rfl, hticket⟩
  obtain ⟨c₂, hcan, hextents2⟩ := hl1.cancelEvict_ok hevicts
  have hfind2 := find_set_of_extents hr1 hextents2
  have hview : (r.evicting false).kept.view = r.view := by
    simp [ExtentRecord.kept, ExtentRecord.evicting, ← hstate]
  have hreach1 : Reachable c₁ := by
    refine .step (.beginEvict e false) h ?_
    simp only [Op.run, forget, hbegin, ok_bind]
    rfl
  have hreach2 : Reachable c₂ := by
    refine .step (.cancelEvict ticket) hreach1 ?_
    simp only [Op.run, forget, hcan, ok_bind]
    rfl
  refine ⟨c₂, _, ⟨hreach2, by rw [hfind2, if_pos rfl], hview, ?_, ?_, ?_⟩, rfl⟩
  · intro x hx
    rw [hfind2, if_neg hx, hfind1, if_neg hx]
  · have hedit2 := ((cancelEvict_sat hevicts).val hcan).2
    rcases (beginEvict_sat e false).val hbegin with ⟨error, herror, -⟩ | ⟨r', ticket', -, -, -, -, -, -, hedit1, -⟩
    · cases herror
    · rw [hedit2.resources, hedit1.resources]
  intro d
  have hweight1 := bytesOf_edit hr hextents1 d occupies
  have hweight2 := bytesOf_edit hr1 hextents2 d occupies
  have hsame : weight d occupies (r.evicting false).kept = weight d occupies r := by
    unfold weight
    rw [hview]
  omega

theorem Reachable.spin (n : Nat) : ∀ {c : Catalog} {r : ExtentRecord}, Reachable c →
    c.extents.find? e = some r → evictable r.view = true → r.operations + n = uint64Max →
    ∃ c' r', Turned c e r c' r' ∧ r'.operations = uint64Max := by
  induction n with
  | zero =>
    intro c r h hr _ hend
    exact ⟨c, r, ⟨h, hr, rfl, fun _ _ => rfl, rfl, fun _ => rfl⟩, hend⟩
  | succ n ih =>
    intro c r h hr hevi hend
    obtain ⟨c₁, r1, hturn, hope⟩ := h.turn hr hevi (by omega)
    obtain ⟨c', r', hrest, hmax⟩ := ih hturn.reachable hturn.found (by rw [hturn.view, hevi])
      (by omega)
    refine ⟨c', r', ⟨hrest.reachable, hrest.found, hrest.view.trans hturn.view, ?_,
      hrest.resources.trans hturn.resources, fun d => (hrest.bytes d).trans (hturn.bytes d)⟩, hmax⟩
    intro x hx
    exact (hrest.others x hx).trans (hturn.others x hx)

end JitLlm.Catalog
