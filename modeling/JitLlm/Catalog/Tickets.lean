import JitLlm.Catalog.Effects
import JitLlm.Catalog.Occupancy

/-!
# A ticket ends its operation once

A ticket is `Pending` while its operation is the latest of its extent and the extent is in the
state the operation's begin put it in. An accepted end takes it out of that state, and then it is
`Spent`: the state can only come back with a new operation, whose serial is greater. So every
later call with the ticket is refused, also when the extent is gone and its slot has another.
-/

namespace JitLlm.Catalog

open Base Lib

variable {c c' : Catalog} {t : Ticket} {op : Op} {a : Answer} {r r' : ExtentRecord} {e : ExtentId}
    {descriptor : ExtentDescriptor}

def Operation.state : Operation → ExtentState
  | .load => .loading
  | .evict => .evicting

def Pending (c : Catalog) (t : Ticket) : Prop := ∃ r, c.extents.find? t.extent = some r ∧
  r.operation = t.operation ∧ r.operations = t.serial ∧ r.view.state = t.operation.state

def Spent (c : Catalog) (t : Ticket) : Prop := c.extents.Gone t.extent ∨
  ∃ r, c.extents.find? t.extent = some r ∧ (t.serial < r.operations ∨
    t.serial = r.operations ∧ r.view.state ≠ t.operation.state)

def Op.ends : Op → Option (Operation × Ticket)
  | .completeLoad t | .failLoad t _ => some (.load, t)
  | .completeEvict t | .cancelEvict t | .quarantineEviction t => some (.evict, t)
  | _ => none

theorem Spent.not_pending (h : Spent c t) : ¬ Pending c t := by
  rintro ⟨r, hr, -, hser, hstate⟩
  rcases h with hgone | ⟨r', hr', hor⟩
  · rw [hgone.find] at hr
    cases hr
  cases hr.symm.trans hr'
  rcases hor with hlt | ⟨-, hne⟩
  · exact absurd hser (Nat.ne_of_gt hlt)
  · exact hne hstate

theorem Pending.unique {t' : Ticket} (h : Pending c t) (h' : Pending c t')
    (he : t.extent = t'.extent) : t = t' := by
  obtain ⟨r, hr, hop, hser, -⟩ := h
  obtain ⟨r', hr', hop', hser', -⟩ := h'
  cases hr.symm.trans (he ▸ hr')
  cases t
  cases t'
  simp_all

/-! ## One call -/

theorem current_error {operation : Operation} (h : ¬ (t.operation = operation ∧ Pending c t)) :
    ∃ error, c.current t operation operation.state = .error error := by
  cases hcur : c.current t operation operation.state with
  | error error => exact ⟨error, rfl⟩
  | ok r =>
    obtain ⟨hr, hop, hrop, hser, hstate⟩ := current_ok hcur
    exact absurd ⟨hop, r, hr, hrop.trans hop.symm, hser.symm, by rw [hop]; exact hstate⟩ h

theorem ends_refused {operation : Operation} (hop : op.ends = some (operation, t))
    (h : ¬ (t.operation = operation ∧ Pending c t)) :
    ∃ error, op.call c = .ok (.refused error, c) := by
  obtain ⟨error, herror⟩ := current_error h
  refine ⟨error, ?_⟩
  cases op with
  | completeLoad =>
    cases hop
    simp only [Op.call, completeLoad, show c.current t .load .loading = _ from herror]
    rfl
  | failLoad =>
    cases hop
    simp only [Op.call, failLoad, show c.current t .load .loading = _ from herror]
    rfl
  | completeEvict =>
    cases hop
    simp only [Op.call, completeEvict, show c.current t .evict .evicting = _ from herror]
    rfl
  | cancelEvict =>
    cases hop
    simp only [Op.call, cancelEvict, show c.current t .evict .evicting = _ from herror]
    rfl
  | quarantineEviction =>
    cases hop
    simp only [Op.call, quarantineEviction, show c.current t .evict .evicting = _ from herror]
    rfl
  | _ => exact absurd hop (by simp [Op.ends])

theorem Alters.operation (h : Alters c op a e r r') : r'.operations = r.operations + 1 ∨
      r'.operations = r.operations ∧ ∀ operation : Operation, r'.view.state ≠ operation.state := by
  have hrest : ∀ {s : ExtentState}, s = .nonresident ∨ s = .resident ∨ s = .quarantined →
      ∀ operation : Operation, s ≠ operation.state := by
    rintro s (rfl | rfl | rfl) operation <;> cases operation <;> simp [Operation.state]
  cases h with
  | beginLoad | beginEvict => exact .inl rfl
  | releasePinned | failLoad | completeEvict => exact .inr ⟨rfl, hrest (.inl rfl)⟩
  | completeLoad | cancelEvict => exact .inr ⟨rfl, hrest (.inr (.inl rfl))⟩
  | quarantineLoad | quarantineEviction => exact .inr ⟨rfl, hrest (.inr (.inr rfl))⟩
  | invalidateContents hstate | replaceContents hstate =>
    exact .inr ⟨rfl, hrest (.inr (.inl hstate))⟩

theorem Alters.ends (h : Alters c op a t.extent r r') (hop : r.operation = t.operation)
    (hser : r.operations = t.serial) (hstate : r.view.state = t.operation.state) :
    a = .done ∧ op.ends = some (t.operation, t) := by
  have hload : ∀ {t'}, Loads c t'.extent t' r → t'.extent = t.extent → t.operation = .load ∧ t' = t := by
    intro t' hloads he
    have hkind : t.operation = .load := hop.symm.trans hloads.operation
    refine ⟨hkind, hloads.ticket.trans ?_⟩
    rw [he, hser, ← hkind]
  have hevict : ∀ {t'}, Evicts c t'.extent t' r → t'.extent = t.extent →
      t.operation = .evict ∧ t' = t := by
    intro t' hevi he
    have hkind : t.operation = .evict := hop.symm.trans hevi.operation
    refine ⟨hkind, hevi.ticket.trans ?_⟩
    rw [he, hser, ← hkind]
  have hrest : ∀ {s : ExtentState}, r.view.state = s → s = .nonresident ∨ s = .resident → False := by
    rintro s hs hor
    rw [hstate] at hs
    rcases hor with rfl | rfl <;> cases ht : t.operation <;> simp [ht, Operation.state] at hs
  generalize he : t.extent = e at h
  cases h with
  | releasePinned hs | invalidateContents hs | replaceContents hs | beginEvict _ hs =>
    exact (hrest hs (.inr rfl)).elim
  | beginLoad _ hs => exact (hrest hs (.inl rfl)).elim
  | completeLoad hloads | failLoad hloads | quarantineLoad hloads =>
    obtain ⟨hkind, rfl⟩ := hload hloads he.symm
    exact ⟨rfl, by rw [hkind]; rfl⟩
  | completeEvict hevi | cancelEvict hevi | quarantineEviction hevi =>
    obtain ⟨hkind, rfl⟩ := hevict hevi he.symm
    exact ⟨rfl, by rw [hkind]; rfl⟩

theorem of_bare {o' : Option ExtentRecord} {r : ExtentRecord}
    (h : o'.map ExtentRecord.bare = (some r).map ExtentRecord.bare) :
    ∃ r', o' = some r' ∧ r'.bare = r.bare := by
  cases o' with
  | none => cases h
  | some r' => exact ⟨r', rfl, Option.some.inj h⟩

theorem bare_operation (h : r'.bare = r.bare) :
    r'.operation = r.operation ∧ r'.operations = r.operations ∧ r'.view.state = r.view.state ∧
      r'.view.descriptor = r.view.descriptor := by
  simp only [ExtentRecord.bare, ExtentRecord.mk.injEq, ExtentView.mk.injEq] at h
  exact ⟨h.2.2.2.1, h.2.2.1, h.1.2.1, h.1.1⟩

theorem Spent.effect (h : Spent c t) (heff : Effect c op a c') : Spent c' t := by
  rcases h with hgone | ⟨r, hr, hor⟩
  · exact .inl (heff.gone hgone)
  have hevo := heff.evolves t.extent
  rw [hr] at hevo
  generalize ho : c'.extents.find? t.extent = o at hevo
  cases hevo with
  | same hbare =>
    obtain ⟨r', rfl, heq⟩ := of_bare hbare
    obtain ⟨-, hser, hstate, -⟩ := bare_operation heq
    exact .inr ⟨r', ho, by rw [hser, hstate]; exact hor⟩
  | removed hop ha =>
    subst hop ha
    exact .inl heff.removed
  | altered halt =>
    refine .inr ⟨_, ho, ?_⟩
    rcases halt.operation with hnext | ⟨hsame, hstate⟩
    · rcases hor with hlt | ⟨heq, -⟩
      · exact .inl (hnext ▸ Nat.lt_succ_of_lt hlt)
      · exact .inl (hnext ▸ heq ▸ Nat.lt_succ_self _)
    rcases hor with hlt | ⟨heq, -⟩
    · exact .inl (hsame ▸ hlt)
    · exact .inr ⟨heq.trans hsame.symm, hstate _⟩

theorem Effect.ended {operation : Operation} (h : Effect c op .done c')
    (hop : op.ends = some (operation, t)) : t.operation = operation ∧ Pending c t ∧ Spent c' t := by
  cases h with
  | alter hr halt hedit =>
    rename_i e r r'
    have hself := hedit.find hr e
    rw [if_pos rfl] at hself
    -- Each end leaves the serial, and a state that no begin puts an extent in.
    have key : e = t.extent → r.operation = t.operation → r.operations = t.serial →
        r.view.state = t.operation.state → r'.operations = r.operations →
        Pending c t ∧ Spent c' t := by
      rintro rfl hkind hser hstate hsame
      refine ⟨⟨r, hr, hkind, hser, hstate⟩, .inr ⟨r', hself, .inr ?_⟩⟩
      rcases halt.operation with hnext | ⟨-, hst⟩
      · exact absurd (hsame.symm.trans hnext) (by omega)
      · exact ⟨(hsame.trans hser).symm, hst _⟩
    have hload : ∀ {t'}, t' = t → Loads c t'.extent t' r → t'.extent = e →
        r'.operations = r.operations → t.operation = .load ∧ Pending c t ∧ Spent c' t := by
      rintro t' rfl hloads rfl hsame
      have hkind : t'.operation = .load := by rw [hloads.ticket]
      refine ⟨hkind, key rfl (hloads.operation.trans hkind.symm) ?_ ?_ hsame⟩
      · rw [hloads.ticket]
      rw [hkind]
      exact hloads.state
    have hevict : ∀ {t'}, t' = t → Evicts c t'.extent t' r → t'.extent = e →
        r'.operations = r.operations → t.operation = .evict ∧ Pending c t ∧ Spent c' t := by
      rintro t' rfl hevi rfl hsame
      have hkind : t'.operation = .evict := by rw [hevi.ticket]
      refine ⟨hkind, key rfl (hevi.operation.trans hkind.symm) ?_ ?_ hsame⟩
      · rw [hevi.ticket]
      rw [hkind]
      exact hevi.state
    cases halt with
    | completeLoad hloads | failLoad hloads | quarantineLoad hloads =>
      cases hop; exact hload rfl hloads rfl rfl
    | completeEvict hevi | cancelEvict hevi | quarantineEviction hevi =>
      cases hop; exact hevict rfl hevi rfl rfl
    | _ => exact absurd hop (by simp [Op.ends])
  | _ => exact absurd hop (by simp [Op.ends])

theorem Effect.ends_answer (h : Effect c op a c')
    {p : Operation × Ticket} (hop : op.ends = some p) :
    (∃ error, a = .refused error ∧ c' = c) ∨ a = .done := by
  cases h with
  | refused op error => exact .inl ⟨error, rfl, rfl⟩
  | alter _ halt =>
    cases halt with
    | beginLoad | beginEvict => exact absurd hop (by simp [Op.ends])
    | _ => exact .inr rfl
  | removeExtent | removeResource | releaseLease | recordUse | retireRegistration => exact .inr rfl
  | _ => exact absurd hop (by simp [Op.ends])

def endsWith (t : Ticket) (p : Op × Answer) : Bool :=
  p.1.ends = some (t.operation, t) ∧ p.2 = .done

theorem Pending.effect (h : Pending c t) (heff : Effect c op a c') :
    (endsWith t (op, a) = true ∧ Spent c' t) ∨ (endsWith t (op, a) = false ∧ Pending c' t) := by
  by_cases hends : endsWith t (op, a) = true
  · refine .inl ⟨hends, ?_⟩
    simp only [endsWith, decide_eq_true_eq] at hends
    obtain ⟨hop, rfl⟩ := hends
    exact (heff.ended hop).2.2
  refine .inr ⟨Bool.eq_false_iff.mpr hends, ?_⟩
  obtain ⟨r, hr, hop, hser, hstate⟩ := h
  have hevo := heff.evolves t.extent
  rw [hr] at hevo
  generalize ho : c'.extents.find? t.extent = o at hevo
  cases hevo with
  | same hbare =>
    obtain ⟨r', rfl, heq⟩ := of_bare hbare
    obtain ⟨hop', hser', hstate', -⟩ := bare_operation heq
    exact ⟨r', ho, hop'.trans hop, hser'.trans hser, hstate'.trans hstate⟩
  | removed _ _ hs =>
    rw [hstate] at hs
    cases ht : t.operation <;> simp [ht, Operation.state] at hs
  | altered halt =>
    obtain ⟨rfl, heq⟩ := halt.ends hop hser hstate
    exact absurd (by simp [endsWith, heq]) hends

theorem Effect.begun (h : Effect c op (.ticket t) c') : Pending c' t := by
  cases h with
  | alter hr halt hedit =>
    have hself := hedit.find hr
    cases halt with
    | beginLoad | beginEvict => exact ⟨_, (hself _).trans (if_pos rfl), rfl, rfl, rfl⟩

/-! ## Runs -/

theorem Spent.run (h : Spent c t) {calls : List (Op × Answer)} (hrun : Run c calls c') :
    calls.countP (endsWith t) = 0 ∧ Spent c' t := by
  induction hrun with
  | nil => exact ⟨rfl, h⟩
  | cons hcall _ ih =>
    have heff := (call_does _).val hcall
    obtain ⟨hcount, hspent⟩ := ih (h.effect heff)
    refine ⟨?_, hspent⟩
    rw [List.countP_cons_of_neg, hcount]
    intro hends
    simp only [endsWith, decide_eq_true_eq] at hends
    obtain ⟨hop, rfl⟩ := hends
    exact h.not_pending (heff.ended hop).2.1

theorem Pending.run (h : Pending c t) {calls : List (Op × Answer)} (hrun : Run c calls c') :
    (calls.countP (endsWith t) = 0 ∧ Pending c' t) ∨
      (calls.countP (endsWith t) = 1 ∧ Spent c' t) := by
  induction hrun with
  | nil => exact .inl ⟨rfl, h⟩
  | cons hcall hrest ih =>
    rcases h.effect ((call_does _).val hcall) with ⟨hends, hspent⟩ | ⟨hends, hpen⟩
    · obtain ⟨hcount, hspent'⟩ := hspent.run hrest
      exact .inr ⟨by rw [List.countP_cons_of_pos hends, hcount], hspent'⟩
    rw [List.countP_cons_of_neg (by simp [hends])]
    exact ih hpen

/-! ## Quarantine -/

def Quarantined (c : Catalog) (e : ExtentId) (descriptor : ExtentDescriptor) : Prop :=
  ∃ r, c.extents.find? e = some r ∧ r.view.state = .quarantined ∧ r.view.descriptor = descriptor

theorem Alters.not_quarantined (h : Alters c op a e r r') : r.view.state ≠ .quarantined := by
  cases h with
  | releasePinned hs | beginLoad _ hs | invalidateContents hs | replaceContents hs
  | beginEvict _ hs => simp [hs]
  | completeLoad hloads | failLoad hloads | quarantineLoad hloads => simp [hloads.state]
  | completeEvict hevi | cancelEvict hevi | quarantineEviction hevi => simp [hevi.state]

theorem Quarantined.effect (h : Quarantined c e descriptor) (heff : Effect c op a c') :
    Quarantined c' e descriptor := by
  obtain ⟨r, hr, hstate, hdes⟩ := h
  have hevo := heff.evolves e
  rw [hr] at hevo
  generalize ho : c'.extents.find? e = o at hevo
  cases hevo with
  | same hbare =>
    obtain ⟨r', rfl, heq⟩ := of_bare hbare
    obtain ⟨-, -, hstate', hdes'⟩ := bare_operation heq
    exact ⟨r', ho, hstate'.trans hstate, hdes'.trans hdes⟩
  | removed _ _ hs => cases hstate.symm.trans hs
  | altered halt => exact absurd hstate halt.not_quarantined

theorem Ledger.charges (hl : Ledger c)
    (h : Quarantined c e descriptor) : ∃ domain, c.domains.find? descriptor.domain = some domain ∧
      descriptor.size.value ≤ (domain.occupancy.part .quarantined).value := by
  obtain ⟨r, hr, hstate, rfl⟩ := h
  obtain ⟨domain, hdom⟩ := hl.placed e r hr
  refine ⟨domain, hdom, ?_⟩
  rw [(hl.exact _ domain hdom).parts]
  have hle := SlotTable.le_sum (weight r.view.descriptor.domain (inBucket .quarantined)) hr
  rw [weight_inBucket rfl, if_pos (by simp [bucketOf, hstate])] at hle
  exact hle

/-- **A ticket ends its operation exactly once.** From any catalog that calls lead to: after a
    begin answers with a ticket, of the later calls with it one at most is accepted; until then the
    extent is in the state that begin put it in, and afterwards every call with it is refused.
    An end is accepted for a pending ticket of its own kind only, and a call with any other, of an
    earlier or another operation or of an extent that is gone, is refused and changes nothing.
    A quarantined extent stays so, and stays charged, whatever is called. -/
theorem ticket_ends_once (h : Reachable c) :
    (∀ (op : Op) (t : Ticket) (c₁ : Catalog), op.call c = .ok (.ticket t, c₁) →
      ∀ calls c₂, Run c₁ calls c₂ →
      calls.countP (endsWith t) ≤ 1 ∧
      (calls.countP (endsWith t) = 0 → Pending c₂ t) ∧
      (calls.countP (endsWith t) = 1 → ∀ (op' : Op) (operation : Operation),
        op'.ends = some (operation, t) → ∃ error, op'.call c₂ = .ok (.refused error, c₂))) ∧
    (∀ (op : Op) (operation : Operation) (t : Ticket) (a : Answer) (c' : Catalog),
      op.ends = some (operation, t) → op.call c = .ok (a, c') →
      (∃ error, a = .refused error ∧ c' = c) ∨
        (a = .done ∧ t.operation = operation ∧ Pending c t)) ∧
    (∀ (op : Op) (operation : Operation) (t : Ticket), op.ends = some (operation, t) →
      (c.extents.find? t.extent = none ∨ t.operation ≠ operation ∨
        (∃ t', Pending c t' ∧ t'.extent = t.extent ∧ t' ≠ t) ∨ Spent c t) →
      ∃ error, op.call c = .ok (.refused error, c)) ∧
    (∀ e descriptor, Quarantined c e descriptor → ∀ calls c', Run c calls c' →
      Quarantined c' e descriptor ∧ ∃ domain, c'.domains.find? descriptor.domain = some domain ∧
        descriptor.size.value ≤ (domain.occupancy.part .quarantined).value) := by
  refine ⟨fun op t c₁ hcall calls c₂ hrun => ?_, fun op operation t a c' hop hcall => ?_,
    fun op operation t hop hor => ?_, fun e descriptor hq calls c' hrun => ?_⟩
  · have hpen := ((call_does op).val hcall).begun
    rcases hpen.run hrun with ⟨hcount, hp⟩ | ⟨hcount, hs⟩
    · exact ⟨by omega, fun _ => hp, fun h1 => absurd (hcount.symm.trans h1) (by decide)⟩
    exact ⟨by omega, fun h0 => absurd (hcount.symm.trans h0) (by decide),
      fun _ op' operation hop' => ends_refused hop' fun hbad => hs.not_pending hbad.2⟩
  · by_cases hpen : t.operation = operation ∧ Pending c t
    · rcases ((call_does op).val hcall).ends_answer hop with href | rfl
      · exact .inl href
      · exact .inr ⟨rfl, hpen⟩
    obtain ⟨error, href⟩ := ends_refused hop hpen
    cases hcall.symm.trans href
    exact .inl ⟨error, rfl, rfl⟩
  · refine ends_refused hop ?_
    rintro ⟨hkind, hpen⟩
    rcases hor with hnone | hne | ⟨t', hp', he, hne⟩ | hspent
    · obtain ⟨r, hr, -⟩ := hpen
      cases hnone.symm.trans hr
    · exact hne hkind
    · exact hne (hp'.unique hpen he)
    · exact hspent.not_pending hpen
  have hq' := hrun.keeps (P := fun c => Quarantined c e descriptor)
    (fun _ _ _ _ hp heff => hp.effect heff) hq
  exact ⟨hq', (h.run hrun).ledger.charges hq'⟩

def unloaded : List Op :=
  [.addDomain "device",
    .addExtent { domain := ⟨0, 1⟩, memoryClass := .weights, recovery := .fromArtifact,
                 size := .ofNat 4096 } false]

def firstLoad : Ticket := { extent := ⟨0, 1⟩, operation := .load, serial := 1 }

/-- The load begun, completed, and completed again with the same ticket. -/
theorem ticket_ends_once_loaded : ∃ c c₁ c₂, runAll {} unloaded = .ok c ∧
      Op.call c (.beginLoad ⟨0, 1⟩ ⟨4096, by decide⟩) = .ok (.ticket firstLoad, c₁) ∧
      Op.call c₁ (.completeLoad firstLoad) = .ok (.done, c₂) ∧
      ∃ error, Op.call c₂ (.completeLoad firstLoad) = .ok (.refused error, c₂) := by
  refine ⟨_, _, _, rfl, rfl, rfl, ?_⟩
  have hreach := Reachable.start.runAll (show runAll {} unloaded = .ok _ from rfl)
  exact (((ticket_ends_once hreach).1 (.beginLoad ⟨0, 1⟩ ⟨4096, by decide⟩) firstLoad _ rfl
    [(.completeLoad firstLoad, .done)] _ (.cons rfl (.nil _))).2.2 (by decide))
    (.completeLoad firstLoad) .load rfl

end JitLlm.Catalog
