import JitLlm.Catalog.Tickets

/-!
# Contents are never confused across generations

A closure records, for each extent, the generation of its contents. A call that changes what is
in an extent advances it (`Renews`), no call takes it back, and a removed extent's identity is
never issued again; so if a closure is leased, nothing it names was changed since it was computed.
-/

namespace JitLlm.Catalog

open Base Lib

variable {c c' : Catalog} {e : ExtentId} {calls : List (Op × Answer)}

/-- The call, made of `c` and so answered, changes or drops the contents of `e`. -/
inductive Renews (c : Catalog) (e : ExtentId) : Op → Answer → Prop
  | invalidateContents : Renews c e (.invalidateContents e) .done
  | replaceContents : Renews c e (.replaceContents e) .done
  | releasePinned : Renews c e (.releasePinned e) .done
  | removeExtent : Renews c e (.removeExtent e) .done
  | completeEvict {t : Ticket} {r : ExtentRecord} (extent : t.extent = e)
      (found : c.extents.find? e = some r) (recovery : r.view.descriptor.recovery ≠ .fromArtifact)
      (unwritten : r.writingBack = false) : Renews c e (.completeEvict t) .done

/-! ## One call -/

variable {op : Op} {a : Answer} {r r' : ExtentRecord}

theorem Alters.content_le
    (h : Alters c op a e r r') : r.view.contentGeneration ≤ r'.view.contentGeneration := by
  cases h with
  | releasePinned | invalidateContents | replaceContents => exact Nat.le_succ _
  | completeEvict =>
    split
    · exact Nat.le_succ _
    · exact Nat.le_refl _
  | _ => exact Nat.le_refl _

variable {r : ExtentRecord}

theorem Effect.content_le (h : Effect c op a c') (hr : c.extents.find? e = some r) :
    (∃ r', c'.extents.find? e = some r' ∧
      r.view.contentGeneration ≤ r'.view.contentGeneration) ∨ c'.extents.Gone e := by
  have hevo := h.evolves e
  rw [hr] at hevo
  generalize ho : c'.extents.find? e = o at hevo
  cases hevo with
  | same hbare =>
    obtain ⟨r', rfl, heq⟩ := of_bare hbare
    refine Or.inl ⟨r', rfl, Nat.le_of_eq ?_⟩
    simp only [ExtentRecord.bare, ExtentRecord.mk.injEq, ExtentView.mk.injEq] at heq
    exact heq.1.2.2.2.1.symm
  | removed hop ha =>
    subst hop ha
    exact Or.inr h.removed
  | altered halt => exact Or.inl ⟨_, rfl, halt.content_le⟩

theorem Renews.advances (h : Renews c e op a) (heff : Effect c op a c') :
    (∃ r r', c.extents.find? e = some r ∧ c'.extents.find? e = some r' ∧
      r.view.contentGeneration < r'.view.contentGeneration) ∨ c'.extents.Gone e := by
  cases heff with
  | removeExtent hr _ _ hextents =>
    cases h
    rw [hextents]
    exact Or.inr (SlotTable.gone_of_erase hr)
  | alter hr halt hedit =>
    have hself := (hedit.find hr _).trans (if_pos rfl)
    cases halt with
    | releasePinned | invalidateContents | replaceContents =>
      cases h
      exact Or.inl ⟨_, _, hr, hself, Nat.lt_succ_self _⟩
    | completeEvict =>
      cases h with
      | completeEvict he hfound hrec hunw =>
        subst he
        cases hr.symm.trans hfound
        refine Or.inl ⟨_, _, hr, hself, ?_⟩
        rw [if_pos ⟨hrec, by rw [hunw]; rfl⟩]
        exact Nat.lt_succ_self _
    | _ => cases h
  | _ => cases h

/-! ## Runs -/

theorem Run.gone (h : Run c calls c') (hgone : c.extents.Gone e) : c'.extents.Gone e :=
  h.keeps (P := fun c => c.extents.Gone e) (fun _ _ _ _ hg heff => heff.gone hg) hgone

theorem Run.content_le (h : Run c calls c')
    (hr : c.extents.find? e = some r) (hr' : c'.extents.find? e = some r') :
    r.view.contentGeneration ≤ r'.view.contentGeneration := by
  induction h generalizing r with
  | nil =>
    cases hr.symm.trans hr'
    exact Nat.le_refl _
  | cons hcall hrest ih =>
    rcases ((call_does _).val hcall).content_le hr with ⟨r1, hr1, hle⟩ | hgone
    · exact hle.trans (ih hr1 hr')
    rw [(hrest.gone hgone).find] at hr'
    cases hr'

theorem Run.content_lt {c1 c2 : Catalog} {first rest : List (Op × Answer)} (hfirst : Run c first c1)
    (hcall : op.call c1 = .ok (a, c2)) (hrest : Run c2 rest c') (hren : Renews c1 e op a)
    (hr : c.extents.find? e = some r) (hr' : c'.extents.find? e = some r') :
    r.view.contentGeneration < r'.view.contentGeneration := by
  rcases hren.advances ((call_does op).val hcall) with ⟨r1, r2, hr1, hr2, hlt⟩ | hgone
  · calc r.view.contentGeneration ≤ r1.view.contentGeneration := hfirst.content_le hr hr1
      _ < r2.view.contentGeneration := hlt
      _ ≤ r'.view.contentGeneration := hrest.content_le hr2 hr'
  rw [(hrest.gone hgone).find] at hr'
  cases hr'

/-! ## Closures -/

def Records (c : Catalog) (closure : Closure) : Prop := ∀ p ∈ closure.extents,
  ∃ r, c.extents.find? p.1 = some r ∧ r.view.contentGeneration = p.2

theorem gather_records : ∀ {rest : List ExtentId} {before closure : Closure},
    c.gather before rest = .ok (.ok closure) → Records c before → Records c closure
  | [], before, closure, h, hbef => by
    cases h
    exact hbef
  | e :: rest, before, closure, h, hbef => by
    unfold gather at h
    rcases hr : c.extents.find? e with _ | r
    · simp [hr] at h
    simp only [hr] at h
    obtain ⟨bytes, -, hrest⟩ := bind_ok h
    refine gather_records hrest fun p hp => ?_
    rcases List.mem_append.mp hp with hp | hp
    · exact hbef p hp
    rw [List.mem_singleton.mp hp]
    exact ⟨r, hr, rfl⟩

/-- The closure is an answer of `ClosureOf` or of `ClosureOfExtents`. -/
def Computes (c : Catalog) (closure : Closure) : Prop :=
  (∃ resources, c.closureOf resources = .ok (.ok closure)) ∨
    ∃ extents, c.closureOfExtents extents = .ok (.ok closure)

theorem Computes.records {closure : Closure} (h : Computes c closure) : Records c closure := by
  have hextents : ∀ extents, c.closureOfExtents extents = .ok (.ok closure) → Records c closure :=
    fun extents h => gather_records h (by simp [Records])
  rcases h with ⟨resources, h⟩ | ⟨extents, h⟩
  · unfold closureOf at h
    cases hfound : c.extentsOfResources resources with
    | error => simp [hfound] at h
    | ok extents =>
      rw [hfound] at h
      exact hextents extents h
  · exact hextents extents h

/-- **Contents are never confused across generations.** From any catalog: if a closure computed
    there is leased after some calls, then none of these changed or dropped the contents of one of
    its extents, and none of them is discarded. Each change advances the generation of
    the extent's contents or ends its identity; the generation never goes back, and an identity
    that is gone is never live again, whatever its slot is used for. -/
theorem closure_contents_kept (c : Catalog) :
    (∀ closure calls c₁ lease c₂, Computes c closure → Run c calls c₁ →
      Op.call c₁ (.acquireLease closure) = .ok (.lease lease, c₂) → ∀ p ∈ closure.extents,
        (∃ r, c₁.extents.find? p.1 = some r ∧ r.view.discarded = false) ∧
        ∀ first op a rest c', calls = first ++ (op, a) :: rest → Run c first c' →
          ¬ Renews c' p.1 op a) ∧
    (∀ e (op : Op) (a : Answer) (c' : Catalog), op.call c = .ok (a, c') → Renews c e op a →
      (∃ r r', c.extents.find? e = some r ∧ c'.extents.find? e = some r' ∧
        r.view.contentGeneration < r'.view.contentGeneration) ∨
      ∀ calls c₁, Run c' calls c₁ → c₁.extents.find? e = none) ∧
    (∀ e calls c' r r', Run c calls c' → c.extents.find? e = some r →
      c'.extents.find? e = some r' → r.view.contentGeneration ≤ r'.view.contentGeneration) := by
  refine ⟨fun closure calls c₁ lease c₂ hcom hrun hlease p hp => ?_,
    fun e op a c' hcall hren => ?_, fun e calls c' r r' hrun hr hr' => hrun.content_le hr hr'⟩
  · obtain ⟨r, hr, hgen⟩ := hcom.records p hp
    cases (call_does (.acquireLease closure)).val hlease with
    | alter _ halt => cases halt
    | acquireLease hchecked =>
      obtain ⟨r1, hr1, -, hsame, hdis⟩ := (checkClosure_ok hchecked).2 p hp
      refine ⟨⟨r1, hr1, hdis⟩, fun first op a rest c' hcalls hfirst hren => ?_⟩
      subst hcalls
      obtain ⟨c'', hfirst', hsec⟩ := hrun.split
      cases hfirst.unique hfirst'
      cases hsec with
      | cons hcall hrest =>
        have hlt := Run.content_lt hfirst hcall hrest hren hr hr1
        exact absurd (hgen.trans hsame.symm) (Nat.ne_of_lt hlt)
  rcases hren.advances ((call_does op).val hcall) with hlt | hgone
  · exact Or.inl hlt
  · exact Or.inr fun calls c₁ hrun => (hrun.gone hgone).find

theorem closureOfExtents_single (hr : c.extents.find? e = some r) :
    ∃ closure, c.closureOfExtents [e] = .ok (.ok closure) ∧
      closure.extents = [(e, r.view.contentGeneration)] := by
  have hadd : add Bytes.zero r.view.descriptor.size
      = .ok ⟨Bytes.zero.value + r.view.descriptor.size.value, _⟩ :=
    add_eq (by rw [Bytes.zero_value, Nat.zero_add]; exact r.view.descriptor.size.bound)
  simp only [closureOfExtents, show sortUnique [e] = [e] from rfl, gather, hr]
  simp only [OrdMap.find?_empty, Option.getD_none, hadd]
  exact ⟨_, rfl, rfl⟩

def preserving : List Op :=
  [.addDomain "device",
    .addExtent { domain := ⟨0, 1⟩, memoryClass := .liveState, recovery := .preserve,
                 size := .ofNat 4096 } true]

/-- A closure computed, the extent registered, and the lease: the registration changed nothing. -/
theorem closure_contents_kept_leased : ∃ c closure c₁ c₂, runAll {} preserving = .ok c ∧
      c.closureOfExtents [⟨0, 1⟩] = .ok (.ok closure) ∧
      Op.call c (.addRegistration ⟨0, 1⟩) = .ok (.registration ⟨0, 1⟩, c₁) ∧
      Op.call c₁ (.acquireLease closure) = .ok (.lease ⟨0, 1⟩, c₂) ∧
      ¬ Renews c ⟨0, 1⟩ (.addRegistration ⟨0, 1⟩) (.registration ⟨0, 1⟩) := by
  obtain ⟨c, r, c₁, hrun, hr, hgen, hreg, hlease⟩ : ∃ c r c₁,
      runAll {} preserving = .ok c ∧ c.extents.find? ⟨0, 1⟩ = some r ∧
      r.view.contentGeneration = 1 ∧
      Op.call c (.addRegistration ⟨0, 1⟩) = .ok (.registration ⟨0, 1⟩, c₁) ∧
      ∀ bytes, ∃ c₂, Op.call c₁ (.acquireLease { extents := [(⟨0, 1⟩, 1)], bytesByDomain := bytes })
        = .ok (.lease ⟨0, 1⟩, c₂) :=
    ⟨_, _, _, rfl, rfl, rfl, rfl, fun _ => ⟨_, rfl⟩⟩
  obtain ⟨⟨extents, bytes⟩, hclos, hextents⟩ := closureOfExtents_single hr
  rw [hgen] at hextents
  cases hextents
  obtain ⟨c₂, hlease⟩ := hlease bytes
  refine ⟨c, _, c₁, c₂, hrun, hclos, hreg, hlease, ?_⟩
  exact ((closure_contents_kept c).1 _ [(.addRegistration ⟨0, 1⟩, .registration ⟨0, 1⟩)] c₁ ⟨0, 1⟩
    c₂ (Or.inr ⟨[⟨0, 1⟩], hclos⟩) (.cons hreg (.nil _)) hlease (⟨0, 1⟩, 1)
    List.mem_cons_self).2 [] _ _ [] c rfl (.nil _)

end JitLlm.Catalog
