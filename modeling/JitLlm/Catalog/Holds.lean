import JitLlm.Catalog.Effects

/-!
# What the other calls do

Leases, registrations, resources and contents. The scheduler acquires and releases leases and
records their use, its owner makes the rest; none begins or ends a load or an eviction. Of every
record a lease changes nothing but counts (`Alike`), and of the rest each call does to a record
one of the few things `Touched` lists.
-/

namespace JitLlm.Catalog

open Base Lib Option

/-- The extents are the same but for what holds them and their last uses. -/
structure Alike (c c' : Catalog) : Prop where
  find : ∀ e, (c'.extents.find? e).map ExtentRecord.bare = (c.extents.find? e).map ExtentRecord.bare
  sum : ∀ f : ExtentRecord → Nat, (∀ r r', r.bare = r'.bare → f r = f r') →
    c'.extents.sum f = c.extents.sum f

theorem Alike.refl (c : Catalog) : Alike c c := ⟨fun _ => rfl, fun _ _ => rfl⟩

theorem Alike.trans {c c1 c' : Catalog} (h : Alike c c1) (h' : Alike c1 c') : Alike c c' :=
  ⟨fun e => (h'.find e).trans (h.find e), fun f hf => (h'.sum f hf).trans (h.sum f hf)⟩

theorem Alike.congr {c c1 c' : Catalog} (h : Alike c c1) (he : c'.extents = c1.extents) :
    Alike c c' :=
  ⟨fun e => by rw [he]; exact h.find e, fun f hf => by rw [he]; exact h.sum f hf⟩

variable {e : ExtentId} {r r' : ExtentRecord} {c c' : Catalog} {o o' : Option ExtentRecord}

theorem Alike.set {c c' : Catalog} (hr : c.extents.find? e = some r) (hbare : r'.bare = r.bare)
    (hc : c'.extents = c.extents.set e r') : Alike c c' := by
  refine ⟨fun e' => ?_, fun f hf => ?_⟩
  · rw [hc, SlotTable.find?_set, hr]
    split
    next heq =>
      rw [heq, hr]
      exact congrArg some hbare
    · rfl
  have hsum : (c.extents.set e r').sum f + f r = c.extents.sum f + f r' := SlotTable.sum_set f hr
  rw [hc]
  have hf' := hf r' r hbare
  omega

/-! ## Leases -/

theorem change_alike (hr : c.extents.find? e = some r) (hbare : r'.bare = r.bare) :
    Sat Own (fun c' => Alike c c' ∧ c'.leases = c.leases) (c.change e r r') :=
  (change_own e r r').imp fun _ h => ⟨.set hr hbare h.extents, h.leases⟩

theorem hold_alike (e : ExtentId) :
    Sat Own (fun c' => Alike c c' ∧ c'.leases = c.leases) (c.hold e) := by
  unfold hold
  rcases hr : c.extents.find? e with _ | _
  · rfl
  simp only
  split
  · exact change_alike hr (by rfl)
  · rfl

theorem unhold_alike (e : ExtentId) :
    Sat Own (fun c' => Alike c c' ∧ c'.leases = c.leases) (c.unhold e) := by
  unfold unhold
  rcases hr : c.extents.find? e with _ | _
  · rfl
  simp only
  split
  · exact change_alike hr (by rfl)
  · rfl

theorem touch_alike (tick : Nat) (e : ExtentId) :
    Sat Own (fun c' => Alike c c' ∧ c'.leases = c.leases) (touch tick c e) := by
  unfold touch
  cases hr : c.extents.find? e with
  | none => rfl
  | some => exact ⟨.set hr (by rfl) rfl, rfl⟩

theorem foldlM_alike {γ : Type} {f : Catalog → γ → Checked Catalog}
    (hf : ∀ (c : Catalog) (a : γ), Sat Own (fun c' => Alike c c' ∧ c'.leases = c.leases) (f c a))
    (l : List γ) : Sat Own (fun c' => Alike c c' ∧ c'.leases = c.leases) (l.foldlM f c) := by
  refine Sat.foldlM (I := fun _ c' => Alike c c' ∧ c'.leases = c.leases) ?_ ⟨.refl c, rfl⟩
  rintro c1 a rest ⟨h, hl⟩
  exact (hf c1 a).imp fun c2 h2 => ⟨h.trans h2.1, h2.2.trans hl⟩

theorem acquireLease_sat (closure : Closure) :
    Sat Own (fun y => (∃ error, y.1 = .error error ∧ y.2 = c) ∨
      ∃ lease found leases, y.1 = .ok lease ∧ c.checkClosure closure.extents = .ok found ∧
        c.leases.insert { extents := sortUnique found } = some (lease, leases) ∧
        y.2.leases = leases ∧ Alike c y.2)
      (c.acquireLease closure) := by
  unfold acquireLease
  rcases hfound : c.checkClosure closure.extents with error | found
  · exact .inl ⟨error, rfl, rfl⟩
  simp only
  rcases hins : c.leases.insert { extents := sortUnique found } with _ | p
  · exact .inl ⟨_, rfl, rfl⟩
  obtain ⟨lease, leases⟩ := p
  refine Sat.bind (foldlM_alike (c := { c with leases }) (fun c e => hold_alike e) _) ?_
  rintro c' ⟨halike, hleases⟩
  have hbase : Alike c { c with leases } := (Alike.refl c).congr rfl
  exact .inr ⟨lease, found, leases, rfl, rfl, hins, hleases, hbase.trans halike⟩

theorem releaseLease_sat (lease : LeaseId) :
    Sat Own (fun y => (c.leases.find? lease = none ∧ y.2 = c) ∨
      ∃ found, y.1 = .ok () ∧ c.leases.find? lease = some found ∧
        y.2.leases = c.leases.erase lease ∧ Alike c y.2)
      (c.releaseLease lease) := by
  unfold releaseLease
  rcases hfound : c.leases.find? lease with _ | found
  · exact .inl ⟨rfl, rfl⟩
  refine Sat.bind (foldlM_alike (fun c e => unhold_alike e) _) ?_
  rintro c' ⟨halike, hleases⟩
  exact .inr ⟨found, rfl, rfl, by rw [← hleases], halike.congr rfl⟩

theorem recordUse_sat (lease : LeaseId) (tick : Nat) :
    Sat Own (fun y => y.2.leases = c.leases ∧ Alike c y.2) (c.recordUse lease tick) := by
  unfold recordUse
  rcases hfound : c.leases.find? lease with _ | _
  · exact ⟨rfl, .refl c⟩
  refine Sat.bind (foldlM_alike (fun c e => touch_alike tick e) _) ?_
  rintro c' ⟨halike, hleases⟩
  exact ⟨hleases, halike⟩

theorem recordUse_refused {lease : LeaseId} {tick : Nat} {error : CatalogError}
    (h : c.recordUse lease tick = .ok (.error error, c')) : c.leases.find? lease = none := by
  unfold recordUse at h
  rcases hfound : c.leases.find? lease with _ | _
  · rfl
  simp only [hfound] at h
  obtain ⟨c1, -, h⟩ := bind_ok h
  cases h

/-! ## The owner's calls -/

/-- What a call that begins and ends no load or eviction may do to an extent. -/
inductive Touched : Option ExtentRecord → Option ExtentRecord → Prop
  | same {o o' : Option ExtentRecord}
      (bare : o'.map ExtentRecord.bare = o.map ExtentRecord.bare) : Touched o o'
  | added {r : ExtentRecord} (descriptor : ExtentDescriptor)
      (state : r.view.state = .nonresident ∨ r.view.state = .resident)
      (fresh : r = { view := { descriptor, state := r.view.state } }) : Touched none (some r)
  | removed {r : ExtentRecord} (state : r.view.state = .nonresident) : Touched (some r) none
  | released {r r' : ExtentRecord} (state : r.view.state = .resident)
      (pinned : r.view.descriptor.recovery = .pinned) (leases : r.view.leases = 0)
      (after : r'.view.state = .nonresident) (descriptor : r'.view.descriptor = r.view.descriptor)
      (preserved : r'.view.preserved = r.view.preserved) (kept : r'.view.leases = r.view.leases) :
      Touched (some r) (some r')
  | renewed {r : ExtentRecord} (generation : Nat) (discarded : Bool)
      (state : r.view.state = .resident)
      (recovery : r.view.descriptor.recovery ≠ .fromArtifact)
      (leases : discarded = true → r.view.leases = 0) :
      Touched (some r) (some { r with
        view := { r.view with contentGeneration := generation, discarded } })

theorem Touched.refl (o : Option ExtentRecord) : Touched o o := .same rfl

theorem Alike.touched (h : Alike c c') (e : ExtentId) :
    Touched (c.extents.find? e) (c'.extents.find? e) := .same (h.find e)

def core (r : ExtentRecord) : ExtentState × Catalog.Operation × Nat × Bool :=
  (r.view.state, r.operation, r.operations, r.writingBack)

def Calm (o : Option ExtentRecord) : Prop :=
  ∀ r, o = some r → r.view.state = .nonresident ∨ r.view.state = .resident

def Steady (o o' : Option ExtentRecord) : Prop := o'.map core = o.map core ∨ Calm o ∧ Calm o'

theorem Steady.find (h : Steady o o') {r : ExtentRecord}
    (hr : o = some r) (hn : r.view.state ≠ .nonresident) (hres : r.view.state ≠ .resident) :
    ∃ r', o' = some r' ∧ core r' = core r := by
  rcases h with h | ⟨h, -⟩
  · rw [hr] at h
    cases ho : o' with
    | none => simp [ho] at h
    | some r' => exact ⟨r', rfl, by simpa [ho] using h⟩
  · exact ((h r hr).elim hn hres).elim

theorem core_bare (r : ExtentRecord) : core r.bare = core r := rfl

theorem Touched.steady (h : Touched o o') : Steady o o' := by
  cases h with
  | same hbare =>
    left
    have hmap := congrArg (Option.map core) hbare
    simpa [map_map, Function.comp_def, core_bare] using hmap
  | added descriptor hstate =>
    exact .inr ⟨fun r hr => absurd hr (by simp), fun r hr => some.inj hr ▸ hstate⟩
  | removed hstate =>
    exact .inr ⟨fun r hr => .inl (some.inj hr ▸ hstate), fun r hr => absurd hr (by simp)⟩
  | released hstate _ _ hafter =>
    exact .inr ⟨fun r hr => .inr (some.inj hr ▸ hstate), fun r hr => .inl (some.inj hr ▸ hafter)⟩
  | renewed => exact .inl rfl

/-! ### Each call -/

def Op.stages : Op → Bool
  | .beginLoad _ _ | .completeLoad _ | .failLoad _ _ | .beginEvict _ _ | .completeEvict _
  | .cancelEvict _ | .quarantineEviction _ => true
  | _ => false

/-- Every extent is touched as `Touched` lists. -/
def Touches (c c' : Catalog) : Prop := ∀ e, Touched (c.extents.find? e) (c'.extents.find? e)

theorem Alike.touches (h : Alike c c') : Touches c c' := h.touched

theorem Alters.touched {op : Op} {a : Answer}
    (h : Alters c op a e r r') (hop : op.stages = false) : Touched (some r) (some r') := by
  cases h with
  | releasePinned hstate hpin hunh =>
    exact .released hstate hpin hunh.1 rfl rfl rfl rfl
  | invalidateContents hstate hrec hunh =>
    exact .renewed _ true hstate hrec.2 fun _ => hunh.1
  | replaceContents hstate hrec =>
    exact .renewed _ false hstate (by simp [hrec]) (by simp)
  | _ => exact absurd hop (by simp [Op.stages])

theorem Evolves.touched {op : Op} {a : Answer}
    (h : Evolves c op a e o o') (hop : op.stages = false) : Touched o o' := by
  cases h with
  | same hbare => exact .same hbare
  | added descriptor resident =>
    refine .added descriptor ?_ rfl
    cases resident with
    | true => exact .inr rfl
    | false => exact .inl rfl
  | removed _ _ hstate => exact .removed hstate
  | altered halt => exact halt.touched hop

theorem run_touches (op : Op) (h : op.stages = false) : Sat Own (Touches c) (op.run c) := by
  rw [Op.run_eq_call]
  refine ((call_does op).mono (fun _ hf => hf.own) (fun _ hy => hy)).bind fun y hy => ?_
  exact fun e => (hy.evolves e).touched h

end JitLlm.Catalog
