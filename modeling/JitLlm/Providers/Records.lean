import JitLlm.Providers.DeviceMemory
import Mathlib.Order.Interval.Set.Defs
import Mathlib.Order.Disjoint
import Mathlib.Data.Set.Lattice
import Mathlib.Order.CompletePartialOrder

/-!
# The provider's records

What every call keeps of the three tables: the reservations, their mappings and the backings.
Each call changes them by one of a few edits (a record made, marked or erased; a mapping
added or dropped), and the invariant is kept edit by edit. A partly done `Unmap` is sound at
every turn of its loop, so no case of its own is needed for it.
-/

namespace JitLlm.Providers.VmmProvider

open Base Lib

variable {x : Layout}

/-- A mapping recorded at `off` of `r`. -/
def At (R : ReservationId → Option Reservation) (r : ReservationId) (off : Nat) (m : Mapping) :
    Prop :=
  ∃ place, R r = some place ∧ place.mappings.find? off = some m

structure Sound (x : Layout) (R : ReservationId → Option Reservation)
    (B : BackingId → Option Backing) : Prop where
  fits : ∀ r place off m, R r = some place → place.mappings.find? off = some m →
    off % x.granularity.value = 0 ∧ m.size.value % x.granularity.value = 0 ∧ 0 < m.size.value ∧
      off + m.size.value ≤ place.size.value
  apart : ∀ r place off off' m m', R r = some place → place.mappings.find? off = some m →
    place.mappings.find? off' = some m' → off < off' → off + m.size.value ≤ off'
  names : ∀ r off m, At R r off m →
    ∃ backing, B m.backing = some backing ∧ backing.mapped = true ∧ backing.size = m.size
  flag : ∀ b backing, B b = some backing → backing.mapped = true →
    ∃ r off m, At R r off m ∧ m.backing = b
  once : ∀ r r' off off' m m', At R r off m → At R r' off' m' → m.backing = m'.backing →
    r = r' ∧ off = off'
  frozen : ∀ r place off m backing, R r = some place → place.mappings.find? off = some m →
    B m.backing = some backing → backing.undetermined = true → place.undetermined = true
  made : ∀ b backing, B b = some backing → backing.size.value % x.granularity.value = 0 ∧
    0 < backing.size.value ∧ backing.allocationClass < x.classes.length

theorem Sound.ofInitial : Sound x initial.reservations.find? initial.backings.find? := by
  have hR : ∀ r, initial.reservations.find? r = none := by
    intro r
    simp [initial, SlotTable.find?, SlotTable.empty]
  have hB : ∀ b, initial.backings.find? b = none := by
    intro b
    simp [initial, SlotTable.find?, SlotTable.empty]
  constructor <;> simp [At, hR, hB]

section Edits

variable {R R' : ReservationId → Option Reservation} {B B' : BackingId → Option Backing}
  {r : ReservationId} {b : BackingId} {place place' : Reservation} {backing backing' : Backing}

section

variable (h : Sound x R B)
include h

theorem Sound.unnamed (hb : B b = some backing) (hmap : backing.mapped = false) :
    ∀ r off m, At R r off m → m.backing ≠ b := by
  rintro r off m hat rfl
  obtain ⟨named, hnamed, hflag, -⟩ := h.names r off m hat
  rw [hb] at hnamed
  cases hnamed
  simp [hmap] at hflag

theorem Sound.reread (hat : ∀ r' off m, At R' r' off m ↔ At R r' off m)
    (hback : ∀ r' p' off m, R' r' = some p' → p'.mappings.find? off = some m →
      ∃ p, R r' = some p ∧ p'.size = p.size ∧ p'.mappings = p.mappings ∧
        (p.undetermined = true → p'.undetermined = true)) : Sound x R' B := by
  constructor
  · intro r' p' off m hp hm
    obtain ⟨p, hp, hs, hmp, -⟩ := hback r' p' off m hp hm
    rw [hs]
    exact h.fits r' p off m hp (hmp ▸ hm)
  · intro r' p' off off' m m' hp hm hm'
    obtain ⟨p, hp, -, hmp, -⟩ := hback r' p' off m hp hm
    exact h.apart r' p off off' m m' hp (hmp ▸ hm) (hmp ▸ hm')
  · intro r' off m hm
    exact h.names r' off m ((hat r' off m).mp hm)
  · intro b' k hb' hk
    obtain ⟨r', off, m, hm, heq⟩ := h.flag b' k hb' hk
    exact ⟨r', off, m, (hat r' off m).mpr hm, heq⟩
  · intro r1 r2 off off' m m' h1 h2
    exact h.once r1 r2 off off' m m' ((hat _ _ _).mp h1) ((hat _ _ _).mp h2)
  · intro r' p' off m k hp hm hk hu
    obtain ⟨p, hp, -, hmp, hkeep⟩ := hback r' p' off m hp hm
    exact hkeep (h.frozen r' p off m k hp (hmp ▸ hm) hk hu)
  · exact h.made

theorem Sound.mark (hr : R r = some place) (hR : ∀ r', R' r' = if r' = r then some place' else R r')
    (hsize : place'.size = place.size) (hmaps : place'.mappings = place.mappings)
    (hmark : place.undetermined = true → place'.undetermined = true) : Sound x R' B := by
  refine h.reread (fun r' off m => ?_) fun r' p' off m hp _ => ?_
  · unfold At
    rw [hR]
    split
    next heq =>
      subst heq
      simp [hr, hmaps]
    · rfl
  rw [hR] at hp
  split at hp
  next heq =>
    cases hp
    exact ⟨place, heq ▸ hr, hsize, hmaps, hmark⟩
  · exact ⟨p', hp, rfl, rfl, id⟩

theorem Sound.bare (hother : ∀ r', r' ≠ r → R' r' = R r')
    (hold : ∀ off m, ¬At R r off m) (hnew : ∀ off m, ¬At R' r off m) : Sound x R' B := by
  refine h.reread (fun r' off m => ?_) fun r' p off m hp hm => ?_
  · by_cases heq : r' = r
    · subst heq
      exact ⟨fun hm => absurd hm (hnew off m), fun hm => absurd hm (hold off m)⟩
    unfold At
    rw [hother r' heq]
  by_cases heq : r' = r
  · subst heq
    exact absurd ⟨p, hp, hm⟩ (hnew off m)
  · exact ⟨p, hother r' heq ▸ hp, rfl, rfl, id⟩

theorem Sound.markBacking (hb : B b = some backing)
    (hB : ∀ b', B' b' = if b' = b then some backing' else B b')
    (hclass : backing'.allocationClass = backing.allocationClass)
    (hsize : backing'.size = backing.size) (hmap : backing'.mapped = backing.mapped)
    (hmark : ∀ r place off m, R r = some place → place.mappings.find? off = some m →
      m.backing = b → backing'.undetermined = true → place.undetermined = true) : Sound x R B' := by
  refine ⟨h.fits, h.apart, ?_, ?_, h.once, ?_, ?_⟩
  · intro r' off m hm
    obtain ⟨k, hk, hflag, hs⟩ := h.names r' off m hm
    rw [hB]
    split
    next heq =>
      rw [heq, hb] at hk
      cases hk
      exact ⟨backing', rfl, hmap ▸ hflag, hsize.trans hs⟩
    · exact ⟨k, hk, hflag, hs⟩
  · intro b' k hk hflag
    rw [hB] at hk
    split at hk
    next heq =>
      cases hk
      subst heq
      exact h.flag b' backing hb (hmap ▸ hflag)
    · exact h.flag b' k hk hflag
  · intro r' p off m k hp hm hk hu
    rw [hB] at hk
    split at hk
    next heq =>
      cases hk
      exact hmark r' p off m hp hm heq hu
    · exact h.frozen r' p off m k hp hm hk hu
  intro b' k hk
  rw [hB] at hk
  split at hk
  · cases hk
    rw [hsize, hclass]
    exact h.made b backing hb
  · exact h.made b' k hk

theorem Sound.bareBacking (hother : ∀ b', b' ≠ b → B' b' = B b')
    (hold : ∀ r off m, At R r off m → m.backing ≠ b)
    (hnew : ∀ k, B' b = some k → k.mapped = false ∧ k.size.value % x.granularity.value = 0 ∧
      0 < k.size.value ∧ k.allocationClass < x.classes.length) : Sound x R B' := by
  refine ⟨h.fits, h.apart, ?_, ?_, h.once, ?_, ?_⟩
  · intro r' off m hm
    rw [hother _ (hold r' off m hm)]
    exact h.names r' off m hm
  · intro b' k hk hflag
    by_cases heq : b' = b
    · subst heq
      simp [(hnew k hk).1] at hflag
    · exact h.flag b' k (hother b' heq ▸ hk) hflag
  · intro r' p off m k hp hm hk
    rw [hother _ (hold r' off m ⟨p, hp, hm⟩)] at hk
    exact h.frozen r' p off m k hp hm hk
  intro b' k hk
  by_cases heq : b' = b
  · subst heq
    exact (hnew k hk).2
  · exact h.made b' k (hother b' heq ▸ hk)

theorem Sound.map {off : Nat} (hr : R r = some place) (hb : B b = some backing)
    (hmap : backing.mapped = false) (hdet : backing.undetermined = false)
    (hfit : off % x.granularity.value = 0 ∧ off + backing.size.value ≤ place.size.value)
    (hhole : ∀ off' m, place.mappings.find? off' = some m →
      off' + m.size.value ≤ off ∨ off + backing.size.value ≤ off')
    (hR : ∀ r', R' r' = if r' = r then
      some { place with mappings := place.mappings.insert off ⟨b, backing.size⟩ } else R r')
    (hB : ∀ b', B' b' = if b' = b then some { backing with mapped := true } else B b') :
    Sound x R' B' := by
  have hunn := h.unnamed hb hmap
  obtain ⟨hsa, hsp, hclass⟩ := h.made b backing hb
  -- A mapping after the call is the new one, or one there was.
  have hat : ∀ r' off' m, At R' r' off' m →
      (r' = r ∧ off' = off ∧ m = ⟨b, backing.size⟩) ∨ At R r' off' m := by
    rintro r' off' m ⟨p, hp, hm⟩
    rw [hR] at hp
    split at hp
    next heq =>
      cases hp
      rw [OrdMap.find?_insert] at hm
      split at hm
      next hoff =>
        cases hm
        exact .inl ⟨heq, hoff, rfl⟩
      · exact .inr ⟨place, heq ▸ hr, hm⟩
    · exact .inr ⟨p, hp, hm⟩
  have hfresh : place.mappings.find? off = none := by
    cases hfound : place.mappings.find? off with
    | none => rfl
    | some m =>
      have := (h.fits r place off m hr hfound).2.2.1
      rcases hhole off m hfound with hle | hle <;> omega
  have hkept : ∀ r' off' m, At R r' off' m → At R' r' off' m := by
    rintro r' off' m ⟨p, hp, hm⟩
    unfold At
    rw [hR]
    split
    next heq =>
      subst heq
      rw [hr] at hp
      cases hp
      refine ⟨_, rfl, ?_⟩
      rw [OrdMap.find?_insert, if_neg]
      · exact hm
      rintro rfl
      rw [hfresh] at hm
      cases hm
    · exact ⟨p, hp, hm⟩
  have hnew : At R' r off ⟨b, backing.size⟩ := by
    refine ⟨_, (hR r).trans (if_pos rfl), ?_⟩
    simp
  constructor
  · intro r' p off' m hp hm
    rw [hR] at hp
    split at hp
    · cases hp
      rw [OrdMap.find?_insert] at hm
      split at hm
      next hoff =>
        cases hm
        subst hoff
        exact ⟨hfit.1, hsa, hsp, hfit.2⟩
      · exact h.fits r place off' m hr hm
    · exact h.fits r' p off' m hp hm
  · intro r' p o o' m m' hp hm hm' hlt
    rw [hR] at hp
    split at hp
    · cases hp
      rw [OrdMap.find?_insert] at hm hm'
      split at hm <;> split at hm'
      · omega
      · cases hm
        rcases hhole o' m' hm' with hle | hle <;> simp only <;> omega
      · cases hm'
        rcases hhole o m hm with hle | hle <;> omega
      · exact h.apart r place o o' m m' hr hm hm' hlt
    · exact h.apart r' p o o' m m' hp hm hm' hlt
  · intro r' off' m hm
    rw [hB]
    rcases hat r' off' m hm with ⟨-, -, rfl⟩ | hm
    · exact ⟨_, if_pos rfl, rfl, rfl⟩
    rw [if_neg (hunn r' off' m hm)]
    exact h.names r' off' m hm
  · intro b' k hk hflag
    rw [hB] at hk
    split at hk
    next heq =>
      exact ⟨r, off, _, hnew, heq.symm⟩
    obtain ⟨r', off', m, hm, heq⟩ := h.flag b' k hk hflag
    exact ⟨r', off', m, hkept r' off' m hm, heq⟩
  · intro r1 r2 o o' m m' h1 h2 heq
    rcases hat r1 o m h1 with ⟨rfl, rfl, rfl⟩ | h1 <;> rcases hat r2 o' m' h2 with ⟨rfl, rfl, rfl⟩ | h2
    · exact ⟨rfl, rfl⟩
    · exact absurd heq.symm (hunn r2 o' m' h2)
    · exact absurd heq (hunn r1 o m h1)
    · exact h.once r1 r2 o o' m m' h1 h2 heq
  · intro r' p off' m k hp hm hk hu
    rw [hB] at hk
    rcases hat r' off' m ⟨p, hp, hm⟩ with ⟨-, -, rfl⟩ | ⟨p0, hp0, hm0⟩
    · simp only [if_true] at hk
      cases hk
      simp [hdet] at hu
    rw [if_neg (hunn r' off' m ⟨p0, hp0, hm0⟩)] at hk
    have hu0 := h.frozen r' p0 off' m k hp0 hm0 hk hu
    rw [hR] at hp
    split at hp
    next heq =>
      subst heq
      rw [hr] at hp0
      cases hp0
      cases hp
      exact hu0
    rw [hp0] at hp
    cases hp
    exact hu0
  intro b' k hk
  rw [hB] at hk
  split at hk
  · cases hk
    exact ⟨hsa, hsp, hclass⟩
  · exact h.made b' k hk

theorem Sound.unmap {off : Nat} {m : Mapping} (hr : R r = some place)
    (hm : place.mappings.find? off = some m) (hb : B m.backing = some backing)
    (hR : ∀ r', R' r' = if r' = r then
      some { place with mappings := place.mappings.erase off } else R r')
    (hB : ∀ b', B' b' = if b' = m.backing then some { backing with mapped := false } else B b') :
    Sound x R' B' := by
  -- A mapping after the call is one there was, and names another backing.
  have hback : ∀ r' p' off' m', R' r' = some p' → p'.mappings.find? off' = some m' →
      ∃ p, R r' = some p ∧ p'.size = p.size ∧ p'.undetermined = p.undetermined ∧
        p.mappings.find? off' = some m' ∧ m'.backing ≠ m.backing := by
    intro r' p' off' m' hp hm'
    rw [hR] at hp
    split at hp
    next heq =>
      cases hp
      simp only [OrdMap.find?_erase] at hm'
      split at hm'
      · cases hm'
      rename_i hoff
      refine ⟨place, heq ▸ hr, rfl, rfl, hm', fun hsame => hoff ?_⟩
      exact (h.once r r off' off m' m ⟨place, hr, hm'⟩ ⟨place, hr, hm⟩ hsame).2
    rename_i hne
    refine ⟨p', hp, rfl, rfl, hm', fun hsame => hne ?_⟩
    exact (h.once r' r off' off m' m ⟨p', hp, hm'⟩ ⟨place, hr, hm⟩ hsame).1
  have hat : ∀ r' off' m', At R' r' off' m' → At R r' off' m' ∧ m'.backing ≠ m.backing := by
    rintro r' off' m' ⟨p', hp, hm'⟩
    obtain ⟨p, hp, -, -, hm', hne⟩ := hback r' p' off' m' hp hm'
    exact ⟨⟨p, hp, hm'⟩, hne⟩
  constructor
  · intro r' p' off' m' hp hm'
    obtain ⟨p, hp, hs, -, hm', -⟩ := hback r' p' off' m' hp hm'
    rw [hs]
    exact h.fits r' p off' m' hp hm'
  · intro r' p' o o' m1 m2 hp h1 h2
    obtain ⟨p, hp1, -, -, h1, -⟩ := hback r' p' o m1 hp h1
    obtain ⟨q, hp2, -, -, h2, -⟩ := hback r' p' o' m2 hp h2
    rw [hp1] at hp2
    cases hp2
    exact h.apart r' p o o' m1 m2 hp1 h1 h2
  · intro r' off' m' hm'
    obtain ⟨hm', hne⟩ := hat r' off' m' hm'
    rw [hB, if_neg hne]
    exact h.names r' off' m' hm'
  · intro b' k hk hflag
    rw [hB] at hk
    split at hk
    · cases hk
      simp at hflag
    rename_i hne
    obtain ⟨r', off', m', ⟨p, hp, hm'⟩, heq⟩ := h.flag b' k hk hflag
    refine ⟨r', off', m', ?_, heq⟩
    unfold At
    rw [hR]
    split
    next hrr =>
      subst hrr
      rw [hr] at hp
      cases hp
      refine ⟨_, rfl, ?_⟩
      rw [OrdMap.find?_erase, if_neg]
      · exact hm'
      rintro rfl
      rw [hm] at hm'
      cases hm'
      exact hne heq.symm
    · exact ⟨p, hp, hm'⟩
  · intro r1 r2 o o' m1 m2 h1 h2
    exact h.once r1 r2 o o' m1 m2 (hat _ _ _ h1).1 (hat _ _ _ h2).1
  · intro r' p' off' m' k hp hm' hk hu
    obtain ⟨p, hp, -, hup, hm', hne⟩ := hback r' p' off' m' hp hm'
    rw [hB, if_neg hne] at hk
    rw [hup]
    exact h.frozen r' p off' m' k hp hm' hk hu
  intro b' k hk
  rw [hB] at hk
  split at hk
  · cases hk
    exact h.made m.backing backing hb
  · exact h.made b' k hk

end

end Edits

/-! ## What each call does -/

/-- The records of `v` are sound. -/
def Ok (x : Layout) (v : VmmProvider) : Prop := Sound x v.reservations.find? v.backings.find?

variable {v v' : VmmProvider} {d : Driver} {r : ReservationId} {b : BackingId}
  {place place' : Reservation} {backing backing' : Backing}

theorem setReservation_find (hr : v.reservations.find? r = some place) (r' : ReservationId) :
    (v.setReservation r place').reservations.find? r' =
      if r' = r then some place' else v.reservations.find? r' := by
  simp [setReservation, SlotTable.find?_set, hr]

theorem setBacking_find (hb : v.backings.find? b = some backing) (b' : BackingId) :
    (v.setBacking b backing').backings.find? b' =
      if b' = b then some backing' else v.backings.find? b' := by
  simp [setBacking, SlotTable.find?_set, hb]

structure Keeps (v v' : VmmProvider) : Prop where
  reservation : ∀ r place, v.reservations.find? r = some place →
    ∃ place', v'.reservations.find? r = some place' ∧
      (place.undetermined = true → place'.undetermined = true)
  backing : ∀ b backing, v.backings.find? b = some backing →
    ∃ backing', v'.backings.find? b = some backing' ∧
      (backing.undetermined = true → backing'.undetermined = true)

theorem Keeps.refl (v : VmmProvider) : Keeps v v :=
  ⟨fun _ place h => ⟨place, h, id⟩, fun _ backing h => ⟨backing, h, id⟩⟩

theorem Keeps.trans {v'' : VmmProvider} (h : Keeps v v') (h' : Keeps v' v'') : Keeps v v'' := by
  constructor
  · intro r place hr
    obtain ⟨place', hr', hu⟩ := h.reservation r place hr
    obtain ⟨place'', hr'', hu'⟩ := h'.reservation r place' hr'
    exact ⟨place'', hr'', hu' ∘ hu⟩
  intro b backing hb
  obtain ⟨backing', hb', hu⟩ := h.backing b backing hb
  obtain ⟨backing'', hb'', hu'⟩ := h'.backing b backing' hb'
  exact ⟨backing'', hb'', hu' ∘ hu⟩

theorem Keeps.setReservation (hr : v.reservations.find? r = some place)
    (hu : place.undetermined = true → place'.undetermined = true) :
    Keeps v (v.setReservation r place') := by
  refine ⟨fun r' p hp => ?_, fun _ k hk => ⟨k, hk, id⟩⟩
  rw [setReservation_find hr]
  split
  next heq =>
    rw [heq, hr] at hp
    cases hp
    exact ⟨place', rfl, hu⟩
  · exact ⟨p, hp, id⟩

theorem Keeps.setBacking (hb : v.backings.find? b = some backing)
    (hu : backing.undetermined = true → backing'.undetermined = true) :
    Keeps v (v.setBacking b backing') := by
  refine ⟨fun _ p hp => ⟨p, hp, id⟩, fun b' k hk => ?_⟩
  rw [setBacking_find hb]
  split
  next heq =>
    rw [heq, hb] at hk
    cases hk
    exact ⟨backing', rfl, hu⟩
  · exact ⟨k, hk, id⟩

/-- What a call leaves: sound records, unchanged after a known failure, and each record still
    there, undetermined if it was, unless it was determined with no mapping in it or of it. -/
structure Leaves (x : Layout) (v : VmmProvider) (answer : Except Failure Unit)
    (v' : VmmProvider) : Prop where
  ok : Ok x v'
  known : ∀ failure, answer = .error failure → failure.isUnknown = false → v' = v
  reservation : ∀ r place, v.reservations.find? r = some place →
    (∃ place', v'.reservations.find? r = some place' ∧
      (place.undetermined = true → place'.undetermined = true)) ∨
    place.undetermined = false ∧ ∀ off, place.mappings.find? off = none
  backing : ∀ b backing, v.backings.find? b = some backing →
    (∃ backing', v'.backings.find? b = some backing' ∧
      (backing.undetermined = true → backing'.undetermined = true)) ∨
    backing.undetermined = false ∧ backing.mapped = false

variable {answer : Except Failure Unit}

theorem Keeps.leaves (h : Keeps v v') (ok : Ok x v')
    (known : ∀ failure, answer = .error failure → failure.isUnknown = false → v' = v) :
    Leaves x v answer v' :=
  ⟨ok, known, fun r place hr => .inl (h.reservation r place hr),
    fun b backing hb => .inl (h.backing b backing hb)⟩

theorem Leaves.refl (h : Ok x v) : Leaves x v answer v := (Keeps.refl v).leaves h fun _ _ _ => rfl

variable {reservations : SlotTable .reservation Reservation}

theorem Keeps.insertReservation (hins : v.reservations.insert place = some (r, reservations)) :
    Keeps v { v with reservations } := by
  refine ⟨fun r' p hp => ⟨p, ?_, id⟩, fun _ k hk => ⟨k, hk, id⟩⟩
  rw [SlotTable.find?_insert hins, if_neg]
  · exact hp
  rintro rfl
  rw [SlotTable.find?_insert_fresh hins] at hp
  cases hp

variable {backings : SlotTable .backing Backing}

theorem Keeps.insertBacking
    (hins : v.backings.insert backing = some (b, backings)) : Keeps v { v with backings } := by
  refine ⟨fun _ p hp => ⟨p, hp, id⟩, fun b' k hk => ⟨k, ?_, id⟩⟩
  rw [SlotTable.find?_insert hins, if_neg]
  · exact hk
  rintro rfl
  rw [SlotTable.find?_insert_fresh hins] at hk
  cases hk

theorem Ok.insertReservation (h : Ok x v)
    (hins : v.reservations.insert place = some (r, reservations))
    (hempty : ∀ off, place.mappings.find? off = none) : Ok x { v with reservations } := by
  refine Sound.bare (r := r) h (fun r' hne => ?_) ?_ ?_
  · rw [SlotTable.find?_insert hins, if_neg hne]
  · rintro off m ⟨p, hp, -⟩
    rw [SlotTable.find?_insert_fresh hins] at hp
    cases hp
  rintro off m ⟨p, hp, hm⟩
  rw [SlotTable.find?_insert hins, if_pos rfl] at hp
  cases hp
  rw [hempty] at hm
  cases hm

theorem Ok.insertBacking (h : Ok x v)
    (hins : v.backings.insert backing = some (b, backings)) (hmap : backing.mapped = false)
    (hsize : backing.size.value % x.granularity.value = 0 ∧ 0 < backing.size.value ∧
      backing.allocationClass < x.classes.length) : Ok x { v with backings } := by
  refine Sound.bareBacking (b := b) h (fun b' hne => ?_) ?_ ?_
  · rw [SlotTable.find?_insert hins, if_neg hne]
  · rintro r off m hm rfl
    obtain ⟨k, hk, -⟩ := h.names r off m hm
    rw [SlotTable.find?_insert_fresh hins] at hk
    cases hk
  intro k hk
  rw [SlotTable.find?_insert hins, if_pos rfl] at hk
  cases hk
  exact ⟨hmap, hsize⟩

theorem reserve_leaves (h : Ok x v) (d : Driver) (size : Bytes) :
    Leaves x v (VmmProvider.answer (reserve x v d size)).1
      (VmmProvider.answer (reserve x v d size)).2 := by
  unfold reserve
  split
  · exact .refl h
  split
  next failure _ =>
    split
    next hunk =>
      split
      next id reservations hins =>
        refine (Keeps.insertReservation hins).leaves (h.insertReservation hins fun _ => rfl) ?_
        intro f hf hknown
        cases hf
        simp [hunk] at hknown
      · exact .refl h
    · exact .refl h
  split
  next id reservations hins =>
    refine (Keeps.insertReservation hins).leaves (h.insertReservation hins fun _ => rfl) ?_
    intro f hf
    cases hf
  · exact .refl h

theorem create_leaves (h : Ok x v) (d : Driver) (allocationClass : Nat) (size : Bytes) :
    Leaves x v (VmmProvider.answer (create x v d allocationClass size)).1
      (VmmProvider.answer (create x v d allocationClass size)).2 := by
  unfold create
  split
  · exact .refl h
  rename_i chosen hchosen
  split
  · exact .refl h
  rename_i hsize
  simp only [not_or, Bool.not_eq_false] at hsize
  have hfit : size.value % x.granularity.value = 0 ∧ 0 < size.value ∧
      allocationClass < x.classes.length := by
    refine ⟨of_decide_eq_true hsize.2.2, Nat.pos_of_ne_zero fun hz => hsize.1 ?_,
      (List.getElem?_eq_some_iff.mp hchosen).1⟩
    exact Bytes.ext hz
  split
  next failure _ =>
    split
    next hunk =>
      split
      next id backings hins =>
        refine (Keeps.insertBacking hins).leaves (h.insertBacking hins rfl hfit) ?_
        intro f hf hknown
        cases hf
        simp [hunk] at hknown
      · exact .refl h
    · exact .refl h
  split
  next id backings hins =>
    refine (Keeps.insertBacking hins).leaves (h.insertBacking hins rfl hfit) ?_
    intro f hf
    cases hf
  · exact .refl h

theorem isEmpty_find {m : OrdMap Nat Mapping} (h : m.isEmpty = true) (off : Nat) :
    m.find? off = none := by
  simp [OrdMap.find?, List.isEmpty_iff.mp h, OrdMap.lookup]

theorem free_leaves (h : Ok x v) (d : Driver) (r : ReservationId) :
    Leaves x v (free v d r).1 (free v d r).2 := by
  unfold free
  split
  · exact .refl h
  rename_i found hr
  split
  · exact .refl h
  rename_i hdet
  simp only [Bool.not_eq_true] at hdet
  split
  · exact .refl h
  rename_i hempty
  simp only [Bool.not_eq_false] at hempty
  split
  next failure _ =>
    refine (Keeps.setReservation hr fun hu => ?_).leaves
      (Sound.mark h hr (setReservation_find hr) rfl rfl fun hu => ?_) ?_
    · simp [hdet] at hu
    · simp [hdet] at hu
    intro f hf hknown
    cases hf
    have hsame : { found with undetermined := failure.isUnknown } = found := by
      rw [hknown, ← hdet]
    rw [hsame]
    simp [setReservation, SlotTable.set_self hr]
  refine ⟨?_, nofun, ?_, fun b k hk => .inl ⟨k, hk, id⟩⟩
  · refine Sound.bare (r := r) h (fun r' hne => ?_) ?_ ?_
    · rw [SlotTable.find?_erase, if_neg hne]
    · rintro off m ⟨p, hp, hm⟩
      rw [hr] at hp
      cases hp
      rw [isEmpty_find hempty] at hm
      cases hm
    rintro off m ⟨p, hp, -⟩
    simp [SlotTable.find?_erase] at hp
  intro r' p hp
  by_cases heq : r' = r
  · subst heq
    rw [hr] at hp
    cases hp
    exact .inr ⟨hdet, isEmpty_find hempty⟩
  · exact .inl ⟨p, by simp [SlotTable.find?_erase, heq, hp], id⟩

theorem release_leaves (h : Ok x v) (d : Driver) (b : BackingId) :
    Leaves x v (release v d b).1 (release v d b).2 := by
  unfold release
  split
  · exact .refl h
  rename_i found hb
  split
  · exact .refl h
  rename_i hdet
  simp only [Bool.not_eq_true] at hdet
  split
  · exact .refl h
  rename_i hmap
  simp only [Bool.not_eq_true] at hmap
  have hunn := h.unnamed hb hmap
  split
  next failure _ =>
    refine (Keeps.setBacking hb fun hu => ?_).leaves
      (Sound.markBacking h hb (setBacking_find hb) rfl rfl rfl ?_) ?_
    · simp [hdet] at hu
    · intro r place off m hr hm hname
      exact absurd hname (hunn r off m ⟨place, hr, hm⟩)
    intro f hf hknown
    cases hf
    have hsame : { found with undetermined := failure.isUnknown } = found := by
      rw [hknown, ← hdet]
    rw [hsame]
    simp [VmmProvider.setBacking, SlotTable.set_self hb]
  refine ⟨?_, nofun, fun r p hp => .inl ⟨p, hp, id⟩, ?_⟩
  · refine Sound.bareBacking (b := b) h (fun b' hne => ?_) hunn ?_
    · rw [SlotTable.find?_erase, if_neg hne]
    intro k hk
    simp [SlotTable.find?_erase] at hk
  intro b' k hk
  by_cases heq : b' = b
  · subst heq
    rw [hb] at hk
    cases hk
    exact .inr ⟨hdet, hmap⟩
  · exact .inl ⟨k, by simp [SlotTable.find?_erase, heq, hk], id⟩

theorem hole_of_not_overlaps {off stop : Nat} (h : Ok x v) (hr : v.reservations.find? r = some place)
    (hover : overlaps place off stop = false) (off' : Nat) (m : Mapping)
    (hm : place.mappings.find? off' = some m) : off' + m.size.value ≤ off ∨ stop ≤ off' := by
  unfold overlaps at hover
  rw [Bool.or_eq_false_iff] at hover
  by_cases hle : off ≤ off'
  · refine .inr ?_
    rcases hafter : place.mappings.lowerBound off with _ | _
    · exact absurd hle (not_le.mpr (OrdMap.lowerBound_none hm hafter))
    rw [hafter] at hover
    have := OrdMap.lowerBound_le hm hle hafter
    simp only [decide_eq_false_iff_not, not_lt] at hover
    omega
  refine .inl ?_
  obtain ⟨before, hbef, hnear, hlt, hfound⟩ := OrdMap.le_below hm (not_le.mp hle)
  rw [hbef] at hover
  have hfit := (h.fits r place before.1 before.2 hr hfound).2.2.2
  have hwrap : wrapAdd before.1 before.2.size.value = before.1 + before.2.size.value := by
    have := place.size.bound
    exact Nat.mod_eq_of_lt (by omega)
  simp only [hwrap, decide_eq_false_iff_not, not_lt] at hover
  rcases hnear.lt_or_eq with hless | heq
  · have := h.apart r place off' before.1 m before.2 hr hm hfound hless
    omega
  rw [heq, hfound] at hm
  cases hm
  rw [heq]
  exact hover.2

theorem map_leaves (h : Ok x v) (d : Driver) (r : ReservationId) (offset : Bytes) (b : BackingId) :
    Leaves x v (map x v d r offset b).1 (map x v d r offset b).2 := by
  unfold VmmProvider.map
  split
  next place found hr hb =>
    split
    · exact .refl h
    rename_i hdet
    simp only [Bool.or_eq_true, not_or, Bool.not_eq_true] at hdet
    split
    · exact .refl h
    rename_i hmap
    simp only [Bool.not_eq_true] at hmap
    split
    · exact .refl h
    rename_i stop hstop
    split
    · exact .refl h
    rename_i hfit
    simp only [not_or, Bool.not_eq_false, not_lt] at hfit
    rw [Bytes.plus_eq_some] at hstop
    split
    · exact .refl h
    rename_i hover
    simp only [Bool.not_eq_true] at hover
    have hb' : ∀ p, (v.setReservation r p).backings.find? b = some found := fun _ => hb
    split
    next failure _ =>
      split
      next hunk =>
        have hfirst : Ok x (v.setReservation r { place with undetermined := true }) :=
          Sound.mark h hr (setReservation_find hr) rfl rfl fun _ => rfl
        refine ((Keeps.setReservation hr fun _ => rfl).trans
          (Keeps.setBacking (hb' _) fun _ => rfl)).leaves ?_ ?_
        · refine Sound.markBacking hfirst (hb' _) (setBacking_find (hb' _)) rfl rfl rfl ?_
          intro r' p off m hp hm hname
          have hat : At v.reservations.find? r' off m := by
            have hp' := (setReservation_find hr r').symm.trans hp
            split at hp'
            next heq =>
              cases hp'
              exact ⟨place, heq ▸ hr, hm⟩
            · exact ⟨p, hp', hm⟩
          exact absurd hname (h.unnamed hb hmap r' off m hat)
        intro f hf hknown
        cases hf
        simp [hunk] at hknown
      · exact .refl h
    refine ((Keeps.setReservation hr (by exact id)).trans
      (Keeps.setBacking (hb' _) (by exact id))).leaves ?_ nofun
    have hat : offset.value % x.granularity.value = 0 ∧
        offset.value + found.size.value ≤ place.size.value :=
      ⟨of_decide_eq_true hfit.1, by omega⟩
    refine Sound.map h hr hb hmap hdet.2 hat ?_ (setReservation_find hr) (setBacking_find (hb' _))
    intro off' m hm
    rw [← hstop]
    exact hole_of_not_overlaps h hr hover off' m hm
  · exact .refl h

/-! ## `Covered`, and the calls that use it -/

theorem coveredFrom_keys {stop : Nat} : ∀ {l : List (Nat × Mapping)} {at_ : Nat} {ats : List Nat},
    coveredFrom stop at_ l = .ok ats → ats <+: l.map Prod.fst := by
  intro l
  induction l with
  | nil =>
    intro at_ ats h
    unfold coveredFrom at h
    split at h
    · cases h
    split at h <;> cases h
    exact List.nil_prefix
  | cons p rest ih =>
    intro at_ ats h
    obtain ⟨key, mapping⟩ := p
    unfold coveredFrom at h
    split at h
    · split at h
      · cases h
      rename_i hkey
      obtain ⟨tail, htail, rfl⟩ := map_ok h
      obtain rfl : key = at_ := not_not.mp hkey
      exact List.cons_prefix_cons.mpr ⟨rfl, ih htail⟩
    split at h <;> cases h
    exact List.nil_prefix

variable {ats : List Nat}

theorem covered_spec {offset size : Bytes} (h : covered place offset size = .ok ats) :
    ats.Nodup ∧ ∀ at_ ∈ ats, ∃ m, place.mappings.find? at_ = some m := by
  unfold covered at h
  split at h
  · cases h
  split at h
  · cases h
  have hbef := coveredFrom_keys h
  have hsub : (place.mappings.entries.dropWhile (fun p => p.1 ≠ offset.value)).Sublist
      place.mappings.entries := List.dropWhile_sublist _
  constructor
  · have hsor : (place.mappings.entries.map Prod.fst).Nodup := by
      rw [List.Nodup, List.pairwise_map]
      exact place.mappings.sorted.imp fun hlt => ne_of_lt hlt
    exact (hbef.sublist.trans (hsub.map Prod.fst)).nodup hsor
  intro at_ hat
  obtain ⟨p, hp, rfl⟩ := List.mem_map.mp (hbef.subset hat)
  exact ⟨p.2, OrdMap.mem_entries_iff.mp (hsub.subset hp)⟩

section

variable (h : Ok x v)
include h

theorem quarantine_sat (hr : v.reservations.find? r = some place)
    (hats : ∀ at_ ∈ ats, ∃ m, place.mappings.find? at_ = some m) :
    Sat (fun _ => False) (fun v' => Ok x v' ∧ Keeps v v') (quarantine v r place ats) := by
  have hfirst : Ok x (v.setReservation r { place with undetermined := true }) :=
    Sound.mark h hr (setReservation_find hr) rfl rfl fun _ => rfl
  refine Sat.imp (P := fun v' => Ok x v' ∧ Keeps v v' ∧
      v'.reservations.find? r = some { place with undetermined := true } ∧
      ∀ at_ ∈ ([] : List Nat), ∃ m, place.mappings.find? at_ = some m) ?_
    (fun v' hv => ⟨hv.1, hv.2.1⟩)
  refine Sat.foldlM (I := fun rest v' => Ok x v' ∧ Keeps v v' ∧
      v'.reservations.find? r = some { place with undetermined := true } ∧
      ∀ at_ ∈ rest, ∃ m, place.mappings.find? at_ = some m) ?_
    ⟨hfirst, .setReservation hr fun _ => rfl, ?_, hats⟩
  · rintro v' at_ rest ⟨hok, hkeeps, hmar, hrest⟩
    obtain ⟨m, hm⟩ := hrest at_ List.mem_cons_self
    obtain ⟨backing, hb, -⟩ := hok.names r at_ m ⟨_, hmar, hm⟩
    simp only [hm, pure_bind, hb, Sat.pure_iff]
    refine ⟨?_, hkeeps.trans (.setBacking hb fun _ => rfl), hmar, fun a ha =>
      hrest a (List.mem_cons_of_mem _ ha)⟩
    -- The backing's one mapping is in the reservation marked first.
    refine Sound.markBacking hok hb (setBacking_find hb) rfl rfl rfl ?_
    intro r' p off m' hp hm' hname _
    obtain ⟨rfl, -⟩ := hok.once r' r off at_ m' m ⟨p, hp, hm'⟩ ⟨_, hmar, hm⟩ hname
    cases hmar.symm.trans hp
    rfl
  · rw [setReservation_find hr, if_pos rfl]

theorem accessRuns_sat {access : Access} (hr : v.reservations.find? r = some place) :
    ∀ {ats : List Nat} {run : Run}, (∀ at_ ∈ ats, ∃ m, place.mappings.find? at_ = some m) →
      Sat (fun _ => False) (fun _ => True) (accessRuns x v d place access ats run) := by
  intro ats
  induction ats with
  | nil =>
    intro run _
    exact trivial
  | cons at_ rest ih =>
    intro run hats
    obtain ⟨m, hm⟩ := hats at_ List.mem_cons_self
    obtain ⟨backing, hb, -⟩ := h.names r at_ m ⟨place, hr, hm⟩
    have hclass := (h.made _ backing hb).2.2
    have hrest := fun a ha => hats a (List.mem_cons_of_mem _ ha)
    unfold accessRuns
    simp only [hm, hb, pure_bind, List.getElem?_eq_getElem hclass]
    split
    · split
      · exact trivial
      · exact ih hrest
    · exact ih hrest

theorem setAccess_sat (d : Driver) (r : ReservationId) (offset size : Bytes)
    (access : Access) : Sat (fun _ => False) (fun p => Leaves x v p.1 p.2)
      (setAccess x v d r offset size access) := by
  unfold setAccess
  split
  · exact Leaves.refl h
  rename_i place hr
  split
  · exact Leaves.refl h
  split
  · exact Leaves.refl h
  rename_i ats hats
  refine Sat.bind (accessRuns_sat h hr (covered_spec hats).2) ?_
  intro ran _
  dsimp only
  split
  · exact Leaves.refl h
  rename_i failure _
  split
  next hunk =>
    refine Sat.bind (quarantine_sat h hr (covered_spec hats).2) ?_
    rintro v' ⟨hok, hkeeps⟩
    refine hkeeps.leaves hok ?_
    intro f hf hknown
    cases hf
    simp [hunk] at hknown
  · exact Leaves.refl h

theorem unmapped_sat (hr : v.reservations.find? r = some place)
    (hnodup : ats.Nodup) (hats : ∀ at_ ∈ ats, ∃ m, place.mappings.find? at_ = some m) :
    Sat (fun _ => False) (fun v' => Ok x v' ∧ Keeps v v') (ats.foldlM (unmapOne r) v) := by
  refine Sat.imp (P := fun v' => Ok x v' ∧ Keeps v v' ∧ ∃ place',
      v'.reservations.find? r = some place' ∧ ([] : List Nat).Nodup ∧
      ∀ at_ ∈ ([] : List Nat), ∃ m, place'.mappings.find? at_ = some m) ?_
    (fun v' hv => ⟨hv.1, hv.2.1⟩)
  refine Sat.foldlM (I := fun rest v' => Ok x v' ∧ Keeps v v' ∧ ∃ place',
      v'.reservations.find? r = some place' ∧ rest.Nodup ∧
      ∀ at_ ∈ rest, ∃ m, place'.mappings.find? at_ = some m) ?_
    ⟨h, .refl v, place, hr, hnodup, hats⟩
  rintro v' at_ rest ⟨hok, hkeeps, place', hr', hnd, hrest⟩
  obtain ⟨m, hm⟩ := hrest at_ List.mem_cons_self
  obtain ⟨backing, hb, -⟩ := hok.names r at_ m ⟨place', hr', hm⟩
  unfold unmapOne
  simp only [hr', hm, hb, pure_bind, Sat.pure_iff]
  have hr'' : ∀ k, (v'.setBacking m.backing k).reservations.find? r = some place' := fun _ => hr'
  refine ⟨?_, hkeeps.trans ((Keeps.setBacking hb (by exact id)).trans
    (Keeps.setReservation (hr'' _) (by exact id))),
    { place' with mappings := place'.mappings.erase at_ }, ?_, (List.nodup_cons.mp hnd).2, ?_⟩
  · exact Sound.unmap hok hr' hm hb (setReservation_find (hr'' _)) (setBacking_find hb)
  · rw [setReservation_find (hr'' _), if_pos rfl]
  intro a ha
  obtain ⟨m', hm'⟩ := hrest a (List.mem_cons_of_mem _ ha)
  refine ⟨m', ?_⟩
  rw [OrdMap.find?_erase, if_neg]
  · exact hm'
  rintro rfl
  exact (List.nodup_cons.mp hnd).1 ha

theorem unmap_sat (d : Driver) (r : ReservationId) (offset size : Bytes) :
    Sat (fun _ => False) (fun p => Leaves x v p.1 p.2) (unmap v d r offset size) := by
  unfold VmmProvider.unmap
  split
  · exact Leaves.refl h
  rename_i place hr
  split
  · exact Leaves.refl h
  split
  · exact Leaves.refl h
  rename_i ats hats
  split
  next failure _ =>
    split
    next hunk =>
      refine Sat.bind (quarantine_sat h hr (covered_spec hats).2) ?_
      rintro v' ⟨hok, hkeeps⟩
      refine hkeeps.leaves hok ?_
      intro f hf hknown
      cases hf
      simp [hunk] at hknown
    · exact Leaves.refl h
  refine Sat.bind (unmapped_sat h hr (covered_spec hats).1 (covered_spec hats).2) ?_
  rintro v' ⟨hok, hkeeps⟩
  exact hkeeps.leaves hok nofun

theorem call_sat (d : Driver) (c : Call) :
    Sat (fun _ => False) (fun p => Leaves x v p.1 p.2) (call x v d c) := by
  cases c with
  | reserve size => exact reserve_leaves h d size
  | free r => exact free_leaves h d r
  | create allocationClass size => exact create_leaves h d allocationClass size
  | release b => exact release_leaves h d b
  | map r offset b => exact map_leaves h d r offset b
  | setAccess r offset size access => exact setAccess_sat h d r offset size access
  | unmap r offset size => exact unmap_sat h d r offset size

end

/-! ## Every run -/

theorem Runs.ok (h : Runs x v v') (hok : Ok x v) : Ok x v' := by
  induction h with
  | refl => exact hok
  | call _ hcall ih => exact ((call_sat ih _ _).val hcall).ok

theorem Runs.frozenReservation (h : Runs x v v') (hok : Ok x v)
    (hr : v.reservations.find? r = some place) (hu : place.undetermined = true) :
    ∃ place', v'.reservations.find? r = some place' ∧ place'.undetermined = true := by
  induction h with
  | refl => exact ⟨place, hr, hu⟩
  | call hruns hcall ih =>
    obtain ⟨p, hp, hpu⟩ := ih
    rcases ((call_sat (hruns.ok hok) _ _).val hcall).reservation r p hp with ⟨p', hp', hkeep⟩ | ⟨hdet, -⟩
    · exact ⟨p', hp', hkeep hpu⟩
    · simp [hdet] at hpu

theorem Runs.frozenBacking (h : Runs x v v') (hok : Ok x v)
    (hb : v.backings.find? b = some backing) (hu : backing.undetermined = true) :
    ∃ backing', v'.backings.find? b = some backing' ∧ backing'.undetermined = true := by
  induction h with
  | refl => exact ⟨backing, hb, hu⟩
  | call hruns hcall ih =>
    obtain ⟨k, hk, hku⟩ := ih
    rcases ((call_sat (hruns.ok hok) _ _).val hcall).backing b k hk with ⟨k', hk', hkeep⟩ | ⟨hdet, -⟩
    · exact ⟨k', hk', hkeep hku⟩
    · simp [hdet] at hku

def Call.onReservation (r : ReservationId) : Call → Prop
  | .free r' | .map r' _ _ | .setAccess r' _ _ _ | .unmap r' _ _ => r' = r
  | _ => False

def Call.onBacking (v : VmmProvider) (b : BackingId) : Call → Prop
  | .release b' | .map _ _ b' => b' = b
  | .setAccess r offset size _ | .unmap r offset size =>
    ∃ at_ m, At v.reservations.find? r at_ m ∧ m.backing = b ∧ offset.value ≤ at_ ∧
      at_ < offset.value + size.value
  | _ => False

def Refused (x : Layout) (v : VmmProvider) (c : Call) : Prop :=
  ∀ d, ∃ failure, call x v d c = .ok (.error failure, v) ∧
    (failure.error = .undetermined ∨ failure.error = .invalid)

theorem refused_reservation {c : Call} (hr : v.reservations.find? r = some place)
    (hu : place.undetermined = true) (hc : c.onReservation r) : Refused x v c := by
  intro d
  cases c with
  | free r' =>
    obtain rfl : r' = r := hc
    exact ⟨refuseUndetermined, by simp [call, free, hr, hu]; rfl, .inl rfl⟩
  | map r' offset b =>
    obtain rfl : r' = r := hc
    cases hb : v.backings.find? b with
    | none => exact ⟨_, by simp only [call, VmmProvider.map, hr, hb]; rfl, .inr rfl⟩
    | some =>
      exact ⟨refuseUndetermined, by simp [call, VmmProvider.map, hr, hb, hu]; rfl, .inl rfl⟩
  | setAccess r' =>
    obtain rfl : r' = r := hc
    exact ⟨refuseUndetermined, by simp [call, setAccess, hr, hu]; rfl, .inl rfl⟩
  | unmap r' =>
    obtain rfl : r' = r := hc
    exact ⟨refuseUndetermined, by simp [call, VmmProvider.unmap, hr, hu]; rfl, .inl rfl⟩
  | reserve | create | release => exact hc.elim

theorem refused_backing {c : Call} (h : Ok x v) (hb : v.backings.find? b = some backing)
    (hu : backing.undetermined = true) (hc : c.onBacking v b) : Refused x v c := by
  cases c with
  | release b' =>
    obtain rfl : b' = b := hc
    intro d
    exact ⟨refuseUndetermined, by simp [call, release, hb, hu]; rfl, .inl rfl⟩
  | map r offset b' =>
    obtain rfl : b' = b := hc
    intro d
    cases hr : v.reservations.find? r with
    | none => exact ⟨_, by simp only [call, VmmProvider.map, hr, hb]; rfl, .inr rfl⟩
    | some =>
      exact ⟨refuseUndetermined, by simp [call, VmmProvider.map, hr, hb, hu]; rfl, .inl rfl⟩
  | setAccess r =>
    -- The mapping's reservation is undetermined with the backing.
    obtain ⟨at_, m, ⟨place, hr, hm⟩, rfl, -⟩ := hc
    exact refused_reservation hr (h.frozen r place at_ m backing hr hm hb hu) rfl
  | unmap r =>
    obtain ⟨at_, m, ⟨place, hr, hm⟩, rfl, -⟩ := hc
    exact refused_reservation hr (h.frozen r place at_ m backing hr hm hb hu) rfl
  | reserve | create | free => exact hc.elim

theorem refused_mapped {off : Nat} {m : Mapping} (h : Ok x v)
    (hat : At v.reservations.find? r off m) :
    Refused x v (.free r) ∧ Refused x v (.release m.backing) := by
  obtain ⟨backing, hb, hmap, -⟩ := h.names r off m hat
  obtain ⟨place, hr, hm⟩ := hat
  constructor
  · intro d
    have hfull : place.mappings.isEmpty = false := by
      cases hempty : place.mappings.isEmpty with
      | false => rfl
      | true =>
        rw [isEmpty_find hempty] at hm
        cases hm
    cases hu : place.undetermined with
    | true => exact ⟨refuseUndetermined, by simp [call, free, hr, hu]; rfl, .inl rfl⟩
    | false => exact ⟨_, by simp only [call, free, hr, hu, hfull]; rfl, .inr rfl⟩
  intro d
  cases hu : backing.undetermined with
  | true => exact ⟨refuseUndetermined, by simp [call, release, hb, hu]; rfl, .inl rfl⟩
  | false => exact ⟨_, by simp only [call, release, hb, hu, hmap]; rfl, .inr rfl⟩

/-- The provider's integrity at a state: of its records, of the next call whatever its
    arguments and the driver's answers, and of every later state. -/
structure Integrity (x : Layout) (v : VmmProvider) : Prop where
  /-- Mappings are aligned and inside their reservation. -/
  inside : ∀ r place off m, v.reservations.find? r = some place →
    place.mappings.find? off = some m → x.granularity.value ∣ off ∧
      x.granularity.value ∣ m.size.value ∧ off + m.size.value ≤ place.size.value
  /-- Mappings of one reservation are pairwise disjoint. -/
  disjoint : ∀ r place off off' m m', v.reservations.find? r = some place →
    place.mappings.find? off = some m → place.mappings.find? off' = some m' → off ≠ off' →
      Disjoint (Set.Ico off (off + m.size.value)) (Set.Ico off' (off' + m'.size.value))
  /-- A backing is mapped if and only if exactly one mapping names it, with its size. -/
  mapped : ∀ b backing, v.backings.find? b = some backing → (backing.mapped = true ↔
    ∃! p : ReservationId × Nat, ∃ m, At v.reservations.find? p.1 p.2 m ∧ m.backing = b ∧
      m.size = backing.size)
  /-- An unmapped backing is named by no mapping, and a mapping names a recorded backing. -/
  unmapped : ∀ b, (∀ backing, v.backings.find? b = some backing → backing.mapped = false) →
    ∀ r off m, At v.reservations.find? r off m → m.backing ≠ b
  /-- No check fires; a known failure changes nothing; a record goes only while no mapping is
      in it or names it. -/
  call : ∀ d c, ∃ answer v', VmmProvider.call x v d c = .ok (answer, v') ∧
    (∀ failure, answer = .error failure → failure.error ≠ .unknown → v' = v) ∧
    (∀ r place, v.reservations.find? r = some place → v'.reservations.find? r = none →
      ∀ off m, ¬At v.reservations.find? r off m) ∧
    ∀ b backing, v.backings.find? b = some backing → v'.backings.find? b = none →
      ∀ r off m, At v.reservations.find? r off m → m.backing ≠ b
  /-- Nor is the driver asked to free or release one while a mapping is. -/
  asked : ∀ r off m, At v.reservations.find? r off m →
    Refused x v (.free r) ∧ Refused x v (.release m.backing)
  /-- What becomes undetermined stays so, and is refused, in every later state. -/
  reservation : ∀ r place v', v.reservations.find? r = some place → place.undetermined = true →
    Runs x v v' → (∃ place', v'.reservations.find? r = some place' ∧ place'.undetermined = true) ∧
      v'.rangeOf r = .error refuseUndetermined ∧ ∀ c, Call.onReservation r c → Refused x v' c
  backing : ∀ b backing v', v.backings.find? b = some backing → backing.undetermined = true →
    Runs x v v' → (∃ backing', v'.backings.find? b = some backing' ∧
      backing'.undetermined = true) ∧ ∀ c, Call.onBacking v' b c → Refused x v' c

/-- **Every state a run of calls reaches keeps the provider's integrity.** -/
theorem runs_integrity (h : Runs x initial v) : Integrity x v := by
  have hok : Ok x v := h.ok Sound.ofInitial
  constructor
  · intro r place off m hr hm
    obtain ⟨hoff, hsize, -, hin⟩ := hok.fits r place off m hr hm
    exact ⟨Nat.dvd_of_mod_eq_zero hoff, Nat.dvd_of_mod_eq_zero hsize, hin⟩
  · intro r place off off' m m' hr hm hm' hne
    rw [Set.disjoint_left]
    rintro k ⟨hk, hk'⟩ ⟨hl, hl'⟩
    rcases Nat.lt_or_gt_of_ne hne with hlt | hlt
    · have := hok.apart r place off off' m m' hr hm hm' hlt
      omega
    have := hok.apart r place off' off m' m hr hm' hm hlt
    omega
  · intro b backing hb
    constructor
    · intro hmap
      obtain ⟨r, off, m, hat, rfl⟩ := hok.flag b backing hb hmap
      obtain ⟨backing', hb', -, hsize⟩ := hok.names r off m hat
      cases hb.symm.trans hb'
      refine ⟨(r, off), ⟨m, hat, rfl, hsize.symm⟩, ?_⟩
      rintro ⟨r', off'⟩ ⟨m', hat', hname, -⟩
      obtain ⟨rfl, rfl⟩ := hok.once r' r off' off m' m hat' hat hname
      rfl
    rintro ⟨p, ⟨m, hat, rfl, -⟩, -⟩
    obtain ⟨backing', hb', hmap, -⟩ := hok.names p.1 p.2 m hat
    cases hb.symm.trans hb'
    exact hmap
  · rintro b hunm r off m hat rfl
    obtain ⟨backing, hb, hmap, -⟩ := hok.names r off m hat
    simp [hunm backing hb] at hmap
  · intro d c
    have hsat := call_sat hok d c
    rcases hcall : VmmProvider.call x v d c with _ | result
    · rw [hcall] at hsat
      exact hsat.elim
    obtain ⟨answer, v'⟩ := result
    have hleaves := hsat.val hcall
    refine ⟨answer, v', rfl, ?_, ?_, ?_⟩
    · intro failure hfail hknown
      exact hleaves.known failure hfail (by simpa [Failure.isUnknown] using hknown)
    · rintro r place hr hgone off m ⟨p, hp, hm⟩
      cases hr.symm.trans hp
      rcases hleaves.reservation r place hr with ⟨place', hr', -⟩ | ⟨-, hempty⟩
      · cases hgone.symm.trans hr'
      · cases (hempty off).symm.trans hm
    intro b backing hb hgone
    rcases hleaves.backing b backing hb with ⟨backing', hb', -⟩ | ⟨-, hmap⟩
    · cases hgone.symm.trans hb'
    · exact hok.unnamed hb hmap
  · intro r off m hat
    exact refused_mapped hok hat
  · intro r place v' hr hu hruns
    obtain ⟨place', hr', hu'⟩ := hruns.frozenReservation hok hr hu
    refine ⟨⟨place', hr', hu'⟩, by simp [rangeOf, hr', hu'], ?_⟩
    intro c hc
    exact refused_reservation hr' hu' hc
  intro b backing v' hb hu hruns
  obtain ⟨backing', hb', hu'⟩ := hruns.frozenBacking hok hb hu
  refine ⟨⟨backing', hb', hu'⟩, ?_⟩
  intro c hc
  exact refused_backing (hruns.ok hok) hb' hu' hc

def oneClass : Layout where
  classes := [{ kind := .device, granularity := .ofNat 4096 }]
  granularity := .ofNat 4096
  positive := by decide
  divides := by simp

def lossyDriver : Driver where
  doReserve _ := .ok 65536
  doFree _ _ := .ok ()
  doCreate _ _ := .ok 7
  doRelease _ _ := .ok ()
  doMap _ _ _ := .ok ()
  doSetAccess _ _ _ _ := .ok ()
  doUnmap _ _ := .error { error := .unknown, detail := "lost" }

def page : Bytes := .ofNat 4096

def lostUnmap : List Call :=
  [.reserve page, .create 0 page, .map ⟨0, 1⟩ Bytes.zero ⟨0, 1⟩, .unmap ⟨0, 1⟩ Bytes.zero page]

def after (x : Layout) (d : Driver) (v : VmmProvider) : List Call → VmmProvider
  | [] => v
  | c :: rest =>
    match VmmProvider.call x v d c with
    | .ok (_, v') => after x d v' rest
    | .error _ => v

theorem runs_after {x : Layout} {d : Driver} {v0 : VmmProvider} :
    ∀ {calls : List Call} {v : VmmProvider}, Runs x v0 v → Runs x v0 (after x d v calls) := by
  intro calls
  induction calls with
  | nil =>
    intro v h
    exact h
  | cons c rest ih =>
    intro v h
    unfold after
    split
    next answer v' hcall =>
      exact ih (h.call hcall)
    · exact h

theorem runs_integrity_lostUnmap :
    ((after oneClass lossyDriver initial lostUnmap).backings.find? ⟨0, 1⟩).map
        (fun backing => (backing.mapped, backing.undetermined)) = some (true, true) ∧
      Integrity oneClass (after oneClass lossyDriver initial lostUnmap) :=
  ⟨by decide, runs_integrity (runs_after (.refl initial))⟩

end JitLlm.Providers.VmmProvider
