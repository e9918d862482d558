import JitLlm.Base.Bytes
import JitLlm.Lib.Tables
import Mathlib.Data.List.Nodup

/-!
# `base/ids.h` — generation-checked identities and the slot table

An identity is an index and the generation its slot had when the identity was issued.
Erasing a slot advances its generation, and a slot whose generation cannot advance is
retired: it keeps its last generation, empty, and is in no free list.

The source's free list is one vector used two ways: a stack (an unbounded table) or, from
`free_head_`, a ring of `free_count_` entries (a bounded one). Here it is the list of those
entries, oldest first; a bounded table takes from the front and an unbounded one from the
back, and both put back at the end. That the free slots are empty and listed once is a field,
so `insert` never overwrites a live value.
-/

namespace JitLlm.Base

open Lib List
open Option (some)

inductive Tag
  | domain | extent | resource | lease | registration | task | operation | reservation | backing
  | grant | request
deriving DecidableEq

/-- `Id<Tag>`; generation 0 is never issued. -/
structure Id (tag : Tag) where
  index : Nat := 0
  generation : Nat := 0
deriving DecidableEq

namespace Id

variable {tag : Tag}

def valid (id : Id tag) : Bool := id.generation != 0

instance : LawfulBEq (Id tag) := inferInstance

/-- The source's defaulted `operator<=>`: by index, then by generation. -/
instance : LinearOrder (Id tag) where
  le a b := a.index < b.index ∨ a.index = b.index ∧ a.generation ≤ b.generation
  lt a b := a.index < b.index ∨ a.index = b.index ∧ a.generation < b.generation
  le_refl a := Or.inr ⟨rfl, Nat.le_refl _⟩
  le_trans a b c := by
    rintro (h | ⟨h, h'⟩) (k | ⟨k, k'⟩)
    · exact Or.inl (h.trans k)
    · exact Or.inl (k ▸ h)
    · exact Or.inl (h ▸ k)
    · exact Or.inr ⟨h.trans k, h'.trans k'⟩
  lt_iff_le_not_ge a b := by
    constructor
    · rintro (h | ⟨h, h'⟩)
      · exact ⟨Or.inl h, by omega⟩
      · exact ⟨Or.inr ⟨h, h'.le⟩, by omega⟩
    rintro ⟨h | ⟨h, h'⟩, hn⟩
    · exact Or.inl h
    · exact Or.inr ⟨h, by omega⟩
  le_antisymm a b := by
    rintro (h | ⟨h, h'⟩) (k | ⟨k, k'⟩)
    · omega
    · omega
    · omega
    cases a
    cases b
    simp only [Id.mk.injEq]
    exact ⟨h, Nat.le_antisymm h' k'⟩
  le_total a b := by omega
  toDecidableLE _ _ := inferInstanceAs (Decidable (_ ∨ _))
  toDecidableLT _ _ := inferInstanceAs (Decidable (_ ∨ _))

theorem eq_of_parts {a b : Id tag} (hi : a.index = b.index) (hg : a.generation = b.generation) :
    a = b := by
  cases a
  cases b
  simp_all

end Id

structure Slot (T : Type) where
  generation : Nat := 1
  value : Option T := none

def kMaxSlots : Nat := uint32Max

/-- `SlotTable<Tag, T>`. -/
structure SlotTable (tag : Tag) (T : Type) where
  bounded : Bool
  slots : List (Slot T)
  free : List Nat
  live : Nat
  retired : Nat
  genPos : ∀ (i : Nat) (s : Slot T), slots[i]? = some s → 0 < s.generation
  freeEmpty : ∀ i ∈ free, ∃ s, slots[i]? = some s ∧ s.value = none
  freeNodup : free.Nodup

namespace SlotTable

variable {tag : Tag} {T : Type} {v : T} {t t' : SlotTable tag T} {id id' : Id tag}

def empty : SlotTable tag T where
  bounded := false
  slots := []
  free := []
  live := 0
  retired := 0
  genPos := by simp
  freeEmpty := by simp
  freeNodup := nodup_nil

/-- A bounded table of `capacity` slots, each at generation 1. -/
def ofCapacity (capacity : Nat) : SlotTable tag T where
  bounded := true
  slots := List.replicate capacity {}
  free := List.range capacity
  live := 0
  retired := 0
  genPos := by
    intro i s h
    rw [(List.eq_replicate_iff.mp rfl).2 s (mem_of_getElem? h)]
    exact Nat.one_pos
  freeEmpty := by
    intro i hi
    exact ⟨{}, by simpa [getElem?_replicate] using hi, rfl⟩
  freeNodup := nodup_range

/-- `Find`. -/
def find? (t : SlotTable tag T) (id : Id tag) : Option T :=
  if !id.valid then none
  else match t.slots[id.index]? with
    | none => none
    | some s => if s.generation = id.generation then s.value else none

theorem find?_eq_some {t : SlotTable tag T} {id : Id tag} :
    t.find? id = some v ↔ t.slots[id.index]? = some ⟨id.generation, some v⟩ := by
  unfold find? Id.valid
  constructor
  · intro h
    split at h
    · cases h
    split at h
    · cases h
    rename_i s hs
    split at h
    next hg =>
      obtain ⟨g, val⟩ := s
      simp_all
    · cases h
  intro h
  have hpos := t.genPos _ _ h
  rw [h]
  have hv : (!(id.generation != 0)) = false := by
    simp only [Bool.not_eq_false', bne_iff_ne]
    exact Nat.ne_of_gt hpos
  simp [hv]

/-- The free slot `Insert` would take, and the free list without it. -/
def nextFree (t : SlotTable tag T) : Option (Nat × List Nat) :=
  if t.bounded then
    match t.free with
    | [] => none
    | i :: rest => some (i, rest)
  else
    match t.free.getLast? with
    | none => none
    | some i => some (i, t.free.dropLast)

theorem nextFree_spec {t : SlotTable tag T} {i : Nat} {rest : List Nat}
    (h : t.nextFree = some (i, rest)) :
    i ∈ t.free ∧ i ∉ rest ∧ rest.Nodup ∧ ∀ j ∈ rest, j ∈ t.free := by
  unfold nextFree at h
  have hnd := t.freeNodup
  split at h
  · split at h
    · cases h
    rename_i j r heq
    obtain ⟨rfl, rfl⟩ := h
    rw [heq] at hnd ⊢
    obtain ⟨hni, hr⟩ := List.nodup_cons.mp hnd
    exact ⟨mem_cons_self, hni, hr, fun k hk => mem_cons_of_mem _ hk⟩
  split at h
  · cases h
  rename_i j heq
  simp only [some.injEq, Prod.mk.injEq] at h
  obtain ⟨rfl, rfl⟩ := h
  have hne : t.free ≠ [] := by
    intro hq
    simp [hq] at heq
  have hsplit : t.free.dropLast ++ [j] = t.free := by
    have hlast := getLast?_eq_some_getLast hne
    rw [heq, some.injEq] at hlast
    rw [hlast]
    exact dropLast_append_getLast hne
  rw [← hsplit] at hnd
  have hdis := List.nodup_append.mp hnd
  refine ⟨?_, ?_, hdis.1, fun k hk => ?_⟩
  · rw [← hsplit]
    simp
  · intro hj
    exact hdis.2.2 j hj j (by simp) rfl
  rw [← hsplit]
  exact mem_append_left _ hk

/-- The slot at `i` with a value put in it, or taken out. -/
def setSlot (t : SlotTable tag T) (i : Nat) (s : Slot T) (hs : 0 < s.generation)
    (hi : i ∉ t.free) : SlotTable tag T where
  bounded := t.bounded
  slots := t.slots.set i s
  free := t.free
  live := t.live
  retired := t.retired
  genPos := by
    intro j s' hj
    rw [getElem?_set] at hj
    split at hj
    · split at hj
      · cases hj
        exact hs
      · cases hj
    · exact t.genPos j s' hj
  freeEmpty := by
    intro j hj
    rw [getElem?_set_ne (fun hq => hi (by rw [hq]; exact hj))]
    exact t.freeEmpty j hj
  freeNodup := t.freeNodup

/-- `Insert`: the new identity and the table, or `none` if the table is exhausted. -/
def insert (t : SlotTable tag T) (v : T) : Option (Id tag × SlotTable tag T) :=
  match h : t.nextFree with
  | some (i, rest) =>
    let g := (t.slots[i]?.getD {}).generation
    some (⟨i, g⟩,
      { bounded := t.bounded
        slots := t.slots.set i ⟨g, some v⟩
        free := rest
        live := t.live + 1
        retired := t.retired
        genPos := by
          intro j s hj
          rw [getElem?_set] at hj
          split at hj
          · split at hj
            · cases hj
              obtain ⟨s₀, hs₀, -⟩ := t.freeEmpty i (nextFree_spec h).1
              simp only [g, hs₀, Option.getD_some]
              exact t.genPos i s₀ hs₀
            · cases hj
          · exact t.genPos j s hj
        freeEmpty := by
          intro j hj
          obtain ⟨-, hni, -, hsub⟩ := nextFree_spec h
          rw [getElem?_set_ne (fun hq => hni (by rw [hq]; exact hj))]
          exact t.freeEmpty j (hsub j hj)
        freeNodup := (nextFree_spec h).2.2.1 })
  | none =>
    if t.bounded then none
    else if t.slots.length ≥ kMaxSlots then none
    else some (⟨t.slots.length, 1⟩,
      { bounded := t.bounded
        slots := t.slots ++ [⟨1, some v⟩]
        free := t.free
        live := t.live + 1
        retired := t.retired
        genPos := by
          intro j s hj
          rw [getElem?_append] at hj
          split at hj
          · exact t.genPos j s hj
          rw [getElem?_singleton] at hj
          split at hj
          · cases hj
            exact Nat.one_pos
          · cases hj
        freeEmpty := by
          intro j hj
          obtain ⟨s, hs, he⟩ := t.freeEmpty j hj
          exact ⟨s, by rw [getElem?_append_left (List.getElem?_eq_some_iff.mp hs).1, hs], he⟩
        freeNodup := t.freeNodup })

theorem not_mem_free_of_find {t : SlotTable tag T} {id : Id tag}
    (h : t.find? id = some v) : id.index ∉ t.free := by
  intro hm
  obtain ⟨s, hs, he⟩ := t.freeEmpty _ hm
  rw [find?_eq_some.mp h, some.injEq] at hs
  rw [← hs] at he
  cases he

theorem gen_pos_of_find {t : SlotTable tag T} {id : Id tag} (h : t.find? id = some v) :
    0 < id.generation :=
  t.genPos _ _ (find?_eq_some.mp h)

/-- Writing through the pointer `Find` gave; a stale identity writes nothing. -/
def set (t : SlotTable tag T) (id : Id tag) (v : T) : SlotTable tag T :=
  match h : t.find? id with
  | none => t
  | some _ =>
    t.setSlot id.index ⟨id.generation, some v⟩ (gen_pos_of_find h) (not_mem_free_of_find h)

/-- `Erase`: the slot emptied and its generation advanced, or the slot retired. -/
def erase (t : SlotTable tag T) (id : Id tag) : SlotTable tag T :=
  match h : t.find? id with
  | none => t
  | some _ =>
    have hnf : id.index ∉ t.free := not_mem_free_of_find h
    have hpos : 0 < id.generation := gen_pos_of_find h
    if id.generation = uint32Max then
      { t.setSlot id.index ⟨id.generation, none⟩ hpos hnf with
        live := t.live - 1
        retired := t.retired + 1 }
    else
      { bounded := t.bounded
        slots := t.slots.set id.index ⟨id.generation + 1, none⟩
        free := t.free ++ [id.index]
        live := t.live - 1
        retired := t.retired
        genPos := (t.setSlot id.index ⟨id.generation + 1, none⟩ (Nat.succ_pos _) hnf).genPos
        freeEmpty := by
          intro j hj
          rcases List.mem_append.mp hj with hj | hj
          · exact (t.setSlot id.index ⟨id.generation + 1, none⟩ (Nat.succ_pos _) hnf).freeEmpty
              j hj
          rw [mem_singleton] at hj
          subst hj
          have hlt := (List.getElem?_eq_some_iff.mp (find?_eq_some.mp h)).1
          exact ⟨⟨id.generation + 1, none⟩, by simp [hlt], rfl⟩
        freeNodup := by
          refine List.nodup_append.mpr ⟨t.freeNodup, by simp, ?_⟩
          intro a ha b hb
          rw [mem_singleton] at hb
          subst hb
          exact fun hq => hnf (hq ▸ ha) }

/-! ## Lookup after each operation -/

theorem find?_set (t : SlotTable tag T) (id id' : Id tag) (v : T) :
    (t.set id v).find? id' = if id' = id then (t.find? id).map (fun _ => v) else t.find? id' := by
  unfold set
  split
  next h =>
    by_cases hq : id' = id
    · subst hq
      simp [h]
    · simp [hq]
  rename_i w h
  by_cases hq : id' = id
  · subst hq
    have hself : (t.find? id').map (fun _ => v) = some v := by simp [h]
    rw [if_pos rfl, hself]
    refine find?_eq_some.mpr ?_
    simp [setSlot, (List.getElem?_eq_some_iff.mp (find?_eq_some.mp h)).1]
  rw [if_neg hq]
  have hslot := find?_eq_some.mp h
  ext x
  rw [find?_eq_some, find?_eq_some]
  simp only [setSlot, getElem?_set]
  by_cases hi : id.index = id'.index
  · rw [if_pos hi, if_pos (List.getElem?_eq_some_iff.mp hslot).1, ← hi, hslot]
    simp only [some.injEq, Slot.mk.injEq]
    constructor <;> intro hc <;> exact absurd (Id.eq_of_parts hi.symm hc.1.symm) hq
  · rw [if_neg hi]

theorem set_self {t : SlotTable tag T} {id : Id tag} (h : t.find? id = some v) :
    t.set id v = t := by
  have hslots : t.slots.set id.index ⟨id.generation, some v⟩ = t.slots := by
    obtain ⟨hlt, hget⟩ := List.getElem?_eq_some_iff.mp (find?_eq_some.mp h)
    rw [← hget, set_getElem_self]
  unfold set
  split
  · rfl
  cases t
  simp only [setSlot, mk.injEq, true_and, and_true]
  exact hslots

theorem find?_erase (t : SlotTable tag T) (id id' : Id tag) :
    (t.erase id).find? id' = if id' = id then none else t.find? id' := by
  unfold erase
  split
  next h =>
    by_cases hq : id' = id
    · subst hq
      simp [h]
    · simp [hq]
  rename_i w h
  have hslot := find?_eq_some.mp h
  have hlt := (List.getElem?_eq_some_iff.mp hslot).1
  -- The erased slot holds no value, whichever generation it now has.
  have key : ∀ (t' : SlotTable tag T) (g : Nat), t'.slots = t.slots.set id.index ⟨g, none⟩ →
      t'.find? id' = if id' = id then none else t.find? id' := by
    intro t' g ht'
    ext x
    rw [find?_eq_some, ht', getElem?_set]
    by_cases hi : id.index = id'.index
    · rw [if_pos hi, if_pos hlt]
      by_cases hq : id' = id
      · simp [hq]
      rw [if_neg hq, find?_eq_some, ← hi, hslot]
      simp only [some.injEq, Slot.mk.injEq]
      constructor
      · intro hc
        cases hc.2
      intro hc
      exact absurd (Id.eq_of_parts hi.symm hc.1.symm) hq
    have hq : id' ≠ id := fun hq => hi (by rw [hq])
    rw [if_neg hi, if_neg hq, find?_eq_some]
  split
  · exact key _ id.generation rfl
  · exact key _ (id.generation + 1) rfl

theorem insert_spec {t t' : SlotTable tag T} {id : Id tag} (h : t.insert v = some (id, t')) :
    (∃ s : Slot T, s.generation = id.generation ∧ s.value = none ∧
        t.slots[id.index]? = some s ∧ id.index ∈ t.free ∧ id.index ∉ t'.free ∧
        (∀ j ∈ t'.free, j ∈ t.free) ∧
        t'.slots = t.slots.set id.index ⟨id.generation, some v⟩) ∨
      (id.index = t.slots.length ∧ id.generation = 1 ∧ t'.free = t.free ∧
        t'.slots = t.slots ++ [⟨1, some v⟩]) := by
  unfold insert at h
  split at h
  next i rest hnext =>
    obtain ⟨rfl, rfl⟩ := h
    obtain ⟨hmem, hni, -, hsub⟩ := nextFree_spec hnext
    obtain ⟨s, hs, he⟩ := t.freeEmpty i hmem
    exact Or.inl ⟨s, by simp [hs], he, hs, hmem, hni, hsub, rfl⟩
  split at h
  · cases h
  split at h
  · cases h
  simp only [some.injEq, Prod.mk.injEq] at h
  obtain ⟨rfl, rfl⟩ := h
  exact Or.inr ⟨rfl, rfl, rfl, rfl⟩

theorem find?_insert {t t' : SlotTable tag T} {id : Id tag}
    (h : t.insert v = some (id, t')) (id' : Id tag) :
    t'.find? id' = if id' = id then some v else t.find? id' := by
  ext x
  rcases insert_spec h with ⟨s, hg, he, hs, -, -, -, hslots⟩ | ⟨hi, hg, -, hslots⟩
  · have hlt := (List.getElem?_eq_some_iff.mp hs).1
    rw [find?_eq_some, hslots, getElem?_set]
    by_cases hix : id.index = id'.index
    · rw [if_pos hix, if_pos hlt]
      by_cases hq : id' = id
      · simp [hq]
      rw [if_neg hq, find?_eq_some, ← hix, hs]
      have hsn : s = ⟨s.generation, none⟩ := by
        cases s
        simp_all
      rw [hsn]
      simp only [some.injEq, Slot.mk.injEq]
      constructor
      · intro hc
        exact absurd (Id.eq_of_parts hix.symm hc.1.symm) hq
      intro hc
      cases hc.2
    have hq : id' ≠ id := fun hq => hix (by rw [hq])
    rw [if_neg hix, if_neg hq, find?_eq_some]
  rw [find?_eq_some, hslots]
  by_cases hix : id'.index = id.index
  · rw [hix, hi, getElem?_append_right (Nat.le_refl _)]
    simp only [Nat.sub_self, getElem?_cons_zero, some.injEq, Slot.mk.injEq]
    by_cases hq : id' = id
    · subst hq
      simp [hg]
    rw [if_neg hq, find?_eq_some, hix, hi]
    constructor
    · intro hc
      exact absurd (Id.eq_of_parts hix (by rw [hg]; exact hc.1.symm)) hq
    intro hc
    exact absurd (List.getElem?_eq_some_iff.mp hc).1 (Nat.lt_irrefl _)
  have hq : id' ≠ id := fun hq => hix (by rw [hq])
  rw [if_neg hq, find?_eq_some, getElem?_append]
  split
  · rfl
  rename_i hge
  rw [getElem?_eq_none (l := t.slots) (by omega), getElem?_singleton, if_neg (by omega)]

theorem find?_insert_fresh {t t' : SlotTable tag T} {id : Id tag}
    (h : t.insert v = some (id, t')) : t.find? id = none := by
  rcases hf : t.find? id with _ | _
  · rfl
  have hw := find?_eq_some.mp hf
  rcases insert_spec h with ⟨s, -, he, hs, -⟩ | ⟨hi, -⟩
  · rw [hw, some.injEq] at hs
    rw [← hs] at he
    cases he
  · exact absurd (List.getElem?_eq_some_iff.mp hw).1 (by omega)

theorem find?_of_not_valid {t : SlotTable tag T} {id : Id tag} (h : id.valid = false) :
    t.find? id = none := by
  simp [find?, h]

/-! ## Totals -/

/-- The total of `f` over the live values. -/
def sum (t : SlotTable tag T) (f : T → Nat) : Nat := (t.slots.map (fun s => cellVal f s.value)).sum

@[simp] theorem sum_empty (f : T → Nat) : (empty : SlotTable tag T).sum f = 0 := rfl

theorem sum_set {t : SlotTable tag T} {id : Id tag} {v w : T} (f : T → Nat)
    (h : t.find? id = some w) : (t.set id v).sum f + f w = t.sum f + f v := by
  have hs := find?_eq_some.mp h
  have := sum_map_set (fun s : Slot T => cellVal f s.value) ⟨id.generation, some v⟩ hs
  unfold set
  split
  next hn =>
    rw [h] at hn
    cases hn
  · simpa [sum, setSlot] using this

theorem sum_insert {t t' : SlotTable tag T} {id : Id tag} (f : T → Nat)
    (h : t.insert v = some (id, t')) : t'.sum f = t.sum f + f v := by
  unfold sum
  rcases insert_spec h with ⟨s, -, he, hs, -, -, -, hslots⟩ | ⟨-, -, -, hslots⟩
  · have := sum_map_set (fun s : Slot T => cellVal f s.value) ⟨id.generation, some v⟩ hs
    rw [hslots]
    simp only [he, cellVal_none, cellVal_some] at this
    omega
  rw [hslots]
  simp

theorem sum_erase {t : SlotTable tag T} {id : Id tag} {w : T} (f : T → Nat)
    (h : t.find? id = some w) : (t.erase id).sum f + f w = t.sum f := by
  have hs := find?_eq_some.mp h
  have key : ∀ g : Nat, ((t.slots.set id.index ⟨g, none⟩).map
      (fun s => cellVal f s.value)).sum + f w = t.sum f := by
    intro g
    have := sum_map_set (fun s : Slot T => cellVal f s.value) ⟨g, none⟩ hs
    simpa [sum] using this
  unfold erase
  split
  next hn =>
    rw [h] at hn
    cases hn
  split
  · exact key id.generation
  · exact key (id.generation + 1)

theorem sum_congr {t : SlotTable tag T} {f g : T → Nat}
    (h : ∀ id v, t.find? id = some v → f v = g v) : t.sum f = t.sum g := by
  refine congrArg List.sum (map_congr_left fun s hs => ?_)
  obtain ⟨i, hi, rfl⟩ := getElem_of_mem hs
  cases hv : t.slots[i].value with
  | none => rfl
  | some v =>
    refine h ⟨i, t.slots[i].generation⟩ v (find?_eq_some.mpr ?_)
    rw [getElem?_eq_getElem hi, ← hv]

@[simp] theorem sum_zero (t : SlotTable tag T) : t.sum (fun _ => 0) = 0 := by
  refine sum_eq_zero fun n hn => ?_
  obtain ⟨s, -, rfl⟩ := List.mem_map.mp hn
  cases s.value <;> rfl

theorem sum_add (t : SlotTable tag T) (f g : T → Nat) :
    t.sum (fun v => f v + g v) = t.sum f + t.sum g := by
  unfold sum
  induction t.slots with
  | nil => rfl
  | cons s rest ih =>
    simp only [map_cons, sum_cons, ih]
    cases s.value with
    | none => simp only [cellVal_none, Nat.zero_add]
    | some =>
      simp only [cellVal_some]
      omega

theorem le_sum {t : SlotTable tag T} {id : Id tag} (f : T → Nat)
    (h : t.find? id = some v) : f v ≤ t.sum f := by
  have := sum_erase f h
  omega

/-! ## The live values in order -/

/-- What `ForEach` visits: every live value with its identity, in index order. -/
def entries (t : SlotTable tag T) : List (Id tag × T) :=
  t.slots.zipIdx.filterMap fun p => p.1.value.map fun v => (⟨p.2, p.1.generation⟩, v)

theorem mem_entries {t : SlotTable tag T} {id : Id tag} :
    (id, v) ∈ t.entries ↔ t.find? id = some v := by
  unfold entries
  rw [find?_eq_some, mem_filterMap]
  constructor
  · rintro ⟨⟨s, i⟩, hmem, heq⟩
    obtain ⟨v', hv, hpair⟩ := Option.map_eq_some_iff.mp heq
    cases hpair
    have hslot := List.mem_zipIdx_iff_getElem?.mp hmem
    cases s
    simp only at hv hslot
    rw [hv] at hslot
    exact hslot
  intro h
  exact ⟨(⟨id.generation, some v⟩, id.index), List.mem_zipIdx_iff_getElem?.mpr h, rfl⟩

theorem entries_nodup (t : SlotTable tag T) : (t.entries.map Prod.fst).Nodup := by
  have hindex : ((t.entries.map Prod.fst).map Id.index).Sublist (t.slots.zipIdx.map Prod.snd) := by
    unfold entries
    generalize t.slots.zipIdx = l
    induction l with
    | nil => exact .refl _
    | cons p rest ih =>
      obtain ⟨⟨g, o⟩, i⟩ := p
      cases o with
      | none => exact ih.cons _
      | some => exact ih.cons_cons _
  have hsnd : (t.slots.zipIdx.map Prod.snd).Nodup := by
    rw [zipIdx_map_snd]
    exact nodup_range'
  exact List.Nodup.of_map _ (hindex.nodup hsnd)

theorem entries_perm {l : List (Id tag × T)} (hl : (l.map Prod.fst).Nodup)
    (h : ∀ id v, (id, v) ∈ l ↔ t.find? id = some v) : t.entries.Perm l := by
  refine (perm_ext_iff_of_nodup (List.Nodup.of_map _ t.entries_nodup)
    (List.Nodup.of_map _ hl)).mpr ?_
  rintro ⟨id, v⟩
  rw [mem_entries, h]

theorem entries_insert {t' : SlotTable tag T} {id : Id tag}
    (h : t.insert v = some (id, t')) : t'.entries.Perm ((id, v) :: t.entries) := by
  have hfresh := find?_insert_fresh h
  refine entries_perm ?_ fun id' v' => ?_
  · rw [map_cons, nodup_cons]
    refine ⟨fun hmem => ?_, t.entries_nodup⟩
    obtain ⟨⟨id', w⟩, hw, rfl⟩ := List.mem_map.mp hmem
    rw [mem_entries, hfresh] at hw
    cases hw
  rw [mem_cons, mem_entries, find?_insert h]
  by_cases hid : id' = id
  · subst hid
    simp [hfresh, eq_comm]
  · simp [hid]

theorem entries_erase {id : Id tag} (h : t.find? id = some v) :
    t.entries.Perm ((id, v) :: (t.erase id).entries) := by
  have hnone : (t.erase id).find? id = none := by rw [find?_erase, if_pos rfl]
  refine entries_perm ?_ fun id' v' => ?_
  · rw [map_cons, nodup_cons]
    refine ⟨fun hmem => ?_, (t.erase id).entries_nodup⟩
    obtain ⟨⟨id', w⟩, hw, rfl⟩ := List.mem_map.mp hmem
    rw [mem_entries, hnone] at hw
    cases hw
  rw [mem_cons, mem_entries, find?_erase]
  by_cases hid : id' = id
  · subst hid
    simp [h, eq_comm]
  · simp [hid]

theorem entries_set {id : Id tag} {v w : T} (h : t.find? id = some w) :
    (t.set id v).entries.Perm (t.entries.map fun p => if p.1 = id then (id, v) else p) := by
  have hfst : (t.entries.map fun p => if p.1 = id then (id, v) else p).map Prod.fst
      = t.entries.map Prod.fst := by
    rw [map_map]
    refine map_congr_left fun p _ => ?_
    by_cases hp : p.1 = id
    · simp [hp]
    · simp [hp]
  refine entries_perm (hfst ▸ t.entries_nodup) fun id' v' => ?_
  rw [mem_map, find?_set, h]
  constructor
  · rintro ⟨⟨id1, v1⟩, hmem, heq⟩
    by_cases hid : id1 = id
    · simp only [hid, if_true, Prod.mk.injEq] at heq
      simp [heq.1.symm, heq.2]
    simp only [hid, if_false, Prod.mk.injEq] at heq
    rw [if_neg (heq.1 ▸ hid), ← heq.1, ← heq.2]
    exact mem_entries.mp hmem
  intro hfind
  by_cases hid : id' = id
  · subst hid
    refine ⟨(id', w), mem_entries.mpr h, ?_⟩
    simpa using hfind
  rw [if_neg hid] at hfind
  exact ⟨(id', v'), mem_entries.mpr hfind, by simp [hid]⟩

/-! ## Identities given out -/

def Past (t : SlotTable tag T) (id : Id tag) : Prop :=
  ∃ s, t.slots[id.index]? = some s ∧
    (id.generation < s.generation ∨ id.generation = s.generation ∧ id.index ∉ t.free)

theorem past_of_find (h : t.find? id = some v) : t.Past id :=
  ⟨_, find?_eq_some.mp h, .inr ⟨rfl, not_mem_free_of_find h⟩⟩

def Onward (t t' : SlotTable tag T) : Prop := ∀ id, t.Past id → t'.Past id

theorem Onward.refl (t : SlotTable tag T) : t.Onward t := fun _ h => h

theorem Onward.trans {t'' : SlotTable tag T} (h : t.Onward t') (h' : t'.Onward t'') :
    t.Onward t'' := fun id hid => h' id (h id hid)

theorem onward_set (id : Id tag) (v : T) : t.Onward (t.set id v) := by
  rintro id' ⟨s, hs, hid⟩
  unfold SlotTable.set
  split
  · exact ⟨s, hs, hid⟩
  rename_i w hw
  have hslot := find?_eq_some.mp hw
  by_cases hi : id.index = id'.index
  · rw [← hi, hslot] at hs
    cases hs
    refine ⟨⟨id.generation, some v⟩, ?_, hid⟩
    show (t.slots.set id.index _)[id'.index]? = _
    rw [← hi, getElem?_set_self (List.getElem?_eq_some_iff.mp hslot).1]
  refine ⟨s, ?_, hid⟩
  show (t.slots.set id.index _)[id'.index]? = _
  rw [getElem?_set_ne hi, hs]

theorem onward_erase (id : Id tag) : t.Onward (t.erase id) := by
  rintro id' ⟨s, hs, hid⟩
  unfold SlotTable.erase
  split
  · exact ⟨s, hs, hid⟩
  rename_i w hw
  have hslot := find?_eq_some.mp hw
  have hlt := (List.getElem?_eq_some_iff.mp hslot).1
  split
  · by_cases hi : id.index = id'.index
    · rw [← hi, hslot] at hs
      cases hs
      refine ⟨⟨id.generation, none⟩, ?_, hid⟩
      show (t.slots.set id.index _)[id'.index]? = _
      rw [← hi, getElem?_set_self hlt]
    refine ⟨s, ?_, hid⟩
    show (t.slots.set id.index _)[id'.index]? = _
    rw [getElem?_set_ne hi, hs]
  by_cases hi : id.index = id'.index
  · rw [← hi, hslot] at hs
    cases hs
    refine ⟨⟨id.generation + 1, none⟩, ?_, .inl ?_⟩
    · show (t.slots.set id.index _)[id'.index]? = _
      rw [← hi, getElem?_set_self hlt]
    simp only at hid ⊢
    omega
  refine ⟨s, ?_, hid.imp_right fun h => ⟨h.1, ?_⟩⟩
  · show (t.slots.set id.index _)[id'.index]? = _
    rw [getElem?_set_ne hi, hs]
  simp only [mem_append, mem_singleton, not_or]
  exact ⟨h.2, fun heq => hi heq.symm⟩

theorem onward_insert (h : t.insert v = some (id, t')) : t.Onward t' ∧ ¬t.Past id := by
  unfold SlotTable.insert at h
  split at h
  next i rest hfree =>
    cases h
    obtain ⟨hmem, -, -, hsub⟩ := nextFree_spec hfree
    obtain ⟨s, hs, -⟩ := t.freeEmpty i hmem
    have hlt := (List.getElem?_eq_some_iff.mp hs).1
    constructor
    · rintro id' ⟨s', hs', hid⟩
      by_cases hi : i = id'.index
      · rw [← hi, hs] at hs'
        cases hs'
        refine ⟨⟨s.generation, some v⟩, ?_, hid.imp_right fun h => ⟨h.1, fun hr => h.2 (hsub _ hr)⟩⟩
        rw [← hi, getElem?_set_self hlt, hs]
        rfl
      refine ⟨s', ?_, hid.imp_right fun h => ⟨h.1, fun hr => h.2 (hsub _ hr)⟩⟩
      rw [getElem?_set_ne hi, hs']
    rintro ⟨s', hs', hid⟩
    simp only [hs, Option.getD_some] at hs' hid
    cases hs'
    rcases hid with hid | hid
    · exact absurd hid (Nat.lt_irrefl _)
    · exact hid.2 hmem
  split at h
  · cases h
  split at h
  · cases h
  cases h
  constructor
  · rintro id' ⟨s', hs', hid⟩
    refine ⟨s', ?_, hid⟩
    rw [getElem?_append_left (List.getElem?_eq_some_iff.mp hs').1, hs']
  rintro ⟨s', hs', -⟩
  simp at hs'

/-! ## Identities never issued again -/

def Gone (t : SlotTable tag T) (id : Id tag) : Prop :=
  ∃ s, t.slots[id.index]? = some s ∧ (id.generation < s.generation ∨
    id.generation = s.generation ∧ s.value = none ∧ id.index ∉ t.free)

theorem gone_iff : t.Gone id ↔ t.Past id ∧ t.find? id = none := by
  constructor
  · rintro ⟨s, hs, hor⟩
    refine ⟨⟨s, hs, hor.imp_right fun h => ⟨h.1, h.2.2⟩⟩, ?_⟩
    refine Option.eq_none_iff_forall_ne_some.mpr fun v hv => ?_
    rw [find?_eq_some.mp hv, some.injEq] at hs
    subst hs
    rcases hor with hlt | ⟨-, hnone, -⟩
    · exact Nat.lt_irrefl _ hlt
    · cases hnone
  rintro ⟨⟨s, hs, hor⟩, hnone⟩
  refine ⟨s, hs, hor.imp_right fun h => ⟨h.1, ?_, h.2⟩⟩
  refine Option.eq_none_iff_forall_ne_some.mpr fun v hv => ?_
  obtain ⟨g, value⟩ := s
  simp only at h hv
  rw [find?_eq_some.mpr (by rw [hs, h.1, hv])] at hnone
  cases hnone

theorem Gone.find (h : t.Gone id) : t.find? id = none := (gone_iff.mp h).2

theorem Gone.set (h : t.Gone id) (id' : Id tag) (v : T) : (t.set id' v).Gone id := by
  obtain ⟨hpast, hnone⟩ := gone_iff.mp h
  refine gone_iff.mpr ⟨onward_set id' v id hpast, ?_⟩
  rw [find?_set]
  split
  next heq => rw [← heq, hnone, Option.map_none]
  · exact hnone

theorem Gone.insert (h : t.Gone id) (hins : t.insert v = some (id', t')) : t'.Gone id := by
  obtain ⟨hpast, hnone⟩ := gone_iff.mp h
  obtain ⟨honward, hnew⟩ := onward_insert hins
  refine gone_iff.mpr ⟨honward id hpast, ?_⟩
  rw [find?_insert hins, if_neg, hnone]
  rintro rfl
  exact hnew hpast

theorem Gone.erase (h : t.Gone id) (id' : Id tag) : (t.erase id').Gone id := by
  obtain ⟨hpast, hnone⟩ := gone_iff.mp h
  refine gone_iff.mpr ⟨onward_erase id' id hpast, ?_⟩
  rw [find?_erase, hnone, ite_self]

theorem gone_of_erase (h : t.find? id = some v) : (t.erase id).Gone id :=
  gone_iff.mpr ⟨onward_erase id id (past_of_find h), by rw [find?_erase, if_pos rfl]⟩

end SlotTable
end JitLlm.Base
