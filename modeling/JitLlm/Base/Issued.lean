import JitLlm.Base.Ids

/-!
# How many identities a table can issue

An identity is a slot and a generation of it, and none is issued twice, so a table issues fewer
than 2^64 of them in its life. `Issued t n` says that `n` were: each slot has issued as many as its
generation counts, less one while it is free.
-/

namespace JitLlm.Base.SlotTable

open List

variable {tag : Tag} {T : Type} {t t' : SlotTable tag T} {id : Id tag} {v : T} {n : Nat}

structure Issued (t : SlotTable tag T) (n : Nat) : Prop where
  slots : t.slots.length ≤ kMaxSlots
  bound : ∀ s ∈ t.slots, s.generation ≤ uint32Max
  count : n + t.free.length ≤ (t.slots.map Slot.generation).sum

theorem issued_empty : Issued (empty : SlotTable tag T) 0 := by
  refine ⟨Nat.zero_le _, ?_, Nat.le_refl _⟩
  intro s hs
  exact absurd hs (by simp [empty])

theorem sum_generation_le (slots : List (Slot T)) (h : ∀ s ∈ slots, s.generation ≤ uint32Max) :
    (slots.map Slot.generation).sum ≤ slots.length * uint32Max := by
  induction slots with
  | nil => simp
  | cons first rest ih =>
    have hfirst := h first mem_cons_self
    have hrest := ih fun s hs => h s (mem_cons_of_mem _ hs)
    simp only [map_cons, sum_cons, length_cons, Nat.succ_mul]
    omega

theorem Issued.lt (h : t.Issued n) : n < 2 ^ 64 := by
  have hsum := sum_generation_le t.slots h.bound
  have hlen : t.slots.length * uint32Max ≤ uint32Max * uint32Max := Nat.mul_le_mul_right _ h.slots
  have hcount := h.count
  have hmax : uint32Max * uint32Max < 2 ^ 64 := by decide
  omega

theorem sum_generation_set {slots : List (Slot T)} {i : Nat} {s : Slot T} (hs : slots[i]? = some s)
    (s' : Slot T) : ((slots.set i s').map Slot.generation).sum + s.generation =
      (slots.map Slot.generation).sum + s'.generation := by
  induction slots generalizing i with
  | nil => cases hs
  | cons first rest ih =>
    cases i with
    | zero =>
      obtain rfl : first = s := by simpa using hs
      simp only [set_cons_zero, map_cons, sum_cons]
      omega
    | succ i =>
      have hrest := ih (i := i) (by simpa using hs)
      simp only [set_cons_succ, map_cons, sum_cons]
      omega

theorem Issued.set (h : t.Issued n) (id : Id tag) (v : T) : (t.set id v).Issued n := by
  unfold SlotTable.set
  split
  · exact h
  rename_i w hw
  have hslot := find?_eq_some.mp hw
  have hsum := sum_generation_set hslot ⟨id.generation, some v⟩
  simp only at hsum
  refine ⟨?_, ?_, ?_⟩
  · simpa [setSlot] using h.slots
  · intro s hs
    rcases mem_or_eq_of_mem_set hs with hs | rfl
    · exact h.bound s hs
    · exact h.bound ⟨id.generation, some w⟩ (mem_of_getElem? hslot)
  have hcount := h.count
  simp only [setSlot]
  omega

theorem Issued.erase (h : t.Issued n) (id : Id tag) : (t.erase id).Issued n := by
  unfold SlotTable.erase
  split
  · exact h
  rename_i w hw
  have hslot := find?_eq_some.mp hw
  have hle := h.bound ⟨id.generation, some w⟩ (mem_of_getElem? hslot)
  have hcount := h.count
  simp only at hle
  split
  · have hsum := sum_generation_set hslot ⟨id.generation, none⟩
    simp only at hsum
    refine ⟨?_, ?_, ?_⟩
    · simpa [setSlot] using h.slots
    · intro s hs
      rcases mem_or_eq_of_mem_set hs with hs | rfl
      · exact h.bound s hs
      · exact hle
    simp only [setSlot]
    omega
  rename_i hne
  have hsum := sum_generation_set hslot ⟨id.generation + 1, none⟩
  simp only at hsum
  refine ⟨?_, ?_, ?_⟩
  · simpa using h.slots
  · intro s hs
    rcases mem_or_eq_of_mem_set hs with hs | rfl
    · exact h.bound s hs
    show id.generation + 1 ≤ uint32Max
    omega
  simp only [length_append, length_singleton]
  omega

theorem nextFree_length {i : Nat} {rest : List Nat} (h : t.nextFree = some (i, rest)) :
    t.free.length = rest.length + 1 := by
  unfold nextFree at h
  split at h
  · split at h
    · cases h
    rename_i heq
    cases h
    rw [heq]
    rfl
  split at h
  · cases h
  rename_i heq
  cases h
  have hne : t.free ≠ [] := by
    intro hnil
    simp [hnil] at heq
  have hpos := List.length_pos_iff.mpr hne
  rw [length_dropLast]
  omega

theorem Issued.insert (h : t.Issued n) (hins : t.insert v = some (id, t')) : t'.Issued (n + 1) := by
  have hcount := h.count
  unfold SlotTable.insert at hins
  split at hins
  next i rest hfree =>
    cases hins
    obtain ⟨s, hs, -⟩ := t.freeEmpty i (nextFree_spec hfree).1
    have hlen := nextFree_length hfree
    have hsum := sum_generation_set hs ⟨s.generation, some v⟩
    simp only at hsum
    refine ⟨?_, ?_, ?_⟩
    · simpa using h.slots
    · intro s' hs'
      simp only [hs, Option.getD_some] at hs'
      rcases mem_or_eq_of_mem_set hs' with hs' | rfl
      · exact h.bound s' hs'
      · exact h.bound s (mem_of_getElem? hs)
    simp only [hs, Option.getD_some]
    omega
  split at hins
  · cases hins
  split at hins
  · cases hins
  rename_i hroom
  cases hins
  refine ⟨?_, ?_, ?_⟩
  · simp only [length_append, length_singleton]
    omega
  · intro s hs
    rcases List.mem_append.mp hs with hs | hs
    · exact h.bound s hs
    rw [List.mem_singleton.mp hs]
    show 1 ≤ uint32Max
    decide
  simp only [map_append, map_cons, map_nil, sum_append, sum_cons, sum_nil]
  omega

end JitLlm.Base.SlotTable
