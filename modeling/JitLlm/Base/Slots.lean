import JitLlm.Base.Issued

/-!
# A table's identities over whole runs

A run is any inserts and erasures of a table, recorded. What `Find` answers is what the record says,
no identity is issued twice, and every slot is live, free or retired.
-/

namespace JitLlm.Base.SlotTable

open List

variable {tag : Tag} {T : Type}

/-- A bounded table whose slots start at generation `first`. -/
def starting (capacity first : Nat) (hfirst : 0 < first) : SlotTable tag T where
  bounded := true
  slots := replicate capacity { generation := first }
  free := range capacity
  live := 0
  retired := 0
  genPos i s h := by
    rw [eq_of_mem_replicate (mem_of_getElem? h)]
    exact hfirst
  freeEmpty i hi := ⟨{ generation := first }, by simpa [getElem?_replicate] using hi, rfl⟩
  freeNodup := nodup_range

/-- A table as constructed: unbounded, or bounded with what its check requires. -/
def Fresh (t : SlotTable tag T) : Prop :=
  t = empty ∨ ∃ capacity first hfirst, 0 < capacity ∧ capacity ≤ kMaxSlots ∧ first ≤ uint32Max ∧
    t = starting capacity first hfirst

inductive Op (tag : Tag) (T : Type)
  | insert (v : T)
  | erase (id : Id tag)

inductive Event (tag : Tag) (T : Type)
  | issued (id : Id tag) (v : T)
  | refused
  | erased (id : Id tag)

def Event.id? : Event tag T → Option (Id tag)
  | issued id _ => some id
  | _ => none

theorem Event.id?_eq_some {e : Event tag T} {id : Id tag} :
    e.id? = some id ↔ ∃ v, e = .issued id v := by
  cases e <;> simp [Event.id?]

/-- A table and what was done with it, the latest first. -/
structure Recorded (tag : Tag) (T : Type) where
  table : SlotTable tag T
  events : List (Event tag T) := []

namespace Recorded

def step (x : Recorded tag T) : Op tag T → Recorded tag T
  | .insert v =>
    match x.table.insert v with
    | some (id, t) => ⟨t, .issued id v :: x.events⟩
    | none => ⟨x.table, .refused :: x.events⟩
  | .erase id => ⟨x.table.erase id, .erased id :: x.events⟩

def run (t : SlotTable tag T) (ops : List (Op tag T)) : Recorded tag T := ops.foldl step ⟨t, []⟩

end Recorded

/-- `v` was put in under `id`, which was not erased since. -/
def Live (events : List (Event tag T)) (id : Id tag) (v : T) : Prop :=
  ∃ later earlier, events = later ++ .issued id v :: earlier ∧ .erased id ∉ later

section Live

variable {events : List (Event tag T)} {e : Event tag T} {id : Id tag} {v : T}

theorem live_cons : Live (e :: events) id v ↔
    e = .issued id v ∨ e ≠ .erased id ∧ Live events id v := by
  constructor
  · rintro ⟨later, earlier, heq, hkeep⟩
    rcases later with _ | ⟨first, later⟩
    · exact Or.inl (List.cons.inj heq).1
    obtain ⟨rfl, rfl⟩ := List.cons.inj heq
    rw [mem_cons, not_or] at hkeep
    exact Or.inr ⟨Ne.symm hkeep.1, later, earlier, rfl, hkeep.2⟩
  rintro (rfl | ⟨hne, later, earlier, rfl, hkeep⟩)
  · exact ⟨[], events, rfl, not_mem_nil⟩
  · exact ⟨e :: later, earlier, rfl, by simp [Ne.symm hne, hkeep]⟩

end Live

/-! ## What a run keeps -/

/-- Every slot is live, free or retired. -/
structure Counted (t : SlotTable tag T) (t₀ : SlotTable tag T) : Prop where
  kind : t.bounded = t₀.bounded
  capacity : t₀.bounded = true → t.slots.length = t₀.slots.length
  live : t.live = t.sum fun _ => 1
  slots : t.live + t.free.length + t.retired = t.slots.length

structure Kept (t₀ : SlotTable tag T) (x : Recorded tag T) : Prop where
  issued : ∃ n, x.table.Issued n
  past : ∀ id v, .issued id v ∈ x.events → x.table.Past id
  distinct : (x.events.filterMap Event.id?).Nodup
  find : ∀ id v, x.table.find? id = some v ↔ Live x.events id v
  exhausted : ∀ later id v earlier, x.events = later ++ .issued id v :: earlier →
    id.generation = uint32Max → ∀ id' v', .issued id' v' ∈ later → id'.index ≠ id.index
  counted : Counted x.table t₀

variable {t t' t₀ : SlotTable tag T} {id : Id tag} {v : T} {x : Recorded tag T}

theorem Counted.insert (h : Counted t t₀) (hins : t.insert v = some (id, t')) : Counted t' t₀ := by
  have hlive := sum_insert (fun _ => 1) hins
  have hslots := h.slots
  have hcount := h.live
  unfold SlotTable.insert at hins
  split at hins
  next i rest hnext =>
    cases hins
    have hlen := nextFree_length hnext
    refine ⟨h.kind, ?_, ?_, ?_⟩
    · simpa using h.capacity
    · rw [hlive, ← hcount]
    simp only [length_set]
    omega
  split at hins
  · cases hins
  rename_i hkind
  split at hins
  · cases hins
  cases hins
  refine ⟨h.kind, fun hb => absurd (h.kind.trans hb) hkind, ?_, ?_⟩
  · rw [hlive, ← hcount]
  simp only [length_append, length_singleton]
  omega

theorem erase_counts (h : t.find? id = some v) :
    (t.erase id).bounded = t.bounded ∧ (t.erase id).slots.length = t.slots.length ∧
      (t.erase id).live = t.live - 1 ∧
      (t.erase id).free.length + (t.erase id).retired = t.free.length + t.retired + 1 := by
  unfold SlotTable.erase
  split
  next hnone =>
    rw [h] at hnone
    cases hnone
  split
  · exact ⟨rfl, length_set, rfl, rfl⟩
  refine ⟨rfl, length_set, rfl, ?_⟩
  simp only [length_append, length_singleton]
  omega

theorem Counted.erase (h : Counted t t₀) (id : Id tag) : Counted (t.erase id) t₀ := by
  cases hfind : t.find? id with
  | none =>
    have hsame : t.erase id = t := by
      unfold SlotTable.erase
      split
      · rfl
      · simp_all
    rwa [hsame]
  | some v =>
    obtain ⟨hkind, hlen, hlive, hrest⟩ := erase_counts hfind
    have hsum := sum_erase (fun _ => 1) hfind
    have hslots := h.slots
    have hcount := h.live
    exact ⟨hkind.trans h.kind, fun hb => hlen.trans (h.capacity hb), by omega, by omega⟩

theorem insert_none (h : t.insert v = none) :
    t.free = [] ∧ (t.bounded = true ∨ kMaxSlots ≤ t.slots.length) := by
  unfold SlotTable.insert at h
  split at h
  · cases h
  rename_i hnext
  constructor
  · unfold nextFree at hnext
    split at hnext
    · split at hnext
      · assumption
      · cases hnext
    split at hnext
    next hlast => exact getLast?_eq_none_iff.mp hlast
    · cases hnext
  split at h
  next hb => exact Or.inl hb
  split at h
  next hfull => exact Or.inr hfull
  · cases h

theorem insert_not_exhausted {id' : Id tag} {n : Nat} (hn : t.Issued n) (hpast : t.Past id)
    (hlast : id.generation = uint32Max) (hins : t.insert v = some (id', t')) :
    id'.index ≠ id.index := by
  intro heq
  obtain ⟨s, hs, hor⟩ := hpast
  have hle := hn.bound s (mem_of_getElem? hs)
  rcases insert_spec hins with ⟨-, -, -, -, hfree, -⟩ | ⟨hi, -⟩
  · rcases hor with hlt | ⟨-, hnot⟩
    · omega
    · exact hnot (heq ▸ hfree)
  have := (List.getElem?_eq_some_iff.mp hs).1
  omega

/-- An event on a table whose identities go onward. -/
theorem Kept.record (h : Kept t₀ x) (e : Event tag T) (honward : x.table.Onward t)
    (hissued : ∃ n, t.Issued n) (hnew : ∀ id v, e = .issued id v → t.Past id ∧ ¬x.table.Past id ∧
      ∀ id', x.table.Past id' → id'.generation = uint32Max → id.index ≠ id'.index)
    (hfind : ∀ id v, t.find? id = some v ↔ Live (e :: x.events) id v) (hcounted : Counted t t₀) :
    Kept t₀ ⟨t, e :: x.events⟩ := by
  refine ⟨hissued, ?_, ?_, hfind, ?_, hcounted⟩
  · intro id v hmem
    rcases mem_cons.mp hmem with heq | hmem
    · exact (hnew id v heq.symm).1
    · exact honward _ (h.past id v hmem)
  · rcases hid : e.id? with _ | id
    · rw [filterMap_cons_none hid]
      exact h.distinct
    rw [filterMap_cons_some hid, nodup_cons]
    refine ⟨fun hmem => ?_, h.distinct⟩
    obtain ⟨v, rfl⟩ := Event.id?_eq_some.mp hid
    obtain ⟨e', he', hid'⟩ := mem_filterMap.mp hmem
    obtain ⟨v', rfl⟩ := Event.id?_eq_some.mp hid'
    exact (hnew id v rfl).2.1 (h.past id v' he')
  intro later id v earlier heq hlast id' v' hmem
  rcases later with _ | ⟨first, later⟩
  · cases hmem
  obtain ⟨hfirst, hrest⟩ := List.cons.inj heq
  rcases mem_cons.mp hmem with hhere | hmem
  · refine (hnew id' v' (hfirst.trans hhere.symm)).2.2 id (h.past id v ?_) hlast
    simp [hrest]
  · exact h.exhausted later id v earlier hrest hlast id' v' hmem

theorem Kept.step (h : Kept t₀ x) (op : Op tag T) : Kept t₀ (x.step op) := by
  obtain ⟨n, hn⟩ := h.issued
  cases op with
  | insert v =>
    unfold Recorded.step
    simp only
    split
    next id t hins =>
      obtain ⟨honward, hnew⟩ := onward_insert hins
      refine h.record _ honward ⟨n + 1, hn.insert hins⟩ ?_ ?_ (h.counted.insert hins)
      · rintro id' v' heq
        cases heq
        exact ⟨past_of_find (by rw [find?_insert hins, if_pos rfl]), hnew,
          fun id' hpast hlast => insert_not_exhausted hn hpast hlast hins⟩
      intro id' v'
      rw [find?_insert hins, live_cons, ← h.find]
      by_cases heq : id' = id
      · simp [heq, find?_insert_fresh hins]
      · simp [heq, Ne.symm heq]
    refine h.record _ (Onward.refl _) ⟨n, hn⟩ (fun _ _ heq => by cases heq) ?_ h.counted
    intro id' v'
    simp [live_cons, h.find]
  | erase id =>
    refine h.record _ (onward_erase id) ⟨n, hn.erase id⟩ (fun _ _ heq => by cases heq) ?_
      (h.counted.erase id)
    intro id' v'
    rw [find?_erase, live_cons, ← h.find]
    by_cases heq : id' = id
    · simp [heq]
    · simp [heq, Ne.symm heq]

theorem Fresh.issued (h : Fresh t) : t.Issued 0 := by
  obtain rfl | ⟨capacity, first, hfirst, -, hcap, hmax, rfl⟩ := h
  · exact issued_empty
  refine ⟨?_, ?_, ?_⟩
  · simpa [starting] using hcap
  · intro s hs
    rw [eq_of_mem_replicate hs]
    exact hmax
  · simpa [starting] using Nat.le_mul_of_pos_right capacity hfirst

theorem Fresh.vacant (h : Fresh t) : (∀ s ∈ t.slots, s.value = none) ∧ Counted t t := by
  obtain rfl | ⟨capacity, first, hfirst, -, -, -, rfl⟩ := h
  · exact ⟨by simp [empty], rfl, fun _ => rfl, rfl, rfl⟩
  refine ⟨fun s hs => by rw [eq_of_mem_replicate hs], rfl, fun _ => rfl, ?_, ?_⟩
  · simp [starting, sum]
  · simp [starting]

theorem kept_fresh (h : Fresh t₀) : Kept t₀ (⟨t₀, []⟩ : Recorded tag T) := by
  refine ⟨⟨0, h.issued⟩, by simp, nodup_nil, ?_, by simp, h.vacant.2⟩
  intro id v
  constructor
  · intro hfind
    cases h.vacant.1 _ (mem_of_getElem? (find?_eq_some.mp hfind))
  rintro ⟨later, earlier, heq, -⟩
  simp at heq

theorem Kept.run (h : Fresh t₀) (ops : List (Op tag T)) : Kept t₀ (Recorded.run t₀ ops) := by
  unfold Recorded.run
  have hstart := kept_fresh h
  generalize (⟨t₀, []⟩ : Recorded tag T) = x at hstart
  induction ops generalizing x with
  | nil => exact hstart
  | cons op ops ih => exact ih _ (hstart.step op)

/-- Whatever is inserted and erased: what a run keeps; in a bounded table every slot is live, free or
    retired, so the ring of free slots has room; and an insert fails only where no slot is free and
    none can be added. -/
theorem identities_never_reissued (h : Fresh t₀) (ops : List (Op tag T)) :
    let x := Recorded.run t₀ ops
    Kept t₀ x ∧
    (t₀.bounded = true → x.table.live + x.table.free.length + x.table.retired = t₀.slots.length ∧
      x.table.free.length ≤ t₀.slots.length) ∧
    ∀ v, x.table.insert v = none →
      x.table.free = [] ∧ (t₀.bounded = true ∨ kMaxSlots ≤ x.table.slots.length) := by
  have hkept := Kept.run h ops
  refine ⟨hkept, fun hb => ?_, fun v hnone => ?_⟩
  · have hslots := hkept.counted.slots
    rw [hkept.counted.capacity hb] at hslots
    exact ⟨hslots, by omega⟩
  rw [← hkept.counted.kind]
  exact insert_none hnone

def lastSlot : SlotTable .task Nat := starting 1 uint32Max (by decide)

/-- The one slot is retired. -/
theorem identities_never_reissued_retired : Fresh lastSlot ∧
      (Recorded.run lastSlot [.insert 7, .erase ⟨0, uint32Max⟩]).table.insert 8 = none ∧
      (Recorded.run lastSlot [.insert 7, .erase ⟨0, uint32Max⟩]).table.free = [] := by
  have hfresh : Fresh lastSlot :=
    .inr ⟨1, uint32Max, by decide, by decide, by decide, by decide, rfl⟩
  have hnone : (Recorded.run lastSlot [.insert 7, .erase ⟨0, uint32Max⟩]).table.insert 8 = none := by
    rfl
  exact ⟨hfresh, hnone, ((identities_never_reissued hfresh _).2.2 8 hnone).1⟩

end JitLlm.Base.SlotTable
