import Mathlib.Algebra.GroupWithZero.Nat
import Mathlib.Order.Lattice
import Mathlib.Algebra.BigOperators.Group.List.Basic
import Mathlib.Tactic.SplitIfs
import Mathlib.Data.List.TakeWhile

/-!
# Ordered finite maps

A map is its entries in strictly ascending key order, and the order is a field of the
structure: a map with a repeated key, or one out of order, cannot be built. That is the
reading of `std::map` a proof wants — iteration is `entries`, front to back — and it makes
every lookup lemma below hold with **no** side condition.
-/

namespace JitLlm.Lib

open List

/-- A finite map, by its entries in strictly ascending key order. -/
structure OrdMap (K V : Type) [LinearOrder K] where
  entries : List (K × V)
  sorted : entries.Pairwise (fun a b => a.1 < b.1)

namespace OrdMap

variable {K V W : Type} [LinearOrder K]

/-! ## The entry-list operations -/

/-- The value of the first entry with key `k`. -/
def lookup (k : K) : List (K × V) → Option V
  | [] => none
  | (k', v) :: rest => if k = k' then some v else lookup k rest

def insertSorted (k : K) (v : V) : List (K × V) → List (K × V)
  | [] => [(k, v)]
  | (k', v') :: rest =>
    if k < k' then (k, v) :: (k', v') :: rest
    else if k = k' then (k, v) :: rest
    else (k', v') :: insertSorted k v rest

/-- The entries whose key is not `k`. -/
def eraseKey (k : K) (l : List (K × V)) : List (K × V) := l.filter (fun p => p.1 ≠ k)

variable {k : K} {v : V}

theorem mem_insertSorted {p : K × V} :
    ∀ {l : List (K × V)}, p ∈ insertSorted k v l → p = (k, v) ∨ p ∈ l
  | [], h => by simpa [insertSorted] using h
  | (k', v') :: rest, h => by
    unfold insertSorted at h
    split_ifs at h with h1 h2
    · rcases mem_cons.mp h with h | h
      · exact .inl h
      · exact .inr h
    · rcases mem_cons.mp h with h | h
      · exact .inl h
      · exact .inr (mem_cons_of_mem _ h)
    rcases mem_cons.mp h with h | h
    · exact .inr (h ▸ mem_cons_self)
    · exact (mem_insertSorted h).imp id (mem_cons_of_mem _)

theorem insertSorted_sorted : ∀ {l : List (K × V)}, l.Pairwise (fun a b => a.1 < b.1) →
      (insertSorted k v l).Pairwise (fun a b => a.1 < b.1)
  | [], _ => by simp [insertSorted]
  | (k', v') :: rest, h => by
    obtain ⟨hhead, hrest⟩ := pairwise_cons.mp h
    unfold insertSorted
    split_ifs with h1 h2
    · refine pairwise_cons.mpr ⟨fun p hp => ?_, h⟩
      rcases mem_cons.mp hp with rfl | hp
      · exact h1
      · exact h1.trans (hhead p hp)
    · subst h2
      exact pairwise_cons.mpr ⟨hhead, hrest⟩
    refine pairwise_cons.mpr ⟨fun p hp => ?_, insertSorted_sorted hrest⟩
    rcases mem_insertSorted hp with rfl | hp
    · exact lt_of_le_of_ne (not_lt.mp h1) (Ne.symm h2)
    · exact hhead p hp

theorem lookup_insertSorted (k k' : K) (v : V) :
    ∀ l : List (K × V), lookup k' (insertSorted k v l) = if k' = k then some v else lookup k' l
  | [] => by simp [insertSorted, lookup]
  | (k0, v0) :: rest => by
    have ih := lookup_insertSorted k k' v rest
    unfold insertSorted
    by_cases h1 : k < k0
    · simp [lookup, h1]
    by_cases h2 : k = k0
    · subst h2
      by_cases hq : k' = k <;> simp [lookup, hq]
    by_cases hq : k' = k0
    · subst hq
      simp [lookup, h1, h2, Ne.symm h2]
    · simp [lookup, h1, h2, hq, ih]

theorem lookup_eraseKey (k k' : K) :
    ∀ l : List (K × V), lookup k' (eraseKey k l) = if k' = k then none else lookup k' l
  | [] => by simp [eraseKey, lookup]
  | (k0, v0) :: rest => by
    have ih := lookup_eraseKey k k' rest
    unfold eraseKey at ih ⊢
    by_cases h : k0 = k
    · subst h
      rw [filter_cons_of_neg (by simp), ih]
      by_cases hq : k' = k0
      · simp [hq]
      · simp [lookup, hq]
    rw [filter_cons_of_pos (by simp [h])]
    by_cases hq : k' = k0
    · subst hq
      simp [lookup, h]
    · simp only [lookup, if_neg hq, ih]

theorem mem_of_lookup : ∀ {l : List (K × V)}, lookup k l = some v → (k, v) ∈ l
  | [], h => by simp [lookup] at h
  | (k', v') :: rest, h => by
    unfold lookup at h
    split_ifs at h with hk
    · cases hk
      cases h
      exact mem_cons_self
    · exact mem_cons_of_mem _ (mem_of_lookup h)

theorem lookup_of_mem :
    ∀ {l : List (K × V)}, l.Pairwise (fun a b => a.1 < b.1) → (k, v) ∈ l → lookup k l = some v
  | [], _, h => by simp at h
  | (k', v') :: rest, hs, h => by
    obtain ⟨hhead, hrest⟩ := pairwise_cons.mp hs
    rcases mem_cons.mp h with heq | hm
    · cases heq
      simp [lookup]
    have hne : k ≠ k' := fun hq => (hq ▸ (hhead (k, v) hm)).ne rfl
    simp only [lookup, if_neg hne]
    exact lookup_of_mem hrest hm

/-! ## The map -/

def empty : OrdMap K V := ⟨[], List.Pairwise.nil⟩

def find? (m : OrdMap K V) (k : K) : Option V := lookup k m.entries

def insert (m : OrdMap K V) (k : K) (v : V) : OrdMap K V :=
  ⟨insertSorted k v m.entries, insertSorted_sorted m.sorted⟩

def erase (m : OrdMap K V) (k : K) : OrdMap K V :=
  ⟨eraseKey k m.entries, m.sorted.filter _⟩

/-- Every value replaced through `f`, keys as they are: what a loop over a map's values that
    changes each in place computes. -/
def mapVals (m : OrdMap K V) (f : K → V → W) : OrdMap K W :=
  ⟨m.entries.map (fun p => (p.1, f p.1 p.2)), pairwise_map.mpr m.sorted⟩

def contains (m : OrdMap K V) (k : K) : Bool := (m.find? k).isSome

def isEmpty (m : OrdMap K V) : Bool := m.entries.isEmpty

def size (m : OrdMap K V) : Nat := m.entries.length

/-- The total of `f` over the entries. -/
def sum (m : OrdMap K V) (f : K → V → Nat) : Nat := (m.entries.map (fun p => f p.1 p.2)).sum

variable {m : OrdMap K V} {k k' : K} {v v' : V}

@[simp] theorem find?_empty (k : K) : (empty : OrdMap K V).find? k = none := rfl

theorem find?_insert (m : OrdMap K V) (k k' : K) (v : V) :
    (m.insert k v).find? k' = if k' = k then some v else m.find? k' :=
  lookup_insertSorted k k' v m.entries

@[simp] theorem find?_insert_self (m : OrdMap K V) (k : K) (v : V) :
    (m.insert k v).find? k = some v := by
  simp [find?_insert]

theorem find?_insert_ne (h : k' ≠ k) : (m.insert k v).find? k' = m.find? k' := by
  simp [find?_insert, h]

theorem find?_erase (m : OrdMap K V) (k k' : K) :
    (m.erase k).find? k' = if k' = k then none else m.find? k' :=
  lookup_eraseKey k k' m.entries

@[simp] theorem find?_erase_self (m : OrdMap K V) (k : K) : (m.erase k).find? k = none := by
  simp [find?_erase]

theorem find?_erase_ne (h : k' ≠ k) : (m.erase k).find? k' = m.find? k' := by
  simp [find?_erase, h]

theorem mem_entries_iff : (k, v) ∈ m.entries ↔ m.find? k = some v :=
  ⟨lookup_of_mem m.sorted, mem_of_lookup⟩

theorem filter_keys (m : OrdMap K V) (p : K × V → Bool) :
    ((m.entries.filter p).map Prod.fst).Nodup ∧ ∀ k ∈ (m.entries.filter p).map Prod.fst,
      ∃ v, m.find? k = some v ∧ p (k, v) = true := by
  constructor
  · have hkeys : (m.entries.map Prod.fst).Nodup :=
      (pairwise_map.mpr m.sorted).imp fun h => ne_of_lt h
    exact hkeys.sublist (List.filter_sublist.map Prod.fst)
  intro k hk
  obtain ⟨⟨k', v⟩, hmem, rfl⟩ := mem_map.mp hk
  obtain ⟨hentry, hp⟩ := mem_filter.mp hmem
  exact ⟨v, mem_entries_iff.mp hentry, hp⟩

theorem find?_mapVals (m : OrdMap K V) (f : K → V → W) (k : K) :
    (m.mapVals f).find? k = (m.find? k).map (f k) := by
  obtain ⟨l, hl⟩ := m
  unfold find? mapVals
  simp only
  clear hl
  induction l with
  | nil => rfl
  | cons p rest ih =>
    obtain ⟨k', v'⟩ := p
    by_cases h : k = k'
    · subst h
      simp [lookup]
    · simpa [lookup, h] using ih

/-! ## Bounds: `lower_bound`, and the entry before it -/

/-- `lower_bound`: the first entry whose key is not below `k`. -/
def lowerBound (m : OrdMap K V) (k : K) : Option (K × V) :=
  (m.entries.dropWhile (fun p => p.1 < k)).head?

/-- `std::prev` of `lower_bound`: the last entry whose key is below `k`. -/
def below (m : OrdMap K V) (k : K) : Option (K × V) :=
  (m.entries.takeWhile (fun p => p.1 < k)).getLast?

theorem lowerBound_le {p : K × V} (h : m.find? k' = some v) (hk : k ≤ k')
    (hp : m.lowerBound k = some p) : p.1 ≤ k' := by
  have hmem : (k', v) ∈ m.entries.dropWhile (fun p => p.1 < k) := by
    have hall := mem_entries_iff.mpr h
    rw [← takeWhile_append_dropWhile (p := fun p : K × V => decide (p.1 < k)) (l := m.entries)]
      at hall
    rcases mem_append.mp hall with ht | hd
    · have := mem_takeWhile_imp ht
      simp only [decide_eq_true_eq] at this
      exact absurd this (not_lt.mpr hk)
    · exact hd
  have hsor : (m.entries.dropWhile (fun p => p.1 < k)).Pairwise (fun a b => a.1 < b.1) :=
    m.sorted.sublist (dropWhile_sublist _)
  unfold lowerBound at hp
  rcases hd : m.entries.dropWhile (fun p => p.1 < k) with _ | ⟨q, _⟩
  · simp [hd] at hp
  rw [hd] at hp hmem hsor
  obtain rfl : q = p := Option.some.inj hp
  rcases mem_cons.mp hmem with rfl | hrest
  · exact le_refl _
  · exact le_of_lt ((pairwise_cons.mp hsor).1 _ hrest)

theorem lowerBound_none (h : m.find? k' = some v) (hp : m.lowerBound k = none) : k' < k := by
  have hall := dropWhile_eq_nil_iff.mp (List.head?_eq_none_iff.mp hp) _ (mem_entries_iff.mpr h)
  simpa using hall

theorem le_below (h : m.find? k' = some v) (hk : k' < k) :
    ∃ p, m.below k = some p ∧ k' ≤ p.1 ∧ p.1 < k ∧ m.find? p.1 = some p.2 := by
  have hmem : (k', v) ∈ m.entries.takeWhile (fun p => p.1 < k) := by
    have hall := mem_entries_iff.mpr h
    rw [← takeWhile_append_dropWhile (p := fun p : K × V => decide (p.1 < k)) (l := m.entries)]
      at hall
    rcases mem_append.mp hall with ht | hd
    · exact ht
    have hle : ∀ p ∈ m.entries.dropWhile (fun p => p.1 < k), k ≤ p.1 := by
      have hsor : (m.entries.dropWhile (fun p => p.1 < k)).Pairwise (fun a b => a.1 < b.1) :=
        m.sorted.sublist (dropWhile_sublist _)
      cases hd : m.entries.dropWhile (fun p => p.1 < k) with
      | nil => simp
      | cons =>
        have hq := head_dropWhile_not (fun p : K × V => decide (p.1 < k)) (l := m.entries)
          (by rw [hd]; simp)
        simp only [hd, head_cons, decide_eq_false_iff_not, not_lt] at hq
        rw [hd] at hsor
        intro p hp
        rcases mem_cons.mp hp with rfl | hrest
        · exact hq
        · exact hq.trans (le_of_lt ((pairwise_cons.mp hsor).1 _ hrest))
    exact absurd hk (not_lt.mpr (hle _ hd))
  have hne : m.entries.takeWhile (fun p => p.1 < k) ≠ [] := ne_nil_of_mem hmem
  refine ⟨_, getLast?_eq_some_getLast hne, ?_, ?_, ?_⟩
  · have hsor : (m.entries.takeWhile (fun p => p.1 < k)).Pairwise (fun a b => a.1 < b.1) :=
      m.sorted.sublist (takeWhile_sublist _)
    rw [← dropLast_append_getLast hne] at hmem hsor
    rcases mem_append.mp hmem with hinit | hlast
    · exact le_of_lt ((pairwise_append.mp hsor).2.2 _ hinit _ (by simp))
    · exact le_of_eq (congrArg Prod.fst (mem_singleton.mp hlast))
  · simpa using mem_takeWhile_imp (getLast_mem hne)
  · exact mem_entries_iff.mp ((takeWhile_sublist _).subset (getLast_mem hne))

end OrdMap
end JitLlm.Lib
