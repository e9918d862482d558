import Mathlib.Data.List.Sort
import Mathlib.Order.Lattice

/-!
# Sorting by a key

`std::ranges::sort` by a key that tells the elements apart has one result, whatever order they come
in. `sortBy` computes it by insertion, which is structural recursion, so that it evaluates in the
kernel. `binarySearch` is `std::ranges::binary_search`: the first element not below what is sought
is it or not. `adjacentEqual` is whether `std::ranges::adjacent_find` finds two; of sorted ones, that
is whether any two are equal.
-/

namespace JitLlm.Lib

open List

variable {α K : Type} [LinearOrder K] {key : α → K}

def sortBy (key : α → K) (l : List α) : List α := l.insertionSort fun a b => key a ≤ key b

def Distinguishes (key : α → K) (l : List α) : Prop :=
  ∀ a ∈ l, ∀ b ∈ l, key a = key b → a = b

theorem sortBy_perm (key : α → K) (l : List α) : (sortBy key l).Perm l := perm_insertionSort _ l

theorem mem_sortBy {l : List α} {a : α} : a ∈ sortBy key l ↔ a ∈ l := (sortBy_perm key l).mem_iff

theorem sortBy_sorted (key : α → K) (l : List α) :
    (sortBy key l).Pairwise fun a b => key a ≤ key b := by
  exact pairwise_insertionSort _ l

theorem sortBy_filter (key : α → K) (k : K) (l : List α) :
    ((sortBy key l).filter fun a => key a = k) = l.filter fun a => key a = k := by
  have hins : ∀ (a : α) (l : List α),
      ((l.orderedInsert (fun a b => key a ≤ key b) a).filter fun a => key a = k) =
        (a :: l).filter fun a => key a = k := by
    intro a l
    induction l with
    | nil => rfl
    | cons b l ih =>
      rw [orderedInsert_cons]
      split
      · rfl
      rename_i hnot
      rw [filter_cons, ih, filter_cons, filter_cons, filter_cons]
      have hlt : key b < key a := lt_of_not_ge hnot
      by_cases ha : key a = k
      · have hb : ¬ key b = k := fun hb => absurd (hb.trans ha.symm) (ne_of_lt hlt)
        simp [ha, hb]
      · simp [ha]
  induction l with
  | nil => rfl
  | cons a l ih =>
    show ((List.orderedInsert _ a (sortBy key l)).filter _) = _
    rw [hins, filter_cons, filter_cons, ih]

theorem sortBy_strict {l : List α} (hkey : Distinguishes key l) (hl : l.Nodup) :
    (sortBy key l).Pairwise fun a b => key a < key b := by
  have hnodup : (sortBy key l).Nodup := (sortBy_perm key l).nodup_iff.mpr hl
  refine List.Pairwise.imp_of_mem ?_ ((sortBy_sorted key l).and hnodup)
  intro a b ha hb hab
  refine lt_of_le_of_ne hab.1 ?_
  intro heq
  exact hab.2 (hkey a (mem_sortBy.mp ha) b (mem_sortBy.mp hb) heq)

theorem sortBy_congr {l l' : List α} (hkey : Distinguishes key l) (h : l.Perm l') :
    sortBy key l = sortBy key l' := by
  refine List.Perm.eq_of_pairwise ?_ (sortBy_sorted key l) (sortBy_sorted key l')
    ((sortBy_perm key l).trans (h.trans (sortBy_perm key l').symm))
  intro a b ha hb hab hba
  exact hkey a (mem_sortBy.mp ha) b (h.mem_iff.mpr (mem_sortBy.mp hb)) (le_antisymm hab hba)

def binarySearch (l : List K) (k : K) : Bool :=
  match l.find? fun a => !(a < k) with
  | some a => !(k < a)
  | none => false

theorem binarySearch_iff {l : List K} (hl : l.Pairwise (· ≤ ·)) {k : K} :
    binarySearch l k = true ↔ k ∈ l := by
  induction l with
  | nil => simp [binarySearch]
  | cons a rest ih =>
    obtain ⟨hhead, hrest⟩ := List.pairwise_cons.mp hl
    have ih' := ih hrest
    unfold binarySearch at ih' ⊢
    rw [find?_cons]
    by_cases hlt : a < k
    · simp only [hlt, decide_true, Bool.not_true]
      rw [ih', mem_cons]
      exact ⟨.inr, fun h => h.resolve_left (ne_of_gt hlt)⟩
    simp only [hlt, decide_false, Bool.not_false, Bool.not_eq_true', decide_eq_false_iff_not,
      not_lt, mem_cons]
    constructor
    · intro hle
      exact .inl (le_antisymm (not_lt.mp hlt) hle)
    rintro (rfl | hmem)
    · exact le_refl _
    · exact hhead k hmem

/-! ## Neighbours -/

section Adjacent

variable {β : Type} [DecidableEq β]

def adjacentEqual : List β → Bool
  | a :: b :: rest => a = b || adjacentEqual (b :: rest)
  | _ => false

theorem adjacentEqual_iff {r : β → β → Prop} (hanti : ∀ a b, r a b → r b a → a = b) :
    ∀ {l : List β}, l.Pairwise r → (adjacentEqual l = true ↔ ¬ l.Nodup)
  | [], _ => by simp [adjacentEqual]
  | [a], _ => by simp [adjacentEqual]
  | a :: b :: rest, h => by
    obtain ⟨hfirst, hrest⟩ := List.pairwise_cons.mp h
    rw [adjacentEqual, Bool.or_eq_true, decide_eq_true_eq, adjacentEqual_iff hanti hrest,
      nodup_cons (a := a)]
    constructor
    · rintro (rfl | hdup) ⟨hnot, hnodup⟩
      · exact hnot mem_cons_self
      · exact hdup hnodup
    intro hdup
    by_cases hab : a = b
    · exact .inl hab
    refine .inr fun hnodup => hdup ⟨fun hmem => ?_, hnodup⟩
    rcases List.mem_cons.mp hmem with heq | hmem
    · exact hab heq
    exact hab (hanti a b (hfirst b mem_cons_self) ((List.pairwise_cons.mp hrest).1 a hmem))

end Adjacent

def sortBytes (keys : List (List UInt8)) : List (List UInt8) :=
  keys.mergeSort fun a b => decide (a ≤ b)

theorem sortBytes_sorted (keys : List (List UInt8)) : (sortBytes keys).Pairwise (· ≤ ·) := by
  have h : (sortBytes keys).Pairwise (fun a b => decide (a ≤ b) = true) :=
    List.pairwise_mergeSort
      (fun a b c hab hbc => by
        simp only [decide_eq_true_eq] at hab hbc ⊢
        exact List.le_trans hab hbc)
      (fun a b => by
        simp only [Bool.or_eq_true, decide_eq_true_eq]
        exact List.le_total a b) keys
  exact h.imp fun hle => of_decide_eq_true hle

theorem sortBytes_perm (keys : List (List UInt8)) : (sortBytes keys).Perm keys :=
  mergeSort_perm keys _

theorem adjacentEqual_sortBytes (keys : List (List UInt8)) :
    adjacentEqual (sortBytes keys) = true ↔ ¬ keys.Nodup := by
  rw [adjacentEqual_iff (fun a b => List.le_antisymm) (sortBytes_sorted keys),
    (sortBytes_perm keys).nodup_iff]

end JitLlm.Lib
