import Mathlib.Order.Lattice
import Mathlib.Data.List.Basic

/-!
# A list sorted, with duplicates removed

`std::ranges::sort` followed by `unique`-and-erase, on values whose order is total, has one
result: the distinct elements in ascending order. `sortUnique` computes it by insertion,
which is structural recursion, so that it evaluates in the kernel.
-/

namespace JitLlm.Lib

variable {K : Type} [LinearOrder K]

/-- `k` in its place of an ascending list, unless it is there already. -/
def insertUnique (k : K) : List K → List K
  | [] => [k]
  | a :: rest =>
    if k < a then k :: a :: rest else if k = a then a :: rest else a :: insertUnique k rest

def sortUnique (l : List K) : List K := l.foldr insertUnique []

theorem mem_insertUnique {k x : K} : ∀ {l : List K}, x ∈ insertUnique k l ↔ x = k ∨ x ∈ l
  | [] => by simp [insertUnique]
  | a :: rest => by
    unfold insertUnique
    split
    · simp
    split
    next h =>
      subst h
      simp
    rw [List.mem_cons, mem_insertUnique, List.mem_cons]
    tauto

theorem insertUnique_sorted {k : K} :
    ∀ {l : List K}, l.Pairwise (· < ·) → (insertUnique k l).Pairwise (· < ·)
  | [], _ => by simp [insertUnique]
  | a :: rest, h => by
    obtain ⟨hhead, hrest⟩ := List.pairwise_cons.mp h
    unfold insertUnique
    split
    next hlt =>
      refine List.pairwise_cons.mpr ⟨fun x hx => ?_, h⟩
      rcases List.mem_cons.mp hx with rfl | hx
      · exact hlt
      · exact hlt.trans (hhead x hx)
    split
    · exact h
    rename_i hnlt hne
    refine List.pairwise_cons.mpr ⟨fun x hx => ?_, insertUnique_sorted hrest⟩
    rcases mem_insertUnique.mp hx with rfl | hx
    · exact lt_of_le_of_ne (not_lt.mp hnlt) (Ne.symm hne)
    · exact hhead x hx

theorem mem_sortUnique {x : K} {l : List K} : x ∈ sortUnique l ↔ x ∈ l := by
  induction l with
  | nil => simp [sortUnique]
  | cons a rest ih =>
    have hstep : sortUnique (a :: rest) = insertUnique a (sortUnique rest) := rfl
    rw [hstep, mem_insertUnique, ih, List.mem_cons]

theorem sortUnique_sorted (l : List K) : (sortUnique l).Pairwise (· < ·) := by
  induction l with
  | nil => exact List.Pairwise.nil
  | cons a rest ih => exact insertUnique_sorted ih

theorem sortUnique_nodup (l : List K) : (sortUnique l).Nodup := (sortUnique_sorted l).imp ne_of_lt

end JitLlm.Lib
