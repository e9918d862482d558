import Mathlib.Algebra.GroupWithZero.Nat
import Mathlib.Data.List.Sort
import Mathlib.Data.List.Perm.Subperm
import Mathlib.Order.Defs.LinearOrder

/-!
# Selecting the first k of a linear order

The elements of a list that rank among its `k` first, where `a < b` says that `a` ranks before
`b`; a partial sort as `std::nth_element` promises it; and the invariant of a one-pass selection
that may forget an element once `k` of those it keeps rank before it.
-/

namespace JitLlm.Lib

open List

variable {β : Type*} [LinearOrder β]

/-- How many elements of `l` rank before `c`. -/
def rank (l : List β) (c : β) : Nat := l.countP (· < c)

theorem rank_le_of_subset {l l' : List β} {c : β} (hn : l.Nodup) (h : ∀ x ∈ l, x < c → x ∈ l') :
    rank l c ≤ rank l' c := by
  unfold rank
  rw [countP_eq_length_filter, countP_eq_length_filter]
  apply List.Subperm.length_le
  apply List.Nodup.subperm (hn.filter _)
  intro x hx
  simp only [mem_filter, decide_eq_true_eq] at hx ⊢
  exact ⟨h x hx.1 hx.2, hx.2⟩

theorem rank_mono {l : List β} {c d : β} (h : c ≤ d) : rank l c ≤ rank l d :=
  countP_mono_left fun x _ hx => by
    simp only [decide_eq_true_eq] at hx ⊢
    exact lt_of_lt_of_le hx h

theorem rank_eq_length {l : List β} {c : β} (h : ∀ x ∈ l, x < c) : rank l c = l.length :=
  countP_eq_length.mpr fun x hx => by simpa using h x hx

theorem rank_lt_length {l : List β} {c : β} (h : c ∈ l) : rank l c < l.length := by
  refine lt_of_le_of_ne countP_le_length ?_
  intro he
  have := countP_eq_length.mp he c h
  simp at this

/-- `std::nth_element`: a permutation with, at `n`, the element a sort would put there, and
    nothing before it ranking after it nor after it ranking before. -/
structure NthElement (β : Type*) [LinearOrder β] where
  run : Nat → List β → List β
  perm : ∀ n l, (run n l).Perm l
  front : ∀ n l x, (run n l)[n]? = some x → ∀ y ∈ (run n l).take n, y ≤ x
  back : ∀ n l x, (run n l)[n]? = some x → ∀ y ∈ (run n l).drop n, x ≤ y

def NthElement.bySort (β : Type*) [LinearOrder β] : NthElement β where
  run _ l := l.mergeSort (· ≤ ·)
  perm _ l := mergeSort_perm l _
  front n l x hx y hy := by
    have hs := pairwise_mergeSort' (· ≤ ·) l
    obtain ⟨hn, rfl⟩ := List.getElem?_eq_some_iff.mp hx
    obtain ⟨i, hi, rfl⟩ := mem_take_iff_getElem.mp hy
    exact pairwise_iff_getElem.mp hs i n _ hn (by omega)
  back n l x hx y hy := by
    have hs := pairwise_mergeSort' (· ≤ ·) l
    obtain ⟨hn, rfl⟩ := List.getElem?_eq_some_iff.mp hx
    obtain ⟨i, hi, rfl⟩ := mem_drop_iff_getElem.mp hy
    rcases Nat.eq_zero_or_pos i with rfl | hp
    · exact le_of_eq (by simp)
    · exact pairwise_iff_getElem.mp hs n (n + i) hn _ (by omega)

/-- The first `k` by a partial sort around the last of them. -/
def NthElement.cut (nth : NthElement β) (k : Nat) (l : List β) : List β :=
  (nth.run (k - 1) l).take k

namespace NthElement

variable (nth : NthElement β) {k : Nat} {l : List β}

theorem cut_length (h : k ≤ l.length) : (nth.cut k l).length = k := by
  simp only [cut, length_take, (nth.perm _ l).length_eq]
  exact min_eq_left h

theorem cut_subset {c : β} (h : c ∈ nth.cut k l) : c ∈ l :=
  (nth.perm _ l).subset (mem_of_mem_take h)

theorem cut_nodup (h : l.Nodup) : (nth.cut k l).Nodup :=
  ((nth.perm _ l).nodup_iff.mpr h).sublist (take_sublist _ _)

theorem cut_first (hk : 1 ≤ k) (hl : k ≤ l.length) {c d : β}
    (hc : c ∈ nth.cut k l) (hd : d ∈ l) (hnot : d ∉ nth.cut k l) : c < d := by
  have hp := nth.perm (k - 1) l
  have hlen : k - 1 < (nth.run (k - 1) l).length := by
    rw [hp.length_eq]
    omega
  obtain ⟨x, hx⟩ : ∃ x, (nth.run (k - 1) l)[k - 1]? = some x := ⟨_, getElem?_eq_getElem hlen⟩
  have hd' : d ∈ (nth.run (k - 1) l).drop k := by
    have hm := hp.symm.subset hd
    rw [← take_append_drop k (nth.run (k - 1) l), mem_append] at hm
    exact hm.resolve_left hnot
  have hcx : c ≤ x := by
    unfold cut at hc
    obtain ⟨j, rfl⟩ : ∃ j, k = j + 1 := ⟨k - 1, by omega⟩
    rw [take_add_one] at hc
    simp only [Nat.add_sub_cancel] at hc hx
    rcases mem_append.mp hc with h | h
    · exact nth.front _ _ x hx c h
    rw [hx] at h
    simp only [Option.toList_some, mem_singleton] at h
    exact le_of_eq h
  have hxd : x ≤ d := by
    apply nth.back _ _ x hx
    obtain ⟨i, hi, rfl⟩ := mem_drop_iff_getElem.mp hd'
    apply mem_drop_iff_getElem.mpr
    exact ⟨i + 1, by omega, by congr 1; omega⟩
  refine lt_of_le_of_ne (hcx.trans hxd) ?_
  intro he
  rw [he] at hc
  exact hnot hc

end NthElement

/-- `buf` keeps enough of `seen`: what it left out has `k` of the kept before it. -/
structure Keeps (k : Nat) (seen buf : List β) : Prop where
  nodup : buf.Nodup
  subset : ∀ c ∈ buf, c ∈ seen
  beaten : ∀ c ∈ seen, c ∉ buf → k ≤ rank buf c

namespace Keeps

variable {k : Nat} {seen buf : List β}

theorem push (h : Keeps k seen buf) {c : β} (hc : c ∉ seen) :
    Keeps k (seen ++ [c]) (buf ++ [c]) where
  nodup := by
    rw [nodup_append]
    refine ⟨h.nodup, nodup_singleton c, ?_⟩
    intro a ha b hb hab
    rw [mem_singleton.mp hb] at hab
    exact hc (hab ▸ h.subset a ha)
  subset d hd := by
    rcases mem_append.mp hd with hd | hd
    · exact mem_append_left _ (h.subset d hd)
    · exact mem_append_right _ hd
  beaten d hd hnot := by
    simp only [mem_append, not_or] at hd hnot
    have hb := h.beaten d (hd.resolve_right hnot.2) hnot.1
    refine hb.trans ?_
    exact (sublist_append_left buf [c]).countP_le

theorem skip (h : Keeps k seen buf) {c : β} (hc : k ≤ rank buf c) : Keeps k (seen ++ [c]) buf where
  nodup := h.nodup
  subset d hd := mem_append_left _ (h.subset d hd)
  beaten d hd hnot := by
    rcases mem_append.mp hd with hd | hd
    · exact h.beaten d hd hnot
    rw [mem_singleton.mp hd]
    exact hc

theorem cut (h : Keeps k seen buf) (nth : NthElement β) (hk : 1 ≤ k) (hl : k ≤ buf.length) :
    Keeps k seen (nth.cut k buf) where
  nodup := nth.cut_nodup h.nodup
  subset d hd := h.subset d (nth.cut_subset hd)
  beaten d hd hnot := by
    by_cases hall : ∀ c ∈ nth.cut k buf, c < d
    · rw [rank_eq_length hall, nth.cut_length hl]
    -- Otherwise d ranks before something kept, and so does all of `buf` that ranks before d.
    · push Not at hall
      obtain ⟨c, hc, hdc⟩ := hall
      by_cases hdb : d ∈ buf
      · exact absurd (nth.cut_first hk hl hc hdb hnot) (not_lt.mpr hdc)
      refine (h.beaten d hd hdb).trans ?_
      apply rank_le_of_subset h.nodup
      intro x hx hxd
      by_contra hxc
      have := nth.cut_first hk hl hc hx hxc
      exact absurd (this.trans hxd) (not_lt.mpr hdc)

theorem exact_of_length (h : Keeps k seen buf) (hl : buf.length = k) {c : β} (hs : seen.Nodup) :
    c ∈ buf ↔ c ∈ seen ∧ rank seen c < k := by
  constructor
  · intro hc
    refine ⟨h.subset c hc, ?_⟩
    refine lt_of_le_of_lt (rank_le_of_subset hs ?_) (hl ▸ rank_lt_length hc)
    intro x hx hxc
    by_contra hnot
    have hb := (h.beaten x hx hnot).trans (rank_mono hxc.le)
    have := rank_lt_length hc
    omega
  intro ⟨hc, hr⟩
  by_contra hnot
  have hb := h.beaten c hc hnot
  have : rank buf c ≤ rank seen c := rank_le_of_subset h.nodup fun x hx _ => h.subset x hx
  omega

end Keeps
end JitLlm.Lib
