import Mathlib.Algebra.GroupWithZero.Nat
import Mathlib.Data.List.Infix

/-!
# The first occurrence of a word

`find word xs` is where `word` is first met in `xs`. What is found stays found when the list grows,
and a list cut short finds the word only where all of it is within the cut.
-/

namespace JitLlm.Lib

open List

variable {α : Type} [DecidableEq α] {word xs : List α} {a : Nat}

def find (word : List α) : List α → Option Nat
  | [] => if word = [] then some 0 else none
  | x :: xs => if word.isPrefixOf (x :: xs) then some 0 else (find word xs).map (· + 1)

theorem find_prefix {word : List α} (ys : List α) : find word (word ++ ys) = some 0 := by
  cases word with
  | nil => cases ys <;> simp [find]
  | cons c word =>
    rw [cons_append, find, if_pos]
    exact List.isPrefixOf_iff_prefix.mpr (prefix_append (c :: word) ys)

theorem find_cons_of_not {x : α} (h : ¬ word <+: x :: xs) :
    find word (x :: xs) = (find word xs).map (· + 1) := by
  rw [find, if_neg]
  exact fun hp => h (List.isPrefixOf_iff_prefix.mp hp)

theorem find_some {word : List α} : ∀ {xs : List α} {a : Nat}, find word xs = some a →
    xs = xs.take a ++ word ++ xs.drop (a + word.length) ∧ a + word.length ≤ xs.length
  | [], a, h => by
    unfold find at h
    split at h
    · cases h
      subst word
      exact ⟨rfl, Nat.le_refl _⟩
    · cases h
  | x :: xs, a, h => by
    by_cases hp : word <+: x :: xs
    · obtain ⟨ys, hys⟩ := hp
      rw [← hys, find_prefix] at h
      cases h
      rw [← hys]
      simp
    rw [find_cons_of_not hp] at h
    obtain ⟨b, hb, rfl⟩ := Option.map_eq_some_iff.mp h
    obtain ⟨heq, hle⟩ := find_some hb
    refine ⟨?_, by simp only [length_cons]; omega⟩
    rw [take_succ_cons, Nat.add_right_comm, drop_succ_cons, cons_append, cons_append, ← heq]

theorem find_at (h : find word xs = some a) : word <+: xs.drop a := by
  obtain ⟨heq, hle⟩ := find_some h
  conv => rhs; rw [heq]
  rw [append_assoc, drop_left' (by rw [length_take]; omega)]
  exact prefix_append _ _

theorem find_first {word : List α} : ∀ {xs : List α} {a : Nat}, find word xs = some a →
    ∀ i, word <+: xs.drop i → a ≤ i
  | [], a, h, i, hi => by
    rw [drop_nil, prefix_nil] at hi
    subst hi
    cases h
    exact Nat.zero_le _
  | x :: xs, a, h, i, hi => by
    by_cases hp : word <+: x :: xs
    · obtain ⟨ys, hys⟩ := hp
      rw [← hys, find_prefix] at h
      cases h
      exact Nat.zero_le _
    rw [find_cons_of_not hp] at h
    obtain ⟨b, hb, rfl⟩ := Option.map_eq_some_iff.mp h
    cases i with
    | zero => exact absurd hi hp
    | succ i => exact Nat.succ_le_succ (find_first hb i hi)

theorem find_none {word : List α} : ∀ {xs : List α}, find word xs = none → ∀ i, ¬ word <+: xs.drop i
  | [], h, i, hi => by
    rw [drop_nil, prefix_nil] at hi
    subst hi
    cases h
  | x :: xs, h, i, hi => by
    by_cases hp : word <+: x :: xs
    · obtain ⟨ys, hys⟩ := hp
      rw [← hys, find_prefix] at h
      cases h
    rw [find_cons_of_not hp] at h
    cases i with
    | zero => exact hp hi
    | succ i => exact find_none (Option.map_eq_none_iff.mp h) i hi

theorem find_eq (hat : word <+: xs.drop a)
    (hfirst : ∀ i, word <+: xs.drop i → a ≤ i) : find word xs = some a := by
  cases h : find word xs with
  | none => exact absurd hat (find_none h a)
  | some b =>
    exact congrArg some (Nat.le_antisymm (find_first h a hat) (hfirst b (find_at h)))

theorem find_append {c : α} {word l : List α} (hl : c ∉ l) (r : List α) :
    find (c :: word) (l ++ (c :: word) ++ r) = some l.length := by
  induction l with
  | nil => exact find_prefix r
  | cons b l ih =>
    have hne : ¬ c :: word <+: b :: (l ++ (c :: word) ++ r) := by
      intro hp
      obtain ⟨rfl, -⟩ := List.cons_prefix_cons.mp hp
      exact hl mem_cons_self
    rw [cons_append, cons_append, find_cons_of_not hne, ih (fun h => hl (mem_cons_of_mem _ h))]
    rfl

theorem find_one {c : α} {xs : List α} (h : find [c] xs = some a) :
    xs = xs.take a ++ c :: xs.drop (a + 1) ∧ c ∉ xs.take a := by
  obtain ⟨heq, hle⟩ := find_some h
  refine ⟨by simpa using heq, fun hmem => ?_⟩
  obtain ⟨i, hi, hget⟩ := getElem_of_mem hmem
  have hi' : i < a := by
    rw [length_take] at hi
    omega
  have hlen : i < xs.length := by
    omega
  have hp : [c] <+: xs.drop i := by
    rw [drop_eq_getElem_cons hlen]
    rw [getElem_take] at hget
    rw [hget]
    exact prefix_append [c] _
  have := find_first h i hp
  omega

theorem find_take (hword : word ≠ []) (k : Nat) :
    find word (xs.take k) = (find word xs).bind fun a =>
      if a + word.length ≤ k then some a else none := by
  have hlift : ∀ i, word <+: (xs.take k).drop i → word <+: xs.drop i ∧ i + word.length ≤ k := by
    intro i hi
    rw [drop_take] at hi
    have hlen := hi.length_le
    rw [length_take] at hlen
    have := length_pos_of_ne_nil hword
    exact ⟨hi.trans ( take_prefix _ _), by omega⟩
  cases h : find word xs with
  | none =>
    cases h' : find word (xs.take k) with
    | none => rfl
    | some a =>
      exact absurd (hlift a (find_at h')).1 (find_none h a)
  | some a =>
    rw [Option.bind_some]
    split
    next hle =>
      refine find_eq ?_ fun i hi => find_first h i (hlift i hi).1
      rw [drop_take, prefix_take_iff]
      exact ⟨find_at h, by omega⟩
    rename_i hle
    rcases h' : find word (xs.take k) with _ | b
    · rfl
    obtain ⟨hb', hk⟩ := hlift b (find_at h')
    have := find_first h b hb'
    omega

end JitLlm.Lib
