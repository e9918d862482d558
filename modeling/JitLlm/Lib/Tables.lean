import Mathlib.Algebra.GroupWithZero.Nat
import Mathlib.Algebra.BigOperators.Group.List.Basic
import Mathlib.Data.List.Basic

/-!
# Totals over a table of optional cells

A fixed table of cells, each empty or holding a value, is a `List (Option T)` written with
`List.set`. `cellSum f` adds `f` over the cells that hold something, and `cellSum_set` says
what one write does to the total — additively, as in `OrdMap`, so that emptying a cell,
filling one and replacing a value are the same lemma read three ways.
-/

namespace JitLlm.Lib

variable {T : Type} {i : Nat} {l : List (Option T)}

theorem sum_map_set {l : List T} {a : T} (g : T → Nat) (b : T) (h : l[i]? = some a) :
    ((l.set i b).map g).sum + g a = (l.map g).sum + g b := by
  induction l generalizing i with
  | nil => simp at h
  | cons x rest ih =>
    cases i with
    | zero =>
      simp only [List.getElem?_cons_zero, Option.some.injEq] at h
      subst h
      simp only [List.set_cons_zero, List.map_cons, List.sum_cons]
      omega
    | succ =>
      have := ih (by simpa using h)
      simp only [List.set_cons_succ, List.map_cons, List.sum_cons]
      omega

/-- The value of `f` in one cell; an empty one counts for nothing. -/
def cellVal (f : T → Nat) : Option T → Nat
  | none => 0
  | some v => f v

@[simp] theorem cellVal_none (f : T → Nat) : cellVal f none = 0 := rfl

@[simp] theorem cellVal_some (f : T → Nat) (v : T) : cellVal f (some v) = f v := rfl

/-- The total of `f` over the cells that hold a value. -/
def cellSum (f : T → Nat) (l : List (Option T)) : Nat := (l.map (cellVal f)).sum

theorem cellSum_set {a : Option T} (f : T → Nat) (b : Option T)
    (h : l[i]? = some a) : cellSum f (l.set i b) + cellVal f a = cellSum f l + cellVal f b :=
  sum_map_set (cellVal f) b h

theorem cellSum_congr {f g : T → Nat}
    (h : ∀ (i : Nat) (v : T), l[i]? = some (some v) → f v = g v) : cellSum f l = cellSum g l := by
  refine congrArg List.sum (List.map_congr_left fun c hc => ?_)
  obtain ⟨i, hi, rfl⟩ := List.getElem_of_mem hc
  cases hv : l[i] with
  | none => rfl
  | some v => exact h i v (by rw [List.getElem?_eq_getElem hi, hv])

theorem cellSum_eq_zero {f : T → Nat}
    (h : ∀ (i : Nat) (v : T), l[i]? = some (some v) → f v = 0) : cellSum f l = 0 := by
  rw [cellSum_congr (g := fun _ => 0) h]
  refine List.sum_eq_zero fun n hn => ?_
  obtain ⟨c, -, rfl⟩ := List.mem_map.mp hn
  cases c <;> rfl

theorem le_cellSum {v : T} (f : T → Nat) (h : l[i]? = some (some v)) : f v ≤ cellSum f l := by
  have := cellSum_set f none h
  simp only [cellVal_some, cellVal_none] at this
  omega

end JitLlm.Lib
