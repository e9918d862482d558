import Mathlib.Data.List.Perm.Basic

/-!
# Steps that commute

A fold whose steps commute up to an equivalence that they respect does not depend on the order of
the list, up to that equivalence. Mathlib's `List.Perm.foldl_eq` is the case of equality.
-/

namespace JitLlm.Lib

variable {α β : Type} {R : α → α → Prop} {f : α → β → α}

theorem foldl_respects (hstep : ∀ {v w} x, R v w → R (f v x) (f w x)) {v w : α} (h : R v w)
    (l : List β) : R (l.foldl f v) (l.foldl f w) := by
  induction l generalizing v w with
  | nil => exact h
  | cons x rest ih => exact ih (hstep x h)

theorem foldl_perm (hR : Equivalence R) (hstep : ∀ {v w} x, R v w → R (f v x) (f w x))
    (hcomm : ∀ v x y, R (f (f v x) y) (f (f v y) x)) {l l' : List β} (h : l.Perm l') (v : α) :
    R (l.foldl f v) (l'.foldl f v) := by
  induction h generalizing v with
  | nil => exact hR.refl v
  | cons x _ ih => exact ih (f v x)
  | swap x y rest => exact foldl_respects hstep (hcomm v y x) rest
  | trans _ _ ih1 ih2 => exact hR.trans (ih1 v) (ih2 v)

end JitLlm.Lib
