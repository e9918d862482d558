import Mathlib.Algebra.GroupWithZero.Nat
import Mathlib.Data.List.Basic
import Mathlib.Order.Basic

/-!
# Byte ranges and copies of them

A memory is a function from addresses to bytes; a copy reads one range and writes another.
A list of copies whose destinations overlap neither each other nor a source puts, in every
destination, what its source held before any of them.
-/

namespace JitLlm

abbrev Bytemap (B : Type) := Nat → B

/-- `a` lies in the `n` bytes from `start`. -/
def Inside (a start n : Nat) : Prop := start ≤ a ∧ a < start + n

instance (a start n : Nat) : Decidable (Inside a start n) :=
  inferInstanceAs (Decidable (_ ∧ _))

def Apart (start n start' n' : Nat) : Prop := ∀ a, Inside a start n → ¬ Inside a start' n'

theorem Inside.add {start n i : Nat} (h : i < n) : Inside (start + i) start n :=
  ⟨Nat.le_add_right .., Nat.add_lt_add_left h start⟩

structure RangeCopy where
  source : Nat
  target : Nat
  bytes : Nat
deriving DecidableEq, Repr

namespace Bytemap

variable {B : Type} {cs : List RangeCopy}

/-- `m` with the copy `c` made. -/
def copy (m : Bytemap B) (c : RangeCopy) : Bytemap B := fun a =>
  if Inside a c.target c.bytes then m (c.source + (a - c.target)) else m a

/-- `m` with the copies made in order. -/
def copyAll (m : Bytemap B) (cs : List RangeCopy) : Bytemap B := cs.foldl copy m

/-- The copies write different ranges, and none of them one that another reads. -/
structure Separate (cs : List RangeCopy) : Prop where
  targets : cs.Pairwise fun c c' => Apart c.target c.bytes c'.target c'.bytes
  sources : ∀ c ∈ cs, ∀ c' ∈ cs, Apart c.source c.bytes c'.target c'.bytes

theorem copyAll_outside {a : Nat} :
    ∀ {m : Bytemap B}, (∀ c ∈ cs, ¬ Inside a c.target c.bytes) → copyAll m cs a = m a := by
  induction cs with
  | nil => intro _ _; rfl
  | cons c cs ih =>
    intro m h
    have hrest : copyAll (m.copy c) cs a = m.copy c a :=
      ih fun c' hc => h c' (List.mem_cons_of_mem _ hc)
    rw [copyAll, List.foldl_cons, ← copyAll, hrest, copy, if_neg (h c List.mem_cons_self)]

theorem Separate.tail {c : RangeCopy} (h : Separate (c :: cs)) : Separate cs :=
  ⟨(List.pairwise_cons.mp h.targets).2, fun c' hc' c'' hc'' =>
    h.sources c' (List.mem_cons_of_mem _ hc') c'' (List.mem_cons_of_mem _ hc'')⟩

theorem copyAll_inside {c : RangeCopy} {i : Nat} (hc : c ∈ cs) (hi : i < c.bytes) :
    ∀ {m : Bytemap B}, Separate cs → copyAll m cs (c.target + i) = m (c.source + i) := by
  induction cs with
  | nil => cases hc
  | cons c0 cs ih =>
    intro m h
    rw [copyAll, List.foldl_cons, ← copyAll]
    rcases List.mem_cons.mp hc with rfl | hmem
    · -- Nothing after the first copy writes its destination again.
      have hout : ∀ c' ∈ cs, ¬ Inside (c.target + i) c'.target c'.bytes := fun c' hc' =>
        (List.pairwise_cons.mp h.targets).1 c' hc' _ (Inside.add hi)
      rw [copyAll_outside hout, copy, if_pos (Inside.add hi), Nat.add_sub_cancel_left]
    have hsource : ¬ Inside (c.source + i) c0.target c0.bytes :=
      h.sources c (List.mem_cons_of_mem _ hmem) c0 List.mem_cons_self _ (Inside.add hi)
    rw [ih hmem h.tail, copy, if_neg hsource]

end Bytemap

end JitLlm
