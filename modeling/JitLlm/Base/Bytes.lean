import Mathlib.Order.Lattice

/-!
# `base/bytes.h` — byte counts with checked arithmetic

A byte count is below 2^64 by its type. `plus` and `minus` are the source's `Plus` and
`Minus`: a sum that would wrap, or a difference that would go negative, is `none`.
-/

namespace JitLlm.Base

/-- `UINT32_MAX`: the last generation of an identity, and the bound on a table's slots. -/
def uint32Max : Nat := 4294967295

/-- `UINT64_MAX`: the last value of a 64-bit counter. -/
def uint64Max : Nat := 18446744073709551615

@[ext] structure Bytes where
  value : Nat
  bound : value ≤ uint64Max
deriving DecidableEq

namespace Bytes

def zero : Bytes := ⟨0, Nat.zero_le _⟩

/-- `n` bytes, as a 64-bit counter holds them. -/
def ofNat (n : Nat) : Bytes := ⟨n % (uint64Max + 1), Nat.le_of_lt_succ (Nat.mod_lt n (by decide))⟩

def plus (a b : Bytes) : Option Bytes :=
  if h : a.value + b.value ≤ uint64Max then some ⟨a.value + b.value, h⟩ else none

def minus (a b : Bytes) : Option Bytes :=
  if b.value > a.value then none
  else some ⟨a.value - b.value, Nat.le_trans (Nat.sub_le _ _) a.bound⟩

def max (a b : Bytes) : Bytes := if a.value < b.value then b else a

@[simp] theorem zero_value : zero.value = 0 := rfl

variable {a b c : Bytes}

theorem plus_eq_some : a.plus b = some c ↔ c.value = a.value + b.value := by
  unfold plus
  constructor
  · intro h
    split at h
    · exact congrArg value (Option.some.inj h).symm
    · cases h
  intro h
  have hle : a.value + b.value ≤ uint64Max := h ▸ c.bound
  rw [dif_pos hle]
  exact congrArg some (Bytes.ext h.symm)

theorem plus_eq_none : a.plus b = none ↔ uint64Max < a.value + b.value := by
  unfold plus
  split <;> simp <;> omega

theorem minus_eq_some : a.minus b = some c ↔ c.value + b.value = a.value := by
  unfold minus
  constructor
  · intro h
    split at h
    · cases h
    have := congrArg value (Option.some.inj h)
    simp only at this
    omega
  intro h
  rw [if_neg (by omega)]
  exact congrArg some (Bytes.ext (by simp only; omega))

@[simp] theorem max_value (a b : Bytes) : (a.max b).value = Max.max a.value b.value := by
  unfold max
  split <;> omega

end Bytes
end JitLlm.Base
