import Mathlib.Algebra.GroupWithZero.Nat
import Mathlib.Data.List.Forall2
import Mathlib.Tactic.Basic

/-!
# What a fallible computation may end in

`Sat E P x`: if `x` fails, its error is one `E` allows, and if it succeeds, its value satisfies
`P`. One statement that carries both halves of a safety proof — the postcondition, and which
errors cannot happen — through a `do` block, so a program is walked once for both.

The rules are those of a Hoare logic with the precondition left in the context: `bind`
composes, `mono` weakens either side, and `foldlM` is the loop rule, with the invariant
indexed by what is left of the list.
-/

namespace JitLlm.Lib

variable {ε α β : Type}

def Sat (E : ε → Prop) (P : α → Prop) : Except ε α → Prop
  | .ok a => P a
  | .error e => E e

namespace Sat

variable {E E' : ε → Prop} {P P' : α → Prop} {Q : β → Prop} {x : Except ε α}

@[simp] theorem ok_iff {a : α} : Sat E P (.ok a) ↔ P a := Iff.rfl

@[simp] theorem error_iff {e : ε} : Sat E P (.error e : Except ε α) ↔ E e := Iff.rfl

@[simp] theorem pure_iff {a : α} : Sat E P (pure a) ↔ P a := Iff.rfl

theorem mono (hx : Sat E P x) (hE : ∀ e, E e → E' e) (hP : ∀ a, P a → P' a) : Sat E' P' x := by
  cases x with
  | ok a => exact hP a hx
  | error e => exact hE e hx

theorem any : Sat (fun _ : ε => True) (fun _ => True) x := by
  cases x <;> trivial

theorem imp (hx : Sat E P x) (hP : ∀ a, P a → P' a) : Sat E P' x := hx.mono (fun _ h => h) hP

theorem allow (hx : Sat E P x) (hE : ∀ e, E e → E' e) : Sat E' P x := hx.mono hE fun _ h => h

theorem bind {f : α → Except ε β} (hx : Sat E P x)
    (hf : ∀ a, P a → Sat E Q (f a)) : Sat E Q (x >>= f) := by
  cases x with
  | ok a => exact hf a hx
  | error => exact hx

theorem map_iff {f : α → β} : Sat E Q (x.map f) ↔ Sat E (fun a => Q (f a)) x := by
  cases x <;> rfl

theorem val {a : α} (hx : Sat E P x) (h : x = .ok a) : P a := by
  rw [h] at hx
  exact hx

theorem err {e : ε} (hx : Sat E P x) (h : x = .error e) : E e := by
  rw [h] at hx
  exact hx

theorem self (hx : Sat E P x) : Sat E (fun a => P a ∧ x = .ok a) x := by
  cases x with
  | ok => exact ⟨hx, rfl⟩
  | error => exact hx

theorem and (hx : Sat E P x) (hy : Sat E P' x) : Sat E (fun a => P a ∧ P' a) x := by
  cases x with
  | ok => exact ⟨hx, hy⟩
  | error => exact hx

theorem foldlM {γ : Type} {f : α → γ → Except ε α} {I : List γ → α → Prop}
    (step : ∀ a x rest, I (x :: rest) a → Sat E (I rest) (f a x)) :
    ∀ {l : List γ} {a : α}, I l a → Sat E (I []) (l.foldlM f a)
  | [], _, h => h
  | x :: rest, a, h => by
    rw [List.foldlM_cons]
    exact (step a x rest h).bind fun a' h' => foldlM step h'

end Sat

@[simp] theorem ok_bind (a : α) (f : α → Except ε β) : (Except.ok a >>= f) = f a := rfl

@[simp] theorem error_bind (e : ε) (f : α → Except ε β) : (Except.error e >>= f) = .error e := rfl

theorem bind_ok {x : Except ε α} {f : α → Except ε β} {b : β} (h : x >>= f = .ok b) :
    ∃ a, x = .ok a ∧ f a = .ok b := by
  cases x with
  | ok a => exact ⟨a, rfl, h⟩
  | error => exact absurd h (by simp [Bind.bind, Except.bind])

theorem then_ok {p : Prop} [Decidable p] {x : Except ε α} {e : ε} {a : α}
    (h : (if p then x else .error e) = .ok a) : p ∧ x = .ok a := by
  split at h
  next hp => exact ⟨hp, h⟩
  · cases h

theorem mapM_ok {f : α → Except ε β} : ∀ {l : List α} {l' : List β},
    l.mapM f = .ok l' → List.Forall₂ (fun a b => f a = .ok b) l l'
  | [], l', h => by
    simp only [List.mapM_nil] at h
    cases h
    exact .nil
  | a :: l, l', h => by
    rw [List.mapM_cons] at h
    obtain ⟨b, hb, h⟩ := bind_ok h
    obtain ⟨bs, hbs, h⟩ := bind_ok h
    cases h
    exact .cons hb (mapM_ok hbs)

theorem mapM_range_ok {f : Nat → Except ε α} {n : Nat} {l : List α}
    (h : (List.range n).mapM f = .ok l) : l.length = n ∧ ∀ i (hi : i < l.length), f i = .ok l[i] := by
  have hall := mapM_ok h
  refine ⟨by simpa using hall.length_eq.symm, fun i hi => ?_⟩
  simpa using hall.get (by rwa [hall.length_eq]) hi

theorem ok_of_toOption {x : Except ε α} {a : α} (h : x.toOption = some a) : x = .ok a := by
  cases x with
  | ok => exact congrArg Except.ok (Option.some.inj h)
  | error => cases h

theorem map_ok {x : Except ε α} {f : α → β} {b : β} (h : f <$> x = .ok b) :
    ∃ a, x = .ok a ∧ f a = b := by
  cases x with
  | ok a => exact ⟨a, rfl, Except.ok.inj h⟩
  | error => exact absurd h (by simp [Functor.map, Except.map])

end JitLlm.Lib
