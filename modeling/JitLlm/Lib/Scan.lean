import JitLlm.Lib.Sat
import Mathlib.Data.List.TakeWhile

/-!
# Scanners of bytes

A scanner takes a cursor — what is left of a text, how far it is, and a state of the scanner's own
— and answers a value and a cursor further on, or an error. What it scans is a relation of the
value, the state before and after, and the bytes taken: `Sound`, from a state as it should be it
takes nothing the relation does not have; `Complete`, where the relation has some bytes and what
follows them is admitted, it takes exactly those.

`commaLoop` is the loop of the bracketed lists: items with commas between, to the closing byte.
-/

namespace JitLlm.Lib

open List

structure Cursor (σ : Type) where
  rest : List UInt8
  pos : Nat
  own : σ

abbrev Scan (ε σ α : Type) := Cursor σ → Except ε (α × Cursor σ)

namespace Cursor

variable {σ : Type}

def advance (x : Cursor σ) (n : Nat) : Cursor σ :=
  { x with rest := x.rest.drop n, pos := x.pos + n }

/-- The bytes that satisfy `p` are passed over; `f` is what they do to the state. -/
def skipWhile (p : UInt8 → Bool) (f : List UInt8 → σ → σ) (x : Cursor σ) : Cursor σ where
  rest := x.rest.dropWhile p
  pos := x.pos + (x.rest.takeWhile p).length
  own := f (x.rest.takeWhile p) x.own

end Cursor

namespace Scan

variable {ε σ α β : Type}

def Sound (I : σ → Prop) (p : Scan ε σ α) (R : α → σ → σ → List UInt8 → Prop) : Prop :=
  ∀ x v x', I x.own → p x = .ok (v, x') →
    ∃ t, x.rest = t ++ x'.rest ∧ x'.pos = x.pos + t.length ∧ R v x.own x'.own t

def Complete (p : Scan ε σ α) (R : α → σ → σ → List UInt8 → Prop) (F : List UInt8 → Prop) : Prop :=
  ∀ v s s' t rest pos, R v s s' t → F rest →
    p ⟨t ++ rest, pos, s⟩ = .ok (v, ⟨rest, pos + t.length, s'⟩)

/-! ## Passing over bytes -/

section SkipWhile

variable {p : UInt8 → Bool} {f : List UInt8 → σ → σ}

def Skipped (p : UInt8 → Bool) (f : List UInt8 → σ → σ) (s s' : σ) (w : List UInt8) : Prop :=
  (∀ b ∈ w, p b = true) ∧ s' = f w s

def Stops (p : UInt8 → Bool) (rest : List UInt8) : Prop := ∀ b, rest.head? = some b → p b = false

theorem skipWhile_sound (x : Cursor σ) : ∃ w, x.rest = w ++ (x.skipWhile p f).rest ∧
    (x.skipWhile p f).pos = x.pos + w.length ∧ Skipped p f x.own (x.skipWhile p f).own w := by
  refine ⟨x.rest.takeWhile p, (takeWhile_append_dropWhile).symm, rfl, fun b hb => ?_, rfl⟩
  exact mem_takeWhile_imp hb

theorem skipWhile_stops (x : Cursor σ) : Stops p (x.skipWhile p f).rest := by
  intro b hb
  have hmem : (x.rest.dropWhile p).head? = some b := hb
  have hnot := head?_dropWhile_not p x.rest
  rw [hmem] at hnot
  simpa using hnot

theorem skipWhile_eq {w rest : List UInt8} {s : σ} (pos : Nat) (hw : ∀ b ∈ w, p b = true)
    (hrest : Stops p rest) : (⟨w ++ rest, pos, s⟩ : Cursor σ).skipWhile p f =
      ⟨rest, pos + w.length, f w s⟩ := by
  have htake : (w ++ rest).takeWhile p = w := by
    rw [takeWhile_append_of_pos hw]
    cases rest with
    | nil => simp
    | cons b => simp [hrest b rfl]
  have hdrop : (w ++ rest).dropWhile p = rest := by
    rw [dropWhile_append_of_pos hw]
    cases rest with
    | nil => rfl
    | cons b => simp [hrest b rfl]
  simp only [Cursor.skipWhile, htake, hdrop]

theorem skipWhile_of_stops {x : Cursor σ} (hf : ∀ s, f [] s = s) (h : Stops p x.rest) :
    x.skipWhile p f = x := by
  obtain ⟨rest, pos, s⟩ := x
  have := skipWhile_eq (w := []) (f := f) (s := s) pos (fun b hb => absurd hb not_mem_nil) h
  simpa [hf] using this

theorem skipWhile_idem (x : Cursor σ) (hf : ∀ s, f [] s = s) :
    (x.skipWhile p f).skipWhile p f = x.skipWhile p f :=
  skipWhile_of_stops hf (skipWhile_stops x)

end SkipWhile

/-! ## Lists with commas -/

/-- Items with what passes between them, a comma and what passes with it. -/
inductive Listed (R : α → σ → σ → List UInt8 → Prop) (W C : σ → σ → List UInt8 → Prop) :
    List α → σ → σ → List UInt8 → Prop
  | last {a s₁ s₂ s₃ t w} : R a s₁ s₂ t → W s₂ s₃ w → Listed R W C [a] s₁ s₃ (t ++ w)
  | next {a as s₁ s₂ s₃ s₄ s₅ t w u t'} : R a s₁ s₂ t → W s₂ s₃ w → C s₃ s₄ u →
      Listed R W C as s₄ s₅ t' → Listed R W C (a :: as) s₁ s₅ (t ++ w ++ u ++ t')

def commaByte : UInt8 := 0x2c

section CommaLoop

variable (item : Scan ε σ α) (comma : Cursor σ → Except ε (Cursor σ)) (skip : Cursor σ → Cursor σ)
  (close : UInt8) (stuck : Cursor σ → ε)

def commaLoop : Nat → List α → Scan ε σ (List α)
  | 0, _, x => .error (stuck (skip x))
  | n + 1, seen, x => do
    let (a, x) ← item x
    let x := skip x
    if x.rest.head? = some commaByte then commaLoop n (seen ++ [a]) (← comma x)
    else if x.rest.head? = some close then .ok (seen ++ [a], x.advance 1)
    else .error (stuck x)

variable {item comma skip close stuck}

theorem commaLoop_lead (hskip : ∀ x, skip (skip x) = skip x) (n : Nat) :
    ∀ (seen : List α) (x : Cursor σ),
    commaLoop (fun x => item (skip x)) comma skip close stuck n seen x =
      commaLoop item (fun x => skip <$> comma x) skip close stuck n seen (skip x) := by
  induction n with
  | zero =>
    intro seen x
    unfold commaLoop
    rw [hskip]
  | succ n ih =>
    intro seen x
    unfold commaLoop
    rcases item (skip x) with _ | y
    · rfl
    simp only [ok_bind]
    split
    · cases comma (skip y.2) with
      | error => rfl
      | ok x' => exact ih _ x'
    · rfl

section Correct

variable {I : σ → Prop} {R : α → σ → σ → List UInt8 → Prop} {W C : σ → σ → List UInt8 → Prop}

theorem commaLoop_sound (hitem : Sound I item R)
    (hkeeps : ∀ a s s' t, I s → R a s s' t → I s') (hblank : ∀ s s' w, I s → W s s' w → I s')
    (hbet : ∀ s s' u, I s → C s s' u → I s')
    (hskip : ∀ x, ∃ w, x.rest = w ++ (skip x).rest ∧ (skip x).pos = x.pos + w.length ∧
      W x.own (skip x).own w) (hcomma : ∀ x x', x.rest.head? = some commaByte → comma x = .ok x' →
      ∃ u, x.rest = u ++ x'.rest ∧ x'.pos = x.pos + u.length ∧ C x.own x'.own u) :
    ∀ (n : Nat) (seen : List α) (x : Cursor σ) {as : List α} {x' : Cursor σ}, I x.own →
      commaLoop item comma skip close stuck n seen x = .ok (as, x') →
      ∃ as' t, as = seen ++ as' ∧ x.rest = t ++ close :: x'.rest ∧
        x'.pos = x.pos + t.length + 1 ∧ Listed R W C as' x.own x'.own t := by
  intro n
  induction n with
  | zero =>
    intro seen x as x' _ h
    cases h
  | succ n ih =>
    intro seen x as x' hI h
    obtain ⟨⟨a, x1⟩, ha, h⟩ := bind_ok h
    obtain ⟨t, hrest, hpos, hR⟩ := hitem x a x1 hI ha
    obtain ⟨w, hrest1, hpos1, hW⟩ := hskip x1
    have hI1 : I (skip x1).own := hblank _ _ w (hkeeps _ _ _ _ hI hR) hW
    simp only at h
    split at h
    next hbyte =>
      obtain ⟨x2, hx2, h⟩ := bind_ok h
      obtain ⟨u, hrest2, hpos2, hC⟩ := hcomma _ x2 hbyte hx2
      obtain ⟨as', t', has, hrest3, hpos3, hlis⟩ := ih _ x2 (hbet _ _ u hI1 hC) h
      refine ⟨a :: as', t ++ w ++ u ++ t', by simp [has], ?_, ?_, .next hR hW hC hlis⟩
      · rw [hrest, hrest1, hrest2, hrest3]
        simp
      rw [hpos3, hpos2, hpos1, hpos]
      simp only [length_append]
      omega
    split at h
    next hbyte =>
      cases Except.ok.inj h
      refine ⟨[a], t ++ w, rfl, ?_, ?_, .last hR hW⟩
      · obtain ⟨rest, hrest2⟩ := List.head?_eq_some_iff.mp hbyte
        rw [hrest, hrest1, hrest2]
        simp [Cursor.advance, hrest2]
      show (skip x1).pos + 1 = _
      rw [hpos1, hpos, length_append]
      omega
    · cases h

theorem Listed.length_le (hcomma : ∀ {s s' u}, C s s' u → u ≠ []) {as : List α} {s s' : σ}
    {t : List UInt8} (h : Listed R W C as s s' t) : as.length ≤ t.length + 1 := by
  induction h with
  | last => simp
  | next _ _ hC =>
    have := List.length_pos_iff.mpr (hcomma hC)
    simp only [length_cons, length_append]
    omega

theorem commaLoop_complete {F N G : List UInt8 → Prop} (hne : close ≠ commaByte)
    (hitem : Complete item R F) (hskip : ∀ s s' w rest pos, W s s' w → N rest →
      skip ⟨w ++ rest, pos, s⟩ = ⟨rest, pos + w.length, s'⟩)
    (hcomma : ∀ s s' u rest pos, C s s' u → G rest →
      comma ⟨u ++ rest, pos, s⟩ = .ok ⟨rest, pos + u.length, s'⟩)
    (hhead : ∀ {s s' u}, C s s' u → u.head? = some commaByte)
    (hfol : ∀ s s' w b rest, W s s' w → b = commaByte ∨ b = close → F (w ++ b :: rest))
    (hstop : ∀ b rest, b = commaByte ∨ b = close → N (b :: rest))
    (hstart : ∀ a s s' t rest, R a s s' t → G (t ++ rest)) :
    ∀ (n : Nat) {as : List α} {s s' : σ} {t : List UInt8} (seen : List α) (rest : List UInt8)
      (pos : Nat), Listed R W C as s s' t → as.length ≤ n →
      commaLoop item comma skip close stuck n seen ⟨t ++ close :: rest, pos, s⟩ =
        .ok (seen ++ as, ⟨rest, pos + t.length + 1, s'⟩) := by
  intro n
  induction n with
  | zero =>
    intro as s s' t seen rest pos h hle
    cases h with
    | last | next => simp at hle
  | succ n ih =>
    intro as s s' t seen rest pos h hle
    unfold commaLoop
    cases h with
    | @last a _ s2 _ t w hR hW =>
      rw [append_assoc, hitem a s s2 t _ pos hR (hfol _ _ _ _ _ hW (.inr rfl)), ok_bind]
      simp only
      rw [hskip _ _ w _ _ hW (hstop _ _ (.inr rfl))]
      simp only [head?_cons, Option.some.injEq, if_neg hne, if_true, Cursor.advance,
        drop_one, tail_cons]
      rw [length_append, Nat.add_assoc pos]
    | @next a as _ s2 s3 s4 _ t w u t' hR hW hC hlis =>
      obtain ⟨u', rfl⟩ := List.head?_eq_some_iff.mp (hhead hC)
      rw [append_assoc, append_assoc, append_assoc, cons_append,
        hitem a s s2 t _ pos hR (hfol _ _ _ _ _ hW (.inl rfl)), ok_bind]
      simp only
      rw [hskip _ _ w _ _ hW (hstop _ _ (.inl rfl))]
      simp only [head?_cons, if_true]
      have hG : G (t' ++ close :: rest) := by
        cases hlis with
        | last hR' =>
          rw [append_assoc]
          exact hstart _ _ _ _ _ hR'
        | next hR' =>
          simp only [append_assoc]
          exact hstart _ _ _ _ _ hR'
      have hstep := hcomma _ _ _ (t' ++ close :: rest) (pos + t.length + w.length) hC hG
      rw [cons_append] at hstep
      rw [hstep, ok_bind, ih _ rest _ hlis (by simpa using hle)]
      simp only [append_assoc, cons_append, nil_append, length_append,
        length_cons, Except.ok.injEq, Prod.mk.injEq, Cursor.mk.injEq, true_and, and_true]
      omega

end Correct

end CommaLoop

end Scan
end JitLlm.Lib
