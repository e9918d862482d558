import JitLlm.Tokenizer.Unicode

/-!
# Normalization Form C, by its definition

`Uax15` says what UAX #15 asks for of any combining classes and composites: the runs of nonzero
classes sorted stably (`Ordered`), and then each character combined with the last starter where the
pair has a composite and nothing between them blocks it (`Part.step`). `ToNfc` decides blocking from
the class of the last character kept: in a sorted run that one is the greatest between.
-/

namespace JitLlm.Tokenizer

open List

namespace Uax15

variable (ccc : Nat → Nat) (composite : Nat → Nat → Nat)

/-! ## The order -/

/-- A run sorted by class, characters of one class in their order. -/
structure StablySorted (run out : List Nat) : Prop where
  perm : out.Perm run
  sorted : out.Pairwise fun a b => ccc a ≤ ccc b
  stable : ∀ k, (out.filter fun c => ccc c = k) = run.filter fun c => ccc c = k

inductive Ordered : List Nat → List Nat → Prop
  | run {run sorted} : (∀ c ∈ run, ccc c ≠ 0) → StablySorted ccc run sorted → Ordered run sorted
  | starter {run sorted z xs ys} : (∀ c ∈ run, ccc c ≠ 0) → StablySorted ccc run sorted →
      ccc z = 0 → Ordered xs ys → Ordered (run ++ z :: xs) (sorted ++ z :: ys)

/-! ## Composition -/

/-- A text composed so far: what is before the last starter, the starter as composed so far, and
    what was kept after it. -/
structure Part where
  before : List Nat := []
  starter : Option Nat := none
  between : List Nat := []

namespace Part

def text (x : Part) : List Nat := x.before ++ x.starter.toList ++ x.between

def Blocked (between : List Nat) (c : Nat) : Prop := ∃ b ∈ between, ccc b = 0 ∨ ccc c ≤ ccc b

instance (between : List Nat) (c : Nat) : Decidable (Blocked ccc between c) :=
  inferInstanceAs (Decidable (∃ b ∈ between, ccc b = 0 ∨ ccc c ≤ ccc b))

def keep (x : Part) (c : Nat) : Part :=
  if ccc c = 0 then { before := x.text, starter := some c, between := [] }
  else if x.starter.isSome then { x with between := x.between ++ [c] }
  else { x with before := x.before ++ [c] }

def step (x : Part) (c : Nat) : Part :=
  match x.starter with
  | none => x.keep ccc c
  | some s =>
    if composite s c ≠ 0 ∧ ¬ Blocked ccc x.between c then { x with starter := some (composite s c) }
    else x.keep ccc c

end Part

def compose (text : List Nat) : List Nat := (text.foldl (Part.step ccc composite) {}).text

/-! ## Classes along an ordered text -/

/-- After a character of class `p`, a nonzero class is not below the one before it. -/
def Rising (p : Nat) : List Nat → Prop
  | [] => True
  | c :: rest => (ccc c ≠ 0 → p ≤ ccc c) ∧ Rising (ccc c) rest

theorem rising_append {sorted rest : List Nat} (hsor : sorted.Pairwise fun a b => ccc a ≤ ccc b) :
    ∀ {p : Nat}, (∀ c ∈ sorted, p ≤ ccc c) → (∀ q, Rising ccc q rest) →
      Rising ccc p (sorted ++ rest) := by
  induction sorted with
  | nil => exact fun {p} _ hrest => hrest p
  | cons c sorted ih =>
    intro p hp hrest
    rw [pairwise_cons] at hsor
    exact ⟨fun _ => hp c mem_cons_self, ih hsor.2 hsor.1 hrest⟩

theorem Ordered.rising {xs ys : List Nat} (h : Ordered ccc xs ys) : Rising ccc 0 ys := by
  induction h with
  | run _ hsor =>
    have hris : Rising ccc 0 (_ ++ []) :=
      rising_append ccc hsor.sorted (fun _ _ => Nat.zero_le _) fun _ => trivial
    rwa [append_nil] at hris
  | starter _ hsor hz _ ih =>
    refine rising_append ccc hsor.sorted (fun _ _ => Nat.zero_le _) fun q => ?_
    refine ⟨fun hne => absurd hz hne, ?_⟩
    rw [hz]
    exact ih

end Uax15

namespace UnicodeData

open Uax15

variable (u : UnicodeData) {x : Part} {c : Composing} {p cp l v a : Nat}

theorem reorder_ordered {run : List Nat} (hrun : ∀ c ∈ run, u.combiningClassOf c ≠ 0)
    (xs : List Nat) : Ordered u.combiningClassOf (run ++ xs) (u.reorder run xs) := by
  have hsor : ∀ run, StablySorted u.combiningClassOf run (Lib.sortBy u.combiningClassOf run) :=
    fun run => ⟨Lib.sortBy_perm _ _, Lib.sortBy_sorted _ _, fun k => Lib.sortBy_filter _ k _⟩
  induction xs generalizing run with
  | nil =>
    rw [append_nil]
    exact .run hrun (hsor run)
  | cons c xs ih =>
    unfold reorder
    split
    next hzero =>
      have hrest : Ordered u.combiningClassOf ([] ++ xs) (u.reorder [] xs) := ih nofun
      exact .starter hrun (hsor run) hzero hrest
    rename_i hzero
    have hrest : Ordered u.combiningClassOf (run ++ [c] ++ xs) (u.reorder (run ++ [c]) xs) := by
      apply ih
      intro c' hc'
      rcases mem_append.mp hc' with hc' | hc'
      · exact hrun c' hc'
      rw [mem_singleton.mp hc']
      exact hzero
    rwa [append_assoc] at hrest

/-- The loop's state for a text composed so far, after a character of class `p`. -/
structure Follows (x : Part) (p : Nat) (c : Composing) : Prop where
  text : c.text = x.text
  starter : c.starter = x.starter.map fun _ => x.before.length
  unstarted : x.starter = none → x.between = []
  last : x.between ≠ [] → ∃ b ∈ x.between, u.combiningClassOf b = c.lastCcc
  most : ∀ b ∈ x.between, u.combiningClassOf b ≠ 0 ∧ u.combiningClassOf b ≤ c.lastCcc
  prior : x.between ≠ [] → c.lastCcc ≤ p

variable {u}

theorem Follows.keep (h : Follows u x p c)
    (hcp : u.combiningClassOf cp ≠ 0 → p ≤ u.combiningClassOf cp) :
    Follows u (x.keep u.combiningClassOf cp) (u.combiningClassOf cp)
      { text := c.text ++ [cp]
        starter := if u.combiningClassOf cp = 0 then some c.text.length else c.starter
        lastCcc := u.combiningClassOf cp } := by
  unfold Part.keep
  split
  next hzero =>
    refine ⟨?_, ?_, nofun, fun hne => absurd rfl hne,
      fun b hb => (nomatch hb), fun hne => absurd rfl hne⟩
    · rw [h.text]
      simp [Part.text]
    simp only [Option.map_some]
    rw [h.text]
  rename_i hzero
  have hp := hcp hzero
  split
  next hsome =>
    refine ⟨?_, ?_, fun hnone => ?_, fun _ => ⟨cp, by simp, rfl⟩, fun b hb => ?_,
      fun _ => Nat.le_refl _⟩
    · rw [h.text]
      simp [Part.text]
    · exact h.starter
    · simp only at hnone
      rw [hnone] at hsome
      cases hsome
    rcases mem_append.mp hb with hb | hb
    · obtain ⟨hne, hle⟩ := h.most b hb
      exact ⟨hne, Nat.le_trans hle (Nat.le_trans (h.prior (ne_nil_of_mem hb)) hp)⟩
    rw [mem_singleton.mp hb]
    exact ⟨hzero, Nat.le_refl _⟩
  rename_i hnone
  have hnone : x.starter = none := by simpa using hnone
  have hbet := h.unstarted hnone
  refine ⟨?_, ?_, fun _ => hbet, fun hne => absurd hbet hne, fun b hb => ?_,
    fun hne => absurd hbet hne⟩
  · rw [h.text]
    simp [Part.text, hnone, hbet]
  · simp only [h.starter, hnone, Option.map_none]
  simp only [hbet] at hb
  cases hb

theorem Follows.blocked {s : Nat} (h : Follows u x p c) (hs : x.starter = some s) :
    (c.text.length - 1 = x.before.length ∨
      (c.lastCcc ≠ 0 ∧ c.lastCcc < u.combiningClassOf cp)) ↔
    ¬ Part.Blocked u.combiningClassOf x.between cp := by
  have hlen : c.text.length = x.before.length + 1 + x.between.length := by
    rw [h.text, Part.text, hs]
    simp only [length_append, Option.toList_some, length_singleton]
  by_cases hbet : x.between = []
  · have : c.text.length - 1 = x.before.length := by
      rw [hlen, hbet]
      simp
    simp [this, Part.Blocked, hbet]
  obtain ⟨b, hb, hlast⟩ := h.last hbet
  have hpos := length_pos_of_ne_nil hbet
  constructor
  · rintro (hadj | ⟨-, hlt⟩) ⟨b', hb', hblock⟩
    · omega
    obtain ⟨hne, hle⟩ := h.most b' hb'
    rcases hblock with hblock | hblock
    · exact hne hblock
    · omega
  intro hfree
  refine .inr ⟨hlast ▸ (h.most b hb).1, ?_⟩
  by_contra hnot
  exact hfree ⟨b, hb, .inr (by omega)⟩

theorem Follows.step (h : Follows u x p c)
    (hcp : u.combiningClassOf cp ≠ 0 → p ≤ u.combiningClassOf cp) :
    Follows u (x.step u.combiningClassOf u.compose cp) (u.combiningClassOf cp)
      (u.composeStep c cp) := by
  have hkeep := h.keep hcp
  unfold composeStep Part.step
  rw [h.starter]
  rcases hs : x.starter with _ | s
  · rw [h.starter, hs] at hkeep
    exact hkeep
  have hget : c.text.getD x.before.length 0 = s := by
    rw [h.text, Part.text, hs]
    simp
  rw [h.starter, hs] at hkeep
  simp only [Option.map_some, hget, h.blocked hs] at hkeep ⊢
  by_cases hfree : Part.Blocked u.combiningClassOf x.between cp
  · rw [if_neg (fun hn => hn.2 hfree), if_neg (fun hn => hn hfree)]
    exact hkeep
  by_cases hcom : u.compose s cp = 0
  · rw [if_neg (fun hn => hn.1 hcom), if_pos hfree, if_neg (fun hn => hn hcom)]
    exact hkeep
  rw [if_pos ⟨hcom, hfree⟩, if_pos hfree, if_pos hcom]
  refine ⟨?_, ?_, nofun, h.last, h.most, fun hne => ?_⟩
  · show c.text.set x.before.length (u.compose s cp) = _
    rw [h.text, Part.text, hs]
    simp [Part.text]
  · rfl
  -- what is not blocked has a class above all between
  obtain ⟨b, hb, hlast⟩ := h.last hne
  have hlt : ¬ (u.combiningClassOf b = 0 ∨ u.combiningClassOf cp ≤ u.combiningClassOf b) :=
    fun hblock => hfree ⟨b, hb, hblock⟩
  show c.lastCcc ≤ _
  omega

theorem Follows.run {xs : List Nat} : ∀ {x : Part} {p : Nat} {c : Composing}, Follows u x p c →
    Rising u.combiningClassOf p xs →
      (xs.foldl u.composeStep c).text =
        (xs.foldl (Part.step u.combiningClassOf u.compose) x).text := by
  induction xs with
  | nil => exact fun {x p c} h _ => h.text
  | cons cp xs ih => exact fun {x p c} h hris => ih (h.step hris.1) hris.2

/-! ## Hangul -/

def IsSyllable (cp : Nat) : Prop := 0xAC00 ≤ cp ∧ cp < 0xAC00 + 11172
def IsLeading (cp : Nat) : Prop := 0x1100 ≤ cp ∧ cp < 0x1100 + 19
def IsVowel (cp : Nat) : Prop := 0x1161 ≤ cp ∧ cp < 0x1161 + 21
def IsTrailing (cp : Nat) : Prop := 0x11A7 < cp ∧ cp < 0x11A7 + 28

variable (u)

theorem decompose_syllable (h : IsSyllable cp) :
    u.decompose cp = [0x1100 + (cp - 0xAC00) / 588, 0x1161 + ((cp - 0xAC00) % 588) / 28] ++
      (if (cp - 0xAC00) % 28 ≠ 0 then [0x11A7 + (cp - 0xAC00) % 28] else []) := by
  unfold decompose
  rw [if_pos (show 0xAC00 ≤ cp ∧ cp < 0xAC00 + 11172 from h)]

theorem compose_vowel (hl : IsLeading l) (hv : IsVowel v) :
    u.compose l v = 0xAC00 + ((l - 0x1100) * 21 + (v - 0x1161)) * 28 := by
  unfold compose
  rw [if_pos ⟨hl.1, hl.2, hv.1, hv.2⟩]

theorem compose_trailing {t : Nat} (ha : IsSyllable a) (hopen : (a - 0xAC00) % 28 = 0)
    (ht : IsTrailing t) : u.compose a t = a + (t - 0x11A7) := by
  obtain ⟨hlow, hhigh⟩ := ha
  unfold compose
  rw [if_neg (by omega), if_pos ⟨hlow, hhigh, hopen, ht.1, ht.2⟩]

theorem compose_decompose (h : IsSyllable cp) :
    ∃ l v t, u.decompose cp = l :: v :: t ∧ IsLeading l ∧ IsVowel v ∧ (∀ c ∈ t, IsTrailing c) ∧
      t.length ≤ 1 ∧ u.compose l v ≠ 0 ∧ t.foldl u.compose (u.compose l v) = cp := by
  have hdec := u.decompose_syllable h
  obtain ⟨hlow, hhigh⟩ := h
  obtain ⟨s, rfl⟩ := Nat.exists_eq_add_of_le hlow
  rw [Nat.add_sub_cancel_left] at hdec
  have hl : IsLeading (0x1100 + s / 588) := ⟨by omega, by omega⟩
  have hv : IsVowel (0x1161 + s % 588 / 28) := ⟨by omega, by omega⟩
  have hlv : u.compose (0x1100 + s / 588) (0x1161 + s % 588 / 28) = 0xAC00 + (s - s % 28) := by
    rw [u.compose_vowel hl hv]
    omega
  split at hdec
  next hclosed =>
    have ht : IsTrailing (0x11A7 + s % 28) := ⟨by omega, by omega⟩
    refine ⟨_, _, [0x11A7 + s % 28], hdec, hl, hv, ?_, Nat.le_refl _, ?_, ?_⟩
    · intro c hc
      rw [mem_singleton.mp hc]
      exact ht
    · omega
    rw [foldl_cons, foldl_nil, hlv, u.compose_trailing ⟨by omega, by omega⟩ (by omega) ht]
    omega
  refine ⟨_, _, [], hdec, hl, hv, fun c hc => (nomatch hc), Nat.zero_le _, ?_, ?_⟩
  · omega
  rw [foldl_nil, hlv]
  omega

theorem decompose_compose_vowel (hl : IsLeading l) (hv : IsVowel v) :
    u.decompose (u.compose l v) = [l, v] := by
  rw [u.compose_vowel hl hv]
  obtain ⟨hl, hl'⟩ := hl
  obtain ⟨hv, hv'⟩ := hv
  obtain ⟨i, rfl⟩ := Nat.exists_eq_add_of_le hl
  obtain ⟨j, rfl⟩ := Nat.exists_eq_add_of_le hv
  rw [Nat.add_sub_cancel_left, Nat.add_sub_cancel_left,
    u.decompose_syllable ⟨by omega, by omega⟩, Nat.add_sub_cancel_left, if_neg (by omega)]
  rw [show (i * 21 + j) * 28 / 588 = i by omega, show (i * 21 + j) * 28 % 588 / 28 = j by omega,
    append_nil]

theorem decompose_compose_trailing {t : Nat} (ha : IsSyllable a) (hopen : (a - 0xAC00) % 28 = 0)
    (ht : IsTrailing t) : u.decompose (u.compose a t) = u.decompose a ++ [t] := by
  rw [u.compose_trailing ha hopen ht, u.decompose_syllable ha]
  obtain ⟨hlow, hhigh⟩ := ha
  obtain ⟨ht, ht'⟩ := ht
  rw [if_neg (fun hne => hne hopen), append_nil,
    u.decompose_syllable ⟨by omega, by omega⟩, if_pos (by omega)]
  rw [show (a + (t - 0x11A7) - 0xAC00) / 588 = (a - 0xAC00) / 588 by omega,
    show (a + (t - 0x11A7) - 0xAC00) % 588 / 28 = (a - 0xAC00) % 588 / 28 by omega,
    show 0x11A7 + (a + (t - 0x11A7) - 0xAC00) % 28 = t by omega]

theorem recomposed {t : List Nat} (hl : u.combiningClassOf l = 0) (ht : t.length ≤ 1)
    (hlv : u.compose l v ≠ 0) (hcp : cp ≠ 0) (hfold : t.foldl u.compose (u.compose l v) = cp) :
    Uax15.compose u.combiningClassOf u.compose (l :: v :: t) = [cp] := by
  have hfirst : Part.step u.combiningClassOf u.compose
      (Part.step u.combiningClassOf u.compose {} l) v =
        { before := [], starter := some (u.compose l v), between := [] } := by
    simp [Part.step, Part.keep, hl, Part.text, hlv, Part.Blocked]
  unfold Uax15.compose
  rw [foldl_cons, foldl_cons, hfirst]
  rcases t with _ | ⟨c, t⟩
  · rw [foldl_nil] at hfold
    simp [Part.text, hfold]
  obtain rfl : t = [] := length_eq_zero_iff.mp (by rw [length_cons] at ht; omega)
  rw [foldl_cons, foldl_nil] at hfold
  simp [Part.step, Part.text, Part.Blocked, hfold, hcp]

/-- **NFC composition follows UAX #15.** -/
theorem toNfc_uax15 : (∀ text, u.quickCheckNfc 0 text = false →
      ∃ ordered, Ordered u.combiningClassOf (text.flatMap u.decompose) ordered ∧
        u.toNfc text = Uax15.compose u.combiningClassOf u.compose ordered) ∧
    (∀ cp, IsSyllable cp → ∃ l v t, u.decompose cp = l :: v :: t ∧
      t.foldl u.compose (u.compose l v) = cp ∧
      (u.combiningClassOf l = 0 →
        Uax15.compose u.combiningClassOf u.compose (u.decompose cp) = [cp])) ∧
    (∀ l v, IsLeading l → IsVowel v → u.decompose (u.compose l v) = [l, v]) ∧
    (∀ a t, IsSyllable a → (a - 0xAC00) % 28 = 0 → IsTrailing t →
      u.decompose (u.compose a t) = u.decompose a ++ [t]) := by
  refine ⟨fun text hquick => ?_, fun cp hcp => ?_, fun l v => u.decompose_compose_vowel,
    fun a t => u.decompose_compose_trailing⟩
  · have hord : Ordered u.combiningClassOf ([] ++ text.flatMap u.decompose)
        (u.reorder [] (text.flatMap u.decompose)) := by
      apply u.reorder_ordered
      intro c hc
      cases hc
    refine ⟨_, hord, ?_⟩
    have hstart : Follows u {} 0 {} := ⟨rfl, rfl, fun _ => rfl, fun hne => absurd rfl hne,
      fun b hb => (nomatch hb), fun hne => absurd rfl hne⟩
    unfold toNfc
    rw [hquick, if_neg Bool.false_ne_true]
    exact hstart.run hord.rising
  obtain ⟨l, v, t, hdec, -, -, -, ht, hlv, hfold⟩ := u.compose_decompose hcp
  refine ⟨l, v, t, hdec, hfold, fun hl => ?_⟩
  rw [hdec]
  exact u.recomposed hl ht hlv (by obtain ⟨hlow, -⟩ := hcp; omega) hfold

end UnicodeData
end JitLlm.Tokenizer
