import JitLlm.Lib.Utf8
import JitLlm.Tokenizer.Marked

/-!
# `StreamDecoder` — decoding token by token

`ReplaceInvalidUtf8` goes over a text unit by unit: a well-formed sequence as it is, a maximal
subpart of an ill-formed one as U+FFFD. A unit is a byte that is no continuation and continuations
after it, or one byte, so a text may be cut before any byte that is no continuation
(`replace_at_start`); and a unit is the same whatever follows, unless it is a sequence the text ends
in the middle of (`replace_cut`). `CompleteUtf8Prefix` finds that one from the end.
-/

namespace JitLlm.Tokenizer

open Lib List

/-! ## `ReplaceInvalidUtf8` and `CompleteUtf8Prefix` -/

def replacement : Bytes := [0xEF, 0xBF, 0xBD]

/-- `ReplaceInvalidUtf8`'s loop. Every turn takes a byte at least. -/
def replaceFrom : Nat → Bytes → Bytes
  | 0, _ => []
  | turns + 1, p =>
    if p = [] then []
    else
      let (length, subpart) := sequenceAt p
      if length = 0 then replacement ++ replaceFrom turns (p.drop subpart)
      else p.take length ++ replaceFrom turns (p.drop length)

def replaceInvalidUtf8 (bytes : Bytes) : Bytes := replaceFrom bytes.length bytes

/-- The look back for the last byte that is no continuation, from the `back`th from the end. -/
def lookBack (bytes : Bytes) : Nat → Nat → Option Nat
  | 0, _ => none
  | left + 1, back =>
    if back ≤ bytes.length then
      if (bytes.getD (bytes.length - back) 0).toNat &&& 0xC0 ≠ 0x80 then some (bytes.length - back)
      else lookBack bytes left (back + 1)
    else none

def completeUtf8Prefix (bytes : Bytes) : Nat :=
  match lookBack bytes 4 1 with
  | none => bytes.length
  | some start =>
    let (length, subpart) := sequenceAt (bytes.drop start)
    if length ≠ 0 then bytes.length
    else if start + subpart = bytes.length ∧ subpart < 4 ∧ 0xC2 ≤ (bytes.getD start 0).toNat ∧
        (bytes.getD start 0).toNat ≤ 0xF4 then start
    else bytes.length

structure StreamDecoder where
  pending : Bytes := []

namespace StreamDecoder

/-- `Push`: what is left pending, and the text with what is appended. -/
def push (x : Impl) (options : DecodeOptions) (d : StreamDecoder) (token : TokenId) (out : Bytes) :
    Except Error (StreamDecoder × Bytes) := do
  let pending ← x.decode [token] options d.pending
  let complete := completeUtf8Prefix pending
  .ok ({ pending := pending.drop complete },
    out ++ replaceInvalidUtf8 (pending.take complete))

/-- `Finish`: the text with the rest. -/
def finish (d : StreamDecoder) (out : Bytes) : Bytes := out ++ replaceInvalidUtf8 d.pending

def pushAll (x : Impl) (options : DecodeOptions) (tokens : List TokenId) :
    Except Error (StreamDecoder × Bytes) :=
  tokens.foldlM (fun (d, out) token => d.push x options token out) ({}, [])

end StreamDecoder

/-! ## Units -/

def IsTail (b : UInt8) : Prop := 0x80 ≤ b.toNat ∧ b.toNat ≤ 0xBF

theorem isTail_iff (b : UInt8) : b.toNat &&& 0xC0 = 0x80 ↔ IsTail b :=
  Lib.Utf8.forall_byte (P := fun b => b.toNat &&& 0xC0 = 0x80 ↔ 0x80 ≤ b.toNat ∧ b.toNat ≤ 0xBF)
    (by decide +kernel) b

section Continuation

variable {p s : Bytes} {length low high : Nat}

theorem continuation_append : ∀ {left k : Nat}, k ≤ p.length →
    continuation p length low high left k ≠ (0, p.length) →
    continuation (p ++ s) length low high left k = continuation p length low high left k
  | 0, _, _, _ => rfl
  | left + 1, k, hk, h => by
    rw [continuation] at h ⊢
    rw [continuation]
    cases hget : p[k]? with
    | none =>
      rw [hget] at h
      have : p.length ≤ k := List.getElem?_eq_none_iff.mp hget
      exact absurd (congrArg (Prod.mk 0) (Nat.le_antisymm hk this)) h
    | some b =>
      have hlt : k < p.length := (List.getElem?_eq_some_iff.mp hget).1
      rw [hget] at h
      rw [getElem?_append_left hlt, hget]
      simp only at h ⊢
      by_cases hbad : b.toNat < (if k = 1 then low else 0x80) ∨
          (if k = 1 then high else 0xBF) < b.toNat
      · rw [if_pos hbad, if_pos hbad]
      rw [if_neg hbad] at h ⊢
      rw [if_neg hbad]
      exact continuation_append hlt h

theorem continuation_start (hlow : 0x80 ≤ low) (hhigh : high ≤ 0xBF)
    (hs : ∀ b, s.head? = some b → ¬ IsTail b) : ∀ {left k : Nat}, k ≤ p.length →
    continuation (p ++ s) length low high left k = continuation p length low high left k
  | 0, _, _ => rfl
  | left + 1, k, hk => by
    rw [continuation, continuation]
    cases hget : p[k]? with
    | none =>
      have hle : p.length ≤ k := List.getElem?_eq_none_iff.mp hget
      obtain rfl := Nat.le_antisymm hk hle
      rw [getElem?_append_right (Nat.le_refl _), Nat.sub_self, ← List.head?_eq_getElem?]
      rcases hhead : s.head? with _ | b
      · rfl
      have hnot := hs b hhead
      simp only
      rw [if_pos]
      unfold IsTail at hnot
      split <;> omega
    | some b =>
      have hlt : k < p.length := (List.getElem?_eq_some_iff.mp hget).1
      rw [getElem?_append_left hlt, hget]
      simp only
      by_cases hbad : b.toNat < (if k = 1 then low else 0x80) ∨
          (if k = 1 then high else 0xBF) < b.toNat
      · rw [if_pos hbad, if_pos hbad]
      rw [if_neg hbad, if_neg hbad]
      exact continuation_start hlow hhigh hs hlt

theorem continuation_bounds : ∀ {left k : Nat}, k ≤ p.length → k + left = length →
    (continuation p length low high left k = (length, 0) ∧ length ≤ p.length) ∨
      ∃ j, continuation p length low high left k = (0, j) ∧ k ≤ j ∧ j ≤ p.length ∧ j < length
  | 0, k, hk, hleft => .inl ⟨rfl, by omega⟩
  | left + 1, k, hk, hleft => by
    rw [continuation]
    rcases hget : p[k]? with _ | b
    · exact .inr ⟨k, rfl, Nat.le_refl _, hk, by omega⟩
    have hlt : k < p.length := (List.getElem?_eq_some_iff.mp hget).1
    simp only
    by_cases hbad : b.toNat < (if k = 1 then low else 0x80) ∨
        (if k = 1 then high else 0xBF) < b.toNat
    · rw [if_pos hbad]
      exact .inr ⟨k, rfl, Nat.le_refl _, hk, by omega⟩
    rw [if_neg hbad]
    rcases continuation_bounds hlt (show k + 1 + left = length by omega) with
      h | ⟨j, h, hle, hle', hlt'⟩
    · exact .inl h
    · exact .inr ⟨j, h, by omega, hle', hlt'⟩

end Continuation

def Truncated (p : Bytes) : Prop :=
  ∃ c length low high, p.head? = some c ∧ leadByte c.toNat = some (length, low, high) ∧
    continuation p length low high (length - 1) 1 = (0, p.length)

theorem leadByte_bounds {c length low high : Nat} (h : leadByte c = some (length, low, high)) :
    0xC2 ≤ c ∧ c ≤ 0xF4 ∧ 2 ≤ length ∧ length ≤ 4 ∧ 0x80 ≤ low ∧ high ≤ 0xBF := by
  rcases leadByte_cases h with ⟨rfl, rfl, rfl, hc, hc'⟩ | ⟨rfl, rfl, rfl, hc, hc'⟩ |
    ⟨rfl, rfl, rfl, hc, hc'⟩
  · omega
  all_goals refine ⟨by omega, by omega, by omega, by omega, ?_, ?_⟩ <;> split <;> omega

theorem continuation_lead (c : UInt8) (p : Bytes) {length : Nat} (low high : Nat)
    (hlen : 2 ≤ length) : (continuation (c :: p) length low high (length - 1) 1 = (length, 0) ∧
      length ≤ (c :: p).length) ∨
      ∃ j, continuation (c :: p) length low high (length - 1) 1 = (0, j) ∧ 1 ≤ j ∧
        j ≤ (c :: p).length ∧ j < length :=
  continuation_bounds (by simp) (by omega)

def unitLength (p : Bytes) : Nat :=
  if (sequenceAt p).1 = 0 then (sequenceAt p).2 else (sequenceAt p).1

def unitText (p : Bytes) : Bytes :=
  if (sequenceAt p).1 = 0 then replacement else p.take (sequenceAt p).1

theorem sequenceAt_cons (c : UInt8) (p : Bytes) : sequenceAt (c :: p) =
    if c.toNat < 0x80 then (1, 0) else match leadByte c.toNat with
      | none => (0, 1)
      | some (length, low, high) => continuation (c :: p) length low high (length - 1) 1 := rfl

theorem unitLength_bounds {p : Bytes} (hp : p ≠ []) :
    0 < unitLength p ∧ unitLength p ≤ p.length := by
  obtain ⟨c, p, rfl⟩ := exists_cons_of_ne_nil hp
  unfold unitLength
  rw [sequenceAt_cons]
  by_cases hc : c.toNat < 0x80
  · simp [hc]
  rw [if_neg hc]
  rcases hlead : leadByte c.toNat with _ | found
  · simp
  obtain ⟨length, low, high⟩ := found
  obtain ⟨-, -, htwo, -, -, -⟩ := leadByte_bounds hlead
  rcases continuation_lead c p low high htwo with ⟨h, hle⟩ | ⟨j, h, hle, hle', -⟩
  · simp only [h]
    rw [if_neg (by omega)]
    exact ⟨by omega, hle⟩
  simp only [h, if_true]
  exact ⟨by omega, hle'⟩

theorem sequenceAt_append {p : Bytes} (hp : p ≠ []) (h : ¬ Truncated p) (s : Bytes) :
    sequenceAt (p ++ s) = sequenceAt p := by
  obtain ⟨c, p, rfl⟩ := exists_cons_of_ne_nil hp
  rw [cons_append, sequenceAt_cons, sequenceAt_cons]
  by_cases hc : c.toNat < 0x80
  · rw [if_pos hc, if_pos hc]
  rw [if_neg hc, if_neg hc]
  cases hlead : leadByte c.toNat with
  | none => rfl
  | some found =>
    obtain ⟨length, low, high⟩ := found
    exact continuation_append (by simp) fun heq => h ⟨c, length, low, high, rfl, hlead, heq⟩

theorem sequenceAt_start {p s : Bytes} (hp : p ≠ []) (hs : ∀ b, s.head? = some b → ¬ IsTail b) :
    sequenceAt (p ++ s) = sequenceAt p := by
  obtain ⟨c, p, rfl⟩ := exists_cons_of_ne_nil hp
  rw [cons_append, sequenceAt_cons, sequenceAt_cons]
  by_cases hc : c.toNat < 0x80
  · rw [if_pos hc, if_pos hc]
  rw [if_neg hc, if_neg hc]
  rcases hlead : leadByte c.toNat with _ | found
  · rfl
  obtain ⟨-, -, -, -, hlow, hhigh⟩ := leadByte_bounds hlead
  rw [← cons_append]
  exact continuation_start hlow hhigh hs (by simp)

/-! ## Replacing, unit by unit -/

theorem replaceFrom_turns : ∀ {n m : Nat} {p : Bytes}, p.length ≤ n → p.length ≤ m →
    replaceFrom n p = replaceFrom m p
  | 0, m, p, hn, _ => by
    obtain rfl : p = [] := List.length_eq_zero_iff.mp (by omega)
    cases m <;> rfl
  | n + 1, 0, p, _, hm => by
    obtain rfl : p = [] := List.length_eq_zero_iff.mp (by omega)
    rfl
  | n + 1, m + 1, p, hn, hm => by
    rw [replaceFrom, replaceFrom]
    by_cases hp : p = []
    · rw [if_pos hp, if_pos hp]
    rw [if_neg hp, if_neg hp]
    obtain ⟨hpos, hle⟩ := unitLength_bounds hp
    unfold unitLength at hpos hle
    simp only
    split at hpos
    next hzero =>
      rw [if_pos hzero] at hle
      rw [if_pos hzero, if_pos hzero, replaceFrom_turns (m := m)]
      all_goals rw [length_drop]; omega
    rename_i hzero
    rw [if_neg hzero] at hle
    rw [if_neg hzero, if_neg hzero, replaceFrom_turns (m := m)]
    all_goals rw [length_drop]; omega

@[simp] theorem replace_nil : replaceInvalidUtf8 [] = [] := rfl

theorem replace_unit {p : Bytes} (hp : p ≠ []) :
    replaceInvalidUtf8 p = unitText p ++ replaceInvalidUtf8 (p.drop (unitLength p)) := by
  obtain ⟨hpos, hle⟩ := unitLength_bounds hp
  have hlen : p.length = p.length - 1 + 1 := by omega
  conv => lhs; rw [replaceInvalidUtf8, hlen, replaceFrom]
  rw [if_neg hp]
  have hturns : replaceFrom (p.length - 1) (p.drop (unitLength p)) =
      replaceInvalidUtf8 (p.drop (unitLength p)) :=
    replaceFrom_turns (by rw [length_drop]; omega) (Nat.le_refl _)
  unfold unitText
  rw [← hturns]
  unfold unitLength
  simp only
  split <;> rfl

theorem unit_congr {p s : Bytes} (h : sequenceAt (p ++ s) = sequenceAt p)
    (hle : unitLength p ≤ p.length) :
    unitLength (p ++ s) = unitLength p ∧ unitText (p ++ s) = unitText p := by
  unfold unitLength unitText
  rw [h]
  refine ⟨rfl, ?_⟩
  unfold unitLength at hle
  split
  · rfl
  rename_i hzero
  rw [if_neg hzero] at hle
  exact take_append_of_le_length hle

theorem replace_at_start {s : Bytes} (hs : ∀ b, s.head? = some b → ¬ IsTail b) (p : Bytes) :
    replaceInvalidUtf8 (p ++ s) = replaceInvalidUtf8 p ++ replaceInvalidUtf8 s := by
  induction hn : p.length using Nat.strongRecOn generalizing p with
  | ind n ih =>
    by_cases hp : p = []
    · subst hp
      rfl
    obtain ⟨hpos, hle⟩ := unitLength_bounds hp
    obtain ⟨hlen, htext⟩ := unit_congr (sequenceAt_start hp hs) hle
    have happ : p ++ s ≠ [] := by simp [hp]
    rw [replace_unit happ, replace_unit hp, hlen, htext, drop_append_of_le_length hle,
      ih _ (by rw [length_drop]; omega) _ rfl, append_assoc]

theorem replace_cut (p : Bytes) : ∃ c t out, p = c ++ t ∧ (t = [] ∨ Truncated t) ∧
    ∀ s, replaceInvalidUtf8 (p ++ s) = out ++ replaceInvalidUtf8 (t ++ s) := by
  induction hn : p.length using Nat.strongRecOn generalizing p with
  | ind n ih =>
    by_cases hp : p = []
    · subst hp
      exact ⟨[], [], [], rfl, .inl rfl, fun s => rfl⟩
    by_cases htrunc : Truncated p
    · exact ⟨[], p, [], rfl, .inr htrunc, fun s => rfl⟩
    obtain ⟨hpos, hle⟩ := unitLength_bounds hp
    obtain ⟨c, t, out, hct, ht, hcut⟩ := ih _ (by rw [length_drop]; omega)
      (p.drop (unitLength p)) rfl
    refine ⟨p.take (unitLength p) ++ c, t, unitText p ++ out, ?_, ht, fun s => ?_⟩
    · rw [append_assoc, ← hct, take_append_drop]
    obtain ⟨hlen, htext⟩ := unit_congr (sequenceAt_append hp htrunc s) hle
    have happ : p ++ s ≠ [] := by simp [hp]
    rw [replace_unit happ, hlen, htext, drop_append_of_le_length hle, hcut s, append_assoc]

/-! ## The complete prefix -/

theorem continuation_tails {p : Bytes} {length low high : Nat} (hlow : 0x80 ≤ low)
    (hhigh : high ≤ 0xBF) : ∀ {left k : Nat}, 1 ≤ k →
    continuation p length low high left k = (0, p.length) → length ≠ 0 → ∀ j, k ≤ j →
      ∀ b, p[j]? = some b → IsTail b
  | 0, k, _, h, hne, j, _, _, _ => absurd (congrArg Prod.fst h) hne
  | left + 1, k, hk, h, hne, j, hj, b, hb => by
    rw [continuation] at h
    cases hget : p[k]? with
    | none =>
      have := List.getElem?_eq_none_iff.mp hget
      have := (List.getElem?_eq_some_iff.mp hb).1
      omega
    | some b' =>
      have hlt := (List.getElem?_eq_some_iff.mp hget).1
      rw [hget] at h
      simp only at h
      by_cases hbad : b'.toNat < (if k = 1 then low else 0x80) ∨
          (if k = 1 then high else 0xBF) < b'.toNat
      · rw [if_pos hbad] at h
        have := congrArg Prod.snd h
        simp only at this
        omega
      rw [if_neg hbad] at h
      rcases Nat.eq_or_lt_of_le hj with rfl | hj
      · rw [hget] at hb
        cases hb
        unfold IsTail
        split at hbad <;> omega
      · exact continuation_tails hlow hhigh (by omega) h hne j hj b hb

theorem Truncated.shape {t : Bytes} (h : Truncated t) : ∃ c tail, t = c :: tail ∧
    0xC2 ≤ c.toNat ∧ c.toNat ≤ 0xF4 ∧ (∀ b ∈ tail, IsTail b) ∧ t.length ≤ 3 ∧
    sequenceAt t = (0, t.length) := by
  obtain ⟨c, length, low, high, hhead, hlead, hcont⟩ := h
  obtain ⟨hc, hc', htwo, hfour, hlow, hhigh⟩ := leadByte_bounds hlead
  rcases t with _ | ⟨c', tail⟩
  · cases hhead
  cases hhead
  refine ⟨c, tail, rfl, hc, hc', fun b hb => ?_, ?_, ?_⟩
  · obtain ⟨j, hj⟩ := List.mem_iff_getElem?.mp hb
    exact continuation_tails hlow hhigh (Nat.le_refl _) hcont (by omega) (j + 1) (by omega) b hj
  · rcases continuation_lead c tail low high htwo with ⟨h, -⟩ | ⟨j, h, -, -, hlt⟩
    · rw [hcont] at h
      have := congrArg Prod.fst h
      omega
    rw [hcont] at h
    have := congrArg Prod.snd h
    omega
  rw [sequenceAt_cons, if_neg (by omega), hlead]
  exact hcont

theorem lookBack_some {bytes : Bytes} : ∀ {left back start : Nat}, 1 ≤ back →
    lookBack bytes left back = some start → start < bytes.length ∧ ¬ IsTail (bytes.getD start 0)
  | 0, back, start, _, h => by cases h
  | left + 1, back, start, hback, h => by
    rw [lookBack] at h
    split at h
    · split at h
      next hle hnot =>
        cases h
        refine ⟨by omega, fun htail => hnot ?_⟩
        exact (isTail_iff _).mpr htail
      · exact lookBack_some (by omega) h
    · cases h

theorem lookBack_eq {c tail : Bytes} {b : UInt8} (hb : ¬ IsTail b)
    (htail : ∀ d ∈ tail, IsTail d) : ∀ {left back : Nat}, 1 ≤ back → back ≤ tail.length + 1 →
    tail.length + 1 < back + left → lookBack (c ++ b :: tail) left back = some c.length
  | 0, back, _, hle, hlt => by omega
  | left + 1, back, hback, hle, hlt => by
    have hlen : (c ++ b :: tail).length = c.length + (tail.length + 1) := by simp
    rw [lookBack, if_pos (by omega)]
    rcases Nat.eq_or_lt_of_le hle with heq | hlt'
    · have hget : (c ++ b :: tail).getD ((c ++ b :: tail).length - back) 0 = b := by
        rw [hlen, heq, Nat.add_sub_cancel]
        simp
      rw [if_pos]
      · rw [hlen, heq, Nat.add_sub_cancel]
      rw [hget]
      exact fun hand => hb ((isTail_iff b).mp hand)
    rw [if_neg]
    · exact lookBack_eq hb htail (by omega) (by omega) (by omega)
    rw [Decidable.not_not, isTail_iff]
    have hget : (c ++ b :: tail).getD ((c ++ b :: tail).length - back) 0 ∈ tail := by
      rw [hlen, show c.length + (tail.length + 1) - back =
        c.length + 1 + (tail.length - back) by omega]
      rw [getD_eq_getElem?_getD, getElem?_append_right (by omega),
        show c.length + 1 + (tail.length - back) - c.length = tail.length - back + 1 by omega,
        getElem?_cons_succ, getElem?_eq_getElem (by omega), Option.getD_some]
      exact getElem_mem _
    exact htail _ hget

theorem completeUtf8Prefix_truncated (c : Bytes) {t : Bytes} (h : Truncated t) :
    completeUtf8Prefix (c ++ t) = c.length := by
  obtain ⟨b, tail, rfl, hb, hb', htail, hshort, hseq⟩ := h.shape
  rw [length_cons] at hshort
  have hlook : lookBack (c ++ b :: tail) 4 1 = some c.length :=
    lookBack_eq (fun hb'' => by unfold IsTail at hb''; omega) htail (Nat.le_refl _) (by omega)
      (by omega)
  have hget : (c ++ b :: tail).getD c.length 0 = b := by simp
  unfold completeUtf8Prefix
  rw [hlook]
  simp only [drop_left, hseq, hget]
  rw [if_neg (by simp), if_pos]
  refine ⟨by simp, by rw [length_cons]; omega, hb, hb'⟩

theorem replace_complete (p s : Bytes) :
    replaceInvalidUtf8 (p ++ s) = replaceInvalidUtf8 (p.take (completeUtf8Prefix p)) ++
      replaceInvalidUtf8 (p.drop (completeUtf8Prefix p) ++ s) ∧
    (p.drop (completeUtf8Prefix p)).length ≤ 3 := by
  have hwhole : completeUtf8Prefix p = p.length →
      replaceInvalidUtf8 (p ++ s) = replaceInvalidUtf8 (p.take (completeUtf8Prefix p)) ++
        replaceInvalidUtf8 (p.drop (completeUtf8Prefix p) ++ s) ∧
      (p.drop (completeUtf8Prefix p)).length ≤ 3 := by
    intro heq
    rw [heq, take_length, drop_length, nil_append]
    refine ⟨?_, Nat.zero_le _⟩
    obtain ⟨c, t, out, hct, ht, hcut⟩ := replace_cut p
    rcases ht with rfl | ht
    · have hself := hcut []
      simp only [append_nil, replace_nil] at hself
      rw [hcut s, hself, nil_append]
    rw [hct, completeUtf8Prefix_truncated c ht] at heq
    obtain ⟨b, tail, rfl, -⟩ := ht.shape
    rw [length_append, length_cons] at heq
    omega
  cases hlook : lookBack p 4 1 with
  | none =>
    apply hwhole
    unfold completeUtf8Prefix
    rw [hlook]
  | some start =>
    obtain ⟨hlt, hnot⟩ := lookBack_some (Nat.le_refl _) hlook
    by_cases hcut : (sequenceAt (p.drop start)).1 = 0 ∧
        (start + (sequenceAt (p.drop start)).2 = p.length ∧ (sequenceAt (p.drop start)).2 < 4 ∧
          0xC2 ≤ (p.getD start 0).toNat ∧ (p.getD start 0).toNat ≤ 0xF4)
    · have heq : completeUtf8Prefix p = start := by
        unfold completeUtf8Prefix
        rw [hlook]
        simp only
        rw [if_neg (fun hne => hne hcut.1), if_pos hcut.2]
      rw [heq]
      constructor
      · have hstart := replace_at_start (s := p.drop start ++ s) (fun b hb => ?_) (p.take start)
        · rw [← append_assoc, take_append_drop] at hstart
          exact hstart
        rw [drop_eq_getElem_cons hlt] at hb
        cases hb
        rwa [getD_eq_getElem?_getD, getElem?_eq_getElem hlt] at hnot
      rw [length_drop]
      omega
    apply hwhole
    unfold completeUtf8Prefix
    rw [hlook]
    simp only
    split
    · rfl
    rename_i hzero
    rw [if_neg fun h => hcut ⟨Decidable.not_not.mp hzero, h⟩]

/-! ## What is written is well formed -/

theorem sequence_row {c : UInt8} {p : Bytes} (hc : ¬ c.toNat < 0x80)
    (hn : (sequenceAt (c :: p)).1 ≠ 0) :
    ∃ tail, (c :: p).take (sequenceAt (c :: p)).1 = c :: tail ∧ Lib.Utf8.Row c tail := by
  rw [sequenceAt_cons, if_neg hc] at hn ⊢
  rcases hlead : leadByte c.toNat with _ | found
  · rw [hlead] at hn
    exact absurd rfl hn
  obtain ⟨length, low, high⟩ := found
  rw [hlead] at hn
  obtain ⟨heq, hall⟩ := continuation_ok rfl hn
  rw [heq]
  rcases leadByte_cases hlead with ⟨rfl, rfl, rfl, hlo, hhi⟩ | ⟨rfl, rfl, rfl, hlo, hhi⟩ |
    ⟨rfl, rfl, rfl, hlo, hhi⟩
  · obtain ⟨b, hb, hb1, hb2⟩ := hall 1 (by omega) (by omega)
    obtain ⟨rest, rfl⟩ := cons_of_get hb
    exact ⟨[b], rfl, ⟨hlo, hhi⟩, hb1, hb2⟩
  · obtain ⟨b, hb, hb1, hb2⟩ := hall 1 (by omega) (by omega)
    obtain ⟨d, hd, hd1, hd2⟩ := hall 2 (by omega) (by omega)
    obtain ⟨rest, rfl⟩ := cons_of_get hb
    obtain ⟨rest, rfl⟩ := cons_of_get (p := rest) hd
    rw [if_pos rfl] at hb1 hb2
    refine ⟨[b, d], rfl, ⟨hlo, hhi⟩, ⟨?_, ?_⟩, ⟨hd1, hd2⟩, fun he => ?_, fun he => ?_⟩
    · split at hb1 <;> omega
    · split at hb2 <;> omega
    · rwa [if_pos he] at hb1
    · rwa [if_pos he] at hb2
  obtain ⟨b, hb, hb1, hb2⟩ := hall 1 (by omega) (by omega)
  obtain ⟨d, hd, hd1, hd2⟩ := hall 2 (by omega) (by omega)
  obtain ⟨e, he, he1, he2⟩ := hall 3 (by omega) (by omega)
  obtain ⟨rest, rfl⟩ := cons_of_get hb
  obtain ⟨rest, rfl⟩ := cons_of_get (p := rest) hd
  obtain ⟨rest, rfl⟩ := cons_of_get (p := rest) he
  rw [if_pos rfl] at hb1 hb2
  refine ⟨[b, d, e], rfl, ⟨hlo, hhi⟩, ⟨?_, ?_⟩, ⟨hd1, hd2⟩, ⟨he1, he2⟩, fun hx => ?_, fun hx => ?_⟩
  · split at hb1 <;> omega
  · split at hb2 <;> omega
  · rwa [if_pos hx] at hb1
  · rwa [if_pos hx] at hb2

theorem unitText_valid {p : Bytes} (hp : p ≠ []) : Lib.Utf8.Valid (unitText p) := by
  obtain ⟨c, p, rfl⟩ := exists_cons_of_ne_nil hp
  unfold unitText
  split
  · have hscalar : Lib.Utf8.IsScalar 0xFFFD := ⟨by decide, by decide⟩
    exact Lib.Utf8.valid_encode hscalar
  rename_i hn
  by_cases hc : c.toNat < 0x80
  · rw [sequenceAt_cons, if_pos hc]
    exact Lib.Utf8.valid_ascii hc
  obtain ⟨tail, htake, hrow⟩ := sequence_row hc hn
  obtain ⟨cp, hscalar, -, henc⟩ := hrow.encodes
  rw [htake, ← henc]
  exact Lib.Utf8.valid_encode hscalar

theorem replace_valid (p : Bytes) : Lib.Utf8.Valid (replaceInvalidUtf8 p) := by
  induction hn : p.length using Nat.strongRecOn generalizing p with
  | ind n ih =>
    by_cases hp : p = []
    · subst hp
      exact Lib.Utf8.Valid.nil
    obtain ⟨hpos, -⟩ := unitLength_bounds hp
    have := length_pos_of_ne_nil hp
    rw [replace_unit hp]
    exact (unitText_valid hp).append (ih _ (by rw [length_drop]; omega) _ rfl)

/-! ## The stream -/

namespace StreamDecoder

variable {x : Impl} {options : DecodeOptions}

def Known (x : Impl) (id : TokenId) : Prop := 0 ≤ id ∧ id.toNat < x.tokens.length

theorem decode_known : ∀ {tokens : List TokenId} {i : Nat} {out : Bytes},
    (∀ id ∈ tokens, Known x id) →
    x.decodeFromIndex options tokens i out = .ok (out ++ tokens.flatMap (x.tokenBytes options))
  | [], i, out, _ => by rw [Impl.decodeFromIndex, flatMap_nil, append_nil]
  | id :: rest, i, out, h => by
    obtain ⟨hlow, hhigh⟩ := h id mem_cons_self
    have hin : ¬ (id < 0 ∨ x.tokens.length ≤ id.toNat) :=
      not_or.mpr ⟨Int.not_lt.mpr hlow, Nat.not_le.mpr hhigh⟩
    rw [Impl.decodeFromIndex, if_neg hin,
      decode_known fun t ht => h t (mem_cons_of_mem _ ht), flatMap_cons,
      append_assoc]

structure Written (bytes : Bytes) (d : StreamDecoder) (out : Bytes) : Prop where
  whole : ∀ s, replaceInvalidUtf8 (bytes ++ s) = out ++ replaceInvalidUtf8 (d.pending ++ s)
  valid : Lib.Utf8.Valid out
  held : d.pending.length ≤ 3

theorem Written.push (options : DecodeOptions) {bytes : Bytes} {d : StreamDecoder} {out : Bytes}
    {token : TokenId} (h : Written bytes d out) (htoken : Known x token) :
    ∃ d' out', d.push x options token out = .ok (d', out') ∧
      Written (bytes ++ x.tokenBytes options token) d' out' := by
  have hdec : x.decode [token] options d.pending =
      .ok (d.pending ++ x.tokenBytes options token) := by
    have hknown : ∀ id ∈ [token], Known x id := fun id hid => List.mem_singleton.mp hid ▸ htoken
    show x.decodeFromIndex options [token] 0 d.pending = _
    rw [decode_known hknown, flatMap_cons, flatMap_nil, append_nil]
  refine ⟨_, _, by rw [StreamDecoder.push, hdec]; rfl, fun s => ?_, ?_, ?_⟩
  · have hcut := (replace_complete (d.pending ++ x.tokenBytes options token) s).1
    rw [append_assoc, h.whole, ← append_assoc d.pending, hcut, append_assoc]
  · exact h.valid.append (replace_valid _)
  · exact (replace_complete (d.pending ++ x.tokenBytes options token) []).2

theorem Written.pushes (options : DecodeOptions) : ∀ {tokens : List TokenId} {bytes : Bytes}
    {d : StreamDecoder} {out : Bytes}, (∀ id ∈ tokens, Known x id) → Written bytes d out →
    ∃ d' out', tokens.foldlM (fun (d, out) token => d.push x options token out) (d, out) =
      (.ok (d', out') : Except Error (StreamDecoder × Bytes)) ∧
      Written (bytes ++ tokens.flatMap (x.tokenBytes options)) d' out'
  | [], bytes, d, out, _, h => ⟨d, out, rfl, by rwa [flatMap_nil, append_nil]⟩
  | token :: tokens, bytes, d, out, htok, h => by
    obtain ⟨d1, out1, hpush, h1⟩ := h.push options (htok token mem_cons_self)
    obtain ⟨d2, out2, hrun, h2⟩ := h1.pushes options fun id hid => htok id (mem_cons_of_mem _ hid)
    refine ⟨d2, out2, ?_, ?_⟩
    · rw [foldlM_cons]
      simp only [hpush]
      exact hrun
    rw [flatMap_cons, ← append_assoc]
    exact h2

theorem pushAll_written (options : DecodeOptions) {tokens : List TokenId}
    (htok : ∀ id ∈ tokens, Known x id) : ∃ d out, pushAll x options tokens = .ok (d, out) ∧
      Written (tokens.flatMap (x.tokenBytes options)) d out := by
  have hstart : Written [] {} [] := ⟨fun _ => rfl, Lib.Utf8.Valid.nil, Nat.zero_le _⟩
  exact hstart.pushes options htok

/-- **Streaming decode equals whole decode.** -/
theorem stream_decodes (x : Impl) (options : DecodeOptions) (tokens : List TokenId)
    (htokens : ∀ id ∈ tokens, 0 ≤ id ∧ id.toNat < x.tokens.length) :
    (∃ whole d out, x.decode tokens options [] = .ok whole ∧
      pushAll x options tokens = .ok (d, out) ∧ d.finish out = replaceInvalidUtf8 whole) ∧
    ∀ k, ∃ d out, pushAll x options (tokens.take k) = .ok (d, out) ∧ Lib.Utf8.Valid out ∧
      d.pending.length ≤ 3 := by
  constructor
  · obtain ⟨d, out, hrun, hwrit⟩ := pushAll_written options htokens
    refine ⟨_, d, out, decode_known htokens, hrun, ?_⟩
    have hwhole := hwrit.whole []
    rw [append_nil, append_nil] at hwhole
    exact hwhole.symm
  intro k
  obtain ⟨d, out, hrun, hwrit⟩ := pushAll_written options
    fun id (hid : id ∈ tokens.take k) => htokens id (mem_of_mem_take hid)
  exact ⟨d, out, hrun, hwrit.valid, hwrit.held⟩

def halves : Impl where
  tokens := [[0xE2], [0x82, 0xAC]]
  kinds := [.normal, .normal]
  decoded := [[0xE2], [0x82, 0xAC]]
  preTokenizer := .qwen2
  normalization := .none
  ignoreMerges := false
  bos := none
  eos := none
  addBos := false
  addEos := false

theorem stream_decodes_halves : ∃ whole d out, halves.decode [0, 1] ⟨true⟩ [] = .ok whole ∧
    pushAll halves ⟨true⟩ [0, 1] = .ok (d, out) ∧ d.finish out = replaceInvalidUtf8 whole :=
  (stream_decodes halves ⟨true⟩ [0, 1] (by decide)).1

end StreamDecoder
end JitLlm.Tokenizer
