import JitLlm.Base.JsonRead

/-!
# UTF-8 in and out

The check before parsing passes just the valid texts. A text cut where the grammar cuts it is cut at
ASCII bytes, so every string of a valid text is valid; and a quoted text is a string's.
-/

namespace JitLlm.Base.Json

open Lib List Option

/-! ## The check -/

section Check

variable {c : UInt8} {tail rest : List UInt8} {length low high : Nat}

theorem sequence_row (hseq : sequenceOf c.toNat = some (length, low, high))
    (h : continues length low high rest = true) :
    ∃ tail rest', rest = tail ++ rest' ∧ tail.length + 1 = length ∧ Utf8.Row c tail := by
  unfold continues at h
  simp only [Bool.and_eq_true, decide_eq_true_eq] at h
  obtain ⟨⟨hlen, hhead⟩, htail⟩ := h
  unfold sequenceOf at hseq
  split at hseq
  next hc =>
    obtain ⟨rfl, rfl, rfl⟩ := hseq
    match rest, hlen, hhead with
    | b :: rest, _, hhead => exact ⟨[b], rest, rfl, rfl, hc, by simpa [Utf8.Tail] using hhead⟩
  split at hseq
  next hc =>
    obtain ⟨rfl, rfl, rfl⟩ := hseq
    match rest, hlen, hhead, htail with
    | b :: d :: rest, _, hhead, htail =>
      simp only [head?_cons, any_some, Bool.and_eq_true, decide_eq_true_eq] at hhead
      simp only [Nat.reduceSub, take_succ_cons, take_zero, drop_succ_cons,
        drop_zero, all_cons, all_nil, Bool.and_true, Bool.and_eq_true,
        decide_eq_true_eq] at htail
      refine ⟨[b, d], rest, rfl, rfl, hc, ⟨?_, ?_⟩, htail, ?_, ?_⟩
      · have := hhead.1
        split at this <;> omega
      · have := hhead.2
        split at this <;> omega
      · intro heq
        rw [if_pos heq] at hhead
        exact hhead.1
      intro heq
      rw [if_pos heq] at hhead
      exact hhead.2
  split at hseq
  next hc =>
    obtain ⟨rfl, rfl, rfl⟩ := hseq
    match rest, hlen, hhead, htail with
    | b :: d :: e :: rest, _, hhead, htail =>
      simp only [head?_cons, any_some, Bool.and_eq_true, decide_eq_true_eq] at hhead
      simp only [Nat.reduceSub, take_succ_cons, take_zero, drop_succ_cons,
        drop_zero, all_cons, all_nil, Bool.and_true, Bool.and_eq_true,
        decide_eq_true_eq] at htail
      refine ⟨[b, d, e], rest, rfl, rfl, hc, ⟨?_, ?_⟩, htail.1, htail.2, ?_, ?_⟩
      · have := hhead.1
        split at this <;> omega
      · have := hhead.2
        split at this <;> omega
      · intro heq
        rw [if_pos heq] at hhead
        exact hhead.1
      intro heq
      rw [if_pos heq] at hhead
      exact hhead.2
  · cases hseq

theorem row_sequence (h : Utf8.Row c tail) (rest : List UInt8) :
    ∃ low high, sequenceOf c.toNat = some (tail.length + 1, low, high) ∧
      continues (tail.length + 1) low high (tail ++ rest) = true := by
  unfold Utf8.Row at h
  unfold sequenceOf continues
  split at h
  next b =>
    obtain ⟨hc, hb⟩ := h
    refine ⟨0x80, 0xBF, by rw [if_pos hc]; rfl, ?_⟩
    simpa [Utf8.Tail] using hb
  next b d =>
    obtain ⟨hc, hb, hd, hlow, hhigh⟩ := h
    refine ⟨_, _, by rw [if_neg (by omega), if_pos hc]; rfl, ?_⟩
    obtain ⟨hb, hb'⟩ := hb
    obtain ⟨hd, hd'⟩ := hd
    simp only [length_cons, length_nil, cons_append, nil_append,
      head?_cons, any_some, Nat.reduceAdd, Nat.reduceSub, take_succ_cons,
      take_zero, drop_succ_cons, drop_zero, all_cons, all_nil,
      Bool.and_true, Bool.and_eq_true, decide_eq_true_eq]
    refine ⟨⟨by omega, ?_, ?_⟩, hd, hd'⟩
    · split <;> omega
    · split <;> omega
  next b d e =>
    obtain ⟨hc, hb, hd, he, hlow, hhigh⟩ := h
    refine ⟨_, _, by rw [if_neg (by omega), if_neg (by omega), if_pos hc]; rfl, ?_⟩
    obtain ⟨hb, hb'⟩ := hb
    obtain ⟨hd, hd'⟩ := hd
    obtain ⟨he, he'⟩ := he
    simp only [length_cons, length_nil, cons_append, nil_append,
      head?_cons, any_some, Nat.reduceAdd, Nat.reduceSub, take_succ_cons,
      take_zero, drop_succ_cons, drop_zero, all_cons, all_nil,
      Bool.and_true, Bool.and_eq_true, decide_eq_true_eq]
    refine ⟨⟨by omega, ?_, ?_⟩, ⟨hd, hd'⟩, he, he'⟩
    · split <;> omega
    · split <;> omega
  · exact h.elim

theorem firstInvalidFrom_none (n : Nat) : ∀ (i : Nat) {bytes : List UInt8}, bytes.length ≤ n →
    (firstInvalidFrom n i bytes = none ↔ Utf8.Valid bytes) := by
  induction n with
  | zero =>
    intro i bytes hle
    obtain rfl := length_eq_zero_iff.mp (Nat.le_zero.mp hle)
    exact ⟨fun _ => .nil, fun _ => rfl⟩
  | succ n ih =>
    intro i bytes hle
    rcases bytes with _ | ⟨c, rest⟩
    · exact ⟨fun _ => .nil, fun _ => rfl⟩
    have hle : rest.length ≤ n := Nat.le_of_succ_le_succ hle
    unfold firstInvalidFrom
    by_cases hc : c.toNat < 0x80
    · rw [if_pos hc, ih (i + 1) hle]
      constructor
      · exact fun h => (Utf8.valid_ascii hc).append h
      exact fun h => Utf8.Valid.drop_ascii (w := [c]) h (forall_mem_singleton.mpr hc)
    rw [if_neg hc]
    constructor
    · intro h
      split at h
      · cases h
      rename_i length low high hseq
      split at h
      next hcon =>
        obtain ⟨tail, rest', rfl, hlen, hrow⟩ := sequence_row hseq hcon
        have hdrop : (tail ++ rest').drop (length - 1) = rest' := by
          rw [← hlen, Nat.add_sub_cancel, drop_left]
        rw [hdrop, ih _ (by
          rw [length_append] at hle
          omega)] at h
        obtain ⟨cp, hscalar, -, henc⟩ := hrow.encodes
        rw [← cons_append, ← henc]
        exact (Utf8.valid_encode hscalar).append h
      · cases h
    intro h
    rcases h.cases with hnil | ⟨c', rest', heq, hc', -⟩ | ⟨c', tail, rest', heq, hrow, hvalid⟩
    · cases hnil
    · obtain ⟨rfl, -⟩ := List.cons.inj heq
      exact absurd hc' hc
    rw [cons_append] at heq
    cases heq
    obtain ⟨low, high, hseq, hcon⟩ := row_sequence hrow rest'
    rw [hseq]
    simp only [hcon, if_true, Nat.add_sub_cancel, drop_left]
    rw [ih _ (by
      rw [length_append] at hle
      omega)]
    exact hvalid

theorem firstInvalidUtf8_none {bytes : List UInt8} :
    firstInvalidUtf8 bytes = none ↔ Utf8.Valid bytes :=
  firstInvalidFrom_none _ 0 (Nat.le_refl _)

end Check

/-! ## Strings of valid texts -/

section Strings

variable {t bytes w rest : List UInt8} {α : Type} {Q : α → List UInt8 → Prop}

theorem blank_ascii (h : Blank w) : ∀ b ∈ w, b.toNat < 0x80 := by
  intro b hb
  have hspace := h b hb
  simp only [isSpace, Bool.or_eq_true, decide_eq_true_eq] at hspace
  rcases hspace with ((rfl | rfl) | rfl) | rfl <;> decide

theorem ascii_cons {b : UInt8} (hb : b.toNat < 0x80) (rest : List UInt8) :
    Utf8.Ascii (b :: rest) := by
  intro c hc
  cases hc
  exact hb

theorem ascii_blank {b : UInt8} (hw : Blank w) (hb : b.toNat < 0x80) (rest : List UInt8) :
    Utf8.Ascii (w ++ b :: rest) := by
  cases w with
  | nil => exact ascii_cons hb rest
  | cons c => exact ascii_cons (blank_ascii hw c mem_cons_self) _

theorem shortEscape_ascii {e c : UInt8} (h : shortEscape e = some c) :
    e.toNat < 0x80 ∧ c.toNat < 0x80 := by
  unfold shortEscape at h
  split at h
  next he =>
    cases h
    simp only [Bool.or_eq_true, decide_eq_true_eq] at he
    rcases he with (rfl | rfl) | rfl <;> decide
  iterate 5
    split at h
    next he =>
      cases h
      subst he
      decide
  cases h

theorem cut_escape (esc : List UInt8) {p : List UInt8} (hesc : ∀ b ∈ esc, b.toNat < 0x80)
    (h : Utf8.Valid (p ++ 0x5c :: (esc ++ t))) : Utf8.Valid p ∧ Utf8.Valid t := by
  obtain ⟨hp, hrest⟩ := h.split (ascii_cons (by decide) _)
  refine ⟨hp, Utf8.Valid.drop_ascii (w := 0x5c :: esc) hrest fun b hb => ?_⟩
  rcases mem_cons.mp hb with rfl | hb
  · decide
  · exact hesc b hb

theorem Chars.valid (h : Chars t bytes) :
    ∀ {p : List UInt8}, Utf8.Valid (p ++ t) → Utf8.Valid (p ++ bytes) := by
  induction h with
  | nil => exact fun h => h
  | @plain c t bytes _ _ ih =>
    intro p h
    have := ih (p := p ++ [c]) (by simpa using h)
    simpa using this
  | @short e c t bytes hshort _ ih =>
    intro p h
    obtain ⟨he, hc⟩ := shortEscape_ascii hshort
    obtain ⟨hp, ht⟩ := cut_escape [e] (forall_mem_singleton.mpr he) h
    exact hp.append ((Utf8.valid_ascii hc).append (ih (p := []) ht))
  | @unit hx u t bytes hu hnot _ ih =>
    intro p h
    obtain ⟨-, hlt, hascii⟩ := hexUnit_spec hu
    obtain ⟨hp, ht⟩ := cut_escape (0x75 :: hx) (fun b hb => by
      rcases mem_cons.mp hb with rfl | hb
      · decide
      · exact hascii b hb) h
    exact hp.append ((Utf8.valid_encode ⟨by omega, by omega⟩).append (ih (p := []) ht))
  | @pair hx u hx' u' t bytes hu hhigh hu' hlow _ ih =>
    intro p h
    obtain ⟨-, -, hascii⟩ := hexUnit_spec hu
    obtain ⟨-, -, hascii'⟩ := hexUnit_spec hu'
    obtain ⟨hp, ht⟩ := cut_escape (t := t) (0x75 :: hx ++ 0x5c :: 0x75 :: hx') (fun b hb => by
      simp only [cons_append, mem_cons, mem_append] at hb
      rcases hb with rfl | hb | rfl | rfl | hb
      · decide
      · exact hascii b hb
      · decide
      · decide
      · exact hascii' b hb) (by simpa using h)
    exact hp.append ((Utf8.valid_encode ⟨by omega, by omega⟩).append (ih (p := []) ht))

theorem Quoted.valid (h : Quoted bytes t) (ht : Utf8.Valid t) : Utf8.Valid bytes := by
  obtain ⟨body, hchars, rfl⟩ := h
  have hbody : Utf8.Valid (body ++ [0x22]) :=
    Utf8.Valid.drop_ascii (w := [0x22]) ht (forall_mem_singleton.mpr (by decide))
  exact hchars.valid (p := []) (hbody.split (ascii_cons (by decide) _)).1

def Strings (v : Value) : Prop := ∀ bytes, Value.string bytes ∈ v.all → Utf8.Valid bytes

theorem strings_of_children {v : Value} (hv : ∀ bytes, v = .string bytes → Utf8.Valid bytes)
    (h : ∀ c ∈ v.children, Strings c) : Strings v := by
  intro bytes hmem
  rw [Value.all_eq] at hmem
  rcases mem_cons.mp hmem with heq | hmem
  · exact hv bytes heq.symm
  obtain ⟨c, hc, hmem⟩ := mem_flatMap.mp hmem
  exact h c hc bytes hmem

theorem Sep.valid {as : List α} (h : Sep Q as t) (hrest : Utf8.Ascii rest)
    (hvalid : Utf8.Valid (t ++ rest)) : ∀ a ∈ as, ∃ ta, Q a ta ∧ Utf8.Valid ta := by
  induction h with
  | @last a t w hQ hblank =>
    rw [append_assoc] at hvalid
    have hascii : Utf8.Ascii (w ++ rest) := by
      cases w with
      | nil => exact hrest
      | cons c => exact ascii_cons (blank_ascii hblank c mem_cons_self) _
    exact forall_mem_singleton.mpr ⟨t, hQ, (hvalid.split hascii).1⟩
  | @next a as t w w' t' hQ hblank hblank' _ ih =>
    have htext : t ++ w ++ 0x2c :: w' ++ t' ++ rest = t ++ (w ++ 0x2c :: (w' ++ (t' ++ rest))) := by
      simp
    rw [htext] at hvalid
    obtain ⟨ht, hmore⟩ := hvalid.split (ascii_blank hblank (by decide) _)
    have hcomma := hmore.drop_ascii (blank_ascii hblank)
    have hmore' := Utf8.Valid.drop_ascii (w := 0x2c :: w') hcomma fun b hb => by
      rcases mem_cons.mp hb with rfl | hb
      · decide
      · exact blank_ascii hblank' b hb
    intro b hb
    rcases mem_cons.mp hb with rfl | hb
    · exact ⟨t, hQ, ht⟩
    · exact ih hmore' b hb

theorem Bracketed.valid {as : List α} {openByte closeByte : UInt8} (hopen : openByte.toNat < 0x80)
    (hclose : closeByte.toNat < 0x80) (h : Bracketed openByte closeByte Q as t)
    (hvalid : Utf8.Valid t) : ∀ a ∈ as, ∃ ta, Q a ta ∧ Utf8.Valid ta := by
  cases h with
  | empty => exact fun a ha => (nomatch ha)
  | @items _ w t hblank hsep =>
    have htext : openByte :: w ++ t ++ [closeByte] =
        (openByte :: w) ++ (t ++ [closeByte]) := by simp
    rw [htext] at hvalid
    refine hsep.valid (ascii_cons hclose []) (hvalid.drop_ascii fun b hb => ?_)
    rcases mem_cons.mp hb with rfl | hb
    · exact hopen
    · exact blank_ascii hblank b hb

theorem MemberText.valid {P : Value → List UInt8 → Prop} {m : List UInt8 × Value}
    (h : MemberText P m t) (hvalid : Utf8.Valid t) :
    Utf8.Valid m.1 ∧ ∃ tv, P m.2 tv ∧ Utf8.Valid tv := by
  obtain ⟨tk, w, w', tv, hquoted, hblank, hblank', hP, rfl⟩ := h
  have htext : tk ++ w ++ 0x3a :: w' ++ tv = tk ++ (w ++ 0x3a :: (w' ++ tv)) := by simp
  rw [htext] at hvalid
  obtain ⟨hkey, hmore⟩ := hvalid.split (ascii_blank hblank (by decide) _)
  have hcolon := hmore.drop_ascii (blank_ascii hblank)
  refine ⟨hquoted.valid hkey, tv, hP, Utf8.Valid.drop_ascii (w := 0x3a :: w') hcolon fun b hb => ?_⟩
  rcases mem_cons.mp hb with rfl | hb
  · decide
  · exact blank_ascii hblank' b hb

theorem IsText.strings (n : Nat) : ∀ {v : Value} {t : List UInt8}, IsText n v t → Utf8.Valid t →
    Strings v := by
  have hleaf : ∀ {v : Value}, v.children = [] →
      (∀ bytes, v = .string bytes → Utf8.Valid bytes) → Strings v := by
    intro v hnil hv
    refine strings_of_children hv fun c hc => ?_
    rw [hnil] at hc
    cases hc
  have hstring : ∀ {n : Nat} {bytes t : List UInt8}, IsText n (.string bytes) t → Utf8.Valid t →
      Strings (.string bytes) := by
    intro n bytes t h ht
    refine hleaf rfl fun bytes' heq => ?_
    obtain rfl := Value.string.inj heq
    exact (isText_string.mp h).valid ht
  induction n with
  | zero =>
    intro v t h ht
    cases v with
    | string => exact hstring h ht
    | array | object => exact (nomatch h)
    | _ => exact hleaf rfl fun bytes heq => (nomatch heq)
  | succ n ih =>
    intro v t h ht
    cases v with
    | string => exact hstring h ht
    | array =>
      refine strings_of_children nofun fun c hc => ?_
      obtain ⟨tc, htc, hvalid⟩ := (isText_array.mp h).valid (by decide) (by decide) ht c hc
      exact ih htc hvalid
    | object =>
      refine strings_of_children nofun fun c hc => ?_
      obtain ⟨m, hm, hc⟩ := mem_flatMap.mp hc
      obtain ⟨tm, htm, hvalid⟩ := (isText_object.mp h).2.valid (by decide) (by decide) ht m hm
      obtain ⟨hkey, tv, htv, hvalid'⟩ := htm.valid hvalid
      rcases mem_cons.mp hc with rfl | hc
      · refine hleaf rfl fun bytes heq => ?_
        obtain rfl := Value.string.inj heq
        exact hkey
      obtain rfl := mem_singleton.mp hc
      exact ih htv hvalid'
    | _ => exact hleaf rfl fun bytes heq => (nomatch heq)

theorem IsDocument.strings {n : Nat} {v : Value} {text : List UInt8} (h : IsDocument n v text)
    (hvalid : Utf8.Valid text) : Strings v := by
  obtain ⟨w, t, w', hblank, htext, hblank', rfl⟩ := h
  rw [append_assoc] at hvalid
  have hmore := hvalid.drop_ascii (blank_ascii hblank)
  refine htext.strings n (hmore.split fun c hc => ?_).1
  exact blank_ascii hblank' c (mem_of_mem_head? hc)

end Strings
end JitLlm.Base.Json
