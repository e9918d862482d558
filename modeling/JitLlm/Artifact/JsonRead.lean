import JitLlm.Artifact.JsonText

/-!
# The strict parser reads exactly those texts

One step a constructor: a word, an integer, a string, an array, an object. Then by the nesting left.
-/

namespace JitLlm.Artifact.Json

open Lib List

/-! ## Members -/

section Members

variable {q : Parser Value} {P : Value → Bool → List UInt8 → Prop}

theorem memberAt_sound (hq : Scan.Sound Own.Fine q (Reading P Value.counts)) :
    Scan.Sound Own.Fine (memberAt fun x => q (skipSpace x))
      (Reading (MemberText P) memberCounts) := by
  intro x m x' hfine h
  unfold memberAt at h
  split at h
  · cases h
  rename_i hquote
  have hquote : x.rest.head? = some 0x22 := Decidable.not_not.mp hquote
  obtain ⟨⟨key, x1⟩, hkey, h⟩ := bind_ok h
  obtain ⟨tk, hrest1, hpos1, hquoted, hcap, hown1⟩ := parseString_sound hquote hkey
  obtain ⟨w, hrest2, hpos2, hblank, hown2⟩ := skipSpace_sound x1
  simp only at h
  split at h
  · cases h
  rename_i hcolon
  have hcolon : (skipSpace x1).rest.head? = some 0x3a := Decidable.not_not.mp hcolon
  obtain ⟨rest3, hrest3⟩ := List.head?_eq_some_iff.mp hcolon
  obtain ⟨x2, hx2, h⟩ := bind_ok h
  obtain ⟨hcap', hx2⟩ := separator_sound hx2
  obtain ⟨w', hrest4, hpos4, hblank', hown4⟩ := skipSpace_sound x2
  obtain ⟨⟨v, x5⟩, hv, h⟩ := bind_ok h
  cases Except.ok.inj h
  have hsep : x.own.separators + 1 ≤ kMaxSeparators := by
    rw [hown2, hown1] at hcap'
    exact hcap'
  have hown : (skipSpace x2).own = x.own.after { separators := 1, strings := 1 }
      (!key.contains 0x7f && w.isEmpty && w'.isEmpty) := by
    rw [hown4, hx2]
    rw [hown2, hown1]
    simp only [Own.after_after, Bool.and_true, add_zero]
    rfl
  have hfine' : (skipSpace x2).own.Fine := by
    rw [hown]
    exact ⟨hfine.containers, hsep, hcap⟩
  obtain ⟨tv, hrest5, hpos5, cv, hP, hwit, hown5⟩ := hq _ v x5 hfine' hv
  have hrest3' : x2.rest = rest3 := by simp [hx2, Cursor.advance, hrest3]
  have hpos3 : x2.pos = (skipSpace x1).pos + 1 := by rw [hx2]; rfl
  refine ⟨tk ++ w ++ 0x3a :: w' ++ tv, ?_, ?_, _, ⟨w, w', cv, tv, tk, hquoted, hblank, hblank', hP,
    rfl, rfl⟩, ?_, ?_⟩
  · rw [hrest1, hrest2, hrest3, ← hrest3', hrest4, hrest5]
    simp
  · rw [hpos5, hpos4, hpos3, hpos2, hpos1]
    simp only [length_append, length_cons]
    omega
  · rw [hown, Own.after_counts, add_assoc] at hwit
    exact hwit
  rw [hown5, hown, Own.after_after, Bool.and_assoc]
  rfl

theorem memberAt_complete (hq : Scan.Complete q (Reading P Value.counts) Ends)
    (hstart : ∀ v c t rest, P v c t → Scan.Stops isSpace (t ++ rest)) :
    Scan.Complete (memberAt fun x => q (skipSpace x)) (Reading (MemberText P) memberCounts)
      Ends := by
  rintro ⟨key, v⟩ s s' t rest pos ⟨c, ⟨w, w', cv, tv, tk, hquoted, hblank, hblank', hP, rfl, rfl⟩,
    hwit, rfl⟩ hends
  have hcounts : s.counts + memberCounts (key, v) =
      s.counts + { separators := 1, strings := 1 } + v.counts := (add_assoc _ _ _).symm
  have hleft : (s.counts + { separators := 1, strings := 1 }).Within := by
    rw [hcounts] at hwit
    exact hwit.left
  have hfirst : (tk ++ w ++ 0x3a :: w' ++ tv ++ rest).head? = some 0x22 := by
    rw [hquoted.2]
    rfl
  have hkey := parseString_complete (w ++ (0x3a :: (w' ++ (tv ++ rest)))) s pos
    hquoted hleft.strings
  have hcolonStops : Scan.Stops isSpace (0x3a :: (w' ++ (tv ++ rest))) := by
    intro b hb
    obtain rfl := Option.some.inj hb
    rfl
  have hskip := skipSpace_eq (s := s.after { strings := 1 } (!key.contains 0x7f))
    (pos + tk.length) hblank hcolonStops
  have hsep := separator_complete 0x3a (w' ++ (tv ++ rest))
    (s := (s.after { strings := 1 } (!key.contains 0x7f)).after 0 w.isEmpty)
    (pos + tk.length + w.length) hleft.separators
  have hskip' := skipSpace_eq
    (s := ((s.after { strings := 1 } (!key.contains 0x7f)).after 0 w.isEmpty).after
      { separators := 1 } true) (pos + tk.length + w.length + 1) hblank' (hstart _ _ _ rest hP)
  have hown : (((s.after { strings := 1 } (!key.contains 0x7f)).after 0 w.isEmpty).after
      { separators := 1 } true).after 0 w'.isEmpty = s.after { separators := 1, strings := 1 }
        (!key.contains 0x7f && w.isEmpty && w'.isEmpty) := by
    simp only [Own.after_after, Bool.and_true, add_zero]
    rfl
  rw [hown] at hskip'
  have hvalue := hq v (s.after { separators := 1, strings := 1 }
      (!key.contains 0x7f && w.isEmpty && w'.isEmpty)) _ tv rest
    (pos + tk.length + w.length + 1 + w'.length)
    ⟨cv, hP, by rw [Own.after_counts, ← hcounts]; exact hwit, rfl⟩ hends
  have htext : tk ++ w ++ 0x3a :: w' ++ tv ++ rest =
      tk ++ (w ++ (0x3a :: (w' ++ (tv ++ rest)))) := by simp
  have hlen : pos + tk.length + w.length + 1 + w'.length + tv.length =
      pos + (tk ++ w ++ 0x3a :: w' ++ tv).length := by
    simp only [length_append, length_cons]
    omega
  unfold memberAt
  rw [if_neg (Decidable.not_not.mpr hfirst), htext, hkey, ok_bind]
  simp only [hskip]
  rw [if_neg (Decidable.not_not.mpr head?_cons), hsep, ok_bind, hskip', hvalue, ok_bind]
  rw [hlen, Own.after_after, Bool.and_assoc]
  rfl

end Members

/-! ## Values -/

section Values

variable {n : Nat} {v : Value} {c : Bool} {t rest : List UInt8} {x x' : Cursor Own} {s s' : Own}
  {inner : Option (Parser Value)}

def Took (n : Nat) (v : Value) (x x' : Cursor Own) : Prop :=
  ∃ t, x.rest = t ++ x'.rest ∧ x'.pos = x.pos + t.length ∧
    Reading (Written n) Value.counts v x.own x'.own t

theorem word_sound (hfine : x.own.Fine) (h : parseWord x = .ok (v, x')) : Took n v x x' := by
  unfold parseWord at h
  split at h
  next word v' hfind =>
    obtain ⟨rfl, rfl⟩ := Prod.mk.inj (Except.ok.inj h)
    have hmem := mem_of_find?_eq_some hfind
    have hlead := find?_some hfind
    obtain ⟨rest, hrest⟩ := List.isPrefixOf_iff_prefix.mp hlead
    have hdrop : x.rest.drop word.length = rest := by
      rw [← hrest]
      exact drop_left
    have hcounts : v'.counts = 0 := by
      simp only [words, mem_cons, not_mem_nil, or_false, Prod.mk.injEq] at hmem
      rcases hmem with ⟨rfl, rfl⟩ | ⟨rfl, rfl⟩ | ⟨rfl, rfl⟩ <;> simp [Value.counts]
    refine ⟨word, ?_, rfl, true, ?_, ?_, ?_⟩
    · show x.rest = word ++ x.rest.drop word.length
      rw [hdrop]
      exact hrest.symm
    · simp only [words, mem_cons, not_mem_nil, or_false, Prod.mk.injEq] at hmem
      rcases hmem with ⟨rfl, rfl⟩ | ⟨rfl, rfl⟩ | ⟨rfl, rfl⟩
      · exact written_true.mpr ⟨rfl, rfl⟩
      · exact written_false.mpr ⟨rfl, rfl⟩
      · exact written_null.mpr ⟨rfl, rfl⟩
    · rw [hcounts, add_zero]
      exact hfine
    rw [hcounts, Own.after_zero]
    rfl
  · cases h

theorem scalar_sound (inner : Option (Parser Value)) {b : UInt8}
    (hhead : x.rest = b :: rest) (hb : ¬ (b = 0x7b || b = 0x5b) = true)
    (hfine : x.own.Fine) (h : parseAt inner x = .ok (v, x')) : Took n v x x' := by
  unfold parseAt at h
  rw [hhead] at h
  simp only [if_neg hb] at h
  split at h
  next hquote =>
    obtain ⟨⟨bytes, x1⟩, hbytes, h⟩ := bind_ok h
    cases Except.ok.inj h
    obtain ⟨t, hrest, hpos, hquoted, hcap, hown⟩ :=
      parseString_sound (by rw [hhead, hquote]; rfl) hbytes
    refine ⟨t, hrest, hpos, _, written_string.mpr ⟨hquoted, rfl⟩, ?_, ?_⟩
    · exact ⟨hfine.containers, hfine.separators, hcap⟩
    · rw [hown, Value.counts]
  split at h
  · obtain ⟨raw, value, rfl, hrest, hpos, negative, digits, hint, hvalue, hown⟩ :=
      parseInteger_sound h
    refine ⟨raw, hrest, hpos, _, written_integer.mpr ⟨rfl, negative, digits, hint, hvalue, rfl⟩,
      ?_, ?_⟩
    · rw [Value.counts, add_zero]
      exact hfine
    · rw [hown, Value.counts]
  · exact word_sound hfine h

theorem parseMember_eq (n : Nat) : parseMember (parseValue n) =
    fun x => memberAt (fun x => bare n (skipSpace x)) (skipSpace x) := by
  rw [parseValue_eq]
  rfl

theorem after_container (s : Own) (k : Counts) (c : Bool) :
    ({ s with containers := s.containers + 1 } : Own).after k c =
      s.after ({ containers := 1 } + k) c := by
  simp [Own.after, Nat.add_assoc]

theorem counts_container (s : Own) (k : Counts) :
    ({ s with containers := s.containers + 1 } : Own).counts + k =
      s.counts + ({ containers := 1 } + k) := by
  rw [← add_assoc]
  rfl

section

variable (hq : Scan.Sound Own.Fine (bare n) (Reading (Written n) Value.counts))
include hq

theorem array_sound (hhead : x.rest.head? = some 0x5b) (hfine : x.own.Fine)
    (hcap : x.own.containers + 1 ≤ kMaxContainers) (h : parseArray (parseValue n)
      { x with own := { x.own with containers := x.own.containers + 1 } } = .ok (v, x')) :
    Took (n + 1) v x x' := by
  rw [parseValue_eq] at h
  obtain ⟨⟨items, x1⟩, hitems, h⟩ := bind_ok h
  cases Except.ok.inj h
  have hfine' : Own.Fine { x.own with containers := x.own.containers + 1 } :=
    ⟨hcap, hfine.separators, hfine.strings⟩
  obtain ⟨t, hrest, hpos, c, htext, hwit, hown⟩ := parseItems_sound (x := { x with
    own := { x.own with containers := x.own.containers + 1 } }) hq hfine' hhead hitems
  refine ⟨t, hrest, hpos, c, written_array.mpr htext, ?_, ?_⟩
  · rw [array_counts, ← counts_container]
    exact hwit
  rw [array_counts, ← after_container]
  exact hown

theorem object_sound (hhead : x.rest.head? = some 0x7b) (hfine : x.own.Fine)
    (hcap : x.own.containers + 1 ≤ kMaxContainers) (h : parseObject (parseValue n)
      { x with own := { x.own with containers := x.own.containers + 1 } } = .ok (v, x')) :
    Took (n + 1) v x x' := by
  unfold parseObject at h
  rw [parseMember_eq] at h
  obtain ⟨⟨members, x1⟩, hmem, h⟩ := bind_ok h
  have hfine' : Own.Fine { x.own with containers := x.own.containers + 1 } :=
    ⟨hcap, hfine.separators, hfine.strings⟩
  obtain ⟨t, hrest, hpos, c, htext, hwit, hown⟩ := parseItems_sound (x := { x with
    own := { x.own with containers := x.own.containers + 1 } }) (memberAt_sound hq) hfine' hhead
    hmem
  have hcounts : (x.own.counts + (Value.object members).counts).Within := by
    rw [object_counts, ← counts_container]
    exact hwit
  have hafter : x1.own = x.own.after (Value.object members).counts c := by
    rw [object_counts, ← after_container]
    exact hown
  simp only at h
  split at h
  next hasc =>
    cases Except.ok.inj h
    refine ⟨t, hrest, hpos, c, written_object.mpr ⟨nodup_of_ascending hasc, c, htext, ?_⟩,
      hcounts, hafter⟩
    rw [hasc, Bool.and_true]
  rename_i hasc
  split at h
  · cases h
  rename_i hequal
  rw [adjacentEqual_sortBytes, Decidable.not_not] at hequal
  cases Except.ok.inj h
  refine ⟨t, hrest, hpos, false, written_object.mpr ⟨hequal, c, htext, ?_⟩, hcounts, ?_⟩
  · rw [Bool.eq_false_iff.mpr hasc, Bool.and_false]
  rw [hafter]
  simp [Own.after]

end

theorem bare_sound (n : Nat) : Scan.Sound Own.Fine (bare n) (Reading (Written n) Value.counts) := by
  induction n with
  | zero =>
    intro x v x' hfine h
    rcases hhead : x.rest with _ | ⟨b, _⟩
    · simp only [bare, parseAt, hhead] at h
      cases h
    by_cases hb : (b = 0x7b || b = 0x5b) = true
    · simp only [bare, parseAt, hhead, if_pos hb] at h
      cases h
    rw [← hhead]
    exact scalar_sound none hhead hb hfine h
  | succ n ih =>
    intro x v x' hfine h
    rcases hhead : x.rest with _ | ⟨b, rest⟩
    · simp only [bare, parseAt, hhead] at h
      cases h
    rw [← hhead]
    by_cases hb : (b = 0x7b || b = 0x5b) = true
    · simp only [bare, parseAt, hhead, if_pos hb] at h
      split at h
      · cases h
      rename_i hcap
      split at h
      next hbrace =>
        exact object_sound ih (by rw [hhead, hbrace]; rfl) hfine (Nat.not_lt.mp hcap) (hhead ▸ h)
      rename_i hbrace
      have hbracket : b = 0x5b := by simpa [hbrace] using hb
      exact array_sound ih (by rw [hhead, hbracket]; rfl) hfine (Nat.not_lt.mp hcap) (hhead ▸ h)
    · exact scalar_sound (some (parseValue n)) hhead hb hfine h

theorem Written.head (h : Written n v c t) : ∃ b rest, t = b :: rest ∧ isSpace b = false ∧
    b ≠ 0x5d ∧ b ≠ 0x7d := by
  have hfix : ∀ b rest, t = b :: rest → (isSpace b = false ∧ b ≠ 0x5d ∧ b ≠ 0x7d) →
      ∃ b rest, t = b :: rest ∧ isSpace b = false ∧ b ≠ 0x5d ∧ b ≠ 0x7d :=
    fun b rest ht hb => ⟨b, rest, ht, hb⟩
  cases v with
  | null => exact hfix _ _ (written_null.mp h).2 (by decide)
  | boolean b =>
    cases b with
    | true => exact hfix _ _ (written_true.mp h).2 (by decide)
    | false => exact hfix _ _ (written_false.mp h).2 (by decide)
  | integer =>
    obtain ⟨rfl, negative, digits, hint, -⟩ := written_integer.mp h
    obtain ⟨d, tail, hdig⟩ := exists_cons_of_ne_nil hint.nonempty
    have hd := hint.digit d (hdig ▸ mem_cons_self)
    cases negative with
    | true => exact hfix _ _ hint.text (by decide)
    | false =>
      have htext : t = digits := hint.text
      refine hfix d tail (htext.trans hdig) ⟨?_, ?_, ?_⟩
      · have hle : 0x30 ≤ d := by
          simp only [isDigit, Bool.and_eq_true, decide_eq_true_eq] at hd
          exact hd.1
        simp only [isSpace, Bool.or_eq_false_iff, decide_eq_false_iff_not]
        refine ⟨⟨⟨?_, ?_⟩, ?_⟩, ?_⟩ <;> rintro rfl <;> exact absurd hle (by decide)
      · rintro rfl
        exact absurd hd (by decide)
      rintro rfl
      exact absurd hd (by decide)
  | string => exact hfix _ _ (written_string.mp h).1.2 (by decide)
  | array items =>
    cases n with
    | zero => cases h
    | succ =>
      cases written_array.mp h with
      | empty | items => exact hfix _ _ rfl (by decide)
  | object =>
    rcases n with _ | _
    · cases h
    obtain ⟨-, c', htext, -⟩ := written_object.mp h
    cases htext with
    | empty | items => exact hfix _ _ rfl (by decide)

theorem Written.stops (h : Written n v c t) (rest : List UInt8) :
    Scan.Stops isSpace (t ++ rest) := by
  obtain ⟨b, t', rfl, hb, -⟩ := h.head
  intro b' hb'
  cases hb'
  exact hb

theorem Written.fresh (h : Written n v c t) {close : UInt8} (rest : List UInt8)
    (hclose : close = 0x5d ∨ close = 0x7d) : (t ++ rest).head? ≠ some close := by
  obtain ⟨b, t', rfl, -, hbracket, hbrace⟩ := h.head
  intro hhead
  cases hhead
  rcases hclose with hclose | hclose
  · exact hbracket hclose
  · exact hbrace hclose

theorem member_head {m : List UInt8 × Value} {P : Value → Bool → List UInt8 → Prop}
    (h : MemberText P m c t) (rest : List UInt8) : (t ++ rest).head? = some 0x22 := by
  obtain ⟨w, w', cv, tv, tk, ⟨-, rfl⟩, -, -, -, rfl, -⟩ := h
  rfl

theorem word_complete {word : List UInt8} (pos : Nat) (hword : (word, v) ∈ words)
    (hs : s' = s.after v.counts true) :
    parseAt inner ⟨word ++ rest, pos, s⟩ = .ok (v, ⟨rest, pos + word.length, s'⟩) := by
  subst hs
  simp only [words, mem_cons, not_mem_nil, or_false, Prod.mk.injEq] at hword
  rcases hword with ⟨rfl, rfl⟩ | ⟨rfl, rfl⟩ | ⟨rfl, rfl⟩ <;>
    simp [parseAt, isDigit, parseWord, words, Cursor.advance, Value.counts, Own.after_zero]

theorem scalar_complete (inner : Option (Parser Value)) (pos : Nat)
    (harray : ∀ items, v ≠ .array items) (hobj : ∀ members, v ≠ .object members)
    (h : Reading (Written n) Value.counts v s s' t) (hends : Ends rest) :
    parseAt inner ⟨t ++ rest, pos, s⟩ = .ok (v, ⟨rest, pos + t.length, s'⟩) := by
  obtain ⟨c, hwrit, hwit, hs⟩ := h
  cases v with
  | null =>
    obtain ⟨rfl, rfl⟩ := written_null.mp hwrit
    exact word_complete pos (by simp [words]) hs
  | boolean b =>
    cases b with
    | true =>
      obtain ⟨rfl, rfl⟩ := written_true.mp hwrit
      exact word_complete pos (by simp [words]) hs
    | false =>
      obtain ⟨rfl, rfl⟩ := written_false.mp hwrit
      exact word_complete pos (by simp [words]) hs
  | integer =>
    obtain ⟨rfl, negative, digits, hint, rfl, rfl⟩ := written_integer.mp hwrit
    obtain ⟨d, tail, hdig⟩ := exists_cons_of_ne_nil hint.nonempty
    have hd := hint.digit d (hdig ▸ mem_cons_self)
    have hfirst : ∃ b tail, t = b :: tail ∧ (b = 0x2d || isDigit b) = true := by
      cases negative with
      | true => exact ⟨_, _, hint.text, rfl⟩
      | false =>
        have htext : t = digits := hint.text
        exact ⟨d, tail, htext.trans hdig, by rw [hd, Bool.or_true]⟩
    obtain ⟨b, tail', rfl, hb⟩ := hfirst
    have hnot : ∀ y : UInt8, y = 0x7b ∨ y = 0x5b ∨ y = 0x22 → b ≠ y := by
      rintro y hy rfl
      rcases hy with rfl | rfl | rfl <;> exact absurd hb (by decide)
    have hbrack : ¬ (b = 0x7b || b = 0x5b) = true := by
      simp [hnot 0x7b (.inl rfl), hnot 0x5b (.inr (.inl rfl))]
    have hparse := parseInteger_complete (s := s) pos hint hends
    unfold parseAt
    simp only [cons_append, if_neg hbrack, if_neg (hnot 0x22 (.inr (.inr rfl))), if_pos hb]
    rw [← cons_append, hparse, hs]
    rfl
  | string =>
    obtain ⟨hquoted, rfl⟩ := written_string.mp hwrit
    have hparse := parseString_complete rest s pos hquoted hwit.strings
    obtain ⟨-, rfl⟩ := hquoted
    unfold parseAt
    simp only [cons_append] at hparse ⊢
    rw [if_neg (by decide), if_pos trivial, hparse, ok_bind, hs]
    rfl
  | array items => exact absurd rfl (harray items)
  | object members => exact absurd rfl (hobj members)

section

variable (hq : Scan.Complete (bare n) (Reading (Written n) Value.counts) Ends) (pos : Nat)
include hq pos

theorem array_complete {items : List Value}
    (h : Reading (Written (n + 1)) Value.counts (.array items) s s' t) :
    bare (n + 1) ⟨t ++ rest, pos, s⟩ = .ok (.array items, ⟨rest, pos + t.length, s'⟩) := by
  obtain ⟨c, hwrit, hwit, rfl⟩ := h
  have htext := written_array.mp hwrit
  have hfirst : ∃ tail, t = 0x5b :: tail := by
    cases htext with
    | empty | items => exact ⟨_, rfl⟩
  have hcap : ¬ s.containers + 1 > kMaxContainers := by
    rw [array_counts, ← add_assoc] at hwit
    exact Nat.not_lt.mpr hwit.left.containers
  rw [array_counts, ← counts_container] at hwit
  have hitems := parseItems_complete hq (fun _ _ _ rest hP => hP.stops rest)
    (fun _ _ _ _ rest hP hclose => hP.fresh rest hclose) (.inl rfl) stuckArray rest pos
    ⟨c, htext, hwit, rfl⟩
  obtain ⟨tail, rfl⟩ := hfirst
  simp only [bare, parseAt, cons_append]
  rw [if_pos (by decide), if_neg hcap, if_neg (by decide)]
  unfold parseArray
  rw [parseValue_eq, ← cons_append, hitems, ok_bind, array_counts, after_container]
  rfl

theorem object_complete {members : List (List UInt8 × Value)}
    (h : Reading (Written (n + 1)) Value.counts (.object members) s s' t) :
    bare (n + 1) ⟨t ++ rest, pos, s⟩ = .ok (.object members, ⟨rest, pos + t.length, s'⟩) := by
  obtain ⟨c, hwrit, hwit, rfl⟩ := h
  obtain ⟨hnodup, c', htext, rfl⟩ := written_object.mp hwrit
  have hfirst : ∃ tail, t = 0x7b :: tail := by
    cases htext with
    | empty | items => exact ⟨_, rfl⟩
  have hcap : ¬ s.containers + 1 > kMaxContainers := by
    rw [object_counts, ← add_assoc] at hwit
    exact Nat.not_lt.mpr hwit.left.containers
  rw [object_counts, ← counts_container] at hwit
  have hmem := memberAt_complete hq fun _ _ _ rest hP => hP.stops rest
  have hstart : ∀ (m : List UInt8 × Value) c t rest, MemberText (Written n) m c t →
      Scan.Stops isSpace (t ++ rest) := by
    intro m c t rest hm b hb
    rw [member_head hm] at hb
    cases hb
    rfl
  have hfresh : ∀ (m : List UInt8 × Value) c t close rest, MemberText (Written n) m c t →
      close = 0x5d ∨ close = 0x7d → (t ++ rest).head? ≠ some close := by
    intro m c t close rest hm hclose hhead
    rw [member_head hm] at hhead
    rcases hclose with rfl | rfl <;> exact absurd hhead (by decide)
  have hitems := parseItems_complete hmem hstart hfresh (.inr rfl) stuckObject rest
    pos ⟨c', htext, hwit, rfl⟩
  obtain ⟨tail, rfl⟩ := hfirst
  simp only [bare, parseAt, cons_append]
  rw [if_pos (by decide), if_neg hcap, if_pos trivial]
  unfold parseObject
  rw [parseMember_eq, ← cons_append, hitems, ok_bind, object_counts, after_container]
  simp only
  split
  next hasc =>
    rw [hasc, Bool.and_true]
    rfl
  rename_i hasc
  rw [if_neg (by rw [adjacentEqual_sortBytes, Decidable.not_not]; exact hnodup),
    Bool.eq_false_iff.mpr hasc]
  simp [Own.after]
  rfl

end

theorem bare_complete (n : Nat) :
    Scan.Complete (bare n) (Reading (Written n) Value.counts) Ends := by
  induction n with
  | zero =>
    intro v s s' t rest pos h hends
    refine scalar_complete none pos ?_ ?_ h hends
    · rintro items rfl
      obtain ⟨c, hwrit, -⟩ := h
      exact (nomatch hwrit)
    rintro members rfl
    obtain ⟨c, hwrit, -⟩ := h
    exact (nomatch hwrit)
  | succ n ih =>
    intro v s s' t rest pos h hends
    cases v with
    | array => exact array_complete ih pos h
    | object => exact object_complete ih pos h
    | _ =>
      refine scalar_complete (some (parseValue n)) pos ?_ ?_ h hends <;>
      · intro _ heq
        cases heq

end Values
end JitLlm.Artifact.Json
