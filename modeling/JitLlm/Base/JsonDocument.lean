import JitLlm.Base.JsonUtf8

/-!
# Documents

What a parsed document shows through its accessors is the value the text is, and every text that is
one within the limits is parsed. A quoted text is parsed to the text.
-/

namespace JitLlm.Base.Json

open Lib List Option

/-! ## Through the accessors -/

inductive Shows (d : Document) : Nat → Value → Prop
  | null {i} : d.kindOf i = some .kNull → Shows d i .null
  | boolean {i b} : d.kindOf i = some (if b then .kTrue else .kFalse) → Shows d i (.boolean b)
  | number {i raw integer} : d.kindOf i = some .kNumber → d.number i = raw →
      d.isInteger i = integer → Shows d i (.number raw integer)
  | string {i bytes} : d.kindOf i = some .kString → d.string i = bytes → Shows d i (.string bytes)
  | array {i items} (element : Nat → Nat) : d.kindOf i = some .kArray → d.size i = items.length →
      (∀ k, k < items.length → d.elementAt i k = some (element k)) →
      (∀ k (h : k < items.length), Shows d (element k) items[k]) → Shows d i (.array items)
  | object {i members} (value : Nat → Nat) : d.kindOf i = some .kObject →
      d.size i = members.length →
      (∀ k (h : k < members.length), d.key i k = some members[k].1 ∧
        d.member i k = some (value k)) →
      (∀ k (h : k < members.length), Shows d (value k) members[k].2) →
      Shows d i (.object members)

section Shows

variable {d : Document} {P : Nat → Prop} {i : Nat} {v : Value} {node : Node}

section

variable (hnode : d.nodes[i]? = some node)
include hnode

theorem textIf_of {kind : Kind} {bytes : List UInt8}
    (hkind : node.kind = kind) (hbytes : d.textOf node = bytes) : d.textIf kind i = bytes := by
  unfold Document.textIf
  rw [hnode]
  simp only [if_pos hkind, hbytes]

theorem kindOf_of {kind : Kind} (hkind : node.kind = kind) : d.kindOf i = some kind := by
  unfold Document.kindOf
  rw [hnode, map_some, hkind]

theorem size_of {n : Nat}
    (hkind : node.kind = .kArray ∨ node.kind = .kObject) (hsize : node.size = n) :
    d.size i = n := by
  unfold Document.size
  rw [hnode]
  simp only [if_pos hkind, hsize]

theorem kid_eq (k : Nat) : d.kid i k = d.kids[node.first + k]? := by
  unfold Document.kid
  rw [hnode, bind_some]

end

theorem Reads.shows (h : Reads d P i v) : Shows d i v := by
  induction h with
  | @mk i v node kid _ hnode hheads hkid hreads ih =>
    cases v with
    | null => exact .null (kindOf_of hnode hheads)
    | boolean => exact .boolean (kindOf_of hnode hheads)
    | number =>
      obtain ⟨hkind, hint, -, hraw⟩ := hheads
      refine .number (kindOf_of hnode hkind) (textIf_of hnode hkind hraw) ?_
      unfold Document.isInteger
      rw [hnode]
      simp [hkind, hint]
    | string =>
      obtain ⟨hkind, -, hbytes⟩ := hheads
      exact .string (kindOf_of hnode hkind) (textIf_of hnode hkind hbytes)
    | array =>
      obtain ⟨hkind, hsize⟩ := hheads
      refine .array kid (kindOf_of hnode hkind) (size_of hnode (.inl hkind) hsize) ?_ ih
      intro k hk
      exact (kid_eq hnode k).trans (hkid k hk)
    | object members =>
      obtain ⟨hkind, hsize⟩ := hheads
      refine .object (fun k => kid (2 * k + 1)) (kindOf_of hnode hkind)
        (size_of hnode (.inr hkind) hsize) ?_ ?_
      · intro k hk
        have hlen := members_length members
        have hname := children_even members k
        rw [getElem?_eq_getElem hk, map_some] at hname
        obtain ⟨node', hnode', hkind', htext⟩ := (Reads.kid_of hreads hname).string
        constructor
        · unfold Document.key
          rw [kid_eq hnode, hkid (2 * k) (by omega), map_some]
          exact congrArg some (textIf_of hnode' hkind' htext)
        unfold Document.member
        rw [kid_eq hnode]
        exact hkid (2 * k + 1) (by omega)
      intro k hk
      have hvalue := children_odd members k
      rw [getElem?_eq_getElem hk, map_some] at hvalue
      obtain ⟨hlt, heq⟩ := List.getElem?_eq_some_iff.mp hvalue
      rw [← heq]
      exact ih _ hlt

end Shows

/-! ## Whole texts -/

section Documents

variable {limits : Limits} {text : List UInt8} {v : Value} {d : Document}

theorem start_fine (limits : Limits) : Fine limits start where
  nodes := Nat.le_max_left _ _
  text := Nat.zero_le _
  kids := Nat.zero_lt_one

def Within (limits : Limits) (v : Value) : Prop :=
  v.all.length ≤ max 1 (min limits.maxValues (2 ^ 32 - 1)) ∧
    (v.all.flatMap Value.ownText).length ≤ limits.maxStringBytes

theorem start_fits : Fits limits (fill v 0 start) ↔ Within limits v := by
  have hgrown := fill_grown v 0 start
  have hnodes : (fill v 0 start).nodes.length = v.all.length := by
    have h := hgrown.nodes
    have : start.nodes.length = 1 := rfl
    omega
  have htext : (fill v 0 start).text = v.all.flatMap Value.ownText := hgrown.text
  constructor
  · intro h
    refine ⟨hnodes ▸ h.nodes, ?_⟩
    rw [← htext]
    exact h.text
  rintro ⟨hn, ht⟩
  refine ⟨hnodes ▸ hn, ?_⟩
  rw [htext]
  exact ht

section

variable (hbits : limits.maxStringBytes < 2 ^ 32)
include hbits

theorem run_sound (h : run limits text = .ok d) :
    ∃ v, IsDocument limits.maxDepth v text ∧ Within limits v ∧
      d = (fill v 0 start).toDocument := by
  obtain ⟨⟨u, x⟩, hvalue, h⟩ := bind_ok h
  obtain ⟨w, hrest, -, hblank, hown⟩ := skipSpace_sound { rest := text, pos := 0, own := start }
  obtain ⟨t, hrest', -, -, v, htext, hown', hfits⟩ := (parseValue_inner hbits limits.maxDepth).sound
    0 _ u x (by rw [hown]; exact ⟨start_fine limits, Nat.zero_lt_one⟩) hvalue
  obtain ⟨w', hrest'', -, hblank', hown''⟩ := skipSpace_sound x
  simp only at h
  split at h
  · cases h
  rename_i hend
  cases h
  have hend : (skipSpace x).rest = [] := Decidable.not_not.mp hend
  rw [hown] at hown'
  refine ⟨v, ⟨w, t, w', hblank, htext, hblank', ?_⟩, ?_, ?_⟩
  · have hrest : text = w ++ (skipSpace { rest := text, pos := 0, own := start }).rest := hrest
    rw [hrest, hrest', hrest'', hend]
    simp
  · rw [hown'] at hfits
    exact start_fits.mp hfits
  rw [hown'', hown']

theorem run_complete (htext : IsDocument limits.maxDepth v text) (hwit : Within limits v) :
    run limits text = .ok (fill v 0 start).toDocument := by
  obtain ⟨w, t, w', hblank, ht, hblank', rfl⟩ := htext
  have hskip : skipSpace ⟨w ++ (t ++ w'), 0, start⟩ = ⟨t ++ w', 0 + w.length, start⟩ :=
    skipSpace_eq 0 hblank (ht.start w').1
  have hparse := (parseValue_inner hbits limits.maxDepth).complete 0 () start _ t w' (0 + w.length)
    ⟨⟨start_fine limits, Nat.zero_lt_one⟩, v, ht, rfl, start_fits.mpr hwit⟩ (ends_tail hblank')
  have hskip' : skipSpace ⟨w' ++ [], 0 + w.length + t.length, fill v 0 start⟩ =
      ⟨[], 0 + w.length + t.length + w'.length, fill v 0 start⟩ :=
    skipSpace_eq _ hblank' (fun b hb => (nomatch hb))
  rw [append_nil] at hskip'
  unfold run
  rw [append_assoc, hskip, hparse, ok_bind]
  simp only [hskip']
  rfl

theorem parse_iff : parse text limits = .ok d ↔ text.length ≤ limits.maxBytes ∧ Utf8.Valid text ∧
      ∃ v, IsDocument limits.maxDepth v text ∧ Within limits v ∧
        d = (fill v 0 start).toDocument := by
  unfold parse
  by_cases hlong : text.length > limits.maxBytes
  · rw [if_pos hlong]
    refine ⟨nofun, fun h => absurd h.1 (Nat.not_le.mpr hlong)⟩
  rw [if_neg hlong]
  rw [← firstInvalidUtf8_none]
  constructor
  · intro h
    split at h
    · cases h
    rename_i hnone
    exact ⟨Nat.not_lt.mp hlong, hnone, run_sound hbits h⟩
  rintro ⟨-, hnone, v, htext, hwit, rfl⟩
  rw [hnone]
  exact run_complete hbits htext hwit

theorem parse_shows (hwit : Within limits v) : Shows (fill v 0 start).toDocument 0 v := by
  have hfine := start_fine limits
  have hfil := hfine.fill (start_fits.mpr hwit)
  exact (fill_reads v 0 start Nat.zero_lt_one (hfine.small hbits) (hfil.small hbits)).shows

end

end Documents

/-! ## Quoting -/

section Quoting

variable {c : UInt8} {s : List UInt8}

theorem hexByte_spec : ∀ n, n < 16 → hexValue (hexByte n) = some n ∧ (hexByte n).toNat < 0x80 := by
  decide

theorem hexUnit_control (hc : c < 0x20) :
    hexUnit [0x30, 0x30, hexByte (c.toNat / 16), hexByte (c.toNat % 16)] = some c.toNat := by
  have hlt : c.toNat < 0x20 := hc
  obtain ⟨hhigh, -⟩ := hexByte_spec (c.toNat / 16) (by omega)
  obtain ⟨hlow, -⟩ := hexByte_spec (c.toNat % 16) (by omega)
  have hzero : hexValue 0x30 = some 0 := rfl
  simp only [hexUnit, hzero, hhigh, hlow, Option.bind_eq_bind, Option.bind_some, Option.pure_def,
    Option.some.injEq]
  omega

theorem quoteByte_cases (c : UInt8) :
    (∃ e, shortEscape e = some c ∧ quoteByte c = [0x5c, e] ∧ e.toNat < 0x80) ∨
      (c < 0x20 ∧ quoteByte c =
        [0x5c, 0x75, 0x30, 0x30, hexByte (c.toNat / 16), hexByte (c.toNat % 16)]) ∨
      (isPlain c = true ∧ quoteByte c = [c]) := by
  unfold quoteByte
  by_cases h1 : c = 0x22
  · subst h1
    exact .inl ⟨0x22, rfl, rfl, by decide⟩
  rw [if_neg h1]
  by_cases h2 : c = 0x5c
  · subst h2
    exact .inl ⟨0x5c, rfl, rfl, by decide⟩
  rw [if_neg h2]
  by_cases h3 : c = 0x0a
  · subst h3
    exact .inl ⟨0x6e, rfl, rfl, by decide⟩
  rw [if_neg h3]
  by_cases h4 : c = 0x0d
  · subst h4
    exact .inl ⟨0x72, rfl, rfl, by decide⟩
  rw [if_neg h4]
  by_cases h5 : c = 0x09
  · subst h5
    exact .inl ⟨0x74, rfl, rfl, by decide⟩
  rw [if_neg h5]
  by_cases h6 : c = 0x08
  · subst h6
    exact .inl ⟨0x62, rfl, rfl, by decide⟩
  rw [if_neg h6]
  by_cases h7 : c = 0x0c
  · subst h7
    exact .inl ⟨0x66, rfl, rfl, by decide⟩
  rw [if_neg h7]
  by_cases hlow : c < 0x20
  · exact .inr (.inl ⟨hlow, if_pos hlow⟩)
  refine .inr (.inr ⟨?_, if_neg hlow⟩)
  simp [isPlain, h1, h2, UInt8.not_lt.mp hlow]

theorem chars_quote (s : List UInt8) : Chars (s.flatMap quoteByte) s := by
  induction s with
  | nil => exact .nil
  | cons c s ih =>
    rw [flatMap_cons]
    rcases quoteByte_cases c with ⟨e, he, hquote, -⟩ | ⟨hc, hquote⟩ | ⟨hplain, hquote⟩
    · rw [hquote]
      exact .short he ih
    · have hlt : c.toNat < 0x20 := hc
      have hchars := Chars.unit (hexUnit_control hc) (by omega) ih
      rw [Utf8.encode_ascii (by omega), UInt8.ofNat_toNat] at hchars
      rw [hquote]
      exact hchars
    rw [hquote]
    exact .plain hplain ih

theorem quoteByte_ascii (hc : c.toNat < 0x80) : ∀ b ∈ quoteByte c, b.toNat < 0x80 := by
  rcases quoteByte_cases c with ⟨e, -, hquote, he⟩ | ⟨hlow, hquote⟩ | ⟨-, hquote⟩
  · rw [hquote]
    intro b hb
    simp only [mem_cons, not_mem_nil, or_false] at hb
    rcases hb with rfl | rfl
    · decide
    · exact he
  · have hlt : c.toNat < 0x20 := hlow
    obtain ⟨-, hhigh⟩ := hexByte_spec (c.toNat / 16) (by omega)
    obtain ⟨-, hlow⟩ := hexByte_spec (c.toNat % 16) (by omega)
    rw [hquote]
    intro b hb
    simp only [mem_cons, not_mem_nil, or_false] at hb
    rcases hb with rfl | rfl | rfl | rfl | rfl | rfl
    · decide
    · decide
    · decide
    · decide
    · exact hhigh
    · exact hlow
  rw [hquote]
  exact forall_mem_singleton.mpr hc

theorem quoteByte_high (hc : 0x80 ≤ c.toNat) : quoteByte c = [c] := by
  rcases quoteByte_cases c with ⟨e, he, -, -⟩ | ⟨hlow, -⟩ | ⟨-, hquote⟩
  · have := (shortEscape_ascii he).2
    omega
  · have hlt : c.toNat < 0x20 := hlow
    omega
  · exact hquote

theorem quote_high {w : List UInt8} (h : ∀ b ∈ w, 0x80 ≤ b.toNat) : w.flatMap quoteByte = w := by
  induction w with
  | nil => rfl
  | cons c w ih =>
    rw [flatMap_cons, quoteByte_high (h c mem_cons_self), ih fun b hb => h b (mem_cons_of_mem _ hb)]
    rfl

theorem valid_quote (h : Utf8.Valid s) : Utf8.Valid (s.flatMap quoteByte) := by
  obtain ⟨cps, hcps, rfl⟩ := h
  induction cps with
  | nil => exact .nil
  | cons cp cps ih =>
    rw [flatMap_cons, flatMap_append]
    refine Utf8.Valid.append ?_ (ih fun cp' hmem => hcps cp' (mem_cons_of_mem _ hmem))
    have hscalar := hcps cp mem_cons_self
    by_cases hlow : cp < 0x80
    · rw [Utf8.encode_ascii hlow, flatMap_singleton]
      refine Utf8.valid_asciis (quoteByte_ascii ?_)
      rw [Utf8.toNat_ofNat (by omega)]
      exact hlow
    obtain ⟨c, tail, henc, hrow⟩ := Utf8.encode_row hscalar (Nat.not_lt.mp hlow)
    have hsame : (Utf8.encode cp).flatMap quoteByte = Utf8.encode cp := by
      rw [henc]
      exact quote_high hrow.high
    rw [hsame]
    exact Utf8.valid_encode hscalar

theorem appendQuoted_valid (h : Utf8.Valid s) : Utf8.Valid (appendQuoted s []) := by
  have hquote : Utf8.Valid [0x22] := Utf8.valid_ascii (by decide)
  exact (hquote.append (valid_quote h)).append hquote

theorem appendQuoted_document (n : Nat) (s : List UInt8) :
    IsDocument n (.string s) (appendQuoted s []) :=
  ⟨[], appendQuoted s [], [], fun b hb => (nomatch hb), isText_string.mpr ⟨_, chars_quote s, rfl⟩,
    fun b hb => (nomatch hb), by simp⟩

end Quoting

/-! ## The parser -/

/-- **Base JSON is RFC 8259 within its limits.** A text is parsed just if it is short enough, valid
    UTF-8 and a document of the grammar, nested no deeper than the limit, its values and names with
    their texts no more than the limits; what is parsed shows the document, with every string valid
    UTF-8; and a valid string, quoted, is parsed to itself. -/
theorem parse_reads_documents (limits : Limits) (hbits : limits.maxStringBytes < 2 ^ 32) :
    (∀ text, (∃ d, parse text limits = .ok d) ↔
      text.length ≤ limits.maxBytes ∧ Utf8.Valid text ∧
        ∃ v, IsDocument limits.maxDepth v text ∧
          v.all.length ≤ max 1 (min limits.maxValues (2 ^ 32 - 1)) ∧
          (v.all.flatMap Value.ownText).length ≤ limits.maxStringBytes) ∧
    (∀ text d, parse text limits = .ok d → ∃ v, IsDocument limits.maxDepth v text ∧
      Shows d 0 v ∧ ∀ bytes, Value.string bytes ∈ v.all → Utf8.Valid bytes) ∧
    (∀ s, Utf8.Valid s → (appendQuoted s []).length ≤ limits.maxBytes →
      s.length ≤ limits.maxStringBytes →
      ∃ d, parse (appendQuoted s []) limits = .ok d ∧ Shows d 0 (.string s)) := by
  refine ⟨fun text => ⟨?_, ?_⟩, fun text d h => ?_, fun s hs hlen hfits => ?_⟩
  · rintro ⟨d, h⟩
    obtain ⟨hlen, hvalid, v, htext, hwit, -⟩ := (parse_iff hbits).mp h
    exact ⟨hlen, hvalid, v, htext, hwit⟩
  · rintro ⟨hlen, hvalid, v, htext, hwit⟩
    exact ⟨_, (parse_iff hbits).mpr ⟨hlen, hvalid, v, htext, hwit, rfl⟩⟩
  · obtain ⟨-, hvalid, v, htext, hwit, rfl⟩ := (parse_iff hbits).mp h
    exact ⟨v, htext, parse_shows hbits hwit, htext.strings hvalid⟩
  have hwit : Within limits (.string s) := by
    constructor
    · simp [Value.all]
    · simpa [Value.all, Value.ownText] using hfits
  exact ⟨_, (parse_iff hbits).mpr ⟨hlen, appendQuoted_valid hs, _,
    appendQuoted_document _ s, hwit, rfl⟩, parse_shows hbits hwit⟩

theorem parse_reads_documents_sample : ∃ d, parse (appendQuoted [0x61] []) {} = .ok d ∧
    Shows d 0 (.string [0x61]) :=
  (parse_reads_documents {} (by decide)).2.2 [0x61] (Utf8.valid_ascii (by decide)) (by decide)
    (by decide)

/-- A value is accepted where none may be, and an object of one member, two values, is refused where
    two may be: the root is not counted against the limit, and names are. -/
theorem parse_values_limit : (∃ d, parse [0x30] { maxValues := 0 } = .ok d) ∧
      (∀ n v, IsDocument n v [0x30] → ¬ v.all.length ≤ 0) ∧
      parse [0x7b, 0x22, 0x61, 0x22, 0x3a, 0x30, 0x7d] { maxValues := 2 } =
        .error ⟨"too many values", 5⟩ ∧
      IsDocument 1 (.object [([0x61], .number [0x30] true)])
        [0x7b, 0x22, 0x61, 0x22, 0x3a, 0x30, 0x7d] := by
  refine ⟨?_, fun n v _ h => absurd v.all_pos (Nat.not_lt.mpr h), by decide +kernel, ?_⟩
  · have h : (parse [0x30] { maxValues := 0 }).toOption.isSome = true := by decide +kernel
    revert h
    generalize parse [0x30] { maxValues := 0 } = r
    intro h
    cases r with
    | error => cases h
    | ok d => exact ⟨d, rfl⟩
  have hblank : Blank [] := fun b hb => (nomatch hb)
  refine ⟨[], [0x7b, 0x22, 0x61, 0x22, 0x3a, 0x30, 0x7d], [], hblank,
    isText_object.mpr ⟨by decide, ?_⟩, hblank, rfl⟩
  have hnum : IsText 0 (.number [0x30] true) [0x30] :=
    isText_number.mpr ⟨rfl, [], [0x30], [], [], false, false, .inl rfl, .inl rfl,
      .inl ⟨rfl, rfl⟩, .inl ⟨rfl, rfl⟩, rfl, rfl⟩
  have hname : Quoted [0x61] [0x22, 0x61, 0x22] := ⟨[0x61], .plain rfl .nil, rfl⟩
  have hmem : MemberText (IsText 0) ([0x61], .number [0x30] true) [0x22, 0x61, 0x22, 0x3a, 0x30] :=
    ⟨_, [], [], _, hname, hblank, hblank, hnum, rfl⟩
  have hbrack : Bracketed 0x7b 0x7d (MemberText (IsText 0)) _ _ := .items hblank (.last hmem hblank)
  exact hbrack

end JitLlm.Base.Json
