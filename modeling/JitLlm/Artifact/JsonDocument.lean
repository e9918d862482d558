import JitLlm.Artifact.JsonCanonical

/-!
# Documents

The parser accepts the documents of the grammar and no others, marks as canonical exactly the
encoder's own output, and reads that output back as the same value. DEL is the exception: a string
may have it, and the encoder writes it as it is, but no text with it is canonical.
-/

namespace JitLlm.Artifact.Json

open Lib List

/-- The text is a document of the grammar: blanks, a value, blanks; in ASCII; within the caps of
    size, nesting and counts. -/
structure IsDocument (text : List UInt8) (root : Value) : Prop where
  size : text.length ≤ 2 ^ 32 - 1
  ascii : ∀ b ∈ text, b < 0x80
  counts : root.counts.Within
  text : ∃ w t w' c, text = w ++ t ++ w' ∧ Blank w ∧ Blank w' ∧ Written kMaxDepth root c t

structure Reads (text : List UInt8) (d : Document) : Prop where
  size : text.length ≤ 2 ^ 32 - 1
  ascii : ∀ b ∈ text, b < 0x80
  counts : d.root.counts.Within
  text : ∃ w t w' c, text = w ++ t ++ w' ∧ Blank w ∧ Blank w' ∧ Written kMaxDepth d.root c t ∧
    d.canonical = (w.isEmpty && c && w' = [0x0a])

section

variable {text w : List UInt8} {d : Document} {us : List (List UInt8)}

theorem isDocument_iff {root : Value} : IsDocument text root ↔ ∃ c, Reads text ⟨root, c⟩ := by
  constructor
  · rintro ⟨hsize, hascii, hcounts, w, t, w', c, htext, hw, hw', hwrit⟩
    exact ⟨_, hsize, hascii, hcounts, w, t, w', c, htext, hw, hw', hwrit, rfl⟩
  rintro ⟨_, hsize, hascii, hcounts, w, t, w', c, htext, hw, hw', hwrit, -⟩
  exact ⟨hsize, hascii, hcounts, w, t, w', c, htext, hw, hw', hwrit⟩

theorem Blank.ends (h : Blank w) : Ends w := by
  rcases w with _ | ⟨b, _⟩
  · rfl
  have hb : isSpace b = true := h b mem_cons_self
  simp only [isSpace, Bool.or_eq_true, decide_eq_true_eq] at hb
  rcases hb with ((rfl | rfl) | rfl) | rfl <;> rfl

theorem blank_iff : w.dropWhile isSpace = [] ↔ Blank w := dropWhile_eq_nil_iff

theorem ascii_iff : text.findIdx? (fun c => 0x80 ≤ c) = none ↔ ∀ b ∈ text, b < 0x80 := by
  rw [findIdx?_eq_none_iff]
  refine forall_congr' fun b => forall_congr' fun _ => ?_
  rw [decide_eq_false_iff_not, UInt8.not_le]

theorem fine_start : Own.Fine {} := ⟨Nat.zero_le _, Nat.zero_le _, Nat.zero_le _⟩

theorem start_counts (c : Bool) (k : Counts) : (({} : Own).after 0 c).counts + k = k := zero_add k

theorem reads_of_parse (h : parse text = .ok d) : Reads text d := by
  unfold parse at h
  split at h
  · cases h
  rename_i hsize
  unfold run at h
  split at h
  · cases h
  rename_i hascii
  obtain ⟨⟨root, x⟩, hvalue, h⟩ := bind_ok h
  obtain ⟨w, hrest, -, hblank, hown⟩ :=
    skipSpace_sound { rest := text, pos := 0, own := ({} : Own) }
  have hfine : (skipSpace { rest := text, pos := 0, own := ({} : Own) }).own.Fine := by
    exact fine_start
  obtain ⟨t, hrest', -, c, hwrit, hwit, hown'⟩ := bare_sound kMaxDepth _ root x hfine hvalue
  simp only at h
  split at h
  · cases h
  rename_i hafter
  cases h
  rw [hown] at hwit hown'
  refine ⟨Nat.not_lt.mp hsize, ascii_iff.mp hascii, ?_, w, t, x.rest, c, ?_, hblank,
    blank_iff.mp (Decidable.not_not.mp hafter), hwrit, ?_⟩
  · rw [start_counts] at hwit
    exact hwit
  · rw [append_assoc, ← hrest']
    exact hrest
  rw [hown']
  simp [Own.after]

theorem parse_of_reads (h : Reads text d) : parse text = .ok d := by
  obtain ⟨hsize, hascii, hcounts, w, t, w', c, rfl, hw, hw', hwrit, hcan⟩ := h
  have hskip := skipSpace_eq (s := ({} : Own)) 0 hw (hwrit.stops w')
  have hvalue := bare_complete kMaxDepth d.root (({} : Own).after 0 w.isEmpty) _ t w'
    (0 + w.length) ⟨c, hwrit, by rw [start_counts]; exact hcounts, rfl⟩ hw'.ends
  unfold parse run
  rw [if_neg (Nat.not_lt.mpr hsize), ascii_iff.mpr hascii]
  rw [parseValue_eq]
  simp only
  rw [append_assoc, hskip, hvalue, ok_bind]
  rw [blank_iff.mpr hw', if_neg (Decidable.not_not.mpr rfl)]
  show Except.ok { root := d.root, canonical := _ } = Except.ok d
  obtain ⟨root, canonical⟩ := d
  simp only at hcan
  rw [hcan]
  simp [Own.after]

theorem parse_iff : parse text = .ok d ↔ Reads text d := ⟨reads_of_parse, parse_of_reads⟩

/-! ## Encoding what was read -/

theorem joined_bytes {b : UInt8} (h : b ∈ joined us) : b = 0x2c ∨ ∃ u ∈ us, b ∈ u := by
  induction us with
  | nil => cases h
  | cons u us ih =>
    by_cases hne : us = []
    · subst hne
      exact .inr ⟨u, mem_cons_self, h⟩
    rw [joined_cons hne, mem_append, mem_cons] at h
    rcases h with h | h | h
    · exact .inr ⟨u, mem_cons_self, h⟩
    · exact .inl h
    rcases ih h with h | ⟨u', hu', h⟩
    · exact .inl h
    · exact .inr ⟨u', mem_cons_of_mem _ hu', h⟩

theorem bracketed_bytes {b openByte closeByte : UInt8}
    (h : b ∈ openByte :: joined us ++ [closeByte]) :
    (b = openByte ∨ b = 0x2c ∨ b = closeByte) ∨ ∃ u ∈ us, b ∈ u := by
  simp only [cons_append, mem_cons, mem_append, not_mem_nil, or_false] at h
  rcases h with h | h | h
  · exact .inl (.inl h)
  · exact (joined_bytes h).imp_left fun h => .inr (.inl h)
  · exact .inl (.inr (.inr h))

theorem word_ascii {v : Value} {word : List UInt8} (h : (word, v) ∈ words) :
    ∀ b ∈ word, b < 0x7f := by
  simp only [words, mem_cons, not_mem_nil, or_false, Prod.mk.injEq] at h
  rcases h with ⟨rfl, -⟩ | ⟨rfl, -⟩ | ⟨rfl, -⟩ <;> simp

theorem IntegerText.ascii {negative : Bool} {digits raw : List UInt8}
    (h : IntegerText negative digits raw) : ∀ b ∈ raw, b < 0x7f := by
  have hdig : ∀ b ∈ digits, b < 0x7f := by
    intro b hb
    have hb := h.digit b hb
    simp only [isDigit, Bool.and_eq_true, decide_eq_true_eq] at hb
    exact UInt8.lt_of_le_of_lt hb.2 (by decide)
  rw [h.text]
  cases negative with
  | true =>
    intro b hb
    rcases mem_cons.mp hb with rfl | hb
    · decide
    · exact hdig b hb
  | false => exact hdig

theorem Written.serialize_ascii {n : Nat} {v : Value} {c : Bool} {t : List UInt8}
    (h : Written n v c t) : ∀ b ∈ serialize v, b < 0x7f ∨ b ∈ v.bytes := by
  refine written_induction (Q := fun _ v _ _ => ∀ b ∈ serialize v, b < 0x7f ∨ b ∈ v.bytes)
    ?_ ?_ ?_ ?_ ?_ ?_ ?_ n h
  · intro n b hb
    simp only [serialize] at hb
    exact .inl (word_ascii (v := .null) (by simp [words]) b hb)
  · intro n b hb
    simp only [serialize] at hb
    exact .inl (word_ascii (v := .boolean true) (by simp [words]) b hb)
  · intro n b hb
    simp only [serialize] at hb
    exact .inl (word_ascii (v := .boolean false) (by simp [words]) b hb)
  · intro n negative digits raw htext b hb
    refine .inl ?_
    rcases hvalue : integerOf negative digits with _ | k
    · rw [hvalue] at hb
      exact htext.ascii b hb
    rw [hvalue] at hb
    have hb : b ∈ decimalInt k := hb
    by_cases hzero : negative = true ∧ k = 0
    · obtain ⟨-, rfl⟩ := hzero
      obtain rfl : b = 0x30 := mem_singleton.mp hb
      decide
    rw [decimalInt_eq htext hvalue hzero] at hb
    exact htext.ascii b hb
  · intro n bytes t _ b hb
    have hb : b ∈ 0x22 :: bytes ++ [0x22] := hb
    simp only [mem_append, mem_cons, not_mem_nil, or_false] at hb
    rcases hb with (rfl | hb) | rfl
    · exact .inl (by decide)
    · exact .inr hb
    · exact .inl (by decide)
  · intro n items c t htext b hb
    rw [serialize, serializeItems_eq] at hb
    rcases bracketed_bytes hb with (rfl | rfl | rfl) | ⟨u, hu, hb⟩
    · exact .inl (by decide)
    · exact .inl (by decide)
    · exact .inl (by decide)
    obtain ⟨v, hv, rfl⟩ := mem_map.mp hu
    obtain ⟨_, _, hQ, -⟩ := htext.mem hv
    exact (hQ b hb).imp_right fun hb => mem_itemsBytes.mpr ⟨v, hv, hb⟩
  intro n members c t _ htext b hb
  rw [serialize_object] at hb
  rcases bracketed_bytes hb with (rfl | rfl | rfl) | ⟨u, hu, hb⟩
  · exact .inl (by decide)
  · exact .inl (by decide)
  · exact .inl (by decide)
  obtain ⟨m, hm, rfl⟩ := mem_map.mp hu
  have hm : m ∈ members := (sorted_perm members).mem_iff.mp hm
  obtain ⟨_, _, ⟨_, _, _, _, _, -, -, -, hQ, -⟩, -⟩ := htext.mem hm
  simp only [memberText, withText, cons_append, mem_cons, mem_append] at hb
  rcases hb with rfl | hb | rfl | rfl | hb
  · exact .inl (by decide)
  · exact .inr (mem_membersBytes.mpr ⟨m, hm, .inl hb⟩)
  · exact .inl (by decide)
  · exact .inl (by decide)
  · exact (hQ b hb).imp_right fun hb => mem_membersBytes.mpr ⟨m, hm, .inr hb⟩

theorem reads_serialize (h : Reads text d) (hdel : 0x7f ∉ text)
    (hsize : (serialize d.root ++ [0x0a]).length ≤ 2 ^ 32 - 1) :
    Reads (serialize d.root ++ [0x0a]) ⟨normal d.root, true⟩ := by
  obtain ⟨-, hascii, hcounts, w, t, w', c, rfl, -, -, hwrit, -⟩ := h
  have hbytes : ∀ b ∈ d.root.bytes, b ∈ w ++ t ++ w' := fun b hb =>
    mem_append_left _ (mem_append_right _ (hwrit.bytes_subset hb))
  have hwrit' := hwrit.normal fun hmem => hdel (hbytes _ hmem)
  refine ⟨hsize, ?_, ?_, [], serialize d.root, [0x0a], true, rfl, ?_, ?_, hwrit', rfl⟩
  · intro b hb
    rcases mem_append.mp hb with hb | hb
    · rcases hwrit.serialize_ascii b hb with hlt | hmem
      · exact UInt8.lt_trans hlt (by decide)
      · exact hascii b (hbytes b hmem)
    rw [mem_singleton.mp hb]
    decide
  · rw [hwrit.kept.1]
    exact hcounts
  · exact fun b hb => absurd hb not_mem_nil
  intro b hb
  rw [mem_singleton.mp hb]
  rfl

theorem canonical_iff (h : parse text = .ok d) (hdel : 0x7f ∉ text) :
    d.canonical = true ↔ text = serialize d.root ++ [0x0a] := by
  have hreads := reads_of_parse h
  constructor
  · intro hcan
    obtain ⟨-, -, -, w, t, w', c, rfl, -, -, hwrit, hflags⟩ := hreads
    rw [hcan] at hflags
    simp only [Bool.true_eq, Bool.and_eq_true, List.isEmpty_iff, decide_eq_true_eq] at hflags
    obtain ⟨⟨rfl, rfl⟩, rfl⟩ := hflags
    rw [hwrit.serialize_eq]
    rfl
  intro htext
  have hagain := parse_of_reads (reads_serialize hreads hdel (htext ▸ hreads.size))
  rw [← htext, h] at hagain
  rw [Except.ok.inj hagain]

theorem parse_serialize (h : parse text = .ok d) (hdel : 0x7f ∉ text)
    (hsize : (serialize d.root ++ [0x0a]).length ≤ 2 ^ 32 - 1) :
    ∃ root, parse (serialize d.root ++ [0x0a]) = .ok ⟨root, true⟩ ∧ Same d.root root := by
  have hreads := reads_of_parse h
  refine ⟨normal d.root, parse_of_reads (reads_serialize hreads hdel hsize), ?_⟩
  obtain ⟨-, -, -, w, t, w', c, -, -, -, hwrit, -⟩ := hreads
  exact hwrit.kept.2

/-- The reader is the grammar: a text is read, and as this value, just if it is a document of it;
    one without DEL is canonical just if it is the encoding of its value and a newline; and what
    was read of one, if with the newline it is not past the cap, is read back from its encoding,
    canonical. -/
theorem parse_correct (text : List UInt8) :
    (∀ root, (∃ c, parse text = .ok ⟨root, c⟩) ↔ IsDocument text root) ∧
    ∀ d, parse text = .ok d → 0x7f ∉ text →
      (d.canonical = true ↔ text = serialize d.root ++ [0x0a]) ∧
      ((serialize d.root ++ [0x0a]).length ≤ 2 ^ 32 - 1 →
        ∃ root, parse (serialize d.root ++ [0x0a]) = .ok ⟨root, true⟩ ∧ Same d.root root) := by
  refine ⟨fun root => ?_, fun d h hdel => ⟨canonical_iff h hdel, parse_serialize h hdel⟩⟩
  rw [isDocument_iff]
  exact exists_congr fun c => parse_iff

theorem reads_string (bytes w : List UInt8) (hplain : ∀ b ∈ bytes, isPlain b = true)
    (hascii : ∀ b ∈ bytes, b < 0x80) (hw : Blank w)
    (hsize : (0x22 :: bytes ++ [0x22] ++ w).length ≤ 2 ^ 32 - 1) :
    Reads (0x22 :: bytes ++ [0x22] ++ w)
      ⟨.string bytes, !bytes.contains 0x7f && w = [0x0a]⟩ := by
  refine ⟨hsize, ?_, ?_, [], 0x22 :: bytes ++ [0x22], w, _, rfl, ?_, hw,
    written_string.mpr ⟨⟨hplain, rfl⟩, rfl⟩, rfl⟩
  · intro b hb
    simp only [cons_append, mem_append, mem_cons, not_mem_nil, or_false] at hb
    rcases hb with rfl | (hb | rfl) | hb
    · decide
    · exact hascii b hb
    · decide
    have hspace := hw b hb
    simp only [isSpace, Bool.or_eq_true, decide_eq_true_eq] at hspace
    rcases hspace with ((rfl | rfl) | rfl) | rfl <;> decide
  · show Counts.Within { strings := 1 }
    refine ⟨?_, ?_, ?_⟩ <;> decide
  · exact fun b hb => absurd hb not_mem_nil

theorem parse_serialize_long {bytes : List UInt8} (hbytes : ∀ b ∈ bytes, b = 0x61)
    (hlen : bytes.length = 2 ^ 32 - 3) : ∃ d, parse (0x22 :: bytes ++ [0x22]) = .ok d ∧
      ¬ ∃ root c, parse (serialize d.root ++ [0x0a]) = .ok ⟨root, c⟩ := by
  have hread := parse_of_reads (reads_string bytes []
    (fun b hb => by rw [hbytes b hb]; rfl) (fun b hb => by rw [hbytes b hb]; decide)
    (fun b hb => absurd hb not_mem_nil) (by
      simp only [length_append, length_cons, length_nil, hlen]
      decide))
  rw [append_nil] at hread
  refine ⟨_, hread, ?_⟩
  rintro ⟨root, c, hroot⟩
  have hsize := (reads_of_parse hroot).size
  simp only [serialize, length_append, length_cons, length_nil, hlen] at hsize
  exact absurd hsize (by decide)

theorem parse_serialize_del : ∃ d, parse [0x22, 0x7f, 0x22] = .ok d ∧
    ¬ ∃ root, parse (serialize d.root ++ [0x0a]) = .ok ⟨root, true⟩ := by
  have hplain : ∀ b ∈ ([0x7f] : List UInt8), isPlain b = true := forall_mem_singleton.mpr rfl
  have hascii : ∀ b ∈ ([0x7f] : List UInt8), b < 0x80 := forall_mem_singleton.mpr (by decide)
  have hread := parse_of_reads (reads_string [0x7f] [] hplain hascii
    (fun b hb => absurd hb not_mem_nil) (by decide))
  refine ⟨_, hread, ?_⟩
  rintro ⟨root, hroot⟩
  have hsame : parse (serialize (.string [0x7f]) ++ [0x0a]) = .ok ⟨root, true⟩ := hroot
  have hfalse : false = true := congrArg Document.canonical (Except.ok.inj hsame)
  cases hfalse

/-- Encoding is not undone for each text: with a DEL, or at the cap. -/
theorem parse_serialize_fails : (∃ d, parse [0x22, 0x7f, 0x22] = .ok d ∧
      ¬ ∃ root, parse (serialize d.root ++ [0x0a]) = .ok ⟨root, true⟩) ∧
    ∃ d, parse (0x22 :: List.replicate (2 ^ 32 - 3) 0x61 ++ [0x22]) = .ok d ∧
      ¬ ∃ root c, parse (serialize d.root ++ [0x0a]) = .ok ⟨root, c⟩ :=
  ⟨parse_serialize_del, parse_serialize_long (fun _ hb => eq_of_mem_replicate hb) length_replicate⟩


end

end JitLlm.Artifact.Json
