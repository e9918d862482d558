import JitLlm.Runtime.HttpHead

/-!
# Where a request's body ends

A head `ParseHead` takes has one reading. `serialize` writes a request's head again, and it is read
as the same request; a reader of RFC 9112 — one that ends lines at CRLF only, or one that takes a
bare LF too (`LineEnds`) — finds the same lines and the same end of the head, and whichever
Content-Length it goes by (`BodyLength`) is `body_bytes`.
-/

namespace JitLlm.Runtime.Http

open List

open Lib (find find_one find_append)
open Api (Bytes ascii)

variable {limits : Limits} {full : Bytes} {r : Request} {hs : List Header} {length length' : Int}
    {h : Header}

/-! ## The headers together -/

structure Loaded (limits : Limits) (hs : List Header) (length : Int) : Prop where
  count : hs.length ≤ limits.maxHeaders
  hosts : (hs.filter fun h => h.name = ascii "host").length ≤ 1
  coding : ∀ h ∈ hs, h.name ≠ ascii "transfer-encoding"
  lengths : ∀ h ∈ hs, h.name = ascii "content-length" → 0 ≤ length ∧ parseLength h.value = length
  none : (∀ h ∈ hs, h.name ≠ ascii "content-length") → length = -1

theorem loaded_nil : Loaded limits [] (-1) :=
  ⟨Nat.zero_le _, Nat.zero_le _, nofun, nofun, fun _ => rfl⟩

theorem Loaded.add (hl : Loaded limits hs length) (ha : Admits limits hs length h length') :
    Loaded limits (hs ++ [h]) length' := by
  refine ⟨?_, ?_, ?_, ?_, ?_⟩
  · rw [length_append, length_singleton]
    exact ha.count
  · by_cases hhost : h.name = ascii "host"
    · have hnone : (hs.filter fun h => h.name = ascii "host") = [] := by
        rw [filter_eq_nil_iff]
        intro h' hh'
        simpa using ha.host hhost h' hh'
      rw [filter_append, hnone]
      exact length_filter_le _ _
    rw [filter_append, filter_cons_of_neg (by simpa using hhost), filter_nil, append_nil]
    exact hl.hosts
  · intro h' hh'
    rcases mem_append.mp hh' with hh' | hh'
    · exact hl.coding h' hh'
    rw [mem_singleton.mp hh']
    exact ha.coding
  · intro h' hh' hname
    rcases mem_append.mp hh' with hh' | hh'
    · obtain ⟨hpos, hvalue⟩ := hl.lengths h' hh' hname
      by_cases hsized : h.name = ascii "content-length"
      · obtain ⟨-, hsame, rfl⟩ := ha.sized hsized
        rw [hsame hpos]
        exact ⟨hpos, hvalue⟩
      rw [ha.other hsized]
      exact ⟨hpos, hvalue⟩
    obtain rfl := mem_singleton.mp hh'
    obtain ⟨hpos, -, rfl⟩ := ha.sized hname
    exact ⟨hpos, rfl⟩
  intro hnone
  rw [ha.other (hnone h (mem_append_right _ (mem_singleton_self h)))]
  exact hl.none fun h' hh' => hnone h' (mem_append_left _ hh')

theorem Chain.loaded {seen hs : List Header}
    (h : Chain limits seen length hs length') (hl : Loaded limits seen length) :
    Loaded limits (seen ++ hs) length' := by
  induction h with
  | nil =>
    rw [append_nil]
    exact hl
  | cons hadm _ ih =>
    have := ih (hl.add hadm)
    rwa [append_assoc] at this

theorem finishHead_ok {length : Int} {r1 : Request} (h : finishHead limits r1 length = .ok r) :
    r.method = r1.method ∧ r.target = r1.target ∧ r.http10 = r1.http10 ∧ r.headers = r1.headers ∧
    r.bodyBytes = (max length 0).toNat ∧ r.bodyBytes ≤ limits.maxBodyBytes ∧
    (length < 0 → r.method ≠ ascii "POST") ∧ r.body = r1.body := by
  unfold finishHead at h
  split at h
  · cases h
  rename_i hpost
  simp only at h
  split at h
  · cases h
  rename_i hbody
  simp only [not_and, Nat.not_lt] at hpost hbody
  split at h
  · cases h
    exact ⟨rfl, rfl, rfl, rfl, rfl, hbody, hpost, rfl⟩
  split at h
  · cases h
  cases h
  exact ⟨rfl, rfl, rfl, rfl, rfl, hbody, hpost, rfl⟩

/-! ## Writing a head again -/

/-- A header's line: `pad` stands before the value. -/
def fieldLine (pad : Bytes) (h : Header) : Bytes := h.name ++ colon :: (pad ++ h.value)

def serialize (pad : Bytes) (r : Request) : Bytes :=
  joined (requestLine r :: r.headers.map (fieldLine pad)) ++ crlf

theorem FieldLine.again {line pad : Bytes} (hf : FieldLine line h)
    (hpad : ∀ b ∈ pad, isBlank b = true) :
    FieldLine (fieldLine pad h) h ∧ IsLine (fieldLine pad h) := by
  obtain ⟨name, lead, trail, -, hname, htoken, -, -, hlower⟩ := hf.parts
  have htoken' : ∀ c ∈ h.name, isTokenChar c = true := by
    intro c hc
    rw [hlower] at hc
    obtain ⟨c', hc', rfl⟩ := mem_map.mp hc
    exact isTokenChar_lower (htoken c' hc')
  refine ⟨⟨⟨h.name, pad, [], ?_, ?_, htoken', hpad, nofun, ?_⟩, hf.trimmed, hf.plain⟩, ?_, ?_⟩
  · rw [append_nil]
    rfl
  · rw [hlower]
    exact fun hnil => hname (map_eq_nil_iff.mp hnil)
  · rw [hlower, map_map]
    exact map_congr_left fun c _ => (lower_lower c).symm
  · intro hmem
    rcases mem_append.mp hmem with hmem | hmem
    · exact (isTokenChar_plain (htoken' _ hmem)).1 rfl
    rcases mem_cons.mp hmem with hmem | hmem
    · cases hmem
    rcases mem_append.mp hmem with hmem | hmem
    · exact (isBlank_plain (hpad _ hmem)).1 rfl
    · exact (not_isControl_plain (hf.plain _ hmem)).1 rfl
  intro hmem
  rcases mem_append.mp hmem with hmem | hmem
  · exact (isTokenChar_plain (htoken' _ hmem)).2.1 rfl
  rcases mem_cons.mp hmem with hmem | hmem
  · cases hmem
  rcases mem_append.mp hmem with hmem | hmem
  · exact (isBlank_plain (hpad _ hmem)).2 rfl
  · exact (not_isControl_plain (hf.plain _ hmem)).2 rfl

theorem forall₂_again {lines : List Bytes} {pad : Bytes}
    (hpad : ∀ b ∈ pad, isBlank b = true) (h : List.Forall₂ FieldLine lines hs) :
    List.Forall₂ FieldLine (hs.map (fieldLine pad)) hs ∧
      ∀ l ∈ hs.map (fieldLine pad), IsLine l := by
  induction h with
  | nil => exact ⟨.nil, nofun⟩
  | cons hf _ ih =>
    obtain ⟨hagain, hline⟩ := hf.again hpad
    refine ⟨.cons hagain ih.1, fun l hl => ?_⟩
    rcases mem_cons.mp hl with rfl | hl
    · exact hline
    · exact ih.2 l hl

theorem joined_again_le {lines : List Bytes} (h : List.Forall₂ FieldLine lines hs) :
    (joined (hs.map (fieldLine []))).length ≤ (joined lines).length := by
  induction h with
  | nil => exact Nat.le_refl _
  | cons hf =>
    obtain ⟨name, lead, trail, rfl, -, -, -, -, hlower⟩ := hf.parts
    rw [map_cons, joined_cons, joined_cons]
    simp only [length_append, length_cons, fieldLine, hlower, length_map, length_nil]
    omega

/-! ## Readers -/

/-- How a reader ends a line: at CRLF only, or at an LF, with a CR before it taken off. -/
inductive LineEnds
  | crlf
  | lf

def LineEnds.next : LineEnds → Bytes → Option (Bytes × Bytes)
  | .crlf, s => (find Http.crlf s).map fun a => (s.take a, s.drop (a + 2))
  | .lf, s => (find [Http.lf] s).map fun a =>
    (if (s.take a).getLast? = some cr then (s.take a).dropLast else s.take a, s.drop (a + 1))

def LineEnds.lines (ends : LineEnds) : Nat → Bytes → Option (List Bytes × Bytes)
  | 0, _ => none
  | n + 1, s =>
    match ends.next s with
    | none => none
    | some (line, rest) =>
      if line = [] then some ([], rest)
      else (ends.lines n rest).map fun (lines, rest) => (line :: lines, rest)

def LineEnds.head (ends : LineEnds) (stream : Bytes) : Option (List Bytes × Bytes) :=
  ends.lines (stream.length + 1) stream

theorem LineEnds.next_line (ends : LineEnds) {l : Bytes} (hl : IsLine l) (rest : Bytes) :
    ends.next (l ++ Http.crlf ++ rest) = some (l, rest) := by
  cases ends with
  | crlf =>
    rw [LineEnds.next, find_crlf hl, Option.map_some, append_assoc, take_left,
      ← append_assoc, drop_left' (by simp [Http.crlf])]
  | lf =>
    have hlf : Http.lf ∉ l ++ [cr] := by
      intro hmem
      rcases mem_append.mp hmem with hmem | hmem
      · exact hl.2 hmem
      · exact absurd (mem_singleton.mp hmem) (by decide)
    have heq : l ++ Http.crlf ++ rest = l ++ [cr] ++ [Http.lf] ++ rest := by simp [Http.crlf]
    rw [LineEnds.next, heq, find_append hlf, Option.map_some, append_assoc, take_left,
      ← append_assoc, drop_left' (by simp), getLast?_concat, if_pos rfl,
      dropLast_concat]

theorem LineEnds.lines_joined (ends : LineEnds) {lines : List Bytes}
    (hlines : ∀ l ∈ lines, IsLine l ∧ l ≠ []) (after : Bytes) : ∀ {n : Nat}, lines.length < n →
    ends.lines n (joined lines ++ Http.crlf ++ after) = some (lines, after) := by
  induction lines with
  | nil =>
    intro n hn
    obtain ⟨n, rfl⟩ : ∃ m, n = m + 1 := ⟨n - 1, by omega⟩
    have hnext := ends.next_line (l := []) ⟨not_mem_nil, not_mem_nil⟩ after
    rw [nil_append] at hnext
    rw [LineEnds.lines]
    simp [joined, hnext]
  | cons l lines ih =>
    intro n hn
    obtain ⟨n, rfl⟩ : ∃ m, n = m + 1 := ⟨n - 1, by omega⟩
    obtain ⟨hl, hne⟩ := hlines l mem_cons_self
    have hrest := ih (fun l' hl' => hlines l' (mem_cons_of_mem _ hl')) (Nat.lt_of_succ_lt_succ hn)
    rw [LineEnds.lines, joined_cons]
    simp only [append_assoc]
    rw [← append_assoc l, ends.next_line hl]
    simp only [← append_assoc, if_neg hne, hrest, Option.map_some]

def fieldName (line : Bytes) : Bytes := (line.take ((find [colon] line).getD line.length)).map lower

def fieldValue (line : Bytes) : Bytes := trim (line.drop ((find [colon] line).getD line.length + 1))

/-- RFC 9112, section 6.3, of a request's header lines: with a Transfer-Encoding the body is as its
    coding says; else as long as a Content-Length says, by whichever a reader goes; else empty. -/
inductive BodyLength (lines : List Bytes) : Nat → Prop
  | coded {l n} : l ∈ lines → fieldName l = ascii "transfer-encoding" → BodyLength lines n
  | sized {l} : (∀ l ∈ lines, fieldName l ≠ ascii "transfer-encoding") → l ∈ lines →
      fieldName l = ascii "content-length" → fieldValue l ≠ [] →
      (∀ c ∈ fieldValue l, isDigit c = true) → BodyLength lines (decimal (fieldValue l))
  | empty : (∀ l ∈ lines, fieldName l ≠ ascii "transfer-encoding") →
      (∀ l ∈ lines, fieldName l ≠ ascii "content-length") → BodyLength lines 0

theorem FieldLine.read {line : Bytes} (hf : FieldLine line h) :
    fieldName line = h.name ∧ fieldValue line = h.value := by
  obtain ⟨a, ha, -, -, hname, hvalue⟩ := hf.name
  unfold fieldName fieldValue
  rw [ha]
  exact ⟨hname.symm, hvalue.symm⟩

theorem forall₂_left {α β : Type} {R : α → β → Prop} {as : List α} {bs : List β}
    (h : List.Forall₂ R as bs) : (∀ a ∈ as, ∃ b ∈ bs, R a b) ∧ ∀ b ∈ bs, ∃ a ∈ as, R a b := by
  induction h with
  | nil => exact ⟨fun a ha => (nomatch ha), fun b hb => (nomatch hb)⟩
  | cons hab _ ih =>
    refine ⟨fun a ha => ?_, fun b hb => ?_⟩
    · rcases mem_cons.mp ha with rfl | ha
      · exact ⟨_, mem_cons_self, hab⟩
      obtain ⟨b, hb, hR⟩ := ih.1 a ha
      exact ⟨b, mem_cons_of_mem _ hb, hR⟩
    rcases mem_cons.mp hb with rfl | hb
    · exact ⟨_, mem_cons_self, hab⟩
    obtain ⟨a, ha, hR⟩ := ih.2 b hb
    exact ⟨a, mem_cons_of_mem _ ha, hR⟩

theorem bodyLength_iff {lines : List Bytes} {length : Int}
    (hfields : List.Forall₂ FieldLine lines hs) (hl : Loaded limits hs length) (n : Nat) :
    BodyLength lines n ↔ n = (max length 0).toNat := by
  obtain ⟨hleft, hright⟩ := forall₂_left hfields
  have hcod : ∀ l ∈ lines, fieldName l ≠ ascii "transfer-encoding" := by
    intro l hmem
    obtain ⟨h, hh, hf⟩ := hleft l hmem
    rw [hf.read.1]
    exact hl.coding h hh
  have hsized : ∀ l ∈ lines, fieldName l = ascii "content-length" →
      0 ≤ length ∧ IsLength (fieldValue l) length.toNat := by
    intro l hmem hname
    obtain ⟨h, hh, hf⟩ := hleft l hmem
    rw [hf.read.1] at hname
    obtain ⟨hpos, hvalue⟩ := hl.lengths h hh hname
    rw [hf.read.2]
    exact ⟨hpos, (parseLength_iff hpos).mp hvalue⟩
  constructor
  · intro hbody
    cases hbody with
    | coded hmem hname => exact absurd hname (hcod _ hmem)
    | sized _ hmem hname =>
      obtain ⟨hpos, hvalue⟩ := hsized _ hmem hname
      rw [hvalue.value]
      omega
    | empty _ hnone =>
      have hlen : length = -1 := by
        refine hl.none fun h hh hname => ?_
        obtain ⟨l, hmem, hf⟩ := hright h hh
        exact hnone l hmem (hf.read.1.trans hname)
      rw [hlen]
      rfl
  rintro rfl
  by_cases hany : ∃ l ∈ lines, fieldName l = ascii "content-length"
  · obtain ⟨l, hmem, hname⟩ := hany
    obtain ⟨hpos, hvalue⟩ := hsized l hmem hname
    have hbody := BodyLength.sized hcod hmem hname hvalue.some hvalue.digits
    rw [hvalue.value] at hbody
    rwa [show (max length 0).toNat = length.toNat by omega]
  have hnone : ∀ l ∈ lines, fieldName l ≠ ascii "content-length" := fun l hmem hname =>
    hany ⟨l, hmem, hname⟩
  have hlen : length = -1 := by
    refine hl.none fun h hh hname => ?_
    obtain ⟨l, hmem, hf⟩ := hright h hh
    exact hnone l hmem (hf.read.1.trans hname)
  rw [hlen]
  exact .empty hcod hnone

/-! ## An accepted head -/

theorem requestLine_ne_nil (r : Request) : requestLine r ≠ [] := by
  unfold requestLine
  simp

theorem FieldLine.ne_nil {line : Bytes} (hf : FieldLine line h) : line ≠ [] := by
  obtain ⟨name, lead, trail, rfl, -⟩ := hf.parts
  simp

/-- **Accepted request heads are unambiguous.** -/
theorem parseHead_unambiguous (h : parseHead full limits = .ok r) :
    (∃ lines, full = joined (requestLine r :: lines) ++ crlf ∧
      (∀ l ∈ requestLine r :: lines, IsLine l) ∧ List.Forall₂ FieldLine lines r.headers ∧
      (∀ l ∈ lines, fieldName l ≠ ascii "transfer-encoding") ∧
      (∀ (ends : LineEnds) (after : Bytes),
        ends.head (full ++ after) = some (requestLine r :: lines, after)) ∧
      ∀ n, BodyLength lines n ↔ n = r.bodyBytes) ∧
    (serialize [] r).length ≤ limits.maxHeaderBytes + 4 ∧ (∀ pad, (∀ b ∈ pad, isBlank b = true) →
      (serialize pad r).length ≤ limits.maxHeaderBytes + 4 →
        parseHead (serialize pad r) limits = .ok r) ∧
    (∀ hd ∈ r.headers, hd.name = ascii "content-length" → IsLength hd.value r.bodyBytes) ∧
    ((∀ hd ∈ r.headers, hd.name ≠ ascii "content-length") → r.bodyBytes = 0) ∧
    (r.headers.filter fun hd => hd.name = ascii "host").length ≤ 1 ∧
    Asked limits r ∧ full.length ≤ limits.maxHeaderBytes + 4 ∧
    r.headers.length ≤ limits.maxHeaders ∧ r.bodyBytes ≤ limits.maxBodyBytes ∧
    r.bodyBytes < 2 ^ 63 := by
  obtain ⟨r0, first, lines, hs, length, hfull, hlen, hall, hfirst, hfields, hchain, hfin⟩ :=
    parseHead_iff.mp h
  obtain ⟨hline, hasked, -⟩ := parseRequestLine_ok hfirst
  obtain ⟨hmet, htar, hhttp10, hhead, hbytes, hbody, -⟩ := finishHead_ok hfin
  have hloaded : Loaded limits hs length := by
    have := hchain.loaded loaded_nil
    rwa [nil_append] at this
  have hsame : first = requestLine r := by
    rw [hline]
    unfold requestLine
    rw [hmet, htar, hhttp10]
  subst hsame
  obtain rfl : r.headers = hs := hhead
  have hwrit : ∀ pad, (∀ b ∈ pad, isBlank b = true) →
      (serialize pad r).length ≤ limits.maxHeaderBytes + 4 →
        parseHead (serialize pad r) limits = .ok r := by
    intro pad hpad hshort
    obtain ⟨hagain, hlines⟩ := forall₂_again hpad hfields
    refine parseHead_iff.mpr ⟨r0, _, _, _, length, rfl, hshort, fun l hl => ?_, hfirst, hagain,
      hchain, hfin⟩
    rcases mem_cons.mp hl with rfl | hl
    · exact hall _ mem_cons_self
    · exact hlines l hl
  have hshort : (serialize [] r).length ≤ limits.maxHeaderBytes + 4 := by
    have := joined_again_le hfields
    rw [hfull] at hlen
    unfold serialize
    simp only [joined_cons, length_append] at hlen ⊢
    omega
  have hleng : ∀ hd ∈ r.headers, hd.name = ascii "content-length" →
      IsLength hd.value r.bodyBytes := by
    intro hd hmem hname
    obtain ⟨hpos, hvalue⟩ := hloaded.lengths hd hmem hname
    rw [hbytes, show (max length 0).toNat = length.toNat by omega]
    exact (parseLength_iff hpos).mp hvalue
  have hnone : (∀ hd ∈ r.headers, hd.name ≠ ascii "content-length") → r.bodyBytes = 0 := by
    intro hnone
    rw [hbytes, hloaded.none hnone]
    rfl
  refine ⟨⟨lines, hfull, hall, hfields, ?_, ?_, ?_⟩, hshort, hwrit, hleng, hnone,
    hloaded.hosts, ⟨hmet ▸ hasked.method, htar ▸ hasked.target⟩, hlen, hloaded.count, hbody,
    ?_⟩
  · intro l hl
    obtain ⟨hd, hmem, hf⟩ := (forall₂_left hfields).1 l hl
    rw [hf.read.1]
    exact hloaded.coding hd hmem
  · intro ends after
    rw [hfull]
    refine ends.lines_joined (fun l hl => ⟨hall l hl, ?_⟩) after ?_
    · rcases mem_cons.mp hl with rfl | hl
      · exact requestLine_ne_nil r
      obtain ⟨_, _, hf⟩ := (forall₂_left hfields).1 l hl
      exact hf.ne_nil
    have := length_le_joined (requestLine r :: lines)
    simp only [length_append]
    omega
  · intro n
    rw [hbytes]
    exact bodyLength_iff hfields hloaded n
  by_cases hany : ∃ hd ∈ r.headers, hd.name = ascii "content-length"
  · obtain ⟨hd, hmem, hname⟩ := hany
    have := (hleng hd hmem hname).lt
    omega
  rw [hnone fun hd hmem hname => hany ⟨hd, hmem, hname⟩]
  decide

def sampleHead : Bytes :=
  ascii "POST /v1?q HTTP/1.1\r\nHost: a\r\nContent-LENGTH:12 \r\ncontent-length: 012\r\n\r\n"

def sampleRequest : Request where
  method := ascii "POST"
  target := ascii "/v1?q"
  path := ascii "/v1"
  headers := [⟨ascii "host", ascii "a"⟩, ⟨ascii "content-length", ascii "12"⟩,
    ⟨ascii "content-length", ascii "012"⟩]
  bodyBytes := 12

theorem parseHead_unambiguous_sample : parseHead sampleHead {} = .ok sampleRequest ∧
    parseHead (serialize [] sampleRequest) {} = .ok sampleRequest := by
  have h : parseHead sampleHead {} = .ok sampleRequest := by
    decide +kernel
  have hsound := parseHead_unambiguous h
  exact ⟨h, hsound.2.2.1 [] (fun b hb => (nomatch hb)) hsound.2.1⟩

end JitLlm.Runtime.Http
