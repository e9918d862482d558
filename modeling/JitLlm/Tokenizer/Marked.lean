import JitLlm.Tokenizer.Merges

/-!
# User text never becomes a control token

Normal, user-defined and control tokens share one table of texts, and the special ones a trie, so
that text stays text is a property of every way a token is emitted: the matcher answers only the
kinds it was asked for, the whole-piece shortcut and the merges only normal tokens. `Adds` is what
each of them shows of what it appends, and `encodeMarked_closed` what `EncodeMarked` appends
beside that: the spans' tokens, and BOS and EOS.

A span may name a user-defined token as well as a control one: `EncodeMarked` refuses only normal
and unused ones (`marked_userDefined`).

What is appended decodes to the text it was made from when nothing normalizes it. That half needs
the text to be shorter than `2 ^ 32` bytes, as the pieces' lengths are 32 bits wide.
-/

namespace JitLlm.Tokenizer.Impl

open Lib List

variable {u : UnicodeData} {x : Impl} {options : EncodeOptions} {base : Nat} {id : TokenId}
  {out out' : List TokenId} {special : SpecialTokens}

def Allowed (x : Impl) (special : SpecialTokens) (id : TokenId) : Prop :=
  0 ≤ id ∧ (x.kind id = .normal ∨ x.kind id = .userDefined ∨
    (special = .parse ∧ x.kind id = .control))

def spelling (x : Impl) (ids : List TokenId) : Bytes := ids.flatMap (x.tokenBytes ⟨true⟩)

@[simp] theorem spelling_nil : x.spelling [] = [] := rfl

@[simp] theorem spelling_append (a b : List TokenId) :
    x.spelling (a ++ b) = x.spelling a ++ x.spelling b :=
  flatMap_append

theorem spelling_singleton (id : TokenId) : x.spelling [id] = x.tokenBytes ⟨true⟩ id := by
  simp [spelling]

theorem tokenBytes_normal (h : x.Normal id) : x.tokenBytes ⟨true⟩ id = x.bytes id := by
  unfold tokenBytes
  rw [h.2]

theorem tokenBytes_special (h : x.Special id) : x.tokenBytes ⟨true⟩ id = x.text id := by
  unfold tokenBytes
  rcases h.2 with h | h <;> rw [h]
  rfl

/-- `out'` is `out` and then tokens that `text` may become, which decode to it. -/
def Adds (x : Impl) (special : SpecialTokens) (text : Bytes) (out out' : List TokenId) : Prop :=
  ∃ ids, out' = out ++ ids ∧ (∀ t ∈ ids, x.Allowed special t) ∧
    (x.normalization = .none → text.length < 2 ^ 32 → x.spelling ids = text)

theorem Adds.nil : x.Adds special [] out out := ⟨[], (append_nil out).symm, nofun, fun _ _ => rfl⟩

theorem Adds.trans {text text' : Bytes} {mid : List TokenId} (h : x.Adds special text out mid)
    (h' : x.Adds special text' mid out') : x.Adds special (text ++ text') out out' := by
  obtain ⟨ids, rfl, hall, hspell⟩ := h
  obtain ⟨ids', rfl, hall', hspell'⟩ := h'
  refine ⟨ids ++ ids', append_assoc .., fun t ht => ?_, fun hnone hlen => ?_⟩
  · rcases mem_append.mp ht with ht | ht
    · exact hall t ht
    · exact hall' t ht
  rw [length_append] at hlen
  rw [spelling_append, hspell hnone (by omega), hspell' hnone (by omega)]

theorem emit_ok (h : emit id options out base = .ok out') : out' = out ++ [id] := by
  unfold emit at h
  split at h
  · cases h
  · exact (Except.ok.inj h).symm

/-! ## Pieces -/

theorem emitAll_ok : ∀ {l out out' : List TokenId},
    l.foldlM (fun out s => emit s options out base) out = .ok out' → out' = out ++ l
  | [], out, out', h => by
    rw [← Except.ok.inj h, append_nil]
  | s :: l, out, out', h => by
    rw [foldlM_cons] at h
    obtain ⟨mid, hmid, h⟩ := bind_ok h
    rw [emitAll_ok h, emit_ok hmid, append_assoc, singleton_append]

theorem spelling_normal {l : List TokenId} (h : ∀ t ∈ l, x.Normal t) :
    x.spelling l = l.flatMap x.bytes :=
  flatMap_congr fun t ht => tokenBytes_normal (h t ht)

theorem flatMap_byteTokens (hx : x.Sound) (bytes : Bytes) :
    (bytes.map fun b => x.byteToken.getD b.toNat (-1)).flatMap x.bytes = bytes := by
  induction bytes with
  | nil => rfl
  | cons b rest ih =>
    rw [map_cons, flatMap_cons, ih, (hx.byteToken b).2]
    rfl

def AddsNormal (x : Impl) (bytes : Bytes) (out out' : List TokenId) : Prop :=
  ∃ ids, out' = out ++ ids ∧ (∀ t ∈ ids, x.Normal t) ∧
    (bytes.length < 2 ^ 32 → x.spelling ids = bytes)

theorem encodePiece_adds (hx : x.Sound) {bytes : Bytes}
    (h : x.encodePiece options base bytes out = .ok out') : x.AddsNormal bytes out out' := by
  unfold encodePiece at h
  split at h
  · next id hid =>
    have hfind : x.findNormal (alphabetText bytes) = some id := by
      split at hid
      · exact hid
      · cases hid
    obtain ⟨hnor, -, hspel⟩ := hx.tables.normal hfind
    refine ⟨[id], emit_ok h, fun t ht => ?_, fun _ => ?_⟩
    · rw [mem_singleton.mp ht]
      exact hnor
    rw [spelling_singleton, tokenBytes_normal hnor]
    exact alphabetText_inj hspel
  have hsym : ∀ t ∈ bytes.map fun b => x.byteToken.getD b.toNat (-1), x.Normal t := by
    intro t ht
    obtain ⟨b, -, rfl⟩ := mem_map.mp ht
    exact (hx.byteToken b).1
  rw [merge_eq] at h
  have hnor : ∀ t ∈ (Merging.merged x (bytes.map fun b =>
      x.byteToken.getD b.toNat (-1))).filter Merging.live, x.Normal t := by
    intro t ht
    obtain ⟨ht, hlive⟩ := mem_filter.mp ht
    rcases Merging.merged_closed hx hsym t ht with rfl | hnor
    · cases hlive
    · exact hnor
  refine ⟨_, emitAll_ok h, hnor, fun hlen => ?_⟩
  rw [spelling_normal hnor, Merging.merged_spells hx (by simpa using hlen)
    fun t ht => (hsym t ht).1, flatMap_byteTokens hx]

theorem encodePieces_adds (hx : x.Sound) {cps : List Nat} :
    ∀ {lengths : List Nat} {start : Nat} {out : List TokenId},
    x.encodePieces options base cps start lengths out = .ok out' →
    ∃ ids, out' = out ++ ids ∧ (∀ t ∈ ids, x.Normal t) ∧ ((utf8All cps).length < 2 ^ 32 →
      x.spelling ids = utf8All ((cps.drop start).take lengths.sum))
  | [], start, out, h => by
    rw [← Except.ok.inj h]
    exact ⟨[], (append_nil out).symm, nofun, fun _ => rfl⟩
  | length :: rest, start, out, h => by
    rw [encodePieces] at h
    obtain ⟨mid, hmid, h⟩ := bind_ok h
    obtain ⟨ids, rfl, hall, hspell⟩ := encodePiece_adds hx hmid
    obtain ⟨ids', rfl, hall', hspell'⟩ := encodePieces_adds hx h
    refine ⟨ids ++ ids', append_assoc .., fun t ht => ?_, fun hlen => ?_⟩
    · rcases mem_append.mp ht with ht | ht
      · exact hall t ht
      · exact hall' t ht
    have hpiece : (utf8All ((cps.drop start).take length)).length < 2 ^ 32 := by
      refine Nat.lt_of_le_of_lt ?_ hlen
      have hsplit : utf8All cps = utf8All (cps.take start) ++
          (utf8All ((cps.drop start).take length) ++ utf8All ((cps.drop start).drop length)) := by
        rw [← utf8All_append, take_append_drop, ← utf8All_append, take_append_drop]
      rw [hsplit]
      simp only [length_append]
      omega
    rw [spelling_append, hspell hpiece, hspell' hlen, sum_cons, take_add, utf8All_append, drop_drop]

variable {text : Bytes}

theorem encodeFragment_adds (hx : x.Sound)
    (h : x.encodeFragment u options base text out = .ok out') : x.Adds special text out out' := by
  unfold encodeFragment at h
  split at h
  · next hnil =>
    rw [← Except.ok.inj h, hnil]
    exact Adds.nil
  obtain ⟨cps, hdec, h⟩ := bind_ok h
  obtain ⟨_, hcps, hutf⟩ := decodeUtf8_ok hdec
  rw [nil_append] at hcps
  rw [← hcps] at hutf
  obtain ⟨ids, hout, hall, hspell⟩ := encodePieces_adds hx h
  refine ⟨ids, hout, fun t ht => ⟨(hall t ht).1, .inl (hall t ht).2⟩, fun hnone hlen => ?_⟩
  have hkept : ¬x.normalization = .nfc := by
    rw [hnone]
    exact nofun
  simp only [if_neg hkept] at hspell
  have hcps := length_le_utf8All cps
  rw [hutf] at hspell hcps
  rw [hspell hlen, preTokenize_sum, u32_of_lt (by omega), drop_zero, take_length, hutf]

/-! ## Special tokens -/

def Matched (x : Impl) (special : SpecialTokens) (text : Bytes) (best : TokenId × Nat) : Prop :=
  best.1 < 0 ∨ (x.Special best.1 ∧ x.Allowed special best.1 ∧ 0 < best.2 ∧
    best.2 ≤ text.length ∧ x.text best.1 = text.take best.2)

theorem matchFrom_ok (hx : x.Sound) {path : Nat → Bytes}
    (hpath : x.trie.Spells path fun text id => x.Special id ∧ x.text id = text) :
    ∀ {left : Nat} {rest : Bytes} {node : Nat} {best : TokenId × Nat},
    text = path node ++ rest → x.Matched special text best →
    x.Matched special text (x.matchFrom special left rest node (path node).length best)
  | 0, rest, node, best, _, hbest => by
    unfold matchFrom
    exact hbest
  | left + 1, [], node, best, _, hbest => by
    unfold matchFrom
    exact hbest
  | left + 1, c :: rest, node, best, htext, hbest => by
    unfold matchFrom
    rcases hedge : x.trie.edge node c with _ | m
    · exact hbest
    obtain ⟨-, hm, hpm⟩ := hpath.edge hedge
    have htext' : text = path m ++ rest := by
      rw [htext, hpm, append_assoc, singleton_append]
    have hlen : (path node).length + 1 = (path m).length := by
      rw [hpm, length_append, length_singleton]
    simp only [hlen]
    split
    · next hall =>
      have hget : x.trie.terminal[m]? = some (x.trie.terminal.getD m (-1)) := by
        rw [getD_eq_getElem?_getD, getElem?_eq_getElem hm]
        rfl
      obtain ⟨hspec, hspel⟩ := hpath.terminal hget hall.1
      refine matchFrom_ok hx hpath htext' (.inr ⟨hspec, ⟨hall.1, ?_⟩, ?_, ?_, ?_⟩)
      · rcases hall.2 with hparse | huser
        · rcases hspec.2 with hcon | huser
          · exact .inr (.inr ⟨hparse, hcon⟩)
          · exact .inr (.inl huser)
        · exact .inr (.inl huser)
      · show 0 < (path m).length
        omega
      · rw [htext', length_append]
        exact Nat.le_add_right _ _
      rw [hspel, htext', take_left']
      rfl
    · exact matchFrom_ok hx hpath htext' hbest

theorem matchSpecial_ok (hx : x.Sound) (text : Bytes) :
    x.Matched special text (x.matchSpecial text special) := by
  unfold matchSpecial
  split
  · exact .inl (by decide)
  obtain ⟨path, hpath⟩ := hx.tables.trie
  have htext : text = path 0 ++ text := by rw [hpath.root, nil_append]
  have h : x.Matched special text
      (x.matchFrom special maxSpecialBytes text 0 (path 0).length (-1, 0)) :=
    matchFrom_ok hx hpath htext (.inl (by decide))
  rw [hpath.root] at h
  exact h

theorem emit_adds (hid : x.Special id) (hall : x.Allowed special id)
    (htext : x.text id = text) (h : emit id options out base = .ok out') :
    x.Adds special text out out' := by
  refine ⟨[id], emit_ok h, fun t ht => ?_, fun _ _ => ?_⟩
  · rw [mem_singleton.mp ht]
    exact hall
  · rw [spelling_singleton, tokenBytes_special hid, htext]

theorem encodeFrom_adds (hx : x.Sound) : ∀ {turns : Nat} {fragment rest : Bytes}
    {out : List TokenId}, x.encodeFrom u options base special turns fragment rest out = .ok out' →
    x.Adds special (fragment ++ rest) out out'
  | 0, fragment, rest, out, h => by
    unfold encodeFrom at h
    exact encodeFragment_adds hx h
  | turns + 1, fragment, [], out, h => by
    unfold encodeFrom at h
    rw [append_nil]
    exact encodeFragment_adds hx h
  | turns + 1, fragment, c :: rest, out, h => by
    unfold encodeFrom at h
    simp only at h
    split at h
    · have := encodeFrom_adds hx h
      rw [append_assoc, singleton_append] at this
      exact this
    next ht =>
    obtain ⟨mid, hmid, h⟩ := bind_ok h
    obtain ⟨mid', hmid', h⟩ := bind_ok h
    obtain ⟨hspec, hall, -, -, htext⟩ := (matchSpecial_ok hx (c :: rest)).resolve_left ht
    have hadds := ((encodeFragment_adds hx hmid).trans
      (emit_adds hspec hall htext hmid')).trans (encodeFrom_adds hx h)
    rw [nil_append, append_assoc, take_append_drop] at hadds
    exact hadds

theorem encodeText_adds (hx : x.Sound)
    (h : x.encodeText u options base text special out = .ok out') :
    x.Adds special text out out' := by
  have := encodeFrom_adds hx h
  rwa [nil_append] at this

/-! ## Spans -/

/-- `body`, appended to `out`: the spans' tokens at `indices`, and tokens of text elsewhere. -/
structure Marks (x : Impl) (text : Bytes) (spans : List SpecialSpan) (out body : List TokenId)
    (indices : List Nat) : Prop where
  ordered : indices.Pairwise (· < ·)
  spans : List.Forall₂ (fun s i => ∃ token, out.length ≤ i ∧ (out ++ body)[i]? = some token ∧
    x.find (substr text s.offset s.length) = some token ∧ x.Special token) spans indices
  plain : ∀ k token, body[k]? = some token → out.length + k ∉ indices →
    x.Allowed .userDefinedOnly token

theorem Marks.nil : x.Marks text [] out [] [] where
  ordered := .nil
  spans := .nil
  plain _ _ h := nomatch h

variable {text : Bytes} {spans : List SpecialSpan} {body ids : List TokenId} {indices : List Nat}

theorem Marks.cons {s : SpecialSpan} {token : TokenId}
    (h : x.Marks text spans (out ++ ids ++ [token]) body indices)
    (hids : ∀ t ∈ ids, x.Allowed .userDefinedOnly t)
    (hfind : x.find (substr text s.offset s.length) = some token) (htoken : x.Special token) :
    x.Marks text (s :: spans) out (ids ++ [token] ++ body) ((out ++ ids).length :: indices) := by
  have hassoc : out ++ (ids ++ [token] ++ body) = out ++ ids ++ [token] ++ body := by
    simp only [append_assoc]
  have hlen : (out ++ ids ++ [token]).length = (out ++ ids).length + 1 := length_append
  have hafter : ∀ i ∈ indices, (out ++ ids).length + 1 ≤ i := by
    intro i hi
    obtain ⟨k, hk, rfl⟩ := getElem_of_mem hi
    have hk' : k < spans.length := h.spans.length_eq ▸ hk
    obtain ⟨_, hle, -⟩ := h.spans.get hk' hk
    rw [hlen] at hle
    exact hle
  constructor
  · exact pairwise_cons.mpr ⟨fun i hi => hafter i hi, h.ordered⟩
  · refine .cons ⟨token, by simp, ?_, hfind, htoken⟩ (h.spans.imp fun s i hs => ?_)
    · rw [hassoc, append_assoc (out ++ ids), getElem?_append_right (Nat.le_refl _), Nat.sub_self]
      rfl
    obtain ⟨t, hle, hget, hf, hsp⟩ := hs
    rw [hlen] at hle
    exact ⟨t, by simp only [length_append] at hle; omega, hassoc ▸ hget, hf, hsp⟩
  intro k t hget hk
  rcases Nat.lt_trichotomy k ids.length with hlt | heq | hgt
  · rw [append_assoc, getElem?_append_left hlt] at hget
    exact hids t (mem_of_getElem? hget)
  · rw [heq, ← length_append] at hk
    exact absurd mem_cons_self hk
  have hge : (ids ++ [token]).length ≤ k := by
    rw [length_append]
    exact hgt
  rw [getElem?_append_right hge] at hget
  refine h.plain _ t hget fun hmem => hk (mem_cons_of_mem _ ?_)
  have hidx : (out ++ ids ++ [token]).length + (k - (ids ++ [token]).length) = out.length + k := by
    simp only [length_append, length_singleton] at hge ⊢
    omega
  rwa [hidx] at hmem

theorem Marks.append (h : x.Marks text spans out body indices)
    (hids : ∀ t ∈ ids, x.Allowed .userDefinedOnly t) :
    x.Marks text spans out (body ++ ids) indices where
  ordered := h.ordered
  spans := h.spans.imp fun s i hs => by
    obtain ⟨t, hle, hget, hrest⟩ := hs
    refine ⟨t, hle, ?_, hrest⟩
    rw [← append_assoc, getElem?_append_left (List.getElem?_eq_some_iff.mp hget).1]
    exact hget
  plain k t hget hk := by
    rcases Nat.lt_or_ge k body.length with hlt | hge
    · rw [getElem?_append_left hlt] at hget
      exact h.plain k t hget hk
    rw [getElem?_append_right hge] at hget
    exact hids t (mem_of_getElem? hget)

theorem substr_append {a b c : Nat} (h : a ≤ b) (h' : b ≤ c) :
    substr text a (b - a) ++ substr text b (c - b) = substr text a (c - a) := by
  unfold substr
  have hsum : c - a = (b - a) + (c - b) := by omega
  rw [hsum, take_add, drop_drop, Nat.add_sub_cancel' h]

theorem encodeSpans_marks (hx : x.Sound) : ∀ {spans : List SpecialSpan} {i start stop : Nat}
    {out : List TokenId} {spanTokens spanTokens' : Option (List Nat)},
    x.encodeSpans u options base text spans i start out spanTokens = .ok (stop, out', spanTokens') →
    start ≤ text.length → ∃ body indices, out' = out ++ body ∧
      spanTokens' = spanTokens.map (· ++ indices) ∧ x.Marks text spans out body indices ∧
      start ≤ stop ∧ stop ≤ text.length ∧ (x.normalization = .none → text.length < 2 ^ 32 →
        x.spelling body = substr text start (stop - start))
  | [], i, start, stop, out, spanTokens, spanTokens', h, hstart => by
    simp only [encodeSpans, Except.ok.injEq, Prod.mk.injEq] at h
    obtain ⟨rfl, rfl, rfl⟩ := h
    refine ⟨[], [], (append_nil _).symm, ?_, Marks.nil, Nat.le_refl _, hstart, fun _ _ => ?_⟩
    · simp
    rw [Nat.sub_self]
    simp [substr]
  | s :: spans, i, start, stop, out, spanTokens, spanTokens', h, hstart => by
    unfold encodeSpans at h
    split at h
    · cases h
    next hspan =>
    have hoff : start ≤ s.offset := by omega
    have hend : s.offset + s.length ≤ text.length := by omega
    rcases hfind : x.find (substr text s.offset s.length) with _ | token
    · rw [hfind] at h
      cases h
    rw [hfind] at h
    simp only at h
    split at h
    · cases h
    next hkind =>
    obtain ⟨hnon, htext, -, -⟩ := hx.tables.texts hfind
    have htoken : x.Special token := by
      refine ⟨hnon, ?_⟩
      cases hk : x.kind token with
      | normal => exact absurd (.inl hk) hkind
      | control => exact .inl rfl
      | userDefined => exact .inr rfl
      | unused => exact absurd (.inr hk) hkind
    obtain ⟨mid, hmid, h⟩ := bind_ok h
    obtain ⟨mid', hmid', h⟩ := bind_ok h
    obtain ⟨ids, rfl, hids, hspell⟩ := encodeText_adds hx hmid
    have hmid' := emit_ok hmid'
    subst hmid'
    obtain ⟨body, indices, rfl, rfl, hmarks, hle, hstop, hspell'⟩ := encodeSpans_marks hx h hend
    refine ⟨ids ++ [token] ++ body, (out ++ ids).length :: indices, by
      simp only [append_assoc], ?_, hmarks.cons hids hfind htoken, by omega, hstop,
      fun hnone hlen => ?_⟩
    · rw [Option.map_map]
      congr 1
      funext l
      simp
    have hpart : (substr text start (s.offset - start)).length < 2 ^ 32 := by
      refine Nat.lt_of_le_of_lt ?_ hlen
      unfold substr
      rw [length_take, length_drop]
      omega
    rw [spelling_append, spelling_append, spelling_singleton, tokenBytes_special htoken,
      hspell hnone hpart, hspell' hnone hlen, htext]
    have hthis : substr text s.offset s.length =
        substr text s.offset (s.offset + s.length - s.offset) := by
      rw [Nat.add_sub_cancel_left]
    rw [hthis, substr_append hoff (Nat.le_add_right _ _),
      substr_append (Nat.le_trans hoff (Nat.le_add_right _ _)) hle]

/-! ## The whole -/

theorem decodeFromIndex_ok : ∀ {ids : List TokenId} {i : Nat} {bytes : Bytes},
    (∀ t ∈ ids, 0 ≤ t ∧ t.toNat < x.tokens.length) →
    x.decodeFromIndex ⟨true⟩ ids i bytes = .ok (bytes ++ x.spelling ids)
  | [], i, bytes, _ => by
    rw [spelling_nil, append_nil]
    rfl
  | id :: ids, i, bytes, h => by
    obtain ⟨h0, h1⟩ := h id mem_cons_self
    have hin : ¬(id < 0 ∨ x.tokens.length ≤ id.toNat) := by
      rintro (hlt | hle)
      · exact absurd h0 (Int.not_le.mpr hlt)
      · exact absurd h1 (Nat.not_lt.mpr hle)
    rw [decodeFromIndex, if_neg hin,
      decodeFromIndex_ok fun t ht => h t (mem_cons_of_mem id ht), append_assoc]
    rfl

theorem begin_ok (h : x.begin' options base text out = .ok out') :
    ∃ front, out' = out ++ front ∧ (front = [] ∨ ∃ bos, x.bos = some bos ∧ front = [bos]) := by
  unfold begin' at h
  split at h
  · cases h
  obtain ⟨-, -, h⟩ := bind_ok h
  split at h
  · next bos hbos =>
    split at h
    · exact ⟨[bos], emit_ok h, .inr ⟨bos, hbos, rfl⟩⟩
    · exact ⟨[], by rw [append_nil, Except.ok.inj h], .inl rfl⟩
  · exact ⟨[], by rw [append_nil, Except.ok.inj h], .inl rfl⟩

theorem end_ok (h : x.end' options base out = .ok out') :
    ∃ back, out' = out ++ back ∧ (back = [] ∨ ∃ eos, x.eos = some eos ∧ back = [eos]) := by
  unfold end' at h
  split at h
  · next eos heos =>
    split at h
    · exact ⟨[eos], emit_ok h, .inr ⟨eos, heos, rfl⟩⟩
    · exact ⟨[], by rw [append_nil, Except.ok.inj h], .inl rfl⟩
  · exact ⟨[], by rw [append_nil, Except.ok.inj h], .inl rfl⟩

theorem Marks.used (h : x.Marks text spans out body indices) {t : TokenId} (ht : t ∈ body) :
    0 ≤ t ∧ x.kind t ≠ .unused := by
  obtain ⟨k, hk, hget⟩ := getElem_of_mem ht
  have hget : body[k]? = some t := by rw [getElem?_eq_getElem hk, hget]
  by_cases hmem : out.length + k ∈ indices
  · obtain ⟨j, hj, hij⟩ := getElem_of_mem hmem
    obtain ⟨token, -, htoken, -, hspec⟩ := h.spans.get (h.spans.length_eq ▸ hj) hj
    rw [get_eq_getElem, hij, getElem?_append_right (Nat.le_add_right _ _),
      Nat.add_sub_cancel_left, hget] at htoken
    rw [Option.some.inj htoken]
    refine ⟨hspec.1, ?_⟩
    rcases hspec.2 with hk | hk <;> rw [hk] <;> exact nofun
  obtain ⟨h0, hkind⟩ := h.plain k t hget hmem
  refine ⟨h0, ?_⟩
  rcases hkind with hk | hk | ⟨-, hk⟩ <;> rw [hk] <;> exact nofun

/-- Whatever the text between the spans holds, and whatever the options ask: the spans' tokens are
    control or user-defined ones at the reported places, in order, every other token but BOS and
    EOS is a normal or user-defined one, and together they decode to the text. -/
theorem encodeMarked_closed {spec : TokenizerSpec} {x : Impl} (hcreate : create spec = .ok x)
    (u : UnicodeData) {text : Bytes} {spans : List SpecialSpan} {options : EncodeOptions}
    {out out' : List TokenId} {spanTokens spanTokens' : Option (List Nat)}
    (h : x.encodeMarked u text spans options out spanTokens = .ok (out', spanTokens')) :
    ∃ front body back indices, out' = out ++ front ++ body ++ back ∧
      (front = [] ∨ ∃ bos, x.bos = some bos ∧ front = [bos]) ∧
      (back = [] ∨ ∃ eos, x.eos = some eos ∧ back = [eos]) ∧
      spanTokens' = spanTokens.map (· ++ indices) ∧ indices.Pairwise (· < ·) ∧
      List.Forall₂ (fun s i => ∃ token, (out ++ front).length ≤ i ∧
        (out ++ front ++ body)[i]? = some token ∧
        x.find (substr text s.offset s.length) = some token ∧
        x.text token = substr text s.offset s.length ∧
        (x.kind token = .control ∨ x.kind token = .userDefined)) spans indices ∧
      (∀ k token, body[k]? = some token → (out ++ front).length + k ∉ indices →
        x.kind token = .normal ∨ x.kind token = .userDefined) ∧
      (x.normalization = .none → text.length < 2 ^ 32 →
        x.decode body ⟨true⟩ [] = .ok text) := by
  obtain ⟨hx, -, hlength⟩ := create_sound hcreate
  unfold encodeMarked at h
  obtain ⟨_, hbegin, h⟩ := bind_ok h
  obtain ⟨⟨stop, _, spanTokens1⟩, hspans, h⟩ := bind_ok h
  obtain ⟨_, htext, h⟩ := bind_ok h
  obtain ⟨_, hend, h⟩ := bind_ok h
  obtain ⟨rfl, rfl⟩ := h
  obtain ⟨front, rfl, hfront⟩ := begin_ok hbegin
  obtain ⟨body, indices, rfl, rfl, hmarks, -, hstop, hspell⟩ :=
    encodeSpans_marks hx hspans (Nat.zero_le _)
  obtain ⟨ids, rfl, hids, hspell'⟩ := encodeText_adds hx htext
  obtain ⟨back, rfl, hback⟩ := end_ok hend
  have hall := hmarks.append hids
  refine ⟨front, body ++ ids, back, indices, by simp only [append_assoc], hfront, hback, rfl,
    hall.ordered, hall.spans.imp fun s i hs => ?_, fun k t hget hk => ?_, fun hnone hlen => ?_⟩
  · obtain ⟨token, hle, hget, hfind, hspec⟩ := hs
    exact ⟨token, hle, hget, hfind, (hx.tables.texts hfind).2.1, hspec.2⟩
  · rcases (hall.plain k t hget hk).2 with hk | hk | ⟨hparse, -⟩
    · exact .inl hk
    · exact .inr hk
    · cases hparse
  have hdec : x.decode (body ++ ids) ⟨true⟩ [] = .ok ([] ++ x.spelling (body ++ ids)) := by
    refine decodeFromIndex_ok fun t ht => ?_
    obtain ⟨h0, hused⟩ := hall.used ht
    refine ⟨h0, ?_⟩
    rw [← hlength]
    have hcast : ((t.toNat : Nat) : TokenId) = t := Int.toNat_of_nonneg h0
    exact lt_of_kind (by rw [hcast]; exact hused)
  have hrest : (text.drop stop).length < 2 ^ 32 := by
    rw [length_drop]
    omega
  have hsub : substr text 0 (stop - 0) = text.take stop := rfl
  rw [hdec, nil_append, spelling_append, hspell hnone hlen, hspell' hnone hrest, hsub,
    take_append_drop]

/-! ## One vocabulary: the bytes, a control token and a user-defined one -/

def byteTexts : List Bytes := (List.range 256).map fun b => byteText (UInt8.ofNat b)

/-- A token for each byte, the control token `<s>` and the user-defined `<u>`. -/
def byteVocabulary : TokenizerSpec where
  tokens := byteTexts ++ [[0x3C, 0x73, 0x3E], [0x3C, 0x75, 0x3E]]
  kinds := byteTexts.map (fun _ => .normal) ++ [.control, .userDefined]
  merges := []

theorem byteTexts_length : byteTexts.length = 256 := by
  rw [byteTexts, length_map, length_range]

theorem byteTexts_get (b : UInt8) : byteTexts[b.toNat]? = some (byteText b) := by
  have hb : b.toNat < 256 := b.toNat_lt
  rw [byteTexts, getElem?_map, getElem?_range hb, Option.map_some, UInt8.ofNat_toNat]

theorem byteText_inj {a b : UInt8} (h : byteText a = byteText b) : a = b := by
  have h : alphabetText [a] = alphabetText [b] := by
    simp only [alphabetText, flatMap_cons, flatMap_nil, h]
  exact singleton_injective (alphabetText_inj h)

theorem byteText_length (b : UInt8) : (byteText b).length ≤ 2 := by
  unfold byteText utf8
  split
  · exact Nat.le_succ 1
  rw [if_pos (byteChar_lt b)]
  exact Nat.le_refl 2

theorem byteAlphabet_decodes : byteAlphabet.all (fun cp =>
    decide (decodeUtf8 (utf8 cp) [] = .ok [cp])) = true := by
  decide +kernel

theorem byteText_decodes (b : UInt8) : decodeUtf8 (byteText b) [] = .ok [byteChar b] :=
  of_decide_eq_true (all_eq_true.mp byteAlphabet_decodes _ (mem_of_getElem? (byteChar_eq b)))

theorem byteOf_byteChar (b : UInt8) : ∃ c, byteOf (byteChar b) = some c := by
  cases h : byteAlphabet.idxOf? (byteChar b) with
  | none =>
    have hmem := mem_of_getElem? (byteChar_eq b)
    exact absurd hmem (List.idxOf?_eq_none_iff.mp h)
  | some i => exact ⟨UInt8.ofNat i, by rw [byteOf, h]; rfl⟩

theorem byteVocabulary_length : byteVocabulary.tokens.length = 258 := by
  show (byteTexts ++ _).length = 258
  rw [length_append, byteTexts_length, length_cons, length_singleton]

theorem byteVocabulary_nodup : byteVocabulary.tokens.Nodup := by
  refine nodup_append.mpr ⟨List.Nodup.map_on ?_ nodup_range, by decide, ?_⟩
  · intro a ha b hb h
    have heq := congrArg UInt8.toNat (byteText_inj h)
    rw [UInt8.toNat_ofNat', UInt8.toNat_ofNat'] at heq
    have := mem_range.mp ha
    have := mem_range.mp hb
    omega
  intro t ht t' ht' heq
  obtain ⟨b, -, rfl⟩ := mem_map.mp ht
  have hlen := byteText_length (UInt8.ofNat b)
  rw [heq] at hlen
  rcases mem_cons.mp ht' with rfl | ht'
  · exact absurd hlen (by decide)
  rw [mem_singleton.mp ht'] at hlen
  exact absurd hlen (by decide)

theorem byteVocabulary_text (b : UInt8) : (start byteVocabulary).kind b.toNat = .normal ∧
    (start byteVocabulary).text b.toNat = byteText b := by
  have hget := byteTexts_get b
  obtain ⟨hb, -⟩ := List.getElem?_eq_some_iff.mp hget
  constructor
  · show (byteTexts.map (fun _ => TokenKind.normal) ++ _).getD b.toNat .unused = _
    rw [getD_eq_getElem?_getD, getElem?_append_left (by rwa [length_map]), getElem?_map, hget]
    rfl
  show (byteTexts ++ _).getD b.toNat [] = _
  rw [getD_eq_getElem?_getD, getElem?_append_left hb, hget]
  rfl

theorem byteVocabulary_special (k : Nat) :
    (start byteVocabulary).kind (256 + k : Nat) = [.control, .userDefined].getD k .unused ∧
      (start byteVocabulary).text (256 + k : Nat) =
        [[0x3C, 0x73, 0x3E], [0x3C, 0x75, 0x3E]].getD k [] := by
  constructor
  · show (byteTexts.map (fun _ => TokenKind.normal) ++ _).getD (256 + k) .unused = _
    rw [getD_eq_getElem?_getD, getElem?_append_right (by
      rw [length_map, byteTexts_length]
      exact Nat.le_add_right 256 k), length_map, byteTexts_length, Nat.add_sub_cancel_left,
      getD_eq_getElem?_getD]
  show (byteTexts ++ _).getD (256 + k) [] = _
  rw [getD_eq_getElem?_getD, getElem?_append_right (by
    rw [byteTexts_length]
    exact Nat.le_add_right 256 k), byteTexts_length, Nat.add_sub_cancel_left, getD_eq_getElem?_getD]

theorem byteVocabulary_valid {id : Nat} (hid : id < byteVocabulary.tokens.length) :
    (start byteVocabulary).Valid id := by
  rw [byteVocabulary_length] at hid
  rcases Nat.lt_or_ge id 256 with hlt | hge
  · have hto : (UInt8.ofNat id).toNat = id := by
      rw [UInt8.toNat_ofNat']
      omega
    obtain ⟨hkind, htext⟩ := byteVocabulary_text (UInt8.ofNat id)
    rw [hto] at hkind htext
    obtain ⟨c, hc⟩ := byteOf_byteChar (UInt8.ofNat id)
    refine ⟨?_, ⟨_, htext ▸ byteText_decodes _, fun _ => ⟨[c], ?_⟩⟩, fun hk => absurd hkind hk⟩
    · rw [htext]
      refine ⟨fun hnil => ?_, Nat.le_trans (byteText_length _) (by decide)⟩
      have hpos := utf8_length_pos (byteChar (UInt8.ofNat id))
      rw [show utf8 (byteChar (UInt8.ofNat id)) = [] from hnil] at hpos
      exact absurd hpos (Nat.lt_irrefl 0)
    · simp [hc]
  obtain ⟨k, rfl⟩ := Nat.exists_eq_add_of_le hge
  obtain ⟨hkind, htext⟩ := byteVocabulary_special k
  obtain rfl | rfl : k = 0 ∨ k = 1 := by omega
  all_goals
    refine ⟨?_, ?_, ?_⟩
    · rw [htext]
      decide
    · rw [htext, hkind]
      exact ⟨_, rfl, nofun⟩
    rw [htext]
    exact fun _ => by decide

theorem byteVocabulary_accepted : ∃ x, create byteVocabulary = .ok x := by
  have hlen := byteVocabulary_length
  refine create_accepts (by omega) (by rw [hlen]; decide) ?_ byteVocabulary_nodup
    (fun id => byteVocabulary_valid) (fun b => ⟨b.toNat, byteVocabulary_text b⟩) rfl rfl rfl rfl rfl
  show (byteTexts.map _ ++ _).length = _
  rw [hlen, length_append, length_map, byteTexts_length]
  rfl

theorem encodeMarked_one {x : Impl} (u : UnicodeData) {token : TokenId}
    (hlen : text.length = 3) (hutf : validateUtf8 text = .ok ()) (hbos : x.bos = none)
    (heos : x.eos = none) (hfind : x.find text = some token) (htoken : x.Special token) :
    x.encodeMarked u text [⟨0, 3⟩] { special := .parse } [] (some []) =
      .ok ([token], some [0]) := by
  have hsub : substr text 0 3 = text := by
    unfold substr
    rw [drop_zero, ← hlen, take_length]
  have hkind : ¬(x.kind token = .normal ∨ x.kind token = .unused) := by
    rcases htoken.2 with hk | hk <;> rw [hk] <;> exact nofun
  have hempty : ∀ out, x.encodeText u { special := .parse } 0 [] .userDefinedOnly out = .ok out :=
    fun out => rfl
  have hbegin : x.begin' { special := .parse } 0 text [] = .ok [] := by
    unfold begin'
    rw [if_neg (by rw [hlen]; decide), hutf, hbos]
    rfl
  have hend : ∀ out, x.end' { special := .parse } 0 out = .ok out := by
    intro out
    unfold end'
    rw [heos]
  have hspans : x.encodeSpans u { special := .parse } 0 text [⟨0, 3⟩] 0 0 [] (some []) =
      .ok (3, [token], some [0]) := by
    unfold encodeSpans
    simp only [hlen, hsub, hfind, if_neg hkind]
    rfl
  unfold encodeMarked
  simp only [length_nil, hbegin, ok_bind, hspans]
  rw [drop_of_length_le (Nat.le_of_eq hlen), hempty]
  simp only [ok_bind, hend]

theorem byteVocabulary_find {x : Impl} (h : create byteVocabulary = .ok x) :
    x.bos = none ∧ x.eos = none ∧ x.normalization = .none ∧
      (x.find [0x3C, 0x73, 0x3E] = some 256 ∧ x.kind 256 = .control) ∧
      (x.find [0x3C, 0x75, 0x3E] = some 257 ∧ x.kind 257 = .userDefined) := by
  obtain ⟨hx, ⟨htok, hkinds, -, hnorm, -, hbos, heos, -⟩, -⟩ := create_sound h
  have hfound : ∀ k, (start byteVocabulary).kind (256 + k : Nat) ≠ .unused →
      x.find ((start byteVocabulary).text (256 + k : Nat)) = some ((256 + k : Nat) : TokenId) := by
    intro k hk
    have hfound := hx.tables.found (i := 256 + k) (by rw [kind, hkinds]; exact hk) not_mem_nil
    rw [text, htok] at hfound
    exact hfound
  have hkind : ∀ k, x.kind (256 + k : Nat) = (start byteVocabulary).kind (256 + k : Nat) :=
    fun k => by rw [kind, kind, hkinds]
  obtain ⟨hk0, ht0⟩ := byteVocabulary_special 0
  obtain ⟨hk1, ht1⟩ := byteVocabulary_special 1
  have hf0 := hfound 0 (by rw [hk0]; intro h; cases h)
  have hf1 := hfound 1 (by rw [hk1]; intro h; cases h)
  exact ⟨hbos, heos, hnorm, ⟨hf0, (hkind 0).trans hk0⟩, ⟨hf1, (hkind 1).trans hk1⟩⟩

theorem encodeMarked_closed_control : ∃ x, create byteVocabulary = .ok x ∧ ∀ u : UnicodeData,
      x.encodeMarked u [0x3C, 0x73, 0x3E] [⟨0, 3⟩] { special := .parse } [] (some []) =
        .ok ([256], some [0]) ∧
      ∃ front body back, [(256 : TokenId)] = [] ++ front ++ body ++ back ∧
        x.kind 256 = .control ∧ x.decode body ⟨true⟩ [] = .ok [0x3C, 0x73, 0x3E] := by
  obtain ⟨x, hx⟩ := byteVocabulary_accepted
  obtain ⟨hbos, heos, hnorm, ⟨hfind, hkind⟩, -⟩ := byteVocabulary_find hx
  refine ⟨x, hx, fun u => ?_⟩
  have hmar := encodeMarked_one u rfl rfl hbos heos hfind ⟨by decide, .inl hkind⟩
  obtain ⟨front, body, back, -, hout, -, -, -, -, -, -, hdec⟩ := encodeMarked_closed hx u hmar
  exact ⟨hmar, front, body, back, hout, hkind, hdec hnorm (by decide)⟩

/-- A span may name a user-defined token: then what is appended holds that token and no control
    token at all. -/
theorem marked_userDefined : ∃ x, create byteVocabulary = .ok x ∧
    ∀ u, x.encodeMarked u [0x3C, 0x75, 0x3E] [⟨0, 3⟩] { special := .parse } [] (some []) =
      .ok ([257], some [0]) ∧
    x.find (substr [0x3C, 0x75, 0x3E] 0 3) = some 257 ∧
    ([(257 : TokenId)].filter fun t => x.kind t = .control) ≠ [257] := by
  obtain ⟨x, hx⟩ := byteVocabulary_accepted
  obtain ⟨hbos, heos, -, -, ⟨hfind, hkind⟩⟩ := byteVocabulary_find hx
  refine ⟨x, hx, fun u => ⟨encodeMarked_one u rfl rfl hbos heos hfind ⟨by decide, .inr hkind⟩,
    hfind, ?_⟩⟩
  rw [filter_cons_of_neg (by simp [hkind])]
  exact nofun

end JitLlm.Tokenizer.Impl
