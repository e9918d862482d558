import JitLlm.Artifact.HeaderPieces
import Mathlib.Data.Nat.Digits.Defs

/-!
# The expected header describes the whole shard

The index's checks leave the spans named apart and the groups in the order of their shards; then
the header's entries tile the shard's data section.
-/

namespace JitLlm.Artifact

open Base Lib List

/-! ## The spans, whole -/

def resourceSpan (r : Resource) : Span :=
  ⟨r.group, r.offset.value, r.bytes.value, r.readable.value, r.name, containerViewOf r.repr⟩

def arraySpan (a : ExpertArray) (e : Nat) : Span :=
  ⟨a.firstGroup + e, a.groupOffset.value, a.sliceBytes.value, a.readable.value,
    a.name ++ "#" ++ toString e, containerViewOf a.repr⟩

def spansOf (resources : List Resource) (arrays : List ExpertArray) : List Span :=
  resources.map resourceSpan ++ arrays.flatMap fun a => (List.range a.count).map (arraySpan a)

def namesOf (o : Opener) : List String :=
  o.resources.map Resource.name ++ o.expertArrays.map ExpertArray.name

/-- The opener before the placement: its spans are those of what it has, which is named apart. -/
structure Named (l : Layout) (o : Opener) : Prop where
  layout : o.layout = l
  groups : l.groups.length ≤ maxEntries
  spans : o.spans = spansOf o.resources o.expertArrays
  bytes : ∀ s ∈ o.spans, 0 < s.bytes ∧ s.bytes ≤ s.readable
  distinct : (namesOf o).Nodup
  claimed : ∀ n ∈ namesOf o, n ∈ o.names ∧ isName n = true

variable {v : Value} {i : Nat} {gs : List Group}

theorem claim_ok {names names' : List String} {name : String}
    (h : claim names name i = .ok names') : name ∉ names ∧ names' = name :: names := by
  obtain ⟨_, hnew, h⟩ := bind_ok h
  exact ⟨require_ok hnew, (Except.ok.inj h).symm⟩

variable {x : Rest} {files : Files}

theorem representationAt_sized (h : (x.whole files).representationAt v i = .ok rep) :
    Sized v rep := by
  unfold Rest.representationAt at h
  split at h
  next hparse =>
    cases h
    exact parseRepresentation_sized hparse
  · cases h

theorem Named.claims {l : Layout} {o : Opener} {n : String} (ho : Named l o) (hnew : n ∉ o.names)
    (hname : isName n = true) :
    (namesOf o ++ [n]).Nodup ∧ ∀ k ∈ namesOf o ++ [n], k ∈ n :: o.names ∧ isName k = true := by
  constructor
  · refine nodup_append.mpr ⟨ho.distinct, nodup_singleton _, ?_⟩
    rintro a ha b hb rfl
    obtain rfl := mem_singleton.mp hb
    exact hnew (ho.claimed _ ha).1
  intro k hk
  rcases mem_append.mp hk with hk | hk
  · exact ⟨mem_cons_of_mem _ (ho.claimed k hk).1, (ho.claimed k hk).2⟩
  obtain rfl := mem_singleton.mp hk
  exact ⟨mem_cons_self, hname⟩

theorem checkResource_named {l : Layout} {o o' : Opener}
    (h : checkResource (x.whole files) o v i = .ok o')
    (ho : Named l o ∧ o.expertArrays = []) : Named l o' ∧ o'.expertArrays = [] := by
  obtain ⟨ho, harr⟩ := ho
  obtain ⟨name, _, gid, texts, _, _, rep, offset, hname, hnames, -, hrep, hbytes, hread, -, hoff,
    rfl⟩ := checkResource_ok h
  obtain ⟨hnew, rfl⟩ := claim_ok hnames
  have hbytes := checkInt_ok (by decide) hbytes
  have hread := (checkInt_ok (by decide) hread).2
  have hle := (representationAt_sized hrep).readable_le
  simp only [maxInt] at hbytes hread hoff
  have ho' := bytesOf_value (n := offset) (by omega)
  have hb := bytesOf_value (n := rep.bytes) (by omega)
  have hr := bytesOf_value (n := rep.readable) (by omega)
  have hnames' : namesOf o = o.resources.map Resource.name := by
    rw [namesOf, harr, map_nil, append_nil]
  refine ⟨⟨ho.layout, ho.groups, ?_, ?_, ?_, ?_⟩, harr⟩
  · have hspans := ho.spans
    rw [harr] at hspans
    rw [harr, hspans]
    simp only [spansOf, flatMap_nil, append_nil, map_append, map_cons,
      map_nil, resourceSpan, ho', hb, hr]
  · intro s hs
    rcases mem_append.mp hs with hs | hs
    · exact ho.bytes s hs
    obtain rfl := mem_singleton.mp hs
    refine ⟨?_, hle⟩
    show 0 < rep.bytes
    omega
  · show ((o.resources ++ [_]).map Resource.name ++ o.expertArrays.map ExpertArray.name).Nodup
    rw [harr, map_nil, append_nil, map_append, ← hnames']
    exact (ho.claims hnew hname).1
  intro n hn
  have hn : n ∈ (o.resources ++ [_]).map Resource.name ++ o.expertArrays.map ExpertArray.name := hn
  rw [harr, map_nil, append_nil, map_append, ← hnames'] at hn
  exact (ho.claims hnew hname).2 n hn

theorem checkExpertArray_named {m : Manifest} {l : Layout} {o o' : Opener}
    (h : checkExpertArray (x.whole files) m o v i = .ok o') (ho : Named l o) : Named l o' := by
  obtain ⟨name, _, layer, count, first, rep, offset, hname, hnames, hfirst, hrep, hslice, hread,
    hoff, rfl⟩ := checkExpertArray_ok h
  obtain ⟨hnew, rfl⟩ := claim_ok hnames
  have hslice := checkInt_ok (by decide) hslice
  have hread := (checkInt_ok (by decide) hread).2
  have hle := (representationAt_sized hrep).readable_le
  have hgroups := ho.groups
  rw [ho.layout] at hfirst
  simp only [maxEntries] at hgroups
  simp only [maxInt] at hslice hread hoff
  have hc : toU32 count = count := Nat.mod_eq_of_lt (by omega)
  have hf : toU32 first = first := Nat.mod_eq_of_lt (by omega)
  have ho' := bytesOf_value (n := offset) (by omega)
  have hb := bytesOf_value (n := rep.bytes) (by omega)
  have hr := bytesOf_value (n := rep.readable) (by omega)
  have hnames' : ∀ a : ExpertArray, (o.resources.map Resource.name ++
      (o.expertArrays ++ [a]).map ExpertArray.name) = namesOf o ++ [a.name] := by
    intro a
    simp [namesOf]
  refine ⟨ho.layout, ho.groups, ?_, ?_, ?_, ?_⟩
  · show o.spans ++ _ = spansOf o.resources (o.expertArrays ++ [_])
    rw [ho.spans]
    simp only [spansOf, flatMap_append, flatMap_cons, flatMap_nil, append_nil, append_assoc]
    refine congrArg (_ ++ ·) (congrArg (_ ++ ·) ?_)
    rw [hc]
    refine map_congr_left fun e he => ?_
    have hlt := mem_range.mp he
    have hge : toU32 (first + e) = first + e := Nat.mod_eq_of_lt (by omega)
    simp only [sliceSpan, arraySpan, hf, ho', hb, hr, hge]
  · intro s hs
    rcases mem_append.mp hs with hs | hs
    · exact ho.bytes s hs
    obtain ⟨e, -, rfl⟩ := mem_map.mp hs
    refine ⟨?_, hle⟩
    show 0 < rep.bytes
    omega
  · show (o.resources.map Resource.name ++ (o.expertArrays ++ [_]).map ExpertArray.name).Nodup
    rw [hnames']
    exact (ho.claims hnew hname).1
  intro n hn
  have hn : n ∈ o.resources.map Resource.name ++ (o.expertArrays ++ [_]).map ExpertArray.name := hn
  rw [hnames'] at hn
  exact (ho.claims hnew hname).2 n hn

/-! ## The order of the groups -/

def InOrder (w : GroupWalk) : Prop :=
  (w.groups.Pairwise fun a b => a.shard ≤ b.shard) ∧ ∀ g ∈ w.groups, g.shard ≤ w.lastShard

theorem checkGroup_order {shards : List Shard} (hn : shards.length ≤ maxIndexBytes)
    {w w' : GroupWalk} {gid : Nat} (h : checkGroup shards w v gid = .ok w')
    (hw : InOrder w) : InOrder w' := by
  obtain ⟨_, -, h⟩ := bind_ok h
  obtain ⟨kind, -, h⟩ := bind_ok h
  obtain ⟨layer, -, h⟩ := bind_ok h
  obtain ⟨expert, -, h⟩ := bind_ok h
  obtain ⟨seen, -, h⟩ := bind_ok h
  obtain ⟨shard, hshard, h⟩ := bind_ok h
  obtain ⟨_, horder, h⟩ := bind_ok h
  obtain ⟨stored, -, h⟩ := bind_ok h
  obtain ⟨used, -, h⟩ := bind_ok h
  obtain ⟨offset, -, h⟩ := bind_ok h
  obtain ⟨_, -, h⟩ := bind_ok h
  obtain ⟨first, -, h⟩ := bind_ok h
  obtain ⟨_, -, h⟩ := bind_ok h
  cases h
  have hshard := (checkInt_ok (by decide) hshard).2
  simp only [maxIndexBytes] at hn
  have hu : toU32 shard = shard := Nat.mod_eq_of_lt (by omega)
  have horder : w.lastShard ≤ shard := Nat.not_lt.mp (require_ok horder)
  obtain ⟨hpair, hlast⟩ := hw
  constructor
  · refine pairwise_append.mpr ⟨hpair, pairwise_singleton _ _, ?_⟩
    intro a ha b hb
    obtain rfl := mem_singleton.mp hb
    rw [hu]
    exact Nat.le_trans (hlast a ha) horder
  intro g hg
  rcases mem_append.mp hg with hg | hg
  · exact Nat.le_trans (hlast g hg) horder
  obtain rfl := mem_singleton.mp hg
  exact Nat.le_of_eq hu

theorem counted_shard (gs : List Group) :
    (gs.map Group.counted).Pairwise (fun a b => a.shard ≤ b.shard) ↔
      gs.Pairwise fun a b => a.shard ≤ b.shard := pairwise_map

theorem checkIndex_named {m : Manifest} {d : Document} {o : Opener}
    (h : checkIndex (x.whole files) m d.root = .ok o) :
    ∃ spans, Named o.layout { o with spans := spans } ∧ o.spans = spans.insertionSort Span.le ∧
      (o.layout.groups.Pairwise fun a b => a.shard ≤ b.shard) ∧
      placeGroups 0 o.layout.groups o.spans = .ok () := by
  obtain ⟨o1, o2, o3, spans, hshards, hgroups, hhas, hcap, hsorted, hplace, hkeeps⟩ :=
    checkIndex_entries h
  obtain ⟨shards, rfl, hlen, -⟩ := checkShardList_ok hshards
  -- the groups come in the order of their shards
  obtain ⟨_, -, hg⟩ := bind_ok hgroups
  obtain ⟨w, hwalk, hg⟩ := bind_ok hg
  obtain ⟨_, -, hg⟩ := bind_ok hg
  have horder := walk_keeps (P := InOrder) (fun _ _ _ _ h hw => checkGroup_order hlen h hw) hwalk
    ⟨.nil, nofun⟩
  obtain ⟨_, -, hh⟩ := bind_ok hhas
  obtain ⟨_, -, hh⟩ := bind_ok hh
  obtain ⟨_, -, hh⟩ := bind_ok hh
  have hsor : o3.layout.groups.Pairwise fun a b => a.shard ≤ b.shard := by
    rw [← Except.ok.inj hh, ← Except.ok.inj hg]
    exact (counted_shard _).mpr horder.1
  have hbare : o3.spans = [] ∧ o3.resources = [] ∧ o3.expertArrays = [] := by
    rw [← Except.ok.inj hh, ← Except.ok.inj hg]
    exact ⟨rfl, rfl, rfl⟩
  have hnone : ∀ n, namesOf { o3 with entries := n } = [] := fun n => by
    rw [namesOf, show _ = [] from hbare.2.1, show _ = [] from hbare.2.2]
    rfl
  have hnamed := hkeeps (fun o => Named o3.layout o ∧ o.expertArrays = []) (Named o3.layout)
    (fun n => ⟨⟨rfl, hcap, by rw [spansOf, hbare.2.1, hbare.2.2]; exact hbare.1,
      fun s hs => absurd hs (by rw [show _ = [] from hbare.1]; exact not_mem_nil),
      by rw [hnone]; exact nodup_nil,
      fun k hk => absurd hk (by rw [hnone]; exact not_mem_nil)⟩, hbare.2.2⟩)
    (fun _ _ _ _ h ho => checkResource_named h ho) (fun _ ho => ho.1)
    (fun _ _ _ _ h ho => checkExpertArray_named h ho)
  have hlayout : o.layout = o3.layout := hnamed.layout
  exact ⟨spans, hlayout ▸ hnamed, hsorted, hlayout ▸ hsor, hplace⟩

/-! ## Names apart -/

theorem isName_chars {s : String} (h : isName s = true) :
    '#' ∉ s.toList ∧ s.toList.head? ≠ some '~' ∧ s.toList ≠ [] := by
  unfold isName at h
  rcases hs : s.toList with _ | _
  · rw [hs] at h
    cases h
  rw [hs] at h
  simp only [Bool.and_eq_true, all_eq_true] at h
  obtain ⟨⟨-, hc⟩, hrest⟩ := h
  refine ⟨?_, ?_, cons_ne_nil _ _⟩
  · intro hmem
    rcases mem_cons.mp hmem with rfl | hmem
    · cases hc
    · exact absurd (hrest _ hmem) (by decide)
  rintro hhead
  cases hhead
  cases hc

theorem sliceName_injective {a b : String} {e f : Nat} (ha : '#' ∉ a.toList) (hb : '#' ∉ b.toList)
    (h : a ++ "#" ++ toString e = b ++ "#" ++ toString f) : a = b ∧ e = f := by
  have hlists := congrArg String.toList h
  simp only [String.toList_append, append_assoc] at hlists
  have hsplit : ∀ (l : List Char) (r : List Char), '#' ∉ l →
      (l ++ ("#".toList ++ r)).takeWhile (· ≠ '#') = l := by
    intro l r hl
    rw [takeWhile_append_of_pos]
    · simp
    intro c hc
    have : c ≠ '#' := fun heq => hl (heq ▸ hc)
    simpa using this
  have hname : a.toList = b.toList := by
    rw [← hsplit a.toList (toString e).toList ha, hlists, hsplit _ _ hb]
  rw [hname] at hlists
  exact ⟨String.toList_injective hname, toString_injective (String.toList_injective
    (append_cancel_left (append_cancel_left hlists)))⟩

section Names

variable {l : Layout} {o : Opener} {resources : List Resource} {arrays : List ExpertArray}

theorem Named.resource (h : Named l o) {r : Resource} (hr : r ∈ o.resources) :
    isName r.name = true :=
  (h.claimed _ (mem_append_left _ (mem_map_of_mem hr))).2

theorem Named.array (h : Named l o) {a : ExpertArray} (ha : a ∈ o.expertArrays) :
    isName a.name = true :=
  (h.claimed _ (mem_append_right _ (mem_map_of_mem ha))).2

theorem mem_spansOf {s : Span} :
    s ∈ spansOf resources arrays ↔ (∃ r ∈ resources, resourceSpan r = s) ∨
      ∃ a ∈ arrays, ∃ e < a.count, arraySpan a e = s := by
  simp only [spansOf, mem_append, mem_map, mem_flatMap, mem_range]

theorem Named.no_pad (h : Named l o) {s : Span} (hs : s ∈ o.spans) (k : Nat) :
    s.name ≠ padName k := by
  have hpad : (padName k).toList.head? = some '~' := by
    rw [padName, String.toList_append]
    rfl
  rw [h.spans] at hs
  intro heq
  rw [← heq] at hpad
  rcases mem_spansOf.mp hs with ⟨r, hr, rfl⟩ | ⟨a, ha, e, -, rfl⟩
  · exact (isName_chars (h.resource hr)).2.1 hpad
  obtain ⟨-, hhead, hne⟩ := isName_chars (h.array ha)
  obtain ⟨c, rest, hc⟩ := exists_cons_of_ne_nil hne
  have hname : (arraySpan a e).name.toList.head? = a.name.toList.head? := by
    simp [arraySpan, String.toList_append, hc]
  rw [hname] at hpad
  exact hhead hpad

theorem Named.names (h : Named l o) : (o.spans.map Span.name).Nodup := by
  have hdis := h.distinct
  obtain ⟨hres, harr, -⟩ := nodup_append.mp hdis
  rw [h.spans, spansOf, map_append, map_map, map_flatMap]
  refine nodup_append.mpr ⟨hres, ?_, ?_⟩
  · rw [nodup_flatMap]
    constructor
    · intro a ha
      rw [map_map]
      refine (nodup_range).map_on ?_
      intro e _ f _ heq
      have hname := (isName_chars (h.array ha)).1
      exact (sliceName_injective hname hname heq).2
    refine (pairwise_map.mp harr).imp_of_mem ?_
    intro a b ha hb hne n hn hn'
    simp only [map_map] at hn hn'
    obtain ⟨e, -, rfl⟩ := mem_map.mp hn
    obtain ⟨f, -, heq⟩ := mem_map.mp hn'
    exact hne (sliceName_injective (isName_chars (h.array ha)).1 (isName_chars (h.array hb)).1
      heq.symm).1
  rintro n hn n' hn' rfl
  obtain ⟨r, hr, rfl⟩ := mem_map.mp hn
  obtain ⟨a, ha, hn'⟩ := mem_flatMap.mp hn'
  rw [map_map] at hn'
  obtain ⟨e, -, heq⟩ := mem_map.mp hn'
  refine (isName_chars (h.resource hr)).1 ?_
  have heq : (a.name ++ "#" ++ toString e) = r.name := heq
  rw [← heq, String.toList_append, String.toList_append]
  simp

theorem range_spansOf (resources : List Resource) (arrays : List ExpertArray) :
    (spansOf resources arrays).map Span.range = readables resources arrays := by
  simp only [spansOf, readables, map_append, map_map, map_flatMap]
  rfl

theorem Named.sorted_unique (h : Named l o) (hr : resources.Perm o.resources)
    (ha : arrays.Perm o.expertArrays) :
    (spansOf resources arrays).insertionSort Span.le = o.spans.insertionSort Span.le := by
  have hperm : (spansOf resources arrays).Perm o.spans := by
    rw [h.spans]
    exact (hr.map _).append (ha.flatMap_right _)
  have hmem : ∀ s ∈ (spansOf resources arrays).insertionSort Span.le, s ∈ o.spans := fun s hs =>
    hperm.mem_iff.mp ((perm_insertionSort _ _).mem_iff.mp hs)
  have hmem' : ∀ s ∈ o.spans.insertionSort Span.le, s ∈ o.spans := fun s hs =>
    (perm_insertionSort _ _).mem_iff.mp hs
  have hsame : ∀ a b, a ∈ (spansOf resources arrays).insertionSort Span.le →
      b ∈ o.spans.insertionSort Span.le → a.le b → b.le a → a = b := by
    intro a b ha hb hab hba
    have hkey : a.key = b.key := le_antisymm hab hba
    have hname : a.name = b.name :=
      congrArg (fun k => (ofLex (ofLex (ofLex (ofLex k).2).2).2).2) hkey
    exact inj_on_of_nodup_map h.names (hmem a ha) (hmem' b hb) hname
  exact List.Perm.eq_of_pairwise hsame (pairwise_insertionSort _ _)
    (pairwise_insertionSort _ _)
    ((perm_insertionSort _ _).trans (hperm.trans (perm_insertionSort _ _).symm))

end Names

/-! ## The header of a shard -/

theorem lower_bound (shard : Nat) (hsor : gs.Pairwise fun a b => a.shard ≤ b.shard) :
    (∀ g ∈ gs.drop (gs.findIdx fun g => ¬ g.shard < shard), shard ≤ g.shard) ∧
      (gs.drop (gs.findIdx fun g => ¬ g.shard < shard)).filter (fun g => g.shard = shard) =
        gs.filter fun g => g.shard = shard := by
  induction gs with
  | nil => exact ⟨nofun, rfl⟩
  | cons g gs ih =>
    obtain ⟨hfirst, hrest⟩ := pairwise_cons.mp hsor
    rw [findIdx_cons]
    by_cases hlt : g.shard < shard
    · have hfil : ((g :: gs).filter fun g => g.shard = shard) =
          gs.filter fun g => g.shard = shard := by
        rw [filter_cons, if_neg (by simpa using hlt.ne)]
      simp only [hlt, not_true_eq_false, decide_false, cond_false, drop_succ_cons, hfil]
      exact ih hrest
    simp only [hlt, not_false_eq_true, decide_true, cond_true, drop_zero, and_true]
    intro b hb
    have hge := Nat.not_lt.mp hlt
    rcases mem_cons.mp hb with rfl | hb
    · exact hge
    · exact Nat.le_trans hge (hfirst b hb)

theorem lower_bound_le {shard k : Nat} {g : Group} (hk : gs[k]? = some g)
    (hshard : g.shard = shard) : (gs.findIdx fun g => ¬ g.shard < shard) ≤ k := by
  apply Nat.not_lt.mp
  intro hlt
  obtain ⟨hlen, rfl⟩ := List.getElem?_eq_some_iff.mp hk
  have hnot : decide (¬ gs[k].shard < shard) = false := by
    simpa using not_of_lt_findIdx hlt
  rw [decide_eq_false_iff_not, not_not] at hnot
  omega

theorem littleEndian_length (n : Nat) : (littleEndian n).length = 8 := by
  rw [littleEndian, length_map, length_range]

theorem ofDigits_bytes (n : Nat) : ∀ m : Nat,
    Nat.ofDigits 256 ((List.range m).map fun k => n / 256 ^ k % 256) = n % 256 ^ m
  | 0 => by simp [Nat.mod_one]
  | m + 1 => by
    rw [range_succ, map_append, Nat.ofDigits_append, ofDigits_bytes n m, length_map, length_range,
      Nat.mod_pow_succ]
    simp

theorem littleEndian_value {n : Nat} (h : n < 2 ^ 32) :
    Nat.ofDigits 256 ((littleEndian n).map UInt8.toNat) = n := by
  have hbyte : ∀ k, (UInt8.ofNat (n >>> (8 * k))).toNat = n / 256 ^ k % 256 := by
    intro k
    rw [UInt8.toNat_ofNat', Nat.shiftRight_eq_div_pow, Nat.pow_mul]
  have hbytes : (littleEndian n).map UInt8.toNat =
      (List.range 8).map fun k => n / 256 ^ k % 256 := by
    rw [littleEndian, map_map]
    exact map_congr_left fun k _ => hbyte k
  rw [hbytes, ofDigits_bytes]
  exact Nat.mod_eq_of_lt (h.trans (by decide))

theorem le_alignUp {n : Nat} (h : alignUp n fileAlignment - 8 ≤ maxShardHeader) :
    n ≤ alignUp n fileAlignment := by
  unfold alignUp at h ⊢
  simp only [satAdd_eq, fileAlignment] at h ⊢
  split at h
  · exact absurd h (by decide)
  rename_i hfits
  have hmin : min (n + (4096 - 1)) uint64Max = n + 4095 := by omega
  rw [if_neg hfits, hmin]
  omega

theorem expectedHeader_ok {o : Opener} {shard : Nat} {text : List UInt8}
    (h : expectedHeader o shard = .ok text) : ∃ h', addGroups o.spans shard
        ⟨List.replicate 8 0 ++ ascii shardLead, (ascii shardLead).length + 1, 0⟩
        (o.layout.groups.findIdx fun g => ¬ g.shard < shard)
        (o.layout.groups.drop (o.layout.groups.findIdx fun g => ¬ g.shard < shard)) = .ok h' ∧
      (8 ≤ h'.text.length → text.length - 8 ≤ maxShardHeader ∧
        ∃ blanks, text = littleEndian (text.length - 8) ++
          (h'.text ++ ascii "\x7d").drop 8 ++ List.replicate blanks 0x20) := by
  obtain ⟨h', hadd, h⟩ := bind_ok h
  have hlead : (List.replicate 8 0 ++ ascii shardLead : List UInt8).length - 8 + 1 =
      (ascii shardLead).length + 1 := by simp
  simp only at h
  split at h
  · cases h
  rename_i hcap
  have hcap := Nat.not_lt.mp hcap
  have hle := le_alignUp hcap
  cases h
  refine ⟨h', hadd, fun hlong => ?_⟩
  have hlen : (littleEndian (alignUp (h'.text ++ ascii "\x7d").length fileAlignment - 8) ++
      (h'.text ++ ascii "\x7d").drop 8 ++ List.replicate
        (alignUp (h'.text ++ ascii "\x7d").length fileAlignment - (h'.text ++ ascii "\x7d").length)
        0x20).length = alignUp (h'.text ++ ascii "\x7d").length fileAlignment := by
    have hlong' : 8 ≤ (h'.text ++ ascii "\x7d").length := by
      rw [length_append]
      omega
    rw [length_append, length_append, length_drop, length_replicate, littleEndian_length]
    omega
  rw [hlen]
  exact ⟨hcap, _, rfl⟩

theorem checkShardsFrom_ok {files : Files} {o : Opener} {shards : List Shard} {i : Nat} {u : Unit}
    (h : checkShardsFrom files o i shards = .ok u) {k : Nat} {s : Shard}
    (hs : shards[k]? = some s) :
    ∃ text, expectedHeader o (i + k) = .ok text ∧ text.length = s.dataOffset.value := by
  induction shards generalizing i k with
  | nil => cases hs
  | cons s' shards ih =>
    obtain ⟨text, htext, h⟩ := bind_ok h
    obtain ⟨_, hlen, h⟩ := bind_ok h
    obtain ⟨_, -, h⟩ := bind_ok h
    cases k with
    | zero =>
      cases hs
      exact ⟨text, htext, require_ok hlen⟩
    | succ k =>
      rw [show i + (k + 1) = i + 1 + k by omega]
      exact ih h hs

/-- The header's text and entries, against the index's shard. -/
structure Describes (o : Opener) (i : Nat) (s : Shard) (text : List UInt8)
    (entries : List Entry) : Prop where
  /-- The entries' data is, in order, exactly the data section. -/
  tiled : Tiles 0 entries s.dataBytes.value
  distinct : (entries.map Entry.name).Nodup
  /-- The first eight bytes are the length of what follows them: the entries' text, and blanks. -/
  length : Nat.ofDigits 256 ((text.take 8).map UInt8.toNat) = (text.drop 8).length
  json : ∃ blanks, text.drop 8 = ascii shardLead ++ entries.flatMap entryText ++ ascii "\x7d" ++
    List.replicate blanks 0x20
  /-- The data section is where the index has it. -/
  dataOffset : text.length = s.dataOffset.value
  /-- Of a resource's name there is the one entry, at its placement. -/
  resource : ∀ r ∈ o.resources, ∀ g, o.layout.groups[r.group]? = some g → g.shard = i →
    (entries.filter fun e => e.name = r.name) = [⟨r.name, (containerViewOf r.repr).dtype,
      (containerViewOf r.repr).shape, g.offset.value + r.offset.value,
      g.offset.value + r.offset.value + r.bytes.value⟩]
  slice : ∀ a ∈ o.expertArrays, ∀ e < a.count, ∀ g, o.layout.groups[a.firstGroup + e]? = some g →
    g.shard = i → (entries.filter fun n => n.name = a.name ++ "#" ++ toString e) =
      [⟨a.name ++ "#" ++ toString e, (containerViewOf a.repr).dtype, (containerViewOf a.repr).shape,
        g.offset.value + a.groupOffset.value,
        g.offset.value + a.groupOffset.value + a.sliceBytes.value⟩]
  /-- And all others are pads. -/
  others : ∀ e ∈ entries, (∃ k, e.name = padName k) ∨
    (∃ r ∈ o.resources, e.name = r.name) ∨
    ∃ a ∈ o.expertArrays, ∃ k < a.count, e.name = a.name ++ "#" ++ toString k
  /-- The order of the resources, and of the arrays, makes no difference. -/
  order : ∀ resources arrays, resources.Perm o.resources → arrays.Perm o.expertArrays →
    expectedHeader { o with spans := (spansOf resources arrays).insertionSort Span.le } i =
      .ok text

theorem filter_name {entries : List Entry} (hnames : (entries.map Entry.name).Nodup) {e : Entry}
    (he : e ∈ entries) : (entries.filter fun e' => e'.name = e.name) = [e] := by
  induction entries with
  | nil => cases he
  | cons b entries ih =>
    obtain ⟨hnot, hrest⟩ := nodup_cons.mp hnames
    rcases mem_cons.mp he with rfl | he
    · have hnone : (entries.filter fun e' => e'.name = e.name) = [] := by
        rw [filter_eq_nil_iff]
        intro b hb heq
        exact hnot (mem_map.mpr ⟨b, hb, of_decide_eq_true heq⟩)
      simp [hnone]
    have hne : b.name ≠ e.name := fun heq => hnot (heq ▸ mem_map_of_mem he)
    rw [filter_cons, if_neg (by simpa using hne)]
    exact ih hrest he

section Header

variable {x : Rest} {files : Files} {m : Manifest} {d : Document} {o : Opener} {s : Span}

/-- The index's geometry and names, together, for the header. -/
structure Whole (m : Manifest) (o : Opener) : Prop where
  laid : Laid m o.layout
  named : ∃ spans, Named o.layout { o with spans := spans } ∧ o.spans = spans.insertionSort Span.le
  order : o.layout.groups.Pairwise fun a b => a.shard ≤ b.shard
  sorted : o.spans.Pairwise fun a b => a.group ≤ b.group
  groups : ∀ gid g, o.layout.groups[gid]? = some g → GroupSpans o.spans gid g

theorem checkIndex_whole (h : checkIndex (x.whole files) m d.root = .ok o) : Whole m o := by
  obtain ⟨l, spans', hlaid, hspan, -⟩ := checkIndex_ok h
  obtain ⟨spans, hnamed, hspans, horder, hplace⟩ := checkIndex_named h
  have hlayout : o.layout = l := hspan.layout
  subst hlayout
  have hperm : o.spans.Perm spans := by
    rw [hspans]
    exact perm_insertionSort _ _
  have hsor : o.spans.Pairwise fun a b => a.group ≤ b.group := by
    rw [hspans]
    exact (pairwise_insertionSort Span.le spans).imp Span.le_group
  have hok : ∀ s ∈ o.spans, SpanOk o.layout.groups.length s := by
    intro s hs
    have hs := hperm.mem_iff.mp hs
    have hrange : s.range ∈ readables o.resources o.expertArrays := by
      have hall : spans = spansOf o.resources o.expertArrays := hnamed.spans
      rw [← range_spansOf, ← hall]
      exact mem_map_of_mem hs
    obtain ⟨s', hs', heq⟩ := hspan.span hrange
    have hok := hspan.ok s' hs'
    have hfields : s'.group = s.group ∧ s'.offset = s.offset ∧ s'.bytes = s.bytes ∧
        s'.readable = s.readable := by
      simpa [Span.range] using heq
    obtain ⟨hg, ho, hb, hr⟩ := hfields
    exact ⟨hg ▸ hok.group, hr ▸ hok.readable, ho ▸ hok.offset, hr ▸ hok.readableBound,
      hb ▸ hok.bytes⟩
  have hwalk := placeGroups_ok hok (fun s hs => ⟨Nat.zero_le _, by
    have := (hok s hs).group
    omega⟩) hsor hplace
  refine ⟨hlaid, ⟨spans, hnamed, hspans⟩, horder, hsor, fun gid g hg => ?_⟩
  have hrun : ∀ s ∈ runOf o.spans gid, s ∈ o.spans ∧ s.group = gid := fun s hs =>
    ⟨(mem_filter.mp hs).1, of_decide_eq_true (mem_filter.mp hs).2⟩
  refine ⟨?_, fun s hs => ?_, fun s _ => Nat.le_add_right _ _, fun s hs => ?_⟩
  · refine (hwalk.2.sublist filter_sublist).imp_of_mem ?_
    intro a b ha hb hab
    exact hab ((hrun a ha).2.trans (hrun b hb).2.symm)
  · exact hnamed.bytes s (hperm.mem_iff.mp (hrun s hs).1)
  obtain ⟨hmem, hgroup⟩ := hrun s hs
  obtain ⟨g', hg', -, hused⟩ := hwalk.1 s hmem
  rw [Nat.sub_zero, hgroup, hg] at hg'
  cases hg'
  have hfits := (hlaid.groups g (mem_of_getElem? hg)).fits
  omega

def firstOf (o : Opener) (i : Nat) : Nat := o.layout.groups.findIdx fun g => ¬ g.shard < i

def piecesOf (o : Opener) (i : Nat) : List Piece :=
  shardPieces o.spans i (firstOf o i) (o.layout.groups.drop (firstOf o i))

variable {i : Nat}

theorem Whole.wrote (h : Whole m o) {start h' : HeaderText}
    (hadd : addGroups o.spans i start (firstOf o i) (o.layout.groups.drop (firstOf o i)) = .ok h') :
    Wrote start (piecesOf o i) h' := by
  refine addGroups_ok h.sorted (fun k g hk => ?_) hadd
  rw [getElem?_drop] at hk
  obtain ⟨s, -, hshard, -, -, hin⟩ := h.laid.group hk
  have hbytes := hshard.bytes
  refine ⟨by omega, fun b hb => ?_⟩
  have hins := (h.groups _ g hk).inside b hb
  have hle := ((h.groups _ g hk).bytes b hb).2
  omega

theorem Whole.tile (h : Whole m o) {s : Shard} (hs : o.layout.shards[i]? = some s) :
    PiecesTile 0 (piecesOf o i) s.dataBytes.value := by
  obtain ⟨hfrom, hfil⟩ := lower_bound i h.order
  refine shardPieces_tile (h.order.sublist (drop_sublist _ _)) hfrom (fun k g hk => ?_) ?_
  · rw [getElem?_drop] at hk
    exact h.groups _ g hk
  show Tiled 0 ((o.layout.groups.drop (o.layout.groups.findIdx fun g => ¬ g.shard < i)).filter
    fun g => g.shard = i) s.dataBytes.value
  rw [hfil]
  exact h.laid.tiled i s hs

section

variable (h : Whole m o)
include h

theorem Whole.member {g : Group} (hs : s ∈ o.spans)
    (hg : o.layout.groups[s.group]? = some g) (hshard : g.shard = i) :
    Piece.member s (g.offset.value + s.offset) ∈ piecesOf o i := by
  have hle : firstOf o i ≤ s.group := lower_bound_le hg hshard
  have hindex : (o.layout.groups.drop (firstOf o i))[s.group - firstOf o i]? = some g := by
    rw [getElem?_drop, Nat.add_sub_cancel' hle]
    exact hg
  refine mem_shardPieces (h.order.sublist (drop_sublist _ _)) (lower_bound i h.order).1 hindex
    hshard ?_
  rw [Nat.add_sub_cancel' hle]
  exact mem_filter.mpr ⟨hs, decide_eq_true rfl⟩

theorem Whole.mem_spans : s ∈ o.spans ↔ s ∈ spansOf o.resources o.expertArrays := by
  obtain ⟨spans, hnamed, hspans⟩ := h.named
  have hall : spans = spansOf o.resources o.expertArrays := hnamed.spans
  rw [hspans, (perm_insertionSort _ _).mem_iff, hall]

theorem Whole.names : (o.spans.map Span.name).Nodup := by
  obtain ⟨spans, hnamed, hspans⟩ := h.named
  rw [hspans]
  exact ((perm_insertionSort Span.le spans).map Span.name).nodup_iff.mpr hnamed.names

theorem Whole.no_pad (hs : s ∈ o.spans) (k : Nat) : s.name ≠ padName k := by
  obtain ⟨spans, hnamed, hspans⟩ := h.named
  rw [hspans, (perm_insertionSort _ _).mem_iff] at hs
  exact hnamed.no_pad hs k

theorem Whole.describes {s : Shard} {text : List UInt8} (hs : o.layout.shards[i]? = some s)
    (htext : expectedHeader o i = .ok text) (hlen : text.length = s.dataOffset.value) :
    Describes o i s text (entriesOf 0 (piecesOf o i)) := by
  obtain ⟨h', hadd, hform⟩ := expectedHeader_ok htext
  obtain ⟨hwrote, -⟩ := h.wrote hadd
  obtain ⟨hcap, blanks, hwhole⟩ := hform (by rw [hwrote]; simp)
  have hbody : (h'.text ++ ascii "\x7d").drop 8 = ascii shardLead ++
      (entriesOf 0 (piecesOf o i)).flatMap entryText ++ ascii "\x7d" := by
    rw [hwrote, append_assoc]
    exact drop_left' length_replicate
  rw [hbody, append_assoc] at hwhole
  have htake : text.take 8 = littleEndian (text.length - 8) :=
    (congrArg (List.take 8) hwhole).trans (take_left' (littleEndian_length _))
  have hdrop : text.drop 8 = ascii shardLead ++ (entriesOf 0 (piecesOf o i)).flatMap entryText ++
      ascii "\x7d" ++ List.replicate blanks 0x20 :=
    (congrArg (List.drop 8) hwhole).trans (drop_left' (littleEndian_length _))
  have hmem : ∀ b ∈ membersIn (piecesOf o i), b ∈ o.spans := fun b hb => (members_from hb).1
  have hdis : ((entriesOf 0 (piecesOf o i)).map Entry.name).Nodup :=
    entriesOf_nodup (members_nodup h.names) fun b hb => h.no_pad (hmem b hb)
  refine ⟨(h.tile hs).entries 0, hdis, ?_, ⟨blanks, hdrop⟩, hlen, ?_, ?_, ?_, ?_⟩
  · rw [htake, length_drop]
    refine littleEndian_value (Nat.lt_of_le_of_lt hcap (by decide))
  · intro r hr g hg hshard
    have hspan := h.mem_spans.mpr (mem_spansOf.mpr (.inl ⟨r, hr, rfl⟩))
    exact filter_name hdis (mem_entriesOf (h.member hspan hg hshard) 0)
  · intro a ha e he g hg hshard
    have hspan := h.mem_spans.mpr (mem_spansOf.mpr (.inr ⟨a, ha, e, he, rfl⟩))
    exact filter_name hdis (mem_entriesOf (h.member hspan hg hshard) 0)
  · intro e he
    rcases entriesOf_name he with ⟨k, -, hname⟩ | ⟨b, hb, hname⟩
    · exact .inl ⟨k, hname⟩
    refine .inr ?_
    rcases mem_spansOf.mp (h.mem_spans.mp (hmem b hb)) with ⟨r, hr, rfl⟩ | ⟨a, ha, k, hk, rfl⟩
    · exact .inl ⟨r, hr, hname⟩
    · exact .inr ⟨a, ha, k, hk, hname⟩
  intro resources arrays hr ha
  obtain ⟨spans, hnamed, hspans⟩ := h.named
  have hsame : (spansOf resources arrays).insertionSort Span.le = o.spans := by
    rw [hspans]
    exact hnamed.sorted_unique hr ha
  rw [hsame]
  exact htext

end

end Header

/-- The expected header of every shard of an opened artifact describes the whole shard. -/
theorem expectedHeader_describes (x : Rest) (files : Files) (m : Manifest) (d : Document)
    (a : Opened) (h : openIndex (x.whole files) m d = .ok a) :
    ∃ o, checkIndex (x.whole files) m d.root = .ok o ∧
      a = ⟨o.layout, o.resources, o.expertArrays⟩ ∧
      ∀ i s, a.layout.shards[i]? = some s →
        ∃ text entries, expectedHeader o i = .ok text ∧ Describes o i s text entries := by
  obtain ⟨o, hindex, h⟩ := bind_ok h
  obtain ⟨_, hshards, h⟩ := bind_ok h
  cases h
  refine ⟨o, hindex, rfl, fun i s hs => ?_⟩
  obtain ⟨text, htext, hlen⟩ := checkShardsFrom_ok hshards hs
  rw [Nat.zero_add] at htext
  exact ⟨text, _, htext, (checkIndex_whole hindex).describes hs htext hlen⟩

/-! ## The sample's header -/

def sampleWhole : Rest := sampleRest.whole fun _ _ _ => .ok ()

def sampleShards : Except Error Nat := do
  let a ← openIndex sampleWhole sampleManifest sampleDocument
  .ok a.layout.shards.length

theorem expectedHeader_describes_sample :
    ∃ a o, openIndex sampleWhole sampleManifest sampleDocument = .ok a ∧
      a.layout.shards.length = 1 ∧ checkIndex sampleWhole sampleManifest sampleIndex = .ok o ∧
      ∀ i s, a.layout.shards[i]? = some s →
        ∃ text entries, expectedHeader o i = .ok text ∧ Describes o i s text entries := by
  have hcount : sampleShards.toOption = some 1 := by decide +kernel
  obtain ⟨a, h, hcount⟩ := bind_ok (ok_of_toOption hcount)
  obtain ⟨o, ho, -, hhead⟩ := expectedHeader_describes _ _ _ _ a h
  exact ⟨a, o, h, Except.ok.inj hcount, ho, hhead⟩

end JitLlm.Artifact
