import JitLlm.Artifact.Geometry

/-!
# Every accepted index is sound

The spans' half of the geometry, and the two halves together. A span is a resource's or an
expert slice's readable range; `placeGroups` reads the sorted spans group by group, and what
it accepts is aligned, inside the group's used bytes and in order. The spans are those of the
resources and arrays kept (`Opener.Spanned`), so the same holds of what the placements answer.
-/

namespace JitLlm.Artifact

open Base Lib List

/-! ## Readable ranges -/

/-- A readable range of a group, with the bytes its header entry names. -/
structure Readable where
  group : Nat
  offset : Nat
  bytes : Nat
  readable : Nat
deriving DecidableEq

def Span.range (s : Span) : Readable := ⟨s.group, s.offset, s.bytes, s.readable⟩

def Resource.range (r : Resource) : Readable :=
  ⟨r.group, r.offset.value, r.bytes.value, r.readable.value⟩

/-- The range of slice `e`. -/
def ExpertArray.slice (a : ExpertArray) (e : Nat) : Readable :=
  ⟨a.firstGroup + e, a.groupOffset.value, a.sliceBytes.value, a.readable.value⟩

def Readable.Apart (a b : Readable) : Prop :=
  a.group = b.group → RangesApart a.offset a.readable b.offset b.readable

theorem Readable.Apart.symm {a b : Readable} (h : a.Apart b) : b.Apart a :=
  fun hg => (h hg.symm).symm

def readables (resources : List Resource) (arrays : List ExpertArray) : List Readable :=
  resources.map Resource.range ++
    arrays.flatMap fun a => (List.range a.count).map a.slice

/-! ## The walk over the sorted spans -/

/-- What is known of a span before the placement is checked. -/
structure SpanOk (n : Nat) (s : Span) : Prop where
  group : s.group < n
  readable : 0 < s.readable
  offset : s.offset < 2 ^ 63
  readableBound : s.readable < 2 ^ 63
  bytes : s.bytes < 2 ^ 63

variable {n i : Nat} {x : Rest} {o' : Opener} {v : Value} {d : Document}

theorem placeSpans_ok {g : Group} {gid : Nat} : ∀ {spans rest : List Span} {last last' : Nat},
    (∀ s ∈ spans, SpanOk n s) → placeSpans g gid last spans = .ok (last', rest) →
    ∃ run, spans = run ++ rest ∧ last ≤ last' ∧ (∀ s ∈ rest.head?, s.group ≠ gid) ∧
      (∀ s ∈ run, s.group = gid ∧ s.offset % memberAlignment = 0 ∧ last ≤ s.offset ∧
        s.offset + s.readable ≤ last') ∧
      run.Pairwise fun a b => a.offset + a.readable ≤ b.offset
  | [], rest, last, last', _, h => by
    cases h
    exact ⟨[], rfl, Nat.le_refl _, nofun, nofun, .nil⟩
  | span :: spans, rest, last, last', hok, h => by
    unfold placeSpans at h
    by_cases hgroup : span.group = gid
    · rw [if_neg (not_not.mpr hgroup)] at h
      obtain ⟨_, hali, h⟩ := bind_ok h
      obtain ⟨_, hafter, h⟩ := bind_ok h
      obtain ⟨_, -, h⟩ := bind_ok h
      have hspan := hok span mem_cons_self
      have hsum : (span.offset + span.readable) % 2 ^ 64 = span.offset + span.readable :=
        Nat.mod_eq_of_lt (by
          have ho := hspan.offset
          have hr := hspan.readableBound
          omega)
      rw [hsum] at h
      obtain ⟨run, rfl, hle, hhead, hrun, hpair⟩ :=
        placeSpans_ok (fun s hs => hok s (mem_cons_of_mem _ hs)) h
      have hafter := require_ok hafter
      refine ⟨span :: run, rfl, by omega, hhead, ?_, pairwise_cons.mpr ⟨?_, hpair⟩⟩
      · intro s hs
        rcases mem_cons.mp hs with rfl | hs
        · exact ⟨hgroup, require_ok hali, Nat.not_lt.mp hafter, hle⟩
        obtain ⟨h1, h2, h3, h4⟩ := hrun s hs
        exact ⟨h1, h2, by omega, h4⟩
      · exact fun s hs => (hrun s hs).2.2.1
    rw [if_pos hgroup] at h
    cases h
    refine ⟨[], rfl, Nat.le_refl _, ?_, nofun, .nil⟩
    intro s hs
    cases hs
    exact hgroup

def Placed (groups : List Group) (gid : Nat) (s : Span) : Prop :=
  ∃ g, groups[gid]? = some g ∧ s.offset % memberAlignment = 0 ∧
    s.offset + s.readable ≤ g.used.value

theorem placeGroups_ok : ∀ {gs : List Group} {gid : Nat} {spans : List Span} {u : Unit},
    (∀ s ∈ spans, SpanOk n s) → (∀ s ∈ spans, gid ≤ s.group ∧ s.group < gid + gs.length) →
    spans.Pairwise (fun a b => a.group ≤ b.group) → placeGroups gid gs spans = .ok u →
    (∀ s ∈ spans, Placed gs (s.group - gid) s) ∧
      spans.Pairwise fun a b => a.group = b.group → a.offset + a.readable ≤ b.offset
  | [], gid, spans, _, _, hnames, _, _ => by
    have hempty : ∀ s, s ∉ spans := by
      intro s hs
      have hlt := hnames s hs
      simp only [length_nil] at hlt
      omega
    rw [eq_nil_iff_forall_not_mem.mpr hempty]
    exact ⟨nofun, .nil⟩
  | g :: gs, gid, spans, u, hok, hnames, hsor, h => by
    unfold placeGroups at h
    obtain ⟨_, -, hspans⟩ := bind_ok h
    obtain ⟨⟨last, rest⟩, hplace, hafter⟩ := bind_ok hspans
    obtain ⟨_, hend, hgs⟩ := bind_ok hafter
    have hused := require_ok hend
    obtain ⟨run, rfl, -, hhead, hrun, hpair⟩ := placeSpans_ok hok hplace
    obtain ⟨hsorRun, hsorRest, hcross⟩ := pairwise_append.mp hsor
    -- the rest is past this group: its first span is, and it is sorted
    have hpast : ∀ s ∈ rest, gid + 1 ≤ s.group := by
      intro s hs
      rcases rest with _ | ⟨first, _⟩
      · cases hs
      have hfirst := hhead first rfl
      have hge := (hnames first (mem_append_right _ mem_cons_self)).1
      rcases mem_cons.mp hs with rfl | hs
      · omega
      have hle := (pairwise_cons.mp hsorRest).1 s hs
      omega
    have hrest := placeGroups_ok (fun s hs => hok s (mem_append_right _ hs))
      (fun s hs => by
        refine ⟨hpast s hs, ?_⟩
        have hlt := (hnames s (mem_append_right _ hs)).2
        rw [length_cons] at hlt
        omega) hsorRest hgs
    have hrunPair : run.Pairwise fun a b =>
        a.group = b.group → a.offset + a.readable ≤ b.offset := by
      refine hpair.imp ?_
      intro a b hab _
      exact hab
    refine ⟨?_, pairwise_append.mpr ⟨hrunPair, hrest.2, ?_⟩⟩
    · intro s hs
      rcases mem_append.mp hs with hs | hs
      · obtain ⟨hgroup, hali, -, hend⟩ := hrun s hs
        refine ⟨g, by rw [hgroup, Nat.sub_self]; rfl, hali, ?_⟩
        exact hused ▸ hend
      obtain ⟨g', hg', hin⟩ := hrest.1 s hs
      have hge := hpast s hs
      refine ⟨g', ?_, hin⟩
      rw [show s.group - gid = (s.group - (gid + 1)) + 1 by omega]
      exact hg'
    intro a ha b hb heq
    have hga := (hrun a ha).1
    have hgb := hpast b hb
    omega

instance : Std.Total Span.le := ⟨fun a b => le_total a.key b.key⟩

instance : IsTrans Span Span.le := ⟨fun _ _ _ hab hbc => le_trans hab hbc⟩

theorem Span.le_group {a b : Span} (h : a.le b) : a.group ≤ b.group := by
  rcases Prod.Lex.le_iff.mp h with h | h
  · exact Nat.le_of_lt h
  · exact Nat.le_of_eq h.1

/-! ## The spans are the resources' and the slices' -/

/-- The opener once its layout is fixed: the spans so far are those of the resources and
arrays so far, and each is of a group of the layout. -/
structure Spanned (l : Layout) (o : Opener) : Prop where
  layout : o.layout = l
  groups : l.groups.length ≤ maxEntries
  spans : o.spans.map Span.range = readables o.resources o.expertArrays
  ok : ∀ s ∈ o.spans, SpanOk l.groups.length s
  arrays : ∀ a ∈ o.expertArrays, 0 < a.readable.value ∧ a.firstGroup + a.count ≤ l.groups.length

theorem checkStr_ok {pattern : String → Bool} {reason s : String}
    (h : checkStr v pattern reason i = .ok s) : pattern s = true := by
  unfold checkStr at h
  split at h
  · obtain ⟨hpat, h⟩ := then_ok h
    cases h
    exact hpat
  · cases h

theorem checkResource_ok {o : Opener} (h : checkResource x o v i = .ok o') :
    ∃ name names, ∃ gid : Nat, ∃ texts bound entries rep, ∃ offset : Nat,
      isName name = true ∧
      claim o.names name i = .ok names ∧
      (gid : Int) ≤ (o.layout.groups.length : Int) - 1 ∧
      x.representationAt (get v "repr") i = .ok rep ∧
      checkInt (get v "bytes") 1 maxInt "resource.bytes" i = .ok rep.bytes ∧
      checkInt (get v "readable_bytes") 1 maxInt "resource.readable_bytes" i = .ok rep.readable ∧
      ((v.find "access").isSome = true → x.rowGeometryOf rep = true) ∧
      (offset : Int) ≤ maxInt ∧
      o' = { o with
        names := names
        roles := bound
        entries := entries
        families := rep.family :: o.families
        resources := o.resources ++ [⟨name, texts, toU32 gid, bytesOf offset, bytesOf rep.bytes,
          bytesOf rep.readable, rep, (v.find "access").isSome⟩]
        spans := o.spans ++
          [⟨toU32 gid, offset, rep.bytes, rep.readable, name, containerViewOf rep⟩] } := by
  obtain ⟨_, -, h⟩ := bind_ok h
  obtain ⟨name, hname, h⟩ := bind_ok h
  obtain ⟨_, -, h⟩ := bind_ok h
  obtain ⟨names, hnames, h⟩ := bind_ok h
  obtain ⟨gid, hgid, h⟩ := bind_ok h
  obtain ⟨_, -, h⟩ := bind_ok h
  obtain ⟨_, -, h⟩ := bind_ok h
  obtain ⟨_, -, h⟩ := bind_ok h
  obtain ⟨_, -, h⟩ := bind_ok h
  obtain ⟨_, -, h⟩ := bind_ok h
  obtain ⟨texts, -, h⟩ := bind_ok h
  obtain ⟨_, -, h⟩ := bind_ok h
  obtain ⟨bound, -, h⟩ := bind_ok h
  obtain ⟨_, -, h⟩ := bind_ok h
  obtain ⟨rep, hrep, h⟩ := bind_ok h
  obtain ⟨bytes, hbytes, h⟩ := bind_ok h
  obtain ⟨_, hsame, h⟩ := bind_ok h
  obtain ⟨readable, hread, h⟩ := bind_ok h
  obtain ⟨_, hsame', h⟩ := bind_ok h
  obtain ⟨_, hrows, h⟩ := bind_ok h
  obtain ⟨offset, hoff, h⟩ := bind_ok h
  obtain rfl := require_ok hsame
  obtain rfl := require_ok hsame'
  exact ⟨name, names, gid, texts, bound, _, rep, offset, checkStr_ok hname, hnames,
    (checkInt_ok (by decide) hgid).2, hrep, hbytes, hread, require_ok hrows,
    (checkInt_ok (by decide) hoff).2, (Except.ok.inj h).symm⟩

theorem checkResource_keeps {l : Layout} {o : Opener}
    (h : checkResource x o v i = .ok o') (ho : Spanned l o ∧ o.expertArrays = []) :
    Spanned l o' ∧ o'.expertArrays = [] := by
  obtain ⟨ho, harr⟩ := ho
  obtain ⟨name, _, gid, texts, _, _, rep, offset, -, -, hgid, -, hbytes, hread, -, hoff, rfl⟩ :=
    checkResource_ok h
  have hbytes := (checkInt_ok (by decide) hbytes).2
  have hread := checkInt_ok (by decide) hread
  have hgroups := ho.groups
  rw [ho.layout] at hgid
  simp only [maxInt] at hbytes hread hoff
  simp only [maxEntries] at hgroups
  have hg : toU32 gid = gid := Nat.mod_eq_of_lt (by omega)
  refine ⟨⟨ho.layout, ho.groups, ?_, ?_, ?_⟩, harr⟩
  · have hspans := ho.spans
    simp only [readables, harr, flatMap_nil, append_nil, map_append] at hspans ⊢
    rw [hspans]
    have ho' := bytesOf_value (n := offset) (by omega)
    have hb := bytesOf_value (n := rep.bytes) (by omega)
    have hr := bytesOf_value (n := rep.readable) (by omega)
    simp only [map_cons, map_nil, Span.range, Resource.range, ho', hb, hr]
  · intro s hs
    rcases mem_append.mp hs with hs | hs
    · exact ho.ok s hs
    cases mem_singleton.mp hs
    refine ⟨?_, ?_, ?_, ?_, ?_⟩ <;> dsimp only
    · rw [hg]
      omega
    all_goals omega
  intro a ha
  rw [show o.expertArrays = [] from harr] at ha
  cases ha

theorem checkExpertArray_ok {m : Manifest} {o : Opener} (h : checkExpertArray x m o v i = .ok o') :
    ∃ name names layer, ∃ count first : Nat, ∃ rep, ∃ offset : Nat,
      isName name = true ∧
      claim o.names name i = .ok names ∧
      (first : Int) ≤ (o.layout.groups.length : Int) - count ∧
      x.representationAt (get v "repr") i = .ok rep ∧
      checkInt (get v "slice_bytes") 1 maxInt "expert_array.slice_bytes" i = .ok rep.bytes ∧
      checkInt (get v "readable_bytes") 1 maxInt "expert_array.readable_bytes" i =
        .ok rep.readable ∧
      (offset : Int) ≤ maxInt ∧
      o' = { o with
        names := names
        entries := o.entries + count
        families := .ggml :: o.families
        arraysByLayer := o.arraysByLayer ++ [(layer, first, count)]
        expertArrays := o.expertArrays ++ [⟨name, toU32 layer, toU32 count, toU32 first,
          bytesOf offset, bytesOf rep.bytes, bytesOf rep.readable, rep⟩]
        spans := o.spans ++ (List.range count).map
          (sliceSpan name first offset rep.bytes rep.readable (containerViewOf rep)) } := by
  obtain ⟨_, -, h⟩ := bind_ok h
  obtain ⟨name, hname, h⟩ := bind_ok h
  obtain ⟨_, -, h⟩ := bind_ok h
  obtain ⟨names, hnames, h⟩ := bind_ok h
  obtain ⟨layer, -, h⟩ := bind_ok h
  obtain ⟨count, -, h⟩ := bind_ok h
  obtain ⟨_, -, h⟩ := bind_ok h
  obtain ⟨_, -, h⟩ := bind_ok h
  obtain ⟨first, hfirst, h⟩ := bind_ok h
  obtain ⟨rep, hrep, h⟩ := bind_ok h
  obtain ⟨_, -, h⟩ := bind_ok h
  obtain ⟨slice, hslice, h⟩ := bind_ok h
  obtain ⟨_, hsame, h⟩ := bind_ok h
  obtain ⟨readable, hread, h⟩ := bind_ok h
  obtain ⟨_, hsame', h⟩ := bind_ok h
  obtain ⟨_, -, h⟩ := bind_ok h
  obtain ⟨offset, hoff, h⟩ := bind_ok h
  obtain rfl := require_ok hsame
  obtain rfl := require_ok hsame'
  exact ⟨name, names, layer, count, first, rep, offset, checkStr_ok hname, hnames,
    (checkInt_ok (by decide) hfirst).2, hrep, hslice, hread, (checkInt_ok (by decide) hoff).2,
    (Except.ok.inj h).symm⟩

theorem checkExpertArray_keeps {m : Manifest} {l : Layout} {o : Opener}
    (h : checkExpertArray x m o v i = .ok o') (ho : Spanned l o) : Spanned l o' := by
  obtain ⟨name, _, layer, count, first, rep, offset, -, -, hfirst, -, hslice, hread, hoff, rfl⟩ :=
    checkExpertArray_ok h
  have hslice := (checkInt_ok (by decide) hslice).2
  have hread := checkInt_ok (by decide) hread
  have hgroups := ho.groups
  rw [ho.layout] at hfirst
  simp only [maxInt] at hslice hread hoff
  simp only [maxEntries] at hgroups
  have hc : toU32 count = count := Nat.mod_eq_of_lt (by omega)
  have hf : toU32 first = first := Nat.mod_eq_of_lt (by omega)
  have hr := bytesOf_value (n := rep.readable) (by omega)
  refine ⟨ho.layout, ho.groups, ?_, ?_, ?_⟩
  · have ho' := bytesOf_value (n := offset) (by omega)
    have hb := bytesOf_value (n := rep.bytes) (by omega)
    have hnew : ((List.range count).map
        (sliceSpan name first offset rep.bytes rep.readable (containerViewOf rep))).map Span.range =
        (List.range (toU32 count)).map (ExpertArray.slice ⟨name, toU32 layer, toU32 count,
          toU32 first, bytesOf offset, bytesOf rep.bytes, bytesOf rep.readable, rep⟩) := by
      rw [hc, map_map]
      refine map_congr_left fun e he => ?_
      have hlt := mem_range.mp he
      have hge : toU32 (first + e) = first + e := Nat.mod_eq_of_lt (by omega)
      simp only [Function.comp, sliceSpan, Span.range, ExpertArray.slice, hf, ho', hb, hr, hge]
    rw [map_append, ho.spans, hnew]
    simp only [readables, flatMap_append, flatMap_cons, flatMap_nil, append_nil, append_assoc]
  · intro s hs
    rcases mem_append.mp hs with hs | hs
    · exact ho.ok s hs
    obtain ⟨e, he, rfl⟩ := mem_map.mp hs
    have hlt := mem_range.mp he
    have hge : toU32 (first + e) = first + e := Nat.mod_eq_of_lt (by omega)
    refine ⟨?_, ?_, ?_, ?_, ?_⟩
    · show toU32 (first + e) < _
      omega
    all_goals
      simp only [sliceSpan]
      omega
  intro a ha
  rcases mem_append.mp ha with ha | ha
  · exact ho.arrays a ha
  cases mem_singleton.mp ha
  refine ⟨by rw [hr]; omega, ?_⟩
  show toU32 first + toU32 count ≤ _
  omega

/-! ## The opened artifact -/

structure Sound (m : Manifest) (a : Opened) : Prop where
  /-- Every group is in a shard, and the groups of each shard tile its data section, in
  order. -/
  placed : ∀ g ∈ a.layout.groups, g.shard < a.layout.shards.length
  tiled : ∀ i s, a.layout.shards[i]? = some s →
    Tiled 0 (a.layout.groups.filter fun g => g.shard = i) s.dataBytes.value
  /-- Each shard's file is its header and its data section, of a size below 2^64. -/
  file : ∀ s ∈ a.layout.shards, ∃ f ∈ m.findFile s.path, f.role = .shard ∧
    f.bytes.value = s.dataOffset.value + s.dataBytes.value
  /-- Chunk numbers run from 0 to the group's end, and on from group to group. -/
  chunks : ∀ g ∈ a.layout.groups, ∀ k, k < g.chunks ↔ k * chunkBytes < g.stored.value
  numbered : ∃ total, Numbered 0 a.layout.groups total ∧ total ≤ maxIndexBytes
  /-- `ChunkRangeOf` succeeds for every key in range: aligned, inside the shard's file. -/
  chunk : ∀ key g, a.layout.groups[key.group]? = some g → key.chunk < g.chunks →
    ∃ s r, a.layout.shards[g.shard]? = some s ∧ chunkRangeOf a.layout key = .ok r ∧
      r.shard = g.shard ∧ r.fileOffset.value % fileAlignment = 0 ∧
      r.length.value % fileAlignment = 0 ∧ 0 < r.length.value ∧
      s.dataOffset.value ≤ r.fileOffset.value ∧
      r.fileOffset.value + r.length.value ≤ s.dataOffset.value + s.dataBytes.value
  chunksApart : ∀ key key' r r', chunkRangeOf a.layout key = .ok r →
    chunkRangeOf a.layout key' = .ok r' → key ≠ key' → r.shard = r'.shard →
    RangesApart r.fileOffset.value r.length.value r'.fileOffset.value r'.length.value
  chunksCover : ∀ i s p, a.layout.shards[i]? = some s → s.dataOffset.value ≤ p →
    p < s.dataOffset.value + s.dataBytes.value →
    ∃ key r, chunkRangeOf a.layout key = .ok r ∧ r.shard = i ∧
      r.fileOffset.value ≤ p ∧ p < r.fileOffset.value + r.length.value
  /-- Every readable range is aligned and inside its group's used bytes, and no sum of its
  offsets wraps. -/
  ranges : ∀ x ∈ readables a.resources a.expertArrays, ∃ g, a.layout.groups[x.group]? = some g ∧
    x.offset % memberAlignment = 0 ∧ x.offset + x.readable ≤ g.used.value ∧
    g.used.value ≤ g.stored.value ∧ g.offset.value + x.offset + x.bytes < 2 ^ 64
  rangesApart : (readables a.resources a.expertArrays).Pairwise Readable.Apart
  /-- A group's end in its file is below 2^64, header included. -/
  exact : ∀ g s, g ∈ a.layout.groups → a.layout.shards[g.shard]? = some s →
    s.dataOffset.value + g.offset.value + g.stored.value < 2 ^ 64
  /-- The placements succeed, and are the ranges above. -/
  resource : ∀ i r, a.resources[i]? = some r → ∃ p, a.resourcePlacement i = .ok p ∧
    p.group = r.group ∧ p.offset = r.offset ∧ p.bytes = r.bytes ∧ p.readable = r.readable
  slice : ∀ i arr e, a.expertArrays[i]? = some arr → e < arr.count →
    ∃ p, a.slicePlacement i e = .ok p ∧ p.group = arr.firstGroup + e ∧
      p.offset = arr.groupOffset ∧ p.bytes = arr.sliceBytes ∧ p.readable = arr.readable

/-- What holds of the bare layout, and each resource and then each array keeps, holds of the
    whole index. -/
theorem checkIndex_entries {m : Manifest} {o : Opener} (h : checkIndex x m d.root = .ok o) :
    ∃ o1 o2 o3 spans, checkShardList m d.root .empty = .ok o1 ∧ checkGroups d.root o1 = .ok o2 ∧
      checkChunkHashes d.root o2 = .ok o3 ∧ o3.layout.groups.length ≤ maxEntries ∧
      o.spans = spans.insertionSort Span.le ∧ placeGroups 0 o.layout.groups o.spans = .ok () ∧
      ∀ P Q : Opener → Prop, (∀ n, P { o3 with entries := n }) →
        (∀ o v i o', checkResource x o v i = .ok o' → P o → P o') → (∀ o, P o → Q o) →
        (∀ o v i o', checkExpertArray x m o v i = .ok o' → Q o → Q o') →
        Q { o with spans := spans } := by
  obtain ⟨_, -, h⟩ := bind_ok h
  obtain ⟨o1, hshards, h⟩ := bind_ok h
  obtain ⟨o2, hgroups, h⟩ := bind_ok h
  obtain ⟨o3, hhas, h⟩ := bind_ok h
  obtain ⟨o4, hres, h⟩ := bind_ok h
  obtain ⟨o5, harr, h⟩ := bind_ok h
  obtain ⟨_, -, h⟩ := bind_ok h
  obtain ⟨o6, hplac, h⟩ := bind_ok h
  obtain ⟨_, -, h⟩ := bind_ok h
  cases h
  obtain ⟨_, hplace, hp⟩ := bind_ok hplac
  cases hp
  obtain ⟨_, -, hr⟩ := bind_ok hres
  obtain ⟨_, -, hr⟩ := bind_ok hr
  obtain ⟨_, hcap, hr⟩ := bind_ok hr
  obtain ⟨_, hwalk, hr⟩ := bind_ok hr
  obtain ⟨_, -, hr⟩ := bind_ok hr
  cases hr
  obtain ⟨_, hwalk', ha⟩ := bind_ok harr
  obtain ⟨_, -, ha⟩ := bind_ok ha
  cases ha
  refine ⟨o1, o2, o3, o5.spans, hshards, hgroups, hhas,
    Nat.not_lt.mp (not_or.mp (require_ok hcap)).1, rfl, hplace, ?_⟩
  intro P Q hstart hresource hswitch harray
  exact walk_keeps harray hwalk' (hswitch _ (walk_keeps hresource hwalk (hstart _)))

theorem checkIndex_ok {m : Manifest} {o : Opener} (h : checkIndex x m d.root = .ok o) :
    ∃ l spans, Laid m l ∧ Spanned l { o with spans := spans } ∧
      placeGroups 0 l.groups (spans.insertionSort Span.le) = .ok () := by
  obtain ⟨o1, o2, o3, spans, hshards, hgroups, hhas, hcap, hsorted, hplace, hkeeps⟩ :=
    checkIndex_entries h
  obtain ⟨shards, rfl, hlen, hok⟩ := checkShardList_ok hshards
  obtain ⟨groups, total, seen, rfl, hgrouped⟩ := checkGroups_ok hlen hok hgroups
  obtain ⟨l, rfl, hlaid⟩ := checkChunkHashes_ok hok hgrouped hhas
  have hspan := hkeeps (fun o => Spanned l o ∧ o.expertArrays = []) (Spanned l)
    (fun _ => ⟨⟨rfl, hcap, rfl, nofun, nofun⟩, rfl⟩) (fun _ _ _ _ h ho => checkResource_keeps h ho)
    (fun _ ho => ho.1) (fun _ _ _ _ h ho => checkExpertArray_keeps h ho)
  rw [hsorted, show o.layout = l from hspan.layout] at hplace
  exact ⟨l, _, hlaid, hspan, hplace⟩

section Opened

variable {m : Manifest} {l : Layout} {o : Opener}

theorem Spanned.placed (h : Spanned l o)
    (hp : placeGroups 0 l.groups (o.spans.insertionSort Span.le) = .ok ()) :
    (∀ s ∈ o.spans, Placed l.groups s.group s) ∧
      (readables o.resources o.expertArrays).Pairwise Readable.Apart := by
  have hperm := perm_insertionSort Span.le o.spans
  have hwalk := placeGroups_ok (n := l.groups.length)
    (fun s hs => h.ok s (hperm.mem_iff.mp hs))
    (fun s hs => ⟨Nat.zero_le _, by
      have hlt := (h.ok s (hperm.mem_iff.mp hs)).group
      omega⟩)
    ((pairwise_insertionSort Span.le o.spans).imp Span.le_group) hp
  refine ⟨fun s hs => hwalk.1 s (hperm.mem_iff.mpr hs), ?_⟩
  rw [← h.spans, pairwise_map]
  refine (hperm.pairwise_iff fun hab => Readable.Apart.symm hab).mp (hwalk.2.imp ?_)
  exact fun hab hgroup => .inl (hab hgroup)

theorem Spanned.span (h : Spanned l o) {x : Readable}
    (hx : x ∈ readables o.resources o.expertArrays) : ∃ s ∈ o.spans, s.range = x :=
  mem_map.mp (h.spans ▸ hx)

end Opened

theorem slice_mem {resources : List Resource} {arrays : List ExpertArray} {arr : ExpertArray}
    {e : Nat} (ha : arr ∈ arrays) (he : e < arr.count) : arr.slice e ∈ readables resources arrays :=
  mem_append_right _ (mem_flatMap.mpr ⟨arr, ha, mem_map_of_mem (mem_range.mpr he)⟩)

theorem Sound.opened {m : Manifest} {a : Opened} (h : openIndex x m d = .ok a) : Sound m a := by
  obtain ⟨o, hindex, h⟩ := bind_ok h
  obtain ⟨_, -, h⟩ := bind_ok h
  cases h
  obtain ⟨l, spans, hlaid, hspan, hplace⟩ := checkIndex_ok hindex
  obtain ⟨hplaced, hapart⟩ := hspan.placed hplace
  have hlayout : o.layout = l := hspan.layout
  -- every range kept: its group, and its place there
  have hran : ∀ y ∈ readables o.resources o.expertArrays, ∃ g, l.groups[y.group]? = some g ∧
      y.offset % memberAlignment = 0 ∧ y.offset + y.readable ≤ g.used.value ∧
      0 < y.readable ∧ y.bytes < 2 ^ 63 := by
    intro y hy
    obtain ⟨s, hs, rfl⟩ := hspan.span hy
    obtain ⟨g, hg, hali, hin⟩ := hplaced s hs
    have hok := hspan.ok s hs
    exact ⟨g, hg, hali, hin, hok.readable, hok.bytes⟩
  -- so the closure of a range that is not empty exists
  have hclos : ∀ group offset readable, ∀ y ∈ readables o.resources o.expertArrays,
      y.group = group → y.offset = Bytes.value offset → y.readable = Bytes.value readable →
      ∃ c, closureOf l group offset readable = .ok c := by
    intro group offset readable y hy hgroup hoff hread
    obtain ⟨g, hg, -, hin, hpos, -⟩ := hran y hy
    have hok := hlaid.groups g (mem_of_getElem? hg)
    have hfits := hok.fits
    rw [hgroup] at hg
    exact ⟨_, closureOf_ok hg (by omega) (by omega)⟩
  subst hlayout
  refine ⟨fun g hg => (hlaid.groups g hg).shard, hlaid.tiled,
    fun s hs => (hlaid.shards s hs).listed, ?_, hlaid.numbered,
    fun key g hg hc => hlaid.chunk_inside hg hc,
    fun key key' r r' hr hr' hne hs => hlaid.chunks_apart hr hr' hne hs,
    fun i s p hs hlo hhi => hlaid.chunks_cover hs hlo hhi, ?_, hapart, ?_, ?_, ?_⟩
  · intro g hg k
    rw [hlaid.chunks g hg]
    exact lt_chunksOf
  · intro y hy
    obtain ⟨g, hg, hali, hin, -, hbytes⟩ := hran y hy
    obtain ⟨s, -, hshard, hok, -, hend⟩ := hlaid.group hg
    have hfits := hok.fits
    have hsb := hshard.bytes
    exact ⟨g, hg, hali, hin, hfits, by omega⟩
  · intro g s hg hs
    obtain ⟨gid, hgid⟩ := getElem?_of_mem hg
    obtain ⟨s', hs', hshard, -, -, hend⟩ := hlaid.group hgid
    cases hs.symm.trans hs'
    have hso := hshard.offset
    have hsb := hshard.bytes
    omega
  · intro i r hr
    obtain ⟨c, hc⟩ := hclos r.group r.offset r.readable r.range
      (mem_append_left _ (mem_map_of_mem (mem_of_getElem? hr))) rfl rfl rfl
    refine ⟨⟨r.group, r.offset, r.bytes, r.readable, c⟩, ?_, rfl, rfl, rfl, rfl⟩
    unfold Opened.resourcePlacement
    rw [hr]
    dsimp only
    rw [hc]
    rfl
  intro i arr e harr he
  have hmem := mem_of_getElem? harr
  have hcount := (hspan.arrays arr hmem).2
  have hcap := hspan.groups
  simp only [maxEntries] at hcap
  have hgroup : toU32 (arr.firstGroup + e) = arr.firstGroup + e := Nat.mod_eq_of_lt (by omega)
  obtain ⟨c, hc⟩ := hclos (arr.firstGroup + e) arr.groupOffset arr.readable (arr.slice e)
    (slice_mem hmem he) rfl rfl rfl
  refine ⟨⟨arr.firstGroup + e, arr.groupOffset, arr.sliceBytes, arr.readable, c⟩, ?_, rfl, rfl,
    rfl, rfl⟩
  unfold Opened.slicePlacement
  rw [harr]
  dsimp only
  rw [if_neg (Nat.not_le.mpr he), hgroup, hc]
  rfl

/-- **An opened artifact's geometry is sound**: whatever the document, an index that `Open`
accepts has tiled shards, chunks that are disjoint and cover them, and readable ranges that
are aligned, inside their groups and disjoint. -/
theorem openIndex_sound (x : Rest) (m : Manifest) (d : Document) (a : Opened)
    (h : openIndex x m d = .ok a) : Sound m a :=
  Sound.opened h

/-! ## An index that is accepted

One shard of two groups: a layer with two tensors, and the one expert's, of three chunks. -/

def sampleHash : Value := .string "0123456789abcdef0123456789abcdef0123456789abcdef0123456789abcdef"

/-- `ParseGgml` at the two types of the sample: blocks of one element of 4 bytes, and blocks of
32 elements of 34 bytes, whose rows are read up to a multiple of 512 elements. -/
def sampleParse (v : Value) : Except Error Representation :=
  match (get v "type").string?, (get v "ne").items.mapM Value.integer? with
  | some "F32", some ne =>
    let bytes := 4 * (ne.map Int.toNat).prod
    .ok { family := .ggml, type := "F32", dims := ne.map Int.toNat, bytes, readable := bytes }
  | some "Q8_0", some (row :: ne) =>
    let bytes := row.toNat / 32 * 34 * (ne.map Int.toNat).prod
    let padding := if row.toNat % 512 = 0 then 0 else (512 - row.toNat % 512) / 32 * 34
    .ok {
      family := .ggml
      type := "Q8_0"
      dims := (row :: ne).map Int.toNat
      bytes
      readable := bytes + padding }
  | _, _ => .error ⟨.repr, "unknown ggml type", noItem⟩

def sampleRest : Rest :=
  ⟨sampleParse, fun _ => true, fun _ => .ok (), fun _ => .ok (), fun _ => .ok ()⟩

def sampleGroup (kind : String) (layer expert : Value) (offset stored used first : Int) : Value :=
  .object [("kind", .string kind), ("layer", layer), ("expert", expert), ("shard", .integer 0),
    ("offset", .integer offset), ("stored_bytes", .integer stored), ("used_bytes", .integer used),
    ("first_chunk", .integer first)]

def sampleRepr (type : String) (ne : List Value) : Value :=
  .object [("family", .string "ggml"), ("type", .string type), ("ne", .array ne)]

def sampleResource (name : String) (offset elements : Int) : Value :=
  .object [("name", .string name), ("group", .integer 0), ("offset", .integer offset),
    ("bytes", .integer (4 * elements)), ("readable_bytes", .integer (4 * elements)),
    ("roles", .array [.string name]), ("repr", sampleRepr "F32" [.integer elements])]

def sampleIndex : Value :=
  .object [("format", .string "jitllm-index"), ("format_version", .integer 0),
    ("file_alignment", .integer 4096), ("chunk_bytes", .integer 2097152),
    ("member_alignment", .integer 256),
    ("shards", .array [.object [("path", .string "data/00000.safetensors"),
      ("data_offset", .integer 4096), ("data_bytes", .integer 4202496),
      ("header_sha256", sampleHash)]]),
    ("groups", .array [sampleGroup "layer" (.integer 0) .null 0 4096 992 0,
      sampleGroup "expert" (.integer 0) (.integer 0) 4096 4198400 4194784 1]),
    ("resources", .array [sampleResource "norm" 0 128, sampleResource "bias" 512 120]),
    ("expert_arrays", .array [.object [("name", .string "up"), ("layer", .integer 0),
      ("count", .integer 1), ("first_group", .integer 1), ("group_offset", .integer 0),
      ("slice_bytes", .integer 4194274), ("readable_bytes", .integer 4194784),
      ("repr", sampleRepr "Q8_0" [.integer 32, .integer 123361])]]),
    ("chunk_sha256", .array [sampleHash, sampleHash, sampleHash, sampleHash])]

def sampleManifest : Manifest :=
  ⟨[⟨"data/00000.safetensors", .shard, bytesOf 4206592⟩], 1⟩

theorem Value.members_fit {index : Value} (hall : ∀ p ∈ index.members, p.2.size ≤ 4)
    (key : String) (v : Value) (h : index.find key = some v) : v.size ≤ maxIndexBytes := by
  obtain ⟨p, hp, rfl⟩ := Option.map_eq_some_iff.mp h
  exact Nat.le_trans (hall p (mem_of_find?_eq_some hp)) (by decide)

def sampleDocument : Document := ⟨sampleIndex, Value.members_fit (by decide +kernel)⟩

def sampleCounts : Except Error (List Nat × Nat) := do
  let a ← openIndex sampleRest sampleManifest sampleDocument
  .ok (a.layout.groups.map Group.chunks, (readables a.resources a.expertArrays).length)

/-- The sample is accepted, with its four chunks and three readable ranges. -/
theorem openIndex_sound_sample : ∃ a, openIndex sampleRest sampleManifest sampleDocument = .ok a ∧
      a.layout.groups.map Group.chunks = [1, 3] ∧
      (readables a.resources a.expertArrays).length = 3 ∧ Sound sampleManifest a := by
  have hcounts : sampleCounts.toOption = some ([1, 3], 3) := by decide +kernel
  obtain ⟨a, h, hcounts⟩ := bind_ok (ok_of_toOption hcounts)
  obtain ⟨hchunks, hreadables⟩ := Prod.mk.inj (Except.ok.inj hcounts)
  exact ⟨a, h, hchunks, hreadables, openIndex_sound _ _ _ a h⟩

end JitLlm.Artifact
