import JitLlm.Artifact.Open

/-!
# What an opened artifact's geometry is

The readers of an opened artifact index by its groups, chunks and placements and never check
them again. `Sound` is what they rely on; `openIndex_sound` is that every index the opener
accepts has it.

The groups' half is an invariant of the loop over the groups (`Walked`): each shard's cursor
is where the tiling of its groups so far ends, or saturated, and a saturated cursor equals no
offset and no data section. The placements' half is the sorted spans read group by group:
the walk consumes all of them, because they are sorted and every span names a group.
-/

namespace JitLlm.Artifact

open Base Lib List

/-! ## Tilings -/

/-- The groups' stored ranges, in order, are exactly `[lo, hi)`. -/
def Tiled : Nat → List Group → Nat → Prop
  | lo, [], hi => lo = hi
  | lo, g :: gs, hi => g.offset.value = lo ∧ Tiled (lo + g.stored.value) gs hi

/-- The groups' chunks are numbered in order from `n`, up to `total`. -/
def Numbered : Nat → List Group → Nat → Prop
  | n, [], total => n = total
  | n, g :: gs, total => g.firstChunk = n ∧ Numbered (n + chunksOf g.stored.value) gs total

theorem Tiled.snoc : ∀ {gs : List Group} {lo hi : Nat} {g : Group}, Tiled lo gs hi →
    g.offset.value = hi → Tiled lo (gs ++ [g]) (hi + g.stored.value)
  | [], _, _, _, h, hg => ⟨hg.trans h.symm, by rw [h]; rfl⟩
  | _ :: _, _, _, _, h, hg => ⟨h.1, h.2.snoc hg⟩

theorem Numbered.snoc : ∀ {gs : List Group} {n total : Nat} {g : Group}, Numbered n gs total →
    g.firstChunk = total → Numbered n (gs ++ [g]) (total + chunksOf g.stored.value)
  | [], _, _, _, h, hg => ⟨hg.trans h.symm, by rw [h]; rfl⟩
  | _ :: _, _, _, _, h, hg => ⟨h.1, h.2.snoc hg⟩

theorem Tiled.le : ∀ {gs : List Group} {lo hi : Nat}, Tiled lo gs hi → lo ≤ hi
  | [], _, _, h => Nat.le_of_eq h
  | g :: _, lo, _, h => Nat.le_trans (Nat.le_add_right lo g.stored.value) h.2.le

theorem Tiled.inside : ∀ {gs : List Group} {lo hi : Nat}, Tiled lo gs hi → ∀ g ∈ gs,
    lo ≤ g.offset.value ∧ g.offset.value + g.stored.value ≤ hi
  | [], _, _, _ => nofun
  | g :: gs, lo, hi, h => by
    intro g' hg'
    have hrest := h.2.le
    rcases mem_cons.mp hg' with rfl | hg'
    · have hoff := h.1
      omega
    have ih := h.2.inside g' hg'
    omega

theorem Tiled.apart : ∀ {gs : List Group} {lo hi : Nat}, Tiled lo gs hi →
    gs.Pairwise fun a b => a.offset.value + a.stored.value ≤ b.offset.value
  | [], _, _, _ => List.Pairwise.nil
  | g :: gs, lo, hi, h => by
    refine pairwise_cons.mpr ⟨fun g' hg' => ?_, h.2.apart⟩
    have hin := (h.2.inside g' hg').1
    rw [h.1]
    exact hin

theorem Tiled.covered : ∀ {gs : List Group} {lo hi p : Nat}, Tiled lo gs hi → lo ≤ p → p < hi →
    ∃ g ∈ gs, g.offset.value ≤ p ∧ p < g.offset.value + g.stored.value
  | [], _, _, _, h, hlo, hhi => absurd (Nat.lt_of_lt_of_le hhi (h ▸ hlo)) (Nat.lt_irrefl _)
  | g :: gs, lo, hi, p, h, hlo, hhi => by
    have hoff := h.1
    by_cases hp : p < lo + g.stored.value
    · exact ⟨g, mem_cons_self, by omega, by omega⟩
    obtain ⟨g', hg', hin⟩ := h.2.covered (Nat.not_lt.mp hp) hhi
    exact ⟨g', mem_cons_of_mem _ hg', hin⟩

theorem Tiled.aligned : ∀ {gs : List Group} {lo hi : Nat}, Tiled lo gs hi →
    lo % fileAlignment = 0 → (∀ g ∈ gs, g.stored.value % fileAlignment = 0) →
    ∀ g ∈ gs, g.offset.value % fileAlignment = 0
  | [], _, _, _, _, _ => nofun
  | g :: gs, lo, hi, h, hlo, hall => by
    intro g' hg'
    rcases mem_cons.mp hg' with rfl | hg'
    · rw [h.1]
      exact hlo
    refine h.2.aligned ?_ (fun g hg => hall g (mem_cons_of_mem _ hg)) g' hg'
    have hg := hall g mem_cons_self
    rw [Nat.add_mod, hlo, hg]
    rfl

theorem tiled_counted : ∀ {gs : List Group} {lo hi : Nat},
    Tiled lo (gs.map Group.counted) hi ↔ Tiled lo gs hi
  | [], _, _ => Iff.rfl
  | _ :: _, _, _ => and_congr Iff.rfl tiled_counted

theorem numbered_counted : ∀ {gs : List Group} {n total : Nat},
    Numbered n (gs.map Group.counted) total ↔ Numbered n gs total
  | [], _, _ => Iff.rfl
  | _ :: _, _, _ => and_congr Iff.rfl numbered_counted

/-! ## Rounding -/

theorem alignUp_eq {n : Nat} (h : n < 2 ^ 63) :
    alignUp n fileAlignment = (n + 4095) / 4096 * 4096 := by
  have hpad : satAdd n (fileAlignment - 1) = n + 4095 := by
    rw [satAdd_eq]
    simp only [fileAlignment, uint64Max]
    omega
  unfold alignUp
  simp only [hpad]
  rw [if_neg (by simp only [uint64Max]; omega)]
  rfl

theorem lt_chunksOf {stored k : Nat} : k < chunksOf stored ↔ k * chunkBytes < stored := by
  have hpos : 0 < chunkBytes := by rw [chunkBytes_eq]; decide
  have hdiv := Nat.div_add_mod stored chunkBytes
  have hmod := Nat.mod_lt stored hpos
  unfold chunksOf
  constructor
  · intro h
    by_cases hz : stored % chunkBytes = 0
    · rw [if_neg (by simpa using hz), Nat.add_zero] at h
      have hmul := Nat.mul_le_mul_right chunkBytes (Nat.succ_le_of_lt h)
      rw [Nat.succ_mul, Nat.mul_comm (stored / chunkBytes)] at hmul
      omega
    rw [if_pos hz] at h
    have hmul := Nat.mul_le_mul_right chunkBytes (Nat.le_of_lt_succ h)
    rw [Nat.mul_comm (stored / chunkBytes)] at hmul
    omega
  intro h
  by_contra hk
  have hge : stored / chunkBytes ≤ k := by
    split at hk <;> omega
  have hmul := Nat.mul_le_mul_right chunkBytes hge
  rw [Nat.mul_comm (stored / chunkBytes)] at hmul
  by_cases hz : stored % chunkBytes = 0
  · omega
  rw [if_pos hz] at hk
  have hmul' := Nat.mul_le_mul_right chunkBytes (Nat.not_lt.mp hk)
  rw [Nat.succ_mul, Nat.mul_comm (stored / chunkBytes)] at hmul'
  omega

/-! ## The shards -/

/-- A shard as the list's check leaves it, listed in the manifest at its own size. -/
structure ShardOk (m : Manifest) (s : Shard) : Prop where
  offset : s.dataOffset.value < 2 ^ 63
  bytes : s.dataBytes.value < 2 ^ 63
  alignedOffset : s.dataOffset.value % fileAlignment = 0
  listed : ∃ f ∈ m.findFile s.path, f.role = .shard ∧
    f.bytes.value = s.dataOffset.value + s.dataBytes.value

variable {out out' : List Shard} {v : Value} {o o' : Opener} {w w' : GroupWalk}

variable {m : Manifest}

theorem checkShard_keeps {i : Nat}
    (h : checkShard m out v i = .ok out') (hout : ∀ s ∈ out, ShardOk m s) :
    ∀ s ∈ out', ShardOk m s := by
  unfold checkShard at h
  obtain ⟨_, -, h⟩ := bind_ok h
  obtain ⟨path, -, h⟩ := bind_ok h
  obtain ⟨_, -, h⟩ := bind_ok h
  obtain ⟨offset, hoff, h⟩ := bind_ok h
  obtain ⟨_, hali, h⟩ := bind_ok h
  obtain ⟨bytes, hbytes, h⟩ := bind_ok h
  obtain ⟨_, -, h⟩ := bind_ok h
  obtain ⟨_, -, h⟩ := bind_ok h
  obtain ⟨_, hlis, h⟩ := bind_ok h
  cases h
  have hoff := (checkInt_ok (by decide) hoff).2
  have hbytes := (checkInt_ok (by decide) hbytes).2
  have hali := require_ok hali
  obtain ⟨f, hf, hrole, hsize⟩ := require_ok hlis
  simp only [maxInt] at hoff hbytes
  rw [Nat.mod_eq_of_lt (by omega)] at hsize
  intro s hs
  rcases mem_append.mp hs with hs | hs
  · exact hout s hs
  cases mem_singleton.mp hs
  have ho := bytesOf_value (n := offset) (by omega)
  have hb := bytesOf_value (n := bytes) (by omega)
  exact ⟨by rw [ho]; omega, by rw [hb]; omega, by rw [ho]; exact hali,
    f, hf, hrole, by rw [ho, hb]; exact hsize⟩

theorem checkShard_length {i : Nat}
    (h : checkShard m out v i = .ok out') : out'.length = out.length + 1 := by
  unfold checkShard at h
  obtain ⟨_, -, h⟩ := bind_ok h
  obtain ⟨_, -, h⟩ := bind_ok h
  obtain ⟨_, -, h⟩ := bind_ok h
  obtain ⟨_, -, h⟩ := bind_ok h
  obtain ⟨_, -, h⟩ := bind_ok h
  obtain ⟨_, -, h⟩ := bind_ok h
  obtain ⟨_, -, h⟩ := bind_ok h
  obtain ⟨_, -, h⟩ := bind_ok h
  obtain ⟨_, -, h⟩ := bind_ok h
  cases h
  exact length_append

theorem Document.items_le (d : Document) (key : String) :
    (get d.root key).items.length ≤ maxIndexBytes := by
  refine Nat.le_trans (Value.items_length_le _) ?_
  unfold get
  cases h : d.root.find key with
  | none => exact Nat.zero_le _
  | some v => exact d.fits key v h

theorem checkShardList_ok {d : Document} (h : checkShardList m d.root o = .ok o') :
    ∃ shards, o' = { o with layout := { o.layout with shards := shards } } ∧
      shards.length ≤ maxIndexBytes ∧ ∀ s ∈ shards, ShardOk m s := by
  unfold checkShardList at h
  obtain ⟨_, -, h⟩ := bind_ok h
  obtain ⟨out, hwalk, h⟩ := bind_ok h
  obtain ⟨_, -, h⟩ := bind_ok h
  cases h
  refine ⟨out, rfl, ?_, walk_keeps (P := fun out => ∀ s ∈ out, ShardOk m s)
    (fun _ _ _ _ h hs => checkShard_keeps h hs) hwalk nofun⟩
  have hlen := walk_length (fun _ _ _ _ h => checkShard_length h) hwalk
  rw [length_nil, Nat.zero_add] at hlen
  rw [hlen]
  exact d.items_le "shards"

/-! ## The groups -/

/-- A group as its check leaves it, among `n` shards. -/
structure GroupOk (n : Nat) (g : Group) : Prop where
  shard : g.shard < n
  used : 0 < g.used.value
  fits : g.used.value ≤ g.stored.value
  aligned : g.stored.value % fileAlignment = 0
  bound : g.stored.value < 2 ^ 63

/-- The loop's state: each cursor where its shard's groups end, or saturated; the next chunk
likewise. -/
structure Walked (n : Nat) (w : GroupWalk) : Prop where
  cursors : w.cursor.length = n
  tiled : ∀ i < n, ∃ c, Tiled 0 (w.groups.filter fun g => g.shard = i) c ∧
    w.cursor.getD i 0 = min c uint64Max
  numbered : ∃ c, Numbered 0 w.groups c ∧ w.nextChunk = min c uint64Max
  groups : ∀ g ∈ w.groups, GroupOk n g

theorem Walked.start (shards : List Shard) : Walked shards.length (GroupWalk.start shards) where
  cursors := length_replicate
  tiled := by
    intro i hi
    refine ⟨0, rfl, ?_⟩
    show (List.replicate shards.length 0).getD i 0 = min 0 uint64Max
    rw [getD_eq_getElem?_getD, getElem?_replicate_of_lt hi]
    rfl
  numbered := ⟨0, rfl, rfl⟩
  groups := nofun

theorem checkGroup_ok {shards : List Shard} {gid : Nat} (h : checkGroup shards w v gid = .ok w') :
    ∃ g shard stored, w'.groups = w.groups ++ [g] ∧ shard < shards.length ∧ g.shard = toU32 shard ∧
      g.offset.value = w.cursor.getD shard 0 ∧ w.cursor.getD shard 0 < 2 ^ 63 ∧
      g.stored.value = stored ∧ stored < 2 ^ 63 ∧ 0 < g.used.value ∧ g.used.value ≤ stored ∧
      stored % fileAlignment = 0 ∧ g.firstChunk = w.nextChunk ∧ w.nextChunk < 2 ^ 63 ∧
      w'.cursor = w.cursor.set shard (satAdd (w.cursor.getD shard 0) stored) ∧
      w'.nextChunk = satAdd w.nextChunk (chunksOf stored) := by
  unfold checkGroup at h
  obtain ⟨_, -, h⟩ := bind_ok h
  obtain ⟨kind, -, h⟩ := bind_ok h
  obtain ⟨layer, -, h⟩ := bind_ok h
  obtain ⟨expert, -, h⟩ := bind_ok h
  obtain ⟨seen, -, h⟩ := bind_ok h
  obtain ⟨shard, hshard, h⟩ := bind_ok h
  obtain ⟨_, -, h⟩ := bind_ok h
  obtain ⟨stored, hstored, h⟩ := bind_ok h
  obtain ⟨used, hused, h⟩ := bind_ok h
  obtain ⟨offset, hoff, h⟩ := bind_ok h
  obtain ⟨_, hplace, h⟩ := bind_ok h
  obtain ⟨first, hfirst, h⟩ := bind_ok h
  obtain ⟨_, hnext, h⟩ := bind_ok h
  cases h
  have hshard := checkInt_ok (by decide) hshard
  have hstored := (checkInt_ok (by decide) hstored).2
  have hused := checkInt_ok (by decide) hused
  have hoff := (checkInt_ok (by decide) hoff).2
  have hfirst := (checkInt_ok (by decide) hfirst).2
  obtain ⟨hcur, hround⟩ := require_ok hplace
  have hnext := require_ok hnext
  simp only [maxInt] at hstored hused hoff hfirst
  rw [alignUp_eq (by omega)] at hround
  have hu := bytesOf_value (n := used) (by omega)
  have hs := bytesOf_value (n := stored) (by omega)
  have ho := bytesOf_value (n := offset) (by omega)
  refine ⟨_, shard, stored, rfl, by omega, rfl, ho.trans hcur, by omega, hs, by omega,
    by rw [hu]; omega, by rw [hu]; omega, ?_, hnext, by omega, rfl, rfl⟩
  rw [hround]
  exact Nat.mul_mod_left _ _

theorem checkGroup_keeps {shards : List Shard} (hn : shards.length ≤ maxIndexBytes)
    {gid : Nat} (h : checkGroup shards w v gid = .ok w')
    (hw : Walked shards.length w) : Walked shards.length w' := by
  obtain ⟨g, shard, stored, hgroups, hshard, hgshard, hoff, hlt, hst, hbound, hused, hfits,
    hali, hfirst, hnlt, hcur, hnext⟩ := checkGroup_ok h
  simp only [maxIndexBytes] at hn
  have hgs : g.shard = shard := by
    rw [hgshard]
    exact Nat.mod_eq_of_lt (by omega)
  refine ⟨?_, ?_, ?_, ?_⟩
  · rw [hcur, length_set]
    exact hw.cursors
  · intro i hi
    obtain ⟨c, htiled, hc⟩ := hw.tiled i hi
    rw [hgroups, filter_append, hcur, getD_eq_getElem?_getD, getElem?_set]
    by_cases his : shard = i
    · -- its shard: the cursor was not saturated, so it is where the tiling ended
      subst his
      have hmax : c = w.cursor.getD shard 0 := by
        simp only [uint64Max] at hc
        omega
      rw [if_pos rfl, if_pos (hw.cursors ▸ hi), Option.getD_some, satAdd_eq,
        filter_singleton, hgs, decide_eq_true rfl, cond_true]
      refine ⟨c + g.stored.value, htiled.snoc (hoff.trans hmax.symm), ?_⟩
      rw [hmax, hst]
    rw [if_neg his, filter_singleton, hgs, decide_eq_false his, cond_false, append_nil]
    rw [getD_eq_getElem?_getD] at hc
    exact ⟨c, htiled, hc⟩
  · obtain ⟨c, hnum, hc⟩ := hw.numbered
    have hmax : c = w.nextChunk := by
      simp only [uint64Max] at hc
      omega
    rw [hgroups, hnext, satAdd_eq]
    refine ⟨c + chunksOf g.stored.value, hnum.snoc (hfirst.trans hmax.symm), ?_⟩
    rw [hmax, hst]
  intro g' hg'
  rw [hgroups] at hg'
  rcases mem_append.mp hg' with hg' | hg'
  · exact hw.groups g' hg'
  cases mem_singleton.mp hg'
  exact ⟨hgs ▸ hshard, hused, hst ▸ hfits, hst ▸ hali, hst ▸ hbound⟩

theorem checkTiled_ok : ∀ {shards : List Shard} {cursor : List Nat} {i : Nat} {u : Unit},
    checkTiled cursor i shards = .ok u → ∀ k s, shards[k]? = some s →
      cursor.getD (i + k) 0 = s.dataBytes.value
  | [], _, _, _, _ => nofun
  | s :: rest, cursor, i, u, h => by
    obtain ⟨_, hs, h⟩ := bind_ok h
    intro k s' hk
    cases k with
    | zero =>
      cases hk
      exact require_ok hs
    | succ k =>
      have ih := checkTiled_ok h k s' hk
      rwa [Nat.add_right_comm] at ih

/-- The groups of an accepted index: every shard tiled to its end, the chunks numbered, and
every group well formed. -/
structure Grouped (shards : List Shard) (groups : List Group) (total : Nat) : Prop where
  tiled : ∀ i s, shards[i]? = some s →
    Tiled 0 (groups.filter fun g => g.shard = i) s.dataBytes.value
  numbered : ∃ c, Numbered 0 groups c ∧ total = min c uint64Max
  groups : ∀ g ∈ groups, GroupOk shards.length g

theorem checkGroups_ok {index : Value} (hn : o.layout.shards.length ≤ maxIndexBytes)
    (hs : ∀ s ∈ o.layout.shards, ShardOk m s) (h : checkGroups index o = .ok o') :
    ∃ groups total seen, o' = { o with
        layout := { o.layout with groups := groups }, totalChunks := total, expertSeen := seen } ∧
      Grouped o.layout.shards groups total := by
  unfold checkGroups at h
  obtain ⟨_, -, h⟩ := bind_ok h
  obtain ⟨w, hwalk, h⟩ := bind_ok h
  obtain ⟨_, htiled, h⟩ := bind_ok h
  cases h
  have hw := walk_keeps (P := Walked o.layout.shards.length)
    (fun _ _ _ _ h hw => checkGroup_keeps hn h hw) hwalk (Walked.start _)
  refine ⟨w.groups, w.nextChunk, w.expertSeen, rfl, ?_, hw.numbered, hw.groups⟩
  intro i s hi
  have hlt := (List.getElem?_eq_some_iff.mp hi).1
  obtain ⟨c, hc, hcur⟩ := hw.tiled i hlt
  have hend := checkTiled_ok htiled i s hi
  rw [Nat.zero_add] at hend
  have hbytes := (hs s (mem_of_getElem? hi)).bytes
  have hceq : c = s.dataBytes.value := by
    simp only [uint64Max] at hcur
    omega
  exact hceq ▸ hc

/-! ## The chunks -/

theorem Numbered.chunks_le : ∀ {gs : List Group} {n total : Nat}, Numbered n gs total → ∀ g ∈ gs,
    n + chunksOf g.stored.value ≤ total
  | [], _, _, _ => nofun
  | g :: gs, n, total, h => by
    intro g' hg'
    have hle : ∀ {gs : List Group} {n total : Nat}, Numbered n gs total → n ≤ total := by
      intro gs
      induction gs with
      | nil => exact fun h => Nat.le_of_eq h
      | cons g gs ih => exact fun h => Nat.le_trans (Nat.le_add_right _ _) (ih h.2)
    rcases mem_cons.mp hg' with rfl | hg'
    · exact hle h.2
    have ih := h.2.chunks_le g' hg'
    omega

/-- The layout once the chunks are counted: tiled shards, and every group's chunk count exact
and within 32 bits. -/
structure Laid (m : Manifest) (l : Layout) : Prop where
  shards : ∀ s ∈ l.shards, ShardOk m s
  tiled : ∀ i s, l.shards[i]? = some s →
    Tiled 0 (l.groups.filter fun g => g.shard = i) s.dataBytes.value
  numbered : ∃ total, Numbered 0 l.groups total ∧ total ≤ maxIndexBytes
  groups : ∀ g ∈ l.groups, GroupOk l.shards.length g
  chunks : ∀ g ∈ l.groups, g.chunks = chunksOf g.stored.value

theorem checkChunkHashes_ok {d : Document} (hs : ∀ s ∈ o.layout.shards, ShardOk m s)
    (hg : Grouped o.layout.shards o.layout.groups o.totalChunks)
    (h : checkChunkHashes d.root o = .ok o') : ∃ l, o' = { o with layout := l } ∧ Laid m l := by
  unfold checkChunkHashes at h
  obtain ⟨_, -, h⟩ := bind_ok h
  obtain ⟨_, hsize, h⟩ := bind_ok h
  obtain ⟨_, -, h⟩ := bind_ok h
  cases h
  have hsize := require_ok hsize
  obtain ⟨c, hnum, htotal⟩ := hg.numbered
  have hbound : (get d.root "chunk_sha256").size ≤ maxIndexBytes := by
    unfold get
    cases h : d.root.find "chunk_sha256" with
    | none => exact Nat.zero_le _
    | some v => exact d.fits _ v h
  -- the hash list bounds the count, so the sum was not saturated
  have hc : c ≤ maxIndexBytes := by
    simp only [uint64Max, maxIndexBytes] at htotal hbound ⊢
    omega
  refine ⟨_, rfl, hs, ?_, ⟨c, numbered_counted.mpr hnum, hc⟩, ?_, ?_⟩
  · intro i s hi
    have hcomm : (o.layout.groups.map Group.counted).filter (fun g => g.shard = i) =
        (o.layout.groups.filter fun g => g.shard = i).map Group.counted := by
      rw [filter_map]
      rfl
    show Tiled 0 ((o.layout.groups.map Group.counted).filter fun g => g.shard = i) _
    rw [hcomm]
    exact tiled_counted.mpr (hg.tiled i s hi)
  · intro g hmem
    obtain ⟨g0, hg0, rfl⟩ := mem_map.mp hmem
    have hok := hg.groups g0 hg0
    exact ⟨hok.shard, hok.used, hok.fits, hok.aligned, hok.bound⟩
  intro g hmem
  obtain ⟨g0, hg0, rfl⟩ := mem_map.mp hmem
  have hle := hnum.chunks_le g0 hg0
  refine Nat.mod_eq_of_lt ?_
  simp only [maxIndexBytes] at hc
  omega

section Chunks

variable {m : Manifest} {l : Layout} {g : Group} {r r' : ChunkRange}

theorem Laid.group (h : Laid m l) {gid : Nat} (hg : l.groups[gid]? = some g) :
    ∃ s, l.shards[g.shard]? = some s ∧ ShardOk m s ∧ GroupOk l.shards.length g ∧
      g.offset.value % fileAlignment = 0 ∧
      g.offset.value + g.stored.value ≤ s.dataBytes.value := by
  have hmem := mem_of_getElem? hg
  have hok := h.groups g hmem
  obtain ⟨s, hs⟩ : ∃ s, l.shards[g.shard]? = some s := ⟨_, getElem?_eq_getElem hok.shard⟩
  have htiled := h.tiled g.shard s hs
  have hin : g ∈ l.groups.filter fun g' => g'.shard = g.shard :=
    mem_filter.mpr ⟨hmem, decide_eq_true rfl⟩
  have hali := htiled.aligned rfl
    (fun g' hg' => (h.groups g' (mem_of_mem_filter hg')).aligned) g hin
  exact ⟨s, hs, h.shards s (mem_of_getElem? hs), hok, hali, (htiled.inside g hin).2⟩

variable {key : ChunkKey}

theorem Laid.chunkRangeOf (h : Laid m l)
    (hg : l.groups[key.group]? = some g) (hc : key.chunk < g.chunks) :
    ∃ s r, l.shards[g.shard]? = some s ∧ Artifact.chunkRangeOf l key = .ok r ∧ r.shard = g.shard ∧
      r.fileOffset.value = s.dataOffset.value + g.offset.value + key.chunk * chunkBytes ∧
      r.length.value = min chunkBytes (g.stored.value - key.chunk * chunkBytes) ∧
      key.chunk * chunkBytes < g.stored.value := by
  obtain ⟨s, hs, hshard, hok, hali, hin⟩ := h.group hg
  have hstart : key.chunk * chunkBytes < g.stored.value :=
    lt_chunksOf.mp (h.chunks g (mem_of_getElem? hg) ▸ hc)
  have hoff := hshard.offset
  have hbytes := hshard.bytes
  obtain ⟨r, hr, hrs, hro, hrl⟩ := chunkRangeOf_ok hg hs hc hstart (by
    simp only [uint64Max]
    omega)
  exact ⟨s, r, hs, hr, hrs, hro, hrl, hstart⟩

theorem dvd_chunkStart (k : Nat) : fileAlignment ∣ k * chunkBytes := by
  refine Nat.dvd_mul_left_of_dvd ?_ k
  rw [chunkBytes_eq]
  decide

theorem Laid.chunk_inside (h : Laid m l)
    (hg : l.groups[key.group]? = some g) (hc : key.chunk < g.chunks) :
    ∃ s r, l.shards[g.shard]? = some s ∧ Artifact.chunkRangeOf l key = .ok r ∧ r.shard = g.shard ∧
      r.fileOffset.value % fileAlignment = 0 ∧ r.length.value % fileAlignment = 0 ∧
      0 < r.length.value ∧ s.dataOffset.value ≤ r.fileOffset.value ∧
      r.fileOffset.value + r.length.value ≤ s.dataOffset.value + s.dataBytes.value := by
  obtain ⟨s, r, hs, hr, hrs, hro, hrl, hstart⟩ := h.chunkRangeOf hg hc
  obtain ⟨s', hs', hshard, hok, hali, hin⟩ := h.group hg
  cases hs.symm.trans hs'
  have hstored := Nat.dvd_of_mod_eq_zero hok.aligned
  have hpos : 0 < chunkBytes := by rw [chunkBytes_eq]; decide
  have hunit : fileAlignment ∣ chunkBytes := by rw [chunkBytes_eq]; decide
  refine ⟨s, r, hs, hr, hrs, ?_, ?_, ?_, ?_, ?_⟩
  · rw [hro]
    refine Nat.mod_eq_zero_of_dvd (Nat.dvd_add (Nat.dvd_add ?_ ?_) (dvd_chunkStart _))
    · exact Nat.dvd_of_mod_eq_zero hshard.alignedOffset
    · exact Nat.dvd_of_mod_eq_zero hali
  · rw [hrl]
    refine Nat.mod_eq_zero_of_dvd ?_
    rcases Nat.le_total chunkBytes (g.stored.value - key.chunk * chunkBytes) with hle | hle
    · rw [Nat.min_eq_left hle]
      exact hunit
    rw [Nat.min_eq_right hle]
    exact Nat.dvd_sub hstored (dvd_chunkStart _)
  · rw [hrl]
    exact Nat.lt_min.mpr ⟨hpos, Nat.sub_pos_of_lt hstart⟩
  · rw [hro]
    omega
  have hle := Nat.min_le_right chunkBytes (g.stored.value - key.chunk * chunkBytes)
  rw [hro, hrl]
  omega

theorem Laid.groups_apart (h : Laid m l) {i j : Nat} {g g' : Group} (hi : l.groups[i]? = some g)
    (hj : l.groups[j]? = some g') (hij : i < j) (hshard : g.shard = g'.shard) :
    g.offset.value + g.stored.value ≤ g'.offset.value := by
  obtain ⟨s, hs, -⟩ := h.group hi
  have hpair := pairwise_filter.mp (h.tiled g.shard s hs).apart
  obtain ⟨hilt, rfl⟩ := List.getElem?_eq_some_iff.mp hi
  obtain ⟨hjlt, rfl⟩ := List.getElem?_eq_some_iff.mp hj
  exact pairwise_iff_getElem.mp hpair i j hilt hjlt hij (decide_eq_true rfl)
    (decide_eq_true hshard.symm)

def RangesApart (a n b k : Nat) : Prop := a + n ≤ b ∨ b + k ≤ a

theorem RangesApart.symm {a n b k : Nat} (h : RangesApart a n b k) : RangesApart b k a n := Or.symm h

variable {key key' : ChunkKey}

section

variable (h : Laid m l) (hr : Artifact.chunkRangeOf l key = .ok r)
    (hr' : Artifact.chunkRangeOf l key' = .ok r')
include h hr hr'

theorem Laid.chunks_follow
    (hlt : key.group < key'.group ∨ (key.group = key'.group ∧ key.chunk < key'.chunk))
    (hshard : r.shard = r'.shard) : r.fileOffset.value + r.length.value ≤ r'.fileOffset.value := by
  obtain ⟨⟨g, hg, hc⟩, -⟩ := chunkRangeOf_inv hr
  obtain ⟨⟨g', hg', hc'⟩, -⟩ := chunkRangeOf_inv hr'
  obtain ⟨s, r0, hs, hr0, hrs, hro, hrl, hstart⟩ := h.chunkRangeOf hg hc
  obtain ⟨s', r0', hs', hr0', hrs', hro', -, -⟩ := h.chunkRangeOf hg' hc'
  cases hr.symm.trans hr0
  cases hr'.symm.trans hr0'
  have hgs : g.shard = g'.shard := by rw [← hrs, ← hrs', hshard]
  rw [hgs] at hs
  cases hs.symm.trans hs'
  rw [hro, hrl, hro']
  have hleft := Nat.min_le_left chunkBytes (g.stored.value - key.chunk * chunkBytes)
  have hright := Nat.min_le_right chunkBytes (g.stored.value - key.chunk * chunkBytes)
  have hmul := fun hlt : key.chunk < key'.chunk =>
    Nat.mul_le_mul_right chunkBytes (Nat.succ_le_of_lt hlt)
  rw [Nat.succ_mul] at hmul
  generalize min chunkBytes (g.stored.value - key.chunk * chunkBytes) = n at hleft hright ⊢
  generalize key.chunk * chunkBytes = x at hleft hright hmul hstart ⊢
  generalize key'.chunk * chunkBytes = y at hmul ⊢
  rcases hlt with hlt | ⟨heq, hlt⟩
  · have happ := h.groups_apart hg hg' hlt hgs
    omega
  rw [heq] at hg
  cases hg.symm.trans hg'
  have hstep := hmul hlt
  omega

theorem Laid.chunks_apart (hne : key ≠ key') (hshard : r.shard = r'.shard) :
    RangesApart r.fileOffset.value r.length.value r'.fileOffset.value r'.length.value := by
  have hcases : (key.group < key'.group ∨ (key.group = key'.group ∧ key.chunk < key'.chunk)) ∨
      (key'.group < key.group ∨ (key'.group = key.group ∧ key'.chunk < key.chunk)) := by
    obtain ⟨a, b⟩ := key
    obtain ⟨a', b'⟩ := key'
    simp only [ne_eq, ChunkKey.mk.injEq, not_and] at hne
    simp only
    omega
  rcases hcases with hlt | hlt
  · exact .inl (h.chunks_follow hr hr' hlt hshard)
  · exact .inr (h.chunks_follow hr' hr hlt hshard.symm)

end

theorem Laid.chunks_cover (h : Laid m l) {i p : Nat} {s : Shard} (hs : l.shards[i]? = some s)
    (hlo : s.dataOffset.value ≤ p) (hhi : p < s.dataOffset.value + s.dataBytes.value) :
    ∃ key r, Artifact.chunkRangeOf l key = .ok r ∧ r.shard = i ∧
      r.fileOffset.value ≤ p ∧ p < r.fileOffset.value + r.length.value := by
  obtain ⟨g, hmem, hge, hlt⟩ := (h.tiled i s hs).covered (Nat.zero_le (p - s.dataOffset.value))
    (by omega)
  have hgs : g.shard = i := of_decide_eq_true (mem_filter.mp hmem).2
  obtain ⟨gid, hgid⟩ := getElem?_of_mem (mem_of_mem_filter hmem)
  have hpos : 0 < chunkBytes := by rw [chunkBytes_eq]; decide
  -- the chunk the position falls in
  obtain ⟨k, hk, hnext⟩ : ∃ k, k * chunkBytes ≤ p - s.dataOffset.value - g.offset.value ∧
      p - s.dataOffset.value - g.offset.value < k * chunkBytes + chunkBytes := by
    refine ⟨_, Nat.div_mul_le_self _ _, ?_⟩
    have hlt := Nat.lt_mul_div_succ (p - s.dataOffset.value - g.offset.value) hpos
    rwa [Nat.mul_comm, Nat.succ_mul] at hlt
  have hstart : k * chunkBytes < g.stored.value := by
    generalize k * chunkBytes = x at hk
    omega
  have hc : k < g.chunks := by
    rw [h.chunks g (mem_of_mem_filter hmem)]
    exact lt_chunksOf.mpr hstart
  obtain ⟨s', r, hs', hr, hrs, hro, hrl, -⟩ :=
    h.chunkRangeOf (show l.groups[(ChunkKey.mk gid k).group]? = some g from hgid) hc
  rw [hgs] at hs'
  cases hs.symm.trans hs'
  refine ⟨⟨gid, k⟩, r, hr, hrs.trans hgs, ?_⟩
  rw [hro, hrl]
  clear hro hrl hr hc
  show _ + _ + k * chunkBytes ≤ p ∧ p < _ + _ + k * chunkBytes + min _ (_ - k * chunkBytes)
  generalize k * chunkBytes = x at hk hnext hstart ⊢
  generalize chunkBytes = n at hnext ⊢
  omega

end Chunks
end JitLlm.Artifact
