import JitLlm.Artifact.ReadPlan
import JitLlm.Artifact.Sizes

/-!
# `artifact/artifact.cc` — the chunks of a row table's rows

A row table is a matrix whose rows are read one by one. What an opened artifact's checks leave of
its sizes keeps every row inside its group, so its chunks are those its bytes touch.
-/

namespace JitLlm.Artifact

open Base Lib List

structure RowGeometry where
  rows : Nat
  rowBytes : Nat

/-- `RowGeometryOf`. A parsed GGML type is in the table, so the source's pointer is never null. -/
def rowGeometryOf (rep : Representation) : Option RowGeometry :=
  match rep.dims with
  | [first, second] =>
    if rep.family = .ggml then (typeOf rep).map fun type => ⟨second, ggmlRowBytes type first⟩
    else if first < 1 then none
    else some ⟨first, rep.bytes / first⟩
  | _ => none

def Rest.withRows (x : Rest) : Rest :=
  { x with rowGeometryOf := fun rep => (Artifact.rowGeometryOf rep).isSome }

namespace Opened

def rows (a : Opened) (resource : Nat) : Except Error RowGeometry :=
  match (a.resources[resource]?).filter Resource.rows with
  | none => .error ⟨.bounds, "not a row table", resource⟩
  | some r =>
    match rowGeometryOf r.repr with
    | none => .error ⟨.bounds, "not a row table", resource⟩
    | some geometry => .ok geometry

/-- The keys of one row, in the loop's order. -/
def rowKeys (a : Opened) (r : Resource) (geometry : RowGeometry) (row : Nat) :
    Except Error (List ChunkKey) :=
  if row ≥ geometry.rows then .error ⟨.bounds, "a row outside the table", row⟩
  else do
    let start := bytesOf (r.offset.value + row * geometry.rowBytes)
    let closure ← closureOf a.layout r.group start (bytesOf geometry.rowBytes)
    .ok ((range' closure.first (closure.last + 1 - closure.first)).map fun k => ⟨r.group, k⟩)

def rowChunks (a : Opened) (resource : Nat) (rows : List Nat) : Except Error (List ChunkKey) := do
  let geometry ← a.rows resource
  match a.resources[resource]? with
  | none => .error ⟨.bounds, "not a row table", resource⟩
  | some r =>
    let keys ← rows.mapM (a.rowKeys r geometry)
    .ok (sortUnique keys.flatten)

end Opened

/-! ## What the checks leave of a resource -/

/-- The sizes of a resource are its representation's, and exact. -/
structure Listed (x : Rest) (r : Resource) : Prop where
  bytes : r.bytes.value = r.repr.bytes
  exact : r.repr.bytes = exactBytes r.repr
  pos : 0 < r.repr.bytes
  readable : r.repr.bytes ≤ r.readable.value
  rows : r.rows = true → x.rowGeometryOf r.repr = true

variable {x : Rest} {files : Files} {o o' : Opener} {v : Value} {i start length group : Nat}
    {m : Manifest} {geometry : RowGeometry} {a : Opened} {g : Group} {s : Shard}

theorem checkResource_listed (h : checkResource (x.whole files) o v i = .ok o')
    (ho : ∀ r ∈ o.resources, Listed x r) : ∀ r ∈ o'.resources, Listed x r := by
  obtain ⟨name, _, gid, texts, _, _, rep, offset, -, -, -, hrep, hbytes, hread, hrows, -, rfl⟩ :=
    checkResource_ok h
  intro r hr
  rcases mem_append.mp hr with hr | hr
  · exact ho r hr
  cases mem_singleton.mp hr
  have hsized := representationAt_sized hrep
  have hpos : 0 < rep.bytes := Int.natCast_pos.mp (checkInt_ok (by decide) hbytes).1
  obtain ⟨heq, hb, -⟩ := listed_exact hbytes hsized.bytes
  obtain ⟨heq', hr', -⟩ := listed_exact hread hsized.readable
  have hle : rep.bytes ≤ (bytesOf rep.readable).value := by omega
  exact ⟨hb.trans heq.symm, heq, hpos, hle, hrows⟩

theorem checkIndex_listed {d : Document} (h : checkIndex (x.whole files) m d.root = .ok o) :
    ∀ r ∈ o.resources, Listed x r := by
  obtain ⟨o1, o2, o3, spans, hshards, hgroups, hhas, -, -, -, hkeeps⟩ := checkIndex_entries h
  obtain ⟨shards, rfl, hlen, hok⟩ := checkShardList_ok hshards
  obtain ⟨groups, total, seen, rfl, hgrouped⟩ := checkGroups_ok hlen hok hgroups
  obtain ⟨l, rfl, -⟩ := checkChunkHashes_ok hok hgrouped hhas
  refine hkeeps (fun o => ∀ r ∈ o.resources, Listed x r) _ (by simp [Opener.empty])
    (fun _ _ _ _ h ho => checkResource_listed h ho) (fun _ ho => ho) fun _ _ _ _ h ho => ?_
  obtain ⟨_, _, _, _, _, _, _, -, -, -, -, -, -, -, rfl⟩ := checkExpertArray_ok h
  exact ho

/-- The rows of a table fill no more than its bytes, and none is empty. -/
theorem Listed.fits {r : Resource} (h : Listed x r) (hgeo : rowGeometryOf r.repr = some geometry) :
    0 < geometry.rowBytes ∧ geometry.rows * geometry.rowBytes ≤ r.bytes.value := by
  have hexact := h.exact
  have hpos := h.pos
  rw [h.bytes]
  unfold rowGeometryOf at hgeo
  split at hgeo
  next first second hdims =>
    split at hgeo
    next hfam =>
      obtain ⟨type, htype, rfl⟩ := Option.map_eq_some_iff.mp hgeo
      simp only [exactBytes, hfam, htype, hdims, Option.elim_some, headD_cons, tail_cons, prod_cons,
        prod_nil, Nat.mul_one] at hexact
      have hblocks : 0 < type.blocks first := by
        refine Nat.pos_of_ne_zero fun hz => ?_
        rw [hexact, hz, Nat.zero_mul] at hpos
        exact Nat.lt_irrefl _ hpos
      rw [ggmlRowBytes_eq]
      simp only [uint64Max]
      refine ⟨by omega, ?_⟩
      rw [hexact, Nat.mul_comm]
      exact Nat.mul_le_mul_right _ (Nat.min_le_right _ _)
    rename_i hfam
    split at hgeo
    · cases hgeo
    rename_i hfirst
    cases hgeo
    refine ⟨Nat.div_pos ?_ (by omega), Nat.mul_div_le _ _⟩
    have hdvd : first ∣ r.repr.bytes := by
      rw [hexact, exactBytes]
      split
      · exact absurd ‹_› hfam
      cases dtypeOf r.repr with
      | none => exact Nat.dvd_zero first
      | some dtype =>
        rw [Option.elim_some, hdims, prod_cons, Nat.mul_assoc]
        exact Nat.dvd_mul_right _ _
    exact Nat.le_of_dvd hpos hdvd
  · cases hgeo

/-! ## The chunks of rows -/

/-- The chunk's bytes of its shard's file meet `[start, start + length)` of it. -/
def Meets (a : Opened) (key : ChunkKey) (shard start length : Nat) : Prop :=
  ∃ range p, chunkRangeOf a.layout key = .ok range ∧ range.shard = shard ∧
    range.fileOffset.value ≤ p ∧ p < range.fileOffset.value + range.length.value ∧
    start ≤ p ∧ p < start + length

section

variable (h : Sound m a) (hg : a.layout.groups[group]? = some g)
    (hs : a.layout.shards[g.shard]? = some s)
include h hg hs

/-- What a group's chunk is in its shard's file. -/
theorem Sound.range {k : Nat} (hk : k * chunkBytes < g.stored.value) :
    ∃ range, chunkRangeOf a.layout ⟨group, k⟩ = .ok range ∧ range.shard = g.shard ∧
      range.fileOffset.value = s.dataOffset.value + g.offset.value + k * chunkBytes ∧
      range.length.value = min chunkBytes (g.stored.value - k * chunkBytes) := by
  have hmem := mem_of_getElem? hg
  have hexact := h.exact g s hmem hs
  refine chunkRangeOf_ok hg hs ((h.chunks g hmem k).mpr hk) hk ?_
  simp only [uint64Max]
  omega

theorem meets_iff (hpos : 0 < length) (hin : start + length ≤ g.stored.value) (key : ChunkKey) :
    Meets a key g.shard (s.dataOffset.value + g.offset.value + start) length ↔
      key.group = group ∧ start / chunkBytes ≤ key.chunk ∧
        key.chunk ≤ (start + length - 1) / chunkBytes := by
  have hC : 0 < chunkBytes := by
    rw [chunkBytes_eq]
    decide
  constructor
  · rintro ⟨range, p, hrange, hshard, hlo, hhi, hlo', hhi'⟩
    -- The byte is in the group's chunk it falls into, and chunks are apart.
    obtain ⟨q, rfl⟩ : ∃ q, p = s.dataOffset.value + g.offset.value + q :=
      ⟨p - (s.dataOffset.value + g.offset.value), by omega⟩
    have hq : q / chunkBytes * chunkBytes ≤ q := Nat.div_mul_le_self q chunkBytes
    have hq' : q < q / chunkBytes * chunkBytes + chunkBytes := Nat.lt_div_mul_add hC
    have hfirst : start / chunkBytes ≤ q / chunkBytes := Nat.div_le_div_right (by omega)
    have hlast : q / chunkBytes ≤ (start + length - 1) / chunkBytes :=
      Nat.div_le_div_right (by omega)
    have hstored : q < g.stored.value := by omega
    generalize q / chunkBytes = k at *
    obtain ⟨range', hrange', hshard', hoff', hlen'⟩ := h.range hg hs (hq.trans_lt hstored)
    have hkey : key = ⟨group, k⟩ := by
      by_contra hne
      have hapart := h.chunksApart _ _ _ _ hrange hrange' hne (hshard.trans hshard'.symm)
      unfold RangesApart at hapart
      generalize k * chunkBytes = w at *
      omega
    subst hkey
    exact ⟨rfl, hfirst, hlast⟩
  rintro ⟨rfl, hfirst, hlast⟩
  have hk : key.chunk * chunkBytes ≤ start + length - 1 :=
    (Nat.mul_le_mul_right _ hlast).trans (Nat.div_mul_le_self _ _)
  have hk' : start < key.chunk * chunkBytes + chunkBytes :=
    (Nat.lt_div_mul_add hC).trans_le (Nat.add_le_add_right (Nat.mul_le_mul_right _ hfirst) _)
  obtain ⟨range, hrange, hshard, hoff, hlen⟩ :=
    h.range hg hs (k := key.chunk) (lt_of_le_of_lt hk (by omega))
  generalize key.chunk * chunkBytes = w at *
  refine ⟨range, s.dataOffset.value + g.offset.value + max start w, hrange, hshard, ?_, ?_, ?_, ?_⟩
  · omega
  · omega
  · omega
  · omega

end

/-- A row inside its group: its keys are those its bytes meet. -/
theorem rowKeys_meets (h : Sound m a) {r : Resource} {row : Nat}
    (hg : a.layout.groups[r.group]? = some g) (hs : a.layout.shards[g.shard]? = some s)
    (hrow : row < geometry.rows) (hpos : 0 < geometry.rowBytes)
    (hin : r.offset.value + row * geometry.rowBytes + geometry.rowBytes ≤ g.stored.value) :
    ∃ keys, a.rowKeys r geometry row = .ok keys ∧ ∀ key, key ∈ keys ↔ Meets a key g.shard
      (s.dataOffset.value + g.offset.value + (r.offset.value + row * geometry.rowBytes))
      geometry.rowBytes := by
  have hstored := g.stored.bound
  simp only [uint64Max] at hstored
  have hstart := bytesOf_value (n := r.offset.value + row * geometry.rowBytes) (by omega)
  have hlen := bytesOf_value (n := geometry.rowBytes) (by omega)
  have hsmall : ∀ k, k * chunkBytes < g.stored.value → toU32 k = k := by
    intro k hk
    obtain ⟨total, hnumbered, htotal⟩ := h.numbered
    have hle := hnumbered.chunks_le g (mem_of_getElem? hg)
    have hlt := lt_chunksOf.mpr hk
    simp only [maxIndexBytes] at htotal
    exact Nat.mod_eq_of_lt (by omega)
  have hlength : 0 < (bytesOf geometry.rowBytes).value := by rwa [hlen]
  have hinside : (bytesOf (r.offset.value + row * geometry.rowBytes)).value +
      (bytesOf geometry.rowBytes).value ≤ g.stored.value := by rwa [hstart, hlen]
  have hclosure := closureOf_ok hg hlength hinside
  rw [hstart, hlen] at hclosure
  rw [Opened.rowKeys, if_neg (Nat.not_le.mpr hrow)]
  simp only
  generalize r.offset.value + row * geometry.rowBytes = start at *
  have hfirst := hsmall (start / chunkBytes) ((Nat.div_mul_le_self _ _).trans_lt (by omega))
  have hlast := hsmall ((start + geometry.rowBytes - 1) / chunkBytes)
    ((Nat.div_mul_le_self _ _).trans_lt (by omega))
  rw [hfirst, hlast] at hclosure
  have hle : start / chunkBytes ≤ (start + geometry.rowBytes - 1) / chunkBytes :=
    Nat.div_le_div_right (by omega)
  refine ⟨_, by rw [hclosure]; rfl, fun key => ?_⟩
  rw [meets_iff h hg hs hpos hin, mem_map]
  generalize start / chunkBytes = lo at *
  generalize (start + geometry.rowBytes - 1) / chunkBytes = hi at *
  simp only [mem_range'_1]
  constructor
  · rintro ⟨k, hk, rfl⟩
    simp only [true_and]
    omega
  rintro ⟨hgroup, hk⟩
  exact ⟨key.chunk, by omega, by rw [← hgroup]⟩

theorem mapM_collects {f : Nat → Except Error (List ChunkKey)} {P : ChunkKey → Nat → Prop}
    {rows : List Nat} (h : ∀ row ∈ rows, ∃ keys, f row = .ok keys ∧ ∀ key, key ∈ keys ↔ P key row) :
    ∃ keys, rows.mapM f = .ok keys ∧ ∀ key, key ∈ keys.flatten ↔ ∃ row ∈ rows, P key row := by
  induction rows with
  | nil => exact ⟨[], rfl, by simp⟩
  | cons row rows ih =>
    obtain ⟨keys, hkeys, hmem⟩ := h row mem_cons_self
    obtain ⟨rest, hrest, hmem'⟩ := ih fun row' hrow' => h row' (mem_cons_of_mem _ hrow')
    refine ⟨keys :: rest, by rw [mapM_cons, hkeys, ok_bind, hrest]; rfl, fun key => ?_⟩
    simp only [flatten_cons, mem_append, hmem, hmem', mem_cons, exists_eq_or_imp]

/-- Of a row table of an opened artifact, no row's bytes wrap or leave its group, and the chunks of
    any rows of it are those their bytes meet, once each and ascending. -/
theorem rowChunks_exact (x : Rest) (files : Files) (m : Manifest) (d : Document) (a : Opened)
    (h : openIndex (x.withRows.whole files) m d = .ok a) (i : Nat) (r : Resource)
    (hr : a.resources[i]? = some r) (hrows : r.rows = true) :
    ∃ geometry g s, a.rows i = .ok geometry ∧ a.layout.groups[r.group]? = some g ∧
      a.layout.shards[g.shard]? = some s ∧
      s.dataOffset.value + g.offset.value + g.stored.value < 2 ^ 64 ∧
      (∀ row < geometry.rows,
        r.offset.value + row * geometry.rowBytes + geometry.rowBytes ≤ g.stored.value) ∧
      ∀ rows : List Nat, (∀ row ∈ rows, row < geometry.rows) →
        ∃ out, a.rowChunks i rows = .ok out ∧ out.Pairwise (· < ·) ∧
          ∀ key, key ∈ out ↔ ∃ row ∈ rows, Meets a key g.shard
            (s.dataOffset.value + g.offset.value + (r.offset.value + row * geometry.rowBytes))
            geometry.rowBytes := by
  have hsound := Sound.opened h
  obtain ⟨o, hindex, h⟩ := bind_ok h
  obtain ⟨_, -, h⟩ := bind_ok h
  cases h
  have hmem := mem_of_getElem? hr
  have hlisted := checkIndex_listed hindex r hmem
  obtain ⟨geometry, hgeo⟩ := Option.isSome_iff_exists.mp (hlisted.rows hrows)
  obtain ⟨hpos, hfill⟩ := hlisted.fits hgeo
  obtain ⟨g, hg, -, hused, hstored, -⟩ :=
    hsound.ranges r.range (mem_append_left _ (mem_map_of_mem hmem))
  have hgroup := mem_of_getElem? hg
  obtain ⟨s, hs⟩ : ∃ s, o.layout.shards[g.shard]? = some s :=
    ⟨_, getElem?_eq_getElem (hsound.placed g hgroup)⟩
  have hin : ∀ row < geometry.rows,
      r.offset.value + row * geometry.rowBytes + geometry.rowBytes ≤ g.stored.value := by
    intro row hrow
    have hle := Nat.mul_le_mul_right geometry.rowBytes (Nat.succ_le_of_lt hrow)
    have hread := hlisted.readable
    have hbytes := hlisted.bytes
    simp only [Resource.range] at hused
    rw [Nat.succ_mul] at hle
    omega
  have hrowsOf : Opened.rows ⟨o.layout, o.resources, o.expertArrays⟩ i = .ok geometry := by
    simp only [Opened.rows, hr, Option.filter_some, hrows, if_true, hgeo]
  refine ⟨geometry, g, s, hrowsOf, hg, hs, hsound.exact g s hgroup hs, hin, fun rows hrange => ?_⟩
  obtain ⟨keys, hkeys, hmeets⟩ := mapM_collects fun row hrow =>
    rowKeys_meets hsound hg hs (hrange row hrow) hpos (hin row (hrange row hrow))
  refine ⟨sortUnique keys.flatten, ?_, sortUnique_sorted _, fun key => ?_⟩
  · rw [Opened.rowChunks, hrowsOf, ok_bind]
    simp only [hr, hkeys, ok_bind]
  · rw [mem_sortUnique, hmeets]

/-- The sample with its first tensor a table of four rows. -/
def rowsIndex : Value :=
  .object (sampleIndex.members.map fun member =>
    if member.1 = "resources" then
      (member.1, .array [.object (((sampleResource "norm" 0 128).members.filter fun member =>
          member.1 ≠ "repr") ++ [("repr", sampleRepr "F32" [.integer 32, .integer 4]),
            ("access", .string "rows")]), sampleResource "bias" 512 120])
    else member)

def rowsDocument : Document := ⟨rowsIndex, Value.members_fit (by decide +kernel)⟩

def rowsRest : Rest := sampleRest.withRows.whole fun _ _ _ => .ok ()

def rowsChosen : Except Error (Option Bool × List ChunkKey) := do
  let a ← openIndex rowsRest sampleManifest rowsDocument
  let keys ← a.rowChunks 0 [3, 0, 3]
  .ok (a.resources[0]?.map Resource.rows, keys)

/-- The table is accepted, and two of its rows need the one chunk they lie in. -/
theorem rowChunks_exact_sample :
    ∃ a r geometry g, openIndex rowsRest sampleManifest rowsDocument = .ok a ∧
      a.resources[0]? = some r ∧ a.rows 0 = .ok geometry ∧ a.layout.groups[r.group]? = some g ∧
      a.rowChunks 0 [3, 0, 3] = .ok [⟨0, 0⟩] ∧ ∀ row < geometry.rows,
        r.offset.value + row * geometry.rowBytes + geometry.rowBytes ≤ g.stored.value := by
  have hchosen : rowsChosen.toOption = some (some true, [⟨0, 0⟩]) := by decide +kernel
  obtain ⟨a, h, hchosen⟩ := bind_ok (ok_of_toOption hchosen)
  obtain ⟨keys, hkeys, hchosen⟩ := bind_ok hchosen
  obtain ⟨hfirst, rfl⟩ := Prod.mk.inj (Except.ok.inj hchosen)
  obtain ⟨r, hr, hrows⟩ := Option.map_eq_some_iff.mp hfirst
  obtain ⟨geometry, g, -, hgeo, hg, -, -, hin, -⟩ := rowChunks_exact _ _ _ _ a h 0 r hr hrows
  exact ⟨a, r, geometry, g, h, hr, hgeo, hg, hkeys, hin⟩

end JitLlm.Artifact
