import JitLlm.Artifact.Schema
import JitLlm.Base.Bytes

/-!
# `artifact/layout.h` — where an artifact's groups and chunks live

A group is one range of one shard's data section; its chunks are group-relative 2 MiB
slices, the last one as long as what is left. `chunkRangeOf` and `closureOf` take a position
from their caller and refuse one out of range.
-/

namespace JitLlm.Artifact

open Base

def fileAlignment : Nat := 4096

/-- `kChunkBytes`. Irreducible, so that no unification unfolds a product with it. -/
@[irreducible] def chunkBytes : Nat := 2097152

theorem chunkBytes_eq : chunkBytes = 2097152 := by
  unfold chunkBytes
  rfl

def memberAlignment : Nat := 256

/-- `static_cast<std::uint32_t>`. -/
def toU32 (n : Nat) : Nat := n % 2 ^ 32

/-- `Bytes(n)`: a byte count of 64 bits. -/
def bytesOf (n : Nat) : Bytes :=
  ⟨n % 2 ^ 64, by
    have h := Nat.mod_lt n (show 0 < 2 ^ 64 by decide)
    simp only [uint64Max]
    omega⟩

theorem bytesOf_value {n : Nat} (h : n < 2 ^ 64) : (bytesOf n).value = n := by
  exact Nat.mod_eq_of_lt h

structure Shard where
  path : String
  dataOffset : Bytes
  dataBytes : Bytes

inductive GroupKind
  | table
  | layer
  | expert
  | global
  | head
deriving DecidableEq

structure Group where
  kind : GroupKind
  layer : Option Nat
  expert : Option Nat
  shard : Nat
  offset : Bytes
  used : Bytes
  stored : Bytes
  firstChunk : Nat
  chunks : Nat

structure Layout where
  shards : List Shard
  groups : List Group

structure ChunkKey where
  group : Nat
  chunk : Nat
deriving DecidableEq

structure ChunkRange where
  shard : Nat
  fileOffset : Bytes
  length : Bytes

/-- The chunks `[first, last]` of one group that a byte range touches. -/
structure Closure where
  group : Nat
  first : Nat
  last : Nat

/-- `ChunkRangeOf`. A chunk number has 32 bits, so its start does not wrap. -/
def chunkRangeOf (l : Layout) (key : ChunkKey) : Except Error ChunkRange :=
  match l.groups[key.group]? with
  | none => .error ⟨.bounds, "no such group", key.group⟩
  | some g =>
    if key.chunk ≥ g.chunks then .error ⟨.bounds, "no such chunk in the group", key.chunk⟩
    else
      match l.shards[g.shard]? with
      | none => .error ⟨.bounds, "no such shard", g.shard⟩
      | some s =>
        let start := bytesOf (key.chunk * chunkBytes)
        match (s.dataOffset.plus g.offset).bind fun base => base.plus start with
        | none => .error ⟨.bounds, "chunk outside the file", key.chunk⟩
        | some fileOffset =>
          if start.value ≥ g.stored.value then
            .error ⟨.bounds, "chunk outside the file", key.chunk⟩
          else
            .ok ⟨g.shard, fileOffset, bytesOf (min chunkBytes (g.stored.value - start.value))⟩

def closureOf (l : Layout) (group : Nat) (offset length : Bytes) : Except Error Closure :=
  match l.groups[group]? with
  | none => .error ⟨.bounds, "no such group", group⟩
  | some g =>
    match offset.plus length with
    | none => .error ⟨.bounds, "range outside the group", group⟩
    | some end_ =>
      if length.value = 0 ∨ end_.value > g.stored.value then
        .error ⟨.bounds, "range outside the group", group⟩
      else
        .ok ⟨group, toU32 (offset.value / chunkBytes), toU32 ((end_.value - 1) / chunkBytes)⟩

/-! ## What they answer -/

theorem chunkRangeOf_inv {l : Layout} {key : ChunkKey} {r : ChunkRange}
    (h : chunkRangeOf l key = .ok r) :
    (∃ g, l.groups[key.group]? = some g ∧ key.chunk < g.chunks) ∧ r.length.value ≤ chunkBytes := by
  unfold chunkRangeOf at h
  split at h
  · cases h
  rename_i g hg
  split at h
  · cases h
  rename_i hc
  split at h
  · cases h
  simp only at h
  split at h
  · cases h
  split at h
  · cases h
  cases h
  exact ⟨⟨g, hg, Nat.not_le.mp hc⟩, (Nat.mod_le ..).trans (Nat.min_le_left ..)⟩

theorem chunkRangeOf_ok {l : Layout} {key : ChunkKey} {g : Group} {s : Shard}
    (hg : l.groups[key.group]? = some g) (hs : l.shards[g.shard]? = some s)
    (hc : key.chunk < g.chunks) (hin : key.chunk * chunkBytes < g.stored.value)
    (hfit : s.dataOffset.value + g.offset.value + g.stored.value ≤ uint64Max) :
    ∃ r, chunkRangeOf l key = .ok r ∧ r.shard = g.shard ∧
      r.fileOffset.value = s.dataOffset.value + g.offset.value + key.chunk * chunkBytes ∧
      r.length.value = min chunkBytes (g.stored.value - key.chunk * chunkBytes) := by
  have hstart : (bytesOf (key.chunk * chunkBytes)).value = key.chunk * chunkBytes :=
    bytesOf_value (by have := g.stored.bound; simp only [uint64Max] at this; omega)
  obtain ⟨base, hbase⟩ : ∃ b, s.dataOffset.plus g.offset = some b := by
    cases h : s.dataOffset.plus g.offset with
    | none => rw [Bytes.plus_eq_none] at h; omega
    | some b => exact ⟨b, rfl⟩
  have hbaseValue := Bytes.plus_eq_some.mp hbase
  obtain ⟨off, hoff⟩ : ∃ b, base.plus (bytesOf (key.chunk * chunkBytes)) = some b := by
    cases h : base.plus (bytesOf (key.chunk * chunkBytes)) with
    | none => rw [Bytes.plus_eq_none] at h; omega
    | some b => exact ⟨b, rfl⟩
  have hoffValue := Bytes.plus_eq_some.mp hoff
  have hlen : (bytesOf (min chunkBytes (g.stored.value - key.chunk * chunkBytes))).value =
      min chunkBytes (g.stored.value - key.chunk * chunkBytes) := by
    apply bytesOf_value
    calc min chunkBytes (g.stored.value - key.chunk * chunkBytes)
      _ ≤ chunkBytes := Nat.min_le_left _ _
      _ < 2 ^ 64 := by rw [chunkBytes_eq]; decide
  have hr : chunkRangeOf l key =
      .ok ⟨g.shard, off, bytesOf (min chunkBytes (g.stored.value - key.chunk * chunkBytes))⟩ := by
    have hnot : ¬ (bytesOf (key.chunk * chunkBytes)).value ≥ g.stored.value := by
      rw [hstart]
      exact Nat.not_le.mpr hin
    unfold chunkRangeOf
    rw [hg]
    dsimp only
    rw [if_neg (Nat.not_le.mpr hc), hs]
    dsimp only
    rw [hbase, Option.bind_some, hoff]
    dsimp only
    rw [if_neg hnot, hstart]
  exact ⟨_, hr, rfl, by rw [hoffValue, hbaseValue, hstart], hlen⟩

theorem closureOf_ok {l : Layout} {group : Nat} {g : Group} {offset length : Bytes}
    (hg : l.groups[group]? = some g) (hpos : 0 < length.value)
    (hin : offset.value + length.value ≤ g.stored.value) : closureOf l group offset length =
      .ok ⟨group, toU32 (offset.value / chunkBytes),
        toU32 ((offset.value + length.value - 1) / chunkBytes)⟩ := by
  obtain ⟨last, hlast⟩ : ∃ b, offset.plus length = some b := by
    cases h : offset.plus length with
    | none =>
      rw [Bytes.plus_eq_none] at h
      have := g.stored.bound
      omega
    | some b => exact ⟨b, rfl⟩
  have hvalue := Bytes.plus_eq_some.mp hlast
  unfold closureOf
  simp only [hg, hlast, hvalue]
  rw [if_neg (by omega)]

end JitLlm.Artifact
