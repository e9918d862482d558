import JitLlm.Artifact.Layout
import JitLlm.Lib.Ranges
import JitLlm.Lib.Sorting
import JitLlm.Scheduler.Protocol
import Mathlib.Data.List.Pairwise
import Mathlib.Data.Prod.Lex

/-!
# `engine/paged_weights.cc` — weights as extents

`LayOutSlab` cuts a layer's experts, at a uniform stride, into pages; `Reserve` gives every placed
group and every slab a region of one of two reservations and lists what each extent is loaded from;
`Unwritten` lists the bytes of the device's extents that no load writes.

Sizes and addresses are natural numbers: a slab's stride is its groups' stored bytes rounded up
(`ExpertSlab`), and the groups are in the files, so that no sum here reaches 2^64.
-/

namespace JitLlm.Engine.PagedWeights

open Base Artifact Scheduler Lib List

def kExtent : Nat := 2097152
def kFileAlignment : Nat := 4096
def kSlabPieces : Nat := 4
def kSlabSlotBytes : Nat := kExtent + 8 * 1024

/-- `bytes` rounded up to a multiple of `unit`. -/
def round (bytes unit : Nat) : Nat := (bytes + unit - 1) / unit * unit

/-! ## Slabs -/

structure SlabPiece where
  slotOffset : Nat
  pageOffset : Nat
  bytes : Nat

/-- The pieces are the first `pieces` of the source's arrays. -/
structure SlabPage where
  shard : Nat := 0
  fileOffset : Nat := 0
  length : Nat := 0
  pieces : List SlabPiece := []

structure SlabLayout where
  pages : List SlabPage := []

def SlabLayout.bytes (l : SlabLayout) : Nat := l.pages.length * kExtent

/-- Where a slab's groups are in the files, each with its shard and position there. -/
structure Slab where
  groups : List (Nat × Nat)
  stored : Nat
  stride : Nat
  alignment : Nat

namespace Slab

variable (x : Slab)

def shard (e : Nat) : Nat := (x.groups.getD e (0, 0)).1
def file (e : Nat) : Nat := (x.groups.getD e (0, 0)).2

/-- The groups are consecutive within a shard and change shard at most once. -/
def changes (change : Option Nat) (e : Nat) : Except String (Option Nat) :=
  if x.shard e = x.shard (e - 1) then
    if x.file e ≠ x.file (e - 1) + x.stored then
      .error s!"expert {e}'s group does not follow expert {e - 1}'s in the file"
    else .ok change
  else if change.isSome then .error "the slab's groups change shard more than once"
  else .ok (some e)

/-- A page boundary in the gap before the group that starts the second shard. -/
def shift : Option Nat → Except String Nat
  | none => .ok 0
  | some change =>
    let r := (kExtent - change * x.stride % kExtent) % kExtent
    let delta := round r x.alignment
    if delta - r > x.stride - x.stored then
      .error "the gap between groups is too small to align a shard change with a page"
    else .ok (delta % kExtent)

/-- The loop over the groups that overlap page `p`, `left` of them still to come; the file range
    so far is `[first, last)`. -/
def fill (delta p : Nat) :
    (left first last : Nat) → SlabPage → Except String (Nat × Nat × SlabPage)
  | 0, first, last, page => .ok (first, last, page)
  | left + 1, first, last, page =>
    let e := x.groups.length - (left + 1)
    let lo := p * kExtent
    let hi := lo + kExtent
    let start := delta + e * x.stride
    if start < hi then
      let pieceLo := max lo start
      let pieceHi := min hi (start + x.stored)
      -- else the page starts in the gap after this group
      if pieceLo < pieceHi then
        let position := x.file e + (pieceLo - start)
        let whole := page.pieces.isEmpty
        if !whole && (x.shard e ≠ page.shard || position ≠ last) then
          .error s!"page {p} needs bytes that are not one range of one file"
        else if page.pieces.length = kSlabPieces then
          .error s!"page {p} needs more than {kSlabPieces} pieces"
        else
          fill delta p left (if whole then position else first)
            (position + (pieceHi - pieceLo))
            { page with
              shard := if whole then x.shard e else page.shard
              pieces := page.pieces ++ [⟨position, pieceLo - lo, pieceHi - pieceLo⟩] }
      else fill delta p left first last page
    else .ok (first, last, page)

/-- Page `p`: from the group containing its start. -/
def page (delta p : Nat) : Except String SlabPage := do
  let lo := p * kExtent
  let e := if lo > delta then (lo - delta) / x.stride else 0
  let (first, last, page) ← x.fill delta p (x.groups.length - e) 0 0 {}
  if page.pieces.isEmpty then .error s!"page {p} holds no group's bytes"
  else
    let fileOffset := first / kFileAlignment * kFileAlignment
    let length := round last kFileAlignment - fileOffset
    if length > kSlabSlotBytes then .error s!"page {p}'s read is longer than a slot"
    else
      .ok { page with
        fileOffset
        length
        pieces := page.pieces.map fun q => { q with slotOffset := q.slotOffset - fileOffset } }

def layOutSlab : Except String SlabLayout := do
  let n := x.groups.length
  if n = 0 ∨ x.stored = 0 ∨ x.stride < x.stored ∨ x.stored % kFileAlignment ≠ 0 then
    throw "not a slab: no groups, or a stride below the groups' stored bytes"
  if x.alignment < 16 ∨ x.alignment > kFileAlignment ∨ x.alignment &&& (x.alignment - 1) ≠ 0 then
    throw "a slab's alignment is a power of two from 16 to 4,096"
  let change ← (range' 1 (n - 1)).foldlM x.changes none
  let delta ← x.shift change
  let stop := delta + (n - 1) * x.stride + x.stored
  let pages ← (range ((stop + kExtent - 1) / kExtent)).mapM (x.page delta)
  return { pages }

end Slab

/-! ## Weights -/

structure SlabSpec where
  firstGroup : Nat
  count : Nat
  stride : Nat
  alignment : Nat := 256

inductive GroupPlace
  | none | device | host
deriving DecidableEq

structure Source where
  address : Nat
  group : Nat
  host : Bool
  source : PageSource

/-- What `Reserve` takes: the artifact's layout, its shards' descriptors, where its groups go, and
    the node's answers to it (a reservation of so many bytes and its base; an extent of a group's
    chunk). -/
structure Reserving where
  layout : Layout
  fds : List Int
  place : List GroupPlace
  slabs : List SlabSpec
  reservation : (host : Bool) → Nat → Except String (Id .reservation × Nat)
  extent : (group chunk : Nat) → Option (Id .extent)
  deviceClass : Nat
  hostClass : Nat

namespace Reserving

variable (x : Reserving)

def placeOf (g : Nat) : GroupPlace := x.place.getD g .none

def chunks (g : Nat) : Nat := (x.layout.groups[g]?.map Group.chunks).getD 0

/-- Group `e` of slab `s`, which then is that slab's. -/
def claim (s : Nat) (spec : SlabSpec) (stored : Nat)
    (soFar : List (Nat × Nat) × (Nat → Option Nat)) (e : Nat) :
    Except String (List (Nat × Nat) × (Nat → Option Nat)) := do
  let g := spec.firstGroup + e
  let some group := x.layout.groups[g]?
    | throw s!"slab {s} names groups the artifact does not have"
  if group.kind ≠ .expert ∨ group.stored.value ≠ stored ∨ x.placeOf g ≠ .none ∨
      (soFar.2 g).isSome then
    throw s!"slab {s}'s expert groups are not uniform"
  let .ok range := chunkRangeOf x.layout ⟨g, 0⟩ | throw "an expert group's file range"
  return (soFar.1 ++ [(range.shard, range.fileOffset.value)], Function.update soFar.2 g (some s))

/-- Each slab's layout, and which slab each of its groups is in. -/
def addSlab (soFar : List SlabLayout × (Nat → Option Nat)) (slab : SlabSpec × Nat) :
    Except String (List SlabLayout × (Nat → Option Nat)) := do
  let (spec, s) := slab
  let some first := x.layout.groups[spec.firstGroup]?
    | throw s!"slab {s} names groups the artifact does not have"
  if spec.count = 0 ∨ spec.firstGroup + spec.count > x.layout.groups.length then
    throw s!"slab {s} names groups the artifact does not have"
  let stored := first.stored.value
  let (groups, slabOf) ← (range spec.count).foldlM (x.claim s spec stored) ([], soFar.2)
  match Slab.layOutSlab { groups, stored, stride := spec.stride, alignment := spec.alignment } with
  | .error error => throw s!"slab {s}: {error}"
  | .ok layout => return (soFar.1 ++ [layout], slabOf)

/-- The groups in file order. -/
def order : List Nat :=
  sortBy (fun g => (x.layout.groups[g]?.map fun g => toLex (g.shard, g.offset.value)).getD
    (toLex (0, 0))) (range x.layout.groups.length)

end Reserving

/-- Where the groups and the slabs begin in their reservation. -/
structure Regions where
  region : Nat → Nat := fun _ => 0
  slabRegion : Nat → Nat := fun _ => 0
  placed : Nat → Bool := fun _ => false
  bytes : Nat := 0
  hostBytes : Nat := 0

/-- What the loops over the groups read: the slabs' layouts and which slab a group is in. -/
structure Slabs where
  layouts : List SlabLayout
  slabOf : Nat → Option Nat

namespace Reserving

variable (x : Reserving) (y : Slabs)

def region (t : Regions) (g : Nat) : Regions :=
  match y.slabOf g with
  | some s =>
    if t.placed s then t
    else
      { t with
        placed := Function.update t.placed s true
        slabRegion := Function.update t.slabRegion s t.bytes
        bytes := t.bytes + (y.layouts.getD s {}).bytes }
  | none =>
    match x.placeOf g with
    | .device =>
      { t with
        region := Function.update t.region g t.bytes
        bytes := t.bytes + x.chunks g * kExtent }
    | .host =>
      { t with
        region := Function.update t.region g t.hostBytes
        hostBytes := t.hostBytes + x.chunks g * kExtent }
    | .none => t

/-- Extent `chunk` of a group in the catalog. -/
def add (group chunk : Nat) : Except String Unit :=
  if (x.extent group chunk).isSome then .ok () else .error "cataloging a weight extent"

def slabSource (at_ : Id .reservation × Nat) (region group : Nat) (slab : SlabLayout) (p : Nat) :
    Except String Source := do
  x.add group p
  let page := slab.pages.getD p {}
  let offset := region + p * kExtent
  let address := at_.2 + offset
  return {
    address
    group
    host := false
    source :=
      { read :=
          { fd := x.fds.getD page.shard (-1), offset := page.fileOffset, length := page.length }
        landed := true
        pieces := page.pieces.map fun q => ⟨q.slotOffset, address + q.pageOffset, q.bytes⟩
        backing := some ⟨at_.1, .ofNat offset, .ofNat kExtent, x.deviceClass⟩ } }

/-- A host group's chunk is read in place. -/
def chunkSource (at_ : Id .reservation × Nat) (region g : Nat) (host : Bool) (c : Nat) :
    Except String Source := do
  let .ok range := chunkRangeOf x.layout ⟨g, c⟩ | throw "a chunk's range"
  x.add g c
  let offset := region + c * kExtent
  let address := at_.2 + offset
  return {
    address
    group := g
    host
    source :=
      { read :=
          { fd := x.fds.getD range.shard (-1)
            offset := range.fileOffset.value
            memory := if host then address else 0
            length := range.length.value }
        landed := !host
        destination := if host then 0 else address
        backing := some ⟨at_.1, .ofNat offset, .ofNat kExtent,
          if host then x.hostClass else x.deviceClass⟩ } }

/-- The sources of the groups in file order, with the reservations of the device and the host. -/
def sources (t : Regions) (at_ : Bool → Id .reservation × Nat) :
    List Nat → (Nat → Bool) → Except String (List Source)
  | [], _ => .ok []
  | g :: rest, placed =>
    match y.slabOf g with
    | some s =>
      if placed s then sources t at_ rest placed
      else do
        let slab := y.layouts.getD s {}
        let group := (x.slabs.getD s ⟨0, 0, 0, 0⟩).firstGroup
        let pages ← (range slab.pages.length).mapM
          (x.slabSource (at_ false) (t.slabRegion s) group slab)
        return pages ++ (← sources t at_ rest (Function.update placed s true))
    | none =>
      if x.placeOf g = .none then sources t at_ rest placed
      else do
        let host : Bool := x.placeOf g = .host
        let chunks ← (range (x.chunks g)).mapM (x.chunkSource (at_ host) (t.region g) g host)
        return chunks ++ (← sources t at_ rest placed)

end Reserving

structure Weights where
  regions : Regions
  base : Bool → Id .reservation × Nat
  sources : List Source

def Reserving.hostReservation (x : Reserving) (bytes : Nat) :
    Except String (Id .reservation × Nat) :=
  if bytes = 0 then .ok ({}, 0) else x.reservation true bytes

def Reserving.reserve (x : Reserving) : Except String Weights := do
  if x.place.length ≠ x.layout.groups.length then throw "a place per group"
  let (layouts, slabOf) ← x.slabs.zipIdx.foldlM x.addSlab ([], fun _ => none)
  if let some (_, g) := x.layout.groups.zipIdx.find? fun (group, g) =>
      x.placeOf g ≠ .none && group.kind = .expert then
    throw s!"expert group {g} is placed as a dense group"
  let y : Slabs := ⟨layouts, slabOf⟩
  let t := x.order.foldl (x.region y) {}
  let device ← x.reservation false (max t.bytes kExtent)
  let host ← x.hostReservation t.hostBytes
  let base := fun onHost => if onHost then host else device
  return ⟨t, base, ← x.sources y t base x.order fun _ => false⟩

structure Range where
  address : Nat
  bytes : Nat
  slab : Bool

/-- The loop over a page's pieces, which ascend. -/
def gaps (stop : Nat) : List LandedPiece → Nat → List Range
  | [], at_ => if at_ < stop then [⟨at_, stop - at_, true⟩] else []
  | piece :: rest, at_ =>
    (if piece.destination > at_ then [⟨at_, piece.destination - at_, true⟩] else []) ++
      gaps stop rest (max at_ (piece.destination + piece.length))

def Source.unwritten (s : Source) : List Range :=
  if s.host then []
  else
    let stop := s.address + kExtent
    match s.source.pieces with
    | [] =>
      let written := s.source.destination + s.source.read.length
      if written < stop then [⟨written, stop - written, false⟩] else []
    | pieces => gaps stop pieces s.address

def Weights.unwritten (w : Weights) : List Range := w.sources.flatMap Source.unwritten

/-! ## Pages -/

def Ascending (pieces : List SlabPiece) : Prop :=
  pieces.Pairwise fun q q' => q.pageOffset + q.bytes ≤ q'.pageOffset

/-- The pieces ascend within the page. -/
structure SlabPage.Fits (page : SlabPage) : Prop where
  some : page.pieces ≠ []
  ascends : Ascending page.pieces
  inside : ∀ q ∈ page.pieces, q.pageOffset + q.bytes ≤ kExtent

def SlabLayout.Fits (l : SlabLayout) : Prop := ∀ page ∈ l.pages, page.Fits

/-- Before group `e`, the pieces so far end where it starts, or where the page does. -/
theorem Slab.fill_ascends {x : Slab} {delta p left : Nat} (hstride : x.stored ≤ x.stride) :
    ∀ {e first last page r}, e + left = x.groups.length → Ascending page.pieces →
      (∀ q ∈ page.pieces, q.pageOffset + q.bytes ≤ kExtent ∧
        p * kExtent + q.pageOffset + q.bytes ≤ max (p * kExtent) (delta + e * x.stride)) →
      x.fill delta p left first last page = .ok r →
      Ascending r.2.2.pieces ∧ ∀ q ∈ r.2.2.pieces, q.pageOffset + q.bytes ≤ kExtent := by
  induction left with
  | zero =>
    intro _ _ _ _ _ _ hpair hin h
    cases h
    exact ⟨hpair, fun q hq => (hin q hq).1⟩
  | succ left ih =>
    intro e first last page r he hpair hin h
    have hnext : e + 1 + left = x.groups.length := by omega
    rw [Slab.fill, ← he, Nat.add_sub_cancel] at h
    have hmul := Nat.add_one_mul e x.stride
    generalize p * kExtent = lo at *
    generalize kExtent = size at *
    simp only at h
    split at h
    · split at h
      · split at h
        · cases h
        split at h
        · cases h
        -- this piece starts where the pieces before it have ended
        refine ih hnext ?_ ?_ h
        · refine pairwise_append.mpr ⟨hpair, pairwise_singleton .., fun q hq q' hq' => ?_⟩
          have := hin q hq
          rw [mem_singleton.mp hq']
          dsimp only
          omega
        · intro q hq
          rcases mem_append.mp hq with hq | hq
          · have := hin q hq
            omega
          rw [mem_singleton.mp hq]
          dsimp only
          omega
      · refine ih hnext hpair (fun q hq => ?_) h
        have := hin q hq
        omega
    · cases h
      exact ⟨hpair, fun q hq => (hin q hq).1⟩

theorem Slab.page_fits {x : Slab} {delta p : Nat} {page : SlabPage} (hstride : x.stored ≤ x.stride)
    (h : x.page delta p = .ok page) : page.Fits := by
  obtain ⟨⟨first, last, filled⟩, hfill, h⟩ := bind_ok h
  obtain ⟨hpair, hin⟩ :=
    fill_ascends hstride (Nat.sub_add_cancel (Nat.sub_le ..)) (by exact .nil) (by simp) hfill
  simp only at h
  split at h
  · cases h
  rename_i hsome
  split at h
  · cases h
  cases h
  refine ⟨by simpa using hsome, pairwise_map.mpr hpair, fun q hq => ?_⟩
  obtain ⟨q, hmem, rfl⟩ := mem_map.mp hq
  exact hin q hmem

theorem Slab.layOutSlab_fits {x : Slab} {l : SlabLayout} (h : x.layOutSlab = .ok l) :
    l.Fits := by
  unfold layOutSlab at h
  simp only at h
  split at h
  · cases h
  rename_i hn
  split at h
  · cases h
  obtain ⟨change, -, h⟩ := bind_ok h
  obtain ⟨delta, -, h⟩ := bind_ok h
  obtain ⟨pages, hpages, h⟩ := bind_ok h
  cases h
  intro page hpage
  obtain ⟨i, hi, rfl⟩ := mem_iff_getElem.mp hpage
  exact page_fits (by omega) ((mapM_range_ok hpages).2 i hi)

theorem Reserving.addSlab_fits {x : Reserving} {slab : SlabSpec × Nat}
    {soFar r : List SlabLayout × (Nat → Option Nat)}
    (hfits : ∀ l ∈ soFar.1, l.Fits) (h : x.addSlab soFar slab = .ok r) : ∀ l ∈ r.1, l.Fits := by
  unfold addSlab at h
  simp only at h
  split at h
  · split at h
    · cases h
    obtain ⟨⟨groups, slabOf⟩, -, h⟩ := bind_ok h
    simp only at h
    split at h
    · cases h
    rename_i layout hlayout
    cases h
    intro l hl
    rcases mem_append.mp hl with hl | hl
    · exact hfits l hl
    rw [mem_singleton.mp hl]
    exact Slab.layOutSlab_fits hlayout
  · cases h

/-! ## Extents -/

/-- What a load of the source writes: its copies', or, read in place, its read's. -/
def Source.Writes (s : Source) (a : Nat) : Prop :=
  if s.source.landed then ∃ c ∈ s.source.copiesFrom 0, Inside a c.destination c.size
  else Inside a s.source.read.memory s.source.read.length

/-- A source's load stays in its extent: a chunk from its start, a page's pieces ascending. -/
structure Source.Fits (s : Source) : Prop where
  landed : s.source.landed = !s.host
  host : s.host = true → s.source.pieces = []
  whole : s.source.pieces = [] → s.source.read.length ≤ kExtent ∧
    (if s.host then s.source.read.memory else s.source.destination) = s.address
  ascends : s.source.pieces.Pairwise fun p q => p.destination + p.length ≤ q.destination
  inside : ∀ p ∈ s.source.pieces,
    s.address ≤ p.destination ∧ p.destination + p.length ≤ s.address + kExtent

namespace Reserving

variable {x : Reserving} {at_ : Id .reservation × Nat} {region group p : Nat} {s : Source}

theorem slabSource_fits {slab : SlabLayout} (hp : p < slab.pages.length)
    (hpages : slab.Fits)
    (h : x.slabSource at_ region group slab p = .ok s) :
    s.host = false ∧ s.address = at_.2 + (region + p * kExtent) ∧ s.Fits := by
  obtain ⟨-, -, h⟩ := bind_ok h
  cases h
  have hpage : (slab.pages.getD p {}).Fits := by
    rw [getD_eq_getElem?_getD, getElem?_eq_getElem hp]
    exact hpages _ (getElem_mem hp)
  refine ⟨rfl, rfl, rfl, by simp, fun h => absurd (map_eq_nil_iff.mp h) hpage.some,
    pairwise_map.mpr (hpage.ascends.imp fun h => by dsimp only; omega), fun q hq => ?_⟩
  obtain ⟨q, hmem, rfl⟩ := mem_map.mp hq
  have := hpage.inside q hmem
  dsimp only
  omega

theorem chunkSource_fits {host : Bool} (h : x.chunkSource at_ region group host p = .ok s) :
    s.host = host ∧ s.address = at_.2 + (region + p * kExtent) ∧ s.Fits := by
  unfold chunkSource at h
  split at h
  · rename_i range hrange
    obtain ⟨-, -, h⟩ := bind_ok h
    cases h
    have hlength := (chunkRangeOf_inv hrange).2
    rw [show chunkBytes = kExtent by rw [chunkBytes, kExtent]] at hlength
    refine ⟨rfl, rfl, rfl, fun _ => rfl, fun _ => ⟨hlength, ?_⟩, .nil, by simp⟩
    cases host <;> rfl
  · cases h

end Reserving

def Regions.size (t : Regions) (host : Bool) : Nat := if host then t.hostBytes else t.bytes

/-- The sources of the groups placed between `t` and `t'`: their extents follow each other in the
    part of each reservation that was given out. -/
structure Tiled (at_ : Bool → Id .reservation × Nat) (t t' : Regions) (l : List Source) : Prop where
  grows : ∀ host, t.size host ≤ t'.size host
  fits : ∀ s ∈ l, s.Fits
  within : ∀ s ∈ l, (at_ s.host).2 + t.size s.host ≤ s.address ∧
    s.address + kExtent ≤ (at_ s.host).2 + t'.size s.host
  follow : l.Pairwise fun s s' => s.host = s'.host → s.address + kExtent ≤ s'.address

namespace Tiled

variable {at_ : Bool → Id .reservation × Nat} {t t' t'' : Regions} {l l' : List Source}

theorem append (h : Tiled at_ t t' l) (h' : Tiled at_ t' t'' l') : Tiled at_ t t'' (l ++ l') where
  grows host := (h.grows host).trans (h'.grows host)
  fits s hs := (mem_append.mp hs).elim (h.fits s) (h'.fits s)
  within s hs := by
    have := h.grows s.host
    have := h'.grows s.host
    rcases mem_append.mp hs with hs | hs
    · have := h.within s hs
      omega
    · have := h'.within s hs
      omega
  follow := by
    refine pairwise_append.mpr ⟨h.follow, h'.follow, fun s hs s' hs' heq => ?_⟩
    have := (h.within s hs).2
    have := (h'.within s' hs').1
    rw [heq] at *
    omega

/-- The extents of one region. -/
theorem block {f : Nat → Except String Source} {n : Nat} {host : Bool}
    (h : (range n).mapM f = .ok l)
    (hf : ∀ c < n, ∀ s, f c = .ok s →
      s.host = host ∧ s.address = (at_ host).2 + (t.size host + c * kExtent) ∧ s.Fits)
    (hsize : ∀ b, t'.size b = t.size b + if b = host then n * kExtent else 0) :
    Tiled at_ t t' l := by
  obtain ⟨rfl, hget⟩ := mapM_range_ok h
  refine ⟨fun b => by rw [hsize]; exact Nat.le_add_right .., fun s hs => ?_, fun s hs => ?_, ?_⟩
  · obtain ⟨i, hi, rfl⟩ := mem_iff_getElem.mp hs
    exact (hf i hi _ (hget i hi)).2.2
  · obtain ⟨i, hi, rfl⟩ := mem_iff_getElem.mp hs
    obtain ⟨hhost, haddress, -⟩ := hf i hi _ (hget i hi)
    have hstep := Nat.mul_le_mul_right kExtent (Nat.succ_le_of_lt hi)
    rw [Nat.succ_mul] at hstep
    rw [hhost, haddress, hsize, if_pos rfl]
    omega
  · refine pairwise_iff_getElem.mpr fun i j hi hj hij _ => ?_
    have hstep := Nat.mul_le_mul_right kExtent (Nat.succ_le_of_lt hij)
    rw [Nat.succ_mul] at hstep
    rw [(hf i hi _ (hget i hi)).2.1, (hf j hj _ (hget j hj)).2.1]
    omega

end Tiled

namespace Reserving

variable {x : Reserving} {y : Slabs} {at_ : Bool → Id .reservation × Nat} {g s : Nat}

/-- A group's region stays where it was put, and so does a placed slab's. -/
theorem kept (rest : List Nat) : ∀ t : Regions,
    (∀ g ∉ rest, (rest.foldl (x.region y) t).region g = t.region g) ∧
      ∀ s, t.placed s = true → (rest.foldl (x.region y) t).slabRegion s = t.slabRegion s := by
  induction rest with
  | nil => exact fun _ => ⟨fun _ _ => rfl, fun _ _ => rfl⟩
  | cons g rest ih =>
    intro t
    have hstep : (∀ g', g' ≠ g → (x.region y t g).region g' = t.region g') ∧
        ∀ s, t.placed s = true → (x.region y t g).placed s = true ∧
          (x.region y t g).slabRegion s = t.slabRegion s := by
      unfold region
      split
      · split
        · exact ⟨fun _ _ => rfl, fun s hs => ⟨hs, rfl⟩⟩
        rename_i s' _ hnot
        refine ⟨fun _ _ => rfl, fun s hs => ?_⟩
        have hne : s ≠ s' := fun heq => hnot (heq ▸ hs)
        exact ⟨(Function.update_of_ne hne ..).trans hs, Function.update_of_ne hne ..⟩
      split
      · exact ⟨fun _ hne => Function.update_of_ne hne .., fun s hs => ⟨hs, rfl⟩⟩
      · exact ⟨fun _ hne => Function.update_of_ne hne .., fun s hs => ⟨hs, rfl⟩⟩
      · exact ⟨fun _ _ => rfl, fun s hs => ⟨hs, rfl⟩⟩
    refine ⟨fun g' hg' => ?_, fun s hs => ?_⟩
    · rw [mem_cons, not_or] at hg'
      rw [foldl_cons, (ih _).1 g' hg'.2, hstep.1 g' hg'.1]
    · obtain ⟨hplaced, hregion⟩ := hstep.2 s hs
      rw [foldl_cons, (ih _).2 s hplaced, hregion]

theorem sources_tiled (hpages : ∀ l ∈ y.layouts, l.Fits) :
    ∀ {order : List Nat} {t : Regions} {l : List Source}, order.Nodup →
      x.sources y (order.foldl (x.region y) t) at_ order t.placed = .ok l →
      Tiled at_ t (order.foldl (x.region y) t) l := by
  intro order
  induction order with
  | nil =>
    intro t l _ h
    cases h
    exact ⟨fun _ => le_rfl, by simp, by simp, .nil⟩
  | cons g rest ih =>
    intro t l hnodup h
    obtain ⟨hg, hrest⟩ := nodup_cons.mp hnodup
    have hkept := kept (x := x) (y := y) rest (x.region y t g)
    rw [foldl_cons] at h ⊢
    rw [sources] at h
    cases hslab : y.slabOf g with
    | some s =>
      simp only [hslab] at h
      by_cases hplaced : t.placed s = true
      · -- an earlier group of the slab placed it
        have hstay : x.region y t g = t := by simp only [region, hslab, if_pos hplaced]
        rw [if_pos hplaced] at h
        rw [hstay] at h ⊢
        exact ih hrest h
      obtain ⟨hnow, hat, hsize⟩ : (x.region y t g).placed = Function.update t.placed s true ∧
          (x.region y t g).slabRegion s = t.size false ∧ ∀ b, (x.region y t g).size b =
            t.size b + if b = false then (y.layouts.getD s {}).pages.length * kExtent else 0 := by
        simp only [region, hslab, if_neg hplaced]
        exact ⟨trivial, Function.update_self .., fun b => by cases b <;> rfl⟩
      rw [if_neg hplaced] at h
      obtain ⟨pages, hl, h⟩ := bind_ok h
      obtain ⟨l', hl', h⟩ := bind_ok h
      cases h
      rw [hkept.2 s (hnow ▸ Function.update_self ..), hat] at hl
      rw [← hnow] at hl'
      have hlayout : (y.layouts.getD s {}).Fits := by
        rw [getD_eq_getElem?_getD]
        cases hget : y.layouts[s]? with
        | none => exact fun _ hmem => nomatch hmem
        | some layout => exact hpages layout (mem_of_getElem? hget)
      exact .append (.block hl (fun _ hp _ => slabSource_fits hp hlayout) hsize) (ih hrest hl')
    | none =>
      simp only [hslab] at h
      by_cases hnone : x.placeOf g = .none
      · have hstay : x.region y t g = t := by simp only [region, hslab, hnone]
        rw [if_pos hnone] at h
        rw [hstay] at h ⊢
        exact ih hrest h
      obtain ⟨hnow, hat, hsize⟩ : (x.region y t g).placed = t.placed ∧
          (x.region y t g).region g = t.size (x.placeOf g = .host) ∧
          ∀ b, (x.region y t g).size b =
            t.size b + if b = decide (x.placeOf g = .host) then x.chunks g * kExtent else 0 := by
        simp only [region, hslab]
        cases hplace : x.placeOf g with
        | none => exact absurd hplace hnone
        | device | host => exact ⟨rfl, Function.update_self .., fun b => by cases b <;> rfl⟩
      rw [if_neg hnone] at h
      obtain ⟨chunks, hl, h⟩ := bind_ok h
      obtain ⟨l', hl', h⟩ := bind_ok h
      cases h
      rw [hkept.1 g hg, hat] at hl
      rw [← hnow] at hl'
      exact .append (.block hl (fun _ _ _ hq => chunkSource_fits hq) hsize) (ih hrest hl')

end Reserving

/-! ## What is not written -/

def Disjoint (l : List Range) : Prop :=
  l.Pairwise fun r r' => Apart r.address r.bytes r'.address r'.bytes

def Covers (l : List Range) (a : Nat) : Prop := ∃ r ∈ l, Inside a r.address r.bytes

theorem gaps_exact {stop : Nat} {pieces : List LandedPiece} :
    ∀ {at_ : Nat}, pieces.Pairwise (fun p q => p.destination + p.length ≤ q.destination) →
      (∀ p ∈ pieces, at_ ≤ p.destination ∧ p.destination + p.length ≤ stop) →
      Disjoint (gaps stop pieces at_) ∧ ∀ a, Covers (gaps stop pieces at_) a ↔
        (at_ ≤ a ∧ a < stop) ∧ ∀ p ∈ pieces, ¬ Inside a p.destination p.length := by
  induction pieces with
  | nil =>
    intro at_ _ _
    unfold gaps Covers
    split
    · refine ⟨pairwise_singleton .., fun a => ?_⟩
      simp [Inside]
      omega
    · refine ⟨.nil, fun a => ?_⟩
      simp
      omega
  | cons p pieces ih =>
    intro at_ hpair hin
    obtain ⟨hp, hpair⟩ := pairwise_cons.mp hpair
    obtain ⟨hlo, hhi⟩ := hin p mem_cons_self
    obtain ⟨hapart, hrest⟩ := ih hpair fun q hq =>
      ⟨hp q hq, (hin q (mem_cons_of_mem _ hq)).2⟩
    rw [gaps, Nat.max_eq_right (by omega)]
    refine ⟨pairwise_append.mpr ⟨?_, hapart, fun r hr r' hr' a ha ha' => ?_⟩, fun a => ?_⟩
    · split
      · exact pairwise_singleton ..
      · exact .nil
    · have := ((hrest a).mp ⟨r', hr', ha'⟩).1
      split at hr
      · rw [mem_singleton.mp hr] at ha
        unfold Inside at ha
        dsimp only at ha
        omega
      · cases hr
    · have hfirst : (∃ r ∈ if p.destination > at_ then [(⟨at_, p.destination - at_, true⟩ : Range)]
          else [], Inside a r.address r.bytes) ↔ at_ ≤ a ∧ a < p.destination := by
        split <;> simp [Inside] <;> omega
      have hbelow : a < p.destination → ∀ q ∈ pieces, ¬ Inside a q.destination q.length :=
        fun ha q hq hin => by
          have := hp q hq
          unfold Inside at hin
          omega
      simp only [Covers, mem_append, or_and_right, exists_or] at hrest ⊢
      rw [hfirst, hrest, forall_mem_cons]
      unfold Inside at *
      constructor
      · rintro (ha | ⟨ha, hout⟩)
        · exact ⟨by omega, by omega, hbelow ha.2⟩
        · exact ⟨by omega, by omega, hout⟩
      · rintro ⟨ha, hnot, hout⟩
        by_cases hlt : a < p.destination
        · exact .inl ⟨ha.1, hlt⟩
        · exact .inr ⟨by omega, hout⟩

theorem Source.Fits.unwritten {s : Source} (h : s.Fits) :
    Disjoint s.unwritten ∧ ∀ a,
      (s.Writes a → Inside a s.address kExtent) ∧
      (Covers s.unwritten a ↔ s.host = false ∧ Inside a s.address kExtent ∧ ¬ s.Writes a) := by
  unfold Source.unwritten Writes
  rw [h.landed]
  cases hhost : s.host with
  | true =>
    obtain ⟨hlength, hmemory⟩ := h.whole (h.host hhost)
    rw [hhost, if_pos rfl] at hmemory
    refine ⟨.nil, fun a => ⟨fun ha => ?_, by simp [Covers]⟩⟩
    rw [hmemory] at ha
    exact ⟨ha.1, by have := ha.2; omega⟩
  | false =>
    simp only [PageSource.copiesFrom]
    cases hpieces : s.source.pieces with
    | nil =>
      obtain ⟨hlength, hdest⟩ := h.whole hpieces
      rw [hhost, if_neg Bool.false_ne_true] at hdest
      simp only [hdest, Bool.false_eq_true, if_false, Bool.not_false, if_true, mem_singleton,
        exists_eq_left, true_and, Inside, Covers]
      refine ⟨?_, fun a => ⟨by omega, ?_⟩⟩
      · split
        · exact pairwise_singleton ..
        · exact .nil
      · split <;> simp <;> omega
    | cons p pieces =>
      obtain ⟨hdisjoint, hgaps⟩ := gaps_exact h.ascends h.inside
      have hinside := h.inside
      rw [hpieces] at hdisjoint hgaps hinside
      simp only [Bool.false_eq_true, if_false, Bool.not_false, if_true, mem_map, true_and]
      refine ⟨hdisjoint, fun a => ⟨?_, (hgaps a).trans (and_congr_right fun _ => ?_)⟩⟩
      · rintro ⟨_, ⟨q, hq, rfl⟩, ha⟩
        exact ⟨(hinside q hq).1.trans ha.1, ha.2.trans_le (hinside q hq).2⟩
      · constructor
        · rintro hout ⟨_, ⟨q, hq, rfl⟩, ha⟩
          exact hout q hq ha
        · exact fun hnot q hq ha => hnot ⟨_, ⟨q, hq, rfl⟩, ha⟩

/-- Two reservations do not overlap, so neither do two extents. -/
theorem Tiled.apart {at_ : Bool → Id .reservation × Nat} {t : Regions} {l : List Source}
    (h : Tiled at_ {} t l) (hapart : Apart (at_ false).2 t.bytes (at_ true).2 t.hostBytes) :
    l.Pairwise fun s s' => Apart s.address kExtent s'.address kExtent := by
  refine h.follow.imp_of_mem fun {s s'} hs hs' hfollow a ha ha' => ?_
  obtain ⟨hlo, hhi⟩ := h.within s hs
  obtain ⟨hlo', hhi'⟩ := h.within s' hs'
  obtain ⟨ha1, ha2⟩ := ha
  obtain ⟨ha1', ha2'⟩ := ha'
  by_cases heq : s.host = s'.host
  · have := hfollow heq
    omega
  have hin : Inside a (at_ s.host).2 (t.size s.host) := ⟨by omega, by omega⟩
  have hin' : Inside a (at_ s'.host).2 (t.size s'.host) := ⟨by omega, by omega⟩
  cases hhost : s.host <;> cases hhost' : s'.host <;> rw [hhost] at hin heq <;>
    rw [hhost'] at hin' heq
  · exact heq rfl
  · exact hapart a hin hin'
  · exact hapart a hin' hin
  · exact heq rfl

/-- A reservation on the device and one on the host do not overlap. -/
def Reserving.ReservesApart (x : Reserving) : Prop :=
  ∀ n n' device host, x.reservation false n = .ok device → x.reservation true n' = .ok host →
    Apart device.2 n host.2 n'

theorem Reserving.reserve_tiled {x : Reserving} {w : Weights} (h : x.reserve = .ok w)
    (hapart : x.ReservesApart) :
    Tiled w.base {} w.regions w.sources ∧
      Apart (w.base false).2 w.regions.bytes (w.base true).2 w.regions.hostBytes := by
  unfold reserve at h
  simp only at h
  split at h
  · cases h
  obtain ⟨⟨layouts, slabOf⟩, hlayouts, h⟩ := bind_ok h
  simp only at h
  split at h
  · cases h
  obtain ⟨device, hdevice, h⟩ := bind_ok h
  obtain ⟨host, hhost, h⟩ := bind_ok h
  obtain ⟨sources, hsources, h⟩ := bind_ok h
  cases h
  have hfits : ∀ l ∈ layouts, l.Fits := by
    refine Sat.val (Sat.foldlM (E := fun _ => True) (I := fun _ soFar => ∀ l ∈ soFar.1, l.Fits) ?_
      (fun _ hl => nomatch hl)) hlayouts
    intro soFar slab _ hsoFar
    cases hnext : x.addSlab soFar slab with
    | ok => exact addSlab_fits hsoFar hnext
    | error => trivial
  refine ⟨sources_tiled hfits ((sortBy_perm ..).nodup_iff.mpr nodup_range) hsources, ?_⟩
  have hsize : ∀ {a : Nat} {t : Regions}, Inside a device.2 t.bytes →
      Inside a device.2 (max t.bytes kExtent) := fun ha => ⟨ha.1, by have := ha.2; omega⟩
  unfold hostReservation at hhost
  split at hhost
  · rename_i hzero
    intro a _ ha
    have := ha.1
    have := ha.2
    dsimp only at *
    omega
  · exact fun a ha => hapart _ _ device host hdevice hhost a (hsize ha)

/-- `Unwritten` is the exact complement: its ranges do not overlap, and they hold exactly the bytes
    of the device's extents that no extent's load writes. -/
theorem unwritten_exact (x : Reserving) (w : Weights) (h : x.reserve = .ok w)
    (hapart : x.ReservesApart) :
    (w.unwritten.Pairwise fun r r' => Apart r.address r.bytes r'.address r'.bytes) ∧
      ∀ a, (∃ r ∈ w.unwritten, Inside a r.address r.bytes) ↔
        (∃ s ∈ w.sources, s.host = false ∧ Inside a s.address kExtent) ∧
          ∀ s ∈ w.sources, ¬ s.Writes a := by
  obtain ⟨htiled, hreserved⟩ := Reserving.reserve_tiled h hapart
  have hextents := htiled.apart hreserved
  have hfits := fun s hs => (htiled.fits s hs).unwritten
  constructor
  · refine pairwise_flatMap.mpr ⟨fun s hs => (hfits s hs).1, ?_⟩
    refine hextents.imp_of_mem fun {s s'} hs hs' hne r hr r' hr' a ha ha' => hne a ?_ ?_
    · exact ((((hfits s hs).2 a).2.mp ⟨r, hr, ha⟩).2).1
    · exact ((((hfits s' hs').2 a).2.mp ⟨r', hr', ha'⟩).2).1
  intro a
  constructor
  · rintro ⟨r, hr, ha⟩
    obtain ⟨s, hs, hr⟩ := mem_flatMap.mp hr
    obtain ⟨hhost, hin, hnot⟩ := ((hfits s hs).2 a).2.mp ⟨r, hr, ha⟩
    refine ⟨⟨s, hs, hhost, hin⟩, fun s' hs' hwrites => ?_⟩
    by_cases heq : s' = s
    · exact hnot (heq ▸ hwrites)
    -- another extent's load stays in that extent
    have hin' := ((hfits s' hs').2 a).1 hwrites
    have : Std.Symm fun s s' : Source => Apart s.address kExtent s'.address kExtent :=
      ⟨fun _ _ h a ha ha' => h a ha' ha⟩
    exact hextents.forall hs' hs heq a hin' hin
  · rintro ⟨⟨s, hs, hhost, hin⟩, hnot⟩
    obtain ⟨r, hr, ha⟩ := ((hfits s hs).2 a).2.mpr ⟨hhost, hin, hnot s hs⟩
    exact ⟨r, mem_flatMap.mpr ⟨s, hs, hr⟩, ha⟩

/-- A dense group, a host group and a slab of two experts, a page each. -/
def small : Reserving where
  layout :=
    { shards := [⟨"a", .zero, .ofNat 16384⟩]
      groups := [GroupKind.layer, .table, .expert, .expert].zipIdx.map fun (kind, i) =>
        ⟨kind, none, none, 0, .ofNat (i * 4096), .ofNat 4096, .ofNat 4096, i, 1⟩ }
  fds := [3]
  place := [.device, .host, .none, .none]
  slabs := [{ firstGroup := 2, count := 2, stride := 8192 }]
  reservation host bytes :=
    if bytes ≤ 2 ^ 30 then .ok ({}, if host then 2 ^ 40 else 2 ^ 41) else .error "no addresses"
  extent _ _ := some {}
  deviceClass := 0
  hostClass := 1

theorem unwritten_exact_small :
    ∃ w, small.reserve = .ok w ∧ ∀ s ∈ w.sources, ¬ s.Writes (2 ^ 41 + kExtent + 4096) := by
  have hrun : (small.reserve.toOption.any fun w => w.unwritten.any fun r =>
      Inside (2 ^ 41 + kExtent + 4096) r.address r.bytes) = true := by decide +kernel
  obtain ⟨w, hw, hin⟩ := (Option.any_eq_true ..).mp hrun
  obtain ⟨r, hr, hin⟩ := any_eq_true.mp hin
  have hapart : small.ReservesApart := by
    intro n n' device host hdevice hhost a ha ha'
    simp only [small] at hdevice hhost
    split at hdevice <;> cases hdevice
    split at hhost <;> cases hhost
    simp [Inside] at ha ha'
    omega
  exact ⟨w, ok_of_toOption hw, (((unwritten_exact small w (ok_of_toOption hw) hapart).2 _).mp
    ⟨r, hr, of_decide_eq_true hin⟩).2⟩

end JitLlm.Engine.PagedWeights
