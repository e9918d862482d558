import Mathlib.Data.List.Sort
import Mathlib.Data.Prod.Lex
import Mathlib.Data.String.Basic
import JitLlm.Artifact.Layout

/-!
# `artifact/artifact.cc` — opening an artifact: the index's checks

`Opener::CheckIndex` in the source's order: the shard list, the groups, the chunk hashes, the
resources, the expert arrays, the bindings, the placement and the manifest's
transformations. The state each check adds to is `Opener`, and a check answers the state
after it or the first error.

What the manifest's checks left behind (the listed files and the model's expert count) is
`Manifest`. Three checks only answer yes or no about the state and change none of what is
here (the bindings of roles, the manifest's transformations and the shards' headers); they,
and the parser of a representation, are what `Rest` holds.
-/

namespace JitLlm.Artifact

open Base

/-! ## Arithmetic -/

def satAdd (a b : Nat) : Nat := if a + b > uint64Max then uint64Max else a + b

theorem satAdd_eq (a b : Nat) : satAdd a b = min (a + b) uint64Max := by
  unfold satAdd
  split <;> omega

/-- `AlignUp`: rounded up to a multiple of `unit`, or saturated. -/
def alignUp (n unit : Nat) : Nat :=
  let padded := satAdd n (unit - 1)
  if padded = uint64Max then uint64Max else padded / unit * unit

/-- `Chunks`. -/
def chunksOf (stored : Nat) : Nat :=
  stored / chunkBytes + if stored % chunkBytes ≠ 0 then 1 else 0

/-! ## What is read -/

def maxIndexBytes : Nat := 67108864

def maxEntries : Nat := 262144

def maxAliases : Nat := 8

def maxExperts : Int := 1048576

def maxLayer : Int := 1048576

/-- A parsed index. Each of an object's or an array's elements takes at least a byte of the
text, and `ReadDocument` refuses a text longer than `kMaxIndexBytes`. -/
structure Document where
  root : Value
  fits : ∀ key v, root.find key = some v → v.size ≤ maxIndexBytes

inductive FileRole
  | index
  | shard
  | sourceMetadata
deriving DecidableEq

structure ListedFile where
  path : String
  role : FileRole
  bytes : Bytes

structure Manifest where
  files : List ListedFile
  expertCount : Nat

/-- `FindFile`: the listed file of that path (the list is strictly sorted by path). -/
def Manifest.findFile (m : Manifest) (path : String) : Option ListedFile :=
  m.files.find? fun f => f.path = path

inductive Family
  | ggml
  | exl3
  | plain
deriving DecidableEq

/-- `type` is a GGML type's name, or the container's dtype; the last five are an EXL3 part's. -/
structure Representation where
  family : Family
  type : String
  dims : List Nat
  bytes : Nat
  readable : Nat
  role : String := ""
  kBits : Nat := 0
  inFeatures : Nat := 0
  outFeatures : Nat := 0
  codebook : String := ""

structure ContainerView where
  dtype : String
  shape : List Nat

/-- `kNative`: GGML type names that are also safetensors dtypes. -/
def nativeTypes : List String := ["F32", "F16", "BF16", "I8", "I16", "I32", "I64", "F64"]

def containerViewOf (rep : Representation) : ContainerView :=
  if rep.family = .ggml then
    if rep.type ∈ nativeTypes then ⟨rep.type, rep.dims.reverse⟩ else ⟨"U8", [rep.bytes]⟩
  else ⟨rep.type, rep.dims⟩

structure Resource where
  name : String
  roles : List String
  group : Nat
  offset : Bytes
  bytes : Bytes
  readable : Bytes
  repr : Representation
  rows : Bool

structure ExpertArray where
  name : String
  layer : Nat
  count : Nat
  firstGroup : Nat
  groupOffset : Bytes
  sliceBytes : Bytes
  readable : Bytes
  repr : Representation

/-- One readable range of a group: a resource's, or one expert slice's. -/
structure Span where
  group : Nat
  offset : Nat
  bytes : Nat
  readable : Nat
  name : String
  view : ContainerView

/-- What `SpanLess` compares, in its order. -/
def Span.key (s : Span) : Nat ×ₗ Nat ×ₗ Nat ×ₗ Nat ×ₗ String :=
  toLex (s.group, toLex (s.offset, toLex (s.bytes, toLex (s.readable, s.name))))

/-- Not greater, as `std::ranges::sort` by `SpanLess` leaves the spans. -/
def Span.le (a b : Span) : Prop := a.key ≤ b.key

instance : DecidableRel Span.le := fun a b => inferInstanceAs (Decidable (a.key ≤ b.key))

structure Opener where
  layout : Layout
  resources : List Resource
  expertArrays : List ExpertArray
  totalChunks : Nat
  entries : Nat
  names : List String
  roles : List String
  families : List Family
  expertSeen : List (Nat × Nat)
  arraysByLayer : List (Nat × Nat × Nat)
  spans : List Span

def Opener.empty : Opener := ⟨⟨[], []⟩, [], [], 0, 0, [], [], [], [], [], []⟩

/-- The checks of the source that are not modelled: what they answer. -/
structure Rest where
  parseRepresentation : Value → Except Error Representation
  rowGeometryOf : Representation → Bool
  checkBindings : Opener → Except Error Unit
  checkTransformationsMatch : Opener → Except Error Unit
  checkShards : Opener → Except Error Unit

def Rest.representationAt (x : Rest) (v : Value) (i : Nat) : Except Error Representation :=
  match x.parseRepresentation v with
  | .ok rep => .ok rep
  | .error e => .error { e with item := i }

/-! ## The shard list -/

def shardPath (i : Nat) : String :=
  "data/" ++ String.ofList (List.replicate (5 - (toString i).utf8ByteSize) '0') ++ toString i ++
    ".safetensors"

def checkShard (m : Manifest) (out : List Shard) (s : Value) (i : Nat) :
    Except Error (List Shard) := do
  checkObject s ["path", "data_offset", "data_bytes", "header_sha256"] [] "shard keys" i
  let path ← checkStr (get s "path") isShardPath "shard.path" i
  require (path = shardPath i) .fileSet "shard path out of sequence" i
  let offset ← checkInt (get s "data_offset") fileAlignment maxInt "shard.data_offset" i
  require (offset % fileAlignment = 0) .bounds "shard alignment" i
  let bytes ← checkInt (get s "data_bytes") fileAlignment maxInt "shard.data_bytes" i
  require (bytes % fileAlignment = 0) .bounds "shard alignment" i
  let _ ← checkStr (get s "header_sha256") isHex "shard.header_sha256" i
  require (∃ f ∈ m.findFile path, f.role = .shard ∧ f.bytes.value = (offset + bytes) % 2 ^ 64)
    .fileSet "shard not listed or of the wrong size" i
  .ok (out ++ [⟨path, bytesOf offset, bytesOf bytes⟩])

def checkShardList (m : Manifest) (index : Value) (o : Opener) : Except Error Opener := do
  checkList (get index "shards") 1 "shards" noItem
  let out ← walk (checkShard m) [] 0 (get index "shards").items
  require ((m.files.filter fun f => f.role = .shard).length = out.length) .fileSet
    "listed shards and indexed shards differ" noItem
  .ok { o with layout := { o.layout with shards := out } }

/-! ## The groups -/

/-- The group loop's own state: each shard's cursor, the next chunk's number, the last
group's shard, the groups so far and the expert groups seen. -/
structure GroupWalk where
  cursor : List Nat
  nextChunk : Nat
  lastShard : Nat
  groups : List Group
  expertSeen : List (Nat × Nat)

def groupKind (v : Value) (gid : Nat) : Except Error GroupKind :=
  match v.string? with
  | some "table" => .ok .table
  | some "layer" => .ok .layer
  | some "expert" => .ok .expert
  | some "global" => .ok .global
  | some "head" => .ok .head
  | _ => .error ⟨.schema, "group kind", gid⟩

def groupLayer (kind : GroupKind) (v : Value) (gid : Nat) : Except Error (Option Nat) :=
  if kind = .layer ∨ kind = .expert then do
    let n ← checkInt v 0 maxLayer "group layer" gid
    .ok (some (toU32 n))
  else do
    require (v.isNull = true) .schema "group layer" gid
    .ok none

def groupExpert (kind : GroupKind) (v : Value) (gid : Nat) : Except Error (Option Nat) :=
  if kind = .expert then do
    let n ← checkInt v 0 maxExperts "group expert" gid
    .ok (some (toU32 n))
  else do
    require (v.isNull = true) .schema "group expert" gid
    .ok none

/-- `expert_seen_.emplace`: an expert group's layer and expert, once. -/
def emplaceExpert (seen : List (Nat × Nat)) (layer expert : Option Nat) (gid : Nat) :
    Except Error (List (Nat × Nat)) :=
  match expert with
  | none => .ok seen
  | some e => do
    require ((layer.getD 0, e) ∉ seen) .expertArray "duplicate expert group" gid
    .ok ((layer.getD 0, e) :: seen)

def checkGroup (shards : List Shard) (w : GroupWalk) (g : Value) (gid : Nat) :
    Except Error GroupWalk := do
  checkObject g ["kind", "layer", "expert", "shard", "offset", "stored_bytes", "used_bytes",
    "first_chunk"] [] "group keys" gid
  let kind ← groupKind (get g "kind") gid
  let layer ← groupLayer kind (get g "layer") gid
  let expert ← groupExpert kind (get g "expert") gid
  let seen ← emplaceExpert w.expertSeen layer expert gid
  let shard ← checkInt (get g "shard") 0 ((shards.length : Int) - 1) "group shard" gid
  require (¬ shard < w.lastShard) .bounds "group shard order" gid
  let stored ← checkInt (get g "stored_bytes") fileAlignment maxInt "group stored_bytes" gid
  let used ← checkInt (get g "used_bytes") 1 maxInt "group used_bytes" gid
  let offset ← checkInt (get g "offset") 0 maxInt "group offset" gid
  require (offset = w.cursor.getD shard 0 ∧ stored = alignUp used fileAlignment) .bounds
    "group offset or size" gid
  let first ← checkInt (get g "first_chunk") 0 maxInt "group first_chunk" gid
  require (first = w.nextChunk) .bounds "group chunk numbering" gid
  .ok
    { cursor := w.cursor.set shard (satAdd (w.cursor.getD shard 0) stored)
      nextChunk := satAdd w.nextChunk (chunksOf stored)
      lastShard := shard
      groups := w.groups ++ [⟨kind, layer, expert, toU32 shard, bytesOf offset, bytesOf used,
        bytesOf stored, first, 0⟩]
      expertSeen := seen }

def checkTiled (cursor : List Nat) (i : Nat) : List Shard → Except Error Unit
  | [] => .ok ()
  | s :: rest => do
    require (cursor.getD i 0 = s.dataBytes.value) .bounds "groups do not tile the shard" i
    checkTiled cursor (i + 1) rest

def GroupWalk.start (shards : List Shard) : GroupWalk :=
  ⟨List.replicate shards.length 0, 0, 0, [], []⟩

def checkGroups (index : Value) (o : Opener) : Except Error Opener := do
  checkList (get index "groups") 1 "groups" noItem
  let w ← walk (checkGroup o.layout.shards) (.start o.layout.shards) 0 (get index "groups").items
  checkTiled w.cursor 0 o.layout.shards
  .ok { o with
    layout := { o.layout with groups := w.groups }
    totalChunks := w.nextChunk
    expertSeen := w.expertSeen }

/-- `g.chunks`, set once the hash list is known to bound the count. -/
def Group.counted (g : Group) : Group := { g with chunks := toU32 (chunksOf g.stored.value) }

def checkHashes (i : Nat) : List Value → Except Error Unit
  | [] => .ok ()
  | h :: rest => do
    require (∃ s ∈ h.string?, isHex s = true) .schema "chunk_sha256" i
    checkHashes (i + 1) rest

def checkChunkHashes (index : Value) (o : Opener) : Except Error Opener := do
  let hashes := get index "chunk_sha256"
  checkList hashes 0 "chunk_sha256" noItem
  require (hashes.size = o.totalChunks) .schema "chunk_sha256 count differs from the chunks" noItem
  checkHashes 0 hashes.items
  .ok { o with layout := { o.layout with groups := o.layout.groups.map Group.counted } }

/-! ## The resources -/

/-- `Claim`: a name, once. -/
def claim (names : List String) (name : String) (item : Nat) : Except Error (List String) := do
  require (name ∉ names) .schema "duplicate name" item
  .ok (name :: names)

def roleStrings (i : Nat) : List Value → Except Error (List String)
  | [] => .ok []
  | v :: vs =>
    match v.string? with
    | none => .error ⟨.canonical, "alias roles must be sorted and unique", i⟩
    | some s => do
      let rest ← roleStrings i vs
      .ok (s :: rest)

def bindRoles (seen : List String) (i : Nat) : List String → Except Error (List String)
  | [] => .ok seen
  | role :: rest => do
    require (isName role = true ∧ role ≠ "__metadata__") .schema "bad role" i
    require (role ∉ seen) .schema "a role bound twice" i
    bindRoles (role :: seen) i rest

def checkResource (x : Rest) (o : Opener) (r : Value) (i : Nat) : Except Error Opener := do
  checkObject r ["name", "group", "offset", "bytes", "readable_bytes", "roles", "repr"] ["access"]
    "resource keys" i
  let name ← checkStr (get r "name") isName "resource.name" i
  require (name ≠ "__metadata__") .schema "reserved name" i
  let names ← claim o.names name i
  let gid ← checkInt (get r "group") 0 ((o.layout.groups.length : Int) - 1) "resource.group" i
  require (∀ g ∈ o.layout.groups[gid]?, g.kind ≠ .expert) .expertArray
    "a resource placed in an expert group" i
  let roles := get r "roles"
  checkList roles 1 "resource.roles" i
  require (∃ first ∈ roles.items.head?, isString first name = true) .schema
    "roles[0] must be the name" i
  require (¬ roles.size > 1 + maxAliases) .bounds "more alias roles than the cap" i
  let entries := o.entries + (roles.size - 1)
  require (¬ entries > maxEntries) .bounds "more entries than the cap" i
  let texts ← roleStrings i roles.items
  require (texts.tail.Pairwise (· < ·)) .canonical "alias roles must be sorted and unique" i
  let bound ← bindRoles o.roles i texts
  let access := r.find "access"
  require (∀ v ∈ access, isString v "rows" = true) .schema "access must be rows" i
  let rep ← x.representationAt (get r "repr") i
  let bytes ← checkInt (get r "bytes") 1 maxInt "resource.bytes" i
  require (bytes = rep.bytes) .repr "bytes differ from what the representation implies" i
  let readable ← checkInt (get r "readable_bytes") 1 maxInt "resource.readable_bytes" i
  require (readable = rep.readable) .repr
    "readable_bytes differ from the backend's over-read rule" i
  require (access.isSome = true → x.rowGeometryOf rep = true) .repr "a row table must be 2-D" i
  let offset ← checkInt (get r "offset") 0 maxInt "resource.offset" i
  .ok { o with
    names := names
    roles := bound
    entries := entries
    families := rep.family :: o.families
    resources := o.resources ++ [⟨name, texts, toU32 gid, bytesOf offset, bytesOf bytes,
      bytesOf readable, rep, access.isSome⟩]
    spans := o.spans ++ [⟨toU32 gid, offset, bytes, readable, name, containerViewOf rep⟩] }

def checkOrder (reason : String) (i : Nat) : List (Nat × Nat) → Except Error Unit
  | [] => .ok ()
  | [_] => .ok ()
  | a :: b :: rest => do
    require (a.1 < b.1 ∨ (a.1 = b.1 ∧ a.2 < b.2)) .canonical reason i
    checkOrder reason (i + 1) (b :: rest)

def checkResources (x : Rest) (index : Value) (o : Opener) : Except Error Opener := do
  let resources := get index "resources"
  let arrays := get index "expert_arrays"
  checkList resources 0 "resources" noItem
  checkList arrays 0 "expert_arrays" noItem
  require (¬ (o.layout.groups.length > maxEntries ∨ resources.size + arrays.size > maxEntries))
    .bounds "more entries than the cap" noItem
  let o ← walk (checkResource x) { o with entries := resources.size } 0 resources.items
  checkOrder "resources not in canonical order or duplicated" 1
    (o.resources.map fun r => (r.group, r.offset.value))
  .ok o

/-! ## The expert arrays -/

/-- The `count` groups from `first` on: expert groups of the layer, experts 0, 1, …, all of
one stored size. -/
def uniformGroups (groups : List Group) (layer first count : Nat) : Prop :=
  ∀ e < count, ∃ g ∈ groups[first + e]?, ∃ g₀ ∈ groups[first]?,
    g.kind = .expert ∧ g.layer = some layer ∧ g.expert = some e ∧ g.stored = g₀.stored

instance (groups : List Group) (layer first count : Nat) :
    Decidable (uniformGroups groups layer first count) := by
  unfold uniformGroups
  infer_instance

def sliceSpan (name : String) (first offset bytes readable : Nat) (view : ContainerView) (e : Nat) :
    Span :=
  ⟨toU32 (first + e), offset, bytes, readable, name ++ "#" ++ toString e, view⟩

def checkExpertArray (x : Rest) (m : Manifest) (o : Opener) (a : Value) (i : Nat) :
    Except Error Opener := do
  checkObject a ["name", "layer", "count", "first_group", "group_offset", "slice_bytes",
    "readable_bytes", "repr"] [] "expert array keys" i
  let name ← checkStr (get a "name") isName "expert_array.name" i
  require (name ≠ "__metadata__") .schema "reserved name" i
  let names ← claim o.names name i
  let layer ← checkInt (get a "layer") 0 maxLayer "expert_array.layer" i
  let count ← checkInt (get a "count") 1 maxExperts "expert_array.count" i
  require (¬ o.entries + count > maxEntries) .bounds
    "more resources and expert slices than the cap" i
  require (count = m.expertCount) .expertArray "count differs from model.expert_count" i
  let first ← checkInt (get a "first_group") 0 ((o.layout.groups.length : Int) - count)
    "expert_array.first_group" i
  let rep ← x.representationAt (get a "repr") i
  require (rep.family = .ggml ∧ rep.dims.length = 2) .expertArray
    "a slice must be a 2-D ggml matrix" i
  let slice ← checkInt (get a "slice_bytes") 1 maxInt "expert_array.slice_bytes" i
  require (slice = rep.bytes) .repr "slice sizes disagree with the representation" i
  let readable ← checkInt (get a "readable_bytes") 1 maxInt "expert_array.readable_bytes" i
  require (readable = rep.readable) .repr "slice sizes disagree with the representation" i
  require (uniformGroups o.layout.groups layer first count) .expertArray
    "groups are not uniform expert groups" i
  let offset ← checkInt (get a "group_offset") 0 maxInt "expert_array.group_offset" i
  .ok { o with
    names := names
    entries := o.entries + count
    families := .ggml :: o.families
    arraysByLayer := o.arraysByLayer ++ [(layer, first, count)]
    expertArrays := o.expertArrays ++ [⟨name, toU32 layer, toU32 count, toU32 first,
      bytesOf offset, bytesOf slice, bytesOf readable, rep⟩]
    spans := o.spans ++
      (List.range count).map (sliceSpan name first offset slice readable (containerViewOf rep)) }

def checkExpertArrays (x : Rest) (m : Manifest) (index : Value) (o : Opener) :
    Except Error Opener := do
  let o ← walk (checkExpertArray x m) o 0 (get index "expert_arrays").items
  checkOrder "expert_arrays not in canonical order or duplicated" 1
    (o.expertArrays.map fun a => (a.firstGroup, a.groupOffset.value))
  .ok o

/-! ## The placement -/

/-- One group's spans, from `last` on: each aligned, after the one before and inside the
group; the spans left over begin with another group's. -/
def placeSpans (g : Group) (gid : Nat) (last : Nat) : List Span → Except Error (Nat × List Span)
  | [] => .ok (last, [])
  | span :: rest =>
    if span.group ≠ gid then .ok (last, span :: rest)
    else do
      require (span.offset % memberAlignment = 0) .alignment
        "a resource off its member alignment" gid
      require (¬ span.offset < last) .overlap "readable ranges overlap" gid
      require (¬ (span.offset + span.readable) % 2 ^ 64 > g.stored.value) .bounds
        "a readable range outside its group" gid
      placeSpans g gid ((span.offset + span.readable) % 2 ^ 64) rest

def placeGroups (gid : Nat) : List Group → List Span → Except Error Unit
  | [], _ => .ok ()
  | g :: gs, spans => do
    require (∃ s ∈ spans.head?, s.group = gid) .bounds "an empty group" gid
    let (last, rest) ← placeSpans g gid 0 spans
    require (last = g.used.value) .bounds "used_bytes is not the last readable end" gid
    placeGroups (gid + 1) gs rest

def checkPlacement (o : Opener) : Except Error Opener := do
  let spans := o.spans.insertionSort Span.le
  placeGroups 0 o.layout.groups spans
  .ok { o with spans := spans }

/-! ## `Open` -/

def checkHeader (index : Value) : Except Error Unit := do
  checkObject index ["format", "format_version", "file_alignment", "chunk_bytes",
    "member_alignment", "shards", "groups", "resources", "expert_arrays", "chunk_sha256"] []
    "index keys" noItem
  require (isString (get index "format") "jitllm-index" = true ∧
      isInt (get index "format_version") 0 = true ∧
      isInt (get index "file_alignment") fileAlignment = true ∧
      isInt (get index "chunk_bytes") chunkBytes = true ∧
      isInt (get index "member_alignment") memberAlignment = true)
    .unsupportedVersion "index header differs from the profile" noItem

def checkIndex (x : Rest) (m : Manifest) (index : Value) : Except Error Opener := do
  checkHeader index
  let o ← checkShardList m index .empty
  let o ← checkGroups index o
  let o ← checkChunkHashes index o
  let o ← checkResources x index o
  let o ← checkExpertArrays x m index o
  x.checkBindings o
  let o ← checkPlacement o
  x.checkTransformationsMatch o
  .ok o

structure Opened where
  layout : Layout
  resources : List Resource
  expertArrays : List ExpertArray

/-- `Artifact::Open` from the parsed index on. -/
def openIndex (x : Rest) (m : Manifest) (d : Document) : Except Error Opened := do
  let o ← checkIndex x m d.root
  x.checkShards o
  .ok ⟨o.layout, o.resources, o.expertArrays⟩

structure Placement where
  group : Nat
  offset : Bytes
  bytes : Bytes
  readable : Bytes
  closure : Closure

def Opened.resourcePlacement (a : Opened) (resource : Nat) : Except Error Placement :=
  match a.resources[resource]? with
  | none => .error ⟨.bounds, "no such resource", resource⟩
  | some r => do
    let closure ← closureOf a.layout r.group r.offset r.readable
    .ok ⟨r.group, r.offset, r.bytes, r.readable, closure⟩

def Opened.slicePlacement (a : Opened) (array expert : Nat) : Except Error Placement :=
  match a.expertArrays[array]? with
  | none => .error ⟨.bounds, "no such expert array", array⟩
  | some arr =>
    if expert ≥ arr.count then .error ⟨.bounds, "no such expert", expert⟩
    else do
      let group := toU32 (arr.firstGroup + expert)
      let closure ← closureOf a.layout group arr.groupOffset arr.readable
      .ok ⟨group, arr.groupOffset, arr.sliceBytes, arr.readable, closure⟩

end JitLlm.Artifact
