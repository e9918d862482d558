import JitLlm.Artifact.Representation
import JitLlm.Artifact.Sound

/-!
# `artifact/artifact.cc` — the header a shard must have

`ExpectedHeader` writes the one safetensors header the index implies for a shard: an entry for each
resource and each expert slice, in the order of their offsets, and a pad for each gap, then blanks
up to the data section. What reads a shard's file and compares it is `Files`.
-/

namespace JitLlm.Artifact

open Base

/-! ## Names -/

def isCanonicalNumber (cs : List Char) (maxDigits : Nat) : Bool :=
  !(cs.isEmpty || cs.length > maxDigits || (cs.length > 1 && cs.head? == some '0')) &&
    cs.all isDigit

/-- `IsSliceName`: a name, the last `#`, a number. -/
def isSliceName (s : String) : Bool :=
  let number := (s.toList.reverse.takeWhile (· ≠ '#')).reverse
  let name := s.toList.take (s.toList.length - number.length - 1)
  s.toList.contains '#' && isName (String.ofList name) && isCanonicalNumber number 7

def isPadName (s : String) : Bool :=
  s.toList.take 5 == "~pad.".toList && isCanonicalNumber (s.toList.drop 5) 10

/-! ## Entries -/

def ascii (s : String) : List UInt8 := s.toList.map fun c => UInt8.ofNat c.toNat

/-- `kShardPrefix`. -/
def shardLead : String :=
  "\x7b\"__metadata__\":\x7b\"format\":\"jitllm-shard\",\"format_version\":\"0\"\x7d"

def maxShardHeader : Nat := 100000000

/-- A container entry; its data is `[start, stop)` of the data section. -/
structure Entry where
  name : String
  dtype : String
  shape : List Nat
  start : Nat
  stop : Nat

/-- `piece`. -/
def entryText (e : Entry) : List UInt8 :=
  ascii (",\"" ++ e.name ++ "\":\x7b\"dtype\":\"" ++ e.dtype ++ "\",\"shape\":[" ++
    ",".intercalate (e.shape.map toString) ++ "],\"data_offsets\":[" ++ toString e.start ++ "," ++
    toString e.stop ++ "]\x7d")

/-- What `ExpectedHeader` carries along. -/
structure HeaderText where
  text : List UInt8
  size : Nat
  pads : Nat

/-- `add`. -/
def addEntry (shard : Nat) (h : HeaderText) (e : Entry) : Except Error HeaderText :=
  if !isName e.name && !isSliceName e.name && !isPadName e.name then
    .error ⟨.schema, "an unrepresentable entry name", shard⟩
  else if h.size + (entryText e).length > maxShardHeader then
    .error ⟨.container, "shard header over the upstream cap", shard⟩
  else .ok { h with text := h.text ++ entryText e, size := h.size + (entryText e).length }

def padName (k : Nat) : String := "~pad." ++ toString k

/-- `pad`, if there is a gap. -/
def padTo (shard : Nat) (h : HeaderText) (cursor at_ : Nat) : Except Error HeaderText :=
  if at_ > cursor then
    addEntry shard { h with pads := h.pads + 1 }
      ⟨padName h.pads, "U8", [at_ - cursor], cursor, at_⟩
  else .ok h

def addSpans (shard : Nat) (g : Group) (gid : Nat) (h : HeaderText) (cursor : Nat) :
    List Span → Except Error (HeaderText × Nat)
  | [] => .ok (h, cursor)
  | s :: rest =>
    if s.group ≠ gid then .ok (h, cursor)
    else do
      let at_ := (g.offset.value + s.offset) % 2 ^ 64
      let stop := (at_ + s.bytes) % 2 ^ 64
      let h ← padTo shard h cursor at_
      let h ← addEntry shard h ⟨s.name, s.view.dtype, s.view.shape, at_, stop⟩
      addSpans shard g gid h stop rest

def addGroups (spans : List Span) (shard : Nat) (h : HeaderText) (gid : Nat) :
    List Group → Except Error HeaderText
  | [] => .ok h
  | g :: gs =>
    if g.shard ≠ shard then .ok h
    else do
      let first := spans.dropWhile fun s => s.group < gid
      let (h, cursor) ← addSpans shard g gid h g.offset.value first
      let h ← padTo shard h cursor ((g.offset.value + g.stored.value) % 2 ^ 64)
      addGroups spans shard h (gid + 1) gs

def littleEndian (n : Nat) : List UInt8 := (List.range 8).map fun k => UInt8.ofNat (n >>> (8 * k))

def expectedHeader (o : Opener) (shard : Nat) : Except Error (List UInt8) := do
  let groups := o.layout.groups
  let first := groups.findIdx fun g => ¬ g.shard < shard
  let lead := List.replicate 8 0 ++ ascii shardLead
  let h ← addGroups o.spans shard ⟨lead, lead.length - 8 + 1, 0⟩ first (groups.drop first)
  let text := h.text ++ ascii "\x7d"
  let dataOffset := alignUp text.length fileAlignment
  if dataOffset - 8 > maxShardHeader then
    .error ⟨.container, "shard header over the upstream cap", shard⟩
  else
    .ok (littleEndian (dataOffset - 8) ++ text.drop 8 ++
      List.replicate (dataOffset - text.length) 0x20)

/-! ## The shards -/

/-- What opens a shard's file, reads it up to its data section and compares that with the header,
    and with its digest. -/
abbrev Files := Nat → Shard → List UInt8 → Except Error Unit

def checkShardsFrom (files : Files) (o : Opener) (i : Nat) : List Shard → Except Error Unit
  | [] => .ok ()
  | s :: rest => do
    let expected ← expectedHeader o i
    require (expected.length = s.dataOffset.value) .container
      "the data offset is not the canonical one" i
    files i s expected
    checkShardsFrom files o (i + 1) rest

def checkShards (files : Files) (o : Opener) : Except Error Unit :=
  checkShardsFrom files o 0 o.layout.shards

def Rest.whole (x : Rest) (files : Files) : Rest :=
  { x with
    parseRepresentation := Artifact.parseRepresentation
    checkShards := Artifact.checkShards files }

end JitLlm.Artifact
