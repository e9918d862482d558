import JitLlm.Artifact.Layout
import JitLlm.Lib.SortUnique
import Mathlib.Data.List.Chain
import Mathlib.Data.Prod.Lex

/-!
# `artifact/layout.cc` — `PlanReads`

The chunks asked for are sorted, each once, and read in that order: a chunk that begins where the
last run ends joins it within the limits, and any other starts a run. A plan of the chunks seen so
far (`Plan`) is what the loop keeps.
-/

namespace JitLlm.Artifact

open Base Lib List

/-- `ChunkKey`'s order: by group, then by chunk. -/
instance : LinearOrder ChunkKey :=
  LinearOrder.lift' (fun k => toLex (k.group, k.chunk)) fun a b h => by
    obtain ⟨g, c⟩ := a
    obtain ⟨g', c'⟩ := b
    have h : (g, c) = (g', c') := h
    simpa using h

structure ReadSegment where
  chunk : ChunkKey
  length : Bytes
  groupOffset : Bytes

structure ReadRun where
  shard : Nat
  fileOffset : Bytes
  length : Bytes
  segments : List ReadSegment

structure ReadLimits where
  maxRun : Bytes
  maxSegments : Nat

def startRun (range : ChunkRange) (segment : ReadSegment) : ReadRun :=
  ⟨range.shard, range.fileOffset, range.length, [segment]⟩

def joinRun (limits : ReadLimits) (run : ReadRun) (range : ChunkRange) (segment : ReadSegment) :
    Option ReadRun :=
  match run.length.plus range.length with
  | none => none
  | some grown =>
    if run.shard = range.shard ∧ run.fileOffset.plus run.length = some range.fileOffset ∧
        grown.value ≤ limits.maxRun.value ∧ run.segments.length < limits.maxSegments then
      some { run with length := grown, segments := run.segments ++ [segment] }
    else none

def addChunk (limits : ReadLimits) (runs : List ReadRun) (range : ChunkRange)
    (segment : ReadSegment) : List ReadRun :=
  match runs.getLast? with
  | none => [startRun range segment]
  | some run =>
    match joinRun limits run range segment with
    | some run' => runs.dropLast ++ [run']
    | none => runs ++ [startRun range segment]

/-- `PlanReads`'s loop body. -/
def planChunk (l : Layout) (resident : List ChunkKey) (limits : ReadLimits) (runs : List ReadRun)
    (key : ChunkKey) : Except Error (List ReadRun) :=
  if resident.contains key then
    .error ⟨.state, "a chunk both missing and resident", key.group⟩
  else
    match chunkRangeOf l key with
    | .error e => .error e
    | .ok range =>
      .ok (addChunk limits runs range ⟨key, range.length, bytesOf (key.chunk * chunkBytes)⟩)

def planReads (l : Layout) (missing resident : List ChunkKey) (limits : ReadLimits) :
    Except Error (List ReadRun) :=
  (sortUnique missing).foldlM (planChunk l resident limits) []

/-! ## Plans -/

/-- The segments lie in the shard's file one after another from `offset` on. -/
def LaidOut (l : Layout) (shard : Nat) : Nat → List ReadSegment → Prop
  | _, [] => True
  | offset, segment :: rest =>
    (∃ range, chunkRangeOf l segment.chunk = .ok range ∧ range.shard = shard ∧
      range.fileOffset.value = offset ∧ range.length = segment.length) ∧
    segment.groupOffset = bytesOf (segment.chunk.chunk * chunkBytes) ∧
    LaidOut l shard (offset + segment.length.value) rest

/-- A run: its chunks' ranges, one after another, and no more bytes than theirs; within the
    limits, or of one chunk. -/
structure RunOf (l : Layout) (limits : ReadLimits) (run : ReadRun) : Prop where
  nonempty : run.segments ≠ []
  laid : LaidOut l run.shard run.fileOffset.value run.segments
  length : run.length.value = (run.segments.map fun segment => segment.length.value).sum
  bytes : run.length.value ≤ limits.maxRun.value ∨ run.segments.length = 1
  segments : run.segments.length ≤ max 1 limits.maxSegments

def Mergeable (limits : ReadLimits) (a b : ReadRun) : Prop :=
  a.shard = b.shard ∧ a.fileOffset.value + a.length.value = b.fileOffset.value ∧
    a.length.value + b.length.value ≤ limits.maxRun.value ∧
    a.segments.length + b.segments.length ≤ limits.maxSegments

/-- The runs read exactly these chunks in this order, and no two neighbours could be one. -/
structure Plan (l : Layout) (limits : ReadLimits) (keys : List ChunkKey) (runs : List ReadRun) :
    Prop where
  keys : runs.flatMap (fun run => run.segments.map ReadSegment.chunk) = keys
  run : ∀ run ∈ runs, RunOf l limits run
  apart : runs.IsChain fun a b => ¬Mergeable limits a b

variable {l : Layout} {limits : ReadLimits} {range : ChunkRange} {segment : ReadSegment}
    {key : ChunkKey} {run run' : ReadRun} {runs : List ReadRun} {keys : List ChunkKey}

theorem laid_append {shard : Nat} : ∀ {offset : Nat} {a b : List ReadSegment},
    LaidOut l shard offset a → LaidOut l shard (offset + (a.map fun s => s.length.value).sum) b →
    LaidOut l shard offset (a ++ b)
  | _, [], _, _, hb => by simpa using hb
  | offset, s :: a, b, ⟨hs, hat, ha⟩, hb => by
    refine ⟨hs, hat, laid_append ha ?_⟩
    rw [map_cons, sum_cons, ← Nat.add_assoc] at hb
    exact hb

structure SegmentOf (l : Layout) (key : ChunkKey) (range : ChunkRange) (segment : ReadSegment) :
    Prop where
  chunk : segment.chunk = key
  found : chunkRangeOf l key = .ok range
  length : range.length = segment.length
  groupOffset : segment.groupOffset = bytesOf (key.chunk * chunkBytes)

theorem SegmentOf.laid (h : SegmentOf l key range segment) :
    LaidOut l range.shard range.fileOffset.value [segment] :=
  ⟨⟨range, h.chunk ▸ h.found, rfl, rfl, h.length⟩, h.chunk ▸ h.groupOffset, trivial⟩

theorem SegmentOf.startRun (h : SegmentOf l key range segment) :
    RunOf l limits (startRun range segment) where
  nonempty := cons_ne_nil _ _
  laid := h.laid
  length := by
    show range.length.value = _
    rw [h.length]
    simp [Artifact.startRun]
  bytes := .inr rfl
  segments := Nat.le_max_left 1 _

theorem joinRun_some (h : joinRun limits run range segment = some run') :
    run'.shard = run.shard ∧ run'.fileOffset = run.fileOffset ∧
      run'.segments = run.segments ++ [segment] ∧
      run'.length.value = run.length.value + range.length.value ∧ run.shard = range.shard ∧
      run.fileOffset.value + run.length.value = range.fileOffset.value ∧
      run'.length.value ≤ limits.maxRun.value ∧ run.segments.length < limits.maxSegments := by
  unfold joinRun at h
  split at h
  · cases h
  next grown hgrown =>
  split at h
  · next hc =>
    cases h
    exact ⟨rfl, rfl, rfl, Bytes.plus_eq_some.mp hgrown, hc.1, (Bytes.plus_eq_some.mp hc.2.1).symm,
      hc.2.2.1, hc.2.2.2⟩
  · cases h

theorem joinRun_none (h : joinRun limits run range segment = none) :
    ¬Mergeable limits run (startRun range segment) := by
  rintro ⟨h1, h2, h3, h4⟩
  have hseg : run.segments.length + 1 ≤ limits.maxSegments := h4
  have hbound := limits.maxRun.bound
  unfold joinRun at h
  split at h
  · next hnone =>
    have hover := Bytes.plus_eq_none.mp hnone
    have hfit : run.length.value + range.length.value ≤ limits.maxRun.value := h3
    omega
  next grown hgrown =>
  have hvalue := Bytes.plus_eq_some.mp hgrown
  split at h
  · cases h
  next hc =>
  refine hc ⟨h1, Bytes.plus_eq_some.mpr h2.symm, ?_, hseg⟩
  rw [hvalue]
  exact h3

theorem SegmentOf.joinRun (h : SegmentOf l key range segment)
    (hrun : RunOf l limits run) (hjoin : joinRun limits run range segment = some run') :
    RunOf l limits run' := by
  obtain ⟨h1, h2, h3, h4, h5, h6, h7, h8⟩ := joinRun_some hjoin
  refine ⟨?_, ?_, ?_, .inl h7, ?_⟩
  · rw [h3]
    exact append_ne_nil_of_right_ne_nil _ (cons_ne_nil _ _)
  · rw [h1, h2, h3]
    refine laid_append hrun.laid ?_
    rw [← hrun.length, h6, h5]
    exact h.laid
  · rw [h3, h4, map_append, sum_append, ← hrun.length, h.length]
    simp
  rw [h3, length_append, length_singleton]
  exact Nat.le_trans h8 (Nat.le_max_right 1 _)

theorem joinRun_apart {a : ReadRun} (h : ¬Mergeable limits a run)
    (hjoin : joinRun limits run range segment = some run') : ¬Mergeable limits a run' := by
  obtain ⟨h1, h2, h3, h4, -⟩ := joinRun_some hjoin
  rintro ⟨m1, m2, m3, m4⟩
  rw [h3, length_append, length_singleton] at m4
  rw [h1] at m1
  rw [h2] at m2
  exact h ⟨m1, m2, by omega, by omega⟩

/-! ## The loop -/

theorem Plan.addChunk (h : Plan l limits keys runs) (hs : SegmentOf l key range segment) :
    Plan l limits (keys ++ [key]) (addChunk limits runs range segment) := by
  have hstart : Plan l limits (keys ++ [key]) (runs ++ [startRun range segment]) ↔
      runs.IsChain (fun a b => ¬Mergeable limits a b) ∧
        ∀ run ∈ runs.getLast?, ¬Mergeable limits run (startRun range segment) := by
    constructor
    · rintro ⟨-, -, hapart⟩
      obtain ⟨h1, -, h3⟩ := isChain_append.mp hapart
      exact ⟨h1, fun run hrun => h3 run hrun _ rfl⟩
    rintro ⟨hchain, hlast⟩
    refine ⟨?_, fun run hmem => ?_, ?_⟩
    · rw [flatMap_append, h.keys, flatMap_singleton]
      exact congrArg (keys ++ [·]) hs.chunk
    · rcases mem_append.mp hmem with hmem | hmem
      · exact h.run run hmem
      rw [mem_singleton.mp hmem]
      exact hs.startRun
    refine isChain_append.mpr ⟨hchain, .singleton _, fun run hrun b hb => ?_⟩
    cases hb
    exact hlast run hrun
  unfold Artifact.addChunk
  rcases eq_nil_or_concat' runs with rfl | ⟨before, run, rfl⟩
  · exact hstart.mpr ⟨.nil, nofun⟩
  rw [getLast?_concat]
  simp only
  cases hjoin : joinRun limits run range segment with
  | none =>
    refine hstart.mpr ⟨h.apart, fun run' hrun' => ?_⟩
    rw [getLast?_concat] at hrun'
    cases hrun'
    exact joinRun_none hjoin
  | some =>
    obtain ⟨-, -, h3, -⟩ := joinRun_some hjoin
    rw [dropLast_concat]
    refine ⟨?_, fun r hmem => ?_, ?_⟩
    · rw [← h.keys, flatMap_append, flatMap_append, flatMap_singleton,
        flatMap_singleton, h3, map_append, append_assoc]
      exact congrArg (fun k => _ ++ (_ ++ [k])) hs.chunk
    · rcases mem_append.mp hmem with hmem | hmem
      · exact h.run r (mem_append_left _ hmem)
      rw [mem_singleton.mp hmem]
      exact hs.joinRun (h.run run (mem_append_right _ (mem_singleton.mpr rfl))) hjoin
    obtain ⟨h1, -, hlast⟩ := isChain_append.mp h.apart
    refine isChain_append.mpr ⟨h1, .singleton _, fun a ha b hb => ?_⟩
    cases hb
    exact joinRun_apart (hlast a ha run rfl) hjoin

def Refused (l : Layout) (resident : List ChunkKey) (key : ChunkKey) : Prop :=
  key ∈ resident ∨ ∃ e, chunkRangeOf l key = .error e

theorem Plan.planChunk (h : Plan l limits keys runs) (resident : List ChunkKey) (key : ChunkKey) :
    match planChunk l resident limits runs key with
    | .ok runs' => Plan l limits (keys ++ [key]) runs' ∧ ¬Refused l resident key
    | .error _ => Refused l resident key := by
  unfold Artifact.planChunk
  by_cases hres : resident.contains key
  · rw [if_pos hres]
    exact .inl (by simpa using hres)
  rw [if_neg hres]
  rcases hrange : chunkRangeOf l key with e | _
  · exact .inr ⟨e, hrange⟩
  refine ⟨h.addChunk ⟨rfl, hrange, rfl, rfl⟩, ?_⟩
  rintro (hmem | ⟨e, he⟩)
  · exact hres (by simpa using hmem)
  rw [hrange] at he
  cases he

theorem Plan.loop (h : Plan l limits keys runs) (resident rest : List ChunkKey) :
    match rest.foldlM (Artifact.planChunk l resident limits) runs with
    | .ok runs' => Plan l limits (keys ++ rest) runs' ∧ ∀ key ∈ rest, ¬Refused l resident key
    | .error _ => ∃ key ∈ rest, Refused l resident key := by
  induction rest generalizing keys runs with
  | nil =>
    rw [append_nil]
    exact ⟨h, nofun⟩
  | cons key rest ih =>
    rw [foldlM_cons]
    have hstep := h.planChunk resident key
    rcases hchunk : Artifact.planChunk l resident limits runs key with _ | runs'
    · rw [hchunk] at hstep
      exact ⟨key, mem_cons_self, hstep⟩
    rw [hchunk] at hstep
    have hrest := ih hstep.1
    show match rest.foldlM (Artifact.planChunk l resident limits) runs' with
      | .ok runs' => _
      | .error _ => _
    cases hfold : rest.foldlM (Artifact.planChunk l resident limits) runs' with
    | error =>
      rw [hfold] at hrest
      obtain ⟨k, hk, href⟩ := hrest
      exact ⟨k, mem_cons_of_mem _ hk, href⟩
    | ok =>
      rw [hfold] at hrest
      refine ⟨by simpa using hrest.1, fun k hk => ?_⟩
      rcases mem_cons.mp hk with rfl | hk
      · exact hstep.2
      · exact hrest.2 k hk

/-- A plan reads the chunks asked for, each once and in order, when none of them is resident and
    each is in the layout; and only then is there one. -/
theorem planReads_exact (l : Layout) (missing resident : List ChunkKey) (limits : ReadLimits) :
    match planReads l missing resident limits with
    | .ok runs => ∃ keys : List ChunkKey, keys.Pairwise (· < ·) ∧
        (∀ key, key ∈ keys ↔ key ∈ missing ∧ key ∉ resident) ∧ Plan l limits keys runs
    | .error _ => ∃ key ∈ missing, key ∈ resident ∨ ∃ e, chunkRangeOf l key = .error e := by
  have hempty : Plan l limits [] [] := ⟨rfl, nofun, .nil⟩
  have hloop := hempty.loop resident (sortUnique missing)
  unfold planReads
  cases hfold : (sortUnique missing).foldlM (planChunk l resident limits) [] with
  | error =>
    rw [hfold] at hloop
    obtain ⟨key, hmem, href⟩ := hloop
    exact ⟨key, mem_sortUnique.mp hmem, href⟩
  | ok =>
    rw [hfold] at hloop
    obtain ⟨hplan, hnone⟩ := hloop
    refine ⟨_, sortUnique_sorted missing, fun key => ?_, hplan⟩
    constructor
    · intro hmem
      exact ⟨mem_sortUnique.mp hmem, fun hres => hnone key hmem (.inl hres)⟩
    · exact fun hmem => mem_sortUnique.mpr hmem.1

end JitLlm.Artifact
