import Mathlib.Data.List.Basic
import Mathlib.Data.List.TakeDrop

/-!
# `runtime/serving.cc` — a model's conversation

`Llm`: the tokens the device state has seen, beside the state itself. The model behind it
(the chunk, the speculative step, the settling of a pending restore or commit, the clearing,
and the copies of the state to and from host memory) is a `Runner` over a device state of
any type; a failed call of it may leave the state as anything.

Wall-clock times (`longest`, `first_step`, `decode_seconds`) are left out: nothing reads them.
-/

namespace JitLlm.Runtime

/-- `kPrefillRowTile` and `kPrefillTiledFrom`. -/
def kPrefillRowTile : Nat := 8
def kPrefillTiledFrom : Nat := 1024

structure PrefillRun where
  stop : Nat
  chunks : Nat
  stopped : Bool
deriving DecidableEq

/-- The rows of the next chunk: whole tiles from `kPrefillTiledFrom` on. -/
def chunkRows (rows left : Nat) : Nat :=
  let n := min rows left
  if n ≥ kPrefillTiledFrom then n - n % kPrefillRowTile else n

theorem chunkRows_pos {rows left : Nat} (hrows : 0 < rows) (hleft : 0 < left) :
    0 < chunkRows rows left := by
  unfold chunkRows kPrefillTiledFrom kPrefillRowTile
  dsimp only
  split <;> omega

theorem chunkRows_le (rows left : Nat) : chunkRows rows left ≤ left := by
  unfold chunkRows
  dsimp only
  split <;> omega

/-- `go_on`'s answer, where it is given. -/
def goesOn (goOn : Option (Nat → Nat → Bool)) (asked rows : Nat) : Bool :=
  match goOn with
  | some goOn => goOn asked rows
  | none => true

/-- The loop of `RunPrefillChunks`; `chunk` changes `s`, and `goOn` is asked its `chunks`-th
    time with the rows. -/
def prefillChunks {σ : Type} (rows stop : Nat) (hrows : 0 < rows)
    (chunk : σ → Nat → Nat → Except String Unit × σ) (goOn : Option (Nat → Nat → Bool))
    (s : σ) (run : PrefillRun) : Except String PrefillRun × σ :=
  if hlt : run.stop < stop then
    let n := chunkRows rows (stop - run.stop)
    if goesOn goOn run.chunks n = false then
      (.ok { run with stopped := true }, s)
    else
      match chunk s run.stop n with
      | (.error e, s') => (.error s!"the chunk at {run.stop}: {e}", s')
      | (.ok (), s') =>
        have : 0 < chunkRows rows (stop - run.stop) := chunkRows_pos hrows (Nat.sub_pos_of_lt hlt)
        prefillChunks rows stop hrows chunk goOn s'
          { run with stop := run.stop + n, chunks := run.chunks + 1 }
  else (.ok run, s)
termination_by stop - run.stop

def runPrefillChunks {σ : Type} (start stop rows : Nat)
    (chunk : σ → Nat → Nat → Except String Unit × σ) (goOn : Option (Nat → Nat → Bool)) (s : σ) :
    Except String PrefillRun × σ :=
  let run : PrefillRun := { stop := start, chunks := 0, stopped := false }
  if hrows : 0 < rows then prefillChunks rows stop hrows chunk goOn s run
  else if start < stop then (.error "a prefill chunk of 0 rows", s)
  else (.ok run, s)

/-- What a speculative step keeps: the accepted drafts and the token after them, each kept
    row's logits, and how many drafts there were. -/
structure Kept (F : Type) where
  accepted : List Int
  next : Int
  logits : List (List F)
  drafted : Nat

/-- The model behind an `Llm`, over a device state `σ`; `α` and `β` are the bytes of the
    target's and the drafter's state. -/
structure Runner (F S σ α β : Type) where
  runChunk : σ → List Int → Nat → Bool → Except String (List F) × σ
  specStep : Option S → Nat → σ → List Int → Nat → Nat → Except String (Kept F) × σ
  settle : σ → Except String Unit × σ
  clearState : σ → Except String Unit × σ
  -- `node_->Copy` of the target's and the drafter's state, out and in.
  drafterBytes : Nat
  saveTarget : σ → Except String α × σ
  saveDrafter : σ → Except String β × σ
  loadTarget : σ → α → Except String Unit × σ
  loadDrafter : σ → β → Except String Unit × σ
  cursor : σ → Nat
  setCursor : σ → Nat → σ
  -- `Choose`: `engine::Argmax`, or `execution::Sample` under a sampling and a seed.
  choose : Option S → Nat → List F → Nat → Except String Int
  -- Whether a sampling's temperature is above 0.
  samples : S → Bool

/-- What an `Llm` is made with. -/
structure Config where
  name : String
  context : Nat
  maxRows : Nat
  speculate : Bool
  stops : List Int

structure GenerateOptions (S : Type) where
  maxTokens : Nat := 256
  stop : Bool := true
  keepLogits : Bool := false
  sampling : Option S := none
  seed : Nat := 0
  -- The callback, by how often it was called before.
  onTokens : Option (Nat → List Int → Bool) := none

structure Generation (F : Type) where
  tokens : List Int := []
  logits : List (List F) := []
  stopped : Bool := false
  cancelled : Bool := false
  drafted : Nat := 0
  accepted : Nat := 0
  steps : Nat := 0

/-- The conversation of an `Llm`. -/
structure Llm where
  history : List Int := []
  needsClear : Bool := false
  savedHistory : List Int := []
  savedCursor : Nat := 0
deriving DecidableEq

namespace Llm

variable {F S σ α β : Type} (x : Config) (m : Runner F S σ α β) {options : GenerateOptions S}

def clear (l : Llm) (s : σ) : Except String Unit × Llm × σ :=
  match m.clearState s with
  | (.error e, s) => (.error e, l, s)
  | (.ok (), s) => (.ok (), { l with history := [], needsClear := false }, s)

def forget (l : Llm) : Llm := { l with history := [], needsClear := true }

def prefillChunk (all : List Int) (s : σ × List F) (at_ n : Nat) : Except String Unit × σ × List F :=
  match m.runChunk s.1 (all.take (at_ + n)) at_ x.speculate with
  | (.error e, s') => (.error e, s', s.2)
  | (.ok row, s') => (.ok (), s', row)

/-- `Prefill` once a needed clear is done: the run and the last row's logits. -/
def prefillCleared (l : Llm) (s : σ) (tokens : List Int) (goOn : Option (Nat → Nat → Bool)) :
    Except String (PrefillRun × List F) × Llm × σ :=
  if tokens.isEmpty then (.error "nothing to prefill", l, s)
  else
    let all := l.history ++ tokens
    if all.length ≥ x.context then
      (.error s!"{all.length} tokens do not fit {x.name}'s context of {x.context}", l, s)
    else
      match runPrefillChunks l.history.length all.length x.maxRows (prefillChunk x m all) goOn
          (s, []) with
      | (.error e, s, _) =>
        (.error s!"{x.name}'s prefill: {e}", { l with needsClear := true, history := [] }, s)
      | (.ok ran, s, last) =>
        -- Stopped between chunks, the history is the chunks that ran, and there are no
        -- logits to generate from.
        (.ok (ran, if ran.stopped then [] else last), { l with history := all.take ran.stop }, s)

def prefill (l : Llm) (s : σ) (tokens : List Int) (goOn : Option (Nat → Nat → Bool)) :
    Except String (PrefillRun × List F) × Llm × σ :=
  if l.needsClear then
    match clear m l s with
    | (.error e, l, s) => (.error e, l, s)
    | (.ok (), l, s) => prefillCleared x m l s tokens goOn
  else prefillCleared x m l s tokens goOn

def isStop (options : GenerateOptions S) (token : Int) : Bool :=
  options.stop && x.stops.contains token

/-- How many of the tokens so far `report` shows: a stop token is left out. -/
def visible (options : GenerateOptions S) (out : Generation F) : Nat :=
  let shown := min out.tokens.length options.maxTokens
  if out.stopped && shown == out.tokens.length && decide (0 < shown) then shown - 1 else shown

/-- `report`, called `calls` times before: whether to go on, and what is reported then. -/
def report (options : GenerateOptions S) (out : Generation F) (calls reported : Nat) : Bool × Nat :=
  match options.onTokens with
  | none => (true, reported)
  | some onTokens =>
    let shown := visible options out
    (onTokens calls ((out.tokens.drop reported).take (shown - reported)), shown)

def pushKept (options : GenerateOptions S) (out : Generation F) : List Int → Generation F
  | [] => out
  | token :: rest =>
    let out := { out with tokens := out.tokens ++ [token] }
    if isStop x options token then { out with stopped := true }
    else pushKept options out rest

theorem pushKept_tokens (options : GenerateOptions S) : ∀ (kept : List Int) (out : Generation F),
      out.tokens.length ≤ (pushKept x options out kept).tokens.length := by
  intro kept
  induction kept with
  | nil =>
    intro out
    exact Nat.le_refl _
  | cons token rest ih =>
    intro out
    unfold pushKept
    split
    · simp
    refine Nat.le_trans ?_ (ih _)
    simp

theorem pushKept_grows (options : GenerateOptions S) (token : Int) (rest : List Int)
    (out : Generation F) :
    out.tokens.length < (pushKept x options out (token :: rest)).tokens.length := by
  unfold pushKept
  split
  · simp
  refine Nat.lt_of_lt_of_le ?_ (pushKept_tokens x options rest _)
  simp

/-- What a step of the decode loop gives: the kept tokens, never none, and the generation
    with the step's logits and counts. -/
structure Stepped (F : Type) where
  accepted : List Int
  next : Int
  out : Generation F

def Stepped.kept (r : Stepped F) : List Int := r.accepted ++ [r.next]

/-- One step of the decode loop: `SpecStep`, or a chunk of one row and its choice. -/
def decodeStep (options : GenerateOptions S) (sampling : Option S) (s : σ) (out : Generation F)
    (all : List Int) (pos : Nat) : Except String (Stepped F) × σ :=
  if x.speculate then
    match m.specStep sampling options.seed s all pos (options.maxTokens - out.tokens.length) with
    | (.error e, s) => (.error e, s)
    | (.ok kept, s) =>
      (.ok { accepted := kept.accepted, next := kept.next, out := { out with
          logits := if options.keepLogits then out.logits ++ kept.logits else out.logits
          drafted := out.drafted + kept.drafted
          accepted := out.accepted + kept.accepted.length } }, s)
  else
    match m.runChunk s all pos false with
    | (.error e, s) => (.error e, s)
    | (.ok row, s) =>
      match m.choose sampling options.seed row (pos + 1) with
      | .error e => (.error e, s)
      | .ok next =>
        (.ok { accepted := [], next, out := { out with
            logits := if options.keepLogits then out.logits ++ [row] else out.logits } }, s)

theorem decodeStep_tokens {sampling : Option S} {s s' : σ} {out : Generation F} {all : List Int}
    {pos : Nat} {r : Stepped F} (h : decodeStep x m options sampling s out all pos = (.ok r, s')) :
    r.out.tokens = out.tokens := by
  unfold decodeStep at h
  split at h
  · split at h
    · cases h
    cases h
    rfl
  split at h
  · cases h
  split at h <;> cases h
  rfl

/-- Where the decode loop is: `all` the tokens so far with the anchor last, and `pos` how many
    of them the state holds. -/
structure Decode (F : Type) where
  out : Generation F
  all : List Int
  pos : Nat
  calls : Nat
  reported : Nat

/-- The decode loop after a step that kept `r`. -/
def decoded (options : GenerateOptions S) (g : Decode F) (r : Stepped F) : Decode F :=
  let out := pushKept x options { r.out with steps := r.out.steps + 1 } r.kept
  let said := report options out g.calls g.reported
  { out := { out with cancelled := !said.1 }
    all := g.all ++ r.kept
    pos := g.pos + r.kept.length
    calls := g.calls + 1
    reported := said.2 }

theorem decoded_grows {g : Decode F} {r : Stepped F} (h : r.out.tokens = g.out.tokens) :
    g.out.tokens.length < (decoded x options g r).out.tokens.length := by
  have hne : ∃ token rest, r.kept = token :: rest := by
    unfold Stepped.kept
    cases r.accepted with
    | nil | cons => exact ⟨_, _, rfl⟩
  obtain ⟨token, rest, hkept⟩ := hne
  unfold decoded
  simp only [hkept, ← h]
  exact pushKept_grows x options token rest { r.out with steps := r.out.steps + 1 }

/-- The decode loop of `Generate`: the failure that ended it, if one did. -/
def decode (options : GenerateOptions S) (sampling : Option S) (s : σ) (g : Decode F) :
    Except String Unit × Decode F × σ :=
  if hgo : g.out.stopped = false ∧ g.out.cancelled = false ∧
      g.out.tokens.length < options.maxTokens then
    if g.pos + 1 ≥ x.context then
      (.error s!"{x.name}'s conversation reached its context of {x.context}", g, s)
    else
      match hstep : decodeStep x m options sampling s g.out g.all g.pos with
      | (.error e, s') => (.error e, g, s')
      | (.ok r, s') =>
        have : g.out.tokens.length < (decoded x options g r).out.tokens.length :=
          decoded_grows x (decodeStep_tokens x m hstep)
        decode options sampling s' (decoded x options g r)
  else (.ok (), g, s)
termination_by options.maxTokens - g.out.tokens.length

/-- `Generate`'s start: the token from the prefill's logits, and where its loop begins. -/
def begun (options : GenerateOptions S) (out : Generation F) (history : List Int) (last : List F)
    (first : Int) : Decode F :=
  let out := { out with
    tokens := [first]
    logits := if options.keepLogits then [last] else out.logits
    stopped := isStop x options first }
  let said := report options out 0 0
  { out := { out with cancelled := !said.1 }
    all := history ++ [first]
    pos := history.length
    calls := 1
    reported := said.2 }

def trimmed (options : GenerateOptions S) (out : Generation F) : Generation F :=
  let out := { out with tokens := out.tokens.take options.maxTokens }
  { out with logits := out.logits.take out.tokens.length }

/-- `Generate`; the sampling holds during it only. -/
def generate (l : Llm) (s : σ) (last : List F) (options : GenerateOptions S) (out : Generation F) :
    Except String Unit × Generation F × Llm × σ :=
  if last.isEmpty then
    (.error s!"{x.name} has no prefill's logits to generate from", out, l, s)
  else
    let sampling := options.sampling.filter m.samples
    match m.choose sampling options.seed last l.history.length with
    | .error e => (.error e, out, l, s)
    | .ok first =>
      match decode x m options sampling s (begun x options out l.history last first) with
      | (.error e, g, s) => (.error e, g.out, { l with needsClear := true, history := [] }, s)
      | (.ok (), g, s) =>
        match m.settle s with
        | (.error e, s) =>
          (.error e, trimmed options g.out, { l with needsClear := true, history := [] }, s)
        | (.ok (), s) =>
          (.ok (), trimmed options g.out, { l with history := g.all.take g.pos }, s)

structure Snapshot (α β : Type) where
  target : α
  drafter : Option β

/-- `SaveState`, with what it wrote to the host's memory. -/
def saveState (l : Llm) (s : σ) : Except String (Snapshot α β) × Llm × σ :=
  match m.settle s with
  | (.error e, s) => (.error e, l, s)
  | (.ok (), s) =>
    match m.saveTarget s with
    | (.error e, s) => (.error e, l, s)
    | (.ok target, s) =>
      if m.drafterBytes ≠ 0 then
        match m.saveDrafter s with
        | (.error e, s) => (.error e, l, s)
        | (.ok drafter, s) =>
          (.ok { target, drafter := some drafter },
            { l with savedHistory := l.history, savedCursor := m.cursor s }, s)
      else
        (.ok { target, drafter := none },
          { l with savedHistory := l.history, savedCursor := m.cursor s }, s)

/-- The drafter's part of `RestoreState`. -/
def loadDrafterPart (s : σ) (host : Snapshot α β) : Except String Unit × σ :=
  match host.drafter with
  | some drafter => if m.drafterBytes ≠ 0 then m.loadDrafter s drafter else (.ok (), s)
  | none => (.ok (), s)

def restoreState (l : Llm) (s : σ) (host : Snapshot α β) : Except String Unit × Llm × σ :=
  match m.settle s with
  | (.error e, s) => (.error e, l, s)
  | (.ok (), s) =>
    match m.loadTarget s host.target with
    | (.error e, s) => (.error e, l, s)
    | (.ok (), s) =>
      match loadDrafterPart m s host with
      | (.error e, s) => (.error e, l, s)
      | (.ok (), s) =>
        (.ok (), { l with history := l.savedHistory, needsClear := false },
          m.setCursor s l.savedCursor)

end Llm
end JitLlm.Runtime
