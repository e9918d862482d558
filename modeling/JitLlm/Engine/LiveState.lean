import JitLlm.Lib.Ranges

/-!
# `engine/live_state.cc` — a conversation's state and a verify's snapshot

`LiveState`: the regions' guard (the quarantine), the ranges a speculative verify saved and
what is owed of them (the restores, then the commit of the kept rows). Beside it the device
as one stream sees it: a byte map, and what was queued on it, in order. `Dsv4Runner::Chunk`
(`engine/dsv4_runner.cc`) is the job that uses them: what is owed first, then a verify's
saves, then its own work, and the settling of a failure.

How each launch went, whether the job ran at all and whether it was reported finished are
inputs of the functions here. Paging, spilling and planning are left out.
-/

namespace JitLlm.Engine

/-- `LiveState::Status`. -/
abbrev Status := Except String Unit

variable {B : Type}

/-! ## The device -/

/-- Work for the device: what it makes of the memory, and the addresses it may write. -/
structure Work (B : Type) where
  run : Bytemap B → Bytemap B
  writes : Nat → Bool
  frame : ∀ m a, writes a = false → run m a = m a

/-- `CopyRangesKernel`. -/
def Work.copies (cs : List RangeCopy) : Work B where
  run m := m.copyAll cs
  writes a := cs.any fun c => decide (Inside a c.target c.bytes)
  frame m a h := Bytemap.copyAll_outside fun c hc hin => by
    have := List.any_eq_false.mp h c hc
    simp only [hin, decide_true, not_true_eq_false] at this

/-- `FillAsync`. -/
def Work.fill (zero : B) (base bytes : Nat) : Work B where
  run m a := if Inside a base bytes then zero else m a
  writes a := decide (Inside a base bytes)
  frame _ _ h := if_neg (of_decide_eq_false h)

inductive Queued where
  | restored (ranges : List RangeCopy)
  | committed (keep : Nat)
  | saved (ranges : List RangeCopy)
  | filled (base bytes : Nat)
  -- a chunk's own work, all of it or its first part
  | work
  -- a launch of unknown effect
  | unknown
deriving DecidableEq

/-- The device: its bytes, what was queued (newest first), and for each address the place in
    `log`, from 1 on, of what wrote it last. -/
structure Device (B : Type) where
  bytes : Bytemap B
  writer : Nat → Nat
  log : List Queued

def Device.queue (d : Device B) (what : Queued) (w : Work B) : Device B where
  bytes := w.run d.bytes
  writer a := if w.writes a then d.log.length + 1 else d.writer a
  log := what :: d.log

/-- How a launch went: queued, refused with nothing queued, or with an unknown effect. -/
inductive Launched (B : Type) where
  | queued
  | rejected (detail : String)
  | unknown (detail : String) (left : Work B)

/-- `LaunchContext::Run`; a failure's text. -/
def Launched.run (l : Launched B) (what : Queued) (w : Work B) (d : Device B) :
    Status × Device B :=
  match l with
  | .queued => (.ok (), d.queue what w)
  | .rejected detail => (.error detail, d)
  | .unknown detail left => (.error detail, d.queue .unknown left)

def kMaxRangeCopies : Nat := 65535

def RangeCopy.aligned (c : RangeCopy) : Bool :=
  c.source ≠ 0 && c.target ≠ 0 && c.source % 16 = 0 && c.target % 16 = 0 && c.bytes % 16 = 0

def copyRanges (l : Launched B) (what : Queued) (ranges : List RangeCopy) (d : Device B) :
    Status × Device B :=
  if ranges.length = 0 then (.ok (), d)
  else if kMaxRangeCopies < ranges.length then
    (.error "range copies: none given, or too many", d)
  else if ranges.all RangeCopy.aligned = false then
    (.error "range copies: every range 16-byte aligned, a multiple of 16 bytes", d)
  else l.run what (.copies ranges) d

/-! ## The state -/

/-- `LiveState::Saved`: the state's bytes, their copy, and the verify row they are of (-1 its
    scratch rows). -/
structure Saved where
  address : Nat
  saved : Nat
  bytes : Nat
  row : Int
deriving DecidableEq, Repr

structure StateRange where
  address : Nat
  bytes : Nat
  row : Int
deriving DecidableEq, Repr

/-- What `LiveState` is set up with: its regions, the snapshot's memory and descriptors, the
    model's commit of kept rows if it has one. -/
structure Setup (B : Type) where
  model : String
  zero : B
  regions : List (Nat × Nat)
  snapshotBase : Nat
  snapshotBytes : Nat
  capacity : Nat
  commit : Option (Nat → Work B)

/-- `LiveState`: `save` and `restore` are the first `save_count_` and `restore_count_`
    descriptors. -/
structure LiveState where
  quarantined : Bool := false
  save : List RangeCopy := []
  saveAt : Nat := 0
  restore : List RangeCopy := []
  commitKeep : Nat := 0
  saved : List Saved := []
  verifyRows : Nat := 0
deriving DecidableEq, Repr

namespace LiveState

/-- `Round`, in 64 bits. -/
def round (bytes unit : Nat) : Nat := (bytes + unit - 1) % 2 ^ 64 / unit * unit

variable (x : Setup B)

def usable (l : LiveState) : Status :=
  if l.quarantined then
    .error (s!"the {x.model} state is quarantined: a job failed after it may have written it " ++
      "(Clear first)")
  else .ok ()

def awaitingAccept (l : LiveState) : Status :=
  if l.verifyRows ≠ 0 then .error "the last verify awaits its Accept" else .ok ()

def beginSaves (l : LiveState) : LiveState := { l with saved := [], save := [], saveAt := 0 }

/-- `Save`. -/
def saveRange (l : LiveState) (r : StateRange) : Status × LiveState :=
  if l.save.length = x.capacity ∨ (l.saveAt + r.bytes) % 2 ^ 64 > x.snapshotBytes then
    (.error "a verify writes more than its snapshot holds", l)
  else
    let saved := (x.snapshotBase + l.saveAt) % 2 ^ 64
    (.ok (), { l with
      saved := l.saved ++ [⟨r.address, saved, r.bytes, r.row⟩]
      save := l.save ++ [⟨r.address, saved, r.bytes⟩]
      saveAt := (l.saveAt + round r.bytes 256) % 2 ^ 64 })

/-- `PlanSnapshot`'s loops, over every range the verify writes. -/
def saveRanges : LiveState → List StateRange → Status × LiveState
  | l, [] => (.ok (), l)
  | l, r :: rest =>
    match l.saveRange x r with
    | (.error e, l) => (.error e, l)
    | (.ok _, l) => saveRanges l rest

def queueSaves (l : LiveState) (launch : Launched B) (d : Device B) : Status × Device B :=
  copyRanges launch (.saved l.save) l.save d

/-- The restores of the saved ranges that `p` picks. -/
def restoresOf (saved : List Saved) (p : Saved → Bool) : List RangeCopy :=
  (saved.filter p).map fun s => ⟨s.saved, s.address, s.bytes⟩

def accept (l : LiveState) (keep : Nat) : Status × LiveState :=
  match l.usable x with
  | .error e => (.error e, l)
  | .ok _ =>
    if l.verifyRows = 0 ∨ keep = 0 ∨ keep > l.verifyRows then
      (.error s!"accepting {keep} rows of a verify of {l.verifyRows}", l)
    else
      (.ok (), { l with
        restore := restoresOf l.saved fun s => s.row < 0 || s.row ≥ keep
        commitKeep := if x.commit.isSome then keep else 0
        verifyRows := 0 })

def owed (l : LiveState) : Bool := l.restore.length ≠ 0 || l.commitKeep ≠ 0

/-- How `QueueOwed`'s two launches go. -/
structure OwedAnswers (B : Type) where
  restore : Launched B
  commit : Launched B

/-- `QueueOwed`'s second part. -/
def queueCommit (l : LiveState) (launch : Launched B) (d : Device B) :
    Status × LiveState × Device B :=
  match x.commit with
  | some commit =>
    if l.commitKeep ≠ 0 then
      match launch.run (.committed l.commitKeep) (commit l.commitKeep) d with
      | (.error e, d) => (.error e, l, d)
      | (.ok _, d) => (.ok (), { l with commitKeep := 0 }, d)
    else (.ok (), l, d)
  | none => (.ok (), l, d)

def queueOwed (l : LiveState) (a : OwedAnswers B) (d : Device B) :
    Status × LiveState × Device B :=
  if l.restore.length ≠ 0 then
    match copyRanges a.restore (.restored l.restore) l.restore d with
    | (.error e, d) => (.error e, l, d)
    | (.ok _, d) => queueCommit x { l with restore := [] } a.commit d
  else queueCommit x l a.commit d

def settle (l : LiveState) (saved wrote unknown : Bool) : LiveState :=
  if unknown then { l with verifyRows := 0, quarantined := true }
  else if saved then
    { l with verifyRows := 0, restore := restoresOf l.saved fun _ => true, commitKeep := 0 }
  else if wrote then { l with verifyRows := 0, quarantined := true }
  else { l with verifyRows := 0 }

end LiveState

/-! ## Jobs -/

inductive JobResult where
  | queued
  | notStarted
  | failed
  | unknown
deriving DecidableEq

/-- How a job was posted: whether it ran, whether it was reported finished once all of it was
    queued, and whether the launch context is faulted after it. -/
structure Posting where
  runs : Bool
  finished : Bool
  faulted : Bool

/-- `Job`'s or `Await`'s status: an error unless the job ran, queued everything and was reported
    finished. -/
def Posting.posted (p : Posting) (result : JobResult) (what : String) : Status :=
  if p.runs ∧ result = .queued ∧ p.finished then .ok () else .error s!"{what} failed"

/-- Each region filled in turn; the first failure ends the job. `fills` says what a failed one
    left. -/
def fillRegions (zero : B) (fills : Nat → Option (Work B)) :
    Nat → List (Nat × Nat) → Device B → JobResult × Device B
  | _, [], d => (.queued, d)
  | i, (base, bytes) :: rest, d =>
    match fills i with
    | some left => (.unknown, d.queue .unknown left)
    | none =>
      fillRegions zero fills (i + 1) rest (d.queue (.filled base bytes) (.fill zero base bytes))

namespace LiveState

variable (x : Setup B)

def clear (l : LiveState) (p : Posting) (fills : Nat → Option (Work B)) (d : Device B) :
    Status × LiveState × Device B :=
  let l := { l with
    restore := [], commitKeep := 0, save := [], saved := [], verifyRows := 0, quarantined := true }
  let ran := if p.runs then fillRegions x.zero fills 0 x.regions d else (.notStarted, d)
  match p.posted ran.1 "clearing the state" with
  | .error e => (.error e, l, ran.2)
  | .ok _ => (.ok (), { l with quarantined := false }, ran.2)

/-- `Rollback`'s job: `failed`'s text, if `QueueOwed` failed. -/
def rollbackJob (l : LiveState) (p : Posting) (a : OwedAnswers B) (d : Device B) :
    JobResult × Option String × LiveState × Device B :=
  if p.runs then
    match l.queueOwed x a d with
    | (.error e, l, d) => (.unknown, some e, l, d)
    | (.ok _, l, d) => (.queued, none, l, d)
  else (.notStarted, none, l, d)

def rollback (l : LiveState) (p : Posting) (a : OwedAnswers B) (d : Device B) :
    Status × LiveState × Device B :=
  match l.usable x with
  | .error e => (.error e, l, d)
  | .ok _ =>
    if l.owed = false then (.ok (), l, d)
    else
      let ran := l.rollbackJob x p a d
      match p.posted ran.1 "restoring a verify's rejected rows", ran.2.1 with
      | .ok _, none => (.ok (), ran.2.2)
      | posted, failed =>
        (.error (failed.getD (match posted with | .error e => e | .ok _ => "")),
          ran.2.2.1.settle false false (failed.isSome || p.faulted), ran.2.2.2)

end LiveState

/-! ## `Dsv4Runner::Chunk` -/

/-- What a chunk is to do on the device: its own work and, for a verify, its rows and the
    ranges it writes. -/
structure Chunk (B : Type) where
  work : Work B
  verify : Option (Nat × List StateRange)

/-- How `GraphRuns::Queue` went: all queued; refused, having queued nothing or a first part; or
    with an unknown effect. -/
inductive QueueAnswer (B : Type) where
  | queued
  | rejected (detail : String) (first : Option (Work B))
  | unknown (detail : String) (before : Bool) (left : Work B)

/-- Everything outside the state that a chunk meets: the checks and the plan before its job,
    its launches, and how its job was posted and ran beside `meanwhile`. -/
structure ChunkAnswers (B : Type) where
  checked : Status
  planned : Status
  owed : LiveState.OwedAnswers B
  saves : Launched B
  inputs : Status
  queue : QueueAnswer B
  post : Posting
  alongside : Status

/-- `saved`, `wrote`, `unknown` and `ran`. -/
structure Ran where
  saved : Bool := false
  wrote : Bool := false
  unknown : Bool := false
  ran : Status := .ok ()

def ownWork (c : Chunk B) (a : ChunkAnswers B) (before saved : Bool) (d : Device B) :
    JobResult × Ran × Device B :=
  let stopped := if before then JobResult.failed else JobResult.notStarted
  match a.inputs with
  | .error e => (stopped, { saved, ran := .error e }, d)
  | .ok _ =>
    match a.queue with
    | .queued => (.queued, { saved, wrote := true }, d.queue .work c.work)
    | .rejected e none => (stopped, { saved, ran := .error e }, d)
    | .rejected e (some first) =>
      (.failed, { saved, wrote := true, ran := .error e }, d.queue .work first)
    | .unknown e before left =>
      (.unknown, { saved, wrote := before, unknown := true, ran := .error e },
        d.queue .unknown left)

/-- `Chunk`'s job. -/
def chunkJob (x : Setup B) (c : Chunk B) (a : ChunkAnswers B) (l : LiveState) (d : Device B) :
    JobResult × Ran × LiveState × Device B :=
  let restoring := l.owed
  match l.queueOwed x a.owed d with
  | (.error e, l, d) => (.unknown, { unknown := true, ran := .error e }, l, d)
  | (.ok _, l, d) =>
    if c.verify.isSome then
      match l.queueSaves a.saves d with
      | (.error e, d) => (.unknown, { unknown := true, ran := .error e }, l, d)
      | (.ok _, d) =>
        let own := ownWork c a true true d
        (own.1, own.2.1, l, own.2.2)
    else
      let own := ownWork c a restoring false d
      (own.1, own.2.1, l, own.2.2)

def planSnapshot (x : Setup B) (c : Chunk B) (l : LiveState) : Status × LiveState :=
  match c.verify with
  | some (_, ranges) => l.beginSaves.saveRanges x ranges
  | none => (.ok (), l)

/-- `Chunk` from its job on. -/
def postChunk (x : Setup B) (c : Chunk B) (a : ChunkAnswers B) (l : LiveState) (d : Device B) :
    Status × LiveState × Device B :=
  let ran := if a.post.runs then chunkJob x c a l d else (.notStarted, {}, l, d)
  let flags := ran.2.1
  match a.post.posted ran.1 "a DeepSeek chunk", flags.ran, a.alongside, a.post.faulted with
  | .ok _, .ok _, .ok _, false =>
    (.ok (), match c.verify with
      | some (rows, _) => { ran.2.2.1 with verifyRows := rows }
      | none => ran.2.2.1, ran.2.2.2)
  | posted, own, alongside, faulted =>
    (.error (if faulted then "the launch context faulted" else
        match own, posted, alongside with
        | .error e, _, _ => e
        | _, .error e, _ => e
        | _, _, .error e => e
        | _, _, _ => ""),
      ran.2.2.1.settle flags.saved flags.wrote (flags.unknown || faulted), ran.2.2.2)

def chunk (x : Setup B) (c : Chunk B) (a : ChunkAnswers B) (l : LiveState) (d : Device B) :
    Status × LiveState × Device B :=
  match l.usable x with
  | .error e => (.error e, l, d)
  | .ok _ =>
    match l.awaitingAccept with
    | .error e => (.error e, l, d)
    | .ok _ =>
      match a.checked with
      | .error e => (.error e, l, d)
      | .ok _ =>
        match planSnapshot x c l with
        | (.error e, l) => (.error e, l, d)
        | (.ok _, l) =>
          match a.planned with
          | .error e => (.error e, l, d)
          | .ok _ => postChunk x c a l d

end JitLlm.Engine
