import JitLlm.Lib.Sat
import JitLlm.Scheduler.State

/-!
# `providers/direct_reader.cc` — whole reads over the storage provider

A read is split into pieces, each in at most one request in flight. Pieces waiting to start that
continue one another in the file may go as one request, a segment each; what becomes of a request
is told to every piece in it. The reader's owner calls `Read`, `Withdraw` and `Poll`.

The storage provider is outside: whether it takes a submission is a function of the token, which
no two submissions share, and what it harvests is any list of tokens and results. What the reader
did is kept, newest first, in `log`; nothing reads it.

Offsets, lengths and addresses are the source's, which `Read` has checked to add up without
wrapping; a token and an arrival are counted without end.
-/

namespace JitLlm.Providers.DirectReader

open Base Lib
open Scheduler (IoKind ReadSpec)

/-! ## Settings -/

def kMaxSegments : Nat := 1024

structure ReaderSettings where
  alignment : Nat := 4096
  requestBytes : Nat := 2097152
  retries : Nat := 3
  reads : Nat := 64
  waiters : Nat := 8
  spanBytes : Nat := 0
  spanSegments : Nat := kMaxSegments
  alignment_pos : 0 < alignment := by decide
  requestBytes_pos : 0 < requestBytes := by decide
  requestBytes_dvd : alignment ∣ requestBytes := by decide
  requestBytes_lt : requestBytes < 2 ^ 32 := by decide
  reads_pos : 0 < reads := by decide
  waiters_pos : 0 < waiters := by decide
  spanSegments_pos : 0 < spanSegments := by decide
  spanSegments_le : spanSegments ≤ kMaxSegments := by decide
  spanBytes_le : spanBytes ≤ 2 ^ 30 := by decide

inductive ReadError
  | full | unaligned | invalidRange | mismatch | tooManyWaiters | draining | unknownRead
deriving DecidableEq, Repr

inductive ReadOutcome
  | complete | endOfFile | failed | cancelled
deriving DecidableEq, Repr

structure FinishedRead where
  key : Nat
  outcome : ReadOutcome
  bytes : Nat
  error : Int
  waiters : List Nat
deriving DecidableEq

/-! ## State -/

structure Piece where
  start : Nat
  length : Nat
  done : Nat := 0
  inFlight : Bool := false
  token : Nat := 0
deriving DecidableEq

structure Reading where
  spec : ReadSpec
  waiters : List Nat
  pieces : List Piece
  arrival : Nat
  retries : Nat := 0
  queued : Bool := false
  stopping : Bool := false
  alone : Bool := false
  outcome : ReadOutcome := .complete
  error : Int := 0
deriving DecidableEq

structure Member where
  key : Nat
  piece : Nat
deriving DecidableEq

structure Request where
  members : List Member
  cancelled : Bool := false
deriving DecidableEq

/-- A piece of a request as it was when something was done about the request: whose it is (a key
    may be read again, an arrival is one read's), and whether its read was stopping. -/
structure Part where
  key : Nat
  piece : Nat
  arrival : Nat
  stopping : Bool
deriving DecidableEq

/-- What the reader did: a request the provider took, a cancellation it was asked for, a completion
    before it is settled, and a read reported. -/
inductive Event
  | submitted (token : Nat) (parts : List Part)
  | cancelled (token : Nat) (parts : List Part)
  | settled (token : Nat) (parts : List Part) (result : Int)
  | finished (arrival : Nat) (read : FinishedRead)
deriving DecidableEq

end DirectReader

open DirectReader Lib in
structure DirectReader where
  reads : OrdMap Nat Reading := OrdMap.empty
  queue : OrdMap Nat Nat := OrdMap.empty
  nextArrival : Nat := 0
  settled : List Nat := []
  requests : OrdMap Nat Request := OrdMap.empty
  nextToken : Nat := 1
  log : List DirectReader.Event := []

namespace DirectReader

open Base Lib
open Scheduler (IoKind ReadSpec)

variable (c : ReaderSettings) (d : DirectReader)

/-- `reads_.at(key)`. -/
def readAt (key : Nat) : Checked Reading := require .noEntry (d.reads.find? key)

def setRead (key : Nat) (r : Reading) : DirectReader := { d with reads := d.reads.insert key r }

def parts (members : List Member) : List Part :=
  members.filterMap fun m => (d.reads.find? m.key).map fun r =>
    { key := m.key, piece := m.piece, arrival := r.arrival, stopping := r.stopping }

/-! ## Stopping and queueing -/

def Reading.stop (r : Reading) (outcome : ReadOutcome) (error : Int) : Reading :=
  if r.stopping then r else { r with stopping := true, outcome, error }

/-- `Queue`; the read as it is, not yet in the table. -/
def enqueue (key : Nat) (r : Reading) : DirectReader :=
  if !r.queued && !r.stopping then
    { d.setRead key { r with queued := true } with queue := d.queue.insert r.arrival key }
  else d.setRead key r

def Piece.waits (p : Piece) : Bool := !p.inFlight && p.done ≠ p.length

def Reading.hasStart (r : Reading) : Bool :=
  !r.stopping && r.pieces.any fun p => !p.inFlight && p.done < p.length

def cancelIfAbandoned (token : Nat) : Checked DirectReader :=
  match d.requests.find? token with
  | none => .ok d
  | some request =>
    if request.cancelled then .ok d
    else do
      let abandoned ← request.members.foldlM
        (fun all m => do
          if all then return (← d.readAt m.key).stopping else return false) true
      if abandoned then
        return { d with
          requests := d.requests.insert token { request with cancelled := true }
          log := .cancelled token (d.parts request.members) :: d.log }
      else return d

/-! ## Starting -/

def editPiece (f : Piece → Piece) (d : DirectReader) (m : Member) : Checked DirectReader := do
  let r ← d.readAt m.key
  let p ← require .noEntry r.pieces[m.piece]?
  return d.setRead m.key { r with pieces := r.pieces.set m.piece (f p) }

/-- `Submit`'s marking of a piece that went with the request. -/
def markInFlight (token : Nat) : DirectReader → Member → Checked DirectReader :=
  editPiece fun p => { p with inFlight := true, token }

/-- `Submit`; `take` is whether the provider takes the token's request (accepted or unknown). -/
def submit (take : Nat → Bool) (run : List Member) : Checked (Bool × DirectReader) := do
  let token := d.nextToken
  let d := { d with nextToken := d.nextToken + 1 }
  if take token then
    let d := { d with
      requests := d.requests.insert token { members := run }
      log := .submitted token (d.parts run) :: d.log }
    return (true, ← run.foldlM (markInFlight token) d)
  else return (false, d)

/-- `StartQueued`'s scratch: the run gathered, where it ends in the file, its bytes, and whether
    the provider refused one. -/
structure Gathered where
  run : List Member := []
  runEnd : Nat := 0
  runBytes : Nat := 0
  full : Bool := false
deriving DecidableEq

/-- Whether the piece joins the run that ends with a piece of `last`. -/
def joins (g : Gathered) (last reading : Reading) (offset length : Nat) : Bool :=
  c.spanBytes > c.requestBytes && !last.alone && !reading.alone &&
    last.spec.fd = reading.spec.fd && last.spec.kind = .read && reading.spec.kind = .read &&
    g.runEnd = offset && g.runBytes + length ≤ c.spanBytes && g.run.length < c.spanSegments

/-- One turn of `StartQueued`'s inner loop. -/
def gatherPiece (take : Nat → Bool) (key : Nat) (y : DirectReader × Gathered) (i : Nat) :
    Checked (DirectReader × Gathered) := do
  let (d, g) := y
  if g.full then return (d, g)
  else
    let reading ← d.readAt key
    let piece ← require .noEntry reading.pieces[i]?
    if piece.inFlight || piece.done = piece.length then return (d, g)
    else
      let offset := reading.spec.offset + piece.start + piece.done
      let length := piece.length - piece.done
      match g.run.getLast? with
      | none =>
        return (d, { g with
          run := [⟨key, i⟩], runEnd := offset + length, runBytes := g.runBytes + length })
      | some back => do
        let last ← d.readAt back.key
        if joins c g last reading offset length then
          return (d, { g with
            run := g.run ++ [⟨key, i⟩]
            runEnd := offset + length
            runBytes := g.runBytes + length })
        else do
          let (taken, d) ← d.submit take g.run
          if taken then
            return (d, { g with
              run := [⟨key, i⟩], runEnd := offset + length, runBytes := length })
          else return (d, { g with full := true })

/-- One turn of `StartQueued`'s outer loop. -/
def gatherRead (take : Nat → Bool) (y : DirectReader × Gathered) (entry : Nat × Nat) :
    Checked (DirectReader × Gathered) := do
  if y.2.full then return y
  else
    let reading ← y.1.readAt entry.2
    if reading.stopping then return y
    else (List.range reading.pieces.length).foldlM (gatherPiece c take entry.2) y

/-- `StartQueued`'s last loop: reads with nothing left to start leave the queue's front. -/
def trimQueue (d : DirectReader) : List (Nat × Nat) → Checked DirectReader
  | [] => .ok d
  | (arrival, key) :: rest => do
    let reading ← d.readAt key
    if reading.hasStart then return d
    else
      trimQueue { d.setRead key { reading with queued := false } with
        queue := d.queue.erase arrival } rest

def startQueued (take : Nat → Bool) : Checked DirectReader := do
  let (d, g) ← d.queue.entries.foldlM (gatherRead c take) (d, {})
  let d ←
    if !g.full && !g.run.isEmpty then do pure (← d.submit take g.run).2
    else pure d
  trimQueue d d.queue.entries

/-! ## Calls of the owner's -/

/-- `Read`'s split into pieces, from `start` on; `n` is no less than the pieces to come. -/
def piecesFrom (requestBytes length : Nat) : Nat → Nat → List Piece
  | 0, _ => []
  | n + 1, start =>
    if start < length then
      { start, length := min requestBytes (length - start) } ::
        piecesFrom requestBytes length n (start + requestBytes)
    else []

/-- `Read`; true if it joined a read in flight. -/
def read (take : Nat → Bool) (key : Nat) (spec : ReadSpec) (waiter : Nat) :
    Checked (Except ReadError Bool × DirectReader) :=
  match d.reads.find? key with
  | some reading =>
    if reading.spec ≠ spec then .ok (.error .mismatch, d)
    else if reading.stopping && reading.waiters.isEmpty then .ok (.error .draining, d)
    else if reading.waiters.contains waiter then .ok (.ok true, d)
    else if reading.waiters.length ≥ c.waiters then .ok (.error .tooManyWaiters, d)
    else .ok (.ok true, d.setRead key { reading with waiters := reading.waiters ++ [waiter] })
  | none =>
    if spec.memory = 0 || spec.length = 0 || spec.memory % c.alignment ≠ 0 ||
        spec.offset % c.alignment ≠ 0 || spec.length % c.alignment ≠ 0 then
      .ok (.error .unaligned, d)
    else if spec.length > 2 ^ 64 - 1 - spec.offset || spec.length > 2 ^ 64 - 1 - spec.memory ||
        spec.length > 2 ^ 63 - 1 then
      .ok (.error .invalidRange, d)
    else if d.reads.size ≥ c.reads then .ok (.error .full, d)
    else do
      let reading : Reading := {
        spec
        waiters := [waiter]
        pieces := piecesFrom c.requestBytes spec.length spec.length 0
        arrival := d.nextArrival }
      let d := { d with nextArrival := d.nextArrival + 1 }
      return (.ok false, ← (d.enqueue key reading).startQueued c take)

def withdraw (key waiter : Nat) : Checked (Except ReadError Unit × DirectReader) :=
  match d.reads.find? key with
  | none => .ok (.error .unknownRead, d)
  | some reading =>
    if !reading.waiters.contains waiter then .ok (.error .unknownRead, d)
    else
      let reading := { reading with waiters := reading.waiters.erase waiter }
      if reading.waiters.isEmpty && !reading.stopping then do
        let reading := reading.stop .cancelled 0
        let d ← reading.pieces.foldlM
          (fun d p => if p.inFlight then d.cancelIfAbandoned p.token else pure d)
          (d.setRead key reading)
        return (.ok (), { d with settled := d.settled ++ [key] })
      else .ok (.ok (), d.setRead key reading)

/-! ## Completions -/

def eCanceled : Int := 125
def eIntr : Int := 4
def eAgain : Int := 11
def eIo : Int := 5

/-- `Settle`'s `each_read`: each read once, where a request carries several of its pieces. -/
def eachRead : Option Nat → List Member → List Nat
  | _, [] => []
  | last, m :: rest =>
    if last = some m.key then eachRead last rest else m.key :: eachRead (some m.key) rest

/-- `Settle`'s action for one read of a request that ended in a retryable error. -/
def retryRead (error : Int) (d : DirectReader) (key : Nat) : Checked DirectReader := do
  let r ← d.readAt key
  if r.retries < c.retries then return d.enqueue key { r with retries := r.retries + 1 }
  else return d.setRead key (r.stop .failed error)

/-- `Settle`'s action for one read of a span that failed. -/
def isolateRead (d : DirectReader) (key : Nat) : Checked DirectReader := do
  let r ← d.readAt key
  return d.enqueue key { r with alone := true }

/-- `Settle`, for a request that ended in an error. -/
def settleError (members : List Member) (error : Int) : Checked DirectReader :=
  if error = eCanceled then
    (eachRead none members).foldlM
      (fun d key => do return d.setRead key ((← d.readAt key).stop .cancelled 0)) d
  else if error = eIntr ∨ error = eAgain then
    (eachRead none members).foldlM (retryRead c error) d
  else match members with
    | [m] => do return d.setRead m.key ((← d.readAt m.key).stop .failed error)
    | _ => (eachRead none members).foldlM isolateRead d

/-- One turn of `Settle`'s loop: what is left of the count, and whether it reached the end of the
    pieces so far. -/
def fillPiece (result : Nat) (y : DirectReader × Nat × Bool) (m : Member) :
    Checked (DirectReader × Nat × Bool) := do
  let (d, remaining, reached) := y
  let r ← d.readAt m.key
  if !reached then return (d.enqueue m.key r, remaining, reached)
  else
    let p ← require .noEntry r.pieces[m.piece]?
    let moved := min remaining (p.length - p.done)
    let p := { p with done := p.done + moved }
    let r := { r with pieces := r.pieces.set m.piece p }
    if p.done = p.length then return (d.setRead m.key r, remaining - moved, true)
    else if result = 0 ∨ p.done % c.alignment ≠ 0 then
      let r := if r.spec.kind = .write then r.stop .failed eIo else r.stop .endOfFile 0
      return (d.setRead m.key r, remaining - moved, false)
    else return (d.enqueue m.key r, remaining - moved, false)

def settle (members : List Member) (result : Int) : Checked DirectReader :=
  if result < 0 then d.settleError c members (-result)
  else do
    return (← members.foldlM (fillPiece c result.toNat) (d, result.toNat, true)).1

/-- `Poll`'s marking of a piece of a completed request. -/
def markLanded (d : DirectReader) (m : Member) : Checked DirectReader := do
  let d ← editPiece (fun p => { p with inFlight := false }) d m
  return { d with settled := d.settled ++ [m.key] }

/-- `Poll`'s handling of one completion. -/
def harvest (d : DirectReader) (completion : Nat × Int) : Checked DirectReader :=
  match d.requests.find? completion.1 with
  | none => .ok d
  | some request => do
    let d := { d with
      requests := d.requests.erase completion.1
      log := .settled completion.1 (d.parts request.members) completion.2 :: d.log }
    (← request.members.foldlM markLanded d).settle c request.members completion.2

def Reading.finished (r : Reading) : Bool :=
  r.pieces.all fun p => !p.inFlight && (r.stopping || p.done = p.length)

/-- What `Poll` reports of a read that ended. -/
def Reading.report (r : Reading) (key : Nat) : FinishedRead where
  key := key
  outcome := if r.stopping then r.outcome else .complete
  bytes := (r.pieces.map Piece.done).sum
  error := r.error
  waiters := r.waiters

/-- `Poll`'s look at one read a completion or a withdrawal may have finished. -/
def report (y : List FinishedRead × DirectReader) (key : Nat) : List FinishedRead × DirectReader :=
  let (finished, d) := y
  match d.reads.find? key with
  | none => y
  | some r =>
    if r.finished then
      (finished ++ [r.report key],
        { d with
          queue := if r.queued then d.queue.erase r.arrival else d.queue
          reads := d.reads.erase key
          log := .finished r.arrival (r.report key) :: d.log })
    else y

/-- `Poll`; what is harvested in all. -/
def poll (take : Nat → Bool) (completions : List (Nat × Int)) (take' : Nat → Bool) :
    Checked (List FinishedRead × DirectReader) := do
  let d ← d.startQueued c take
  let d ← completions.foldlM (harvest c) d
  let d ← d.startQueued c take'
  let (finished, d) := d.settled.foldl report ([], d)
  return (finished, { d with settled := [] })

/-! ## Runs -/

/-- A call of the owner's, with what the provider answers during it. -/
inductive Call
  | read (take : Nat → Bool) (key : Nat) (spec : ReadSpec) (waiter : Nat)
  | withdraw (key waiter : Nat)
  | poll (take : Nat → Bool) (completions : List (Nat × Int)) (take' : Nat → Bool)

def call : Call → Checked DirectReader
  | .read take key spec waiter => do return (← d.read c take key spec waiter).2
  | .withdraw key waiter => do return (← d.withdraw key waiter).2
  | .poll take completions take' => do return (← d.poll c take completions take').2

inductive Reachable : DirectReader → Prop
  | start : Reachable {}
  | call {d d' : DirectReader} (call : Call) : Reachable d → d.call c call = .ok d' → Reachable d'

end JitLlm.Providers.DirectReader
