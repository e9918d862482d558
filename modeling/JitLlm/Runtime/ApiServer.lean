import JitLlm.Runtime.Channel
import Mathlib.Logic.Function.Basic

/-!
# `runtime/api_server.cc` — the I/O thread and the driver

The two threads as step machines over the state `Server::mutex_` guards. A label is one critical
section, with what its thread does up to its next one: the socket's behaviour, the clock's
(deadlines, keepalives, the watchdog), the request's bytes, the backend's calls and result and the
stop are the label's, so every one of them is possible wherever the section is.

The connections are the I/O thread's alone, so what it does to them between two sections is done
with the first. The driver's place in `Run` and `Serve` is `Driver`. The wake-ups (`dirty_`, the
wakers) and the clock's fields say when a section runs, and are left out with it.
-/

namespace JitLlm.Runtime.Api

/-- `ServerOptions`, as far as the sections read it. -/
structure Options where
  maxQueued : Nat
  maxUnsent : Nat
  idleTimeout : Nat

/-- `Connection::State`. -/
inductive ConnectionState
  | idle
  | head
  | body
  | busy
  | linger
deriving DecidableEq

/-- `Server::Connection`: `wbuf` is what is left to send of it. A connection that was never
    accepted is as one that is dead. -/
structure Connection where
  state : ConnectionState := .idle
  http10 : Bool := false
  wbuf : Bytes := []
  channel : Option Nat := none
  closeAfter : Bool := false
  inputClosed : Bool := false
  dead : Bool := true

/-- Where the driver is: between requests, with one it took from the queue, in the backend with
    it, or past its end; and past `Run`'s last section. -/
inductive Driver
  | idle
  | taken (id : Nat)
  | serving (id : Nat)
  | responded (id : Nat)
  | stopped

structure World where
  channels : Nat → Channel := fun _ => {}
  nextChannel : Nat := 0
  connections : Nat → Connection := fun _ => {}
  nextConnection : Nat := 0
  queue : List Nat := []
  running : Option Nat := none
  driver : Driver := .idle
  stopping : Bool := false
  draining : Bool := false
  healthy : Bool := true

/-! ## The driver's sections on a channel -/

namespace Channel

/-- `Stream::Admit`. -/
def admitted (j : Json) (ch : Channel) : Channel :=
  if ch.stream && !ch.gone && !ch.stalled && !ch.headSent then ch.putStart j else ch

def started (j : Json) (ch : Channel) : Channel := if ch.headSent then ch else ch.putStart j

def putText (j : Json) (event : Event) (text : Bytes) (ch : Channel) : Channel :=
  if text = [] then ch else ch.putEvent event (j.chunk ch.id event text)

/-- `Stream::EmitLocked`. -/
def emit (j : Json) (options : Options) (reasoning content : Bytes) (ch : Channel) : Channel :=
  if !ch.stream || ch.gone || ch.stalled || (reasoning = [] ∧ content = []) then ch
  else
    let ch := ((ch.started j).putText j .reasoning reasoning).putText j .content content
    if options.maxUnsent < ch.out.length then { ch with gone := true } else ch

/-- What `Stream::End` is given and finds: the backend's error if it failed, what `text_` still
    held, whether the deadline passed or the runtime stops, and the body of a completion. -/
structure Ending where
  error : Option Error
  reasoning : Bytes
  content : Bytes
  timedOut : Option String
  stopping : Bool
  includeUsage : Bool
  completion : Bytes

/-- The rest of a stream: finish, usage, `[DONE]`. -/
def putFinish (j : Json) (ch : Channel) (includeUsage : Bool) : Channel :=
  let ch := ch.started j
  let ch := ch.putEvent .finish (j.chunk ch.id .finish [])
  let ch := if includeUsage then ch.putEvent .usage (j.chunk ch.id .usage []) else ch
  ((ch.putBody (ascii "data: [DONE]\n\n")).record .done).putEnd

def answer (ch : Channel) (body : Bytes) : Channel :=
  ((ch.putHead 200 "application/json" (some body.length)).putBody body).putEnd

/-- `Stream::End`. -/
def finish (j : Json) (options : Options) (e : Ending) (ch : Channel) : Channel :=
  if ch.stalled || ch.gone then ch
  else
    match e.error with
    | some error => ch.putError j error
    | none =>
      let ch := ch.emit j options e.reasoning e.content
      match e.timedOut with
      | some message =>
        (if e.stopping then { ch with keepAlive := false } else ch).putError j
          (refusal 504 message)
      | none =>
        if e.stopping then
          ({ ch with keepAlive := false } : Channel).putError j
            (refusal 503 "the runtime is stopping")
        else if ch.stream then ch.putFinish j e.includeUsage
        else ch.answer e.completion

/-! ## The I/O thread's sections on a channel -/

/-- `InputClosed`, its section. -/
def inputClosed (j : Json) (ch : Channel) : Channel :=
  let ch := { ch with keepAlive := false }
  if ch.ended || ch.gone then ch
  else if ch.stream then
    if ch.headSent then (ch.putBody (ascii ": keepalive\n\n")).record .keepalive
    else ch.putStart j
  else if !ch.headSent && !ch.http10 then
    { ch.append processing with
      history := { ch.history with interims := ch.history.interims + 1 } }
  else ch

/-- `Sweep`'s section of a busy connection, when a keepalive is due. -/
def keepalive (j : Json) (ch : Channel) : Channel :=
  if ch.stream && !ch.ended && !ch.gone then
    if ch.headSent then (ch.putBody (ascii ": keepalive\n\n")).record .keepalive
    else if ch.queued then ch.putStart j
    else ch
  else ch

def leave (ch : Channel) : Channel :=
  { ch with queued := false, history := { ch.history with left := ch.history.left + 1 } }

def enter (ch : Channel) : Channel :=
  { ch with queued := true, history := { ch.history with entered := ch.history.entered + 1 } }

/-- `c.wbuf.swap(c.channel->out)`: the I/O thread takes what there is. -/
def take (ch : Channel) : Channel :=
  { ch with out := [], history := { ch.history with taken := ch.history.taken ++ ch.out } }

end Channel

namespace World

variable (j : Json) (options : Options)

def setChannel (w : World) (i : Nat) (ch : Channel) : World :=
  { w with channels := Function.update w.channels i ch }

def setConnection (w : World) (i : Nat) (c : Connection) : World :=
  { w with connections := Function.update w.connections i c }

def each (w : World) (f : Channel → Channel) (ids : List Nat) : World :=
  { w with channels := ids.foldl (fun chs i => Function.update chs i (f (chs i))) w.channels }

/-- `AcceptAll`, one connection. -/
def accept (w : World) : World :=
  { w.setConnection w.nextConnection { dead := false } with
    nextConnection := w.nextConnection + 1 }

def drop (w : World) (i : Nat) : World :=
  let c := w.connections i
  if c.dead then w
  else
    let w := match c.channel with
      | none => w
      | some k =>
        let ch := { w.channels k with gone := true }
        if ch.queued then
          { w.setChannel k ch.leave with queue := w.queue.filter (· ≠ k) }
        else w.setChannel k ch
    w.setConnection i { c with channel := none, dead := true }

/-- The channel `Refuse` and `OnRequest` make. -/
def newChannel (w : World) (ch : Channel) : World :=
  { w.setChannel w.nextChannel ch with nextChannel := w.nextChannel + 1 }

/-- `Refuse` before a request was whole. -/
def refuse (w : World) (i : Nat) (error : Error) (extra : List String) : World :=
  let c := w.connections i
  let ch : Channel :=
    { connection := i, http10 := c.http10, idleTimeout := options.idleTimeout, id := w.nextChannel }
  (w.newChannel (ch.putError j error extra)).setConnection i
    { c with channel := some w.nextChannel, closeAfter := true, state := .busy }

/-- What routing makes of a request: a refusal, an answer of known length, or a chat. -/
inductive Outcome
  | refused (error : Error) (extra : List String)
  | answered (body : Bytes)
  | chat (stream : Bool)

/-- `OnRequest`: the channel, and what is put into it or the queue. -/
def onRequest (w : World) (i : Nat) (keepAlive pipelined : Bool) (outcome : Outcome) : World :=
  let c := { w.connections i with closeAfter := (w.connections i).closeAfter || pipelined }
  let ch : Channel :=
    { connection := i, http10 := c.http10, idleTimeout := options.idleTimeout, id := w.nextChannel
      keepAlive := keepAlive && !c.closeAfter }
  let w := w.setConnection i { c with channel := some w.nextChannel, state := .busy }
  match outcome with
  | .refused error extra => w.newChannel (ch.putError j error extra)
  | .answered body => w.newChannel (ch.answer body)
  | .chat stream =>
    let ch := { ch with stream }
    if !w.stopping && w.healthy && decide (w.queue.length < options.maxQueued) then
      { w.newChannel ch.enter with queue := w.queue ++ [w.nextChannel] }
    else if w.stopping then
      w.newChannel (({ ch with keepAlive := false } : Channel).putError j
        (refusal 503 "the runtime is stopping"))
    else if !w.healthy then
      w.newChannel (ch.putError j (refusal 503
        "the model backend has stopped making progress; retry later" "backend_unresponsive"))
    else
      w.newChannel (ch.putError j (refusal 429
        (toString options.maxQueued ++ " requests are already waiting; retry later")))

/-- `Flush` with nothing left to send: take what the channel has, and once the response is out
    go on to the next request or linger. -/
def flush (w : World) (i : Nat) : World :=
  let c := w.connections i
  match c.channel with
  | none => w
  | some k =>
    let ch := w.channels k
    let w := w.setChannel k ch.take
    if ch.gone then w.drop i
    else if ch.out = [] then
      if ch.ended && c.state = .busy then
        if ch.keepAlive && !c.closeAfter && !w.draining then
          w.setConnection i { c with channel := none, state := .idle, http10 := false }
        else w.setConnection i { c with channel := none, state := .linger }
      else w
    else w.setConnection i { c with wbuf := ch.out }

def onChannel (w : World) (i : Nat) (f : Channel → Channel) : World :=
  match (w.connections i).channel with
  | none => w
  | some k => w.setChannel k (f (w.channels k))

def inputClosed (w : World) (i : Nat) : World :=
  let c := w.connections i
  if c.inputClosed then w
  else (w.onChannel i (·.inputClosed j)).setConnection i
    { c with inputClosed := true, closeAfter := true }

def pipelined (w : World) (i : Nat) : World :=
  (w.onChannel i ({ · with keepAlive := false })).setConnection i
    { w.connections i with closeAfter := true }

/-- The running request's end when its backend stalled: not `gone`, as the connection stays to
    carry the error. -/
def stallRunning (w : World) (message : String) : World :=
  match w.running with
  | none => w
  | some k =>
    let ch := w.channels k
    if ch.ended || ch.gone then w
    else w.setChannel k
      { ch.putError j (refusal 504 message "backend_stalled") with stalled := true }

/-- `WatchBackend`, once `Check` said the backend stalled. -/
def watchBackend (w : World) (message : String) : World :=
  let w := w.stallRunning j message
  { w.each (fun ch => ch.leave.putError j (refusal 503
      "the model backend has stopped making progress; retry later" "backend_unresponsive"))
      w.queue with
    queue := [], healthy := false }

/-- `Sweep`'s section of the queue: `waited` says who waited too long. -/
def expire (w : World) (waited : Nat → Bool) : World :=
  let due i := !(w.channels i).stream && waited i
  { w.each (fun ch => ch.leave.putError j (refusal 429
      "the request waited too long behind others; retry later")) (w.queue.filter due) with
    queue := w.queue.filter fun i => !due i }

def drain (w : World) : World :=
  { w with
    draining := true
    connections := fun i =>
      if (w.connections i).state = .busy then w.connections i
      else { w.connections i with channel := none, dead := true } }

/-- `Run`'s last section: whatever still waits is refused. -/
def refuseQueue (w : World) : World :=
  { w.each (fun ch => ({ ch.leave with keepAlive := false } : Channel).putError j
      (refusal 503 "the runtime is stopping")) w.queue with
    queue := [], stopping := true, driver := .stopped }

end World

/-! ## Steps -/

inductive Label
  | accept
  | readHead (c : Nat)
  | readBody (c : Nat) (http10 expectContinue : Bool)
  | refuse (c : Nat) (error : Error) (extra : List String)
  | request (c : Nat) (keepAlive pipelined : Bool) (outcome : World.Outcome)
  | flush (c : Nat)
  | sent (c n : Nat)
  | drop (c : Nat)
  | pipelined (c : Nat)
  | inputClosed (c : Nat)
  | keepalive (c : Nat)
  | watchBackend (message : String)
  | expire (waited : Nat → Bool)
  | drain
  | take
  | serve
  | admitted
  | emit (reasoning content : Bytes)
  | finish (ending : Channel.Ending)
  | returned
  | beat
  | stop
  | refuseQueue

namespace World

/-- `kContinue`. -/
def continue' : Bytes := ascii "HTTP/1.1 100 Continue\r\n\r\n"

def onServing (w : World) (f : Channel → Channel) : Option World :=
  match w.driver with
  | .serving k => some (w.setChannel k (f (w.channels k)))
  | _ => none

def step (j : Json) (options : Options) (w : World) : Label → Option World
  | .accept => some w.accept
  | .readHead i =>
    let c := w.connections i
    if !c.dead && c.state = .idle then some (w.setConnection i { c with state := .head }) else none
  | .readBody i http10 expectContinue =>
    let c := w.connections i
    if !c.dead && c.state = .head then
      some (w.setConnection i { c with
        state := .body, http10, wbuf := if expectContinue then c.wbuf ++ continue' else c.wbuf })
    else none
  | .refuse i error extra =>
    let c := w.connections i
    if !c.dead && (c.state = .head || c.state = .body) then
      some (w.refuse j options i error extra)
    else none
  | .request i keepAlive pipelined outcome =>
    let c := w.connections i
    if !c.dead && c.state = .body then
      some (w.onRequest j options i keepAlive pipelined outcome)
    else none
  | .flush i => if !(w.connections i).dead && (w.connections i).wbuf = [] then some (w.flush i) else none
  | .sent i n =>
    let c := w.connections i
    if !c.dead && 0 < n && n ≤ c.wbuf.length then
      some (w.setConnection i { c with wbuf := c.wbuf.drop n })
    else none
  | .drop i => some (w.drop i)
  | .pipelined i =>
    if !(w.connections i).dead && (w.connections i).state = .busy then some (w.pipelined i)
    else none
  | .inputClosed i =>
    if !(w.connections i).dead && (w.connections i).state = .busy then some (w.inputClosed j i)
    else none
  | .keepalive i =>
    if !(w.connections i).dead && (w.connections i).state = .busy then
      some (w.onChannel i (·.keepalive j))
    else none
  | .watchBackend message => some (w.watchBackend j message)
  | .expire waited => some (w.expire j waited)
  | .drain => some w.drain
  | .take =>
    match w.driver, w.queue with
    | .idle, i :: rest =>
      if w.stopping then none
      else some { w.setChannel i (w.channels i).leave with queue := rest, driver := .taken i }
    | _, _ => none
  | .serve =>
    match w.driver with
    | .taken i =>
      if (w.channels i).gone then some { w with driver := .idle }
      else some { w with running := some i, driver := .serving i, healthy := true }
    | _ => none
  | .admitted => w.onServing (·.admitted j)
  | .emit reasoning content => w.onServing (·.emit j options reasoning content)
  | .finish ending =>
    match w.driver with
    | .serving i =>
      some { w.setChannel i ((w.channels i).finish j options ending) with driver := .responded i }
    | _ => none
  | .returned =>
    match w.driver with
    | .responded _ => some { w with running := none, driver := .idle, healthy := true }
    | _ => none
  | .beat => some { w with healthy := true }
  | .stop => some { w with stopping := true }
  | .refuseQueue =>
    match w.driver with
    | .idle => some (w.refuseQueue j)
    | _ => none

end World

inductive Reachable (j : Json) (options : Options) : World → Prop
  | start : Reachable j options {}
  | step {w w' : World} {label : Label} (h : Reachable j options w)
      (hstep : w.step j options label = some w') : Reachable j options w'

end JitLlm.Runtime.Api
