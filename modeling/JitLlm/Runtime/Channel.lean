import Mathlib.Tactic.Basic
import Mathlib.Data.List.Infix

/-!
# `runtime/api_server.cc` — `Server::Channel`, one request's response

What is put into a channel's `out`, in the source's own steps, and the shapes its bytes can have.
A channel is `waiting` before its head (an interim 102 at most), `streaming` between the head and
the end, which only an event stream ever is, and `whole` once it ended. Every operation takes one
of these to one of these; nothing is put into a channel that is whole.

The bytes ever appended to `out` are `put`: those the I/O thread has `taken` and those it has not.
The other fields of `History` count what the source only does: heads, ends, the 102, the events,
and the queue entered and left.

The JSON a response carries is a parameter, `Json`; the framing does not depend on it.
-/

namespace JitLlm.Runtime.Api

abbrev Bytes := List UInt8

def ascii (s : String) : Bytes := s.toList.map fun c => UInt8.ofNat c.toNat

/-- `Error`: what a refusal's JSON is made from. -/
structure Error where
  status : Nat
  type : String
  message : String
  param : String := ""
  code : String := ""

def refusal (status : Nat) (message : String) (code : String := "") : Error :=
  { status, message, code
    type :=
      if status = 429 then "rate_limit_error"
      else if status = 403 then "permission_error"
      else if 500 ≤ status then "server_error"
      else "invalid_request_error" }

structure HeadOptions where
  status : Nat
  contentType : String
  length : Option Nat
  chunked : Bool
  keepAlive : Bool
  idleTimeout : Nat
  extra : List String

def reason : Nat → String
  | 100 => "Continue"
  | 200 => "OK"
  | 400 => "Bad Request"
  | 403 => "Forbidden"
  | 404 => "Not Found"
  | 405 => "Method Not Allowed"
  | 408 => "Request Timeout"
  | 411 => "Length Required"
  | 413 => "Content Too Large"
  | 414 => "URI Too Long"
  | 415 => "Unsupported Media Type"
  | 417 => "Expectation Failed"
  | 429 => "Too Many Requests"
  | 500 => "Internal Server Error"
  | 501 => "Not Implemented"
  | 503 => "Service Unavailable"
  | 504 => "Gateway Timeout"
  | 505 => "HTTP Version Not Supported"
  | _ => "Error"

def head (o : HeadOptions) : Bytes :=
  ascii ("HTTP/1.1 " ++ toString o.status ++ " " ++ reason o.status ++ "\r\nContent-Type: " ++
    o.contentType ++ "\r\n" ++
    (match o.length with
    | some n => "Content-Length: " ++ toString n ++ "\r\n"
    | none => if o.chunked then "Transfer-Encoding: chunked\r\n" else "") ++
    "Cache-Control: no-store\r\n" ++
    (if o.keepAlive then
      "Connection: keep-alive\r\nKeep-Alive: timeout=" ++ toString o.idleTimeout ++ "\r\n"
    else "Connection: close\r\n") ++
    String.join (o.extra.map (· ++ "\r\n")) ++ "\r\n")

/-- `http::Chunk`: the last chunk when there is no data. -/
def chunk (data : Bytes) : Bytes :=
  if data = [] then ascii "0\r\n\r\n"
  else ascii (String.ofList (Nat.toDigits 16 data.length)) ++ ascii "\r\n" ++ data ++ ascii "\r\n"

def processing : Bytes := ascii "HTTP/1.1 102 Processing\r\n\r\n"

/-- What a stream's body carries: `Delta`s, the usage, `[DONE]`, an error, a comment. -/
inductive Event
  | role
  | reasoning
  | content
  | finish
  | usage
  | done
  | error
  | keepalive
deriving DecidableEq

/-- The JSON of a response, which another file writes: `ChunkJson` and `UsageChunkJson` of a
    request and a text, `ErrorJson`. -/
structure Json where
  chunk : Nat → Event → Bytes → Bytes
  error : Error → Bytes

/-- What was done to a channel, beside what its own fields say. -/
structure History where
  taken : Bytes := []
  head : Option HeadOptions := none
  interims : Nat := 0
  heads : Nat := 0
  ends : Nat := 0
  events : List Event := []
  entered : Nat := 0
  left : Nat := 0

structure Channel where
  id : Nat := 0
  connection : Nat := 0
  stream : Bool := false
  http10 : Bool := false
  idleTimeout : Nat := 0
  out : Bytes := []
  headSent : Bool := false
  chunked : Bool := false
  keepAlive : Bool := false
  ended : Bool := false
  gone : Bool := false
  stalled : Bool := false
  queued : Bool := false
  history : History := {}

namespace Channel

/-- Every byte ever appended to `out`. -/
def put (ch : Channel) : Bytes := ch.history.taken ++ ch.out

def append (ch : Channel) (bytes : Bytes) : Channel := { ch with out := ch.out ++ bytes }

def record (ch : Channel) (event : Event) : Channel :=
  { ch with history := { ch.history with events := ch.history.events ++ [event] } }

def putHead (ch : Channel) (status : Nat) (type : String) (length : Option Nat)
    (extra : List String := []) : Channel :=
  let chunked := length.isNone && !ch.http10
  let keepAlive := if length.isNone && ch.http10 then false else ch.keepAlive
  let h : HeadOptions :=
    { status, contentType := type, length, chunked, keepAlive, idleTimeout := ch.idleTimeout, extra }
  { ch with
    out := ch.out ++ head h, chunked, keepAlive, headSent := true
    history := { ch.history with head := some h, heads := ch.history.heads + 1 } }

def putBody (ch : Channel) (data : Bytes) : Channel :=
  if data = [] then ch else ch.append (if ch.chunked then chunk data else data)

def putEvent (ch : Channel) (event : Event) (json : Bytes) : Channel :=
  (ch.putBody (ascii "data: " ++ json ++ ascii "\n\n")).record event

def putStart (j : Json) (ch : Channel) : Channel :=
  (ch.putHead 200 "text/event-stream" none).putEvent .role (j.chunk ch.id .role [])

def putEnd (ch : Channel) : Channel :=
  let ch := if ch.chunked then ch.append (chunk []) else ch
  { ch with ended := true, history := { ch.history with ends := ch.history.ends + 1 } }

/-- `PutError`: the whole response before the head, an in-stream event after it. -/
def putError (j : Json) (ch : Channel) (error : Error) (extra : List String := []) : Channel :=
  if ch.headSent then
    (if ch.stream then ch.putEvent .error (j.error error) else ch).putEnd
  else
    let body := j.error error
    let extra := if error.status = 429 ∨ error.status = 503 then
      extra ++ ["Retry-After: 10", "x-should-retry: true"] else extra
    ((ch.putHead error.status "application/json" (some body.length) extra).putBody body).putEnd

end Channel

/-! ## Responses -/

/-- A response on the wire: a 102 or none, a head, and the parts of its body. -/
structure Response where
  interim : Bool
  head : HeadOptions
  parts : List Bytes

namespace Response

def start (r : Response) : Bytes := (if r.interim then processing else []) ++ Api.head r.head

def body (r : Response) : Bytes :=
  if r.head.chunked then r.parts.flatMap chunk else r.parts.flatten

def last (r : Response) : Bytes := if r.head.chunked then chunk [] else []

def bytes (r : Response) : Bytes := r.start ++ r.body ++ r.last

/-- The head says how the body is framed, and it is: by its length exactly, in chunks of which
    none but the last is empty, or by the connection's end. -/
structure Framed (r : Response) : Prop where
  parts : ∀ p ∈ r.parts, p ≠ []
  length : ∀ n, r.head.length = some n → r.head.chunked = false ∧ r.body.length = n
  close : r.head.length = none → r.head.chunked = false → r.head.keepAlive = false

def add (r : Response) (data : Bytes) : Response :=
  if data = [] then r else { r with parts := r.parts ++ [data] }

theorem add_head (r : Response) (data : Bytes) : (r.add data).head = r.head := by
  unfold add
  split <;> rfl

theorem add_start (r : Response) (data : Bytes) : (r.add data).start = r.start := by
  unfold add
  split <;> rfl

theorem add_body (r : Response) (data : Bytes) : (r.add data).body =
    r.body ++ (if data = [] then [] else if r.head.chunked then chunk data else data) := by
  unfold add
  split
  · rw [List.append_nil]
  unfold body
  split <;> simp

theorem Framed.add {r : Response} (h : r.Framed) (hlen : r.head.length = none) (data : Bytes) :
    (r.add data).Framed where
  parts p hp := by
    unfold Response.add at hp
    split at hp
    · exact h.parts p hp
    next hdata =>
    rcases List.mem_append.mp hp with hp | hp
    · exact h.parts p hp
    rw [List.mem_singleton.mp hp]
    exact hdata
  length n hn := by
    rw [add_head, hlen] at hn
    cases hn
  close h1 h2 := by
    rw [add_head] at h1 h2 ⊢
    exact h.close h1 h2

end Response

/-- `[DONE]` after a finish event, and after no error event. -/
def DoneAfterFinish (events : List Event) : Prop :=
  ∀ before after, events = before ++ .done :: after → .finish ∈ before ∧ .error ∉ before

theorem doneAfterFinish_of_not_mem {events : List Event} (h : .done ∉ events) :
    DoneAfterFinish events := by
  intro before after heq
  rw [heq] at h
  exact absurd (List.mem_append_right before List.mem_cons_self) h

namespace Channel

variable {ch : Channel} {r : Response} {j : Json}

structure Waiting (ch : Channel) : Prop where
  headSent : ch.headSent = false
  ended : ch.ended = false
  head : ch.history.head = none
  heads : ch.history.heads = 0
  ends : ch.history.ends = 0
  events : ch.history.events = []
  interims : ch.history.interims ≤ 1
  put : ch.put = if ch.history.interims = 1 then processing else []

/-- Between the head and the end: `r` is what was put. -/
structure Begun (ch : Channel) (r : Response) : Prop where
  headSent : ch.headSent = true
  ended : ch.ended = false
  head : ch.history.head = some r.head
  heads : ch.history.heads = 1
  ends : ch.history.ends = 0
  interims : ch.history.interims ≤ 1
  chunked : ch.chunked = r.head.chunked
  put : ch.put = r.start ++ r.body

structure Streaming (ch : Channel) (r : Response) : Prop extends Begun ch r where
  stream : ch.stream = true
  length : r.head.length = none
  framed : r.Framed
  done : .done ∉ ch.history.events
  error : .error ∉ ch.history.events

structure Whole (ch : Channel) (r : Response) : Prop where
  ended : ch.ended = true
  head : ch.history.head = some r.head
  heads : ch.history.heads = 1
  ends : ch.history.ends = 1
  interims : ch.history.interims ≤ 1
  framed : r.Framed
  done : DoneAfterFinish ch.history.events
  put : ch.put = r.bytes

def Stage (ch : Channel) : Prop := ch.Waiting ∨ (∃ r, ch.Streaming r) ∨ ∃ r, ch.Whole r

structure Ok (ch : Channel) : Prop where
  stage : ch.Stage
  stalled : ch.stalled = true → ch.ended = true
  close : ∀ h, ch.history.head = some h → h.keepAlive = false → ch.keepAlive = false

theorem put_append {bytes : Bytes} : (ch.append bytes).put = ch.put ++ bytes :=
  (List.append_assoc ..).symm

/-! ## What each operation does to a stage -/

/-- The head `putHead` puts. -/
def headOf (ch : Channel) (status : Nat) (type : String) (length : Option Nat)
    (extra : List String) : HeadOptions :=
  { status, contentType := type, length, chunked := length.isNone && !ch.http10
    keepAlive := if length.isNone && ch.http10 then false else ch.keepAlive
    idleTimeout := ch.idleTimeout, extra }

theorem Waiting.putHead (h : ch.Waiting) (status : Nat) (type : String) (length : Option Nat)
    (extra : List String) : (ch.putHead status type length extra).Begun
      ⟨ch.history.interims = 1, ch.headOf status type length extra, []⟩ where
  headSent := rfl
  ended := h.ended
  head := rfl
  heads := by
    show ch.history.heads + 1 = 1
    rw [h.heads]
  ends := h.ends
  interims := h.interims
  chunked := rfl
  put := by
    have hput : (ch.putHead status type length extra).put =
        ch.put ++ Api.head (ch.headOf status type length extra) := (List.append_assoc ..).symm
    rw [hput, h.put]
    simp [Response.start, Response.body]

theorem Begun.putBody (h : ch.Begun r) (data : Bytes) : (ch.putBody data).Begun (r.add data) := by
  unfold Channel.putBody
  by_cases hdata : data = []
  · rw [if_pos hdata]
    unfold Response.add
    rw [if_pos hdata]
    exact h
  rw [if_neg hdata]
  refine ⟨h.headSent, h.ended, ?_, h.heads, h.ends, h.interims, ?_, ?_⟩
  · rw [Response.add_head]
    exact h.head
  · rw [Response.add_head]
    exact h.chunked
  rw [put_append, h.put, Response.add_start, Response.add_body, if_neg hdata, h.chunked,
    List.append_assoc]

theorem Begun.record (h : ch.Begun r) (event : Event) : (ch.record event).Begun r :=
  ⟨h.headSent, h.ended, h.head, h.heads, h.ends, h.interims, h.chunked, h.put⟩

theorem Begun.putEnd (h : ch.Begun r) (hframed : r.Framed)
    (hdone : DoneAfterFinish ch.history.events) : ch.putEnd.Whole r := by
  have hput : ch.putEnd.put = ch.put ++ (if ch.chunked then chunk [] else []) := by
    unfold Channel.putEnd
    simp only
    split
    · exact put_append
    · exact (List.append_nil _).symm
  have hhist : ch.putEnd.history = { ch.history with ends := ch.history.ends + 1 } := by
    unfold Channel.putEnd
    simp only
    split <;> rfl
  refine ⟨rfl, ?_, ?_, ?_, ?_, hframed, ?_, ?_⟩
  · rw [hhist]
    exact h.head
  · rw [hhist]
    exact h.heads
  · rw [hhist]
    show ch.history.ends + 1 = 1
    rw [h.ends]
  · rw [hhist]
    exact h.interims
  · rw [hhist]
    exact hdone
  rw [hput, h.put, h.chunked]
  rfl

theorem Waiting.answer (h : ch.Waiting) (status : Nat) (type : String) (body : Bytes)
    (extra : List String) :
    ∃ r, (((ch.putHead status type (some body.length) extra).putBody body).putEnd).Whole r := by
  have hbegun := (h.putHead status type (some body.length) extra).putBody body
  refine ⟨_, hbegun.putEnd ⟨fun p hp => ?_, fun n hn => ?_, fun hn => ?_⟩ ?_⟩
  · unfold Response.add at hp
    split at hp
    · cases hp
    next hbody =>
    rw [List.mem_singleton.mp hp]
    exact hbody
  · rw [Response.add_head] at hn
    refine ⟨by rw [Response.add_head]; rfl, ?_⟩
    rw [Response.add_body, ← Option.some.inj hn]
    by_cases hbody : body = []
    · rw [if_pos hbody, hbody]
      rfl
    rw [if_neg hbody]
    rfl
  · rw [Response.add_head] at hn
    cases hn
  have heve : ((ch.putHead status type (some body.length) extra).putBody body).history.events =
      [] := by
    unfold Channel.putBody
    split <;> exact h.events
  rw [heve]
  exact doneAfterFinish_of_not_mem List.not_mem_nil

theorem putBody_stream (ch : Channel) (data : Bytes) : (ch.putBody data).stream = ch.stream := by
  unfold putBody
  split <;> rfl

theorem putBody_events (ch : Channel) (data : Bytes) :
    (ch.putBody data).history.events = ch.history.events := by
  unfold putBody
  split <;> rfl

theorem putEvent_events (ch : Channel) (event : Event) (json : Bytes) :
    (ch.putEvent event json).history.events = ch.history.events ++ [event] := by
  unfold putEvent record
  rw [putBody_events]

theorem Streaming.record (h : ch.Streaming r) (event : Event) (data : Bytes)
    (hdone : event ≠ .done) (herror : event ≠ .error) :
    ∃ r', ((ch.putBody data).record event).Streaming r' := by
  refine ⟨r.add data, ⟨(h.toBegun.putBody data).record event, ?_, ?_, h.framed.add h.length data,
    ?_, ?_⟩⟩
  · exact (putBody_stream ch data).trans h.stream
  · rw [Response.add_head]
    exact h.length
  · show .done ∉ (ch.putBody data).history.events ++ [event]
    rw [putBody_events]
    simp [h.done, hdone.symm]
  show .error ∉ (ch.putBody data).history.events ++ [event]
  rw [putBody_events]
  simp [h.error, herror.symm]

theorem Waiting.putStart (h : ch.Waiting) (hstream : ch.stream = true) :
    ∃ r, (ch.putStart j).Streaming r := by
  have hbegun := h.putHead 200 "text/event-stream" none []
  have hstart : (ch.putHead 200 "text/event-stream" none).Streaming
      ⟨ch.history.interims = 1, ch.headOf 200 "text/event-stream" none [], []⟩ := by
    refine ⟨hbegun, hstream, rfl, ⟨nofun, nofun, ?_⟩, ?_, ?_⟩
    · intro _ hchun
      have hhttp10 : ch.http10 = true := by simpa [headOf] using hchun
      simp [headOf, hhttp10]
    · show .done ∉ ch.history.events
      rw [h.events]
      exact List.not_mem_nil
    show .error ∉ ch.history.events
    rw [h.events]
    exact List.not_mem_nil
  exact hstart.record .role _ (by decide) (by decide)

theorem Streaming.putError (h : ch.Streaming r) (error : Error) (extra : List String) :
    ∃ r, (ch.putError j error extra).Whole r := by
  unfold Channel.putError
  rw [if_pos h.headSent, if_pos h.stream]
  refine ⟨_, ((h.toBegun.putBody _).record .error).putEnd (h.framed.add h.length _) ?_⟩
  apply doneAfterFinish_of_not_mem
  show .done ∉ (ch.putBody _).history.events ++ [.error]
  rw [putBody_events]
  simp [h.done]

theorem Waiting.putError (h : ch.Waiting) (error : Error) (extra : List String) :
    ∃ r, (ch.putError j error extra).Whole r := by
  have hsent : ¬ch.headSent = true := by rw [h.headSent]; exact nofun
  unfold Channel.putError
  rw [if_neg hsent]
  exact h.answer error.status "application/json" (j.error error) _

theorem Stage.putError (h : ch.Stage) (hended : ch.ended = false) (error : Error)
    (extra : List String) : ∃ r, (ch.putError j error extra).Whole r := by
  rcases h with h | ⟨r, h⟩ | ⟨r, h⟩
  · exact h.putError error extra
  · exact h.putError error extra
  rw [h.ended] at hended
  cases hended

end Channel
end JitLlm.Runtime.Api
