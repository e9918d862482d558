import JitLlm.Runtime.ApiServer
import JitLlm.Runtime.HttpFraming

/-!
# How a request arrives

`Server::OnReadable` from `kIdle`: each `recv` gives a piece of at most `most` bytes, and the head
is looked for in all that came (`receive`). `Arrives` is a stream cut into pieces in any way, up to the
end of the reading or of the stream.

What a stream leads to does not depend on the cut where its first blank line ends within
`kMaxHeaderBytes`, or past the four bytes after them: `FindHeadEnd` gives up on a buffer of
`kMaxHeaderBytes`, but a larger piece may bring a head of up to four bytes more. Within those four
bytes a head is refused when a piece ends there and taken when none does.

The socket's other answers (`EINTR`, `EAGAIN`, the end), the clock and what is sent are not in the
model, but for the interim response that is queued.
-/

namespace JitLlm.Runtime.Http

open List

open Lib (find find_take find_some find_append find_cons_of_not)
open Api (Bytes ascii)

def kReadChunk : Nat := 65536
def kMaxHeaderBytes : Nat := 16 * 2 ^ 10

/-- `OnReadable`'s limits. -/
def serverLimits : Limits where
  maxHeaderBytes := kMaxHeaderBytes
  maxHeaders := 64
  maxTargetBytes := 2048
  maxBodyBytes := 4 * 2 ^ 20

/-- The states of a connection that is read from, and how the reading ends. -/
inductive ReadState
  | idle
  | head
  | body
  | refused (failure : Failure)
  | requested (request : Request)
deriving DecidableEq

/-- A connection's reading side. `bodyInUse` is the server's. -/
structure Reading where
  state : ReadState := .idle
  input : Bytes := []
  headEnd : Nat := 0
  request : Request := {}
  reserved : Nat := 0
  bodyInUse : Nat := 0
  closeAfter : Bool := false
  wbuf : Bytes := []

namespace Reading

/-- How much `recv` is asked for. -/
def most (x : Reading) : Nat :=
  if x.state = .body then min kReadChunk (x.headEnd + x.request.bodyBytes - x.input.length)
  else min kReadChunk
    (serverLimits.maxHeaderBytes + 4 - min x.input.length serverLimits.maxHeaderBytes)

def complete (x : Reading) : Reading :=
  if x.state = .body ∧ x.headEnd + x.request.bodyBytes ≤ x.input.length then
    { x with
      state := .requested
        { x.request with body := (x.input.drop x.headEnd).take x.request.bodyBytes }
      closeAfter := x.closeAfter || x.headEnd + x.request.bodyBytes < x.input.length
      input := []
      bodyInUse := x.bodyInUse - x.reserved
      reserved := 0
      request := { http10 := x.request.http10 } }
  else x

def takeHead (x : Reading) (request : Request) : Reading :=
  { x with
    request
    bodyInUse := x.bodyInUse + request.bodyBytes
    reserved := if 0 < request.bodyBytes then request.bodyBytes else x.reserved
    state := .body
    wbuf := if request.expectContinue && x.input.length < x.headEnd + request.bodyBytes then
      x.wbuf ++ Api.World.continue' else x.wbuf }

def tooMany : Failure := ⟨503, "too many request bodies are arriving at once; retry later"⟩

def receive (bodyBudget : Nat) (x : Reading) (piece : Bytes) : Reading :=
  let x := { x with
    state := if x.state = .idle then .head else x.state
    input := x.input ++ piece }
  if x.state = .head then
    match findHeadEnd x.input serverLimits with
    | .error failure => { x with state := .refused failure }
    | .ok none => x
    | .ok (some headEnd) =>
      match parseHead (x.input.take headEnd) serverLimits with
      | .error failure => { x with state := .refused failure }
      | .ok request =>
        let x := { x with headEnd }
        if 0 < request.bodyBytes ∧ bodyBudget < x.bodyInUse + request.bodyBytes then
          { x with request, state := .refused tooMany }
        else (x.takeHead request).complete
  else x.complete

def ended (x : Reading) : Bool :=
  match x.state with
  | .refused _ => true
  | .requested _ => true
  | _ => false

/-- A stream read in pieces, none empty and none more than is asked for. -/
inductive Arrives (bodyBudget : Nat) : Reading → Bytes → Reading → Prop
  | ended {x stream} : x.ended = true → Arrives bodyBudget x stream x
  | dry {x} : x.ended = false → Arrives bodyBudget x [] x
  | piece {x piece stream y} : x.ended = false → piece ≠ [] → piece.length ≤ x.most →
      Arrives bodyBudget (x.receive bodyBudget piece) stream y →
        Arrives bodyBudget x (piece ++ stream) y

end Reading

inductive Outcome
  | incomplete
  | refused (status : Nat)
  | head (request : Request) (bodyStart : Nat)
deriving DecidableEq

def Reading.outcome (x : Reading) : Outcome :=
  match x.state with
  | .idle | .head => .incomplete
  | .body => .head x.request x.headEnd
  | .refused failure => .refused failure.status
  | .requested request => .head { request with body := [] } x.headEnd

section Arrival

variable {bodyBudget : Nat} {x y : Reading} {c rest stream : Bytes}

/-- A reading still without its head: all that came has no blank line, and is not too long. -/
structure Waiting (x : Reading) (c : Bytes) : Prop where
  state : x.state = .idle ∨ x.state = .head
  input : x.input = c
  short : c.length < kMaxHeaderBytes
  blankless : find blankLine c = none

theorem Waiting.ended (h : Waiting x c) : x.ended = false := by
  unfold Reading.ended
  rcases h.state with hs | hs <;> rw [hs]

theorem Waiting.outcome (h : Waiting x c) : x.outcome = .incomplete := by
  unfold Reading.outcome
  rcases h.state with hs | hs <;> rw [hs]

theorem Waiting.most (h : Waiting x c) :
    x.most = min kReadChunk (kMaxHeaderBytes + 4 - c.length) := by
  have hnot : ¬ x.state = .body := by
    rcases h.state with hs | hs <;> rw [hs] <;> exact ReadState.noConfusion
  have hshort := h.short
  unfold Reading.most
  rw [if_neg hnot, h.input]
  show min kReadChunk (kMaxHeaderBytes + 4 - min c.length kMaxHeaderBytes) = _
  rw [Nat.min_eq_left (Nat.le_of_lt hshort)]

def headOutcome (bodyBudget bodyInUse : Nat) (head : Bytes) : Outcome :=
  match parseHead head serverLimits with
  | .error failure => .refused failure.status
  | .ok request =>
    if 0 < request.bodyBytes ∧ bodyBudget < bodyInUse + request.bodyBytes then .refused 503
    else .head request head.length

theorem parseHead_body {full : Bytes} {limits : Limits} {r : Request}
    (h : parseHead full limits = .ok r) : r.body = [] := by
  obtain ⟨r0, first, lines, hs, length, -, -, -, hfirst, -, -, hfin⟩ := parseHead_iff.mp h
  obtain ⟨-, -, -, hbody⟩ := parseRequestLine_ok hfirst
  obtain ⟨-, -, -, -, -, -, -, hkept⟩ := finishHead_ok hfin
  exact hkept.trans hbody

/-- A reading past its head: it goes on for its body, if at all. -/
structure Past (x : Reading) : Prop where
  state : x.ended = true ∨ x.state = .body
  more : x.state = .body → x.input.length < x.headEnd + x.request.bodyBytes
  body : x.state = .body → x.request.body = []

theorem complete_past (hstate : x.state = .body) (hbody : x.request.body = []) :
    Past x.complete ∧ x.complete.outcome = .head x.request x.headEnd := by
  unfold Reading.complete
  split
  · refine ⟨⟨.inl rfl, fun h => (nomatch h), fun h => (nomatch h)⟩, ?_⟩
    simp only [Reading.outcome]
    rw [← hbody]
  rename_i hmore
  refine ⟨⟨.inr hstate, fun _ => ?_, fun _ => hbody⟩, ?_⟩
  · simp only [hstate, true_and] at hmore
    omega
  · simp only [Reading.outcome, hstate]

theorem Past.receive (bodyBudget : Nat) (h : Past x) (hover : x.ended = false) (piece : Bytes) :
    Past (x.receive bodyBudget piece) ∧ (x.receive bodyBudget piece).outcome = x.outcome := by
  have hstate : x.state = .body := by
    rcases h.state with hs | hs
    · rw [hover] at hs
      cases hs
    · exact hs
  have heq : x.receive bodyBudget piece =
      Reading.complete { x with state := .body, input := x.input ++ piece } := by
    simp [Reading.receive, hstate]
  obtain ⟨hpast, hout⟩ := complete_past (x := { x with
    state := .body, input := x.input ++ piece }) rfl (h.body hstate)
  rw [heq]
  refine ⟨hpast, hout.trans ?_⟩
  simp only [Reading.outcome, hstate]

theorem Past.arrives (harr : x.Arrives bodyBudget rest y) (h : Past x) : y.outcome = x.outcome := by
  induction harr with
  | ended | dry => rfl
  | piece hover _ _ _ ih =>
    obtain ⟨hpast, hout⟩ := h.receive _ hover _
    exact (ih hpast).trans hout

theorem Waiting.receive (bodyBudget : Nat) (h : Waiting x c) {piece : Bytes}
    (hmost : piece.length ≤ x.most) :
    (find blankLine (c ++ piece) = none ∧ (c ++ piece).length < kMaxHeaderBytes ∧
      Waiting (x.receive bodyBudget piece) (c ++ piece) ∧
      (x.receive bodyBudget piece).bodyInUse = x.bodyInUse) ∨
    (find blankLine (c ++ piece) = none ∧ kMaxHeaderBytes ≤ (c ++ piece).length ∧
      Past (x.receive bodyBudget piece) ∧
      (x.receive bodyBudget piece).outcome = .refused 413) ∨
    (∃ a, find blankLine (c ++ piece) = some a ∧ Past (x.receive bodyBudget piece) ∧
      (x.receive bodyBudget piece).outcome =
        headOutcome bodyBudget x.bodyInUse ((c ++ piece).take (a + 4))) := by
  have hshort := h.short
  rw [h.most] at hmost
  have hlen : (c ++ piece).length ≤ kMaxHeaderBytes + 4 := by
    rw [length_append]
    omega
  have htake : (c ++ piece).take (serverLimits.maxHeaderBytes + 4) = c ++ piece :=
    take_of_length_le hlen
  have hstate : (if x.state = .idle then ReadState.head else x.state) = .head := by
    rcases h.state with hs | hs <;> simp [hs]
  cases hfind : find blankLine (c ++ piece) with
  | none =>
    by_cases hlong : kMaxHeaderBytes ≤ (c ++ piece).length
    · refine .inr (.inl ⟨rfl, hlong, ?_⟩)
      have heq : x.receive bodyBudget piece = { x with
          state := .refused (tooLong serverLimits), input := c ++ piece } := by
        simp only [Reading.receive, hstate, h.input, findHeadEnd, htake, hfind, if_true]
        rw [if_pos (show serverLimits.maxHeaderBytes ≤ _ from hlong)]
      rw [heq]
      exact ⟨⟨.inl rfl, (fun h => by cases h), fun h => by cases h⟩, rfl⟩
    refine .inl ⟨rfl, Nat.not_le.mp hlong, ?_⟩
    have heq : x.receive bodyBudget piece = { x with state := .head, input := c ++ piece } := by
      simp only [Reading.receive, hstate, h.input, findHeadEnd, htake, hfind, if_true]
      rw [if_neg (show ¬ serverLimits.maxHeaderBytes ≤ _ from hlong)]
    rw [heq]
    exact ⟨⟨.inr rfl, rfl, Nat.not_le.mp hlong, hfind⟩, rfl⟩
  | some a =>
    refine .inr (.inr ⟨a, rfl, ?_⟩)
    have hend : a + 4 ≤ (c ++ piece).length := (find_some hfind).2
    unfold headOutcome
    simp only [Reading.receive, hstate, h.input, findHeadEnd, htake, hfind, if_true]
    rcases hparse : parseHead ((c ++ piece).take (a + 4)) serverLimits with _ | _
    · exact ⟨⟨.inl rfl, (fun h => by cases h), fun h => by cases h⟩, rfl⟩
    simp only
    split
    · exact ⟨⟨.inl rfl, (fun h => by cases h), fun h => by cases h⟩, rfl⟩
    rw [length_take, Nat.min_eq_left hend]
    exact complete_past rfl (parseHead_body hparse)

/-- A head whose blank line ends in the four bytes past the limit is itself too long in some other
    way: `ParseHead` answers it with the same status. -/
def Timely (stream : Bytes) : Prop :=
  ∀ a, find blankLine stream = some a → kMaxHeaderBytes < a + 4 → a + 4 ≤ kMaxHeaderBytes + 4 →
    ∃ failure, parseHead (stream.take (a + 4)) serverLimits = .error failure ∧ failure.status = 413

def verdict (bodyBudget bodyInUse : Nat) (stream : Bytes) : Outcome :=
  match find blankLine stream with
  | some a =>
    if a + 4 ≤ kMaxHeaderBytes then headOutcome bodyBudget bodyInUse (stream.take (a + 4))
    else .refused 413
  | none => if kMaxHeaderBytes ≤ stream.length then .refused 413 else .incomplete

theorem find_so_far {l a : Nat} :
    find blankLine (stream.take l) = some a ↔ find blankLine stream = some a ∧ a + 4 ≤ l := by
  rw [find_take (by decide)]
  rcases find blankLine stream with _ | b
  · simp
  show (if b + 4 ≤ l then some b else none) = some a ↔ _
  split
  · constructor
    · intro h
      cases h
      exact ⟨rfl, by assumption⟩
    · exact fun h => h.1
  constructor
  · intro h
    cases h
  rintro ⟨h, hle⟩
  cases h
  contradiction

theorem Waiting.arrives (harr : x.Arrives bodyBudget rest y) :
    ∀ {c : Bytes}, Waiting x c → Timely (c ++ rest) →
      y.outcome = verdict bodyBudget x.bodyInUse (c ++ rest) := by
  induction harr with
  | ended hover =>
    intro c h
    rw [h.ended] at hover
    cases hover
  | dry =>
    intro c h _
    have hshort := h.short
    rw [h.outcome, append_nil, verdict, h.blankless]
    exact (if_neg (by omega)).symm
  | @piece x piece rest y hover _ hmost harr ih =>
    intro c h htim
    rw [← append_assoc] at htim ⊢
    have hsofar : ∀ a, find blankLine (c ++ piece) = some a ↔
        find blankLine (c ++ piece ++ rest) = some a ∧ a + 4 ≤ (c ++ piece).length := by
      intro a
      rw [← find_so_far, take_left]
    rcases h.receive bodyBudget hmost with
      ⟨-, -, hwait, huse⟩ | ⟨hnone, hlong, hpast, href⟩ | ⟨a, hfind, hpast, hout⟩
    · rw [ih hwait htim, huse]
    · rw [hpast.arrives harr, href, verdict]
      cases hwhole : find blankLine (c ++ piece ++ rest) with
      | none =>
        simp only
        rw [if_pos]
        rw [length_append]
        omega
      | some a =>
        simp only
        rw [if_neg]
        intro hle
        rw [(hsofar a).mpr ⟨hwhole, by omega⟩] at hnone
        cases hnone
    obtain ⟨hwhole, hle⟩ := (hsofar a).mp hfind
    have htake : (c ++ piece).take (a + 4) = (c ++ piece ++ rest).take (a + 4) :=
      (take_append_of_le_length hle).symm
    rw [hpast.arrives harr, hout, verdict, hwhole, htake]
    simp only
    split
    · rfl
    rename_i hlate
    have hlen := h.most ▸ hmost
    have hshort := h.short
    rw [length_append] at hle
    obtain ⟨failure, hparse, hstatus⟩ := htim a hwhole (by omega) (by omega)
    unfold headOutcome
    rw [hparse]
    exact congrArg Outcome.refused hstatus

/-! ### Cuts there are -/

theorem Past.exists_arrives (bodyBudget : Nat) (h : Past x) (stream : Bytes) :
    ∃ y, x.Arrives bodyBudget stream y := by
  induction stream generalizing x with
  | nil =>
    cases hover : x.ended with
    | true => exact ⟨x, .ended hover⟩
    | false => exact ⟨x, .dry hover⟩
  | cons b stream ih =>
    cases hover : x.ended with
    | true => exact ⟨x, .ended hover⟩
    | false =>
      have hstate : x.state = .body := by
        rcases h.state with hs | hs
        · rw [hover] at hs
          cases hs
        · exact hs
      have hmore := h.more hstate
      obtain ⟨y, hy⟩ := ih (h.receive bodyBudget hover [b]).1
      refine ⟨y, Reading.Arrives.piece hover (cons_ne_nil b []) ?_ hy⟩
      unfold Reading.most
      rw [if_pos hstate, length_singleton]
      have : 1 ≤ kReadChunk := by decide
      omega

theorem Waiting.more (bodyBudget : Nat) (h : Waiting x c) {p : Bytes}
    (hnone : find blankLine (c ++ p) = none) (hshort : (c ++ p).length < kMaxHeaderBytes) :
    ∃ x', Waiting x' (c ++ p) ∧ x'.bodyInUse = x.bodyInUse ∧
      ∀ stream y, x'.Arrives bodyBudget stream y → x.Arrives bodyBudget (p ++ stream) y := by
  induction p generalizing x c with
  | nil => exact ⟨x, by rwa [append_nil], rfl, fun _ _ hy => hy⟩
  | cons b p ih =>
    have heq : c ++ b :: p = c ++ [b] ++ p := by simp
    rw [heq] at hnone hshort ⊢
    have hb : find blankLine (c ++ [b]) = none := by
      rcases hb : find blankLine (c ++ [b]) with _ | _
      · rfl
      have htake : (c ++ [b] ++ p).take (c ++ [b]).length = c ++ [b] := take_left
      rw [← htake] at hb
      rw [(find_so_far.mp hb).1] at hnone
      cases hnone
    have hlen : (c ++ [b]).length < kMaxHeaderBytes := by
      rw [length_append] at hshort
      omega
    have hone : 1 ≤ kReadChunk := by decide
    have hmost : [b].length ≤ x.most := by
      rw [h.most, length_singleton]
      have := h.short
      omega
    rcases h.receive bodyBudget hmost with
      ⟨-, -, hwait, huse⟩ | ⟨-, hlong, -, -⟩ | ⟨a, hfind, -, -⟩
    · obtain ⟨x', hwait', huse', hrun⟩ := ih hwait hnone hshort
      refine ⟨x', hwait', huse'.trans huse, fun stream y hy => ?_⟩
      show x.Arrives bodyBudget ([b] ++ (p ++ stream)) y
      exact .piece h.ended (cons_ne_nil b []) hmost (hrun stream y hy)
    · omega
    rw [hb] at hfind
    cases hfind

theorem Waiting.jump (bodyBudget : Nat) (hidle : Waiting x []) {k : Nat}
    (hnone : find blankLine (stream.take (kMaxHeaderBytes - 1)) = none)
    (hlow : kMaxHeaderBytes ≤ k) (hhigh : k ≤ kMaxHeaderBytes + 4) (hlen : k ≤ stream.length) :
    ∃ x' piece, Waiting x' (stream.take (kMaxHeaderBytes - 1)) ∧ x'.bodyInUse = x.bodyInUse ∧
      stream.take (kMaxHeaderBytes - 1) ++ piece = stream.take k ∧ piece.length ≤ x'.most ∧
      ∀ y, Reading.Arrives bodyBudget (x'.receive bodyBudget piece) (stream.drop k) y →
        x.Arrives bodyBudget stream y := by
  have hpos : 0 < kMaxHeaderBytes := by decide
  have hchunk : 5 ≤ kReadChunk := by decide
  have hshort : (stream.take (kMaxHeaderBytes - 1)).length < kMaxHeaderBytes := by
    rw [length_take]
    omega
  obtain ⟨x', hwait, huse, hrun⟩ := hidle.more bodyBudget hnone hshort
  rw [nil_append] at hwait
  refine ⟨x', (stream.drop (kMaxHeaderBytes - 1)).take (k - (kMaxHeaderBytes - 1)), hwait, huse,
    ?_, ?_, fun y hy => ?_⟩
  · rw [← take_add, Nat.add_sub_of_le (by omega)]
  · rw [hwait.most, length_take, length_take, length_drop]
    omega
  have hsplit : stream = stream.take (kMaxHeaderBytes - 1) ++
      ((stream.drop (kMaxHeaderBytes - 1)).take (k - (kMaxHeaderBytes - 1)) ++ stream.drop k) := by
    rw [← append_assoc, ← take_add, Nat.add_sub_of_le (by omega), take_append_drop]
  rw [hsplit]
  refine hrun _ y (.piece hwait.ended ?_ ?_ hy)
  · intro hnil
    have := congrArg List.length hnil
    rw [length_take, length_drop, length_nil] at this
    omega
  rw [hwait.most, length_take, length_take, length_drop]
  omega

theorem Waiting.two (bodyBudget : Nat) (hidle : Waiting x []) {a : Nat}
    (ha : find blankLine stream = some a) (hlow : kMaxHeaderBytes < a + 4)
    (hhigh : a + 4 ≤ kMaxHeaderBytes + 4) :
    (∃ y, x.Arrives bodyBudget stream y ∧ y.outcome = .refused 413) ∧
    ∃ z, x.Arrives bodyBudget stream z ∧
      z.outcome = headOutcome bodyBudget x.bodyInUse (stream.take (a + 4)) := by
  have hlen : a + 4 ≤ stream.length := (find_some ha).2
  have hbef : ∀ k, k < a + 4 → find blankLine (stream.take k) = none := by
    intro k hk
    rcases hfind : find blankLine (stream.take k) with _ | _
    · rfl
    obtain ⟨hb, hle⟩ := find_so_far.mp hfind
    rw [ha] at hb
    cases hb
    omega
  constructor
  · obtain ⟨x', piece, hwait, -, hpiece, hmost, hrun⟩ := hidle.jump bodyBudget
      (hbef _ (by omega)) (Nat.le_refl _) (by omega) (Nat.le_trans (Nat.le_of_lt hlow) hlen)
    have htake := length_take_of_le (Nat.le_trans (Nat.le_of_lt hlow) hlen)
    rcases hwait.receive bodyBudget hmost with
      ⟨-, hshort, -, -⟩ | ⟨-, -, hpast, href⟩ | ⟨b, hfind, -, -⟩
    · rw [hpiece] at hshort
      omega
    · obtain ⟨y, hy⟩ := hpast.exists_arrives bodyBudget (stream.drop kMaxHeaderBytes)
      exact ⟨y, hrun y hy, (hpast.arrives hy).trans href⟩
    rw [hpiece, hbef _ hlow] at hfind
    cases hfind
  obtain ⟨x', piece, hwait, huse, hpiece, hmost, hrun⟩ := hidle.jump bodyBudget
    (hbef _ (by omega)) (Nat.le_of_lt hlow) hhigh hlen
  have hfound : find blankLine (stream.take (a + 4)) = some a := find_so_far.mpr ⟨ha, Nat.le_refl _⟩
  rcases hwait.receive bodyBudget hmost with
    ⟨hnone, -⟩ | ⟨hnone, -⟩ | ⟨b, hfind, hpast, hout⟩
  · rw [hpiece, hfound] at hnone
    cases hnone
  · rw [hpiece, hfound] at hnone
    cases hnone
  rw [hpiece, hfound] at hfind
  cases hfind
  obtain ⟨z, hz⟩ := hpast.exists_arrives bodyBudget (stream.drop (a + 4))
  refine ⟨z, hrun z hz, (hpast.arrives hz).trans (hout.trans ?_)⟩
  rw [hpiece, take_take, Nat.min_self, huse]

theorem waiting_idle (hstate : x.state = .idle) (hinput : x.input = []) : Waiting x [] :=
  ⟨.inl hstate, hinput, by decide, rfl⟩

/-- **How a request head arrives does not matter, exactly where it is timely.** -/
theorem arrives_agree_iff (hstate : x.state = .idle) (hinput : x.input = []) (stream : Bytes) :
    (∀ y z, x.Arrives bodyBudget stream y → x.Arrives bodyBudget stream z →
      y.outcome = z.outcome) ↔ Timely stream := by
  have hidle := waiting_idle hstate hinput
  constructor
  · intro hagree a ha hlow hhigh
    obtain ⟨⟨y, hy, href⟩, z, hz, hout⟩ := hidle.two bodyBudget ha hlow hhigh
    have hsame := (hout.symm.trans (hagree y z hy hz).symm).trans href
    unfold headOutcome at hsame
    split at hsame
    next failure hparse =>
      exact ⟨failure, hparse, Outcome.refused.inj hsame⟩
    split at hsame
    · exact absurd (Outcome.refused.inj hsame) (by decide)
    · cases hsame
  intro htim y z hy hz
  rw [Waiting.arrives hy hidle htim, Waiting.arrives hz hidle htim]

end Arrival

/-! ## A late head -/

theorem find_blankLine {lines : List Bytes} (hlines : ∀ l ∈ lines, IsLine l ∧ l ≠ []) :
    ∀ {l : Bytes}, IsLine l → find blankLine (joined (l :: lines) ++ crlf) =
      some ((joined (l :: lines)).length - 2) := by
  have hskip : ∀ (l rest : Bytes), cr ∉ l →
      find blankLine (l ++ rest) = (find blankLine rest).map (· + l.length) := by
    intro l rest hl
    induction l with
    | nil => simp
    | cons b l ih =>
      have hne : ¬ blankLine <+: b :: (l ++ rest) := fun hp =>
        hl ((cons_prefix_cons.mp hp).1 ▸ mem_cons_self)
      rw [cons_append, find_cons_of_not hne, ih fun h => hl (mem_cons_of_mem _ h), Option.map_map]
      congr 1
  induction lines with
  | nil =>
    intro l hl
    rw [joined_cons, show l ++ crlf ++ joined [] ++ crlf = l ++ (blankLine ++ []) by
      simp [joined, crlf, blankLine], hskip _ _ hl.1, Lib.find_prefix]
    simp [joined, crlf]
  | cons l' lines ih =>
    intro l hl
    obtain ⟨hl', hne⟩ := hlines l' mem_cons_self
    have hrest := ih (fun m hm => hlines m (mem_cons_of_mem _ hm)) hl'
    obtain ⟨b, t, rfl⟩ := exists_cons_of_ne_nil hne
    obtain ⟨u, hu⟩ : ∃ u, joined ((b :: t) :: lines) ++ crlf = b :: u :=
      ⟨t ++ crlf ++ joined lines ++ crlf, by rw [joined_cons]; rfl⟩
    have hcr : ¬ blankLine <+: cr :: lf :: b :: u := by
      intro hp
      have hthird := (cons_prefix_cons.mp (cons_prefix_cons.mp hp).2).2
      exact hl'.1 ((cons_prefix_cons.mp hthird).1 ▸ mem_cons_self)
    have hlf : ¬ blankLine <+: lf :: b :: u := fun hp =>
      absurd (cons_prefix_cons.mp hp).1 (by decide)
    rw [joined_cons l, show l ++ crlf ++ joined ((b :: t) :: lines) ++ crlf =
        l ++ (cr :: lf :: (joined ((b :: t) :: lines) ++ crlf)) by simp [crlf],
      hskip _ _ hl.1]
    rw [hu, find_cons_of_not hcr, find_cons_of_not hlf, ← hu, hrest]
    have : 2 ≤ (joined ((b :: t) :: lines)).length := by
      rw [joined_cons]
      simp only [crlf, length_append, length_cons]
      omega
    simp only [Option.map_some, length_append, crlf, length_cons, length_nil]
    congr 1
    omega

theorem trim_replicate (n : Nat) {c : UInt8} (hc : isBlank c = false) :
    trim (List.replicate n c) = List.replicate n c := by
  have hdrop : (List.replicate n c).dropWhile isBlank = List.replicate n c := by
    rw [dropWhile_replicate, if_neg (by rw [hc]; exact Bool.false_ne_true)]
  unfold trim List.rdropWhile
  rw [hdrop, reverse_replicate, hdrop, reverse_replicate]

def lateHeader : Header := ⟨ascii "a", List.replicate 16366 0x62⟩

def lateHead : Bytes :=
  joined [ascii "GET / HTTP/1.1", ascii "a" ++ colon :: lateHeader.value] ++ crlf

def lateRequest : Request where
  method := ascii "GET"
  target := ascii "/"
  path := ascii "/"
  headers := [lateHeader]

theorem lateHead_lines :
    ∀ l ∈ [ascii "GET / HTTP/1.1", ascii "a" ++ colon :: lateHeader.value], IsLine l ∧ l ≠ [] := by
  intro l hl
  rcases mem_cons.mp hl with rfl | hl
  · exact ⟨⟨by decide, by decide⟩, by decide⟩
  rw [mem_singleton.mp hl]
  refine ⟨⟨?_, ?_⟩, cons_ne_nil _ _⟩
  all_goals
    intro hmem
    rcases mem_append.mp hmem with hmem | hmem
    · exact absurd hmem (by decide)
    rcases mem_cons.mp hmem with hmem | hmem
    · exact absurd hmem (by decide)
    · exact absurd (eq_of_mem_replicate hmem) (by decide)

theorem lateHead_length : lateHead.length = kMaxHeaderBytes + 4 := by
  unfold lateHead
  rw [joined_cons, joined_cons]
  simp only [length_append, length_cons, lateHeader, length_replicate]
  decide

theorem lateHead_find : find blankLine lateHead = some kMaxHeaderBytes := by
  have hlines := lateHead_lines
  have hfind := find_blankLine (fun l hl => hlines l (mem_cons_of_mem _ hl))
    (hlines _ mem_cons_self).1
  have hlen := lateHead_length
  unfold lateHead at hlen ⊢
  rw [length_append, show crlf.length = 2 from rfl] at hlen
  rw [hfind]
  refine congrArg some ?_
  omega

theorem lateHead_parsed : parseHead lateHead serverLimits = .ok lateRequest := by
  refine parseHead_iff.mpr ⟨{ lateRequest with headers := [] }, ascii "GET / HTTP/1.1",
    [ascii "a" ++ colon :: lateHeader.value], [lateHeader], -1, rfl, ?_, ?_, rfl,
    .cons ⟨⟨ascii "a", [], [], ?_, by decide, ?_, fun _ hb => (nomatch hb),
      fun _ hb => (nomatch hb), rfl⟩, ?_, ?_⟩ .nil,
    .cons ⟨by decide, fun h => absurd h (by decide), by decide, fun h => absurd h (by decide),
      fun _ => rfl⟩ .nil, rfl⟩
  · exact Nat.le_of_eq lateHead_length
  · exact fun l hl => (lateHead_lines l hl).1
  · simp
  · intro b hb
    rw [mem_singleton.mp hb]
    rfl
  · exact trim_replicate _ rfl
  intro c hc
  rw [eq_of_mem_replicate hc]
  rfl

/-- One head, cut in two ways: refused as too long, and read. -/
theorem arrives_late : ∃ y z, Reading.Arrives 0 {} lateHead y ∧ Reading.Arrives 0 {} lateHead z ∧
    y.outcome = .refused 413 ∧ z.outcome = .head lateRequest (kMaxHeaderBytes + 4) := by
  have hidle : Waiting {} [] := waiting_idle rfl rfl
  obtain ⟨⟨y, hy, href⟩, z, hz, hout⟩ := hidle.two 0 lateHead_find (by decide) (Nat.le_refl _)
  refine ⟨y, z, hy, hz, href, hout.trans ?_⟩
  rw [take_of_length_le (Nat.le_of_eq lateHead_length), headOutcome, lateHead_parsed,
    lateHead_length]
  rfl

theorem arrives_agree_short : Timely (ascii "GET / HTTP/1.1\r\n\r\n") ∧ ∀ y z,
    Reading.Arrives 0 {} (ascii "GET / HTTP/1.1\r\n\r\n") y →
    Reading.Arrives 0 {} (ascii "GET / HTTP/1.1\r\n\r\n") z → y.outcome = z.outcome := by
  have htim : Timely (ascii "GET / HTTP/1.1\r\n\r\n") := by
    intro a ha hlow
    have hfind : find blankLine (ascii "GET / HTTP/1.1\r\n\r\n") = some 14 := by decide
    cases ha
    exact absurd hlow (by decide)
  exact ⟨htim, (arrives_agree_iff rfl rfl _).mpr htim⟩

end JitLlm.Runtime.Http
