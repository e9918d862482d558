import JitLlm.Tokenizer.Streaming

/-!
# Reasoning and answer

`runtime/serve_api.cc`: what a chat completion does with the tokens of a generation. The engine
hands them over in batches, as many at a time as a step yields; the handler decodes each and sends
the text as reasoning or as the answer. `Heard` is what the client hears, byte by byte; it does not
know of batches, and each step of the handler is one of its.
-/

namespace JitLlm.Runtime.Thinking

open Tokenizer List

inductive Target where
  | reasoning
  | content
deriving DecidableEq

/-- A call to the exchange's `Reasoning` or `Content`. -/
abbrev Call : Type := Target × Bytes

/-- The model's tokenizer and its reasoning markers. -/
structure Markers where
  impl : Impl
  thinkStart : Option TokenId
  thinkEnd : Option TokenId

/-- Whether a prompt leaves the model inside a reasoning block: its last marker opens one. -/
def Markers.reasoning (m : Markers) (tokens : List TokenId) : Bool :=
  match m.thinkStart, m.thinkEnd with
  | some first, some last =>
    (tokens.reverse.find? fun t => t == first || t == last) == some first
  | _, _ => false

/-! ## The handler -/

structure Turn where
  decoder : StreamDecoder := {}
  thinking : Bool
  anyContent : Bool := false
  piece : Bytes := []
  calls : List Call := []

def target (thinking : Bool) : Target := if thinking then .reasoning else .content

def Turn.send (t : Turn) : Turn :=
  if t.piece = [] then t
  else { t with
    calls := t.calls ++ [(target t.thinking, t.piece)]
    anyContent := t.anyContent || !t.thinking
    piece := [] }

/-- The handler's loop body. A token it cannot decode adds nothing. -/
def Turn.take (m : Markers) (t : Turn) (token : TokenId) : Turn :=
  if t.thinking ∧ m.thinkEnd = some token then
    let t := { t with piece := t.decoder.finish t.piece, decoder := {} }
    let t := if t.piece = [] then { t with calls := t.calls ++ [(.reasoning, [])] } else t
    { t.send with thinking := false }
  else if !t.thinking ∧ !t.anyContent ∧ t.piece = [] ∧ m.thinkStart = some token then
    { t with thinking := true }
  else
    match t.decoder.push m.impl ⟨false⟩ token t.piece with
    | .ok (decoder, piece) => { t with decoder, piece }
    | .error _ => t

/-- `on_tokens`. -/
def Turn.onTokens (m : Markers) (t : Turn) (fresh : List TokenId) : Turn :=
  (fresh.foldl (Turn.take m) t).send

/-- The calls of a generation that hands over its tokens in these batches. -/
def calls (m : Markers) (thinking : Bool) (batches : List (List TokenId)) : List Call :=
  let t := batches.foldl (Turn.onTokens m) { thinking }
  let rest := t.decoder.finish []
  if rest = [] then t.calls else t.calls ++ [(target t.thinking, rest)]

/-- A call before others: none when it is empty, and one with the next when that is to the same. -/
def join : Call → List Call → List Call
  | (_, []), rest => rest
  | (goal, text), (goal', text') :: rest =>
    if goal = goal' then (goal, text ++ text') :: rest else (goal, text) :: (goal', text') :: rest
  | call, [] => [call]

def merged (calls : List Call) : List Call := calls.foldr join []

/-! ## What is heard -/

def tagged (call : Call) : List (Target × UInt8) := call.2.map (call.1, ·)

structure Heard where
  decoder : StreamDecoder
  thinking : Bool
  answered : Bool
  bytes : List (Target × UInt8)

def Heard.say (h : Heard) (decoder : StreamDecoder) (text : Bytes) : Heard :=
  { h with
    decoder
    answered := h.answered || (!h.thinking && text ≠ [])
    bytes := h.bytes ++ tagged (target h.thinking, text) }

def Heard.take (m : Markers) (h : Heard) (token : TokenId) : Heard :=
  if h.thinking ∧ m.thinkEnd = some token then
    { h.say {} (h.decoder.finish []) with thinking := false }
  else if !h.thinking ∧ !h.answered ∧ m.thinkStart = some token then { h with thinking := true }
  else
    match h.decoder.push m.impl ⟨false⟩ token [] with
    | .ok (decoder, text) => h.say decoder text
    | .error _ => h

def Turn.heard (t : Turn) : Heard where
  decoder := t.decoder
  thinking := t.thinking
  answered := t.anyContent || (!t.thinking && t.piece ≠ [])
  bytes := t.calls.flatMap tagged ++ tagged (target t.thinking, t.piece)

variable {m : Markers} {t : Turn}

theorem send_heard (t : Turn) : t.send.heard = t.heard := by
  unfold Turn.send
  split
  · rfl
  rename_i hpiece
  simp [Turn.heard, hpiece, flatMap_append, tagged]

theorem send_piece (t : Turn) : t.send.piece = [] := by
  unfold Turn.send
  split
  · assumption
  · rfl

theorem tagged_append (goal : Target) (a b : Bytes) :
    tagged (goal, a ++ b) = tagged (goal, a) ++ tagged (goal, b) := map_append

theorem put_heard (t : Turn) (decoder : StreamDecoder) (text : Bytes) :
    { t with decoder, piece := t.piece ++ text }.heard = t.heard.say decoder text := by
  have hsaid : (t.anyContent || (!t.thinking && decide (t.piece ++ text ≠ []))) =
      ((t.anyContent || (!t.thinking && decide (t.piece ≠ []))) ||
        (!t.thinking && decide (text ≠ []))) := by
    cases t.anyContent <;> cases t.thinking <;> simp
  simp only [Turn.heard, Heard.say, tagged_append, append_assoc, hsaid]

theorem turned_heard (hpiece : t.piece = []) (thinking : Bool) :
    { t with thinking }.heard = { t.heard with thinking } := by
  simp [Turn.heard, hpiece, tagged]

theorem push_out (d : StreamDecoder) (token : TokenId) (out : Bytes) :
    d.push m.impl ⟨false⟩ token out =
      (d.push m.impl ⟨false⟩ token []).map fun (d, text) => (d, out ++ text) := by
  unfold StreamDecoder.push
  cases m.impl.decode [token] ⟨false⟩ d.pending <;> rfl

/-- Each step of the handler is one of what is heard. -/
theorem take_heard (t : Turn) (token : TokenId) : (t.take m token).heard = t.heard.take m token := by
  unfold Turn.take Heard.take
  by_cases hend : t.thinking ∧ m.thinkEnd = some token
  · rw [if_pos hend, if_pos (show t.heard.thinking ∧ _ from hend)]
    simp only
    rw [turned_heard (send_piece _), send_heard]
    have hput : Turn.heard { t with piece := t.decoder.finish t.piece, decoder := {} } =
        t.heard.say {} (t.decoder.finish []) :=
      put_heard t {} (replaceInvalidUtf8 t.decoder.pending)
    split
    · rw [← show _ = t.heard.say {} (t.heard.decoder.finish []) from hput]
      simp [Turn.heard, flatMap_append, tagged]
    rw [hput]
    rfl
  rw [if_neg hend, if_neg (show ¬ (t.heard.thinking ∧ _) from hend)]
  by_cases hstart : !t.thinking ∧ !t.anyContent ∧ t.piece = [] ∧ m.thinkStart = some token
  · rw [if_pos hstart, turned_heard hstart.2.2.1, if_pos]
    simp [Turn.heard, hstart]
  rw [if_neg hstart, if_neg, push_out]
  · show Turn.heard (match Except.map _ (t.decoder.push m.impl ⟨false⟩ token []) with
      | .ok (decoder, piece) => { t with decoder, piece }
      | .error _ => t) = match t.decoder.push m.impl ⟨false⟩ token [] with
      | .ok (decoder, text) => t.heard.say decoder text
      | .error _ => t.heard
    cases t.decoder.push m.impl ⟨false⟩ token [] with
    | error => rfl
    | ok next => exact put_heard t next.1 next.2
  rintro ⟨hthinking, hanswered, hmarker⟩
  have hquiet : t.anyContent = false ∧ t.piece = [] := by
    have hfalse : t.thinking = false := by simpa [Turn.heard] using hthinking
    simpa [Turn.heard, hfalse] using hanswered
  exact hstart ⟨hthinking, by simp [hquiet.1], hquiet.2, hmarker⟩

theorem takes_heard (fresh : List TokenId) (t : Turn) :
    (fresh.foldl (Turn.take m) t).heard = fresh.foldl (Heard.take m) t.heard := by
  induction fresh generalizing t with
  | nil => rfl
  | cons token fresh ih => rw [foldl_cons, foldl_cons, ih, take_heard]

/-- A run of batches is heard as the run of their tokens. -/
theorem batches_heard (batches : List (List TokenId)) (t : Turn) :
    (batches.foldl (Turn.onTokens m) t).heard = batches.flatten.foldl (Heard.take m) t.heard := by
  induction batches generalizing t with
  | nil => rfl
  | cons fresh batches ih =>
    rw [foldl_cons, ih, flatten_cons, foldl_append, Turn.onTokens, send_heard, takes_heard]

theorem batches_piece (batches : List (List TokenId)) (hpiece : t.piece = []) :
    (batches.foldl (Turn.onTokens m) t).piece = [] := by
  induction batches generalizing t with
  | nil => exact hpiece
  | cons fresh batches ih => exact ih (send_piece _)

theorem calls_tagged (m : Markers) (thinking : Bool) (batches : List (List TokenId)) :
    (calls m thinking batches).flatMap tagged =
      let h := batches.flatten.foldl (Heard.take m) ⟨{}, thinking, false, []⟩
      h.bytes ++ tagged (target h.thinking, h.decoder.finish []) := by
  have hstart : Turn.heard { thinking } = ⟨{}, thinking, false, []⟩ := by
    simp [Turn.heard, tagged]
  have hheard := batches_heard (m := m) batches { thinking }
  have hpiece := batches_piece (m := m) (t := { thinking }) batches rfl
  rw [← hstart, ← hheard]
  unfold calls
  simp only
  split
  next hrest => simp [Turn.heard, hpiece, hrest, tagged]
  · simp [Turn.heard, hpiece, tagged]

/-! ## Merging -/

theorem join_append (goal : Target) (a b : Bytes) (rest : List Call) :
    join (goal, a ++ b) rest = join (goal, a) (join (goal, b) rest) := by
  rcases a with _ | ⟨x, a⟩
  · rfl
  rcases b with _ | ⟨y, b⟩
  · rw [append_nil]; rfl
  cases rest with
  | nil => simp [join]
  | cons call rest =>
    simp only [join, cons_append]
    split <;> simp

/-- What the merged calls are, from the bytes alone. -/
theorem merged_eq (l : List Call) :
    merged l = (l.flatMap tagged).foldr (fun b rest => join (b.1, [b.2]) rest) [] := by
  have htext : ∀ (goal : Target) (text : Bytes) (rest : List Call), join (goal, text) rest =
      (tagged (goal, text)).foldr (fun b rest => join (b.1, [b.2]) rest) rest := by
    intro goal text rest
    induction text with
    | nil => rfl
    | cons b text ih => exact (join_append goal [b] text rest).trans (congrArg _ ih)
  induction l with
  | nil => rfl
  | cons call l ih => rw [flatMap_cons, foldr_append, ← ih, ← htext]; rfl

/-- **What is heard does not depend on the batches.** -/
theorem batches_same (m : Markers) (thinking : Bool) (batches batches' : List (List TokenId))
    (h : batches.flatten = batches'.flatten) :
    merged (calls m thinking batches) = merged (calls m thinking batches') := by
  rw [merged_eq, merged_eq, calls_tagged, calls_tagged, h]

/-- A model that opens reasoning itself: a character there in two tokens, then a byte of answer. -/
def reasoner : Markers where
  impl := { StreamDecoder.halves with
    tokens := [[0xE2], [0x82, 0xAC], [0x61], [], []]
    kinds := [.normal, .normal, .normal, .control, .control]
    decoded := [[0xE2], [0x82, 0xAC], [0x61], [], []] }
  thinkStart := some 3
  thinkEnd := some 4

theorem batches_same_reasoner : merged (calls reasoner false [[3, 0], [1], [4, 2]]) =
      merged (calls reasoner false [[3], [0, 1, 4], [2]]) ∧
    merged (calls reasoner false [[3, 0], [1], [4, 2]]) =
      [(.reasoning, [0xE2, 0x82, 0xAC]), (.content, [0x61])] :=
  ⟨batches_same _ _ _ _ rfl, by decide +kernel⟩

end JitLlm.Runtime.Thinking
