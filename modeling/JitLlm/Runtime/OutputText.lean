import JitLlm.Runtime.Channel
import JitLlm.Lib.Find
import JitLlm.Lib.Utf8
import Mathlib.Data.List.TakeWhile

/-!
# Stop strings in a streamed answer

`OutputText` holds back what may still become a stop string. The invariant of a run is about all
the stop strings at once: none has occurred in the answer so far, and a tail of it that begins
one lies within what is held. So the first occurrence to be completed begins in what is held, and
what was sent before it holds no stop string.

What is sent is the text before the earliest occurrence among those complete by the end of the
piece that completes one. An occurrence that begins earlier may still be under way then: how the
text was cut decides the answer, unless no stop string holds another one inside.
-/

namespace JitLlm.Runtime.Api

open List

structure OutputText where
  stops : List Bytes
  held : Bytes
  hadReasoning : Bool
  contentStarted : Bool
  stopped : Bool

structure Out where
  reasoning : Bytes
  content : Bytes

def isLeading (c : UInt8) : Bool := c == 0x0A || c == 0x20

/-- The earlier of two results of `std::string::find`, `none` being `npos`. -/
def earlier : Option Nat → Option Nat → Option Nat
  | none, b => b
  | some a, none => some a
  | some a, some b => some (min a b)

def firstStop (stops : List Bytes) (held : Bytes) : Option Nat :=
  stops.foldl (fun first stop => earlier first (Lib.find stop held)) none

/-- The inner loop of `Content`'s hold-back, from `n` down. -/
def holdFor (stop held : Bytes) (hold : Nat) : Nat → Nat
  | 0 => hold
  | n + 1 =>
    if n + 1 > hold then
      if held.drop (held.length - (n + 1)) = stop.take (n + 1) then n + 1
      else holdFor stop held hold n
    else hold

/-- How much of `held` stays held. -/
def holdBack (stops : List Bytes) (held : Bytes) : Nat :=
  stops.foldl (fun hold stop => holdFor stop held hold (min (stop.length - 1) held.length)) 0

namespace OutputText

def start (stops : List Bytes) : OutputText := ⟨stops, [], false, false, false⟩

def reasoning (o : OutputText) (text : Bytes) : OutputText × Out :=
  if o.stopped then (o, ⟨[], []⟩) else ({ o with hadReasoning := true }, ⟨text, []⟩)

/-- The text `Content` adds: without leading newlines and spaces while the answer has not started
    after reasoning. -/
def added (o : OutputText) (text : Bytes) : Bytes :=
  if !o.contentStarted && o.hadReasoning then text.dropWhile isLeading else text

def content (o : OutputText) (text : Bytes) : OutputText × Out :=
  if o.stopped then (o, ⟨[], []⟩)
  else if o.added text = [] then (o, ⟨[], []⟩)
  else
    let held := o.held ++ o.added text
    match firstStop o.stops held with
    | some first =>
      ({ o with held := [], contentStarted := true, stopped := true }, ⟨[], held.take first⟩)
    | none =>
      let hold := holdBack o.stops held
      ({ o with held := held.drop (held.length - hold), contentStarted := true },
        ⟨[], held.take (held.length - hold)⟩)

def finish (o : OutputText) : OutputText × Out := ({ o with held := [] }, ⟨[], o.held⟩)

inductive Call where
  | reasoning (text : Bytes)
  | content (text : Bytes)

def Call.text : Call → Bytes
  | .reasoning text => text
  | .content text => text

def call (o : OutputText) : Call → OutputText × Out
  | .reasoning text => o.reasoning text
  | .content text => o.content text

def run (o : OutputText) : List Call → OutputText × List Out
  | [] => (o, [])
  | c :: cs => ((o.call c).1.run cs).map id ((o.call c).2 :: ·)

/-- What calls followed by `Finish` return. -/
def outs (stops : List Bytes) (calls : List Call) : List Out :=
  ((start stops).run calls).2 ++ [((start stops).run calls).1.finish.2]

def answer (stops : List Bytes) (calls : List Call) : Bytes :=
  ((outs stops calls).map Out.content).flatten

/-- The text of the `Content` calls. -/
def contentText : List Call → Bytes
  | [] => []
  | .reasoning _ :: cs => contentText cs
  | .content text :: cs => text ++ contentText cs

/-- Whether a `Reasoning` call precedes the text. -/
def reasonedFirst : List Call → Bool
  | [] => false
  | .reasoning _ :: _ => true
  | .content [] :: cs => reasonedFirst cs
  | .content (_ :: _) :: _ => false

def answerText (calls : List Call) : Bytes :=
  if reasonedFirst calls then (contentText calls).dropWhile isLeading else contentText calls

/-! ## The earliest occurrence -/

/-- `r` is where the first occurrence of any of the stop strings begins, if there is one. -/
def Earliest (stops : List Bytes) (text : Bytes) : Option Nat → Prop
  | none => ∀ s ∈ stops, ∀ i, ¬ s <+: text.drop i
  | some a => (∃ s ∈ stops, s <+: text.drop a) ∧ ∀ s ∈ stops, ∀ i, s <+: text.drop i → a ≤ i

variable {stops : List Bytes} {text s stop sent held t : Bytes} {r r' : Option Nat} {i p : Nat}
    {o : OutputText}

theorem Earliest.unique (h : Earliest stops text r) (h' : Earliest stops text r') : r = r' := by
  cases r with
  | none =>
    cases r' with
    | none => rfl
    | some b =>
      obtain ⟨⟨s, hs, hat⟩, -⟩ := h'
      exact absurd hat (h s hs b)
  | some a =>
    obtain ⟨⟨s, hs, hat⟩, hfirst⟩ := h
    cases r' with
    | none => exact absurd hat (h' s hs a)
    | some b =>
      obtain ⟨⟨s', hs', hat'⟩, hfirst'⟩ := h'
      exact congrArg some (Nat.le_antisymm (hfirst s' hs' b hat') (hfirst' s hs a hat))

theorem find_earliest (stop : Bytes) : Earliest [stop] text (Lib.find stop text) := by
  cases h : Lib.find stop text with
  | none =>
    intro s hs i
    rw [mem_singleton.mp hs]
    exact Lib.find_none h i
  | some a =>
    refine ⟨⟨stop, mem_singleton_self _, Lib.find_at h⟩, ?_⟩
    intro s hs i hi
    rw [mem_singleton.mp hs] at hi
    exact Lib.find_first h i hi

theorem Earliest.append {stops' : List Bytes} (h : Earliest stops text r)
    (h' : Earliest stops' text r') : Earliest (stops ++ stops') text (earlier r r') := by
  cases r with
  | none =>
    rcases r' with _ | b
    · intro s hs
      exact (mem_append.mp hs).elim (h s) (h' s)
    obtain ⟨⟨s', hs', hat'⟩, hfirst'⟩ := h'
    refine ⟨⟨s', mem_append_right _ hs', hat'⟩, ?_⟩
    intro s hs i hi
    exact (mem_append.mp hs).elim (fun hs => absurd hi (h s hs i)) fun hs => hfirst' s hs i hi
  | some a =>
    obtain ⟨⟨s, hs, hat⟩, hfirst⟩ := h
    cases r' with
    | none =>
      refine ⟨⟨s, mem_append_left _ hs, hat⟩, ?_⟩
      intro s hs i hi
      exact (mem_append.mp hs).elim (fun hs => hfirst s hs i hi) fun hs => absurd hi (h' s hs i)
    | some b =>
      obtain ⟨⟨s', hs', hat'⟩, hfirst'⟩ := h'
      refine ⟨?_, ?_⟩
      · rcases Nat.le_total a b with hab | hab
        · rw [Nat.min_eq_left hab]
          exact ⟨s, mem_append_left _ hs, hat⟩
        rw [Nat.min_eq_right hab]
        exact ⟨s', mem_append_right _ hs', hat'⟩
      intro s hs i hi
      rcases mem_append.mp hs with hs | hs
      · exact (Nat.min_le_left a b).trans (hfirst s hs i hi)
      · exact (Nat.min_le_right a b).trans (hfirst' s hs i hi)

theorem firstStop_earliest (stops : List Bytes) (text : Bytes) :
    Earliest stops text (firstStop stops text) := by
  have key : ∀ (rest done : List Bytes) (r : Option Nat), Earliest done text r →
      Earliest (done ++ rest) text
        (rest.foldl (fun first stop => earlier first (Lib.find stop text)) r) := by
    intro rest
    induction rest with
    | nil =>
      intro done r h
      simpa using h
    | cons s rest ih =>
      intro done r h
      have := ih (done ++ [s]) _ (h.append (find_earliest s))
      simpa using this
  exact key stops [] none (by simp [Earliest])

theorem infix_iff_drop {t : Bytes} : s <:+: t ↔ ∃ i, s <+: t.drop i := by
  constructor
  · rintro ⟨a, b, rfl⟩
    exact ⟨a.length, by simp [append_assoc]⟩
  rintro ⟨i, h⟩
  exact h.isInfix.trans (drop_suffix i t).isInfix

theorem Earliest.none_iff (h : Earliest stops text none) : ∀ s ∈ stops, ¬ s <:+: text := by
  intro s hs hin
  obtain ⟨i, hi⟩ := infix_iff_drop.mp hin
  exact h s hs i hi

/-! ## What is held -/

/-- The last `n` bytes of `held` begin a stop string and are not all of it. -/
def Begins (stop held : Bytes) (n : Nat) : Prop :=
  n < stop.length ∧ n ≤ held.length ∧ held.drop (held.length - n) <+: stop

theorem begins_iff {held : Bytes} {n : Nat} (hn : n ≤ min (stop.length - 1) held.length)
    (hstop : stop ≠ []) : held.drop (held.length - n) = stop.take n ↔ Begins stop held n := by
  have hpos : 0 < stop.length := length_pos_iff.mpr hstop
  have hlen : (held.drop (held.length - n)).length = n := by
    rw [length_drop]
    omega
  constructor
  · intro h
    exact ⟨by omega, by omega, h ▸ take_prefix n stop⟩
  intro ⟨_, _, h⟩
  rw [prefix_iff_eq_take.mp h, hlen]

theorem holdFor_spec {held : Bytes} (hstop : stop ≠ []) (hold : Nat) : ∀ {n : Nat},
    n ≤ min (stop.length - 1) held.length → hold ≤ holdFor stop held hold n ∧
      (holdFor stop held hold n = hold ∨ Begins stop held (holdFor stop held hold n)) ∧
      ∀ m ≤ n, Begins stop held m → m ≤ holdFor stop held hold n := by
  intro n
  induction n with
  | zero =>
    intro _
    exact ⟨Nat.le_refl _, .inl rfl, fun m hm _ => hm.trans (Nat.zero_le _)⟩
  | succ n ih =>
    intro hn
    unfold holdFor
    split
    next hlt =>
      split
      next heq =>
        exact ⟨by omega, .inr ((begins_iff hn hstop).mp heq), fun m hm _ => hm⟩
      rename_i hne
      obtain ⟨hle, hwhich, hmost⟩ := ih (by omega)
      refine ⟨hle, hwhich, ?_⟩
      intro m hm hb
      rcases Nat.lt_or_ge n m with hlt' | hge
      · obtain rfl : m = n + 1 := by omega
        exact absurd ((begins_iff hn hstop).mpr hb) hne
      · exact hmost m hge hb
    next hge => exact ⟨Nat.le_refl _, .inl rfl, fun m hm _ => by omega⟩

theorem holdBack_spec (held : Bytes) (hstops : ∀ s ∈ stops, s ≠ []) :
    (holdBack stops held = 0 ∨ ∃ s ∈ stops, Begins s held (holdBack stops held)) ∧
      ∀ s ∈ stops, ∀ n, Begins s held n → n ≤ holdBack stops held := by
  have key : ∀ (rest done : List Bytes) (hold : Nat), (∀ s ∈ rest, s ≠ []) →
      (hold = 0 ∨ ∃ s ∈ done, Begins s held hold) →
      (∀ s ∈ done, ∀ n, Begins s held n → n ≤ hold) →
      let h := rest.foldl (fun hold stop =>
        holdFor stop held hold (min (stop.length - 1) held.length)) hold
      (h = 0 ∨ ∃ s ∈ done ++ rest, Begins s held h) ∧
        ∀ s ∈ done ++ rest, ∀ n, Begins s held n → n ≤ h := by
    intro rest
    induction rest with
    | nil =>
      intro done hold _ hwhich hmost
      simpa using ⟨hwhich, hmost⟩
    | cons stop rest ih =>
      intro done hold hne hwhich hmost
      obtain ⟨hle, hwhich', hmost'⟩ :=
        holdFor_spec (hne stop mem_cons_self) hold (Nat.le_refl (min (stop.length - 1) held.length))
      have := ih (done ++ [stop])
        (holdFor stop held hold (min (stop.length - 1) held.length))
        (fun s hs => hne s (mem_cons_of_mem _ hs)) ?_ ?_
      · simpa using this
      · rcases hwhich' with heq | hb
        · rw [heq]
          exact hwhich.imp_right fun ⟨s, hs, hb⟩ => ⟨s, mem_append_left _ hs, hb⟩
        · exact .inr ⟨stop, by simp, hb⟩
      intro s hs n hb
      rcases mem_append.mp hs with hs | hs
      · exact (hmost s hs n hb).trans hle
      rw [mem_singleton.mp hs] at hb
      exact hmost' n (by have := hb.1; have := hb.2.1; omega) hb
  exact key stops [] 0 hstops (.inl rfl) (by simp)

/-! ## A run -/

/-- `held` is nothing or a proper prefix of a stop string. -/
def Held (stops : List Bytes) (held : Bytes) : Prop :=
  held = [] ∨ ∃ s ∈ stops, held <+: s ∧ held ≠ s

/-- While no stop string was met, `sent` and then what is held is all of `text`, and a tail of it
    that begins a stop string is within what is held. -/
structure Flowing (stops : List Bytes) (text sent held : Bytes) : Prop where
  all : text = sent ++ held
  clean : Earliest stops text none
  tails : ∀ s ∈ stops, ∀ i ≤ text.length, text.drop i <+: s → sent.length ≤ i

/-- After a stop string was met, `sent` is the text before the earliest that was complete by
    then. -/
def Cut (stops : List Bytes) (text sent : Bytes) : Prop :=
  ∃ upTo a, upTo <+: text ∧ Earliest stops upTo (some a) ∧ sent = upTo.take a

section

variable (h : Flowing stops text sent held)
include h

theorem drop_of_flowing (hi : sent.length ≤ i) :
    (text ++ t).drop i = (held ++ t).drop (i - sent.length) := by
  rw [h.all, append_assoc, drop_append]
  simp [drop_eq_nil_of_le hi]

theorem Flowing.begins (hs : s ∈ stops) (hi : s <+: (text ++ t).drop i) : sent.length ≤ i := by
  rcases Nat.lt_or_ge text.length i with hlt | hge
  · have : text.length = sent.length + held.length := by rw [h.all, length_append]
    omega
  rw [drop_append_of_le_length hge] at hi
  rcases prefix_or_prefix_of_prefix hi (prefix_append (text.drop i) t) with hp | hp
  · exact absurd hp (h.clean s hs i)
  · exact h.tails s hs i hge hp

theorem Flowing.earliest {r : Option Nat} (hr : Earliest stops (held ++ t) r) :
    Earliest stops (text ++ t) (r.map (sent.length + ·)) := by
  cases r with
  | none =>
    intro s hs i hi
    have hle := h.begins hs hi
    rw [drop_of_flowing h hle] at hi
    exact hr s hs _ hi
  | some a =>
    obtain ⟨⟨s, hs, hat⟩, hfirst⟩ := hr
    refine ⟨⟨s, hs, ?_⟩, ?_⟩
    · rw [drop_of_flowing h (Nat.le_add_right _ _), Nat.add_sub_cancel_left]
      exact hat
    intro s hs i hi
    have hle := h.begins hs hi
    rw [drop_of_flowing h hle] at hi
    have := hfirst s hs _ hi
    show sent.length + a ≤ i
    omega

theorem Flowing.cut {a : Nat} (ha : firstStop stops (held ++ t) = some a) :
    Cut stops (text ++ t) (sent ++ (held ++ t).take a) := by
  have he := h.earliest (ha ▸ firstStop_earliest stops (held ++ t))
  refine ⟨text ++ t, sent.length + a, prefix_rfl, he, ?_⟩
  rw [h.all, append_assoc, take_length_add_append]

theorem Flowing.hold (hstops : ∀ s ∈ stops, s ≠ []) (hnone : firstStop stops (held ++ t) = none) :
    let hold := holdBack stops (held ++ t)
    let n := (held ++ t).length - hold
    Flowing stops (text ++ t) (sent ++ (held ++ t).take n) ((held ++ t).drop n) ∧
      Held stops ((held ++ t).drop n) := by
  intro hold n
  obtain ⟨hwhich, hmost⟩ := holdBack_spec (held ++ t) hstops
  have he := h.earliest (hnone ▸ firstStop_earliest stops (held ++ t))
  have hle : hold ≤ (held ++ t).length := by
    rcases hwhich with hz | ⟨s, -, hb⟩
    · omega
    · exact hb.2.1
  have hlen : (text ++ t).length = sent.length + (held ++ t).length := by
    rw [h.all, append_assoc, length_append]
  refine ⟨⟨?_, he, ?_⟩, ?_⟩
  · rw [append_assoc, take_append_drop, h.all, append_assoc]
  · intro s hs i hi hp
    -- A tail that reaches into what was sent began a stop string before `t` already.
    have hsent : sent.length ≤ i := by
      rcases Nat.lt_or_ge text.length i with hlt | hge
      · have : text.length = sent.length + held.length := by rw [h.all, length_append]
        omega
      rw [drop_append_of_le_length hge] at hp
      exact h.tails s hs i hge ((prefix_append _ t).trans hp)
    have hshort : (text ++ t).length - i < s.length := by
      rcases Nat.lt_or_ge ((text ++ t).length - i) s.length with hlt | hge
      · exact hlt
      have heq : (text ++ t).drop i = s := hp.eq_of_length_le (by rw [length_drop]; exact hge)
      exact absurd (heq ▸ prefix_rfl) (he s hs i)
    have hb : Begins s (held ++ t) ((text ++ t).length - i) := by
      refine ⟨hshort, by omega, ?_⟩
      rw [drop_of_flowing h hsent] at hp
      have hidx : (held ++ t).length - ((text ++ t).length - i) = i - sent.length := by omega
      rw [hidx]
      exact hp
    have := hmost s hs _ hb
    rw [length_append, length_take]
    omega
  rcases hwhich with hz | ⟨s, hs, hb⟩
  · refine .inl (drop_eq_nil_of_le ?_)
    omega
  refine .inr ⟨s, hs, hb.2.2, ?_⟩
  intro heq
  have := congrArg List.length heq
  rw [length_drop] at this
  have := hb.1
  omega

end

/-- The text calls add once the flags are `reasoned` and `started`. -/
def textFrom (reasoned started : Bool) (calls : List Call) : Bytes :=
  if started then contentText calls
  else if reasoned then (contentText calls).dropWhile isLeading
  else answerText calls

theorem textFrom_reasoning (r st : Bool) (t : Bytes) (cs : List Call) :
    textFrom r st (.reasoning t :: cs) = textFrom true st cs := by
  cases st <;> cases r <;> simp [textFrom, contentText, answerText, reasonedFirst]

theorem textFrom_content (o : OutputText) (t : Bytes) (cs : List Call) :
    textFrom o.hadReasoning o.contentStarted (.content t :: cs) =
      o.added t ++ textFrom o.hadReasoning (o.contentStarted || o.added t ≠ []) cs := by
  unfold added textFrom
  cases o.contentStarted with
  | true => simp [contentText]
  | false =>
    cases o.hadReasoning with
    | true =>
      by_cases ht : t.dropWhile isLeading = []
      · simp [contentText, dropWhile_append, ht]
      · simp [contentText, dropWhile_append, ht]
    | false =>
      cases t with
      | nil => rfl
      | cons c t => simp [answerText, contentText, reasonedFirst]

/-- A state reached with `text` taken and `sent` sent. -/
structure Going (stops : List Bytes) (text sent : Bytes) (o : OutputText) : Prop where
  same : o.stops = stops
  held : Held stops o.held
  flowing : o.stopped = false → Flowing stops text sent o.held
  cut : o.stopped = true → Cut stops text sent ∧ o.held = [] ∧ o.contentStarted = true

theorem Cut.mono {more : Bytes} (h : Cut stops text sent) : Cut stops (text ++ more) sent := by
  obtain ⟨upTo, a, hp, he, hs⟩ := h
  exact ⟨upTo, a, hp.trans (prefix_append _ _), he, hs⟩

theorem Going.content (h : Going stops text sent o) (hstops : ∀ s ∈ stops, s ≠ [])
    (t : Bytes) : Going stops (text ++ o.added t) (sent ++ (o.content t).2.content) (o.content t).1 ∧
      (o.content t).1.hadReasoning = o.hadReasoning ∧
      (o.content t).1.contentStarted = (o.contentStarted || o.added t ≠ []) := by
  unfold OutputText.content
  cases hst : o.stopped with
  | true =>
    obtain ⟨hcut, hheld, hstar⟩ := h.cut hst
    simp only [if_true, append_nil]
    refine ⟨⟨h.same, h.held, ?_, fun _ => ⟨hcut.mono, hheld, hstar⟩⟩, trivial, by simp [hstar]⟩
    intro hf
    rw [hst] at hf
    cases hf
  | false =>
    have hflow := h.flowing hst
    rw [if_neg (by decide)]
    by_cases ht : o.added t = []
    · rw [if_pos ht, ht]
      simp only [append_nil]
      exact ⟨h, trivial, by simp⟩
    rw [if_neg ht, h.same]
    dsimp only
    split
    next first hfirst =>
      refine ⟨⟨rfl, .inl rfl, nofun, fun _ => ⟨hflow.cut hfirst, rfl, rfl⟩⟩, rfl, ?_⟩
      simp [ht]
    rename_i hnone
    obtain ⟨hflow', hheld⟩ := hflow.hold hstops hnone
    exact ⟨⟨rfl, hheld, fun _ => hflow', nofun⟩, rfl, by simp [ht]⟩

theorem Going.run (hstops : ∀ s ∈ stops, s ≠ []) (calls : List Call) : ∀ {o : OutputText}
    {text sent : Bytes}, Going stops text sent o →
      Going stops (text ++ textFrom o.hadReasoning o.contentStarted calls)
        (sent ++ ((o.run calls).2.map Out.content).flatten) (o.run calls).1 := by
  induction calls with
  | nil =>
    intro o text sent h
    have ht : textFrom o.hadReasoning o.contentStarted [] = [] := by
      unfold textFrom
      split <;> simp [contentText, answerText, reasonedFirst]
    simpa [OutputText.run, ht] using h
  | cons c cs ih =>
    intro o text sent h
    simp only [OutputText.run, Prod.map, id, map_cons, flatten_cons, ← append_assoc]
    cases c with
    | content t =>
      obtain ⟨hnext, hr, hs⟩ := h.content hstops t
      have := ih hnext
      rw [hr, hs] at this
      rw [textFrom_content, ← append_assoc]
      exact this
    | reasoning t =>
      rw [textFrom_reasoning]
      by_cases hst : o.stopped = true
      · have hcall : o.call (.reasoning t) = (o, ⟨[], []⟩) := if_pos hst
        have := ih h
        rw [hcall]
        rw [(h.cut hst).2.2] at this ⊢
        simpa [textFrom] using this
      have hcall : o.call (.reasoning t) = ({ o with hadReasoning := true }, ⟨t, []⟩) := if_neg hst
      have hnext : Going stops text sent { o with hadReasoning := true } :=
        ⟨h.same, h.held, h.flowing, h.cut⟩
      rw [hcall]
      simpa using ih hnext

theorem going_start (stops : List Bytes) (hstops : ∀ s ∈ stops, s ≠ []) :
    Going stops [] [] (start stops) := by
  refine ⟨rfl, .inl rfl, fun _ => ⟨rfl, ?_, by simp⟩, nofun⟩
  intro s hs i hp
  rw [drop_nil, prefix_nil] at hp
  exact hstops s hs hp

theorem answer_spec (hstops : ∀ s ∈ stops, s ≠ []) (calls : List Call) :
    let o := ((start stops).run calls).1
    Held stops o.held ∧
    (o.stopped = false ∧ Earliest stops (answerText calls) none ∧
        answer stops calls = answerText calls ∨
      o.stopped = true ∧ Cut stops (answerText calls) (answer stops calls)) := by
  intro o
  have h := (going_start stops hstops).run hstops calls
  have ha : answer stops calls = (((start stops).run calls).2.map Out.content).flatten ++ o.held := by
    simp [answer, outs, finish, o]
  rw [ha]
  refine ⟨h.held, ?_⟩
  rcases hst : o.stopped with _ | _
  · have hf := h.flowing hst
    exact .inl ⟨rfl, hf.clean, hf.all.symm⟩
  obtain ⟨hcut, hheld, -⟩ := h.cut hst
  refine .inr ⟨rfl, ?_⟩
  rw [show o.held = [] from hheld, append_nil]
  exact hcut

theorem Cut.clean (hstops : ∀ s ∈ stops, s ≠ []) (h : Cut stops text sent) :
    (∀ s ∈ stops, ¬ s <:+: sent) ∧ sent <+: text ∧ ∃ s ∈ stops, s <:+: text := by
  obtain ⟨upTo, a, hp, ⟨⟨s, hs, hat⟩, hfirst⟩, rfl⟩ := h
  refine ⟨?_, ( take_prefix a upTo).trans hp, s, hs, ?_⟩
  · intro s' hs' hin
    obtain ⟨i, hi⟩ := infix_iff_drop.mp hin
    rw [drop_take] at hi
    have hle := hfirst s' hs' i (hi.trans ( take_prefix _ _))
    rw [Nat.sub_eq_zero_of_le hle, take_zero, prefix_nil] at hi
    exact hstops s' hs' hi
  · exact (infix_iff_drop.mpr ⟨a, hat⟩).trans hp.isInfix

/-! ## Characters stay whole -/

open Lib.Utf8 in
theorem valid_cut {a b : Bytes} (hs : Valid s) (h : Valid (a ++ b)) (hb : b = [] ∨
    (s <+: b ∨ b <+: s) ∧ s ≠ []) : Valid a ∧ Valid b := by
  rcases hb with rfl | ⟨hb, hne⟩
  · rw [append_nil] at h
    exact ⟨h, .nil⟩
  apply h.splitLead
  intro c hc
  apply hs.lead
  rcases b with _ | ⟨b, bs⟩
  · cases hc
  cases s with
  | nil => exact absurd rfl hne
  | cons d ds =>
    simp only [cons_prefix_cons] at hb
    rcases hb with ⟨rfl, -⟩ | ⟨rfl, -⟩ <;> exact hc

open Lib.Utf8 in
theorem content_valid (hstops : ∀ s ∈ o.stops, s ≠ [] ∧ Valid s)
    (hheld : Valid o.held) {t : Bytes} (ht : Valid t) :
    Valid (o.content t).2.content ∧ Valid (o.content t).1.held := by
  have hadded : Valid (o.added t) := by
    unfold added
    split
    · have hsplit : Valid (t.takeWhile isLeading ++ t.dropWhile isLeading) := by
        rw [takeWhile_append_dropWhile]
        exact ht
      apply hsplit.drop_ascii
      intro c hc
      have := mem_takeWhile_imp hc
      simp only [isLeading, Bool.or_eq_true, beq_iff_eq] at this
      rcases this with rfl | rfl <;> decide
    · exact ht
  unfold OutputText.content
  split
  · exact ⟨.nil, hheld⟩
  split
  · exact ⟨.nil, hheld⟩
  have hall := hheld.append hadded
  dsimp only
  split
  next first hfirst =>
    have he := firstStop_earliest o.stops (o.held ++ o.added t)
    rw [hfirst] at he
    obtain ⟨⟨s, hs, hat⟩, -⟩ := he
    rw [← take_append_drop first (o.held ++ o.added t)] at hall
    exact ⟨(valid_cut (hstops s hs).2 hall (.inr ⟨.inl hat, (hstops s hs).1⟩)).1, .nil⟩
  obtain ⟨hwhich, -⟩ := holdBack_spec (o.held ++ o.added t) fun s hs => (hstops s hs).1
  rw [← take_append_drop
    ((o.held ++ o.added t).length - holdBack o.stops (o.held ++ o.added t))
    (o.held ++ o.added t)] at hall
  rcases hwhich with hz | ⟨s, hs, hb⟩
  · rw [hz] at hall ⊢
    exact valid_cut .nil hall (.inl (drop_eq_nil_of_le (Nat.le_refl _)))
  · exact valid_cut (hstops s hs).2 hall (.inr ⟨.inr hb.2.2, (hstops s hs).1⟩)

theorem call_stops (o : OutputText) (c : Call) : (o.call c).1.stops = o.stops := by
  cases c with
  | reasoning t =>
    simp only [call, OutputText.reasoning]
    split <;> rfl
  | content t =>
    simp only [call, OutputText.content]
    split
    · rfl
    split
    · rfl
    split <;> rfl

open Lib.Utf8 in
theorem run_valid (calls : List Call) : ∀ {o : OutputText}, (∀ s ∈ o.stops, s ≠ [] ∧ Valid s) →
    Valid o.held → (∀ c ∈ calls, Valid c.text) →
      (∀ out ∈ (o.run calls).2, Valid out.reasoning ∧ Valid out.content) ∧
        Valid (o.run calls).1.held := by
  induction calls with
  | nil =>
    intro o _ hheld _
    exact ⟨by simp [OutputText.run], hheld⟩
  | cons c cs ih =>
    intro o hstops hheld hcalls
    have hc := hcalls c mem_cons_self
    have hone : (Valid (o.call c).2.reasoning ∧ Valid (o.call c).2.content) ∧
        Valid (o.call c).1.held := by
      cases c with
      | reasoning t =>
        simp only [call, OutputText.reasoning]
        split
        · exact ⟨⟨.nil, .nil⟩, hheld⟩
        · exact ⟨⟨hc, .nil⟩, hheld⟩
      | content t =>
        obtain ⟨hout, hheld'⟩ := content_valid hstops hheld hc
        refine ⟨⟨?_, hout⟩, hheld'⟩
        simp only [call, OutputText.content]
        split
        · exact .nil
        split
        · exact .nil
        split <;> exact .nil
    obtain ⟨houts, hheld'⟩ := ih (by rw [call_stops]; exact hstops) hone.2
      fun c hc => hcalls c (mem_cons_of_mem _ hc)
    simp only [OutputText.run, Prod.map, id]
    refine ⟨?_, hheld'⟩
    intro out hout
    rcases mem_cons.mp hout with rfl | hout
    · exact hone.1
    · exact houts out hout

/-- Stop strings never leak and nothing else is withheld. -/
theorem stops_never_leak (stops : List Bytes) (hstops : ∀ s ∈ stops, s ≠ []) (calls : List Call) :
    let o := ((start stops).run calls).1
    (∀ s ∈ stops, ¬ s <:+: answer stops calls) ∧
    answer stops calls <+: answerText calls ∧
    ((∀ s ∈ stops, ¬ s <:+: answerText calls) → answer stops calls = answerText calls) ∧
    (o.stopped = true ↔ ∃ s ∈ stops, s <:+: answerText calls) ∧
    Held stops o.held ∧
    ((∀ s ∈ stops, Lib.Utf8.Valid s) → (∀ c ∈ calls, Lib.Utf8.Valid c.text) →
      ∀ out ∈ outs stops calls, Lib.Utf8.Valid out.reasoning ∧ Lib.Utf8.Valid out.content) := by
  intro o
  obtain ⟨hheld, hend⟩ := answer_spec hstops calls
  have hvalid : (∀ s ∈ stops, Lib.Utf8.Valid s) → (∀ c ∈ calls, Lib.Utf8.Valid c.text) →
      ∀ out ∈ outs stops calls, Lib.Utf8.Valid out.reasoning ∧ Lib.Utf8.Valid out.content := by
    intro hvs hvc out hout
    obtain ⟨houts, hlast⟩ := run_valid calls (o := start stops)
      (fun s hs => ⟨hstops s hs, hvs s hs⟩) .nil hvc
    rcases mem_append.mp hout with hout | hout
    · exact houts out hout
    rw [mem_singleton.mp hout]
    exact ⟨.nil, hlast⟩
  rcases hend with ⟨hst, hnone, heq⟩ | ⟨hst, hcut⟩
  · have hclean := hnone.none_iff
    refine ⟨heq ▸ hclean, heq ▸ prefix_rfl, fun _ => heq, ?_, hheld, hvalid⟩
    rw [show o.stopped = false from hst]
    refine ⟨nofun, ?_⟩
    intro ⟨s, hs, hin⟩
    exact absurd hin (hclean s hs)
  obtain ⟨hclean, hp, s, hs, hin⟩ := hcut.clean hstops
  refine ⟨hclean, hp, fun hno => absurd hin (hno s hs), ?_, hheld, hvalid⟩
  exact ⟨fun _ => ⟨s, hs, hin⟩, fun _ => hst⟩

/-- With the stop strings "STOP" and "é", a tail that begins one and then does not. -/
theorem stops_never_leak_held : (∀ s ∈ [[0x53, 0x54, 0x4F, 0x50], [0xC3, 0xA9]], s ≠ ([] : Bytes)) ∧
    answer [[0x53, 0x54, 0x4F, 0x50], [0xC3, 0xA9]]
      [.reasoning [], .content [0x20, 0x53, 0x54], .content [0x41, 0x53, 0x54, 0x4F, 0x50]] <+:
    answerText
      [.reasoning [], .content [0x20, 0x53, 0x54], .content [0x41, 0x53, 0x54, 0x4F, 0x50]] :=
  ⟨by decide, (stops_never_leak _ (by decide) _).2.1⟩

/-! ## How the text was cut -/

/-- `Reasoning` calls, and then the answer in pieces. -/
def streamed (reasonings pieces : List Bytes) : List Call :=
  reasonings.map .reasoning ++ pieces.map .content

/-- `a` is the text before the earliest occurrence of a stop string. -/
def IsBefore (stops : List Bytes) (text a : Bytes) : Prop :=
  ∃ r, Earliest stops text r ∧ a = r.elim text text.take

def Timely (stops : List Bytes) (text : Bytes) : Prop :=
  ∀ p, Earliest stops text (some p) → ∀ s' ∈ stops, ∀ q, s' <+: text.drop q →
    ∃ s ∈ stops, s <+: text.drop p ∧ p + s.length ≤ q + s'.length

theorem contentText_streamed (rs pieces : List Bytes) :
    contentText (streamed rs pieces) = pieces.flatten := by
  unfold streamed
  induction rs with
  | nil =>
    induction pieces with
    | nil => rfl
    | cons p pieces ih => simpa [contentText] using ih
  | cons r rs ih => simpa [contentText] using ih

theorem reasonedFirst_streamed (rs pieces : List Bytes) :
    reasonedFirst (streamed rs pieces) = !rs.isEmpty := by
  unfold streamed
  cases rs with
  | cons r rs => rfl
  | nil =>
    induction pieces with
    | nil => rfl
    | cons p pieces ih =>
      cases p with
      | nil => simpa [reasonedFirst] using ih
      | cons c p => rfl

theorem answerText_streamed (rs pieces : List Bytes) : answerText (streamed rs pieces) =
    if rs.isEmpty then pieces.flatten else pieces.flatten.dropWhile isLeading := by
  unfold answerText
  rw [reasonedFirst_streamed, contentText_streamed]
  cases rs.isEmpty <;> rfl

theorem prefix_take_iff {m : Nat} : s <+: (text.take m).drop i ↔
    s <+: text.drop i ∧ (i + s.length ≤ m ∨ s = []) := by
  rw [drop_take]
  constructor
  · intro h
    refine ⟨h.trans ( take_prefix _ _), ?_⟩
    have := h.length_le
    rw [length_take] at this
    rcases Nat.eq_zero_or_pos s.length with hz | hp
    · exact .inr (length_eq_zero_iff.mp hz)
    · exact .inl (by omega)
  rintro ⟨h, hm | rfl⟩
  · rw [prefix_iff_eq_take.mp h]
    exact take_prefix_take_left (by omega)
  · exact nil_prefix

theorem earliest_le_of_prefix {upTo : Bytes} {a : Nat} (hp : upTo <+: text)
    (ha : Earliest stops upTo (some a)) (he : Earliest stops text (some p)) : p ≤ a := by
  obtain ⟨⟨s, hs, hat⟩, -⟩ := ha
  exact he.2 s hs a (hat.trans (hp.drop a))

theorem Cut.isBefore (hstops : ∀ s ∈ stops, s ≠ []) (ht : Timely stops text)
    (h : Cut stops text sent) : IsBefore stops text sent := by
  obtain ⟨upTo, a, hp, ha, rfl⟩ := h
  obtain ⟨s', hs', hat'⟩ := ha.1
  have hfirst := firstStop_earliest stops text
  rcases hf : firstStop stops text with _ | p
  · rw [hf] at hfirst
    exact absurd (hat'.trans (hp.drop a)) (hfirst s' hs' a)
  rw [hf] at hfirst
  refine ⟨some p, hfirst, ?_⟩
  have hle := earliest_le_of_prefix hp ha hfirst
  obtain ⟨s, hs, hat, hend⟩ := ht p hfirst s' hs' a (hat'.trans (hp.drop a))
  have hlen : a + s'.length ≤ upTo.length := by
    have h1 := hat'.length_le
    have h2 := length_pos_iff.mpr (hstops s' hs')
    rw [length_drop] at h1
    omega
  have hin : s <+: upTo.drop p := by
    rw [prefix_iff_eq_take.mp hp]
    exact prefix_take_iff.mpr ⟨hat, .inl (by omega)⟩
  obtain rfl : a = p := Nat.le_antisymm (ha.2 s hs p hin) hle
  have : a ≤ upTo.length := by omega
  rw [prefix_iff_eq_take.mp hp, take_take, Nat.min_eq_left this]
  rfl

theorem run_stopped (h : o.stopped = true) (calls : List Call) :
    (o.run calls).1 = o ∧ ((o.run calls).2.map Out.content).flatten = [] := by
  induction calls with
  | nil => exact ⟨rfl, rfl⟩
  | cons c cs ih =>
    have hc : o.call c = (o, ⟨[], []⟩) := by
      cases c <;> simp [call, OutputText.reasoning, OutputText.content, h]
    simpa [OutputText.run, hc] using ih

theorem run_append (calls more : List Call) : ∀ o : OutputText, o.run (calls ++ more) =
    (((o.run calls).1.run more).1, (o.run calls).2 ++ ((o.run calls).1.run more).2) := by
  induction calls with
  | nil => intro o; rfl
  | cons c cs ih =>
    intro o
    simp [OutputText.run, ih]

theorem answer_append {calls : List Call} (h : ((start stops).run calls).1.stopped = true)
    (more : List Call) : answer stops (calls ++ more) = answer stops calls := by
  obtain ⟨hsame, hnone⟩ := run_stopped h more
  simp [answer, outs, run_append, hsame, hnone]

theorem not_isBefore (hstops : ∀ s ∈ stops, s ≠ []) {calls more : List Call} {q : Nat} {s' : Bytes}
    (hp : Earliest stops text (some p)) (hs' : s' ∈ stops) (hq : s' <+: text.drop q)
    (hlate : ∀ s ∈ stops, s <+: text.drop p → q + s'.length < p + s.length)
    (hcalls : answerText calls = text.take (q + s'.length)) :
    ¬ IsBefore stops text (answer stops (calls ++ more)) := by
  have hin : s' <+: (text.take (q + s'.length)).drop q := prefix_take_iff.mpr ⟨hq, .inl (Nat.le_refl _)⟩
  obtain ⟨-, ⟨-, hnone, -⟩ | ⟨hst, hcut⟩⟩ := answer_spec hstops calls
  · rw [hcalls] at hnone
    exact absurd hin (hnone s' hs' q)
  rw [answer_append hst]
  rw [hcalls] at hcut
  intro ⟨r, hr, heq⟩
  obtain rfl := hr.unique hp
  obtain ⟨upTo, a, hup, ha, hsent⟩ := hcut
  have hpre := hup.trans ( take_prefix _ text)
  have hle := earliest_le_of_prefix hpre ha hp
  -- The answer's length is `a`, and also `p`.
  obtain ⟨s, hs, hat⟩ := ha.1
  have hlen : a ≤ upTo.length := by
    have h1 := hat.length_le
    have h2 := length_pos_iff.mpr (hstops s hs)
    rw [length_drop] at h1
    omega
  have hlens := congrArg List.length (hsent.symm.trans heq)
  simp only [Option.elim, length_take] at hlens
  obtain rfl : a = p := by omega
  have hend := prefix_take_iff.mp (hat.trans (hup.drop a))
  have := hlate s hs hend.1
  rcases hend.2 with h | h
  · omega
  · exact hstops s hs h

theorem exists_first_piece (rs : List Bytes) (text : Bytes) (m : Nat) : ∃ first rest,
    first ++ rest = text ∧
      answerText (streamed rs [first]) = (answerText (streamed rs [text])).take m := by
  simp only [answerText_streamed, flatten_singleton]
  cases rs.isEmpty with
  | true => exact ⟨text.take m, text.drop m, take_append_drop m text, rfl⟩
  | false =>
    simp only [Bool.false_eq_true, if_false]
    refine ⟨text.takeWhile isLeading ++ (text.dropWhile isLeading).take m,
      (text.dropWhile isLeading).drop m, ?_, ?_⟩
    · rw [append_assoc, take_append_drop, takeWhile_append_dropWhile]
    rw [dropWhile_append_of_pos fun c hc => mem_takeWhile_imp hc]
    rw [dropWhile_eq_self_iff]
    intro hl hhead
    have hne : text.dropWhile isLeading ≠ [] := by
      intro he
      rw [he] at hl
      simp at hl
    have := head_dropWhile_not isLeading hne
    rw [getElem_take, ← head_eq_getElem hne, this] at hhead
    cases hhead

/-- Every way of cutting a text gives the text before the earliest stop string, exactly when the
    occurrences that end first are those that begin earliest. -/
theorem streamed_same_iff (stops : List Bytes) (hstops : ∀ s ∈ stops, s ≠ [])
    (reasonings : List Bytes) (text : Bytes) :
    (∀ pieces pieces' : List Bytes, pieces.flatten = text → pieces'.flatten = text →
      answer stops (streamed reasonings pieces) = answer stops (streamed reasonings pieces') ∧
      IsBefore stops (answerText (streamed reasonings [text]))
        (answer stops (streamed reasonings pieces))) ↔
    Timely stops (answerText (streamed reasonings [text])) := by
  constructor
  · intro h
    by_contra hnot
    unfold Timely at hnot
    push Not at hnot
    obtain ⟨p, hp, s', hs', q, hq, hlate⟩ := hnot
    obtain ⟨first, rest, hcut, htext⟩ := exists_first_piece reasonings text (q + s'.length)
    have hpieces : [first, rest].flatten = text := by simpa using hcut
    have hbef := (h _ _ hpieces hpieces).2
    have hcalls : streamed reasonings [first, rest] =
        streamed reasonings [first] ++ [.content rest] := by simp [streamed]
    rw [hcalls] at hbef
    exact not_isBefore hstops hp hs' hq hlate htext hbef
  intro ht
  have hone : ∀ pieces : List Bytes, pieces.flatten = text →
      IsBefore stops (answerText (streamed reasonings [text]))
        (answer stops (streamed reasonings pieces)) := by
    intro pieces hflat
    have htext : answerText (streamed reasonings pieces) =
        answerText (streamed reasonings [text]) := by
      simp [answerText_streamed, hflat]
    obtain ⟨-, ⟨-, hnone, heq⟩ | ⟨-, hcut⟩⟩ := answer_spec hstops (streamed reasonings pieces)
    · rw [htext] at hnone heq
      exact ⟨none, hnone, heq⟩
    rw [htext] at hcut
    exact hcut.isBefore hstops ht
  intro pieces pieces' hflat hflat'
  refine ⟨?_, hone pieces hflat⟩
  obtain ⟨r, hr, heq⟩ := hone pieces hflat
  obtain ⟨r', hr', heq'⟩ := hone pieces' hflat'
  rw [heq, heq', hr.unique hr']

theorem streamed_same_iff_single : (∀ s ∈ [[0x45, 0x4E, 0x44]], s ≠ ([] : Bytes)) ∧
    ((∀ pieces pieces' : List Bytes, pieces.flatten = [0x41] → pieces'.flatten = [0x41] →
      answer [[0x45, 0x4E, 0x44]] (streamed [] pieces) =
        answer [[0x45, 0x4E, 0x44]] (streamed [] pieces') ∧
      IsBefore [[0x45, 0x4E, 0x44]] (answerText (streamed [] [[0x41]]))
        (answer [[0x45, 0x4E, 0x44]] (streamed [] pieces))) ↔
    Timely [[0x45, 0x4E, 0x44]] (answerText (streamed [] [[0x41]]))) :=
  ⟨by decide, streamed_same_iff _ (by decide) _ _⟩

/-- "abcd" with the stop strings "abcd" and "bc": sent as "abc" and "d" the answer is "a", sent
    whole it is empty. -/
theorem streamed_differs : ¬ ∀ stops : List Bytes, (∀ s ∈ stops, s ≠ []) →
    ∀ reasonings pieces pieces' : List Bytes, pieces.flatten = pieces'.flatten →
      answer stops (streamed reasonings pieces) = answer stops (streamed reasonings pieces') := by
  intro h
  have := h [[0x61, 0x62, 0x63, 0x64], [0x62, 0x63]] (by decide) []
    [[0x61, 0x62, 0x63], [0x64]] [[0x61, 0x62, 0x63, 0x64]] rfl
  exact absurd this (by decide)

end OutputText
end JitLlm.Runtime.Api
