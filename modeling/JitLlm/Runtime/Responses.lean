import JitLlm.Runtime.ApiServer

/-!
# Each request gets exactly one well-formed response

Five actors append to one channel under different checks: the driver's stream, the watchdog, the
sweep with its keepalives, the half-close probe and the stop. What excludes two heads, a byte after
the end or a lost terminator is of two kinds. Of a channel: every operation takes it from one stage
of its response to another (`Channel.Ok`). Of the server: nobody puts into a channel that ended,
as the queue holds none, and the one the driver serves ends only by the watchdog, which marks it
stalled (`World.Good`).
-/

namespace JitLlm.Runtime.Api.Channel

variable {ch ch' ch'' : Channel} {j : Json} {options : Options} {r : Response}

/-! ## What putting leaves alone -/

def Closes (ch : Channel) : Prop :=
  ∀ h, ch.history.head = some h → h.keepAlive = false → ch.keepAlive = false

structure Puts (ch ch' : Channel) : Prop where
  connection : ch'.connection = ch.connection
  stream : ch'.stream = ch.stream
  gone : ch'.gone = ch.gone
  stalled : ch'.stalled = ch.stalled
  queued : ch'.queued = ch.queued
  interims : ch'.history.interims = ch.history.interims
  entered : ch'.history.entered = ch.history.entered
  left : ch'.history.left = ch.history.left
  closes : ch.Closes → ch'.Closes

theorem Puts.refl (ch : Channel) : ch.Puts ch := ⟨rfl, rfl, rfl, rfl, rfl, rfl, rfl, rfl, fun hc => hc⟩

theorem Puts.trans (h : ch.Puts ch') (h' : ch'.Puts ch'') : ch.Puts ch'' :=
  ⟨h'.1.trans h.1, h'.2.trans h.2, h'.3.trans h.3, h'.4.trans h.4, h'.5.trans h.5, h'.6.trans h.6,
    h'.7.trans h.7, h'.8.trans h.8, fun hc => h'.9 (h.9 hc)⟩

theorem putHead_puts (status : Nat) (type : String) (length : Option Nat) (extra : List String) :
    ch.Puts (ch.putHead status type length extra) := by
  refine ⟨rfl, rfl, rfl, rfl, rfl, rfl, rfl, rfl, fun _ h hh hk => ?_⟩
  have hh : ch.headOf status type length extra = h := Option.some.inj hh
  rw [← hh] at hk
  exact hk

theorem append_puts (bytes : Bytes) : ch.Puts (ch.append bytes) :=
  ⟨rfl, rfl, rfl, rfl, rfl, rfl, rfl, rfl, fun hc => hc⟩

theorem putBody_puts (data : Bytes) : ch.Puts (ch.putBody data) := by
  unfold putBody
  split
  · exact Puts.refl ch
  · exact append_puts _

theorem record_puts (event : Event) : ch.Puts (ch.record event) :=
  ⟨rfl, rfl, rfl, rfl, rfl, rfl, rfl, rfl, fun hc => hc⟩

theorem putEvent_puts (event : Event) (json : Bytes) : ch.Puts (ch.putEvent event json) :=
  (putBody_puts _).trans (record_puts event)

theorem putStart_puts : ch.Puts (ch.putStart j) := (putHead_puts _ _ _ _).trans (putEvent_puts _ _)

theorem putEnd_puts : ch.Puts ch.putEnd := by
  unfold putEnd
  split <;> exact ⟨rfl, rfl, rfl, rfl, rfl, rfl, rfl, rfl, fun hc => hc⟩

theorem putError_puts (error : Error) (extra : List String) :
    ch.Puts (ch.putError j error extra) := by
  unfold putError
  split
  · split
    · exact (putEvent_puts _ _).trans putEnd_puts
    · exact putEnd_puts
  · exact ((putHead_puts _ _ _ _).trans (putBody_puts _)).trans putEnd_puts

/-! ## One section on a channel -/

/-- A section keeps a channel well formed, and a whole one as it is. -/
structure Evolves (ch ch' : Channel) : Prop where
  ok : ch'.Ok
  connection : ch'.connection = ch.connection
  steady : ch.ended = true →
    ch'.ended = true ∧ ch'.put = ch.put ∧ ch'.history.head = ch.history.head

theorem Evolves.refl (h : ch.Ok) : ch.Evolves ch := ⟨h, rfl, fun he => ⟨he, rfl, rfl⟩⟩

theorem Evolves.trans (h : ch.Evolves ch') (h' : ch'.Evolves ch'') : ch.Evolves ch'' := by
  refine ⟨h'.ok, h'.connection.trans h.connection, fun he => ?_⟩
  obtain ⟨h1, h2, h3⟩ := h.steady he
  obtain ⟨g1, g2, g3⟩ := h'.steady h1
  exact ⟨g1, g2.trans h2, g3.trans h3⟩

theorem Puts.evolves (h : ch.Puts ch') (hch : ch.Ok) (hended : ch.ended = false)
    (hstage : ch'.Stage) : ch.Evolves ch' := by
  refine ⟨⟨hstage, fun hs => ?_, h.closes hch.close⟩, h.connection, fun he => ?_⟩
  · rw [h.stalled] at hs
    rw [hch.stalled hs] at hended
    cases hended
  rw [hended] at he
  cases he

theorem Whole.stage (h : ch.Whole r) : ch.Stage := .inr (.inr ⟨r, h⟩)

theorem Streaming.stage (h : ch.Streaming r) : ch.Stage := .inr (.inl ⟨r, h⟩)

theorem Ok.putError (h : ch.Ok) (hended : ch.ended = false) (error : Error) (extra : List String) :
    ch.Evolves (ch.putError j error extra) ∧ (ch.putError j error extra).ended = true := by
  obtain ⟨r, hr⟩ := h.stage.putError (j := j) hended error extra
  exact ⟨(putError_puts error extra).evolves h hended hr.stage, hr.ended⟩

theorem Ok.flags (h : ch.Ok) {out : Bytes} {keepAlive gone queued : Bool} {entered left : Nat}
    {taken : Bytes} (hput : taken ++ out = ch.put) (hclose : keepAlive = true → ch.keepAlive = true) :
    ch.Evolves { ch with
      out, keepAlive, gone, queued, history := { ch.history with entered, left, taken } } := by
  refine ⟨⟨?_, h.stalled, fun hd hh hk => ?_⟩, rfl, fun he => ⟨he, hput, rfl⟩⟩
  · rcases h.stage with hw | ⟨r, hs⟩ | ⟨r, hw⟩
    · exact .inl ⟨hw.headSent, hw.ended, hw.head, hw.heads, hw.ends, hw.events, hw.interims,
        hput.trans hw.put⟩
    · exact .inr (.inl ⟨r, ⟨⟨hs.headSent, hs.ended, hs.head, hs.heads, hs.ends, hs.interims,
        hs.chunked, hput.trans hs.put⟩, hs.stream, hs.length, hs.framed, hs.done, hs.error⟩⟩)
    exact .inr (.inr ⟨r, ⟨hw.ended, hw.head, hw.heads, hw.ends, hw.interims, hw.framed, hw.done,
      hput.trans hw.put⟩⟩)
  have hfalse := h.close hd hh hk
  cases hkeep : keepAlive with
  | false => rfl
  | true =>
    rw [hclose hkeep] at hfalse
    cases hfalse

structure Keeps (ch ch' : Channel) : Prop where
  queued : ch'.queued = ch.queued
  interims : ch'.history.interims = ch.history.interims
  entered : ch'.history.entered = ch.history.entered
  left : ch'.history.left = ch.history.left

theorem Keeps.refl (ch : Channel) : ch.Keeps ch := ⟨rfl, rfl, rfl, rfl⟩

theorem Keeps.trans (h : ch.Keeps ch') (h' : ch'.Keeps ch'') : ch.Keeps ch'' :=
  ⟨h'.1.trans h.1, h'.2.trans h.2, h'.3.trans h.3, h'.4.trans h.4⟩

theorem Puts.keeps (h : ch.Puts ch') : ch.Keeps ch' := ⟨h.queued, h.interims, h.entered, h.left⟩

/-- Well formed and not ended, or ended by the watchdog: what the driver may serve. -/
structure Live (ch : Channel) : Prop where
  ok : ch.Ok
  stalled : ch.ended = true → ch.stalled = true

theorem Live.ended_of (h : ch.Live) (hs : ch.stalled = false) : ch.ended = false := by
  cases he : ch.ended with
  | false => rfl
  | true =>
    rw [h.stalled he] at hs
    cases hs

section

variable (h : ch.Ok) (hended : ch.ended = false)
include h hended

theorem Ok.streaming (hsent : ch.headSent = true) : ∃ r, ch.Streaming r := by
  rcases h.stage with hw | hs | ⟨r, hw⟩
  · rw [hw.headSent] at hsent
    cases hsent
  · exact hs
  rw [hw.ended] at hended
  cases hended

theorem Ok.waiting (hsent : ch.headSent = false) : ch.Waiting := by
  rcases h.stage with hw | ⟨r, hs⟩ | ⟨r, hw⟩
  · exact hw
  · rw [hs.headSent] at hsent
    cases hsent
  rw [hw.ended] at hended
  cases hended

theorem Ok.started (hstream : ch.stream = true) : ∃ r, (ch.started j).Streaming r := by
  unfold Channel.started
  cases hsent : ch.headSent with
  | true => exact h.streaming hended hsent
  | false => exact (h.waiting hended hsent).putStart hstream

end

theorem started_puts : ch.Puts (ch.started j) := by
  unfold Channel.started
  split
  · exact Puts.refl ch
  · exact putStart_puts

theorem Streaming.putText (h : ch.Streaming r) (event : Event) (text : Bytes)
    (hdone : event ≠ .done) (herror : event ≠ .error) :
    ∃ r', (ch.putText j event text).Streaming r' := by
  unfold Channel.putText
  split
  · exact ⟨r, h⟩
  · exact h.record event _ hdone herror

theorem putText_puts {event : Event} {text : Bytes} : ch.Puts (ch.putText j event text) := by
  unfold Channel.putText
  split
  · exact Puts.refl ch
  · exact putEvent_puts _ _

theorem Live.admitted (h : ch.Live) : ch.Evolves (ch.admitted j) ∧ ch.Keeps (ch.admitted j) ∧
    (ch.admitted j).Live := by
  unfold Channel.admitted
  split
  · next hc =>
    simp only [Bool.and_eq_true, Bool.not_eq_true'] at hc
    have hended := h.ended_of hc.1.2
    obtain ⟨r, hr⟩ := (h.ok.waiting hended hc.2).putStart (j := j) hc.1.1.1
    have hevo := putStart_puts.evolves h.ok hended hr.stage
    refine ⟨hevo, putStart_puts.keeps, hevo.ok, fun he => ?_⟩
    rw [hr.ended] at he
    cases he
  · exact ⟨Evolves.refl h.ok, Keeps.refl ch, h⟩

theorem Live.emit (h : ch.Live) (options : Options) (reasoning content : Bytes) :
    ch.Evolves (ch.emit j options reasoning content) ∧
      ch.Keeps (ch.emit j options reasoning content) ∧
      (ch.emit j options reasoning content).Live ∧
      (ch.emit j options reasoning content).ended = ch.ended ∧
      (ch.emit j options reasoning content).stream = ch.stream := by
  unfold Channel.emit
  split
  · exact ⟨Evolves.refl h.ok, Keeps.refl ch, h, rfl, rfl⟩
  next hc =>
  simp only [Bool.or_eq_true, Bool.not_eq_true', decide_eq_true_eq, not_or] at hc
  have hstream : ch.stream = true := by simpa using hc.1.1.1
  have hended := h.ended_of (by simpa using hc.1.2)
  obtain ⟨_, h1⟩ := h.ok.started (j := j) hended hstream
  obtain ⟨_, h2⟩ := h1.putText (j := j) .reasoning reasoning (by decide) (by decide)
  obtain ⟨_, h3⟩ := h2.putText (j := j) .content content (by decide) (by decide)
  have hputs : ch.Puts (((ch.started j).putText j .reasoning reasoning).putText j .content
      content) := (started_puts.trans putText_puts).trans putText_puts
  simp only
  generalize ((ch.started j).putText j .reasoning reasoning).putText j .content content = ch3
    at h3 hputs
  have hevo := hputs.evolves h.ok hended h3.stage
  -- a reader too far behind is dropped: only the flag changes
  have hflags : ch.Evolves (if options.maxUnsent < ch3.out.length then { ch3 with gone := true }
      else ch3) := by
    split
    · exact hevo.trans (hevo.ok.flags rfl fun hk => hk)
    · exact hevo
  refine ⟨hflags, ?_, ⟨hflags.ok, fun he => ?_⟩, ?_, ?_⟩
  · split <;> exact ⟨hputs.queued, hputs.interims, hputs.entered, hputs.left⟩
  · split at he <;> (rw [show ch3.ended = false from h3.ended] at he; exact nomatch he)
  · rw [hended]
    split <;> exact h3.ended
  rw [hstream]
  split <;> exact h3.stream

theorem doneAfterFinish_append {events : List Event} (hdone : .done ∉ events)
    (herror : .error ∉ events) (hfin : .finish ∈ events) : DoneAfterFinish (events ++ [.done]) := by
  intro before after heq
  have hbef : before = events := by
    rcases List.append_eq_append_iff.mp heq with ⟨rest, h1, h2⟩ | ⟨rest, h1, h2⟩
    · cases rest with
      | nil => rw [h1, List.append_nil]
      | cons =>
        have hlen := congrArg List.length h2
        simp at hlen
    rcases rest with _ | _
    · rw [h1, List.append_nil]
    rw [← (List.cons.inj h2).1] at h1
    rw [h1] at hdone
    exact absurd (List.mem_append_right before List.mem_cons_self) hdone
  rw [hbef]
  exact ⟨hfin, herror⟩

theorem Ok.putFinish (h : ch.Ok) (hended : ch.ended = false) (hstream : ch.stream = true)
    (includeUsage : Bool) : ∃ r, (ch.putFinish j includeUsage).Whole r := by
  obtain ⟨_, h1⟩ := h.started (j := j) hended hstream
  unfold Channel.putFinish
  simp only
  generalize ch.started j = c1 at h1
  obtain ⟨_, h2⟩ := h1.record .finish (ascii "data: " ++ j.chunk c1.id .finish [] ++
    ascii "\n\n") (by decide) (by decide)
  have hfin : .finish ∈ (c1.putEvent .finish (j.chunk c1.id .finish [])).history.events := by
    rw [putEvent_events]
    simp
  have h2 : (c1.putEvent .finish (j.chunk c1.id .finish [])).Streaming _ := h2
  generalize c1.putEvent .finish (j.chunk c1.id .finish []) = c2 at h2 hfin
  have h3 : ∃ r, (if includeUsage = true then c2.putEvent .usage (j.chunk c2.id .usage [])
      else c2).Streaming r ∧ .finish ∈ (if includeUsage = true then
        c2.putEvent .usage (j.chunk c2.id .usage []) else c2).history.events := by
    split
    · obtain ⟨r, hr⟩ := h2.record .usage (ascii "data: " ++ j.chunk c2.id .usage [] ++
        ascii "\n\n") (by decide) (by decide)
      refine ⟨r, hr, ?_⟩
      rw [putEvent_events]
      exact List.mem_append_left _ hfin
    · exact ⟨_, h2, hfin⟩
  obtain ⟨_, h3, hfin⟩ := h3
  generalize (if includeUsage = true then c2.putEvent .usage (j.chunk c2.id .usage [])
    else c2) = c3 at h3 hfin
  refine ⟨_, ((h3.toBegun.putBody _).record .done).putEnd (h3.framed.add h3.length _) ?_⟩
  show DoneAfterFinish ((c3.putBody _).history.events ++ [.done])
  rw [putBody_events]
  exact doneAfterFinish_append h3.done h3.error hfin

theorem putFinish_puts (includeUsage : Bool) : ch.Puts (ch.putFinish j includeUsage) := by
  unfold putFinish
  refine Puts.trans ?_ putEnd_puts
  refine Puts.trans ?_ (record_puts _)
  refine Puts.trans ?_ (putBody_puts _)
  split
  · exact (started_puts.trans (putEvent_puts _ _)).trans (putEvent_puts _ _)
  · exact started_puts.trans (putEvent_puts _ _)

theorem Ok.keepAliveOff (h : ch.Ok) : ch.Evolves { ch with keepAlive := false } ∧
    ch.Keeps { ch with keepAlive := false } :=
  ⟨h.flags rfl nofun, ⟨rfl, rfl, rfl, rfl⟩⟩

theorem answer_puts (body : Bytes) : ch.Puts (ch.answer body) :=
  ((putHead_puts _ _ _ _).trans (putBody_puts _)).trans putEnd_puts

theorem Waiting.answered (h : ch.Waiting) (hch : ch.Ok) (body : Bytes) :
    ch.Evolves (ch.answer body) := by
  obtain ⟨_, hr⟩ := h.answer 200 "application/json" body []
  exact (answer_puts body).evolves hch h.ended hr.stage

theorem Live.finish (h : ch.Live) (options : Options) (e : Ending) :
    ch.Evolves (ch.finish j options e) ∧ ch.Keeps (ch.finish j options e) := by
  unfold Channel.finish
  split
  · exact ⟨Evolves.refl h.ok, Keeps.refl ch⟩
  next hc =>
  simp only [Bool.or_eq_true, not_or] at hc
  have hended := h.ended_of (by simpa using hc.1)
  split
  · exact ⟨(h.ok.putError hended _ _).1, (putError_puts _ _).keeps⟩
  obtain ⟨he, hk, hlive, hsame, -⟩ := h.emit (j := j) options e.reasoning e.content
  rw [hended] at hsame
  simp only
  generalize ch.emit j options e.reasoning e.content = ch1 at he hk hlive hsame
  have herror : ∀ (keep : Bool) (error : Error),
      ch.Evolves ((if keep then { ch1 with keepAlive := false } else ch1).putError j error) ∧
      ch.Keeps ((if keep then { ch1 with keepAlive := false } else ch1).putError j error) := by
    intro keep error
    cases keep with
    | true =>
      have hoff := hlive.ok.keepAliveOff
      exact ⟨(he.trans hoff.1).trans (hoff.1.ok.putError hsame _ _).1,
        (hk.trans hoff.2).trans (putError_puts _ _).keeps⟩
    | false => exact ⟨he.trans (hlive.ok.putError hsame _ _).1, hk.trans (putError_puts _ _).keeps⟩
  split
  · exact herror e.stopping _
  split
  · exact herror true _
  split
  · next hstream =>
    obtain ⟨_, hr⟩ := hlive.ok.putFinish (j := j) hsame hstream e.includeUsage
    exact ⟨he.trans ((putFinish_puts _).evolves hlive.ok hsame hr.stage),
      hk.trans (putFinish_puts _).keeps⟩
  next hstream =>
  have hwait : ch1.Waiting := by
    cases hsent : ch1.headSent with
    | false => exact hlive.ok.waiting hsame hsent
    | true =>
      obtain ⟨_, hs⟩ := hlive.ok.streaming hsame hsent
      exact absurd hs.stream hstream
  exact ⟨he.trans (hwait.answered hlive.ok e.completion), hk.trans (answer_puts e.completion).keeps⟩

/-! ## The I/O thread's sections -/

theorem Streaming.ping (h : ch.Streaming r) (hch : ch.Ok) :
    ch.Evolves ((ch.putBody (ascii ": keepalive\n\n")).record .keepalive) ∧
      ch.Keeps ((ch.putBody (ascii ": keepalive\n\n")).record .keepalive) ∧
      ((ch.putBody (ascii ": keepalive\n\n")).record .keepalive).ended = false := by
  obtain ⟨_, hr⟩ := h.record .keepalive (ascii ": keepalive\n\n") (by decide) (by decide)
  have hputs : ch.Puts ((ch.putBody (ascii ": keepalive\n\n")).record .keepalive) :=
    (putBody_puts _).trans (record_puts .keepalive)
  exact ⟨hputs.evolves hch h.ended hr.stage, hputs.keeps, hr.ended⟩

theorem Waiting.begin (h : ch.Waiting) (hch : ch.Ok) (hstream : ch.stream = true) :
    ch.Evolves (ch.putStart j) ∧ ch.Keeps (ch.putStart j) ∧ (ch.putStart j).ended = false := by
  obtain ⟨_, hr⟩ := h.putStart (j := j) hstream
  exact ⟨putStart_puts.evolves hch h.ended hr.stage, putStart_puts.keeps, hr.ended⟩

theorem Ok.keepalive (h : ch.Ok) : ch.Evolves (ch.keepalive j) ∧ ch.Keeps (ch.keepalive j) ∧
    (ch.keepalive j).ended = ch.ended := by
  unfold Channel.keepalive
  split
  · next hc =>
    simp only [Bool.and_eq_true, Bool.not_eq_true'] at hc
    rw [hc.1.2]
    split
    · next hsent =>
      obtain ⟨_, hs⟩ := h.streaming hc.1.2 hsent
      exact hs.ping h
    next hsent =>
    split
    · exact (h.waiting hc.1.2 (by simpa using hsent)).begin h hc.1.1
    · exact ⟨Evolves.refl h, Keeps.refl ch, hc.1.2⟩
  · exact ⟨Evolves.refl h, Keeps.refl ch, rfl⟩

theorem Ok.inputClosed (h : ch.Ok) (hint : ch.history.interims = 0) :
    ch.Evolves (ch.inputClosed j) ∧ (ch.inputClosed j).ended = ch.ended ∧
      (ch.inputClosed j).queued = ch.queued ∧
      (ch.inputClosed j).history.entered = ch.history.entered ∧
      (ch.inputClosed j).history.left = ch.history.left := by
  obtain ⟨hoff, hkeeps⟩ := h.keepAliveOff
  have hok := hoff.ok
  unfold Channel.inputClosed
  simp only
  split
  · exact ⟨hoff, rfl, rfl, rfl, rfl⟩
  next hc =>
  have hended : ch.ended = false := by
    cases he : ch.ended with
    | false => rfl
    | true => simp [he] at hc
  split
  · next hstream =>
    split
    · next hsent =>
      obtain ⟨_, hs⟩ := hok.streaming hended hsent
      obtain ⟨he, hk, hn⟩ := hs.ping hok
      exact ⟨hoff.trans he, hn.trans hended.symm, hk.queued, hk.entered, hk.left⟩
    next hsent =>
    obtain ⟨he, hk, hn⟩ := (hok.waiting hended (by simpa using hsent)).begin (j := j) hok hstream
    exact ⟨hoff.trans he, hn.trans hended.symm, hk.queued, hk.entered, hk.left⟩
  split
  · next hsent =>
    have hw := hok.waiting hended (by simpa using (Bool.and_eq_true_iff.mp hsent).1)
    refine ⟨⟨⟨.inl ?_, h.stalled, ?_⟩, rfl, fun he => ?_⟩, rfl, rfl, rfl, rfl⟩
    · refine ⟨hw.headSent, hw.ended, hw.head, hw.heads, hw.ends, hw.events, ?_, ?_⟩
      · show ch.history.interims + 1 ≤ 1
        rw [hint]
      have hput : ch.put = [] := by
        have := hw.put
        rw [show ({ ch with keepAlive := false } : Channel).history.interims = 0 from
          hint] at this
        exact this
      show ch.history.taken ++ (ch.out ++ processing) = if ch.history.interims + 1 = 1 then
        processing else []
      rw [hint, ← List.append_assoc]
      show ch.put ++ processing = processing
      rw [hput, List.nil_append]
    · exact fun hd hh => nomatch hw.head.symm.trans hh
    · cases hended.symm.trans he
  · exact ⟨hoff, rfl, rfl, rfl, rfl⟩

theorem Ok.take (h : ch.Ok) : ch.Evolves ch.take ∧ ch.Keeps ch.take ∧ ch.take.ended = ch.ended :=
  ⟨h.flags (List.append_nil _) fun hk => hk, ⟨rfl, rfl, rfl, rfl⟩, rfl⟩

theorem Ok.leave (h : ch.Ok) : ch.Evolves ch.leave := h.flags rfl fun hk => hk

theorem Ok.stall (h : ch.Ok) (hended : ch.ended = false) (error : Error) :
    ch.Evolves { ch.putError j error with stalled := true } := by
  obtain ⟨he, hwhole⟩ := h.putError (j := j) hended error []
  refine ⟨⟨?_, fun _ => hwhole, he.ok.close⟩, he.connection, he.steady⟩
  rcases he.ok.stage with hs | ⟨r, hs⟩ | ⟨r, hs⟩
  · cases hs.ended.symm.trans hwhole
  · cases hs.ended.symm.trans hwhole
  exact .inr (.inr ⟨r, ⟨hs.ended, hs.head, hs.heads, hs.ends, hs.interims, hs.framed,
    hs.done, hs.put⟩⟩)

theorem Ok.setGone (h : ch.Ok) : ch.Evolves { ch with gone := true } := h.flags rfl fun hk => hk

end JitLlm.Runtime.Api.Channel
