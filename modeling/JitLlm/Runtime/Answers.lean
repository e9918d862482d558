import JitLlm.Runtime.Exchanges

/-!
# One response for each request

A section changes a channel only as a response goes on: a channel that ended has the bytes it had.
With what holds between the sections this is all there is to say of a request in any order of the
two threads' sections (`reachable_responses`).
-/

namespace JitLlm.Runtime.Api

open Option

namespace World

variable {w w' : World} {j : Json} {options : Options} {f : Channel → Channel}

def Advances (w w' : World) : Prop :=
  ∀ i, i < w.nextChannel → (w.channels i).Evolves (w'.channels i)

theorem Good.same (h : w.Good) (hchan : w'.channels = w.channels) : w.Advances w' := by
  intro i _
  rw [hchan]
  exact Channel.Evolves.refl (h.core.ok i)

theorem Good.advances (h : w.Good) {k : Nat} {ch : Channel}
    (hchan : w'.channels = Function.update w.channels k ch)
    (hk : k < w.nextChannel → (w.channels k).Evolves ch) : w.Advances w' := by
  intro i hi
  rw [hchan]
  by_cases hik : i = k
  · rw [hik, Function.update_self]
    exact hk (hik ▸ hi)
  rw [Function.update_of_ne hik]
  exact Channel.Evolves.refl (h.core.ok i)

theorem Good.advances_each (h : w.Good) {ids : List Nat}
    (hnodup : ids.Nodup) (hchan : w'.channels = (w.each f ids).channels)
    (hf : ∀ i ∈ ids, (w.channels i).Evolves (f (w.channels i))) : w.Advances w' := by
  intro i _
  rw [hchan, each_channels f hnodup]
  split
  · next hi => exact hf i hi
  · exact Channel.Evolves.refl (h.core.ok i)

theorem Good.advances_onChannel (h : w.Good) {c : Nat}
    (hchan : w'.channels = (w.onChannel c f).channels)
    (hf : ∀ k, (w.connections c).channel = some k → (w.channels k).Evolves (f (w.channels k))) :
    w.Advances w' := by
  unfold World.onChannel at hchan
  cases hc : (w.connections c).channel with
  | none =>
    rw [hc] at hchan
    exact h.same hchan
  | some k =>
    rw [hc] at hchan
    exact h.advances hchan fun _ => hf k hc

theorem Good.advances_new (h : w.Good) {ch : Channel}
    (hchan : w'.channels = Function.update w.channels w.nextChannel ch) : w.Advances w' :=
  h.advances hchan fun hlt => absurd hlt (Nat.lt_irrefl _)

theorem Good.advances_drop (h : w.Good) (c : Nat) : w.Advances (w.drop c) := by
  unfold World.drop
  simp only
  split
  · exact h.same rfl
  rcases (w.connections c).channel with _ | k
  · exact h.same rfl
  have hgone := (h.core.ok k).setGone
  simp only
  split
  · exact h.advances rfl fun _ => hgone.trans hgone.ok.leave
  · exact h.advances rfl fun _ => hgone

theorem Advances.trans {w'' : World} (h : w.Advances w') (hnext : w'.nextChannel = w.nextChannel)
    (h' : w'.Advances w'') : w.Advances w'' :=
  fun i hi => (h i hi).trans (h' i (hnext ▸ hi))

theorem Good.advances_flush (h : w.Good) (c : Nat) : w.Advances (w.flush c) := by
  unfold World.flush
  simp only
  rcases hc : (w.connections c).channel with _ | k
  · exact h.same rfl
  obtain ⟨h1, h2, h3⟩ := (h.core.ok k).take
  have htaken := h.setChannel h1 h2.queued h2.entered h2.left (.inl h2.interims) h3 fun hs => hs
  have hadv : w.Advances (w.setChannel k (w.channels k).take) := h.advances rfl fun _ => h1
  simp only
  split
  · exact hadv.trans rfl (htaken.advances_drop c)
  split
  · split
    · split
      · exact hadv
      · exact hadv
    · exact hadv
  · exact hadv

theorem Good.advances_onRequest (h : w.Good) (c : Nat) (keepAlive pipelined : Bool)
    (outcome : Outcome) : w.Advances (w.onRequest j options c keepAlive pipelined outcome) := by
  unfold World.onRequest
  cases outcome with
  | refused | answered => exact h.advances_new rfl
  | chat =>
    simp only
    split
    · exact h.advances_new rfl
    split
    · exact h.advances_new rfl
    split
    · exact h.advances_new rfl
    · exact h.advances_new rfl

theorem Good.advances_inputClosed (h : w.Good) (c : Nat) : w.Advances (w.inputClosed j c) := by
  unfold World.inputClosed
  simp only
  split
  · exact h.same rfl
  next hopen =>
  refine h.advances_onChannel (c := c) (f := (·.inputClosed j)) rfl fun k hc => ?_
  obtain ⟨-, -, -, -, hint⟩ := h.core.channelOf c k hc
  exact ((h.core.ok k).inputClosed (hint (by simpa using hopen))).1

theorem Good.advances_stallRunning (h : w.Good) (message : String) :
    w.Advances (w.stallRunning j message) := by
  unfold World.stallRunning
  split
  · exact h.same rfl
  next k _ =>
  simp only
  split
  · exact h.same rfl
  next hc =>
  simp only [Bool.or_eq_true, not_or, Bool.not_eq_true] at hc
  exact h.advances rfl fun _ => (h.core.ok k).stall hc.1 _

theorem stallRunning_nextChannel (message : String) :
    (w.stallRunning j message).nextChannel = w.nextChannel := by
  unfold World.stallRunning
  split
  · rfl
  simp only
  split <;> rfl

theorem Good.advances_watchBackend (h : w.Good) (message : String) :
    w.Advances (w.watchBackend j message) := by
  have hstall := h.stallRunning (j := j) message
  refine (h.advances_stallRunning message).trans (stallRunning_nextChannel message)
    (hstall.advances_each (f := fun ch => ch.leave.putError j (refusal 503
      "the model backend has stopped making progress; retry later" "backend_unresponsive"))
      hstall.core.nodup rfl fun i hi => ?_)
  exact (leaves_putError (hstall.core.ok i) (hstall.core.inside i hi).2.1 _).toEvolves

theorem Good.advances_onServing (h : w.Good)
    (hf : ∀ i, (w.channels i).Live → (w.channels i).Evolves (f (w.channels i)))
    (hstep : w.onServing f = some w') : w.Advances w' := by
  unfold World.onServing at hstep
  split at hstep
  · next k hd =>
    cases hstep
    exact h.advances rfl fun _ => hf k (h.live (.inr hd))
  · cases hstep

theorem Good.advances_step (h : w.Good) {label : Label}
    (hstep : w.step j options label = some w') : w.Advances w' := by
  cases label with
  | accept | drain | beat | stop =>
    cases hstep
    exact h.same rfl
  | readHead | readBody | sent | returned =>
    simp only [World.step] at hstep
    split at hstep
    · cases hstep
      exact h.same rfl
    · cases hstep
  | refuse =>
    simp only [World.step] at hstep
    split at hstep
    · cases hstep
      exact h.advances_new rfl
    · cases hstep
  | request c keepAlive pipelined outcome =>
    simp only [World.step] at hstep
    split at hstep
    · cases hstep
      exact h.advances_onRequest c keepAlive pipelined outcome
    · cases hstep
  | flush c =>
    simp only [World.step] at hstep
    split at hstep
    · cases hstep
      exact h.advances_flush c
    · cases hstep
  | drop c =>
    cases hstep
    exact h.advances_drop c
  | pipelined c =>
    simp only [World.step] at hstep
    split at hstep
    · cases hstep
      exact h.advances_onChannel (c := c) (f := ({ · with keepAlive := false })) rfl
        fun k _ => (h.core.ok k).keepAliveOff.1
    · cases hstep
  | inputClosed c =>
    simp only [World.step] at hstep
    split at hstep
    · cases hstep
      exact h.advances_inputClosed c
    · cases hstep
  | keepalive =>
    simp only [World.step] at hstep
    split at hstep
    · cases hstep
      exact h.advances_onChannel rfl fun k _ => (h.core.ok k).keepalive.1
    · cases hstep
  | watchBackend message =>
    cases hstep
    exact h.advances_watchBackend message
  | expire waited =>
    cases hstep
    refine h.advances_each (f := fun ch => ch.leave.putError j (refusal 429
      "the request waited too long behind others; retry later")) (h.core.nodup.filter _) rfl
      fun i hi => ?_
    exact (leaves_putError (h.core.ok i)
      (h.core.inside i (List.mem_filter.mp hi).1).2.1 _).toEvolves
  | take =>
    simp only [World.step] at hstep
    split at hstep
    · next i rest _ _ =>
      split at hstep
      · cases hstep
      cases hstep
      exact h.advances rfl fun _ => (h.core.ok i).leave
    · cases hstep
  | serve =>
    simp only [World.step] at hstep
    split at hstep
    · split at hstep <;> rw [← some.inj hstep] <;> exact h.same rfl
    · cases hstep
  | admitted => exact h.advances_onServing (fun _ hl => hl.admitted.1) hstep
  | emit reasoning content =>
    exact h.advances_onServing (fun _ hl => (hl.emit options reasoning content).1) hstep
  | finish ending =>
    simp only [World.step] at hstep
    split at hstep
    · next i hd =>
      cases hstep
      exact h.advances rfl fun _ => ((h.live (.inr hd)).finish options ending).1
    · cases hstep
  | refuseQueue =>
    simp only [World.step] at hstep
    split at hstep
    · cases hstep
      exact h.advances_each (f := fun ch => ({ ch.leave with keepAlive := false } : Channel).putError
        j (refusal 503 "the runtime is stopping")) h.core.nodup rfl
        fun i hi => (h.refusesLast hi).toEvolves
    · cases hstep

/-! ## After the last section -/

/-- Once the driver stopped the queue is empty, and `stopping` keeps it so. -/
def Ended (w : World) : Prop := w.driver = .stopped → w.stopping = true ∧ w.queue = []

/-- A section of the I/O thread's: nothing enters the queue of a runtime that stops. -/
structure Aside (w w' : World) : Prop where
  driver : w'.driver = w.driver
  stopping : w'.stopping = w.stopping
  queue : w.stopping = true → w.queue = [] → w'.queue = []

theorem Aside.ended (h : w.Aside w') (he : w.Ended) : w'.Ended := by
  intro hd
  obtain ⟨hs, hq⟩ := he (h.driver.symm.trans hd)
  exact ⟨h.stopping.trans hs, h.queue hs hq⟩

theorem aside_drop (c : Nat) : w.Aside (w.drop c) := by
  unfold World.drop
  simp only
  split
  · exact ⟨rfl, rfl, fun _ hq => hq⟩
  rcases (w.connections c).channel with _ | _
  · exact ⟨rfl, rfl, fun _ hq => hq⟩
  simp only
  split
  · refine ⟨rfl, rfl, fun _ hq => ?_⟩
    rw [hq]
    rfl
  · exact ⟨rfl, rfl, fun _ hq => hq⟩

theorem aside_flush (c : Nat) : w.Aside (w.flush c) := by
  unfold World.flush
  simp only
  rcases (w.connections c).channel with _ | k
  · exact ⟨rfl, rfl, fun _ hq => hq⟩
  simp only
  split
  · have hdrop := aside_drop (w := w.setChannel k (w.channels k).take) c
    exact ⟨hdrop.driver, hdrop.stopping, hdrop.queue⟩
  split
  · split
    · split <;> exact ⟨rfl, rfl, fun _ hq => hq⟩
    · exact ⟨rfl, rfl, fun _ hq => hq⟩
  · exact ⟨rfl, rfl, fun _ hq => hq⟩

theorem aside_onRequest (c : Nat) (keepAlive pipelined : Bool) (outcome : Outcome) :
    w.Aside (w.onRequest j options c keepAlive pipelined outcome) := by
  unfold World.onRequest
  cases outcome with
  | refused | answered => exact ⟨rfl, rfl, fun _ hq => hq⟩
  | chat stream =>
    simp only
    split
    · next hc =>
      refine ⟨rfl, rfl, fun hs _ => ?_⟩
      simp only [Bool.and_eq_true, Bool.not_eq_true'] at hc
      cases hs.symm.trans hc.1.1
    split
    · exact ⟨rfl, rfl, fun _ hq => hq⟩
    · split <;> exact ⟨rfl, rfl, fun _ hq => hq⟩

theorem aside_onChannel (c : Nat) (f : Channel → Channel) : w.Aside (w.onChannel c f) := by
  unfold World.onChannel
  split <;> exact ⟨rfl, rfl, fun _ hq => hq⟩

theorem aside_inputClosed (c : Nat) : w.Aside (w.inputClosed j c) := by
  unfold World.inputClosed
  simp only
  split
  · exact ⟨rfl, rfl, fun _ hq => hq⟩
  have h := aside_onChannel (w := w) c (·.inputClosed j)
  exact ⟨h.driver, h.stopping, h.queue⟩

theorem aside_watchBackend (message : String) : w.Aside (w.watchBackend j message) := by
  have h : w.Aside (w.stallRunning j message) := by
    unfold World.stallRunning
    split
    · exact ⟨rfl, rfl, fun _ hq => hq⟩
    simp only
    split <;> exact ⟨rfl, rfl, fun _ hq => hq⟩
  exact ⟨h.driver, h.stopping, fun _ _ => rfl⟩

theorem aside_expire (waited : Nat → Bool) : w.Aside (w.expire j waited) := by
  refine ⟨rfl, rfl, fun _ hq => ?_⟩
  unfold World.expire
  simp only [hq, List.filter_nil]

theorem ended_of_driver {d : Driver} (hd : w.driver = d) (hne : d ≠ .stopped) : w.Ended :=
  fun h => absurd (hd.symm.trans h) hne

theorem Ended.step (he : w.Ended) {label : Label} (hstep : w.step j options label = some w') :
    w'.Ended := by
  cases label <;> simp only [World.step] at hstep
  case accept =>
    cases hstep
    exact he
  case drop c =>
    cases hstep
    exact (aside_drop c).ended he
  case watchBackend message =>
    cases hstep
    exact (aside_watchBackend message).ended he
  case expire waited =>
    cases hstep
    exact (aside_expire waited).ended he
  case drain =>
    cases hstep
    exact he
  case beat =>
    cases hstep
    exact he
  case stop =>
    cases hstep
    exact fun hd => ⟨rfl, (he hd).2⟩
  case take =>
    split at hstep
    · split at hstep
      · cases hstep
      cases hstep
      exact ended_of_driver rfl fun h => by cases h
    · cases hstep
  case serve =>
    split at hstep
    · split at hstep <;> cases hstep
      · exact ended_of_driver rfl fun h => by cases h
      · exact ended_of_driver rfl fun h => by cases h
    · cases hstep
  case admitted =>
    unfold World.onServing at hstep
    split at hstep
    · next hd =>
      cases hstep
      exact ended_of_driver hd fun h => by cases h
    · cases hstep
  case emit reasoning content =>
    unfold World.onServing at hstep
    split at hstep
    · next hd =>
      cases hstep
      exact ended_of_driver hd fun h => by cases h
    · cases hstep
  case finish ending =>
    split at hstep
    · cases hstep
      exact ended_of_driver rfl fun h => by cases h
    · cases hstep
  case returned =>
    split at hstep
    · cases hstep
      exact ended_of_driver rfl fun h => by cases h
    · cases hstep
  case refuseQueue =>
    split at hstep
    · cases hstep
      exact fun _ => ⟨rfl, rfl⟩
    · cases hstep
  -- what is left is the I/O thread's, each under its guard
  all_goals
    split at hstep
    · cases hstep
      first
        | exact he
        | exact (aside_flush _).ended he
        | exact (aside_onRequest _ _ _ _).ended he
        | exact (aside_inputClosed _).ended he
        | exact (aside_onChannel _ _).ended he
    · cases hstep

end World

/-! ## Every run -/

variable {w w' : World} {j : Json} {options : Options}

theorem Reachable.good (h : Reachable j options w) : w.Good ∧ w.Ended := by
  induction h with
  | start => exact ⟨World.Good.start, nofun⟩
  | step _ hstep ih => exact ⟨ih.1.step hstep, ih.2.step hstep⟩

/-- What a request is answered: a framed response, or what there is of one so far. -/
structure Channel.Answers (ch : Channel) : Prop where
  bytes : ∃ r : Response, r.Framed ∧ ch.put <+: r.bytes ∧
    (∀ h, ch.history.head = some h → h = r.head) ∧ (ch.ended = true → ch.put = r.bytes)
  interims : ch.history.interims ≤ 1
  heads : ch.history.heads ≤ 1
  ends : ch.history.ends ≤ 1
  done : DoneAfterFinish ch.history.events

theorem framed_empty (interim : Bool) :
    (⟨interim, Channel.headOf {} 200 "application/json" (some 0) [], []⟩ : Response).Framed where
  parts _ hp := nomatch hp
  length _ hn := ⟨rfl, some.inj hn⟩
  close hn := nomatch hn

theorem Channel.Ok.answers {ch : Channel} (h : ch.Ok) : ch.Answers := by
  rcases h.stage with hw | ⟨r, hs⟩ | ⟨r, hr⟩
  · refine ⟨⟨_, framed_empty (ch.history.interims = 1), ?_, fun hd hh => ?_, fun he => ?_⟩,
      hw.interims, hw.heads ▸ Nat.zero_le 1,
      hw.ends ▸ Nat.zero_le 1, ?_⟩
    · rw [hw.put]
      simp only [Response.bytes, Response.start, decide_eq_true_eq, List.append_assoc]
      exact List.prefix_append _ _
    · rw [hw.head] at hh
      cases hh
    · rw [hw.ended] at he
      cases he
    rw [hw.events]
    exact doneAfterFinish_of_not_mem List.not_mem_nil
  · refine ⟨⟨r, hs.framed, ?_, fun hd hh => ?_, fun he => ?_⟩, hs.interims, Nat.le_of_eq hs.heads,
      hs.ends ▸ Nat.zero_le 1, doneAfterFinish_of_not_mem hs.done⟩
    · rw [hs.put]
      exact List.prefix_append _ _
    · exact some.inj (hh.symm.trans hs.head)
    rw [hs.ended] at he
    cases he
  refine ⟨⟨r, hr.framed, ?_, fun hd hh => ?_, fun _ => hr.put⟩, hr.interims, Nat.le_of_eq hr.heads,
    Nat.le_of_eq hr.ends, hr.done⟩
  · rw [hr.put]
  · exact some.inj (hh.symm.trans hr.head)

/-- In every order of the two threads' sections: each channel has a framed response or a part of
    one, with one head, one end and a 102 at most, and `[DONE]` only after a finish event; no
    section adds to one that ended; a request that entered the queue is in it or left it once, and
    none is in it when the driver has stopped; and a connection has another response only after
    one that ended and said `keep-alive`. -/
theorem reachable_responses (h : Reachable j options w) : (∀ i, (w.channels i).Answers) ∧
    (∀ i label w', i < w.nextChannel → w.step j options label = some w' →
      (w.channels i).ended = true →
        (w'.channels i).ended = true ∧ (w'.channels i).put = (w.channels i).put) ∧
    (∀ i, (i ∈ w.queue ∧ (w.channels i).history.entered = 1 ∧ (w.channels i).history.left = 0) ∨
      (i ∉ w.queue ∧ (w.channels i).history.entered = (w.channels i).history.left ∧
        (w.channels i).history.left ≤ 1)) ∧ w.queue.Nodup ∧ (w.driver = .stopped → w.queue = []) ∧
    ∀ i k, i < k → k < w.nextChannel →
      (w.channels i).connection = (w.channels k).connection → (w.channels i).Reusable := by
  obtain ⟨hgood, hended⟩ := h.good
  refine ⟨fun i => (hgood.core.ok i).answers, fun i label w' hi hstep he => ?_, fun i => ?_,
    hgood.core.nodup, fun hd => (hended hd).2, hgood.core.followed⟩
  · obtain ⟨h1, h2, -⟩ := (hgood.advances_step hstep i hi).steady he
    exact ⟨h1, h2⟩
  by_cases hi : i ∈ w.queue
  · obtain ⟨-, -, h1, h2⟩ := hgood.core.inside i hi
    exact .inl ⟨hi, h1, h2⟩
  obtain ⟨h1, h2⟩ := hgood.core.outside i hi
  exact .inr ⟨hi, h1, h1 ▸ h2⟩

def World.run (j : Json) (options : Options) : List Label → World → Option World
  | [], w => some w
  | label :: labels, w => (w.step j options label).bind (World.run j options labels)

theorem Reachable.run {labels : List Label} (h : Reachable j options w)
    (hrun : w.run j options labels = some w') : Reachable j options w' := by
  induction labels generalizing w with
  | nil =>
    cases hrun
    exact h
  | cons label labels ih =>
    obtain ⟨w1, hstep, hrun⟩ := bind_eq_some_iff.mp hrun
    exact ih (h.step hstep) hrun

def streamLabels : List Label :=
  [.accept, .readHead 0, .readBody 0 false false, .request 0 true false (.chat true), .take, .serve,
    .admitted, .finish ⟨none, [], [], none, false, false, []⟩, .returned]

theorem streamLabels_run :
    ∃ w, World.run ⟨fun _ _ _ => [], fun _ => []⟩ ⟨8, 4096, 30⟩ streamLabels {} = some w ∧
      (w.channels 0).ended = true ∧ (w.channels 0).history.left = 1 :=
  ⟨_, rfl, rfl, rfl⟩

theorem reachable_responses_stream :
    ∃ w, World.run ⟨fun _ _ _ => [], fun _ => []⟩ ⟨8, 4096, 30⟩ streamLabels {} = some w ∧
      (w.channels 0).ended = true ∧ (w.channels 0).history.left = 1 ∧ (w.channels 0).Answers := by
  obtain ⟨w, hrun, hended, hleft⟩ := streamLabels_run
  exact ⟨w, hrun, hended, hleft, (reachable_responses (Reachable.start.run hrun)).1 0⟩

end JitLlm.Runtime.Api
