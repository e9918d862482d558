import JitLlm.Scheduler.Controls

/-!
# Repeated cancellations

`Post` keeps a list of intents so that a cancellation of a request that has one queued, with no
start of it behind, costs nothing. One direction of that never fails: an intent is of such a
cancellation (`Kept.intents`). The other does. Popping a cancellation erases every intent of its
request, also the one of a second cancellation that a start has let in behind it; from then on
that one is queued and no intent says so.

`Calm` is the step that does not meet this: the intents of a request are erased with no other
cancellation of it queued behind its starts. Along calm steps the list is exact, and the first
step that is not calm is where it stops being so.
-/

namespace JitLlm.Controls.World

open Scheduler (PushResult)

variable {T : Type} {w w' : World T} {r : Nat} {control : Control}

def Queued (w : World T) (r : Nat) : Prop :=
  ∃ before after, w.controls.items = before ++ .cancel r :: after ∧ .start r ∉ after

/-- The intents are those of the queue, and a cancellation posted again costs nothing: it is
    accepted, and nothing but that is recorded. Said outside the calls of `Post` and between the
    owner's pop and its erase. -/
def IntentsExact [DecidableEq T] (w : World T) : Prop :=
  w.holder = none → (∀ control, w.owner ≠ .popped control) →
    ∀ r, (r ∈ w.intents ↔ w.Queued r) ∧ (w.Queued r → ∀ t, w.step (.post t (.cancel r)) =
      some (w.record ⟨.cancel r, w.applied.length, w.accepted.length⟩ r))

def Calm (w : World T) (label : Label T) : Prop :=
  ∀ r, label = .erase → w.owner = .popped (.cancel r) → ¬ w.Queued r

inductive Calmly [DecidableEq T] : World T → Prop
  | init {capacity reserved : Nat} {controls : BoundedQueue Control} :
      BoundedQueue.create capacity reserved = some controls → Calmly { controls }
  | step {w w' : World T} (label : Label T) :
      Calmly w → w.Calm label → w.step label = some w' → Calmly w'

/-! ## What is covered -/

theorem queued_iff (h : ∀ control, w.owner ≠ .popped control) : w.Queued r ↔ w.Covered r := by
  unfold Queued Covered pending
  split
  next control howner =>
    exact absurd howner (h control)
  · exact Iff.rfl

theorem Covered.ofPush (hpen : w'.pending = w.pending ++ [control])
    (h : w'.Covered r) : control = .cancel r ∨ (w.Covered r ∧ control ≠ .start r) := by
  obtain ⟨before, after, heq, hnot⟩ := h
  rw [hpen] at heq
  rcases List.eq_nil_or_concat after with rfl | ⟨after, last, rfl⟩
  · obtain ⟨-, hlast⟩ := List.append_inj' heq rfl
    exact .inl (List.cons.inj hlast).1
  rw [List.concat_eq_append] at heq hnot
  rw [← List.cons_append, ← List.append_assoc] at heq
  obtain ⟨hinit, hlast⟩ := List.append_inj' heq rfl
  obtain rfl := (List.cons.inj hlast).1
  refine .inr ⟨⟨before, after, hinit, fun hmem => hnot (by simp [hmem])⟩, ?_⟩
  rintro rfl
  exact hnot (by simp)

theorem Covered.ofTail (hpen : w.pending = control :: w'.pending)
    (h : w'.Covered r) : w.Covered r := by
  obtain ⟨before, after, heq, hnot⟩ := h
  exact ⟨control :: before, after, by rw [hpen, heq]; rfl, hnot⟩

/-! ## Listed intents -/

/-- Every covered request has its intent, but for one whose cancellation is being posted; and a
    start that was pushed has no cancellation behind it. -/
structure Listed (w : World T) : Prop where
  listed : ∀ r, w.Covered r → r ∈ w.intents ∨
    ∃ t call, w.posters t = .pushed call .accepted ∧ call.control = .cancel r
  started : ∀ t call r, w.posters t = .pushed call .accepted → call.control = .start r →
    ¬ w.Covered r

theorem Listed.less (h : w.Listed) (hcov : ∀ r, w'.Covered r → w.Covered r)
    (hint : w'.intents = w.intents) (hpos : ∀ t call, w'.posters t = .pushed call .accepted ↔
      w.posters t = .pushed call .accepted) : w'.Listed := by
  refine ⟨fun r hr => ?_, fun t call r ht hc hr => ?_⟩
  · rw [hint]
    refine (h.listed r (hcov r hr)).imp_right ?_
    rintro ⟨t, call, ht, hc⟩
    exact ⟨t, call, (hpos t call).mpr ht, hc⟩
  · exact h.started t call r ((hpos t call).mp ht) hc (hcov r hr)

section Steps

variable [DecidableEq T] {t : T}

theorem Listed.post (h : w.Listed) {control : Control}
    (hstep : w.step (.post t control) = some w') : w'.Listed := by
  have hlocked : w.posters t = .idle → ∀ call,
      ({ w with holder := some t }.setPoster t (.checked call)).Listed := by
    intro hidle call
    refine h.less (fun r hr => hr) rfl fun t' call' => ?_
    by_cases hne : t' = t
    · rw [hne, setPoster_self, hidle]
      simp
    · rw [setPoster_other _ _ hne]
  unfold step at hstep
  simp only at hstep
  split at hstep
  next _ hidle =>
    split at hstep
    · split at hstep
      · cases hstep
        exact h.less (fun r hr => hr) rfl fun _ _ => Iff.rfl
      cases hstep
      exact hlocked hidle _
    cases hstep
    exact hlocked hidle _
  · cases hstep

section

variable (h : w.Listed) (hkept : w.Kept)
include h hkept

theorem Listed.push (hstep : w.step (.push t) = some w') : w'.Listed := by
  unfold step at hstep
  simp only at hstep
  split at hstep
  next call ht =>
    have halone : ∀ {t'}, t' ≠ t → w.posters t' = .idle := fun hne =>
      hkept.alone (by rw [ht]; simp) hne
    -- Before, no poster had pushed: the lock is `t`'s.
    have hnone : ∀ t' call' result, w.posters t' ≠ .pushed call' result := by
      intro t' call' result heq
      by_cases hne : t' = t
      · rw [hne, ht] at heq
        cases heq
      rw [halone hne] at heq
      cases heq
    have hlis : ∀ r, w.Covered r → r ∈ w.intents := fun r hr =>
      (h.listed r hr).resolve_right fun ⟨t', call', ht', _⟩ => hnone t' call' _ ht'
    split at hstep
    next controls heq =>
      cases hstep
      have hitems := BoundedQueue.tryPush_items heq
      rw [if_pos rfl] at hitems
      have hpen : ({ w with
          controls, accepted := w.accepted ++ [call.control] }.setPoster t
            (.pushed call .accepted)).pending = w.pending ++ [call.control] := by
        unfold pending setPoster
        simp only [hitems]
        split <;> simp
      refine ⟨fun r hr => ?_, fun t' call' r ht' hc hr => ?_⟩
      · rcases hr.ofPush hpen with hmine | ⟨hold, -⟩
        · exact .inr ⟨t, call, setPoster_self _ t _, hmine⟩
        · exact .inl (hlis r hold)
      by_cases hne : t' = t
      · rw [hne, setPoster_self] at ht'
        obtain ⟨rfl, -⟩ := Poster.pushed.inj ht'
        rcases hr.ofPush hpen with hmine | ⟨-, hno⟩
        · rw [hc] at hmine
          cases hmine
        · exact hno hc
      rw [setPoster_other _ _ hne] at ht'
      exact hnone t' call' _ ht'
    next result controls hres heq =>
      cases hstep
      have hitems := BoundedQueue.tryPush_items heq
      rw [if_neg hres, List.append_nil] at hitems
      refine h.less (fun r hr => hr.congr ?_) rfl fun t' call' => ?_
      · unfold pending setPoster
        simp only [hitems]
      refine iff_of_false (fun heq' => ?_) (hnone t' call' _)
      by_cases hne : t' = t
      · rw [hne, setPoster_self] at heq'
        exact hres (Poster.pushed.inj heq').2
      rw [setPoster_other _ _ hne] at heq'
      exact hnone t' call' _ heq'
  · cases hstep

theorem Listed.finish (hstep : w.step (.finish t) = some w') : w'.Listed := by
  unfold step at hstep
  simp only at hstep
  split at hstep
  next call result ht =>
    cases hstep
    have hidle : ∀ (w1 : World T), w1.posters = w.posters → ∀ t',
        (w1.setPoster t .idle).posters t' = .idle := by
      intro w1 hpos t'
      by_cases hne : t' = t
      · rw [hne, setPoster_self]
      rw [setPoster_other _ _ hne, hpos]
      exact hkept.alone (by rw [ht]; simp) hne
    -- The lock is free after: it is enough that the intents list what is covered.
    have hdone : ∀ w1 : World T, w1.posters = w.posters → w1.pending = w.pending →
        (∀ r, w.Covered r → r ∈ w1.intents) →
        ({ w1 with holder := none }.setPoster t .idle).Listed := by
      intro w1 hpos hpen hlis
      have hfree := hidle { w1 with holder := none } hpos
      refine ⟨fun r hr => .inl (hlis r (hr.congr hpen.symm)), fun t' call' r ht' => ?_⟩
      rw [hfree] at ht'
      cases ht'
    have hlis : ∀ r, w.Covered r →
        r ∈ w.intents ∨ (result = .accepted ∧ call.control = .cancel r) := by
      intro r hr
      refine (h.listed r hr).imp_right ?_
      rintro ⟨t', call', ht', hc⟩
      have hne : t' = t := by
        by_contra hne
        rw [hkept.alone (by rw [ht]; simp) hne] at ht'
        cases ht'
      rw [hne, ht] at ht'
      obtain ⟨rfl, rfl⟩ := Poster.pushed.inj ht'
      exact ⟨rfl, hc⟩
    unfold settle
    split
    · split
      next request hcon =>
        refine hdone _ rfl rfl fun r hr => List.mem_append.mpr ?_
        refine (hlis r hr).imp_right fun hmine => ?_
        rw [hcon] at hmine
        exact List.mem_singleton.mpr (Control.cancel.inj hmine.2).symm
      next request hcon =>
        refine hdone _ rfl rfl fun r hr => List.mem_filter.mpr ⟨?_, decide_eq_true ?_⟩
        · refine (hlis r hr).resolve_right fun hmine => ?_
          rw [hcon] at hmine
          cases hmine.2
        rintro rfl
        exact h.started t call r ht hcon hr
      rename_i request hcon
      refine hdone _ rfl rfl fun r hr => (hlis r hr).resolve_right fun hmine => ?_
      rw [hcon] at hmine
      cases hmine.2
    next hres =>
      exact hdone _ rfl rfl fun r hr => (hlis r hr).resolve_right fun hmine => hres hmine.1
  · cases hstep

theorem Listed.erase (hcalm : w.Calm .erase) (hstep : w.step .erase = some w') : w'.Listed := by
  unfold step at hstep
  simp only at hstep
  split at hstep
  next request howner =>
    split at hstep
    next hfree =>
      cases hstep
      have hidle := hkept.unlocked (Option.isNone_iff_eq_none.mp hfree)
      have hpen : w.pending = .cancel request :: w.controls.items := by
        unfold pending
        rw [howner]
      refine ⟨fun r hr => .inl (List.mem_filter.mpr ⟨?_, decide_eq_true ?_⟩),
        fun t call r ht => nomatch (hidle t).symm.trans ht⟩
      · refine (h.listed r (hr.ofTail hpen)).resolve_right ?_
        rintro ⟨t, call, ht, -⟩
        exact nomatch (hidle t).symm.trans ht
      rintro rfl
      exact hcalm r rfl howner hr
    · cases hstep
  next control hne howner =>
    cases hstep
    have hpen : w.pending = control :: w.controls.items := by
      unfold pending
      rw [howner]
    exact h.less (fun r hr => hr.ofTail hpen) rfl fun _ _ => Iff.rfl
  · cases hstep

theorem Listed.step {label : Label T} (hcalm : w.Calm label)
    (hstep : w.step label = some w') : w'.Listed := by
  cases label with
  | post => exact h.post hstep
  | push => exact h.push hkept hstep
  | finish => exact h.finish hkept hstep
  | pop =>
    unfold World.step at hstep
    simp only at hstep
    split at hstep
    next howner =>
      unfold BoundedQueue.tryPop at hstep
      cases hitems : w.controls.items with
      | nil =>
        rw [hitems] at hstep
        cases hstep
        exact h
      | cons =>
        rw [hitems] at hstep
        cases hstep
        refine h.less (fun r hr => hr.congr ?_) rfl fun _ _ => Iff.rfl
        simp [pending, howner, hitems]
    · cases hstep
  | erase => exact h.erase hkept hcalm hstep
  | apply admitted =>
    unfold World.step at hstep
    simp only at hstep
    split at hstep
    next control howner =>
      cases hstep
      refine h.less (fun r hr => hr.congr ?_) rfl fun _ _ => Iff.rfl
      simp [pending, howner]
    · cases hstep
  | close | retire =>
    cases hstep
    exact h.less (fun r hr => hr) rfl fun _ _ => Iff.rfl

end

/-! ## Calm runs -/

theorem Calmly.reachable (h : Calmly w) : Reachable w := by
  induction h with
  | init hcreate => exact .init hcreate
  | step label _ _ hstep ih => exact .step label ih hstep

theorem Calmly.listed (h : Calmly w) : w.Listed := by
  induction h with
  | init hcreate =>
    rename_i controls
    have hitems : controls.items = [] := by
      unfold BoundedQueue.create at hcreate
      split at hcreate
      · cases hcreate
        rfl
      · cases hcreate
    refine ⟨fun r hr => ?_, fun t call r ht => absurd ht (by simp)⟩
    obtain ⟨before, after, heq, -⟩ := hr
    simp [pending, hitems] at heq
  | step label hbef hcalm hstep ih => exact ih.step hbef.reachable.kept hcalm hstep

theorem Listed.exact (h : w.Listed) (hkept : w.Kept) : w.IntentsExact := by
  intro hfree howner r
  have hidle := hkept.unlocked hfree
  have hiff : r ∈ w.intents ↔ w.Queued r := by
    rw [queued_iff howner]
    constructor
    · intro hr
      refine hkept.intents r hr fun t call ht => ?_
      exact nomatch (hidle t).symm.trans ht
    intro hr
    refine (h.listed r hr).resolve_right ?_
    rintro ⟨t, call, ht, -⟩
    exact nomatch (hidle t).symm.trans ht
  refine ⟨hiff, fun hqueued t => ?_⟩
  unfold World.step
  simp only [hfree, hidle t]
  exact if_pos (List.contains_iff_mem.mpr (hiff.mpr hqueued))

/-- **Repeated cancellations cost nothing while every step is calm.** In every world calm steps
    lead to, the intents are exactly those of the queue and a cancellation posted again is
    accepted with nothing added; and they stay so after a step exactly if it is calm. -/
theorem calmly_intents_exact (h : Calmly w) : w.IntentsExact ∧
    ∀ label w', w.step label = some w' → (w.Calm label ↔ w'.IntentsExact) := by
  refine ⟨h.listed.exact h.reachable.kept, fun label w' hstep => ⟨fun hcalm => ?_, fun hexact => ?_⟩⟩
  · have hnext : Calmly w' := .step label h hcalm hstep
    exact hnext.listed.exact hnext.reachable.kept
  rintro r rfl howner hqueued
  unfold step at hstep
  simp only [howner] at hstep
  split at hstep
  next hfree =>
    cases hstep
    -- The intent was just erased, and the cancellation is still there.
    have hmem := ((hexact (Option.isNone_iff_eq_none.mp hfree) (by simp)) r).1.mpr hqueued
    exact absurd rfl (of_decide_eq_true (List.mem_filter.mp hmem).2)
  · cases hstep

end Steps

def cancelledTwice : List (Label Bool) :=
  [.post true (.cancel 7), .push true, .finish true, .post true (.start 7), .push true,
    .finish true, .post true (.cancel 7), .push true, .finish true]

def firstApplied : List (Label Bool) :=
  cancelledTwice ++ [.pop, .erase, .apply true, .post true (.cancel 8), .push true, .finish true]

theorem Calmly.runs [DecidableEq T] (h : Calmly w) {labels : List (Label T)}
    (hlab : .erase ∉ labels) (hrun : w.runs labels = some w') : Calmly w' := by
  induction labels generalizing w with
  | nil =>
    cases hrun
    exact h
  | cons label labels ih =>
    obtain ⟨w1, hstep, hrest⟩ := Option.bind_eq_some_iff.mp hrun
    rw [List.mem_cons, not_or] at hlab
    exact ih (.step label h (fun _ heq => absurd heq.symm hlab.1) hstep) hlab.2 hrest

theorem calmly_intents_exact_twice :
    ∃ w : World Bool, w.controls.items = [.cancel 7, .start 7, .cancel 7] ∧ 7 ∈ w.intents ∧
      w.step (.post false (.cancel 7)) = some (w.record ⟨.cancel 7, 0, 3⟩ 7) := by
  obtain ⟨controls, hcreate⟩ :
      ∃ controls : BoundedQueue Control, BoundedQueue.create 3 1 = some controls := ⟨_, rfl⟩
  obtain ⟨w, hrun, hhol, howner, hitems, happ, hacc⟩ :
      ∃ w : World Bool, World.runs { controls } cancelledTwice = some w ∧ w.holder = none ∧
        w.owner = .idle ∧ w.controls.items = [.cancel 7, .start 7, .cancel 7] ∧
        w.applied.length = 0 ∧ w.accepted.length = 3 := by
    cases hcreate
    exact ⟨_, rfl, rfl, rfl, rfl, rfl, rfl⟩
  have hcalm : Calmly w := (Calmly.init hcreate).runs (by simp [cancelledTwice]) hrun
  have hqueued : w.Queued 7 := ⟨[.cancel 7, .start 7], [], hitems, by simp⟩
  obtain ⟨hlist, hpost⟩ := (calmly_intents_exact hcalm).1 hhol (by simp [howner]) 7
  refine ⟨w, hitems, hlist.mpr hqueued, ?_⟩
  rw [hpost hqueued false, happ, hacc]

/-- A cancellation of the request is queued behind its start, and another one is refused. -/
theorem second_cancellation_refused :
    ∃ w : World Bool, Reachable w ∧ w.holder = none ∧ w.owner = .idle ∧ w.Queued 7 ∧
      7 ∉ w.intents ∧ ∃ w' call, w.runs [.post true (.cancel 7), .push true] = some w' ∧
        w'.posters true = .pushed call .full := by
  obtain ⟨controls, hcreate⟩ :
      ∃ controls : BoundedQueue Control, BoundedQueue.create 3 1 = some controls := ⟨_, rfl⟩
  obtain ⟨w, hrun, hhol, howner, hitems, hint, hagain⟩ :
      ∃ w : World Bool, World.runs { controls } firstApplied = some w ∧ w.holder = none ∧
        w.owner = .idle ∧ w.controls.items = [.start 7, .cancel 7, .cancel 8] ∧ w.intents = [8] ∧
        ∃ w' call, w.runs [.post true (.cancel 7), .push true] = some w' ∧
          w'.posters true = .pushed call .full := by
    cases hcreate
    exact ⟨_, rfl, rfl, rfl, rfl, rfl, _, _, rfl, rfl⟩
  refine ⟨w, Reachable.runs (.init hcreate) hrun, hhol, howner, ?_, ?_, hagain⟩
  · exact ⟨[.start 7], [.cancel 8], hitems, by simp⟩
  · simp [hint]

end JitLlm.Controls.World
