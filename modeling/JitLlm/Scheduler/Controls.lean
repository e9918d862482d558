import JitLlm.Scheduler.State

/-!
# The control queue and the cancellations queued in it

`Scheduler::Post` and the part of `Turn` that takes controls, apart where threads can interleave.
`cancel_intents_` is guarded by `cancel_mutex_` and the queue by a lock of its own, so a poster
inside `Post` holds the first while the owner may pop, and the owner pops a cancellation and erases
its intent in two steps. A `World` is the queue, the intents, who holds `cancel_mutex_`, and where
each poster and the owner stand; one `step` is one critical section.

`accepted`, `applied` and `posts` are not in the source: they are the history of the run, oldest
first, and the properties over whole runs are stated on them. Of the scheduler's tasks only the
roots of posted starts are kept, with the posted cancellations that were applied to them.
-/

namespace JitLlm.Controls

open Base Scheduler List Option

/-! ## `base/bounded_queue.h` -/

inductive PushKind
  | ordinary | cleanup

structure BoundedQueue (α : Type) where
  capacity : Nat
  ordinary : Nat
  items : List α := []
  closed : Bool := false

namespace BoundedQueue

variable {α : Type}

def create (capacity reserved : Nat) : Option (BoundedQueue α) :=
  if capacity > 0 ∧ reserved < capacity then some { capacity, ordinary := capacity - reserved }
  else none

def tryPush (q : BoundedQueue α) (value : α) (kind : PushKind) : PushResult × BoundedQueue α :=
  if q.closed then (.closed, q)
  else
    let limit := match kind with
      | .cleanup => q.capacity
      | .ordinary => q.ordinary
    if q.items.length ≥ limit then (.full, q)
    else (.accepted, { q with items := q.items ++ [value] })

theorem tryPush_items {q q' : BoundedQueue α} {value : α} {kind : PushKind} {result : PushResult}
    (h : q.tryPush value kind = (result, q')) :
    q'.items = q.items ++ if result = .accepted then [value] else [] := by
  unfold tryPush at h
  split at h
  · cases h
    simp
  simp only at h
  generalize (match kind with
    | .cleanup => q.capacity
    | .ordinary => q.ordinary) = limit at h
  split at h
  all_goals
    cases h
    simp

def tryPop (q : BoundedQueue α) : Option (α × BoundedQueue α) :=
  match q.items with
  | [] => none
  | value :: items => some (value, { q with items })

def close (q : BoundedQueue α) : BoundedQueue α := { q with closed := true }

end BoundedQueue

/-! ## Worlds -/

/-- `Control`; what a start is to run is not the queue's. -/
inductive Control
  | start (request : Nat)
  | cancel (request : Nat)
  | signal (request : Nat)
deriving DecidableEq

def Control.kind : Control → PushKind
  | .cancel _ => .cleanup
  | _ => .ordinary

/-- A call of `Post`, with how many controls were applied and accepted when it took the lock. -/
structure Call where
  control : Control
  applied : Nat
  accepted : Nat

/-- Where a poster stands: in no `Post`, its control to push, or pushed with this answer; in the
    last two it holds `cancel_mutex_`. -/
inductive Poster
  | idle
  | checked (call : Call)
  | pushed (call : Call) (result : PushResult)

/-- Where the owner stands: it has no control in hand; or one, whose intent is still to be erased;
    or one to apply. -/
inductive Owner
  | idle
  | popped (control : Control)
  | erased (control : Control)

def Owner.hand : Owner → List Control
  | .idle => []
  | .popped control | .erased control => [control]

/-- A root task of a posted start: the start's place among the controls, and those of the
    cancellations that were applied to it. -/
structure Root where
  entry : Nat
  request : Nat
  cancelledBy : List Nat := []

/-- A cancellation `Post` accepted: how many controls were applied and accepted when the call took
    the lock, and how many were accepted when it returned. -/
structure Post where
  request : Nat
  applied : Nat
  accepted : Nat
  returned : Nat

structure World (T : Type) where
  controls : BoundedQueue Control
  intents : List Nat := []
  holder : Option T := none
  posters : T → Poster := fun _ => .idle
  owner : Owner := .idle
  roots : List Root := []
  accepted : List Control := []
  applied : List Control := []
  posts : List Post := []

/-- One step of a poster `t`, or of the owner. -/
inductive Label (T : Type)
  | post (t : T) (control : Control)
  | push (t : T)
  | finish (t : T)
  | pop
  | erase
  -- Whether a start is admitted is not the queue's to say.
  | apply (admitted : Bool)
  | close
  -- A root ends.
  | retire (root : Nat)

def Label.owners {T : Type} : Label T → Bool
  | .pop | .erase | .apply _ => true
  | _ => false

namespace World

variable {T : Type} {w w' : World T} {r : Nat}

section Steps

variable [DecidableEq T]

def setPoster (w : World T) (t : T) (p : Poster) : World T :=
  { w with posters := Function.update w.posters t p }

def record (w : World T) (call : Call) (request : Nat) : World T :=
  { w with posts := w.posts ++
    [{ request, applied := call.applied, accepted := call.accepted, returned := w.accepted.length }] }

/-- `Post`'s last part, before it gives the lock back: the intents follow what was accepted. -/
def settle (w : World T) (call : Call) : PushResult → World T
  | .accepted =>
    match call.control with
    | .cancel request => { w with intents := w.intents ++ [request] }.record call request
    -- A later cancellation must follow this start in the queue.
    | .start request => { w with intents := w.intents.filter (· ≠ request) }
    | .signal _ => w
  | _ => w

/-- `Apply`: a start's root, if it was admitted; a cancellation reaches every root of its request
    (`Cancel`). -/
def applyControl (w : World T) (admitted : Bool) : Control → List Root
  | .start request =>
    if admitted then w.roots ++ [{ entry := w.applied.length, request }] else w.roots
  | .cancel request =>
    w.roots.map fun root =>
      if root.request = request then
        { root with cancelledBy := w.applied.length :: root.cancelledBy }
      else root
  | .signal _ => w.roots

/-- A step; `none` where the label's does not come next. -/
def step (w : World T) : Label T → Option (World T)
  | .post t control =>
    match w.holder, w.posters t with
    | none, .idle =>
      let call : Call := ⟨control, w.applied.length, w.accepted.length⟩
      match control with
      | .cancel request =>
        -- Queued already, with no start since: this one is covered.
        if w.intents.contains request then some (w.record call request)
        else some ({ w with holder := some t }.setPoster t (.checked call))
      | _ => some ({ w with holder := some t }.setPoster t (.checked call))
    | _, _ => none
  | .push t =>
    match w.posters t with
    | .checked call =>
      match w.controls.tryPush call.control call.control.kind with
      | (.accepted, controls) =>
        some ({ w with controls, accepted := w.accepted ++ [call.control] }.setPoster t
          (.pushed call .accepted))
      | (result, controls) => some ({ w with controls }.setPoster t (.pushed call result))
    | _ => none
  | .finish t =>
    match w.posters t with
    | .pushed call result => some ({ w.settle call result with holder := none }.setPoster t .idle)
    | _ => none
  | .pop =>
    match w.owner with
    | .idle =>
      match w.controls.tryPop with
      | none => some w
      | some (control, controls) => some { w with controls, owner := .popped control }
    | _ => none
  | .erase =>
    match w.owner with
    | .popped (.cancel request) =>
      -- Before it is applied: one posted from now on queues again instead of joining it.
      if w.holder.isNone then
        some { w with
          intents := w.intents.filter (· ≠ request), owner := .erased (.cancel request) }
      else none
    | .popped control => some { w with owner := .erased control }
    | _ => none
  | .apply admitted =>
    match w.owner with
    | .erased control =>
      some { w with
        owner := .idle
        roots := w.applyControl admitted control
        applied := w.applied ++ [control] }
    | _ => none
  | .close => some { w with controls := w.controls.close }
  | .retire root => some { w with roots := w.roots.eraseIdx root }

def runs (w : World T) : List (Label T) → Option (World T)
  | [] => some w
  | label :: labels => (w.step label).bind fun w => w.runs labels

inductive Reachable : World T → Prop
  | init {capacity reserved : Nat} {controls : BoundedQueue Control} :
      BoundedQueue.create capacity reserved = some controls → Reachable { controls }
  | step {w w' : World T} (label : Label T) :
      Reachable w → w.step label = some w' → Reachable w'

end Steps

/-! ## The invariant -/

def pending (w : World T) : List Control :=
  match w.owner with
  | .popped control => control :: w.controls.items
  | _ => w.controls.items

def Covered (w : World T) (r : Nat) : Prop :=
  ∃ before after, w.pending = before ++ .cancel r :: after ∧ .start r ∉ after

/-- The accepted cancellation is served by the one at `k`: it is applied after the call began, was
    accepted before the call returned, and follows every start accepted before the call. -/
structure Post.Served (accepted : List Control) (p : Post) (k : Nat) : Prop where
  cancel : accepted[k]? = some (.cancel p.request)
  began : p.applied ≤ k
  returned : k < p.returned
  called : p.accepted ≤ p.returned
  past : p.returned ≤ accepted.length
  starts : ∀ j, j < p.accepted → accepted[j]? = some (.start p.request) → j < k

/-- A root is that of the start at its entry, and exactly the cancellations of its request applied
    since were applied to it. -/
structure Root.Exact (applied : List Control) (root : Root) : Prop where
  start : applied[root.entry]? = some (.start root.request)
  cancels : ∀ k, k ∈ root.cancelledBy ↔
    root.entry < k ∧ applied[k]? = some (.cancel root.request)

structure Kept (w : World T) : Prop where
  order : w.accepted = w.applied ++ w.owner.hand ++ w.controls.items
  lock : ∀ t, w.posters t ≠ .idle ↔ w.holder = some t
  begun : ∀ t call, (w.posters t = .checked call ∨ ∃ result, w.posters t = .pushed call result) →
    call.applied ≤ w.applied.length ∧ call.accepted ≤ w.accepted.length
  intents : ∀ r ∈ w.intents,
    (∀ t call, w.posters t = .pushed call .accepted → call.control ≠ .start r) → w.Covered r
  queued : ∀ t call r, w.posters t = .pushed call .accepted → call.control = .cancel r →
    w.Covered r
  posts : ∀ p ∈ w.posts, ∃ k, Post.Served w.accepted p k
  roots : ∀ root ∈ w.roots, Root.Exact w.applied root

/-! ## What is pending -/

theorem Covered.congr (h : w.Covered r) (hpen : w'.pending = w.pending) : w'.Covered r := by
  unfold Covered
  rw [hpen]
  exact h

theorem Covered.push (h : w.Covered r) {control : Control}
    (hpen : w'.pending = w.pending ++ [control]) (hne : control ≠ .start r) : w'.Covered r := by
  obtain ⟨before, after, heq, hnot⟩ := h
  refine ⟨before, after ++ [control], ?_, ?_⟩
  · rw [hpen, heq, append_assoc, cons_append]
  intro hmem
  rcases mem_append.mp hmem with hmem | hmem
  · exact hnot hmem
  · exact hne (mem_singleton.mp hmem).symm

theorem Covered.erase (h : w.Covered r) (control : Control)
    (hpen : w.pending = control :: w'.pending) (hne : control ≠ .cancel r) : w'.Covered r := by
  obtain ⟨before, after, heq, hnot⟩ := h
  rw [hpen] at heq
  cases before with
  | nil => exact absurd (List.cons.inj heq).1 hne
  | cons first before => exact ⟨before, after, (List.cons.inj heq).2, hnot⟩

theorem Kept.accepted_eq (h : w.Kept) : ∃ past, w.accepted = w.applied ++ past ++ w.pending := by
  have horder := h.order
  unfold pending
  cases howner : w.owner with
  | idle => exact ⟨[], by rw [horder, howner]; rfl⟩
  | popped => exact ⟨[], by rw [horder, howner]; simp [Owner.hand]⟩
  | erased control => exact ⟨[control], by rw [horder, howner]; rfl⟩

theorem Kept.ticket (h : w.Kept) (hcov : w.Covered r) :
    ∃ k, w.accepted[k]? = some (.cancel r) ∧ w.applied.length ≤ k ∧ k < w.accepted.length ∧
      ∀ j, w.accepted[j]? = some (.start r) → j < k := by
  obtain ⟨past, hacc⟩ := h.accepted_eq
  obtain ⟨before, after, heq, hnot⟩ := hcov
  have hsplit : w.accepted = (w.applied ++ past ++ before) ++ .cancel r :: after := by
    rw [hacc, heq]
    simp
  refine ⟨(w.applied ++ past ++ before).length, ?_, ?_, ?_, fun j hj => ?_⟩
  · rw [hsplit]
    simp
  · simp only [length_append]
    omega
  · simp [hsplit]
  by_contra hle
  rw [hsplit, getElem?_append_right (Nat.not_lt.mp hle)] at hj
  cases hd : j - (w.applied ++ past ++ before).length with
  | zero =>
    rw [hd] at hj
    cases hj
  | succ =>
    rw [hd, getElem?_cons_succ] at hj
    exact hnot (mem_of_getElem? hj)

/-! ## What is recorded -/

theorem Post.Served.append {accepted : List Control} {p : Post} {k : Nat}
    (h : Post.Served accepted p k) (more : List Control) : Post.Served (accepted ++ more) p k := by
  have hlt : k < accepted.length := (List.getElem?_eq_some_iff.mp h.cancel).1
  have hle : accepted.length ≤ (accepted ++ more).length := by
    rw [length_append]
    exact Nat.le_add_right _ _
  refine ⟨?_, h.began, h.returned, h.called, h.past.trans hle, fun j hj hstart => h.starts j hj ?_⟩
  · rw [getElem?_append_left hlt]
    exact h.cancel
  have hj' : j < accepted.length := Nat.lt_of_lt_of_le hj (h.called.trans h.past)
  rw [getElem?_append_left hj'] at hstart
  exact hstart

theorem Root.Exact.keep {applied : List Control} {root : Root} (h : Root.Exact applied root)
    {control : Control} (hne : control ≠ .cancel root.request) :
    Root.Exact (applied ++ [control]) root := by
  have hlt : root.entry < applied.length := (List.getElem?_eq_some_iff.mp h.start).1
  refine ⟨?_, fun k => ?_⟩
  · rw [getElem?_append_left hlt]
    exact h.start
  rw [h.cancels k]
  by_cases hk : k < applied.length
  · rw [getElem?_append_left hk]
  rw [getElem?_append_right (Nat.not_lt.mp hk), getElem?_eq_none (Nat.not_lt.mp hk),
    getElem?_singleton]
  have hne' : ¬ some control = some (Control.cancel root.request) := fun heq =>
    hne (some.inj heq)
  split <;> simp [hne']

theorem Root.Exact.cancel {applied : List Control} {root : Root} (h : Root.Exact applied root) :
    Root.Exact (applied ++ [.cancel root.request])
      { root with cancelledBy := applied.length :: root.cancelledBy } := by
  have hlt : root.entry < applied.length := (List.getElem?_eq_some_iff.mp h.start).1
  refine ⟨?_, fun k => ?_⟩
  · rw [getElem?_append_left hlt]
    exact h.start
  show k ∈ applied.length :: root.cancelledBy ↔ root.entry < k ∧ _
  rw [mem_cons, h.cancels k]
  rcases Nat.lt_trichotomy k applied.length with hk | rfl | hk
  · rw [getElem?_append_left hk]
    simp [Nat.ne_of_lt hk]
  · simp [hlt]
  have hnone : (applied ++ [Control.cancel root.request])[k]? = none :=
    getElem?_eq_none (by simp; omega)
  rw [hnone, getElem?_eq_none (Nat.le_of_lt hk)]
  simp [Nat.ne_of_gt hk]

/-! ## Every step -/

section Steps

variable {t : T} {call : Call}

theorem Kept.unlocked (h : w.Kept) (hfree : w.holder = none) (t : T) : w.posters t = .idle := by
  by_contra hne
  have hlock := (h.lock t).mp hne
  rw [hfree] at hlock
  cases hlock

theorem Kept.alone (h : w.Kept) (ht : w.posters t ≠ .idle) {t' : T} (hne : t' ≠ t) :
    w.posters t' = .idle := by
  by_contra hne'
  have hlock := (h.lock t).mp ht
  rw [(h.lock t').mp hne'] at hlock
  exact hne (some.inj hlock)

theorem Kept.serves (h : w.Kept) (hcov : w.Covered r)
    (hbegun : call.applied ≤ w.applied.length ∧ call.accepted ≤ w.accepted.length) :
    ∃ k, Post.Served w.accepted ⟨r, call.applied, call.accepted, w.accepted.length⟩ k := by
  obtain ⟨k, hk, happ, hlt, hstarts⟩ := h.ticket hcov
  exact ⟨k, hk, hbegun.1.trans happ, hlt, hbegun.2, Nat.le_refl _, fun j _ => hstarts j⟩

theorem Kept.recorded (h : w.Kept) {p : Post} (hp : ∃ k, Post.Served w.accepted p k) :
    { w with posts := w.posts ++ [p] }.Kept := by
  refine ⟨h.order, h.lock, h.begun, h.intents, h.queued, fun q hq => ?_, h.roots⟩
  rcases mem_append.mp hq with hq | hq
  · exact h.posts q hq
  · exact mem_singleton.mp hq ▸ hp

theorem Kept.owners (h : w.Kept) {controls : BoundedQueue Control} {intents : List Nat}
    {owner : Owner} {roots : List Root} {applied : List Control}
    (horder : w.accepted = applied ++ owner.hand ++ controls.items)
    (happ : w.applied.length ≤ applied.length) (hint : ∀ r ∈ intents, r ∈ w.intents)
    (hcov : ∀ r, w.Covered r → (r ∈ intents ∨ ∃ t, w.posters t ≠ .idle) →
      { w with controls, intents, owner, roots, applied }.Covered r)
    (hroots : ∀ root ∈ roots, Root.Exact applied root) :
    { w with controls, intents, owner, roots, applied }.Kept := by
  refine ⟨horder, h.lock, fun t call hcall => ?_, fun r hr hno => ?_, fun t call r hcall hc => ?_,
    h.posts, hroots⟩
  · have hbegun := h.begun t call hcall
    exact ⟨hbegun.1.trans happ, hbegun.2⟩
  · exact hcov r (h.intents r (hint r hr) hno) (.inl hr)
  refine hcov r (h.queued t call r hcall hc) (.inr ⟨t, ?_⟩)
  rw [hcall]
  simp

def progress (w : World T) : Nat :=
  3 * w.applied.length + match w.owner with
    | .idle => 0
    | .popped _ => 1
    | .erased _ => 2

theorem progress_le (w : World T) : w.progress ≤ 3 * w.applied.length + 2 := by
  unfold progress
  cases w.owner <;> simp

theorem le_progress (w : World T) : 3 * w.applied.length ≤ w.progress := Nat.le_add_right _ _

variable [DecidableEq T]

theorem setPoster_self (w : World T) (t : T) (p : Poster) : (w.setPoster t p).posters t = p := by
  simp [setPoster]

theorem setPoster_other (w : World T) {t t' : T} (p : Poster) (h : t' ≠ t) :
    (w.setPoster t p).posters t' = w.posters t' := by
  simp [setPoster, h]

theorem Kept.locked (h : w.Kept) (hfree : w.holder = none)
    (hbegun : call.applied ≤ w.applied.length ∧ call.accepted ≤ w.accepted.length) :
    ({ w with holder := some t }.setPoster t (.checked call)).Kept := by
  have hothers : ∀ t', t' ≠ t →
      ({ w with holder := some t }.setPoster t (.checked call)).posters t' = .idle := by
    intro t' hne
    rw [setPoster_other _ _ hne]
    exact h.unlocked hfree t'
  have hself := setPoster_self { w with holder := some t } t (.checked call)
  have hpus : ∀ t' call' result,
      ({ w with holder := some t }.setPoster t (.checked call)).posters t' ≠
        .pushed call' result := by
    intro t' call' result heq
    by_cases hne : t' = t
    · rw [hne, hself] at heq
      cases heq
    rw [hothers t' hne] at heq
    cases heq
  refine ⟨h.order, fun t' => ?_, fun t' call' hcall => ?_, fun r hr _ => ?_,
    fun t' call' r hcall => absurd hcall (hpus _ _ _), h.posts, h.roots⟩
  · by_cases hne : t' = t
    · rw [hne, hself]
      simp [setPoster]
    rw [hothers t' hne]
    simpa [setPoster] using Ne.symm hne
  · rcases hcall with hcall | ⟨result, hcall⟩
    · by_cases hne : t' = t
      · rw [hne, hself] at hcall
        cases hcall
        exact hbegun
      rw [hothers t' hne] at hcall
      cases hcall
    · exact absurd hcall (hpus _ _ _)
  refine h.intents r hr fun t' call' hcall => ?_
  rw [h.unlocked hfree t'] at hcall
  cases hcall

theorem Kept.post (h : w.Kept) {control : Control} (hstep : w.step (.post t control) = some w') :
    w'.Kept := by
  unfold step at hstep
  simp only at hstep
  split at hstep
  next hfree hidle =>
    split at hstep
    next request =>
      split at hstep
      next hmem =>
        cases hstep
        have hcov : w.Covered request := by
          refine h.intents request (by simpa using hmem) fun t' call' hcall => ?_
          rw [h.unlocked hfree t'] at hcall
          cases hcall
        exact h.recorded (h.serves hcov ⟨Nat.le_refl _, Nat.le_refl _⟩)
      cases hstep
      exact h.locked hfree ⟨Nat.le_refl _, Nat.le_refl _⟩
    cases hstep
    exact h.locked hfree ⟨Nat.le_refl _, Nat.le_refl _⟩
  · cases hstep

theorem Kept.held (h : w.Kept) (ht : w.posters t = .checked call)
    {result : PushResult} (hself : w'.posters t = .pushed call result)
    (hothers : ∀ t', t' ≠ t → w'.posters t' = w.posters t') (hhol : w'.holder = w.holder)
    (howner : w'.owner = w.owner) (hint : w'.intents = w.intents) (hroots : w'.roots = w.roots)
    (happ : w'.applied = w.applied) (hposts : w'.posts = w.posts) {more : List Control}
    (hmore : more = if result = .accepted then [call.control] else [])
    (hacc : w'.accepted = w.accepted ++ more)
    (hitems : w'.controls.items = w.controls.items ++ more) : w'.Kept := by
  have hpen : w'.pending = w.pending ++ more := by
    unfold pending
    rw [howner, hitems]
    split <;> simp
  have halone : ∀ t', t' ≠ t → w'.posters t' = .idle := fun t' hne =>
    (hothers t' hne).trans (h.alone (by rw [ht]; simp) hne)
  -- What is pushed covers a request or leaves it covered, unless it is a start of it.
  have hcov : ∀ r, w.Covered r → (result = .accepted → call.control ≠ .start r) → w'.Covered r := by
    intro r hr hne
    by_cases hres : result = .accepted
    · rw [hmore, if_pos hres] at hpen
      exact hr.push hpen (hne hres)
    rw [hmore, if_neg hres, append_nil] at hpen
    exact hr.congr hpen
  refine ⟨?_, fun t' => ?_, fun t' call' hcall => ?_, fun r hr hno => ?_, fun t' call' r hcall hc => ?_,
    fun p hp => ?_, ?_⟩
  · rw [hacc, h.order, happ, howner, hitems]
    simp
  · rw [hhol, ← h.lock t']
    by_cases hne : t' = t
    · rw [hne, hself, ht]
      simp
    · rw [hothers t' hne]
  · rw [happ, hacc, length_append]
    have hcall' : call' = call := by
      by_cases hne : t' = t
      · rw [hne, hself] at hcall
        rcases hcall with hcall | ⟨_, hcall⟩
        · cases hcall
        · exact (Poster.pushed.inj hcall).1.symm
      rw [halone t' hne] at hcall
      rcases hcall with hcall | ⟨_, hcall⟩ <;> cases hcall
    have hbegun := h.begun t call (.inl ht)
    rw [hcall']
    exact ⟨hbegun.1, hbegun.2.trans (Nat.le_add_right _ _)⟩
  · rw [hint] at hr
    refine hcov r (h.intents r hr fun t' call' hcall => ?_) fun hres => ?_
    · by_cases hne : t' = t
      · rw [hne, ht] at hcall
        cases hcall
      rw [h.alone (by rw [ht]; simp) hne] at hcall
      cases hcall
    · exact hno t call (hres ▸ hself)
  · by_cases hne : t' = t
    · rw [hne, hself] at hcall
      obtain ⟨rfl, rfl⟩ := Poster.pushed.inj hcall
      rw [hmore, if_pos rfl, hc] at hpen
      exact ⟨w.pending, [], hpen, by simp⟩
    rw [halone t' hne] at hcall
    cases hcall
  · rw [hposts] at hp
    obtain ⟨k, hk⟩ := h.posts p hp
    exact ⟨k, hacc ▸ hk.append more⟩
  rw [hroots, happ]
  exact h.roots

theorem Kept.push (h : w.Kept) (hstep : w.step (.push t) = some w') : w'.Kept := by
  unfold step at hstep
  simp only at hstep
  split at hstep
  next call ht =>
    split at hstep
    next controls heq =>
      cases hstep
      exact h.held ht (setPoster_self _ t _) (fun t' hne => setPoster_other _ _ hne) rfl rfl rfl rfl
        rfl rfl rfl rfl (BoundedQueue.tryPush_items heq)
    rename_i result controls hne heq
    cases hstep
    refine h.held ht (setPoster_self _ t _) (fun t' hne => setPoster_other _ _ hne) rfl rfl rfl rfl
      rfl rfl rfl ?_ (BoundedQueue.tryPush_items heq)
    rw [if_neg hne, append_nil]
    rfl
  · cases hstep

theorem Kept.released (h : w.Kept) (ht : w.posters t ≠ .idle) {intents : List Nat}
    {posts : List Post} (hint : ∀ r ∈ intents, w.Covered r)
    (hposts : ∀ p ∈ posts, ∃ k, Post.Served w.accepted p k) :
    ({ w with intents, posts, holder := none }.setPoster t .idle).Kept := by
  have hidle : ∀ t', ({ w with intents, posts, holder := none }.setPoster t .idle).posters t' =
      .idle := by
    intro t'
    by_cases hne : t' = t
    · rw [hne, setPoster_self]
    rw [setPoster_other _ _ hne]
    exact h.alone ht hne
  refine ⟨h.order, fun t' => ?_, fun t' call hcall => ?_, fun r hr _ => hint r hr,
    fun t' call r hcall => ?_, hposts, h.roots⟩
  · rw [hidle]
    simp [setPoster]
  · rw [hidle] at hcall
    rcases hcall with hcall | ⟨_, hcall⟩ <;> cases hcall
  rw [hidle] at hcall
  cases hcall

theorem Kept.finish (h : w.Kept) (hstep : w.step (.finish t) = some w') : w'.Kept := by
  unfold step at hstep
  simp only at hstep
  split at hstep
  next call result ht =>
    cases hstep
    have hne : w.posters t ≠ .idle := by
      rw [ht]
      simp
    -- The one that holds the lock is the only one that can have pushed a start.
    have hcov : ∀ r ∈ w.intents, (result = .accepted → call.control ≠ .start r) → w.Covered r := by
      intro r hr hno
      refine h.intents r hr fun t' call' hcall => ?_
      by_cases heq : t' = t
      · rw [heq, ht] at hcall
        obtain ⟨rfl, rfl⟩ := Poster.pushed.inj hcall
        exact hno rfl
      rw [h.alone hne heq] at hcall
      cases hcall
    unfold settle
    split
    · split
      next request hcon =>
        have hmine := h.queued t call request ht hcon
        refine h.released hne (fun r hr => ?_) fun p hp => ?_
        · rcases mem_append.mp hr with hr | hr
          · exact hcov r hr fun _ => by simp [hcon]
          · exact mem_singleton.mp hr ▸ hmine
        rcases mem_append.mp hp with hp | hp
        · exact h.posts p hp
        cases mem_singleton.mp hp
        exact h.serves hmine (h.begun t call (.inr ⟨_, ht⟩))
      next request hcon =>
        refine h.released hne (fun r hr => ?_) h.posts
        obtain ⟨hr, hrne⟩ := mem_filter.mp hr
        refine hcov r hr fun _ heq => ?_
        rw [hcon] at heq
        exact of_decide_eq_true hrne (Control.start.inj heq).symm
      rename_i request hcon
      exact h.released hne (fun r hr => hcov r hr fun _ => by simp [hcon]) h.posts
    next hres =>
      exact h.released hne (fun r hr => hcov r hr fun heq => absurd heq hres) h.posts
  · cases hstep

theorem Kept.pop (h : w.Kept) (hstep : w.step .pop = some w') : w'.Kept := by
  unfold step at hstep
  simp only at hstep
  split at hstep
  next howner =>
    unfold BoundedQueue.tryPop at hstep
    cases hitems : w.controls.items with
    | nil =>
      rw [hitems] at hstep
      cases hstep
      exact h
    | cons =>
      rw [hitems] at hstep
      cases hstep
      refine h.owners ?_ (Nat.le_refl _) (fun r hr => hr) (fun r hr _ => hr.congr ?_) h.roots
      · rw [h.order, howner, hitems]
        simp [Owner.hand]
      · simp [pending, howner, hitems]
  · cases hstep

theorem Kept.erase (h : w.Kept) (hstep : w.step .erase = some w') : w'.Kept := by
  unfold step at hstep
  simp only at hstep
  split at hstep
  next request howner =>
    split at hstep
    next hfree =>
      cases hstep
      refine h.owners ?_ (Nat.le_refl _) (fun r hr => (mem_filter.mp hr).1)
        (fun r hr hwhy => hr.erase (.cancel request) ?_ ?_) h.roots
      · rw [h.order, howner]
        rfl
      · simp [pending, howner]
      rcases hwhy with hmem | ⟨t, ht⟩
      · have hne := of_decide_eq_true (mem_filter.mp hmem).2
        exact fun heq => hne (Control.cancel.inj heq).symm
      · exact absurd (h.unlocked (isNone_iff_eq_none.mp hfree) t) ht
    · cases hstep
  next control hne howner =>
    cases hstep
    refine h.owners ?_ (Nat.le_refl _) (fun r hr => hr)
      (fun r hr _ => hr.erase control ?_ (hne r)) h.roots
    · rw [h.order, howner]
      rfl
    · simp [pending, howner]
  · cases hstep

theorem Kept.apply (h : w.Kept) {admitted : Bool} (hstep : w.step (.apply admitted) = some w') :
    w'.Kept := by
  unfold step at hstep
  simp only at hstep
  split at hstep
  next control howner =>
    cases hstep
    refine h.owners ?_ ?_ (fun r hr => hr) (fun r hr _ => hr.congr ?_) fun root hroot => ?_
    · rw [h.order, howner]
      simp [Owner.hand]
    · rw [length_append]
      exact Nat.le_add_right _ _
    · simp [pending, howner]
    unfold applyControl at hroot
    cases control with
    | start request =>
      have hold : ∀ root ∈ w.roots, Root.Exact (w.applied ++ [.start request]) root :=
        fun root hroot => (h.roots root hroot).keep (by simp)
      simp only at hroot
      split at hroot
      · rcases mem_append.mp hroot with hroot | hroot
        · exact hold root hroot
        cases mem_singleton.mp hroot
        refine ⟨by simp, fun k => iff_of_false (by simp) ?_⟩
        rintro ⟨hlt, hk⟩
        have hlt' : w.applied.length < k := hlt
        rw [getElem?_eq_none (by simpa [Nat.succ_le_iff] using hlt')] at hk
        cases hk
      · exact hold root hroot
    | cancel request =>
      obtain ⟨old, hold, rfl⟩ := mem_map.mp hroot
      split
      next heq =>
        subst heq
        exact (h.roots old hold).cancel
      rename_i hne
      exact (h.roots old hold).keep fun heq => hne (Control.cancel.inj heq).symm
    | signal => exact (h.roots root hroot).keep (by simp)
  · cases hstep

theorem Kept.step (h : w.Kept) (label : Label T) (hstep : w.step label = some w') : w'.Kept := by
  cases label with
  | post => exact h.post hstep
  | push => exact h.push hstep
  | finish => exact h.finish hstep
  | pop => exact h.pop hstep
  | erase => exact h.erase hstep
  | apply => exact h.apply hstep
  | close =>
    cases hstep
    exact ⟨h.order, h.lock, h.begun, h.intents, h.queued, h.posts, h.roots⟩
  | retire root =>
    cases hstep
    exact ⟨h.order, h.lock, h.begun, h.intents, h.queued, h.posts, fun root hroot =>
      h.roots root (mem_of_mem_eraseIdx hroot)⟩

theorem Reachable.kept (h : Reachable w) : w.Kept := by
  induction h with
  | init hcreate =>
    rename_i controls
    have hitems : controls.items = [] := by
      unfold BoundedQueue.create at hcreate
      split at hcreate
      · cases hcreate
        rfl
      · cases hcreate
    refine ⟨by simp [Owner.hand, hitems], ?_, ?_, ?_, ?_, ?_, ?_⟩ <;> simp
  | step label _ hstep ih => exact ih.step label hstep

/-! ## The owner goes on -/

theorem Kept.progress_step (h : w.Kept) {label : Label T} (hstep : w.step label = some w') :
    w.accepted.length ≤ w'.accepted.length ∧ w.progress ≤ w'.progress ∧
    (label.owners = true → w.applied.length = w.accepted.length ∨ w.progress < w'.progress) := by
  have hsame : w'.applied = w.applied → w'.owner = w.owner → w.progress ≤ w'.progress :=
    fun happ howner => by rw [progress, progress, happ, howner]
  cases label with
  | post =>
    unfold World.step at hstep
    simp only at hstep
    split at hstep
    · split at hstep
      · split at hstep <;> cases hstep <;> exact ⟨Nat.le_refl _, hsame rfl rfl, by simp [Label.owners]⟩
      cases hstep
      exact ⟨Nat.le_refl _, hsame rfl rfl, by simp [Label.owners]⟩
    · cases hstep
  | push =>
    unfold World.step at hstep
    simp only at hstep
    split at hstep
    · split at hstep
      · cases hstep
        exact ⟨by simp [setPoster], hsame rfl rfl, by simp [Label.owners]⟩
      cases hstep
      exact ⟨Nat.le_refl _, hsame rfl rfl, by simp [Label.owners]⟩
    · cases hstep
  | finish t =>
    unfold World.step at hstep
    simp only at hstep
    split at hstep
    next call result ht =>
      cases hstep
      have hset : (w.settle call result).applied = w.applied ∧
          (w.settle call result).owner = w.owner ∧
          (w.settle call result).accepted = w.accepted := by
        unfold settle
        split
        · split <;> exact ⟨rfl, rfl, rfl⟩
        · exact ⟨rfl, rfl, rfl⟩
      refine ⟨Nat.le_of_eq ?_, hsame hset.1 hset.2.1, by simp [Label.owners]⟩
      exact (congrArg List.length hset.2.2).symm
    · cases hstep
  | pop =>
    unfold World.step at hstep
    simp only at hstep
    split at hstep
    next howner =>
      unfold BoundedQueue.tryPop at hstep
      cases hitems : w.controls.items with
      | nil =>
        rw [hitems] at hstep
        cases hstep
        refine ⟨Nat.le_refl _, Nat.le_refl _, fun _ => .inl ?_⟩
        rw [h.order, howner, hitems]
        simp [Owner.hand]
      | cons control items =>
        rw [hitems] at hstep
        cases hstep
        have hlt : w.progress < progress { w with
            controls := { w.controls with items }, owner := .popped control } := by
          simp [progress, howner]
        exact ⟨Nat.le_refl _, Nat.le_of_lt hlt, fun _ => .inr hlt⟩
    · cases hstep
  | erase =>
    have hlt : w'.accepted = w.accepted ∧ w.progress < w'.progress := by
      unfold World.step at hstep
      simp only at hstep
      split at hstep
      next request howner =>
        split at hstep
        · cases hstep
          exact ⟨rfl, by simp [progress, howner]⟩
        · cases hstep
      next control hne howner =>
        cases hstep
        exact ⟨rfl, by simp [progress, howner]⟩
      · cases hstep
    exact ⟨Nat.le_of_eq (congrArg List.length hlt.1.symm), Nat.le_of_lt hlt.2, fun _ => .inr hlt.2⟩
  | apply admitted =>
    unfold World.step at hstep
    simp only at hstep
    split at hstep
    next control howner =>
      cases hstep
      have hlt : w.progress < progress { w with
          owner := .idle, roots := w.applyControl admitted control
          applied := w.applied ++ [control] } := by
        simp only [progress, howner, length_append, length_singleton]
        omega
      exact ⟨Nat.le_refl _, Nat.le_of_lt hlt, fun _ => .inr hlt⟩
    · cases hstep
  | close | retire =>
    cases hstep
    exact ⟨Nat.le_refl _, hsame rfl rfl, by simp [Label.owners]⟩

theorem Kept.applied (h : w.Kept) {k : Nat} (hk : k < w.accepted.length) {labels : List (Label T)}
    (hrun : w.runs labels = some w') :
    k < w'.applied.length ∨ w.progress + labels.countP Label.owners ≤ w'.progress := by
  induction labels generalizing w with
  | nil =>
    cases hrun
    exact .inr (Nat.le_refl _)
  | cons label labels ih =>
    obtain ⟨w1, hstep, hrest⟩ := bind_eq_some_iff.mp hrun
    obtain ⟨hacc, hle, howner⟩ := h.progress_step hstep
    rcases ih (h.step label hstep) (Nat.lt_of_lt_of_le hk hacc) hrest with hdone | hprog
    · exact .inl hdone
    rw [countP_cons]
    cases hlabel : label.owners with
    | false =>
      right
      simp only [Bool.false_eq_true, if_false, Nat.add_zero]
      exact (Nat.add_le_add_right hle _).trans hprog
    | true =>
      rcases howner hlabel with hall | hlt
      · left
        have hfar := le_progress w
        have hfar' := progress_le w'
        omega
      right
      simp only [if_true]
      omega

theorem Kept.unstuck (h : w.Kept) (hleft : w.applied.length < w.accepted.length) :
    (∃ label w', label.owners = true ∧ w.step label = some w') ∨
    ∃ t w', w.holder = some t ∧ (w.step (.push t) = some w' ∨ w.step (.finish t) = some w') := by
  cases howner : w.owner with
  | idle =>
    left
    refine ⟨.pop, ?_⟩
    cases hitems : w.controls.items with
    | nil =>
      rw [h.order, howner, hitems] at hleft
      simp [Owner.hand] at hleft
    | cons =>
      exact ⟨_, rfl, by simp [World.step, howner, BoundedQueue.tryPop, hitems]; rfl⟩
  | erased => exact .inl ⟨.apply true, _, rfl, by simp [World.step, howner]; rfl⟩
  | popped control =>
    rcases hhol : w.holder with _ | t
    · left
      cases control <;> exact ⟨.erase, _, rfl, by simp [World.step, howner, hhol]; rfl⟩
    right
    have hins := (h.lock t).mpr hhol
    cases ht : w.posters t with
    | idle => exact absurd ht hins
    | checked call =>
      cases hpush : w.controls.tryPush call.control call.control.kind with
      | mk result =>
        cases result <;> exact ⟨t, _, rfl, .inl (by simp [World.step, ht, hpush]; rfl)⟩
    | pushed => exact ⟨t, _, rfl, .inr (by simp [World.step, ht]; rfl)⟩

/-- **No cancellation is lost, and none reaches a later start.** Whatever the posters and the owner
    do, controls are applied in the order they were accepted. Each cancellation `Post` accepted is
    served by one at some place `k` among them: applied after the call began and after every start
    of the request accepted before the call. Once that is applied, it has reached every such start's
    root that still lives; it is applied in every run in which the owner takes three steps for each
    control up to it, and the owner can always go on or waits for a poster that can. It never
    reaches the root of a start accepted after the call returned, and a root is only reached by a
    cancellation of its request accepted after its start. -/
theorem no_cancellation_lost (h : Reachable w) : w.applied <+: w.accepted ∧
    (∀ p ∈ w.posts, ∃ k, Post.Served w.accepted p k ∧
      (k < w.applied.length → ∀ root ∈ w.roots, root.request = p.request →
        root.entry < p.accepted → k ∈ root.cancelledBy) ∧
      (∀ labels w', w.runs labels = some w' → 3 * (k + 1) ≤ labels.countP Label.owners →
        k < w'.applied.length) ∧
      ∀ root ∈ w.roots, p.returned ≤ root.entry → k ∉ root.cancelledBy) ∧
    (∀ root ∈ w.roots, w.accepted[root.entry]? = some (.start root.request) ∧
      ∀ k ∈ root.cancelledBy, root.entry < k ∧
        w.accepted[k]? = some (.cancel root.request)) ∧ (w.applied.length < w.accepted.length →
      (∃ label w', label.owners = true ∧ w.step label = some w') ∨
      ∃ t w', w.holder = some t ∧
        (w.step (.push t) = some w' ∨ w.step (.finish t) = some w')) := by
  have hkept := h.kept
  have hfront : w.applied <+: w.accepted := ⟨w.owner.hand ++ w.controls.items, by
    rw [hkept.order, append_assoc]⟩
  have hsame : ∀ {k : Nat}, k < w.applied.length → w.accepted[k]? = w.applied[k]? := fun hk => by
    rw [hkept.order, append_assoc, getElem?_append_left hk]
  have hget : ∀ {k : Nat} {control : Control}, w.applied[k]? = some control →
      w.accepted[k]? = some control := fun hk =>
    (hsame (List.getElem?_eq_some_iff.mp hk).1).trans hk
  refine ⟨hfront, fun p hp => ?_, fun root hroot => ?_, hkept.unstuck⟩
  · obtain ⟨k, hk⟩ := hkept.posts p hp
    have hlt : k < w.accepted.length := (List.getElem?_eq_some_iff.mp hk.cancel).1
    refine ⟨k, hk, fun happ root hroot hreq hentry => ?_, fun labels w' hrun hsteps => ?_,
      fun root hroot hentry hmem => ?_⟩
    · have hexact := hkept.roots root hroot
      have hstart := hget hexact.start
      rw [hreq] at hstart
      refine (hexact.cancels k).mpr ⟨hk.starts root.entry hentry hstart, ?_⟩
      rw [← hsame happ, hreq]
      exact hk.cancel
    · rcases hkept.applied hlt hrun with hdone | hprog
      · exact hdone
      have hfar := progress_le w'
      omega
    have hafter := ((hkept.roots root hroot).cancels k).mp hmem
    exact absurd (Nat.lt_of_lt_of_le hk.returned hentry) (Nat.lt_asymm hafter.1)
  have hexact := hkept.roots root hroot
  refine ⟨hget hexact.start, fun k hk => ?_⟩
  obtain ⟨hlt, hcan⟩ := (hexact.cancels k).mp hk
  exact ⟨hlt, hget hcan⟩

theorem Reachable.runs (h : Reachable w) {labels : List (Label T)} (hrun : w.runs labels = some w') :
    Reachable w' := by
  induction labels generalizing w with
  | nil =>
    cases hrun
    exact h
  | cons label labels ih =>
    obtain ⟨w1, hstep, hrest⟩ := bind_eq_some_iff.mp hrun
    exact ih (.step label h hstep) hrest

end Steps

/-- A request is started and cancelled; its cancellation is popped, and joined by another before
    its intent is erased; then the request is started again. -/
def joined : List (Label Bool) :=
  [.post true (.start 7), .push true, .finish true, .post true (.cancel 7), .push true, .finish true,
    .pop, .erase, .apply true, .pop, .post false (.cancel 7), .erase, .apply true,
    .post true (.start 7), .push true, .finish true, .pop, .erase, .apply true]

/-- Both cancellations were accepted and one is applied; it reaches the first start's root only. -/
theorem no_cancellation_lost_joined :
    ∃ w : World Bool, w.posts.length = 2 ∧ w.roots.map Root.cancelledBy = [[1], []] ∧
      ∀ p ∈ w.posts, ∃ k, Post.Served w.accepted p k ∧ k < w.applied.length := by
  obtain ⟨controls, hcreate⟩ :
      ∃ controls : BoundedQueue Control, BoundedQueue.create 4 1 = some controls := ⟨_, rfl⟩
  obtain ⟨w, hrun, hposts, hroots, happ⟩ :
      ∃ w : World Bool, World.runs { controls } joined = some w ∧ w.posts.length = 2 ∧
        w.roots.map Root.cancelledBy = [[1], []] ∧ w.applied = w.accepted := by
    cases hcreate
    exact ⟨_, rfl, rfl, rfl, rfl⟩
  refine ⟨w, hposts, hroots, fun p hp => ?_⟩
  obtain ⟨-, hser, -⟩ := no_cancellation_lost (Reachable.runs (.init hcreate) hrun)
  obtain ⟨k, hk, -⟩ := hser p hp
  refine ⟨k, hk, ?_⟩
  rw [happ]
  exact (List.getElem?_eq_some_iff.mp hk.cancel).1

end World
end JitLlm.Controls
