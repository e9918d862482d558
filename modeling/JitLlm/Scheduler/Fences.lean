import JitLlm.Scheduler.DeviceLane
import Mathlib.Data.List.Perm.Basic

/-!
# Every device command is answered, and proven only by a fence

The runs of the device service: commands submitted, the steps of its two lanes in any order and
with any answers of the provider. `Standing` says where an operation is that was taken from the
queue: refused, answered, or watched through one fence recorded after all of its work. It is
kept by every step, whichever of `unhanded`, the handoff and the watches the fence is in.
-/

namespace JitLlm.Scheduler.Device

open Base Controls Providers Lib List Option

variable {Fence : Type} {stream i : Nat} {fenced : Bool} {watch : Watch Fence}
    {issued : Issued Fence}

/-! ## What the history says of an operation -/

def Event.about : Event Fence → Option OperationId
  | .queued operation _ => some operation
  | .accepted operation _ => some operation
  | .completed operation _ => some operation
  | .recorded .. | .seen _ => none

/-- The acceptances published for `operation`. -/
def acceptances (log : List (Event Fence)) (operation : OperationId) : List Acceptance :=
  log.filterMap fun
    | .accepted op acceptance => if op = operation then some acceptance else none
    | _ => none

/-- The terminal results published for `operation`. -/
def terminals (log : List (Event Fence)) (operation : OperationId) : List Terminal :=
  log.filterMap fun
    | .completed op terminal => if op = operation then some terminal else none
    | _ => none

/-- `fence` was recorded on `stream` after all of the operation's work, which was on `stream`. -/
def Recorded (log : List (Event Fence)) (operation : OperationId) (fence : Fence)
    (stream : Nat) : Prop :=
  ∃ newer older, log = newer ++ .recorded fence stream :: older ∧
    (∀ s, .queued operation s ∉ newer) ∧ ∀ s, .queued operation s ∈ older → s = stream

/-- `terminal` was published when a fence recorded after all of the operation's work was seen
    complete. -/
def Proven (log : List (Event Fence)) (operation : OperationId) (terminal : Terminal) : Prop :=
  ∃ newest older fence stream, log = newest ++ .completed operation terminal ::
      .seen fence :: older ∧ (∀ s, .queued operation s ∉ newest) ∧
    Recorded older operation fence stream

/-- What the lanes know a fence by: the operation it is of, if any, and its stream. -/
abbrev Key (Fence : Type) := Option OperationId × Fence × Nat

def Watch.key (w : Watch Fence) : Key Fence := (w.operation, w.fence, w.stream)

/-- The fences of `operation` among `keys`. -/
def fencesOf (keys : List (Key Fence)) (operation : OperationId) : List (Fence × Nat) :=
  keys.filterMap fun k => if k.1 = some operation then some k.2 else none

inductive Standing (log : List (Event Fence)) (keys : List (Key Fence)) (operation : OperationId)
    (fenced : Bool) : Prop
  | refused (acceptance : acceptances log operation = [.notStarted])
      (terminal : terminals log operation = []) (fence : fencesOf keys operation = [])
  | answered {a : Acceptance} {t : Terminal} (started : a = .accepted ∨ a = .unknown)
      (acceptance : acceptances log operation = [a]) (terminal : terminals log operation = [t])
      (fence : fencesOf keys operation = [])
      (proven : fenced = true → t.noFurtherAccess = true → Proven log operation t)
  | watched {a : Acceptance} {fence : Fence} {stream : Nat} (started : a = .accepted ∨ a = .unknown)
      (acceptance : acceptances log operation = [a]) (terminal : terminals log operation = [])
      (fences : fencesOf keys operation = [(fence, stream)])
      (recorded : Recorded log operation fence stream)

structure Untaken (log : List (Event Fence)) (keys : List (Key Fence)) (operation : OperationId) :
    Prop where
  acceptance : acceptances log operation = []
  terminal : terminals log operation = []
  fence : fencesOf keys operation = []
  work : ∀ s, .queued operation s ∉ log

variable {log events : List (Event Fence)} {keys keys' : List (Key Fence)} {op : OperationId}

theorem acceptances_append (events log : List (Event Fence)) (op : OperationId) :
    acceptances (events ++ log) op = acceptances events op ++ acceptances log op :=
  filterMap_append

theorem terminals_append (events log : List (Event Fence)) (op : OperationId) :
    terminals (events ++ log) op = terminals events op ++ terminals log op :=
  filterMap_append

section

variable (h : ∀ e ∈ events, e.about ≠ some op)
include h

theorem acceptances_other : acceptances events op = [] := by
  refine filterMap_eq_nil_iff.mpr fun e he => ?_
  have := h e he
  cases e with
  | accepted =>
    dsimp only
    rw [if_neg fun heq => this (by rw [heq]; rfl)]
  | _ => rfl

theorem terminals_other : terminals events op = [] := by
  refine filterMap_eq_nil_iff.mpr fun e he => ?_
  have := h e he
  cases e with
  | completed =>
    dsimp only
    rw [if_neg fun heq => this (by rw [heq]; rfl)]
  | _ => rfl

theorem queued_other (s : Nat) : .queued op s ∉ events := fun he => h _ he rfl

end

theorem Recorded.append {fence : Fence} (h : Recorded log op fence stream)
    (heve : ∀ s, .queued op s ∉ events) : Recorded (events ++ log) op fence stream := by
  obtain ⟨newer, older, rfl, hnewer, holder⟩ := h
  refine ⟨events ++ newer, older, by rw [append_assoc], fun s hs => ?_, holder⟩
  rcases mem_append.mp hs with hs | hs
  · exact heve s hs
  · exact hnewer s hs

theorem Proven.append {t : Terminal} (h : Proven log op t) (heve : ∀ s, .queued op s ∉ events) :
    Proven (events ++ log) op t := by
  obtain ⟨newest, older, fence, stream, rfl, hnew, hrec⟩ := h
  refine ⟨events ++ newest, older, fence, stream, by rw [append_assoc], fun s hs => ?_, hrec⟩
  rcases mem_append.mp hs with hs | hs
  · exact heve s hs
  · exact hnew s hs

theorem Standing.other (h : Standing log keys op fenced)
    (heve : ∀ e ∈ events, e.about ≠ some op) (hkeys : fencesOf keys' op = fencesOf keys op) :
    Standing (events ++ log) keys' op fenced := by
  have ha : acceptances (events ++ log) op = acceptances log op := by
    rw [acceptances_append, acceptances_other heve, nil_append]
  have ht : terminals (events ++ log) op = terminals log op := by
    rw [terminals_append, terminals_other heve, nil_append]
  cases h with
  | refused acceptance terminal fence =>
    exact .refused (ha.trans acceptance) (ht.trans terminal) (hkeys.trans fence)
  | answered started acceptance terminal fence proven =>
    exact .answered started (ha.trans acceptance) (ht.trans terminal) (hkeys.trans fence)
      fun hf hp => (proven hf hp).append (queued_other heve)
  | watched started acceptance terminal fences recorded =>
    exact .watched started (ha.trans acceptance) (ht.trans terminal) (hkeys.trans fences)
      (recorded.append (queued_other heve))

theorem Untaken.other (h : Untaken log keys op) (heve : ∀ e ∈ events, e.about ≠ some op)
    (hkeys : fencesOf keys' op = fencesOf keys op) : Untaken (events ++ log) keys' op := by
  refine ⟨?_, ?_, hkeys.trans h.fence, fun s hs => ?_⟩
  · rw [acceptances_append, acceptances_other heve, h.acceptance]
    rfl
  · rw [terminals_append, terminals_other heve, h.terminal]
    rfl
  rcases mem_append.mp hs with hs | hs
  · exact queued_other heve s hs
  · exact h.work s hs

theorem fencesOf_perm (h : keys'.Perm keys) : (fencesOf keys' op).Perm (fencesOf keys op) :=
  h.filterMap _

theorem Standing.perm (h : Standing log keys op fenced) (hkeys : keys'.Perm keys) :
    Standing log keys' op fenced := by
  have hp : (fencesOf keys' op).Perm (fencesOf keys op) := fencesOf_perm hkeys
  cases h with
  | refused acceptance terminal fence =>
    rw [fence] at hp
    exact .refused acceptance terminal hp.eq_nil
  | answered started acceptance terminal fence proven =>
    rw [fence] at hp
    exact .answered started acceptance terminal hp.eq_nil proven
  | watched started acceptance terminal fences recorded =>
    rw [fences] at hp
    exact .watched started acceptance terminal (perm_singleton.mp hp) recorded

theorem Untaken.perm (h : Untaken log keys op) (hkeys : keys'.Perm keys) :
    Untaken log keys' op := by
  have hp : (fencesOf keys' op).Perm (fencesOf keys op) := fencesOf_perm hkeys
  rw [h.fence] at hp
  exact ⟨h.acceptance, h.terminal, hp.eq_nil, h.work⟩

/-! ## Launching a command -/

def DeviceService.pool (s : DeviceService Fence) : List (Key Fence) :=
  (s.unhanded.toList ++ s.handoff.items ++ s.watches).map Watch.key

structure SameLanes (s s' : DeviceService Fence) : Prop where
  queue : s'.queue = s.queue
  watches : s'.watches = s.watches
  releases : s'.releases = s.releases
  finished : s'.finished = s.finished
  closed : s'.handoff.closed = s.handoff.closed

theorem tryPush_open {α : Type} {q : BoundedQueue α} (value : α) (hopen : q.closed = false) :
    q.tryPush value .ordinary = (.full, q) ∨
      q.tryPush value .ordinary = (.accepted, { q with items := q.items ++ [value] }) := by
  unfold BoundedQueue.tryPush
  simp only [hopen, Bool.false_eq_true, if_false]
  split
  · exact .inl rfl
  · exact .inr rfl

variable {s : DeviceService Fence}

theorem hand_ok (watch : Watch Fence) (hnone : s.unhanded = none)
    (hopen : s.handoff.closed = false) :
    ∃ s', s.hand watch = .ok s' ∧ SameLanes s s' ∧ s'.log = s.log ∧
      s'.pool.Perm (watch.key :: s.pool) := by
  unfold DeviceService.hand
  rw [hnone]
  rcases tryPush_open watch hopen with hpush | hpush
  · rw [hpush]
    refine ⟨_, rfl, ⟨rfl, rfl, rfl, rfl, rfl⟩, rfl, ?_⟩
    simp only [DeviceService.pool, hnone, toList_some, toList_none]
    exact .refl _
  rw [hpush]
  refine ⟨_, rfl, ⟨rfl, rfl, rfl, rfl, rfl⟩, rfl, ?_⟩
  simp only [DeviceService.pool, hnone, toList_none, nil_append, map_append,
    append_assoc, map_cons, map_nil]
  exact perm_middle

/-- How a command was resolved: the events, and the fences handed over. -/
inductive Resolved (op : OperationId) (fenced : Bool) (events : List (Event Fence))
    (added : List (Key Fence)) : Prop
  | refused (acceptance : acceptances events op = [.notStarted])
      (terminal : terminals events op = []) (balance : ∀ k ∈ added, k.1 = none)
  | answered {a : Acceptance} {t : Terminal} (started : a = .accepted ∨ a = .unknown)
      (acceptance : acceptances events op = [a]) (terminal : terminals events op = [t])
      (none : added = []) (unproven : fenced = true → t.noFurtherAccess = false)
  | watched {a : Acceptance} {fence : Fence} {stream : Nat} (started : a = .accepted ∨ a = .unknown)
      (acceptance : acceptances events op = [a]) (terminal : terminals events op = [])
      (one : added = [(some op, fence, stream)]) (recorded : Recorded events op fence stream)

/-- What launching a command of `op` leads to. -/
structure Launches (s : DeviceService Fence) (op : OperationId) (fenced : Bool)
    (s' : DeviceService Fence) : Prop where
  same : SameLanes s s'
  resolved : ∃ events added, s'.log = events ++ s.log ∧ s'.pool.Perm (added ++ s.pool) ∧
    (∀ e ∈ events, e.about = none ∨ e.about = some op) ∧ (∀ k ∈ added, k.1 = none ∨ k.1 = some op) ∧
    Resolved op fenced events added

theorem Launches.noted {events : List (Event Fence)} {stash : HandoffStash}
    (habout : ∀ e ∈ events, e.about = none ∨ e.about = some op) (h : Resolved op fenced events []) :
    Launches s op fenced { s.note events with stash } :=
  ⟨⟨rfl, rfl, rfl, rfl, rfl⟩, events, [], rfl, .refl _, habout, by simp, h⟩

theorem Launches.handed {events : List (Event Fence)} (hnone : s.unhanded = none)
    (hopen : s.handoff.closed = false) (habout : ∀ e ∈ events, e.about = none ∨ e.about = some op)
    (hkey : watch.operation = none ∨ watch.operation = some op)
    (h : Resolved op fenced events [watch.key]) :
    ∃ s', (s.note events).hand watch = .ok s' ∧ Launches s op fenced s' := by
  have hnone' : (s.note events).unhanded = none := hnone
  have hopen' : (s.note events).handoff.closed = false := hopen
  obtain ⟨s', hs', hsame, hlog, hkeys⟩ := hand_ok watch hnone' hopen'
  refine ⟨s', hs', ⟨hsame.queue, hsame.watches, hsame.releases, hsame.finished, hsame.closed⟩,
    events, [watch.key], hlog, hkeys, habout, ?_, h⟩
  intro k hk
  cases mem_singleton.mp hk
  exact hkey

structure Issues (op : OperationId) (stream : Nat) (issued : Issued Fence) : Prop where
  events : ∀ e ∈ issued.events, e = .queued op stream
  nothing : issued.queued = false → issued.unknown = false → issued.events = []

theorem issueCopies_issues {answers : Nat → Except ProviderError Unit}
    (copies : List DeviceCopy) : ∀ (i : Nat) (issued : Issued Fence), Issues op stream issued →
      Issues op stream (issueCopies op stream answers i copies issued) := by
  induction copies with
  | nil => exact fun _ _ h => h
  | cons copy rest ih =>
    intro i issued h
    have heve : ∀ e ∈ .queued op stream :: issued.events, e = .queued op stream := by
      intro e he
      rcases mem_cons.mp he with rfl | he
      · rfl
      · exact h.events e he
    unfold issueCopies
    split
    · exact ih _ _ ⟨heve, nofun⟩
    split
    · exact ⟨heve, nofun⟩
    · exact ⟨h.events, h.nothing⟩

theorem issueJob_issues {a : LaunchAnswers Fence} : Issues op stream (issueJob op stream a) := by
  unfold issueJob
  cases a.result <;> exact ⟨by simp, by simp⟩

theorem Issues.acceptances (h : Issues op stream issued)
    (op' : OperationId) : acceptances issued.events op' = [] :=
  filterMap_eq_nil_iff.mpr fun e he => by rw [h.events e he]

theorem Issues.terminals (h : Issues op stream issued)
    (op' : OperationId) : terminals issued.events op' = [] :=
  filterMap_eq_nil_iff.mpr fun e he => by rw [h.events e he]

@[simp] theorem note_note (s : DeviceService Fence) (events later : List (Event Fence)) :
    (s.note events).note later = s.note (later ++ events) := by
  simp only [DeviceService.note, append_assoc]

theorem fence_launches {record : Except ProviderError Fence} (hnone : s.unhanded = none)
    (hopen : s.handoff.closed = false) (h : Issues op stream issued) :
    ∃ s', s.fence op stream record issued = .ok s' ∧ Launches s op true s' := by
  have habout : ∀ e ∈ issued.events, e.about = none ∨ e.about = some op := by
    intro e he
    rw [h.events e he]
    exact .inr rfl
  unfold DeviceService.fence
  dsimp only
  split
  next hnot =>
    rw [h.nothing hnot.1 hnot.2]
    cases record with
    | error =>
      simp only [note_note]
      refine ⟨_, rfl, .noted (by simp [Event.about]) (.refused ?_ ?_ (by simp))⟩
      · simp [acceptances]
      · simp [terminals]
    | ok =>
      simp only [note_note]
      refine Launches.handed hnone hopen (by simp [Event.about]) (.inl rfl)
        (.refused ?_ ?_ (by simp [Watch.key]))
      · simp [acceptances]
      · simp [terminals]
  have hstar : (if issued.unknown then Acceptance.unknown else .accepted) = .accepted ∨
      (if issued.unknown then Acceptance.unknown else .accepted) = .unknown := by
    split
    · exact .inr rfl
    · exact .inl rfl
  cases record with
  | error =>
    simp only [note_note]
    refine ⟨_, rfl, .noted ?_ (.answered (t := { outcome := .failed, bytes := issued.bytes })
      hstar ?_ ?_ rfl fun _ => rfl)⟩
    · intro e he
      simp only [cons_append, nil_append, mem_cons] at he
      rcases he with rfl | rfl | he
      · exact .inr rfl
      · exact .inr rfl
      · exact habout e he
    · rw [acceptances_append, acceptances_append, h.acceptances]
      simp [acceptances]
    rw [terminals_append, terminals_append, h.terminals]
    simp [terminals]
  | ok =>
    simp only [note_note]
    refine Launches.handed hnone hopen ?_ (.inr rfl)
      (.watched hstar ?_ ?_ rfl ⟨[.accepted op _], issued.events, rfl, ?_, ?_⟩)
    · intro e he
      simp only [cons_append, nil_append, mem_cons] at he
      rcases he with rfl | rfl | he
      · exact .inr rfl
      · exact .inl rfl
      · exact habout e he
    · rw [acceptances_append, acceptances_append, h.acceptances]
      simp [acceptances]
    · rw [terminals_append, terminals_append, h.terminals]
      simp [terminals]
    · simp
    intro s' hs'
    cases h.events _ hs'
    rfl

/-- What VMM work publishes: a refusal, or an acceptance and a result. -/
inductive Carried (op : OperationId) : List (Event Fence) → Prop
  | refused : Carried op (notStarted op)
  | answered {a : Acceptance} {t : Terminal} (started : a = .accepted ∨ a = .unknown) :
      Carried op [.completed op t, .accepted op a]

theorem failedCall_carried (error : ProviderError) (stash kept : HandoffStash) :
    Carried op ((failedCall op error stash kept).1 : List (Event Fence)) := by
  unfold failedCall
  split
  · exact .answered (.inr rfl)
  · exact .refused

theorem undone_carried (undone : Bool) : Carried op
      (if undone then notStarted op else unproven op .accepted : List (Event Fence)) := by
  split
  · exact .refused
  · exact .answered (.inl rfl)

theorem mapBacking_carried (work : BackingWork) (a : BackingAnswers) (backing : BackingId)
    (stash : HandoffStash) :
    Carried op ((mapBacking op work a backing stash).1 : List (Event Fence)) := by
  unfold mapBacking
  split
  · split
    · exact .answered (.inr rfl)
    · exact undone_carried _
  split
  · split
    · exact .answered (.inr rfl)
    split
    · exact .answered (.inl rfl)
    · exact undone_carried _
  · exact .answered (.inl rfl)

theorem carryOut_resolves (work : BackingWork) (a : BackingAnswers) (stash : HandoffStash) :
    Carried op ((carryOut op work a stash).1 : List (Event Fence)) := by
  unfold carryOut
  split
  · exact .refused
  split
  · unfold carryRelease
    split
    · exact .refused
    split
    · exact failedCall_carried ..
    · exact .answered (.inl rfl)
  · unfold carryMap
    split
    · split
      · exact .refused
      · exact mapBacking_carried ..
    split
    · exact failedCall_carried ..
    · exact mapBacking_carried ..
  unfold carryUnmap
  split
  · exact .refused
  split
  · split
    · exact .answered (.inl rfl)
    · exact failedCall_carried ..
  split
  · exact .answered (.inl rfl)
  split
  · refine .answered ?_
    split
    · exact .inr rfl
    · exact .inl rfl
  · exact .answered (.inl rfl)

theorem Carried.resolved {events : List (Event Fence)} (h : Carried op events) :
    (∀ e ∈ events, e.about = none ∨ e.about = some op) ∧ Resolved op false events [] := by
  cases h with
  | refused =>
    exact ⟨by simp [notStarted, Event.about], .refused (by simp [acceptances, notStarted])
      (by simp [terminals, notStarted]) (by simp)⟩
  | @answered a t started =>
    exact ⟨by simp [Event.about], .answered (t := t) started (by simp [acceptances])
      (by simp [terminals]) rfl nofun⟩

theorem launch_launches (x : DeviceSettings) (command : DeviceCommand)
    (a : LaunchAnswers Fence) (hnone : s.unhanded = none) (hopen : s.handoff.closed = false) :
    ∃ s', s.launch x command a = .ok s' ∧
      Launches s command.operation command.work.fenced s' := by
  obtain ⟨op, work⟩ := command
  have href : ∀ fenced, Launches s op fenced (s.note [.accepted op .notStarted]) := by
    intro fenced
    exact .noted (by simp [Event.about])
      (.refused (by simp [acceptances]) (by simp [terminals]) (by simp))
  unfold DeviceService.launch
  cases work with
  | copies =>
    simp only [DeviceService.copy]
    split
    · exact ⟨_, rfl, href _⟩
    exact fence_launches hnone hopen (issueCopies_issues _ _ _ ⟨by simp, fun _ _ => rfl⟩)
  | launch =>
    simp only [DeviceService.run]
    split
    · exact ⟨_, rfl, href _⟩
    · exact fence_launches hnone hopen issueJob_issues
  | backing work =>
    obtain ⟨habout, hres⟩ := (carryOut_resolves work a.backing s.stash).resolved
    exact ⟨_, rfl, .noted habout hres⟩

/-! ## Runs -/

/-- The service, with the commands that were taken from its queue. -/
structure World (Fence : Type) where
  service : DeviceService Fence
  taken : List DeviceCommand := []

inductive Label (Fence : Type)
  | submit (command : DeviceCommand) (kind : PushKind)
  | close
  | handPending
  | take (a : LaunchAnswers Fence)
  | endSubmission
  | takeFence
  | query (i : Nat) (state : Except ProviderError DeviceService.FenceState)
  | release (i : Nat) (answer : Except ProviderError Unit)

/-- The command that `takeOne` takes. -/
def DeviceService.next (s : DeviceService Fence) : List DeviceCommand :=
  if s.unhanded.isSome then [] else s.queue.items.take 1

def World.step (x : DeviceSettings) (w : World Fence) :
    Label Fence → Except DeviceFatal (World Fence)
  | .submit command kind => .ok { w with service := (w.service.submit command kind).2 }
  | .close => .ok { w with service := w.service.close }
  | .handPending => w.service.handPending.map fun r => { w with service := r.2 }
  | .take a => (w.service.takeOne x a).map fun s =>
    { service := s, taken := w.service.next ++ w.taken }
  | .endSubmission => .ok { w with service := w.service.endSubmission }
  | .takeFence => .ok { w with service := w.service.takeFence x }
  | .query i state => (w.service.query x i state).map fun s => { w with service := s }
  | .release i answer => (w.service.release x i answer).map fun s => { w with service := s }

/-- The service is the only publisher for its operations: a command submitted is of an operation
    that none before it is of. -/
def World.Fits (w : World Fence) : Label Fence → Prop
  | .submit command _ =>
    command.operation ∉ (w.taken ++ w.service.queue.items).map DeviceCommand.operation
  | _ => True

inductive Reachable (x : DeviceSettings) : World Fence → Prop
  | created {capacity reserved : Nat} {s : DeviceService Fence}
      (h : DeviceService.create x capacity reserved = some s) : Reachable x { service := s }
  | step {w w' : World Fence} {l : Label Fence} (h : Reachable x w) (fits : w.Fits l)
      (hstep : w.step x l = .ok w') : Reachable x w'

structure Sound (x : DeviceSettings) (w : World Fence) : Prop where
  standing : ∀ c ∈ w.taken, Standing w.service.log w.service.pool c.operation c.work.fenced
  untaken : ∀ op, op ∉ w.taken.map DeviceCommand.operation →
    Untaken w.service.log w.service.pool op
  fresh : ((w.taken ++ w.service.queue.items).map DeviceCommand.operation).Nodup
  bound : w.service.watches.length + w.service.releases.length ≤ x.handoff
  closed : w.service.handoff.closed = w.service.finished
  drained : w.service.finished = true →
    w.service.unhanded = none ∧ w.service.queue.closed = true ∧ w.service.queue.items = []

variable {x : DeviceSettings} {w : World Fence}

theorem Sound.moved (h : Sound x w) (hlog : s.log = w.service.log)
    (hpool : s.pool.Perm w.service.pool)
    (hfresh : ((w.taken ++ s.queue.items).map DeviceCommand.operation).Nodup)
    (hbound : s.watches.length + s.releases.length ≤ x.handoff)
    (hclosed : s.handoff.closed = s.finished) (hdrained : s.finished = true →
      s.unhanded = none ∧ s.queue.closed = true ∧ s.queue.items = []) :
    Sound x { w with service := s } := by
  refine ⟨fun c hc => ?_, fun op hop => ?_, hfresh, hbound, hclosed, hdrained⟩
  · simp only [hlog]
    exact (h.standing c hc).perm hpool
  simp only [hlog]
  exact (h.untaken op hop).perm hpool

theorem tryPush_closed {α : Type} (q : BoundedQueue α) (value : α) (kind : PushKind) :
    (q.tryPush value kind).2.closed = q.closed ∧
      (q.closed = true → q.tryPush value kind = (.closed, q)) := by
  refine ⟨?_, fun hclosed => ?_⟩
  · unfold BoundedQueue.tryPush
    split
    · rfl
    dsimp only
    split <;> split <;> rfl
  unfold BoundedQueue.tryPush
  rw [if_pos hclosed]

theorem Sound.submit (h : Sound x w) {command : DeviceCommand} {kind : PushKind}
    (fits : w.Fits (.submit command kind)) :
    Sound x { w with service := (w.service.submit command kind).2 } := by
  obtain ⟨hclosed, href⟩ := tryPush_closed w.service.queue command kind
  unfold DeviceService.submit
  rcases hpush : w.service.queue.tryPush command kind with ⟨result, queue⟩
  rw [hpush] at hclosed href
  have hitems := BoundedQueue.tryPush_items hpush
  refine h.moved rfl (.refl _) ?_ h.bound h.closed fun hf => ?_
  · simp only [hitems]
    by_cases hacc : result = .accepted
    · rw [if_pos hacc, ← append_assoc, map_append, nodup_append]
      refine ⟨h.fresh, by simp, fun a ha b hb heq => fits ?_⟩
      simp only [map_cons, map_nil, mem_singleton] at hb
      rw [← hb, ← heq]
      exact ha
    rw [if_neg hacc, append_nil]
    exact h.fresh
  obtain ⟨hnone, hc, hempty⟩ := h.drained hf
  refine ⟨hnone, hclosed.trans hc, ?_⟩
  cases href hc
  exact hempty

theorem handPending_moves (hopen : s.handoff.closed = s.finished)
    (hdrained : s.finished = true → s.unhanded = none) :
    ∃ b s', s.handPending = .ok (b, s') ∧ s'.log = s.log ∧ s'.pool.Perm s.pool ∧
      s'.queue = s.queue ∧ s'.watches = s.watches ∧ s'.releases = s.releases ∧
      s'.finished = s.finished ∧ s'.handoff.closed = s.handoff.closed ∧
      (s.unhanded = none → s'.unhanded = none) := by
  unfold DeviceService.handPending
  rcases hu : s.unhanded with _ | watch
  · exact ⟨_, _, rfl, rfl, .refl _, rfl, rfl, rfl, rfl, rfl, fun _ => hu⟩
  have hfalse : s.handoff.closed = false := by
    rw [hopen, Bool.eq_false_iff]
    intro hf
    rw [hdrained hf] at hu
    cases hu
  rcases tryPush_open watch hfalse with hpush | hpush
  · simp only [hpush]
    exact ⟨_, _, rfl, rfl, .refl _, rfl, rfl, rfl, rfl, rfl, nofun⟩
  simp only [hpush]
  refine ⟨_, _, rfl, rfl, ?_, rfl, rfl, rfl, rfl, rfl, (fun _ => rfl)⟩
  simp only [DeviceService.pool, hu, toList_none, toList_some, nil_append,
    map_append, map_cons, map_nil, append_assoc]
  exact perm_middle

theorem Sound.handPending (h : Sound x w) : ∃ b s', w.service.handPending = .ok (b, s') ∧
    Sound x { w with service := s' } := by
  obtain ⟨b, s', hs', hlog, hpool, hqueue, hwat, hrel, hfin, hclosed, hnone⟩ :=
    handPending_moves h.closed fun hf => (h.drained hf).1
  refine ⟨b, s', hs', h.moved hlog hpool ?_ ?_ ?_ fun hf => ?_⟩
  · rw [hqueue]
    exact h.fresh
  · rw [hwat, hrel]
    exact h.bound
  · rw [hclosed, hfin]
    exact h.closed
  rw [hfin] at hf
  obtain ⟨hu, hq⟩ := h.drained hf
  exact ⟨hnone hu, by rw [hqueue]; exact hq⟩

theorem Sound.endSubmission (h : Sound x w) :
    Sound x { w with service := w.service.endSubmission } := by
  unfold DeviceService.endSubmission
  split
  next hdone =>
    unfold DeviceService.finish
    split
    · exact h
    refine h.moved rfl (.refl _) h.fresh h.bound rfl fun _ => ?_
    obtain ⟨hnone, hdrained⟩ := hdone
    unfold DeviceService.drained at hdrained
    rw [Bool.and_eq_true] at hdrained
    exact ⟨isNone_iff_eq_none.mp hnone, hdrained.1, isEmpty_iff.mp hdrained.2⟩
  · exact h

theorem Sound.takeFence (h : Sound x w) : Sound x { w with service := w.service.takeFence x } := by
  unfold DeviceService.takeFence
  split
  next hroom =>
    unfold BoundedQueue.tryPop
    split
    · exact h
    rename_i hpop
    split at hpop
    · cases hpop
    rename_i hitems
    cases hpop
    refine h.moved rfl ?_ h.fresh ?_ h.closed h.drained
    · simp only [DeviceService.pool, hitems, map_append, map_cons, map_nil, append_assoc]
      refine List.Perm.append_left _ ?_
      rw [← append_assoc]
      exact (perm_append_singleton _ _).trans (.refl _)
    simp only [length_append, length_singleton]
    omega
  · exact h

theorem fencesOf_append (added keys : List (Key Fence)) (op : OperationId) :
    fencesOf (added ++ keys) op = fencesOf added op ++ fencesOf keys op := filterMap_append

variable {added : List (Key Fence)}

theorem fencesOf_other (h : ∀ k ∈ added, k.1 ≠ some op) : fencesOf added op = [] :=
  filterMap_eq_nil_iff.mpr fun k hk => if_neg (h k hk)

theorem Untaken.resolved (h : Untaken log keys op) (hres : Resolved op fenced events added) :
    Standing (events ++ log) (added ++ keys) op fenced := by
  have ha : acceptances (events ++ log) op = acceptances events op := by
    rw [acceptances_append, h.acceptance, append_nil]
  have ht : terminals (events ++ log) op = terminals events op := by
    rw [terminals_append, h.terminal, append_nil]
  have hf : fencesOf (added ++ keys) op = fencesOf added op := by
    rw [fencesOf_append, h.fence, append_nil]
  cases hres with
  | refused acceptance terminal balance =>
    refine .refused (ha.trans acceptance) (ht.trans terminal) (hf.trans (fencesOf_other ?_))
    intro k hk
    rw [balance k hk]
    simp
  | answered started acceptance terminal none unproven =>
    subst none
    refine .answered started (ha.trans acceptance) (ht.trans terminal) (hf.trans rfl)
      fun hfen hproof => ?_
    rw [unproven hfen] at hproof
    cases hproof
  | @watched a fence stream started acceptance terminal one recorded =>
    subst one
    have hrec : Recorded (events ++ log) op fence stream := by
      obtain ⟨newer, older, rfl, hnewer, holder⟩ := recorded
      refine ⟨newer, older ++ log, by simp, hnewer, fun s hs => ?_⟩
      rcases mem_append.mp hs with hs | hs
      · exact holder s hs
      · exact absurd hs (h.work s)
    exact .watched started (ha.trans acceptance) (ht.trans terminal)
      (hf.trans (by simp [fencesOf])) hrec

theorem Sound.take (h : Sound x w) (a : LaunchAnswers Fence) : ∃ s, w.service.takeOne x a = .ok s ∧
    Sound x { service := s, taken := w.service.next ++ w.taken } := by
  unfold DeviceService.takeOne DeviceService.next
  cases hu : w.service.unhanded with
  | some => exact ⟨_, rfl, h⟩
  | none =>
    simp only [isSome_none, Bool.false_eq_true, if_false, BoundedQueue.tryPop]
    rcases hitems : w.service.queue.items with _ | ⟨command, rest⟩
    · refine ⟨_, rfl, ?_⟩
      exact h
    -- There is a command, so the lane has not finished and the handoff takes fences.
    have hopen : w.service.handoff.closed = false := by
      rw [h.closed, Bool.eq_false_iff]
      intro hf
      rw [(h.drained hf).2.2] at hitems
      cases hitems
    obtain ⟨s', hs', hsame, events, added, hlog, hpool, habout, hadded, hres⟩ :=
      launch_launches
        (s := { w.service with queue := { w.service.queue with items := rest }, unhanded := none })
        x command a rfl hopen
    have hbef : DeviceService.pool { w.service with
        queue := { w.service.queue with items := rest }, unhanded := none } = w.service.pool := by
      simp only [DeviceService.pool, hu]
    rw [hbef] at hpool
    refine ⟨s', hs', ?_⟩
    have hfresh := h.fresh
    rw [hitems, map_append, map_cons] at hfresh
    have hnew : command.operation ∉ w.taken.map DeviceCommand.operation := by
      intro hmem
      exact (nodup_append.mp hfresh).2.2 _ hmem _ mem_cons_self rfl
    have hkeep : ∀ op, op ≠ command.operation → (∀ e ∈ events, e.about ≠ some op) ∧
        fencesOf (added ++ w.service.pool) op = fencesOf w.service.pool op := by
      intro op hop
      refine ⟨fun e he heq => ?_, ?_⟩
      · rcases habout e he with hnone | hsome
        · cases hnone.symm.trans heq
        · exact hop (some.inj (heq.symm.trans hsome))
      rw [fencesOf_append, fencesOf_other, nil_append]
      intro k hk heq
      rcases hadded k hk with hnone | hsome
      · cases hnone.symm.trans heq
      · exact hop (some.inj (heq.symm.trans hsome))
    simp only [take_succ_cons, take_zero, singleton_append]
    refine ⟨fun c hc => ?_, fun op hop => ?_, ?_, ?_, ?_, ?_⟩
    · simp only [hlog]
      refine Standing.perm ?_ hpool
      rcases mem_cons.mp hc with rfl | hc
      · exact (h.untaken _ hnew).resolved hres
      have hne : c.operation ≠ command.operation := fun heq =>
        hnew (heq ▸ mem_map_of_mem hc)
      obtain ⟨heve, hkeys⟩ := hkeep _ hne
      exact (h.standing c hc).other heve hkeys
    · simp only [hlog]
      refine Untaken.perm ?_ hpool
      simp only [map_cons, mem_cons, not_or] at hop
      obtain ⟨heve, hkeys⟩ := hkeep _ hop.1
      exact (h.untaken op hop.2).other heve hkeys
    · rw [hsame.queue]
      simp only [cons_append, map_cons, map_append]
      exact List.perm_middle.nodup_iff.mp hfresh
    · rw [hsame.watches, hsame.releases]
      exact h.bound
    · rw [hsame.closed, hsame.finished]
      exact h.closed
    intro hf
    rw [hsame.finished] at hf
    rw [(h.drained hf).2.2] at hitems
    cases hitems

/-! ## The completion lane -/

def resultOf (operation : Option OperationId) (t : Terminal) : List (Event Fence) :=
  match operation with
  | some op => [.completed op t]
  | none => []

theorem Sound.settled {k : Key Fence} {seen : List (Event Fence)} {t : Terminal} (h : Sound x w)
    (hlog : s.log = resultOf k.1 t ++ seen ++ w.service.log)
    (hseen : seen = [] ∧ t.noFurtherAccess = false ∨ seen = [.seen k.2.1])
    (hpool : w.service.pool.Perm (k :: s.pool)) (hqueue : s.queue = w.service.queue)
    (hbound : s.watches.length + s.releases.length ≤ x.handoff)
    (hclosed : s.handoff.closed = w.service.handoff.closed) (hfin : s.finished = w.service.finished)
    (hunh : s.unhanded = w.service.unhanded) : Sound x { w with service := s } := by
  obtain ⟨operation, fence, stream⟩ := k
  have hnone : ∀ e ∈ seen, e.about = none := by
    rcases hseen with ⟨rfl, -⟩ | rfl
    · simp
    · simp [Event.about]
  -- For every other operation nothing changes.
  have hother : ∀ op, operation ≠ some op →
      (∀ e ∈ resultOf operation t ++ seen, e.about ≠ some op) ∧
        fencesOf s.pool op = fencesOf ((operation, fence, stream) :: s.pool) op := by
    intro op hop
    refine ⟨fun e he heq => ?_, ?_⟩
    · rcases mem_append.mp he with he | he
      · cases operation with
        | none => exact not_mem_nil he
        | some =>
          cases mem_singleton.mp he
          exact hop heq
      · cases (hnone e he).symm.trans heq
    · simp only [fencesOf, filterMap_cons, if_neg hop]
  refine ⟨fun c hc => ?_, fun op hop => ?_, ?_, hbound, ?_, fun hf => ?_⟩
  · have hstan := (h.standing c hc).perm hpool.symm
    by_cases hop : operation = some c.operation
    · subst hop
      -- A fence of the operation: it was watched, and this is its fence.
      have hcons : fencesOf ((some c.operation, fence, stream) :: s.pool) c.operation =
          (fence, stream) :: fencesOf s.pool c.operation := by
        simp [fencesOf]
      cases hstan with
      | refused _ _ hfence | answered _ _ _ hfence => cases hcons.symm.trans hfence
      | watched started acceptance terminal fences recorded =>
        obtain ⟨hsame, hrest⟩ := List.cons.inj (hcons.symm.trans fences)
        cases hsame
        simp only [hlog]
        refine .answered (t := t) started ?_ ?_ hrest fun _ hproof => ?_
        · rw [acceptances_append, acceptances_append, acceptance]
          rcases hseen with ⟨rfl, -⟩ | rfl <;> simp [acceptances, resultOf]
        · rw [terminals_append, terminals_append, terminal]
          rcases hseen with ⟨rfl, -⟩ | rfl <;> simp [terminals, resultOf]
        rcases hseen with ⟨-, hfalse⟩ | rfl
        · cases hfalse.symm.trans hproof
        · exact ⟨[], w.service.log, fence, stream, rfl, by simp, recorded⟩
    obtain ⟨heve, hkeys⟩ := hother _ hop
    simp only [hlog]
    exact hstan.other heve hkeys
  · have hunt := (h.untaken op hop).perm hpool.symm
    by_cases hmem : operation = some op
    · subst hmem
      have := hunt.fence
      simp [fencesOf] at this
    obtain ⟨heve, hkeys⟩ := hother _ hmem
    simp only [hlog]
    exact hunt.other heve hkeys
  · rw [hqueue]
    exact h.fresh
  · rw [hclosed, hfin]
    exact h.closed
  rw [hfin] at hf
  rw [hunh, hqueue]
  exact h.drained hf

theorem pool_erased
    (h : s.watches[i]? = some watch) {s' : DeviceService Fence} (hunh : s'.unhanded = s.unhanded)
    (hhan : s'.handoff = s.handoff) (hwat : s'.watches = s.watches.eraseIdx i) :
    s.pool.Perm (watch.key :: s'.pool) := by
  obtain ⟨hi, hget⟩ := List.getElem?_eq_some_iff.mp h
  have herase : s.watches.Perm (watch :: s.watches.eraseIdx i) := by
    rw [← hget]
    exact (getElem_cons_eraseIdx_perm hi).symm
  simp only [DeviceService.pool, hunh, hhan, hwat]
  refine (List.Perm.map _ (herase.append_left _)).trans ?_
  exact List.Perm.map _ perm_middle

theorem Sound.query (h : Sound x w) {state : Except ProviderError DeviceService.FenceState}
    (hs : w.service.query x i state = .ok s) : Sound x { w with service := s } := by
  unfold DeviceService.query at hs
  split at hs
  · cases hs
    exact h
  rename_i watch hwatch
  obtain ⟨hi, hget⟩ := List.getElem?_eq_some_iff.mp hwatch
  have hbound := h.bound
  have hshort : (w.service.watches.eraseIdx i).length + 1 = w.service.watches.length := by
    rw [length_eraseIdx_of_lt hi]
    omega
  split at hs
  · cases hs
  next watch' hask =>
    cases hs
    have hkey : watch'.key = watch.key := by
      unfold DeviceService.ask at hask
      split at hask
      · cases hask
        rfl
      · cases hask
      split at hask
      · cases hask
      split at hask
      · split at hask
        · cases hask
        cases hask
        rfl
      · cases hask
    refine h.moved rfl ?_ h.fresh ?_ h.closed h.drained
    · have hmap : (w.service.watches.set i watch').map Watch.key =
          w.service.watches.map Watch.key := by
        have hat : (w.service.watches.map Watch.key)[i]? = some watch.key := by
          rw [getElem?_map, hwatch]
          rfl
        obtain ⟨hi', hget'⟩ := List.getElem?_eq_some_iff.mp hat
        rw [map_set, hkey, ← hget', set_getElem_self]
      simp only [DeviceService.pool, map_append, hmap]
      exact .refl _
    simp only [length_set]
    exact hbound
  · cases hs
    refine h.settled (k := watch.key)
      (t := { outcome := watch.outcome, bytes := watch.bytes, noFurtherAccess := true }) rfl
      (.inr rfl) (pool_erased hwatch rfl rfl rfl) rfl ?_ rfl rfl rfl
    simp only [length_append, length_singleton]
    omega
  cases hs
  refine h.settled (k := watch.key) (t := { outcome := .failed, bytes := watch.bytes }) ?_
    (.inl ⟨rfl, rfl⟩) (pool_erased hwatch rfl rfl rfl) rfl ?_ rfl rfl rfl
  · rw [append_nil]
    rfl
  change (w.service.watches.eraseIdx i).length + w.service.releases.length ≤ x.handoff
  omega

theorem Sound.release (h : Sound x w) {answer : Except ProviderError Unit}
    (hs : w.service.release x i answer = .ok s) : Sound x { w with service := s } := by
  have hbound := h.bound
  have hshort : (w.service.releases.eraseIdx i).length ≤ w.service.releases.length :=
    (eraseIdx_sublist ..).length_le
  have hera : Sound x { w with
      service := { w.service with releases := w.service.releases.eraseIdx i } } := by
    refine h.moved rfl (.refl _) h.fresh ?_ h.closed h.drained
    simp only
    omega
  unfold DeviceService.release at hs
  split at hs
  · cases hs
    exact h
  split at hs
  · cases hs
    exact hera
  split at hs
  · cases hs
    refine h.moved rfl (.refl _) h.fresh ?_ h.closed h.drained
    simp only [length_set]
    exact hbound
  split at hs
  · cases hs
    exact hera
  · cases hs

theorem Sound.step (h : Sound x w) {l : Label Fence} (fits : w.Fits l) : match w.step x l with
    | .ok w' => Sound x w'
    | .error fatal => fatal ≠ .launchWhileWaiting ∧ fatal ≠ .handedAfterFinish := by
  cases l with
  | submit => exact h.submit fits
  | close =>
    exact h.moved rfl (.refl _) h.fresh h.bound h.closed fun hf =>
      ⟨(h.drained hf).1, rfl, (h.drained hf).2.2⟩
  | handPending =>
    obtain ⟨b, s', hs', hsound⟩ := h.handPending
    simp only [World.step, hs']
    exact hsound
  | take a =>
    obtain ⟨s', hs', hsound⟩ := h.take a
    simp only [World.step, hs']
    exact hsound
  | endSubmission => exact h.endSubmission
  | takeFence => exact h.takeFence
  | query i state =>
    cases hs : w.service.query x i state with
    | ok =>
      simp only [World.step, hs]
      exact h.query hs
    | error fatal =>
      simp only [World.step, hs]
      unfold DeviceService.query at hs
      split at hs
      · cases hs
      split at hs
      next hask =>
        cases hs
        unfold DeviceService.ask at hask
        split at hask
        · cases hask
        · cases hask
        split at hask
        · cases hask
        split at hask
        · split at hask <;> cases hask
        cases hask
        exact ⟨by simp, by simp⟩
      · cases hs
      · cases hs
      · cases hs
  | release i answer =>
    cases hs : w.service.release x i answer with
    | ok =>
      simp only [World.step, hs]
      exact h.release hs
    | error =>
      simp only [World.step, hs]
      unfold DeviceService.release at hs
      split at hs
      · cases hs
      split at hs
      · cases hs
      split at hs
      · cases hs
      split at hs
      · cases hs
      cases hs
      exact ⟨by simp, by simp⟩

theorem create_sound {capacity reserved : Nat}
    (h : DeviceService.create x capacity reserved = some s) : Sound x { service := s } := by
  unfold DeviceService.create at h
  split at h
  · simp only [BoundedQueue.create, bind_eq_bind] at h
    split at h
    · split at h
      · cases h
        exact ⟨fun c hc => (not_mem_nil hc).elim, fun op _ => ⟨rfl, rfl, rfl, by simp⟩,
          by simp, Nat.zero_le _, rfl, nofun⟩
      · cases h
    · cases h
  · cases h

theorem Reachable.sound (h : Reachable x w) : Sound x w := by
  induction h with
  | created h => exact create_sound h
  | step _ fits hstep ih =>
    have := ih.step fits
    rw [hstep] at this
    exact this

/-- In every run of the service: each command taken from the queue has exactly one acceptance;
    one that was refused has no result and no fence, and one that was accepted, or whose start
    is unknown, has exactly one result, or its fence, recorded after all of its work, is in
    exactly one place between the lanes. A result that proves a copy or a launch was published
    when such a fence was seen complete. The completion lane holds at most `handoff` fences, and
    no step fires a check of `Hand` or `HandPending`. -/
theorem reachable_fenced (h : Reachable x w) :
    (∀ c ∈ w.taken, ∃ a, acceptances w.service.log c.operation = [a] ∧
      (a = .notStarted ∧ terminals w.service.log c.operation = [] ∧
          fencesOf w.service.pool c.operation = [] ∨
        (a = .accepted ∨ a = .unknown) ∧
          ((∃ t, terminals w.service.log c.operation = [t]) ∧
              fencesOf w.service.pool c.operation = [] ∨
            terminals w.service.log c.operation = [] ∧ ∃ fence stream,
              fencesOf w.service.pool c.operation = [(fence, stream)] ∧
                Recorded w.service.log c.operation fence stream))) ∧
    (∀ c ∈ w.taken, c.work.fenced = true → ∀ t ∈ terminals w.service.log c.operation,
      t.noFurtherAccess = true → Proven w.service.log c.operation t) ∧
    w.service.watches.length + w.service.releases.length ≤ x.handoff ∧
    ∀ l, w.Fits l → w.step x l ≠ .error .launchWhileWaiting ∧
      w.step x l ≠ .error .handedAfterFinish := by
  have hsound := h.sound
  refine ⟨fun c hc => ?_, fun c hc hfen t ht hproof => ?_, hsound.bound, fun l fits => ?_⟩
  · cases hsound.standing c hc with
    | refused acceptance terminal fence =>
      exact ⟨_, acceptance, .inl ⟨rfl, terminal, fence⟩⟩
    | answered started acceptance terminal fence =>
      exact ⟨_, acceptance, .inr ⟨started, .inl ⟨⟨_, terminal⟩, fence⟩⟩⟩
    | watched started acceptance terminal fences recorded =>
      exact ⟨_, acceptance, .inr ⟨started, .inr ⟨terminal, _, _, fences, recorded⟩⟩⟩
  · cases hsound.standing c hc with
    | refused _ terminal =>
      rw [terminal] at ht
      exact (not_mem_nil ht).elim
    | answered _ _ terminal _ proven =>
      rw [terminal] at ht
      cases mem_singleton.mp ht
      exact proven hfen hproof
    | watched _ _ terminal =>
      rw [terminal] at ht
      exact (not_mem_nil ht).elim
  have hstep := hsound.step fits
  refine ⟨fun heq => ?_, fun heq => ?_⟩
  · rw [heq] at hstep
    exact hstep.1 rfl
  rw [heq] at hstep
  exact hstep.2 rfl

/-! ## Whole turns -/

def DeviceFatal.refused (f : DeviceFatal) : Prop := f = .refusedFence ∨ f = .refusedRelease

theorem Reachable.goes (h : Reachable x w) {l : Label Fence} (fits : w.Fits l) :
    Sat DeviceFatal.refused (Reachable x) (w.step x l) := by
  have hstep := h.sound.step fits
  cases hs : w.step x l with
  | ok => exact .step h fits hs
  | error f =>
    rw [hs] at hstep
    cases f <;> simp_all [DeviceFatal.refused]

theorem Reachable.takeAll (h : Reachable x w) (answers : List (LaunchAnswers Fence)) :
    ∃ s taken, w.service.takeAll x answers = .ok s ∧ taken.length ≤ answers.length ∧
      Reachable x ⟨s, taken ++ w.taken⟩ := by
  induction answers generalizing w with
  | nil => exact ⟨_, [], rfl, Nat.le_refl _, h⟩
  | cons a rest ih =>
    obtain ⟨s, hs, -⟩ := h.sound.take a
    obtain ⟨s', taken, hs', hlen, h'⟩ := ih (.step (l := .take a) h trivial
      (by simp only [World.step, hs]; rfl))
    have hone : w.service.next.length ≤ 1 := by
      unfold DeviceService.next
      split <;> simp
    refine ⟨s', taken ++ w.service.next, ?_, ?_, by rwa [append_assoc]⟩
    · simp only [DeviceService.takeAll, hs, ok_bind]
      exact hs'
    · simp only [length_append, length_cons]
      omega

theorem Reachable.takeFences (h : Reachable x w) (n : Nat) :
    Reachable x { w with service := w.service.takeFences x n } := by
  induction n generalizing w with
  | zero => exact h
  | succ n ih => exact ih (.step (l := .takeFence) h trivial rfl)

theorem Reachable.queryFrom (h : Reachable x w) (i : Nat)
    (states : List (Except ProviderError DeviceService.FenceState)) :
    Sat DeviceFatal.refused (fun s => Reachable x { w with service := s })
      (w.service.queryFrom x i states) := by
  induction states generalizing w i with
  | nil => exact h
  | cons state rest ih =>
    refine Sat.bind (Sat.map_iff.mp (h.goes (l := .query i state) trivial)) fun s hs => ?_
    exact ih hs _

theorem Reachable.releaseFrom (h : Reachable x w) (i : Nat)
    (answers : List (Except ProviderError Unit)) :
    Sat DeviceFatal.refused (fun s => Reachable x { w with service := s })
      (w.service.releaseFrom x i answers) := by
  induction answers generalizing w i with
  | nil => exact h
  | cons answer rest ih =>
    refine Sat.bind (Sat.map_iff.mp (h.goes (l := .release i answer) trivial)) fun s hs => ?_
    exact ih hs _

/-- **A turn is a run of steps.** A whole turn of either lane, from a state that a run reaches and
    with any answers of the provider, leads to one that a run reaches. The submission lane's never
    fails and takes at most `batch` commands; the completion lane's fails only on a fence that the
    provider refuses. -/
theorem reachable_turns (h : Reachable x w) :
    (∀ answers, ∃ s taken, w.service.submissionTurn x answers = .ok s ∧
      taken.length ≤ x.batch ∧ Reachable x ⟨s, taken ++ w.taken⟩) ∧
    ∀ states locked answers, Sat DeviceFatal.refused (fun s => Reachable x { w with service := s })
      (w.service.completionTurn x states locked answers) := by
  constructor
  · intro answers
    obtain ⟨b, s1, hs1, -⟩ := h.sound.handPending
    have h1 : Reachable x { w with service := s1 } :=
      .step (l := .handPending) h trivial (by simp only [World.step, hs1]; rfl)
    obtain ⟨s2, taken, hs2, hlen, h2⟩ := h1.takeAll (answers.take x.batch)
    refine ⟨_, taken, ?_, hlen.trans (length_take_le ..),
      .step (l := .endSubmission) h2 trivial rfl⟩
    unfold DeviceService.submissionTurn
    rw [hs1]
    simp only [ok_bind]
    rw [hs2]
    rfl
  · intro states locked answers
    refine Sat.bind ((h.takeFences x.handoff).queryFrom 0 _) fun s hs => ?_
    split
    · exact hs.releaseFrom 0 _
    · exact hs

/-! One copy, fenced, handed over and seen complete. -/

def oneCopy : DeviceCommand where
  operation := ⟨0, 1⟩
  work := .copies ⟨0, [⟨0x100, 0x200, .ofNat 16⟩]⟩

def oneLaunch : LaunchAnswers Nat where
  copies _ := .ok ()
  submission := .ok ()
  job := .queued
  record := .ok 7
  backing := ⟨false, .error .failed, .ok (), .ok (), .ok (), .ok (), none⟩

def oneLane : DeviceSettings := ⟨1, 1, 1, 1⟩

def oneCopyWorld : Except DeviceFatal (World Nat) := do
  let some s := DeviceService.create oneLane 2 1 | .error .refusedFence
  let w ← World.step oneLane { service := s } (.submit oneCopy .ordinary)
  let w ← w.step oneLane (.take oneLaunch)
  let w ← w.step oneLane .takeFence
  w.step oneLane (.query 0 (.ok .complete))

theorem oneCopyWorld_reachable {w : World Nat} (h : oneCopyWorld = .ok w) : Reachable oneLane w := by
  unfold oneCopyWorld at h
  split at h
  next s hs =>
    obtain ⟨w1, h1, h⟩ := bind_ok h
    obtain ⟨w2, h2, h⟩ := bind_ok h
    obtain ⟨w3, h3, h⟩ := bind_ok h
    have hempty : s.queue.items = [] := by
      cases hs
      rfl
    have hfirst : Reachable oneLane w1 := by
      refine .step (.created hs) ?_ h1
      simp [World.Fits, hempty]
    have hsec : Reachable oneLane w2 := .step hfirst (by exact trivial) h2
    have hthird : Reachable oneLane w3 := .step hsec (by exact trivial) h3
    exact .step hthird (by exact trivial) h
  · cases h

theorem reachable_fenced_copied : ∃ w, oneCopyWorld = .ok w ∧
    terminals w.service.log oneCopy.operation =
      [{ outcome := .succeeded, bytes := 16, noFurtherAccess := true }] ∧
    Proven w.service.log oneCopy.operation
      { outcome := .succeeded, bytes := 16, noFurtherAccess := true } := by
  obtain ⟨w, hw⟩ : ∃ w, oneCopyWorld = .ok w := ⟨_, rfl⟩
  have hter : terminals w.service.log oneCopy.operation =
      [{ outcome := .succeeded, bytes := 16, noFurtherAccess := true }] := by
    cases hw
    rfl
  have htaken : oneCopy ∈ w.taken := by
    cases hw
    exact mem_singleton.mpr rfl
  refine ⟨w, hw, hter, ?_⟩
  exact (reachable_fenced (oneCopyWorld_reachable hw)).2.1 oneCopy htaken rfl _
    (by rw [hter]; exact mem_singleton.mpr rfl) rfl

theorem reachable_turns_copied : ∃ w, oneCopyWorld = .ok w ∧ ∃ s taken,
    w.service.submissionTurn oneLane [oneLaunch] = .ok s ∧ Reachable oneLane ⟨s, taken ++ w.taken⟩ := by
  obtain ⟨w, hw⟩ : ∃ w, oneCopyWorld = .ok w := ⟨_, rfl⟩
  obtain ⟨s, taken, hs, -, h⟩ := (reachable_turns (oneCopyWorld_reachable hw)).1 [oneLaunch]
  exact ⟨w, hw, s, taken, hs, h⟩

end JitLlm.Scheduler.Device
