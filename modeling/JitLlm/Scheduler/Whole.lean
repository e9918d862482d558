import JitLlm.Scheduler.Budget
import Mathlib.Logic.Relation

/-!
# Contents are published only when whole

`phase` is a machine over an extent's events; here it is read back as the events themselves. A
load that stands `whole` has, since it began, the conclusion of a read of its whole range and,
landed, of the copies out of the memory it was read into; an eviction that is `written` has the
conclusion of the write of its whole place. Since no event of a run is ever out of order, every
`resident` and every preserving `evicted` of a run has that history behind it.

`Turn` is the other half: a step takes an extent from one state of the catalog to another only
with the event that says so.
-/

namespace JitLlm.Scheduler

open Base Lib Option
open Catalog hiding Operation Reachable
open List (cons mem_cons suffix_cons)

/-! ## The events of one extent -/

def life (e : ExtentId) (log : List Event) : List Event := log.filter fun ev => ev.about = some e

def standing : List Event → Phase
  | [] => .idle
  | ev :: l => (standing l).step ev

theorem phase_eq_standing (e : ExtentId) (log : List Event) : phase e log = standing (life e log) := by
  induction log with
  | nil => rfl
  | cons ev log ih =>
    by_cases h : ev.about = some e
    · have hlife : life e (ev :: log) = ev :: life e log := by simp [life, h]
      rw [phase_cons log h, ih, hlife]
      rfl
    have hlife : life e (ev :: log) = life e log := by simp [life, h]
    rw [phase_cons_of_ne log h, ih, hlife]

theorem standing_append_broken {l : List Event} (h : standing l = .broken) :
    ∀ newer : List Event, standing (newer ++ l) = .broken
  | [] => h
  | ev :: newer => by
    show (standing (newer ++ l)).step ev = .broken
    rw [standing_append_broken h newer]
    rfl

def Event.inner : Event → Bool
  | .opened .. | .concluded .. => true
  | _ => false

/-! ## Loads -/

/-- The read of the source's whole range into `memory` was concluded, with its proof. -/
def ReadWhole (e : ExtentId) (source : PageSource) (memory : Nat) (hist : List Event) : Prop :=
  ∃ id spec newer older, source.ranges spec .read = true ∧ spec.memory = memory ∧
    hist = newer ++ .concluded id .load e .succeeded source.read.length true ::
      .opened id .load e (.read spec) :: older

/-- The read of the whole range was concluded, and then, landed, the copies of the one range or
    of every piece out of the memory it was read into, each with its proof. -/
def LoadWhole (e : ExtentId) (source : PageSource) (hist : List Event) : Prop :=
  ∃ id spec newer older, source.ranges spec .read = true ∧
    hist = newer ++ .concluded id .load e .succeeded source.read.length true ::
      .opened id .load e (.read spec) :: older ∧
    (source.landed = true → ∃ id' work bytes, work.copies = source.copiesFrom spec.memory ∧
      [.concluded id' .load e .succeeded bytes true, .opened id' .load e (.copies work)] <:+: newer)

def Unmapped (e : ExtentId) (hist : List Event) : Prop :=
  ∀ newer older id work bytes proven, hist = newer ++ .concluded id .load e .succeeded bytes proven ::
      .opened id .load e (.backing work) :: older → work.kind = .map →
    ∃ id' work' bytes' proven', work'.kind = .unmap ∧
      [.concluded id' .load e .succeeded bytes' proven', .opened id' .load e (.backing work')] <:+:
        newer

def Progress.shown (e : ExtentId) (source : PageSource) (hist : List Event) : Progress → Prop
  | .fresh => True
  | .read memory => ReadWhole e source memory hist
  | .whole => LoadWhole e source hist

/-- What the events since a load began say, where it stands at `p`. -/
structure LoadHist (e : ExtentId) (p : LoadPhase) (hist : List Event) : Prop where
  inner : ∀ ev ∈ hist, ev.inner = true
  flight : ∀ id command, p.operation = some (id, command) →
    (∃ rest, hist = .opened id .load e command :: rest) ∧ p.opens command = true
  contents : p.progress.shown e p.source hist
  unmapped : p.mapped = false → Unmapped e hist

variable {hist rest : List Event} {id : OperationId} {command : Command} {outcome : Outcome}
    {bytes : Nat} {proven : Bool} {ev : Event} {place : PageSource}

variable {e : ExtentId}

theorem Progress.shown.cons {source : PageSource}
    {progress : Progress} (h : progress.shown e source hist) (ev : Event) :
    progress.shown e source (ev :: hist) := by
  cases progress with
  | fresh => trivial
  | read =>
    obtain ⟨id, spec, newer, older, hran, hmem, rfl⟩ := h
    exact ⟨id, spec, ev :: newer, older, hran, hmem, rfl⟩
  | whole =>
    obtain ⟨id, spec, newer, older, hran, rfl, hcop⟩ := h
    refine ⟨id, spec, ev :: newer, older, hran, rfl, fun hlan => ?_⟩
    obtain ⟨id', work, bytes, hcopy, hin⟩ := hcop hlan
    exact ⟨id', work, bytes, hcopy, hin.trans (suffix_cons ev newer).isInfix⟩

theorem Unmapped.opened (h : Unmapped e hist) (id : OperationId)
    (kind : Kind) (e' : ExtentId) (command : Command) :
    Unmapped e (.opened id kind e' command :: hist) := by
  intro newer older id' work bytes proven heq hmap
  rcases newer with _ | ⟨ev, newer⟩
  · cases (cons.inj heq).1
  obtain ⟨rfl, hrest⟩ := cons.inj heq
  obtain ⟨id1, work1, bytes1, proven1, hkind, hin⟩ := h newer older id' work bytes proven hrest hmap
  exact ⟨id1, work1, bytes1, proven1, hkind, hin.trans (suffix_cons _ newer).isInfix⟩

theorem Unmapped.concluded (h : Unmapped e (.opened id .load e command :: rest)) (outcome : Outcome)
    (bytes : Nat) (proven : Bool)
    (hmap : outcome = .succeeded → ∀ work, command = .backing work → work.kind ≠ .map) :
    Unmapped e (.concluded id .load e outcome bytes proven :: .opened id .load e command :: rest) := by
  intro newer older id' work bytes' proven' heq hkind
  cases newer with
  | nil =>
    obtain ⟨hev, heq⟩ := cons.inj heq
    obtain ⟨hop, -⟩ := cons.inj heq
    cases hev
    cases hop
    exact absurd hkind (hmap rfl work rfl)
  | cons ev newer =>
    obtain ⟨rfl, hrest⟩ := cons.inj heq
    obtain ⟨id1, work1, bytes1, proven1, hk, hin⟩ := h newer older id' work bytes' proven' hrest hkind
    exact ⟨id1, work1, bytes1, proven1, hk, hin.trans (suffix_cons _ newer).isInfix⟩

theorem unmapped_of_unmap {work : BackingWork}
    (hwork : work.kind = .unmap) (bytes : Nat) (proven : Bool) :
    Unmapped e (.concluded id .load e .succeeded bytes proven ::
      .opened id .load e (.backing work) :: rest) := by
  intro newer older id' work' bytes' proven' heq hkind
  cases newer with
  | nil =>
    obtain ⟨hev, heq⟩ := cons.inj heq
    obtain ⟨hop, -⟩ := cons.inj heq
    cases hev
    cases hop
    rw [hwork] at hkind
    cases hkind
  | cons ev newer =>
    obtain ⟨rfl, hrest⟩ := cons.inj heq
    cases newer with
    | nil => cases (cons.inj hrest).1
    | cons ev newer =>
      obtain ⟨rfl, -⟩ := cons.inj hrest
      exact ⟨id, work, bytes, proven, hwork, [], newer, rfl⟩

theorem LoadHist.begun (e : ExtentId) (source : PageSource) (preserved reuse : Bool) :
    LoadHist e { source, preserved, reuse } [] where
  inner _ hev := absurd hev List.not_mem_nil
  flight := nofun
  contents := trivial
  unmapped := by
    intro _ newer older id work bytes proven heq
    cases newer <;> cases heq

variable {p : LoadPhase}

theorem LoadHist.opened (h : LoadHist e p hist) (hopens : p.opens command = true) :
    LoadHist e { p with operation := some (id, command) } (.opened id .load e command :: hist) where
  inner := by
    intro ev hev
    rcases mem_cons.mp hev with rfl | hev
    · rfl
    · exact h.inner ev hev
  flight := by
    intro id' command' hop
    cases hop
    exact ⟨⟨hist, rfl⟩, hopens⟩
  contents := h.contents.cons _
  unmapped := fun hmap => (h.unmapped hmap).opened id .load e command

theorem LoadHist.settled_contents
    (h : p.progress.shown e p.source (.opened id .load e command :: rest))
    (hopens : p.opens command = true) (hproven : outcome = .succeeded → proven = true) :
    (p.settle command outcome bytes).progress.shown e p.source
      (.concluded id .load e outcome bytes proven :: .opened id .load e command :: rest) := by
  have hkeep := h.cons (.concluded id .load e outcome bytes proven)
  unfold LoadPhase.settle
  by_cases hout : outcome = .succeeded
  · rw [if_pos hout]
    subst hout
    obtain rfl := hproven rfl
    cases command with
    | backing work =>
      dsimp only
      cases work.kind <;> exact hkeep
    | read spec =>
      dsimp only
      have hran : p.source.ranges spec .read = true := by
        simp only [LoadPhase.opens, Bool.and_eq_true] at hopens
        exact hopens.1.1.2
      have hlen : spec.length = p.source.read.length := by
        simp only [PageSource.ranges, Bool.and_eq_true, decide_eq_true_eq] at hran
        exact hran.1.2
      by_cases hbytes : bytes = spec.length
      · rw [if_pos hbytes]
        subst hbytes
        rw [hlen]
        by_cases hlan : p.source.landed = true
        · simp only [hlan, if_true]
          exact ⟨id, spec, [], rest, hran, rfl, rfl⟩
        simp only [Bool.not_eq_true] at hlan
        simp only [hlan, Bool.false_eq_true, if_false]
        exact ⟨id, spec, [], rest, hran, rfl, fun hl => by rw [hlan] at hl; cases hl⟩
      rw [if_neg hbytes]
      exact hkeep
    | copies work =>
      simp only [LoadPhase.opens, Bool.and_eq_true] at hopens
      cases hprog : p.progress with
      | fresh | whole => simp [hprog] at hopens
      | read =>
        simp only [hprog, decide_eq_true_eq] at hopens
        rw [hprog] at h
        obtain ⟨id', spec, newer, older, hran, hmem, heq⟩ := h
        -- the copy was opened after the read was concluded
        rcases newer with _ | ⟨ev, newer⟩
        · cases (cons.inj heq).1
        obtain ⟨rfl, hrest⟩ := cons.inj heq
        subst hrest
        exact ⟨id', spec, .concluded id .load e .succeeded bytes true ::
            .opened id .load e (.copies work) :: newer, older, hran, rfl,
          fun _ => ⟨id, work, bytes, hmem ▸ hopens.2, [], newer, rfl⟩⟩
    | launch | job => exact hkeep
  rw [if_neg hout]
  exact hkeep

theorem LoadPhase.settle_mapped (h : (p.settle command outcome bytes).mapped = false) :
    (outcome = .succeeded ∧ ∃ work, command = .backing work ∧ work.kind = .unmap) ∨
      (p.mapped = false ∧
        (outcome = .succeeded → ∀ work, command = .backing work → work.kind ≠ .map)) := by
  unfold LoadPhase.settle at h
  by_cases hout : outcome = .succeeded
  · rw [if_pos hout] at h
    cases command with
    | backing work =>
      cases hkind : work.kind with
      | map => simp [hkind] at h
      | unmap => exact .inl ⟨hout, work, rfl, hkind⟩
      | release =>
        simp only [hkind] at h
        refine .inr ⟨h, fun _ work' heq => ?_⟩
        cases heq
        rw [hkind]
        simp
    | read =>
      refine .inr ⟨?_, nofun⟩
      dsimp only at h
      split at h <;> exact h
    | copies | launch | job => exact .inr ⟨h, nofun⟩
  rw [if_neg hout] at h
  exact .inr ⟨h, fun hsuc => absurd hsuc hout⟩

theorem LoadHist.concluded (h : LoadHist e p hist) (hop : p.operation = some (id, command))
    (hproven : outcome = .succeeded → proven = true) :
    LoadHist e { p.settle command outcome bytes with operation := none }
      (.concluded id .load e outcome bytes proven :: hist) := by
  obtain ⟨⟨rest, rfl⟩, hopens⟩ := h.flight id command hop
  refine ⟨?_, nofun, ?_, ?_⟩
  · intro ev hev
    rcases mem_cons.mp hev with rfl | hev
    · rfl
    · exact h.inner ev hev
  · show (p.settle command outcome bytes).progress.shown e (p.settle command outcome bytes).source _
    rw [p.settle_source]
    exact LoadHist.settled_contents h.contents hopens hproven
  intro hmapped
  rcases LoadPhase.settle_mapped hmapped with ⟨rfl, work, rfl, hunmap⟩ | ⟨hmapped, hmap⟩
  · exact unmapped_of_unmap hunmap bytes proven
  · exact (h.unmapped hmapped).concluded outcome bytes proven hmap

theorem concluded_guard {id id' : OperationId} {outcome : Outcome} {proven : Bool}
    (h : (decide (id' = id) && (proven || decide (outcome ≠ .succeeded))) = true) :
    id' = id ∧ (outcome = .succeeded → proven = true) := by
  grind

theorem LoadHist.step {p q : LoadPhase} (h : LoadHist e q hist)
    (habout : ev.about = some e) (hstep : q.step ev = .loading p) :
    LoadHist e p (ev :: hist) ∧ p.source = q.source := by
  unfold LoadPhase.step at hstep
  split at hstep
  next id e' command =>
    obtain rfl : e' = e := by simpa [Event.about] using habout
    split at hstep
    next hguard =>
      cases hstep
      rw [Bool.and_eq_true] at hguard
      exact ⟨h.opened hguard.2, rfl⟩
    · cases hstep
  next id e' outcome bytes proven =>
    obtain rfl : e' = e := by simpa [Event.about] using habout
    split at hstep
    · cases hstep
    rename_i id' command hop
    split at hstep
    next hguard =>
      cases hstep
      obtain ⟨rfl, hproven⟩ := concluded_guard hguard
      exact ⟨h.concluded hop hproven, q.settle_source command outcome bytes⟩
    · cases hstep
  all_goals
    repeat' split at hstep
    all_goals cases hstep

theorem loading_told : ∀ {l : List Event} {p : LoadPhase},
    (∀ ev ∈ l, ev.about = some e) → standing l = .loading p →
    ∃ preserved reuse hist old, l = hist ++ .begun e p.source preserved reuse :: old ∧
      LoadHist e p hist
  | [], _, _, h => nomatch h
  | ev :: l, p, habout, h => by
    have hev := habout ev List.mem_cons_self
    have hl := fun ev' hev' => habout ev' (List.mem_cons_of_mem _ hev')
    change (standing l).step ev = .loading p at h
    cases hst : standing l with
    | idle =>
      rw [hst] at h
      cases ev with
      | begun e' source preserved reuse =>
        cases h
        obtain rfl : e' = e := by simpa [Event.about] using hev
        exact ⟨preserved, reuse, [], l, rfl, .begun e' source preserved reuse⟩
      | _ => cases h
    | loading =>
      rw [hst] at h
      obtain ⟨preserved, reuse, hist, old, rfl, hhist⟩ := loading_told hl hst
      obtain ⟨hnext, hsource⟩ := hhist.step hev h
      exact ⟨preserved, reuse, ev :: hist, old, by rw [hsource]; rfl, hnext⟩
    | evicting q =>
      rw [hst] at h
      change q.step ev = .loading p at h
      unfold EvictPhase.step at h
      repeat' split at h
      all_goals cases h
    | lost | broken =>
      rw [hst] at h
      cases h

/-! ## Evictions -/

/-- The copy-out of the place's range into the slot at `memory` was concluded, with its proof. -/
def CopiedOut (e : ExtentId) (place : PageSource) (memory : Nat) (hist : List Event) : Prop :=
  ∃ id work bytes, work.copies = place.copyOut memory ∧
    [.concluded id .evict e .succeeded bytes true, .opened id .evict e (.copies work)] <:+: hist

/-- The write of the place's whole range was concluded, with its proof, and landed, before it the
    copy-out into the memory it wrote from. -/
def WriteWhole (e : ExtentId) (place : PageSource) (hist : List Event) : Prop :=
  ∃ id spec newer older, place.ranges spec .write = true ∧
    hist = newer ++ .concluded id .evict e .succeeded place.read.length true ::
      .opened id .evict e (.read spec) :: older ∧
    (place.landed = true → CopiedOut e place spec.memory older)

def Untouched (e : ExtentId) (hist : List Event) : Prop :=
  ∀ newer older id work bytes proven, hist ≠ newer ++ .concluded id .evict e .succeeded bytes proven ::
    .opened id .evict e (.backing work) :: older

def EvictPhase.shown (e : ExtentId) (p : EvictPhase) (hist : List Event) : Prop :=
  match p.progress with
  | .fresh => True
  | .copied memory => ∃ place, p.place = some place ∧ CopiedOut e place memory hist
  | .written | .kept | .released =>
    p.writeBack = true → ∃ place, p.place = some place ∧ WriteWhole e place hist

structure EvictHist (e : ExtentId) (p : EvictPhase) (hist : List Event) : Prop where
  inner : ∀ ev ∈ hist, ev.inner = true
  flight : ∀ id command, p.operation = some (id, command) →
    (∃ rest, hist = .opened id .evict e command :: rest) ∧ p.opens command = true
  contents : p.shown e hist
  untouched : p.untouched = true → Untouched e hist

theorem CopiedOut.cons {memory : Nat}
    (h : CopiedOut e place memory hist) (ev : Event) : CopiedOut e place memory (ev :: hist) := by
  obtain ⟨id, work, bytes, hcop, hin⟩ := h
  exact ⟨id, work, bytes, hcop, hin.trans (suffix_cons ev hist).isInfix⟩

theorem WriteWhole.cons
    (h : WriteWhole e place hist) (ev : Event) : WriteWhole e place (ev :: hist) := by
  obtain ⟨id, spec, newer, older, hran, rfl, hcop⟩ := h
  exact ⟨id, spec, ev :: newer, older, hran, rfl, hcop⟩

theorem EvictPhase.shown.cons {p q : EvictPhase}
    (h : p.shown e hist) (hprog : q.progress = p.progress) (hplace : q.place = p.place)
    (hwrite : q.writeBack = p.writeBack) (ev : Event) : q.shown e (ev :: hist) := by
  unfold EvictPhase.shown at h ⊢
  rw [hprog, hplace, hwrite]
  cases hp : p.progress with
  | fresh => trivial
  | copied =>
    simp only [hp] at h
    obtain ⟨place, hplace, hcop⟩ := h
    exact ⟨place, hplace, hcop.cons ev⟩
  | written | kept | released =>
    simp only [hp] at h
    intro hwb
    obtain ⟨place, hplace, hwrit⟩ := h hwb
    exact ⟨place, hplace, hwrit.cons ev⟩

theorem Untouched.opened (h : Untouched e hist)
    (id : OperationId) (command : Command) : Untouched e (.opened id .evict e command :: hist) := by
  intro newer older id' work bytes proven heq
  cases newer with
  | nil => cases (cons.inj heq).1
  | cons ev newer =>
    obtain ⟨rfl, hrest⟩ := cons.inj heq
    exact h newer older id' work bytes proven hrest

theorem Untouched.concluded (h : Untouched e (.opened id .evict e command :: rest))
    (outcome : Outcome) (bytes : Nat) (proven : Bool)
    (hback : outcome = .succeeded → ∀ work, command ≠ .backing work) :
    Untouched e (.concluded id .evict e outcome bytes proven ::
      .opened id .evict e command :: rest) := by
  intro newer older id' work bytes' proven' heq
  cases newer with
  | nil =>
    obtain ⟨hev, hrest⟩ := cons.inj heq
    obtain ⟨hop, -⟩ := cons.inj hrest
    cases hev
    cases hop
    exact hback rfl work rfl
  | cons ev newer =>
    obtain ⟨rfl, hrest⟩ := cons.inj heq
    exact h newer older id' work bytes' proven' hrest

theorem EvictHist.evicting (e : ExtentId) (place : Option PageSource) (writeBack handoff : Bool) :
    EvictHist e { place, writeBack, handoff } [] where
  inner _ hev := absurd hev List.not_mem_nil
  flight := nofun
  contents := trivial
  untouched := by
    intro _ newer older id work bytes proven heq
    cases newer <;> cases heq

variable {p : EvictPhase}

theorem EvictHist.opened (h : EvictHist e p hist) (hopens : p.opens command = true) :
    EvictHist e { p with operation := some (id, command) }
      (.opened id .evict e command :: hist) where
  inner := by
    intro ev hev
    rcases mem_cons.mp hev with rfl | hev
    · rfl
    · exact h.inner ev hev
  flight := by
    intro id' command' hop
    cases hop
    exact ⟨⟨hist, rfl⟩, hopens⟩
  contents := h.contents.cons rfl rfl rfl _
  untouched := fun hunt => (h.untouched hunt).opened id command

theorem EvictHist.settled_contents (h : p.shown e (.opened id .evict e command :: rest))
    (hopens : p.opens command = true) (hproven : outcome = .succeeded → proven = true) :
    EvictPhase.shown e { p.settle command outcome bytes with operation := none }
      (.concluded id .evict e outcome bytes proven :: .opened id .evict e command :: rest) := by
  have hkeep := fun (q : EvictPhase) (hp : q.progress = p.progress) (hpl : q.place = p.place)
    (hw : q.writeBack = p.writeBack) =>
      h.cons hp hpl hw (.concluded id .evict e outcome bytes proven)
  unfold EvictPhase.settle
  by_cases hout : outcome = .succeeded
  · rw [if_pos hout]
    subst hout
    obtain rfl := hproven rfl
    cases command with
    | backing work =>
      -- written before it was unmapped, or kept since
      have hwrit : p.writeBack = true → ∃ place, p.place = some place ∧
          WriteWhole e place (.opened id .evict e (.backing work) :: rest) := by
        intro hwb
        simp only [EvictPhase.opens, Bool.and_eq_true] at hopens
        have hprog : p.progress = .written ∨ p.progress = .kept := by
          cases hkind : work.kind with
          | map => simp [hkind] at hopens
          | unmap =>
            simp only [hkind, hwb, if_true, Bool.and_eq_true, decide_eq_true_eq] at hopens
            exact .inl hopens.2.1
          | release =>
            simp only [hkind, decide_eq_true_eq] at hopens
            exact .inr hopens.2
        unfold EvictPhase.shown at h
        rcases hprog with hp | hp <;> simp only [hp] at h <;> exact h hwb
      have hafter : ∀ q : EvictPhase, q.place = p.place → q.writeBack = p.writeBack →
          (q.progress = .kept ∨ q.progress = .released) →
          q.shown e (.concluded id .evict e .succeeded bytes true ::
            .opened id .evict e (.backing work) :: rest) := by
        intro q hplace hwrite hq
        unfold EvictPhase.shown
        have hshown : q.writeBack = true → ∃ place, q.place = some place ∧
            WriteWhole e place (.concluded id .evict e .succeeded bytes true ::
              .opened id .evict e (.backing work) :: rest) := by
          intro hwb
          obtain ⟨place, hpl, hw⟩ := hwrit (hwrite ▸ hwb)
          exact ⟨place, hplace.trans hpl, hw.cons _⟩
        rcases hq with hq | hq <;> rw [hq] <;> exact hshown
      dsimp only
      cases work.kind with
      | unmap =>
        cases work.retain with
        | true => exact hafter _ rfl rfl (.inl rfl)
        | false => exact hafter _ rfl rfl (.inr rfl)
      | map | release => exact hafter _ rfl rfl (.inr rfl)
    | copies work =>
      simp only [EvictPhase.opens, Bool.and_eq_true] at hopens
      obtain ⟨place, hplace, hcopy⟩ := (any_eq_true _ _).mp hopens.2
      simp only [Bool.and_eq_true, decide_eq_true_eq] at hcopy
      exact ⟨place, hplace, id, work, bytes, hcopy.2, [], rest, rfl⟩
    | read spec =>
      dsimp only
      by_cases hbytes : bytes = spec.length
      · rw [if_pos hbytes]
        subst hbytes
        intro _
        simp only [EvictPhase.opens, Bool.and_eq_true] at hopens
        obtain ⟨place, hplace, hwrites⟩ := (any_eq_true _ _).mp hopens.2
        simp only [Bool.and_eq_true] at hwrites
        obtain ⟨hran, hfrom⟩ := hwrites
        have hlen : spec.length = place.read.length := by
          simp only [PageSource.ranges, Bool.and_eq_true, decide_eq_true_eq] at hran
          exact hran.1.2
        refine ⟨place, hplace, id, spec, [], rest, hran, by rw [hlen]; rfl, ?_⟩
        intro hlan
        rw [if_pos hlan] at hfrom
        have hprog : p.progress = .copied spec.memory := of_decide_eq_true hfrom
        unfold EvictPhase.shown at h
        simp only [hprog] at h
        obtain ⟨place', hplace', id', work, bytes', hcop, a, b, hin⟩ := h
        obtain rfl : place' = place := some.inj (hplace'.symm.trans hplace)
        -- the write was opened after the copy-out was concluded
        cases a with
        | nil => cases (cons.inj hin).1
        | cons ev a => exact ⟨id', work, bytes', hcop, a, b, (cons.inj hin).2⟩
      rw [if_neg hbytes]
      exact hkeep _ rfl rfl rfl
    | launch | job => exact hkeep _ rfl rfl rfl
  rw [if_neg hout]
  exact hkeep _ rfl rfl rfl

theorem EvictPhase.settle_untouched (hopens : p.opens command = true)
    (h : (p.settle command outcome bytes).untouched = true) :
    p.untouched = true ∧ (outcome = .succeeded → ∀ work, command ≠ .backing work) := by
  unfold EvictPhase.settle at h
  by_cases hout : outcome = .succeeded
  · rw [if_pos hout] at h
    cases command with
    | backing work =>
      cases hkind : work.kind with
      | unmap =>
        cases hret : work.retain <;> simp [hkind, hret, EvictPhase.untouched] at h
      | map | release => simp [hkind, EvictPhase.untouched] at h
    | copies =>
      refine ⟨?_, fun _ _ hc => by cases hc⟩
      simp only [EvictPhase.opens, Bool.and_eq_true, decide_eq_true_eq] at hopens
      simp [EvictPhase.untouched, hopens.1.2]
    | read =>
      refine ⟨?_, fun _ _ hc => by cases hc⟩
      simp only [EvictPhase.opens, Bool.and_eq_true] at hopens
      obtain ⟨place, -, hwrites⟩ := (any_eq_true _ _).mp hopens.2
      rw [Bool.and_eq_true] at hwrites
      by_cases hlan : place.landed = true
      · rw [if_pos hlan] at hwrites
        simp [EvictPhase.untouched, of_decide_eq_true hwrites.2]
      rw [if_neg hlan] at hwrites
      simp [EvictPhase.untouched, of_decide_eq_true hwrites.2]
    | launch | job => exact ⟨h, fun _ _ hc => by cases hc⟩
  rw [if_neg hout] at h
  exact ⟨h, fun hsuc => absurd hsuc hout⟩

theorem EvictHist.concluded (h : EvictHist e p hist) (hop : p.operation = some (id, command))
    (hproven : outcome = .succeeded → proven = true) :
    EvictHist e { p.settle command outcome bytes with operation := none }
      (.concluded id .evict e outcome bytes proven :: hist) := by
  obtain ⟨⟨rest, rfl⟩, hopens⟩ := h.flight id command hop
  refine ⟨?_, nofun, ?_, ?_⟩
  · intro ev hev
    rcases mem_cons.mp hev with rfl | hev
    · rfl
    · exact h.inner ev hev
  · exact EvictHist.settled_contents h.contents hopens hproven
  intro hunt
  obtain ⟨hbef, hback⟩ := EvictPhase.settle_untouched hopens hunt
  exact (h.untouched hbef).concluded outcome bytes proven hback

theorem EvictHist.step {p q : EvictPhase} (h : EvictHist e q hist)
    (habout : ev.about = some e) (hstep : q.step ev = .evicting p) :
    EvictHist e p (ev :: hist) ∧ p.place = q.place ∧ p.writeBack = q.writeBack ∧
      p.handoff = q.handoff := by
  unfold EvictPhase.step at hstep
  split at hstep
  next id e' command =>
    obtain rfl : e' = e := by simpa [Event.about] using habout
    split at hstep
    next hguard =>
      cases hstep
      rw [Bool.and_eq_true] at hguard
      exact ⟨h.opened hguard.2, rfl, rfl, rfl⟩
    · cases hstep
  next id e' outcome bytes proven =>
    obtain rfl : e' = e := by simpa [Event.about] using habout
    split at hstep
    · cases hstep
    rename_i id' command hop
    split at hstep
    next hguard =>
      cases hstep
      obtain ⟨rfl, hproven⟩ := concluded_guard hguard
      exact ⟨h.concluded hop hproven, q.settle_place command outcome bytes⟩
    · cases hstep
  all_goals
    repeat' split at hstep
    all_goals cases hstep

theorem evicting_told : ∀ {l : List Event} {p : EvictPhase},
    (∀ ev ∈ l, ev.about = some e) → standing l = .evicting p →
    ∃ hist old, l = hist ++ .evicting e p.place p.writeBack p.handoff :: old ∧ EvictHist e p hist
  | [], _, _, h => nomatch h
  | ev :: l, p, habout, h => by
    have hev := habout ev List.mem_cons_self
    have hl := fun ev' hev' => habout ev' (List.mem_cons_of_mem _ hev')
    change (standing l).step ev = .evicting p at h
    cases hst : standing l with
    | idle =>
      rw [hst] at h
      cases ev with
      | evicting e' place writeBack handoff =>
        cases h
        obtain rfl : e' = e := by simpa [Event.about] using hev
        exact ⟨[], l, rfl, .evicting e' place writeBack handoff⟩
      | _ => cases h
    | loading q =>
      rw [hst] at h
      change q.step ev = .evicting p at h
      unfold LoadPhase.step at h
      repeat' split at h
      all_goals cases h
    | evicting =>
      rw [hst] at h
      obtain ⟨hist, old, rfl, hhist⟩ := evicting_told hl hst
      obtain ⟨hnext, hplace, hwrite, hhan⟩ := hhist.step hev h
      exact ⟨ev :: hist, old, by rw [hplace, hwrite, hhan]; rfl, hnext⟩
    | lost | broken =>
      rw [hst] at h
      cases h

/-! ## Endings -/

def LoadedWhole (e : ExtentId) (log : List Event) : Prop :=
  ∃ source preserved reuse hist old, life e log = hist ++ .begun e source preserved reuse :: old ∧
    (∀ ev ∈ hist, ev.inner = true) ∧ LoadWhole e source hist

def LoadUndone (e : ExtentId) (log : List Event) : Prop :=
  ∃ source preserved reuse hist old, life e log = hist ++ .begun e source preserved reuse :: old ∧
    (∀ ev ∈ hist, ev.inner = true) ∧ Unmapped e hist

def WrittenWhole (e : ExtentId) (log : List Event) : Prop :=
  ∃ place handoff hist old, life e log = hist ++ .evicting e (some place) true handoff :: old ∧
    (∀ ev ∈ hist, ev.inner = true) ∧ WriteWhole e place hist

def EvictUntouched (e : ExtentId) (log : List Event) : Prop :=
  ∃ place writeBack handoff hist old,
    life e log = hist ++ .evicting e place writeBack handoff :: old ∧
    (∀ ev ∈ hist, ev.inner = true) ∧ Untouched e hist

theorem life_about {log : List Event} : ∀ ev ∈ life e log, ev.about = some e :=
  fun _ hev => of_decide_eq_true (List.mem_filter.mp hev).2

theorem standing_before {newer older : List Event}
    (h : phase e (newer ++ ev :: older) ≠ .broken) (habout : ev.about = some e) :
    (phase e older).step ev ≠ .broken := by
  intro hbroken
  refine h ?_
  have hlife : life e (newer ++ ev :: older) = life e newer ++ ev :: life e older := by
    simp [life, List.filter_append, habout]
  rw [phase_eq_standing, hlife]
  refine standing_append_broken ?_ _
  show (standing (life e older)).step ev = .broken
  rw [← phase_eq_standing]
  exact hbroken

section Endings

variable {e : ExtentId} {log : List Event}

theorem resident_told (h : (phase e log).step (.resident e) ≠ .broken) : LoadedWhole e log := by
  cases hp : phase e log with
  | loading p =>
    rw [hp] at h
    change (if p.operation.isNone && p.progress = .whole then Phase.idle else .broken) ≠ .broken at h
    split at h
    next hguard =>
      rw [Bool.and_eq_true, decide_eq_true_eq] at hguard
      rw [phase_eq_standing] at hp
      obtain ⟨preserved, reuse, hist, old, hlife, hhist⟩ := loading_told life_about hp
      have hcon := hhist.contents
      rw [hguard.2] at hcon
      exact ⟨p.source, preserved, reuse, hist, old, hlife, hhist.inner, hcon⟩
    · exact absurd rfl h
  | evicting | idle | lost | broken => rw [hp] at h; exact absurd rfl h

theorem failed_told (h : (phase e log).step (.failed e) ≠ .broken) : LoadUndone e log := by
  cases hp : phase e log with
  | loading p =>
    rw [hp] at h
    change (if p.operation.isNone && !p.mapped && !p.reuse then Phase.idle else .broken) ≠ .broken at h
    split at h
    next hguard =>
      simp only [Bool.and_eq_true, Bool.not_eq_true'] at hguard
      rw [phase_eq_standing] at hp
      obtain ⟨preserved, reuse, hist, old, hlife, hhist⟩ := loading_told life_about hp
      exact ⟨p.source, preserved, reuse, hist, old, hlife, hhist.inner, hhist.unmapped hguard.1.2⟩
    · exact absurd rfl h
  | evicting | idle | lost | broken => rw [hp] at h; exact absurd rfl h

theorem evicted_told (h : (phase e log).step (.evicted e true) ≠ .broken) : WrittenWhole e log := by
  cases hp : phase e log with
  | evicting p =>
    rw [hp] at h
    change (if p.operation.isNone && p.done && decide (true = p.writeBack) then Phase.idle
      else .broken) ≠ .broken at h
    split at h
    next hguard =>
      simp only [Bool.and_eq_true, decide_eq_true_eq] at hguard
      obtain ⟨⟨-, hdone⟩, hwrite⟩ := hguard
      rw [phase_eq_standing] at hp
      obtain ⟨hist, old, hlife, hhist⟩ := evicting_told life_about hp
      have hcon := hhist.contents
      -- written, or its backing given up after it was
      have hprog : p.progress = .written ∨ p.progress = .kept ∨ p.progress = .released := by
        unfold EvictPhase.done at hdone
        split at hdone
        · simp only [EvictPhase.untouched, Bool.not_eq_true', Bool.and_eq_false_iff, ne_eq,
            decide_not, Bool.not_eq_false', decide_eq_true_eq] at hdone
          exact .inr hdone
        rw [if_pos hwrite.symm] at hdone
        exact .inl (of_decide_eq_true hdone)
      have hshown : ∃ place, p.place = some place ∧ WriteWhole e place hist := by
        unfold EvictPhase.shown at hcon
        rcases hprog with hp | hp | hp <;> simp only [hp] at hcon <;> exact hcon hwrite.symm
      obtain ⟨place, hplace, hwhole⟩ := hshown
      rw [hplace, ← hwrite] at hlife
      exact ⟨place, p.handoff, hist, old, hlife, hhist.inner, hwhole⟩
    · exact absurd rfl h
  | loading | idle | lost | broken => rw [hp] at h; exact absurd rfl h

theorem abandoned_told (h : (phase e log).step (.abandoned e) ≠ .broken) : EvictUntouched e log := by
  cases hp : phase e log with
  | evicting p =>
    rw [hp] at h
    change (if p.operation.isNone && p.untouched then Phase.idle else .broken) ≠ .broken at h
    split at h
    next hguard =>
      rw [Bool.and_eq_true] at hguard
      rw [phase_eq_standing] at hp
      obtain ⟨hist, old, hlife, hhist⟩ := evicting_told life_about hp
      exact ⟨p.place, p.writeBack, p.handoff, hist, old, hlife, hhist.inner,
        hhist.untouched hguard.2⟩
    · exact absurd rfl h
  | loading | idle | lost | broken => rw [hp] at h; exact absurd rfl h

end Endings

theorem Good.unbroken {x : Config} {s : Scheduler} {work : List Work} (h : Good x s work none none)
    (e : ExtentId) : phase e s.log ≠ .broken := by
  cases hl : s.loads.find? e with
  | some l =>
    obtain ⟨p, hload, -⟩ := (h.load e l (by simp) hl).loading
    rw [hload.phase]
    simp
  | none =>
    cases hv : s.evictions.find? e with
    | some v =>
      obtain ⟨place, p, hevi, -⟩ := (h.eviction e v (by simp) hv).evicting
      rw [hevi.phase]
      simp
    | none =>
      rcases h.settled e (by simp) hl hv with ⟨hp, -⟩ | ⟨hp, -⟩
      · rw [hp]
        simp
      rw [hp]
      simp

/-! ## The catalog's states -/

def mark (s : Scheduler) (e : ExtentId) : Option (ExtentState × Bool) :=
  (s.catalog.extents.find? e).map fun r => (r.view.state, r.view.preserved)

/-- What can become of one extent at a time: its states, and the event each ending is with. -/
inductive Turn (e : ExtentId) (s s' : Scheduler) : Prop
  | same (mark : s'.mark e = s.mark e)
  | loads {p : Bool} (before : s.mark e = some (.nonresident, p))
      (after : s'.mark e = some (.loading, p))
  | loaded {p : Bool} (before : s.mark e = some (.loading, p))
      (after : s'.mark e = some (.resident, false)) (log : s'.log = .resident e :: s.log)
  | failed {p : Bool} (before : s.mark e = some (.loading, p))
      (after : s'.mark e = some (.nonresident, p)) (log : s'.log = .failed e :: s.log)
  | lost {state : ExtentState} {p : Bool} (busy : state = .loading ∨ state = .evicting)
      (before : s.mark e = some (state, p)) (after : s'.mark e = some (.quarantined, p))
      (log : s'.log = .lost e :: s.log)
  | evicts {p : Bool} (before : s.mark e = some (.resident, p))
      (after : s'.mark e = some (.evicting, p))
  | evicted {p preserved : Bool} (before : s.mark e = some (.evicting, p))
      (after : s'.mark e = some (.nonresident, preserved))
      (log : s'.log = .evicted e preserved :: s.log)
  | abandoned {p : Bool} (before : s.mark e = some (.evicting, p))
      (after : s'.mark e = some (.resident, p)) (log : s'.log = .abandoned e :: s.log)

open Relation (ReflTransGen)

section Turns

variable {x : Config} {s s' s'' : Scheduler} {k k' : List Debt} {e e0 : ExtentId}

variable {r : ExtentRecord}

theorem mark_found (h : s.catalog.extents.find? e = some r) :
    s.mark e = some (r.view.state, r.view.preserved) := by
  unfold mark
  rw [h]
  rfl

variable {r r' : ExtentRecord}

theorem mark_edit (hedit : Catalog.Edit s.catalog e r' s'.catalog)
    (hr : s.catalog.extents.find? e = some r) (e' : ExtentId) :
    s'.mark e' = if e' = e then some (r'.view.state, r'.view.preserved) else s.mark e' := by
  unfold mark
  rw [hedit.find hr e']
  split <;> rfl

theorem mark_alike {c : Catalog} (h : Catalog.Alike s.catalog c) (e : ExtentId)
    (hc : s'.catalog = c) : s'.mark e = s.mark e := by
  have hmap := congrArg (Option.map fun r : ExtentRecord => (r.view.state, r.view.preserved)) (h.find e)
  rw [map_map, map_map] at hmap
  unfold mark
  rw [hc]
  exact hmap

theorem turn_of_catalog (h : s'.catalog = s.catalog) : Turn e s s' := .same (by unfold mark; rw [h])

theorem turn_alike {c : Catalog} (h : Catalog.Alike s.catalog c) (hc : s'.catalog = c) :
    Turn e s s' := .same (mark_alike h e hc)

theorem LoadBegins.turn {load : Load} {budget : Nat}
    (h : LoadBegins s s' e0 load r budget) (hs : s''.catalog = s'.catalog) : Turn e s s'' := by
  have hmark := mark_edit h.edit h.found e
  have hsame : s''.mark e = s'.mark e := by unfold mark; rw [hs]
  by_cases he : e = e0
  · subst he
    rw [if_pos rfl] at hmark
    have hbef := mark_found h.found
    rw [h.state] at hbef
    exact .loads hbef (hsame.trans hmark)
  rw [if_neg he] at hmark
  exact .same (hsame.trans hmark)

theorem EvictionEnds.turn {v : Eviction} {place : PageSource} {p : EvictPhase} {event : Event}
    (h : EvictionEnds s s' e0 v place p r r' event) (hs : s''.catalog = s'.catalog)
    (hlog : s''.log = s'.log) : Turn e s s'' := by
  have hmark := mark_edit h.edit h.ticket.found e
  have hsame : s''.mark e = s'.mark e := by unfold mark; rw [hs]
  by_cases he : e = e0
  · subst he
    rw [if_pos rfl] at hmark
    have hbef := mark_found h.ticket.found
    rw [h.ticket.state] at hbef
    have hafter := hsame.trans hmark
    have hevent := hlog.trans h.log
    cases h.ending with
    | evicted _ _ record =>
      rw [record.state, record.preserved] at hafter
      exact .evicted hbef hafter hevent
    | abandoned => exact .abandoned hbef hafter hevent
    | lost => exact .lost (.inr rfl) hbef hafter hevent
  rw [if_neg he] at hmark
  exact .same (hsame.trans hmark)

theorem Move.turns (h : Move x s k s' k') (e : ExtentId) : ReflTransGen (Turn e) s s' := by
  cases h with
  | keep still work waits catalog => exact .single (turn_of_catalog catalog)
  | wake t failed woken =>
    obtain ⟨records, ready, rfl⟩ := ((wake_woken t failed).val woken).eq
    exact .single (turn_of_catalog rfl)
  | task moved => exact .single (turn_of_catalog moved.catalog)
  | load begins => exact .single (begins.turn rfl)
  | loadOwn handed begins =>
    exact .tail (.single (handed.ends.turn rfl rfl)) (begins.turn rfl)
  | loadFrom other begins reuse handed =>
    exact .tail (.single (begins.turn rfl)) (handed.ends.turn rfl rfl)
  | joinLoad | joinEviction | loseWork | ending | waitOwn | waitRelease | leave | leaveHeld =>
    exact .single (turn_of_catalog rfl)
  | endLoad still work found loads evictions loading ticket edit ending log =>
    rename_i e0 _ _ _ _ _
    have hmark := mark_edit edit ticket.found e
    refine .single ?_
    by_cases he : e = e0
    · subst he
      rw [if_pos rfl] at hmark
      have hbef := mark_found ticket.found
      rw [ticket.state] at hbef
      cases ending with
      | whole => exact .loaded hbef hmark log
      | failed => exact .failed hbef hmark log
      | lost => exact .lost (.inl rfl) hbef hmark log
    rw [if_neg he] at hmark
    exact .same hmark
  | evict catalog noLoad noEviction idle source found state unheld writeBack edit ticket waiters
      asked =>
    rename_i e0 _ _ _ _
    have hmark := mark_edit edit found e
    refine .single ?_
    by_cases he : e = e0
    · subst he
      rw [if_pos rfl] at hmark
      have hbef := mark_found found
      rw [state] at hbef
      exact .evicts hbef hmark
    rw [if_neg he] at hmark
    exact .same hmark
  | evictOnce catalog noLoad noEviction idle found state unheld unmanaged edit record edit' =>
    rename_i e0 c r r'
    -- evicting and evicted in one call: the state between them
    let s1 : Scheduler :=
      { s with catalog := c, log := .evicting e0 (s.sources.find? e0) false false :: s.log }
    have hmark : s1.mark e = if e = e0 then
        some ((r.evicting false).view.state, (r.evicting false).view.preserved) else s.mark e :=
      mark_edit edit found e
    have hmark' : s'.mark e = if e = e0 then some (r'.view.state, r'.view.preserved)
        else s1.mark e :=
      mark_edit edit' (find_edit_self edit found) e
    by_cases he : e = e0
    · subst he
      rw [if_pos rfl] at hmark hmark'
      have hbef := mark_found found
      rw [state] at hbef
      rw [record.state, record.preserved] at hmark'
      exact .tail (.single (.evicts hbef hmark)) (.evicted hmark hmark' (by rw [catalog]; rfl))
    rw [if_neg he] at hmark hmark'
    exact .single (.same (hmark'.trans hmark))
  | endEviction ends => exact .single (ends.turn rfl rfl)
  | park still work found evictions none loads catalog =>
    exact .single (turn_of_catalog catalog)
  | submit asked leased prepared work running made cell absent opened =>
    exact .single (turn_alike (lease_alike leased) (by rw [opened]; rfl))
  | endWork found work running retired lease kept ends held =>
    rename_i op _ _ _ _ _ _ catalog _
    have halike : Catalog.Alike s.catalog catalog := by
      by_cases hheld : op.held = none
      · obtain ⟨lease, -, hrel⟩ := lease hheld
        exact release_alike hrel
      · exact kept hheld ▸ .refl _
    exact .single (turn_alike halike (by rw [ends]))
  | hold asked acquired used =>
    exact .single (turn_alike
      ((acquire_alike acquired).trans ((Catalog.recordUse_sat _ _).val used).2) rfl)
  | release found ending none used released =>
    exact .single (turn_alike
      (((Catalog.recordUse_sat _ _).val used).2.trans (release_alike released)) rfl)

theorem Ways.turns {own : Set Label} (h : Ways x own s k s' k') (hown : ∀ op, .catalog op ∉ own)
    (e : ExtentId) : ReflTransGen (Turn e) s s' := by
  induction h with
  | refl => exact .refl
  | tail _ hm ih =>
    cases hm with
    | move moved => exact ih.trans (moved.turns e)
    | finish | pop => exact ih.tail (turn_of_catalog rfl)
    | owner op may called asked => exact absurd asked (hown op)
    | register => exact ih.tail (turn_of_catalog (setSource_catalog _ _))

end Turns

/-! ## Whole contents -/

/-- **Contents are published only when whole.** In every world some run leads to:

    - behind every `resident` there is, since that load began, the succeeded and proven
      conclusion of a read of the source's whole range and, landed, of the copies out of the slot
      it was read into;
    - behind every `evicted` that preserves, since that eviction began, the succeeded and proven
      conclusion of the write of the place's whole range and, landed, of the copy-out into the
      slot it wrote from;
    - a load that ends as failed has undone every mapping of its own, and an eviction that is
      abandoned never unmapped;
    - and a step of the scheduler takes an extent from state to state only by `Turn`s, each ending
      with its event. -/
theorem reachable_whole {x : Config} {w : World} (h : Reachable x w) :
    (∀ e newer older, w.state.log = newer ++ .resident e :: older → LoadedWhole e older) ∧
    (∀ e newer older, w.state.log = newer ++ .evicted e true :: older → WrittenWhole e older) ∧
    (∀ e newer older, w.state.log = newer ++ .failed e :: older → LoadUndone e older) ∧
    (∀ e newer older, w.state.log = newer ++ .abandoned e :: older → EvictUntouched e older) ∧
    ∀ label w' e, label.ofOwner = false → step x w label = .ok (some w') →
      ReflTransGen (Turn e) w.state w'.state := by
  have hunb := h.fine.good.unbroken
  refine ⟨fun e newer older hlog => ?_, fun e newer older hlog => ?_, fun e newer older hlog => ?_,
    fun e newer older hlog => ?_, fun label w' e howner hstep => ?_⟩
  · exact resident_told (standing_before (hlog ▸ hunb e) rfl)
  · exact evicted_told (standing_before (hlog ▸ hunb e) rfl)
  · exact failed_told (standing_before (hlog ▸ hunb e) rfl)
  · exact abandoned_told (standing_before (hlog ▸ hunb e) rfl)
  have hleads := (h.fine.step label).val hstep w' rfl
  exact hleads.ways.turns (Label.ofOwner_not_mem howner) e

def loadedLabels : List Label :=
  pageInLabels ++ [.control .accepted, .control .accepted, .yield .wait .succeeded,
    .accept ⟨0, 1⟩ .accepted, .complete ⟨0, 1⟩ ⟨.succeeded, 2097152, true⟩, .harvest 4,
    .control .accepted]

theorem reachable_whole_loaded : ∃ w older,
    runLabels oneLane { state := initial oneLane } loadedLabels = some w ∧
      w.state.log = [] ++ .resident ⟨0, 1⟩ :: older ∧
      w.state.mark ⟨0, 1⟩ = some (.resident, false) ∧ LoadedWhole ⟨0, 1⟩ older := by
  have hrun : (runLabels oneLane { state := initial oneLane } loadedLabels).map
      (fun w => (w.state.log.head?, w.state.mark ⟨0, 1⟩)) =
        some (some (.resident ⟨0, 1⟩), some (.resident, false)) := by decide +kernel
  obtain ⟨w, hw, hboth⟩ := map_eq_some_iff.mp hrun
  obtain ⟨hhead, hmark⟩ := Prod.mk.inj hboth
  obtain ⟨older, holder⟩ := List.head?_eq_some_iff.mp hhead
  exact ⟨w, older, hw, holder, hmark,
    (reachable_whole (runLabels_reachable .start hw)).1 ⟨0, 1⟩ [] older holder⟩

end JitLlm.Scheduler
