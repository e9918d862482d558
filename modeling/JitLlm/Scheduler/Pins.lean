import JitLlm.Scheduler.Agreement

/-!
# Where a pinned extent is loaded

A captured graph names device addresses, so while it may replay, the places of the extents it
reads are pinned: `SetSource` refuses a source for a pinned extent unless `SamePlace` takes it for
the same place as the one before. What a load writes is decided by the source it began with:
where a direct read lands, or where the copies out of a slot go. So a pinned extent is loaded to
the same ranges for as long as `SamePlace` can tell ranges apart.

It cannot always: of a source in pieces it compares where each piece goes and its length, of one
range, landed or direct, only where it begins. What holds of every run is that as long as no
source is registered over a pinned one of the same place but another length, every load writes
the ranges of the source that was registered as the extent was pinned.
-/

namespace JitLlm.Scheduler

open Base Lib List
open Catalog hiding Operation Reachable

/-! ## Ranges -/

/-- The ranges of the extent's own memory that a load from the source writes, each where it begins
    and its length: where a direct read lands, or where the copies out of a slot go. -/
def PageSource.written (source : PageSource) : List (Nat × Nat) :=
  if source.landed then (source.copiesFrom 0).map fun c => (c.destination, c.size)
  else [(source.read.memory, source.read.length)]

/-- What a command of a load writes of the extent's own memory: nothing, if it reads into a
    slot. -/
def Command.written (landed : Bool) : Command → List (Nat × Nat)
  | .copies work => work.copies.map fun c => (c.destination, c.size)
  | .read spec => if landed then [] else [(spec.memory, spec.length)]
  | _ => []

def Load.writing (l : Load) : Bool :=
  if l.source.landed then l.stage = .copying else l.stage = .reading

/-- The one thing `SamePlace` does not compare: the length, where there are no pieces. -/
def keepsLength (old source : PageSource) : Prop :=
  source.pieces = [] → source.read.length = old.read.length

theorem piecesValid_direct {source : PageSource} (h : piecesValid source = true)
    (hdir : source.landed = false) : source.pieces = [] := by
  simp only [piecesValid, Bool.and_eq_true, Bool.or_eq_true, hdir, Bool.false_and,
    Bool.false_eq_true, or_false] at h
  simpa using h.1.2

theorem pieces_ranges : ∀ (a b : List LandedPiece), a.length = b.length →
    ((a.zip b).all fun p => p.1.destination = p.2.destination && p.1.length = p.2.length) = true →
    a.map (fun p => (p.destination, p.length)) = b.map fun p => (p.destination, p.length)
  | [], [], _, _ => rfl
  | p :: ps, q :: qs, hlength, hall => by
    simp only [zip_cons_cons, all_cons, Bool.and_eq_true, decide_eq_true_eq] at hall
    obtain ⟨⟨hdes, hlen⟩, hrest⟩ := hall
    rw [map_cons, map_cons, hdes, hlen, pieces_ranges ps qs (by simpa using hlength) hrest]
  | [], _ :: _, hlength, _ => by simp at hlength
  | _ :: _, [], hlength, _ => by simp at hlength

theorem samePlace_written {old source : PageSource} (hsame : samePlace old source = true)
    (hpieces : piecesValid source = true) (hlength : keepsLength old source) :
    source.written = old.written := by
  simp only [samePlace, Bool.and_eq_true, decide_eq_true_eq] at hsame
  obtain ⟨⟨-, hlan⟩, hplace⟩ := hsame
  unfold PageSource.written
  rw [hlan] at hplace ⊢
  cases hl : source.landed with
  | false =>
    have hlen := hlength (piecesValid_direct hpieces hl)
    simp only [hl, Bool.not_false, if_true, decide_eq_true_eq] at hplace
    simp [hplace, hlen]
  | true =>
    simp only [hl, Bool.not_true, Bool.false_eq_true, if_false, Bool.and_eq_true,
      decide_eq_true_eq] at hplace
    obtain ⟨⟨hdes, hcount⟩, heach⟩ := hplace
    unfold PageSource.copiesFrom
    cases hp : source.pieces with
    | nil =>
      have hold : old.pieces = [] := by
        rw [hp] at hcount
        exact eq_nil_of_length_eq_zero hcount
      simp [hold, hdes, hlength hp]
    | cons =>
      rcases hq : old.pieces with _ | _
      · rw [hp, hq] at hcount
        simp at hcount
      rw [hp, hq] at hcount heach
      have hran := pieces_ranges _ _ hcount heach
      simp only [if_true, map_map]
      exact hran.symm

/-! ## Loads in flight -/

def Filed (s : Scheduler) : Prop :=
  ∀ e p, phase e s.log = .loading p →
    (∃ l, s.loads.find? e = some l) ∧ s.sources.find? e = some p.source

theorem settle_source (p : LoadPhase) (command : Command) (outcome : Outcome) (bytes : Nat) :
    (p.settle command outcome bytes).source = p.source := by
  unfold LoadPhase.settle
  repeat' split
  all_goals rfl

theorem phase_loading {e : ExtentId} {event : Event} {log : List Event} {p : LoadPhase}
    (h : phase e (event :: log) = .loading p) :
    (∃ preserved reuse, event = .begun e p.source preserved reuse) ∨
      ∃ q, phase e log = .loading q ∧ q.source = p.source ∧
        (event.about = some e → event.staged = true) := by
  by_cases habout : event.about = some e
  · rw [phase_cons log habout] at h
    cases hphase : phase e log with
    | idle =>
      rw [hphase] at h
      cases event <;> simp [Phase.step] at h
      obtain rfl := h
      simp only [Event.about, Option.some.injEq] at habout
      exact .inl ⟨_, _, by rw [habout]⟩
    | loading q =>
      rw [hphase] at h
      have hstep : q.step event = .loading p := h
      refine .inr ⟨q, rfl, ?_⟩
      unfold LoadPhase.step at hstep
      split at hstep
      · split at hstep
        · cases hstep
          exact ⟨rfl, fun _ => rfl⟩
        · cases hstep
      · split at hstep
        · cases hstep
        split at hstep
        · cases hstep
          exact ⟨(settle_source _ _ _ _).symm, fun _ => rfl⟩
        · cases hstep
      all_goals (try split at hstep) <;> cases hstep
    | evicting q =>
      rw [hphase] at h
      have hstep : q.step event = .loading p := h
      unfold EvictPhase.step at hstep
      repeat' split at hstep
      all_goals cases hstep
    | lost | broken =>
      rw [hphase] at h
      cases event <;> cases h
  rw [phase_cons_of_ne log habout] at h
  exact .inr ⟨p, h, rfl, fun hc => absurd hc habout⟩

theorem phase_loading_append {e : ExtentId} {log : List Event} {p : LoadPhase} :
    ∀ {events : List Event}, phase e (events ++ log) = .loading p →
      (∃ preserved reuse, .begun e p.source preserved reuse ∈ events) ∨
        ∃ q, phase e log = .loading q ∧ q.source = p.source ∧
          ∀ event ∈ events, event.about = some e → event.staged = true := by
  intro events
  induction events generalizing p with
  | nil =>
    intro h
    exact .inr ⟨p, h, rfl, fun _ hmem => absurd hmem not_mem_nil⟩
  | cons event rest ih =>
    intro h
    rcases phase_loading h with ⟨preserved, reuse, rfl⟩ | ⟨q, hq, hsource, hstaged⟩
    · exact .inl ⟨preserved, reuse, mem_cons_self⟩
    rcases ih hq with ⟨preserved, reuse, hmem⟩ | ⟨q', hq', hsource', hrest⟩
    · exact .inl ⟨preserved, reuse, mem_cons_of_mem _ (hsource ▸ hmem)⟩
    refine .inr ⟨q', hq', hsource'.trans hsource, fun event' hmem => ?_⟩
    rcases List.mem_cons.mp hmem with rfl | hmem
    · exact hstaged
    · exact hrest event' hmem

section Files

variable {x : Config} {s s' : Scheduler} {k k' : List Debt} {e : ExtentId} {events : List Event}

theorem Filed.files (h : Filed s) (hf : Files s s' events) (hsour : s'.sources = s.sources) :
    Filed s' := by
  intro e p hp
  rw [hf.log] at hp
  rw [hsour]
  rcases phase_loading_append hp with ⟨preserved, reuse, hmem⟩ | ⟨q, hq, hsource, hstaged⟩
  · exact hf.begun e p.source preserved reuse hmem
  obtain ⟨⟨l, hl⟩, hs⟩ := h e q hq
  refine ⟨?_, hsource ▸ hs⟩
  rcases hf.kept e l hl with hl' | ⟨event, hmem, habout, hnot⟩
  · exact hl'
  · exact nomatch (hstaged event hmem habout).symm.trans hnot

theorem Filed.way {own : Set Label} (h : Filed s) (hw : Way x own s k s' k') : Filed s' := by
  cases hw with
  | move moved =>
    obtain ⟨events, hf⟩ := moved.files
    exact h.files hf moved.parts.1
  | finish =>
    exact h.files (.of rfl (nil_append _).symm (by simp)) rfl
  | pop => exact h.files (.of rfl (nil_append _).symm (by simp)) rfl
  | owner op may called =>
    rcases ownerCall_log called with ⟨catalog, rfl, -⟩ | ⟨e, catalog, -, -, rfl⟩
    · exact h.files (.of rfl (nil_append _).symm (by simp)) rfl
    · exact h.files (.of rfl (List.singleton_append.symm) (by simp)) rfl
  | register accepted asked =>
    rename_i e source
    rcases setSource_cases x s e source with ⟨error, heq⟩ | ⟨⟨view, ha⟩, heq⟩
    · rw [heq]
      exact h
    rw [heq]
    intro e' p hp
    obtain ⟨⟨l, hl⟩, hs⟩ := h e' p hp
    -- A source is registered only for an extent that is not loading.
    have hne : e' ≠ e := by
      rintro rfl
      cases ha.load.symm.trans hl
    exact ⟨⟨l, hl⟩, (OrdMap.find?_insert_ne hne).trans hs⟩

theorem Filed.ways {own : Set Label} (h : Filed s) (hw : Ways x own s k s' k') : Filed s' := by
  induction hw with
  | refl => exact h
  | tail _ hstep ih => exact ih.way hstep

end Files

section Runs

variable {x : Config} {w w₀ w' : World} {e : ExtentId} {keep : Scheduler → Label → Prop}

theorem Reachable.filed (h : Reachable x w) : Filed w.state := by
  induction h with
  | start => exact fun e p hp => by cases hp
  | step label hreach hstep ih =>
    exact ih.ways ((hreach.fine.step label).val hstep _ rfl).ways

theorem Reachable.source (h : Reachable x w) {l : Load} (hl : w.state.loads.find? e = some l) :
    w.state.sources.find? e = some l.source := by
  obtain ⟨p, hload, -⟩ := (h.fine.good.load e l (by simp) hl).loading
  obtain ⟨-, hsource⟩ := h.filed e p hload.phase
  rw [hsource, hload.source]

/-! ## Pinned -/

def Pinned (s : Scheduler) (e : ExtentId) : Prop := ∃ n, s.pinned.find? e = some n ∧ 0 < n

/-- A `SetSource` of the extent whose source passes its tests keeps the length of one without
    pieces. -/
def Label.keepsLength (x : Config) (s : Scheduler) (e : ExtentId) : Label → Prop
  | .setSource e' source => e' = e → ∀ old view, s.sources.find? e = some old →
      Accepted x s e source view → Scheduler.keepsLength old source
  | _ => True

/-- The worlds a run leads to while the extent stays pinned, every label kept to `keep`. -/
inductive PinnedRun (x : Config) (e : ExtentId) (keep : Scheduler → Label → Prop) (w : World) :
    World → Prop
  | start (pinned : Pinned w.state e) : PinnedRun x e keep w w
  | step {w₁ w₂ : World} (label : Label) (before : PinnedRun x e keep w w₁)
      (keeps : keep w₁.state label) (stepped : step x w₁ label = .ok (some w₂))
      (pinned : Pinned w₂.state e) : PinnedRun x e keep w w₂

theorem PinnedRun.reachable (h : PinnedRun x e keep w w') (hw : Reachable x w) : Reachable x w' := by
  induction h with
  | start => exact hw
  | step label before keeps stepped pinned ih => exact .step label ih stepped

theorem PinnedRun.pinned (h : PinnedRun x e keep w w') : Pinned w'.state e := by
  cases h with
  | start pinned | step label before keeps stepped pinned => exact pinned

theorem Ways.source {own : Set Label} {s s' : Scheduler} {k k' : List Debt}
    (h : Ways x own s k s' k') (hnone : ∀ source, .setSource e source ∉ own) :
    s'.sources.find? e = s.sources.find? e := by
  induction h with
  | refl => rfl
  | tail _ hw ih =>
    rcases hw.sources with heq | ⟨e', source, view, hmem, -, rfl⟩
    · rw [heq, ih]
    have hne : e ≠ e' := by
      rintro rfl
      exact hnone source hmem
    exact (OrdMap.find?_insert_ne hne).trans ih

theorem step_written {label : Label} {source : PageSource} (h : Reachable x w)
    (hpin : Pinned w.state e) (hkeeps : label.keepsLength x w.state e)
    (hstep : step x w label = .ok (some w')) (hs : w.state.sources.find? e = some source) :
    ∃ source', w'.state.sources.find? e = some source' ∧ source'.written = source.written := by
  by_cases hlabel : ∃ source', label = .setSource e source'
  · obtain ⟨source', rfl⟩ := hlabel
    simp only [Scheduler.step] at hstep
    split at hstep
    · cases Except.ok.inj hstep
      rcases setSource_cases x w.state e source' with ⟨error, heq⟩ | ⟨⟨view, ha⟩, heq⟩
      · exact ⟨source, by rw [heq]; exact hs, rfl⟩
      obtain ⟨n, hn, -⟩ := hpin
      obtain ⟨old, hold, hsame⟩ := ha.pinned (by simp [OrdMap.contains, hn])
      cases hs.symm.trans hold
      refine ⟨source', by rw [heq]; exact OrdMap.find?_insert_self _ _ _, ?_⟩
      exact samePlace_written hsame (validSource_sound ha.valid).pieces
        (hkeeps rfl source view hs ha)
    · cases hstep
  have hways := ((h.fine.step label).val hstep _ rfl).ways
  refine ⟨source, (hways.source fun source' hmem => hlabel ⟨source', ?_⟩).trans hs, rfl⟩
  exact Eq.symm hmem

theorem PinnedRun.written {source : PageSource} (h : PinnedRun x e (Label.keepsLength x · e) w w')
    (hw : Reachable x w) (hs : w.state.sources.find? e = some source) :
    ∃ source', w'.state.sources.find? e = some source' ∧ source'.written = source.written := by
  induction h with
  | start => exact ⟨source, hs, rfl⟩
  | step label before keeps stepped pinned ih =>
    obtain ⟨source1, hs1, hw1⟩ := ih
    obtain ⟨source2, hs2, hw2⟩ := step_written (before.reachable hw) before.pinned keeps stepped hs1
    exact ⟨source2, hs2, hw2.trans hw1⟩

end Runs

/-! ## Two runs -/

end JitLlm.Scheduler
