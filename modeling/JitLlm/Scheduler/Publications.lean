import JitLlm.Scheduler.Words
import JitLlm.Lib.Confluence
import JitLlm.Lib.Sat

/-!
# The order of results does not matter

`Record` is what a mailbox holds for one generation. A publication for that generation is a step
on it (`Record.publish`) and any other publication is none (`publish_spec`). The steps commute up
to `Agree`, which is all that `Harvest` and `Close` see, so any two orders of the same
publications agree.
-/

namespace JitLlm.Completions

open Base Lib List
open Scheduler hiding Mailbox CompletionBoard

/-! ## What is recorded -/

structure Record where
  acceptance : Acceptance
  result : Option (Outcome × Nat)
  proof : Bool
  contradictory : Bool
deriving DecidableEq

/-- A publication that `Accept`'s own check lets through, or a terminal result. -/
inductive Publication
  | accept (acceptance : Acceptance) (resolved : acceptance ≠ .none)
  | complete (terminal : Terminal)

namespace Record

variable {v w : Record}

def accept (v : Record) (acceptance : Acceptance) : Record :=
  if v.acceptance = .none then { v with acceptance }
  else if v.acceptance = acceptance then v
  else { v with contradictory := true }

def complete (v : Record) (terminal : Terminal) : Record :=
  match v.result with
  | none => { v with
      result := some (terminal.outcome, terminal.bytes)
      proof := v.proof || terminal.noFurtherAccess }
  | some recorded =>
    if recorded = (terminal.outcome, terminal.bytes) then
      { v with proof := v.proof || terminal.noFurtherAccess }
    else { v with contradictory := true }

def publish (v : Record) : Publication → Record
  | .accept acceptance _ => v.accept acceptance
  | .complete terminal => v.complete terminal

theorem accept_eq (v : Record) (a : Acceptance) : v.accept a = { v with
      acceptance := if v.acceptance = .none then a else v.acceptance
      contradictory := v.contradictory || (v.acceptance ≠ .none && v.acceptance ≠ a) } := by
  unfold accept
  split
  next hnone =>
    simp [hnone]
  rename_i hsome
  split
  next heq =>
    subst heq
    simp [hsome]
  rename_i hne
  simp [hsome, hne]

theorem complete_eq (v : Record) (t : Terminal) : v.complete t = { v with
      result := some (v.result.getD (t.outcome, t.bytes))
      proof := v.proof ||
        (v.result.getD (t.outcome, t.bytes) = (t.outcome, t.bytes) && t.noFurtherAccess)
      contradictory := v.contradictory ||
        v.result.getD (t.outcome, t.bytes) ≠ (t.outcome, t.bytes) } := by
  unfold complete
  rcases hr : v.result with _ | recorded
  · simp
  simp only [Option.getD_some]
  split
  next heq =>
    simp [heq]
  rename_i hne
  simp [hne]

/-- Contradictory, as `Harvest` reports it. -/
def contradicted (v : Record) : Bool :=
  v.contradictory || (v.acceptance = .notStarted && v.result.isSome)

/-- Equal as far as `Harvest` and `Close` can tell. -/
def Agree (v w : Record) : Prop :=
  v.contradicted = w.contradicted ∧ (v.contradicted = false → v = w)

theorem agree_equivalence : Equivalence Agree where
  refl _ := ⟨rfl, fun _ => rfl⟩
  symm h := ⟨h.1.symm, fun hw => (h.2 (h.1.trans hw)).symm⟩
  trans h h' := ⟨h.1.trans h'.1, fun hv => (h.2 hv).trans (h'.2 (h.1 ▸ hv))⟩

theorem agree_of_contradicted (hv : v.contradicted = true) (hw : w.contradicted = true) :
    Agree v w := ⟨hv.trans hw.symm, fun h => nomatch hv.symm.trans h⟩

theorem contradicted_publish (h : v.contradicted = true) (p : Publication) :
    (v.publish p).contradicted = true := by
  simp only [contradicted, Bool.or_eq_true, Bool.and_eq_true, decide_eq_true_eq] at h
  cases p with
  | accept =>
    rw [publish, accept_eq]
    rcases h with h | ⟨hnot, hres⟩
    · simp [contradicted, h]
    · simp [contradicted, hnot, hres]
  | complete =>
    rw [publish, complete_eq]
    rcases h with h | ⟨hnot, hres⟩
    · simp [contradicted, h]
    · simp [contradicted, hnot]

theorem agree_publish (p : Publication) (h : Agree v w) : Agree (v.publish p) (w.publish p) := by
  cases hv : v.contradicted with
  | true =>
    exact agree_of_contradicted (contradicted_publish hv p)
      (contradicted_publish (h.1.symm.trans hv) p)
  | false =>
    rw [h.2 hv]
    exact agree_equivalence.refl _

theorem accept_comm {a c : Acceptance} (ha : a ≠ .none) (hc : c ≠ .none) :
    Agree ((v.accept a).accept c) ((v.accept c).accept a) := by
  by_cases hac : a = c
  · subst hac
    exact agree_equivalence.refl _
  by_cases hnone : v.acceptance = .none
  · refine agree_of_contradicted ?_ ?_
    · simp [accept_eq, hnone, ha, hac, contradicted]
    · simp [accept_eq, hnone, hc, Ne.symm hac, contradicted]
  have heq : (v.accept a).accept c = (v.accept c).accept a := by
    simp only [accept_eq, hnone, if_false, ne_eq, not_false_eq_true, decide_true, Bool.true_and]
    rw [Bool.or_right_comm]
  rw [heq]
  exact agree_equivalence.refl _

theorem accept_complete_comm (a : Acceptance) (t : Terminal) :
    (v.accept a).complete t = (v.complete t).accept a := by
  simp only [accept_eq, complete_eq]
  rw [Bool.or_right_comm]

theorem complete_comm (t u : Terminal) :
    Agree ((v.complete t).complete u) ((v.complete u).complete t) := by
  cases hr : v.result with
  | none =>
    by_cases htu : (t.outcome, t.bytes) = (u.outcome, u.bytes)
    · have heq : (v.complete t).complete u = (v.complete u).complete t := by
        simp only [complete_eq, hr, Option.getD_none, Option.getD_some, htu, decide_true,
          Bool.true_and]
        rw [Bool.or_right_comm]
      rw [heq]
      exact agree_equivalence.refl _
    have hut : ¬ (u.outcome, u.bytes) = (t.outcome, t.bytes) := fun h => htu h.symm
    refine agree_of_contradicted ?_ ?_
    · simp only [complete_eq, hr, Option.getD_none, Option.getD_some, contradicted, ne_eq, htu,
        not_false_eq_true, decide_true, Bool.or_true, Bool.true_or]
    simp only [complete_eq, hr, Option.getD_none, Option.getD_some, contradicted, ne_eq, hut,
      not_false_eq_true, decide_true, Bool.or_true, Bool.true_or]
  | some =>
    have heq : (v.complete t).complete u = (v.complete u).complete t := by
      simp only [complete_eq, hr, Option.getD_some]
      rw [Bool.or_right_comm, Bool.or_right_comm v.contradictory]
    rw [heq]
    exact agree_equivalence.refl _

theorem publish_comm (v : Record) (p q : Publication) :
    Agree ((v.publish p).publish q) ((v.publish q).publish p) := by
  cases p with
  | accept a ha =>
    cases q with
    | accept c hc => exact accept_comm ha hc
    | complete =>
      simp only [publish, accept_complete_comm]
      exact agree_equivalence.refl _
  | complete t =>
    cases q with
    | accept =>
      simp only [publish, accept_complete_comm]
      exact agree_equivalence.refl _
    | complete u => exact complete_comm t u

/-- What `Close` asks of a record. -/
def closes (v : Record) : Bool :=
  !v.contradictory && match v.acceptance with
    | .none => false
    | .notStarted => v.result.isNone
    | .accepted | .unknown => v.result.isSome && v.proof

theorem Agree.closes (h : Agree v w) : v.closes = w.closes := by
  have hnever : ∀ u : Record, u.contradicted = true → u.closes = false := by
    intro u hu
    simp only [contradicted, Bool.or_eq_true, Bool.and_eq_true, decide_eq_true_eq] at hu
    rcases hu with hu | ⟨hnot, hres⟩
    · simp [Record.closes, hu]
    · simp [Record.closes, hnot, hres]
  cases hv : v.contradicted with
  | true => rw [hnever v hv, hnever w (h.1.symm.trans hv)]
  | false => rw [h.2 hv]

theorem publish_perm {ps qs : List Publication} (h : ps.Perm qs) (v : Record) :
    Agree (ps.foldl publish v) (qs.foldl publish v) :=
  foldl_perm agree_equivalence agree_publish publish_comm h v

end Record
/-! ## The words of a mailbox -/

namespace Mailbox

variable {m : Mailbox} {g : Nat} {V : Type}

/-- The words are all of the mailbox's generation, and none is being written; one that is retired
    is closed for good, with something recorded in every word a publication could take. -/
structure Wellformed (m : Mailbox) : Prop where
  positive : 0 < m.generation
  acceptance : m.acceptance.generation = m.generation
  terminal : m.terminal.generation = m.generation
  settled : m.terminal.value ≠ .writing
  proof : m.proof.generation = m.generation
  contradictory : m.contradictory.generation = m.generation
  retired : m.contradictory.value = .retired →
    m.isOpen = false ∧ m.acceptance.value ≠ .none ∧ m.terminal.value ≠ .empty

def record (m : Mailbox) : Record where
  acceptance := m.acceptance.value
  result := match m.terminal.value with
    | .written outcome => some (outcome, m.bytes)
    | _ => none
  proof := m.proof.value
  contradictory := m.contradictory.value = .contradicted

/-- `Accept` or `Complete` on the mailbox. -/
def publish (m : Mailbox) (generation : Nat) : Publication → Checked (Published × Mailbox × Bool)
  | .accept acceptance _ => .ok (m.accept generation acceptance)
  | .complete terminal => m.complete generation terminal

theorem word_ext {w w' : Word V} (hg : w.generation = w'.generation)
    (hv : w.value = w'.value) : w = w' := by
  cases w
  cases w'
  simp_all

theorem eq_word_iff {w : Word V} {x : V} (hg : w.generation = g) : w = ⟨g, x⟩ ↔ w.value = x :=
  ⟨fun h => by rw [h], fun h => word_ext hg h⟩

theorem ne_word {w : Word V} {x : V} (hg : w.generation ≠ g) : w ≠ ⟨g, x⟩ := fun h => hg (by rw [h])

theorem Wellformed.stale (h : m.Wellformed)
    (hstale : g ≠ m.generation ∨ m.contradictory.value = .retired) (p : Publication) :
    m.publish g p = .ok (.stale, m, false) := by
  by_cases hg : g = m.generation
  · subst hg
    have hret := hstale.resolve_left fun hne => hne rfl
    obtain ⟨-, hacc, hter⟩ := h.retired hret
    have hmark : m.isRetired m.generation = true :=
      decide_eq_true ((eq_word_iff h.contradictory).mpr hret)
    cases p with
    | accept =>
      have hne : m.acceptance ≠ ⟨m.generation, .none⟩ := fun heq =>
        hacc ((eq_word_iff h.acceptance).mp heq)
      simp [publish, accept, hne, hmark]
    | complete =>
      have hne : m.terminal ≠ ⟨m.generation, .empty⟩ := fun heq =>
        hter ((eq_word_iff h.terminal).mp heq)
      simp only [publish, complete, if_neg hne, h.terminal, ne_eq, not_true_eq_false, if_false,
        h.settled, hmark, if_true]
      split <;> rfl
  cases p with
  | accept =>
    have hne : m.acceptance.generation ≠ g := fun heq => hg (heq.symm.trans h.acceptance)
    simp [publish, accept, ne_word hne, hne]
  | complete =>
    have hne : m.terminal.generation ≠ g := fun heq => hg (heq.symm.trans h.terminal)
    simp [publish, complete, ne_word hne, hne]

/-- What a publication leaves of the mailbox beside its words. -/
structure Keeps (m m' : Mailbox) : Prop where
  isOpen : m'.isOpen = m.isOpen
  generation : m'.generation = m.generation
  queued : m'.queued = m.queued

/-- What a publication for the mailbox's own generation does: `after` in its words, and announced
    if anything changed. -/
structure Recorded (m : Mailbox) (after : Record) (y : Published × Mailbox × Bool) : Prop where
  wellformed : y.2.1.Wellformed
  keeps : Keeps m y.2.1
  record : y.2.1.record = after
  marker : y.2.1.contradictory.value ≠ .retired
  silent : y.2.2 = false → y.2.1 = m

section

variable (h : m.Wellformed)
include h

theorem Wellformed.contradict (hlive : m.contradictory.value ≠ .retired) :
    Recorded m { m.record with contradictory := true } (m.contradict m.generation) := by
  unfold Mailbox.contradict
  by_cases hclean : m.contradictory.value = .clean
  · rw [if_pos ((eq_word_iff h.contradictory).mpr hclean)]
    exact ⟨⟨h.positive, h.acceptance, h.terminal, h.settled, h.proof, rfl, nofun⟩,
      ⟨rfl, rfl, rfl⟩, by simp [record], by simp, nofun⟩
  have hmark : m.contradictory.value = .contradicted := by
    cases hv : m.contradictory.value with
    | clean => exact absurd hv hclean
    | contradicted => rfl
    | retired => exact absurd hv hlive
  rw [if_neg fun heq => hclean ((eq_word_iff h.contradictory).mp heq),
    if_pos ((eq_word_iff h.contradictory).mpr hmark)]
  exact ⟨h, ⟨rfl, rfl, rfl⟩, by simp [record, hmark], hlive, fun _ => rfl⟩

theorem Wellformed.accept (hlive : m.contradictory.value ≠ .retired)
    (a : Acceptance) : Recorded m (m.record.accept a) (m.accept m.generation a) := by
  unfold Mailbox.accept
  by_cases hnone : m.acceptance.value = .none
  · rw [if_pos ((eq_word_iff h.acceptance).mpr hnone)]
    refine ⟨⟨h.positive, rfl, h.terminal, h.settled, h.proof, h.contradictory,
      fun heq => absurd heq hlive⟩, ⟨rfl, rfl, rfl⟩, ?_, hlive, nofun⟩
    simp [record, Record.accept, hnone]
  have hret : m.isRetired m.generation = false :=
    decide_eq_false fun heq => hlive ((eq_word_iff h.contradictory).mp heq)
  rw [if_neg fun heq => hnone ((eq_word_iff h.acceptance).mp heq),
    if_neg (by simp [h.acceptance, hret])]
  by_cases hsame : m.acceptance.value = a
  · rw [if_pos hsame]
    exact ⟨h, ⟨rfl, rfl, rfl⟩, by simp [record, Record.accept, hsame], hlive, fun _ => rfl⟩
  rw [if_neg hsame]
  have hrec : m.record.accept a = { m.record with contradictory := true } := by
    simp [Record.accept, record, hnone, hsame]
  rw [hrec]
  exact h.contradict hlive

theorem Wellformed.prove : (m.proof.value = false ∧ m.prove m.generation
        = (true, { m with proof := ⟨m.generation, true⟩ })) ∨
    (m.proof.value = true ∧ m.prove m.generation = (false, m)) := by
  unfold Mailbox.prove
  cases hv : m.proof.value with
  | false => exact Or.inl ⟨rfl, if_pos ((eq_word_iff h.proof).mpr hv)⟩
  | true =>
    refine Or.inr ⟨rfl, if_neg fun heq => ?_⟩
    exact absurd (hv.symm.trans ((eq_word_iff h.proof).mp heq)) (by simp)

theorem Wellformed.complete (hlive : m.contradictory.value ≠ .retired) (t : Terminal) :
    ∃ y, m.complete m.generation t = .ok y ∧ Recorded m (m.record.complete t) y := by
  unfold Mailbox.complete
  cases hter : m.terminal.value with
  | writing => exact absurd hter h.settled
  | empty =>
    rw [if_pos ((eq_word_iff h.terminal).mpr hter)]
    refine ⟨_, rfl, ⟨h.positive, h.acceptance, rfl, by simp, ?_, h.contradictory,
      fun heq => absurd heq hlive⟩, ⟨rfl, rfl, rfl⟩, ?_, hlive, nofun⟩
    · show (if _ then _ else _ : Word Bool).generation = _
      split
      · rfl
      · exact h.proof
    have hproof : (m.proof = ⟨m.generation, false⟩) ↔ m.proof.value = false := eq_word_iff h.proof
    cases hv : m.proof.value <;> cases hn : t.noFurtherAccess <;>
      simp [record, Record.complete, hter, hproof, hv, hn]
  | written outcome =>
    have hret : m.isRetired m.generation = false :=
      decide_eq_false fun heq => hlive ((eq_word_iff h.contradictory).mp heq)
    have hempty : m.terminal ≠ ⟨m.generation, .empty⟩ := fun heq =>
      absurd (hter.symm.trans ((eq_word_iff h.terminal).mp heq)) (by simp)
    have hread : m.readTerminal m.generation = some
        { outcome, bytes := m.bytes, noFurtherAccess := m.proof = ⟨m.generation, true⟩ } := by
      simp [readTerminal, h.terminal, hter]
    have hres : m.record.result = some (outcome, m.bytes) := by simp [record, hter]
    rw [if_neg hempty, if_neg (by simp [h.terminal]), if_neg (by simp), hread]
    simp only [hret, Bool.false_eq_true, if_false]
    by_cases hsame : outcome = t.outcome ∧ m.bytes = t.bytes
    · have hcom : m.record.complete t
          = { m.record with proof := m.record.proof || t.noFurtherAccess } := by
        simp [Record.complete, hres, hsame.1, hsame.2]
      rw [if_pos hsame, hcom]
      rcases hn : t.noFurtherAccess with _ | _
      · refine ⟨_, rfl, h, ⟨rfl, rfl, rfl⟩, ?_, hlive, fun _ => rfl⟩
        simp [record]
      simp only [if_true]
      rcases h.prove with ⟨hv, heq⟩ | ⟨hv, heq⟩
      · rw [heq]
        exact ⟨_, rfl, ⟨h.positive, h.acceptance, h.terminal, h.settled, rfl, h.contradictory,
          fun heq => absurd heq hlive⟩, ⟨rfl, rfl, rfl⟩, by simp [record], hlive,
          nofun⟩
      rw [heq]
      exact ⟨_, rfl, h, ⟨rfl, rfl, rfl⟩, by simp [record, hv], hlive, fun _ => rfl⟩
    have hcom : m.record.complete t = { m.record with contradictory := true } := by
      have hne : ¬ (outcome, m.bytes) = (t.outcome, t.bytes) := fun heq =>
        hsame (Prod.mk.inj heq)
      simp [Record.complete, hres, hne]
    rw [if_neg hsame, hcom]
    exact ⟨_, rfl, h.contradict hlive⟩

theorem Wellformed.publish (hlive : m.contradictory.value ≠ .retired) (p : Publication) :
    ∃ y, m.publish m.generation p = .ok y ∧ Recorded m (m.record.publish p) y := by
  cases p with
  | accept a => exact ⟨_, rfl, h.accept hlive a⟩
  | complete t => exact h.complete hlive t

end

/-! ## `Close` -/

theorem Wellformed.readTerminal (h : m.Wellformed) :
    m.readTerminal m.generation = m.record.result.map fun r =>
      { outcome := r.1, bytes := r.2, noFurtherAccess := m.record.proof } := by
  have hproof : decide (m.proof = ⟨m.generation, true⟩) = m.proof.value := by
    simp only [eq_word_iff h.proof, Bool.decide_eq_true]
  unfold Mailbox.readTerminal record
  rw [if_neg (by simp [h.terminal])]
  cases m.terminal.value with
  | empty | writing => rfl
  | written => simp [hproof]

theorem Wellformed.observation (h : m.Wellformed) (i : Nat) :
    m.observation i = { operation := ⟨i, m.generation⟩, acceptance := m.record.acceptance
                        terminal := m.record.result.map fun r =>
                          { outcome := r.1, bytes := r.2, noFurtherAccess := m.record.proof }
                        contradictory := m.record.contradicted } := by
  unfold Mailbox.observation
  simp only [h.acceptance, if_true, h.readTerminal, Observation.mk.injEq, true_and]
  refine ⟨rfl, ?_⟩
  simp only [eq_word_iff h.contradictory, Option.isSome_map]
  rfl

def closed (m : Mailbox) : Mailbox :=
  if m.generation = uint32Max then
    { m with
      contradictory := ⟨m.generation, .retired⟩
      isOpen := false
      terminal := if m.acceptance = ⟨m.generation, .notStarted⟩
        then ⟨m.generation, .written .succeeded⟩ else m.terminal }
  else
    { m with
      contradictory := ⟨m.generation + 1, .clean⟩
      isOpen := false
      generation := m.generation + 1
      terminal := ⟨m.generation + 1, .empty⟩
      proof := ⟨m.generation + 1, false⟩
      acceptance := ⟨m.generation + 1, .none⟩ }

theorem Wellformed.reconciled (h : m.Wellformed) : m.reconciled = match m.record.acceptance with
      | .none => false
      | .notStarted => m.record.result.isNone
      | .accepted | .unknown => m.record.result.isSome && m.record.proof := by
  have hnot : (m.acceptance = ⟨m.generation, .notStarted⟩) ↔ m.acceptance.value = .notStarted :=
    eq_word_iff h.acceptance
  have hany : (m.readTerminal m.generation).any (·.noFurtherAccess)
      = (m.record.result.isSome && m.record.proof) := by
    rw [h.readTerminal]
    cases m.record.result <;> simp
  have hnone : (m.readTerminal m.generation).isNone = m.record.result.isNone := by
    rw [h.readTerminal]
    cases m.record.result <;> rfl
  unfold Mailbox.reconciled
  simp only [hnot, hany, hnone, h.acceptance]
  show _ = match m.acceptance.value with
    | .none => false
    | .notStarted => m.record.result.isNone
    | .accepted | .unknown => m.record.result.isSome && m.record.proof
  cases m.acceptance.value <;> simp

theorem Wellformed.close (h : m.Wellformed) (hlive : m.contradictory.value ≠ .retired) :
    m.close = if m.record.closes then (true, m.closed) else (false, m) := by
  have hnot : (m.acceptance = ⟨m.generation, .notStarted⟩) ↔ m.acceptance.value = .notStarted :=
    eq_word_iff h.acceptance
  have hclean : (m.contradictory = ⟨m.generation, .clean⟩) ↔ m.record.contradictory = false := by
    rw [eq_word_iff h.contradictory]
    cases hv : m.contradictory.value with
    | clean | contradicted => simp [record, hv]
    | retired => exact absurd hv hlive
  -- An operation that is reconciled as never started has an empty terminal word.
  have hempty : m.acceptance.value = .notStarted → m.reconciled = true →
      m.terminal = ⟨m.generation, .empty⟩ := by
    intro hns hrec
    rw [h.reconciled, show m.record.acceptance = .notStarted from hns] at hrec
    refine (eq_word_iff h.terminal).mpr ?_
    cases hv : m.terminal.value with
    | empty => rfl
    | writing => exact absurd hv h.settled
    | written => simp [record, hv] at hrec
  have hcloses : m.record.closes = (!m.record.contradictory && m.reconciled) := by
    rw [h.reconciled]
    rfl
  unfold Mailbox.close
  rw [hcloses]
  rcases hrec : m.reconciled with _ | _
  · simp
  simp only [Bool.not_true, Bool.false_eq_true, if_false, Bool.and_true, decide_eq_true_eq, hnot]
  by_cases hns : m.acceptance.value = .notStarted
  · have hter := hempty hns hrec
    simp only [hns, true_and, hter, ne_eq, not_true_eq_false, if_false, if_true, hclean]
    cases hc : m.record.contradictory with
    | true =>
      simp only [Bool.true_eq_false, not_false_eq_true, if_true, Bool.not_true,
        Bool.false_eq_true, if_false, Prod.mk.injEq, true_and]
      cases m
      simp_all
    | false =>
      simp only [not_true_eq_false, if_false, Bool.not_false, if_true, closed, hnot, hns]
      split <;> rfl
  simp only [hns, false_and, if_false, hclean, ne_eq]
  cases hc : m.record.contradictory with
  | true => simp
  | false =>
    simp only [not_true_eq_false, if_false, Bool.not_false, if_true, closed, hnot, hns]
    split <;> rfl

theorem Wellformed.closed (h : m.Wellformed) (hcloses : m.record.closes = true) :
    m.closed.Wellformed ∧ m.closed.isOpen = false ∧
      ((m.generation = uint32Max ∧ m.closed.generation = m.generation ∧
          m.closed.contradictory.value = .retired) ∨
        (m.generation ≠ uint32Max ∧ m.closed.generation = m.generation + 1 ∧
          m.closed.contradictory.value = .clean)) := by
  unfold Mailbox.closed
  by_cases hmax : m.generation = uint32Max
  · rw [if_pos hmax]
    have hnot : (m.acceptance = ⟨m.generation, .notStarted⟩) ↔ m.acceptance.value = .notStarted :=
      eq_word_iff h.acceptance
    have hrec : m.record.acceptance = m.acceptance.value := rfl
    -- Reconciled: an acceptance is recorded, and a result unless it never started.
    refine ⟨⟨h.positive, h.acceptance, ?_, ?_, h.proof, rfl, fun _ => ⟨rfl, ?_, ?_⟩⟩, rfl,
      Or.inl ⟨hmax, rfl, rfl⟩⟩
    · show (if _ then _ else _ : Word TerminalValue).generation = _
      split
      · rfl
      · exact h.terminal
    · show (if _ then _ else _ : Word TerminalValue).value ≠ _
      split
      · simp
      · exact h.settled
    · intro hnone
      have hnone' : m.acceptance.value = .none := hnone
      rw [Record.closes, hrec, hnone'] at hcloses
      simp at hcloses
    show (if _ then _ else _ : Word TerminalValue).value ≠ _
    split
    · simp
    rename_i hns
    intro hempty
    have hres : m.record.result = none := by simp [record, hempty]
    rw [Record.closes, hrec, hres] at hcloses
    cases hv : m.acceptance.value with
    | notStarted => exact hns (hnot.mpr hv)
    | none | accepted | unknown => simp [hv] at hcloses
  rw [if_neg hmax]
  exact ⟨⟨Nat.succ_pos _, rfl, rfl, by simp, rfl, rfl, nofun⟩, rfl, Or.inr ⟨hmax, rfl, rfl⟩⟩

end Mailbox

/-! ## One call of the board -/

def Op.publication (id : OperationId) : Op → Option Publication
  | .accept operation acceptance =>
    if h : operation = id ∧ acceptance ≠ .none then some (.accept acceptance h.2) else none
  | .complete operation terminal => if operation = id then some (.complete terminal) else none
  | _ => none

def publications (id : OperationId) (ops : List Op) : List Publication :=
  ops.filterMap (Op.publication id)

/-- What becomes of a mailbox: its generation never goes back and a retired one stays so; while it
    stays at its generation, what is recorded are the publications for it. -/
structure Follows (m m' : Mailbox) (ps : List Publication) : Prop where
  generation : m.generation ≤ m'.generation
  retired : m.contradictory.value = .retired → m'.contradictory.value = .retired
  record : m'.generation = m.generation → m'.contradictory.value ≠ .retired →
    m'.record = ps.foldl Record.publish m.record

theorem Follows.refl (m : Mailbox) : Follows m m [] := ⟨Nat.le_refl _, id, fun _ _ => rfl⟩

theorem Follows.trans {m m' m'' : Mailbox} {ps qs : List Publication} (h : Follows m m' ps)
    (h' : m'.generation = m.generation → Follows m' m'' qs) (hgrow : m'.generation ≤ m''.generation)
    (hret : m'.contradictory.value = .retired → m''.contradictory.value = .retired) :
    Follows m m'' (ps ++ qs) := by
  refine ⟨h.generation.trans hgrow, fun hm => hret (h.retired hm), fun hg hlive => ?_⟩
  have hg' : m'.generation = m.generation := by
    have := h.generation
    omega
  have hlive' : m'.contradictory.value ≠ .retired := fun hm => hlive (hret hm)
  rw [foldl_append, ← h.record hg' hlive']
  exact (h' hg').record (hg.trans hg'.symm) hlive

namespace CompletionBoard

variable {b b' : CompletionBoard} {i : Nat} {m m' : Mailbox}

/-- Every mailbox is well formed, and the free ones are closed and not retired. -/
structure Wellformed (b : CompletionBoard) : Prop where
  mailbox : ∀ (i : Nat) (m : Mailbox), b.mailboxes[i]? = some m → m.Wellformed
  free : b.free.Nodup
  idle : ∀ i ∈ b.free, ∀ m : Mailbox, b.mailboxes[i]? = some m →
    m.isOpen = false ∧ m.contradictory.value ≠ .retired

theorem getElem_set (hi : b.mailboxes[i]? = some m) (m' : Mailbox) (j : Nat) :
    (b.mailboxes.set i m')[j]? = if j = i then some m' else b.mailboxes[j]? := by
  by_cases hj : i = j
  · subst hj
    simp [(List.getElem?_eq_some_iff.mp hi).1]
  · simp [hj, Ne.symm hj]

theorem set_self (hi : b.mailboxes[i]? = some m) : b.set i m = b := by
  obtain ⟨hlt, rfl⟩ := List.getElem?_eq_some_iff.mp hi
  unfold CompletionBoard.set
  rw [set_getElem_self]

theorem Wellformed.write (h : b.Wellformed) (hi : b.mailboxes[i]? = some m) (hm' : m'.Wellformed)
    (hmail : b'.mailboxes = b.mailboxes.set i m') (hfree : b'.free = b.free)
    (hkeeps : i ∈ b.free → m'.isOpen = false ∧ m'.contradictory.value ≠ .retired) :
    b'.Wellformed := by
  refine ⟨fun j n hj => ?_, hfree ▸ h.free, fun j hjfree n hj => ?_⟩
  · rw [hmail, getElem_set hi] at hj
    split at hj
    · cases hj
      exact hm'
    · exact h.mailbox j n hj
  rw [hfree] at hjfree
  rw [hmail, getElem_set hi] at hj
  split at hj
  next heq =>
    cases hj
    exact hkeeps (heq ▸ hjfree)
  · exact h.idle j hjfree n hj

section

variable (hi : b.mailboxes[i]? = some m)
include hi

theorem follows_write (hmail : b'.mailboxes = b.mailboxes.set i m') {ops : List Op}
    (hf : Follows m m' (publications ⟨i, m.generation⟩ ops))
    (hothers : ∀ j g, j ≠ i → publications ⟨j, g⟩ ops = []) :
    ∀ (j : Nat) (n : Mailbox), b.mailboxes[j]? = some n →
      ∃ n', b'.mailboxes[j]? = some n' ∧ Follows n n' (publications ⟨j, n.generation⟩ ops) := by
  intro j n hj
  rw [hmail, getElem_set hi]
  by_cases hji : j = i
  · subst hji
    cases hi.symm.trans hj
    exact ⟨m', if_pos rfl, hf⟩
  rw [if_neg hji, hothers j n.generation hji]
  exact ⟨n, hj, Follows.refl n⟩

theorem follows_silent (hmail : b'.mailboxes = b.mailboxes.set i m') (hf : Follows m m' []) :
    ∀ (j : Nat) (n : Mailbox), b.mailboxes[j]? = some n →
      ∃ n', b'.mailboxes[j]? = some n' ∧ Follows n n' [] :=
  follows_write hi hmail (show Follows m m' (publications _ []) from hf) fun _ _ _ => rfl

theorem announce_ok (h : b.announce i = .ok b') :
    b'.mailboxes = b.mailboxes.set i { m with queued := true } ∧ b'.free = b.free := by
  unfold announce at h
  simp only [hi] at h
  split at h
  next hqueued =>
    cases h
    have heq : { m with queued := true } = m := by
      cases m
      simp_all
    rw [heq]
    exact ⟨congrArg CompletionBoard.mailboxes (set_self hi).symm, rfl⟩
  split at h
  · cases h
    exact ⟨rfl, rfl⟩
  · cases h

theorem publish_ok {y : Published × Mailbox × Bool} {published : Published}
    (h : b.publish i y = .ok (published, b')) :
    published = y.1 ∧ ∃ queued, b'.mailboxes = b.mailboxes.set i { y.2.1 with queued } ∧
      b'.free = b.free := by
  obtain ⟨answer, n, announced⟩ := y
  rcases announced with _ | _
  · cases h
    exact ⟨rfl, n.queued, rfl, rfl⟩
  obtain ⟨b1, hann, heq⟩ := bind_ok h
  cases heq
  have hn : (b.set i n).mailboxes[i]? = some n := (getElem_set hi n i).trans (if_pos rfl)
  obtain ⟨hmail, hfree⟩ := announce_ok hn hann
  refine ⟨rfl, true, ?_, hfree⟩
  rw [hmail]
  exact set_set _

end

theorem requeued_wellformed (h : m.Wellformed) (queued : Bool) :
    Mailbox.Wellformed { m with queued } :=
  ⟨h.positive, h.acceptance, h.terminal, h.settled, h.proof, h.contradictory, h.retired⟩

end CompletionBoard

open CompletionBoard

structure Advances (b b' : CompletionBoard) (ops : List Op) : Prop where
  wellformed : b'.Wellformed
  follows : ∀ i m, b.mailboxes[i]? = some m →
    ∃ m', b'.mailboxes[i]? = some m' ∧ Follows m m' (publications ⟨i, m.generation⟩ ops)

variable {b b' : CompletionBoard} {id : OperationId} {op : Op}

theorem publications_none (h : op.publication id = none) : publications id [op] = [] := by
  simp [publications, h]

theorem CompletionBoard.Wellformed.publish (h : b.Wellformed) {p : Publication} {m : Mailbox}
    {y : Published × Mailbox × Bool} {published : Published} (hm : b.mailbox? id = some m)
    (hop : op.publication id = some p) (hother : ∀ id', id' ≠ id → op.publication id' = none)
    (hy : m.publish id.generation p = .ok y) (hrun : b.publish id.index y = .ok (published, b')) :
    Advances b b' [op] := by
  have hi : b.mailboxes[id.index]? = some m := by
    unfold mailbox? at hm
    split at hm
    · exact hm
    · cases hm
  have hwf := h.mailbox _ _ hi
  obtain ⟨-, queued, hmail, hfree⟩ := publish_ok hi hrun
  have hone : publications id [op] = [p] := by simp [publications, hop]
  by_cases hcur : id.generation = m.generation ∧ m.contradictory.value ≠ .retired
  · obtain ⟨hg, hlive⟩ := hcur
    rw [hg] at hy
    obtain ⟨y', hy', hrec⟩ := hwf.publish hlive p
    cases hy.symm.trans hy'
    refine ⟨h.write hi (requeued_wellformed hrec.wellformed queued) hmail hfree fun hfree' => ?_,
      follows_write hi hmail ⟨?_, ?_, ?_⟩ fun j g hj => publications_none (hother _ ?_)⟩
    · exact ⟨hrec.keeps.isOpen.trans (h.idle _ hfree' m hi).1, hrec.marker⟩
    · exact Nat.le_of_eq hrec.keeps.generation.symm
    · exact fun hret => absurd hret hlive
    · intro _ _
      have hid : (⟨id.index, m.generation⟩ : OperationId) = id := by
        rw [← hg]
      rw [hid, hone]
      exact hrec.record
    rintro rfl
    exact hj rfl
  -- Stale: nothing but the news flag can differ.
  have hstale : id.generation ≠ m.generation ∨ m.contradictory.value = .retired := by
    by_contra hcon
    push Not at hcon
    exact hcur hcon
  cases hy.symm.trans (hwf.stale hstale p)
  refine ⟨h.write hi (requeued_wellformed hwf queued) hmail hfree fun hfree' => ?_,
    follows_write hi hmail ⟨Nat.le_refl _, fun hm => hm, fun _ hlive => ?_⟩
      fun j g hj => publications_none (hother _ ?_)⟩
  · exact h.idle _ hfree' m hi
  · have hne : (⟨id.index, m.generation⟩ : OperationId) ≠ id := by
      intro heq
      rcases hstale with hg | hret
      · exact hg (by rw [← heq])
      · exact hlive hret
    rw [publications_none (hother _ hne)]
    rfl
  rintro rfl
  exact hj rfl

theorem Advances.silent (hwf : b'.Wellformed) (hop : ∀ id, op.publication id = none)
    (h : ∀ (i : Nat) (m : Mailbox), b.mailboxes[i]? = some m →
      ∃ m', b'.mailboxes[i]? = some m' ∧ Follows m m' []) : Advances b b' [op] := by
  refine ⟨hwf, fun i m hi => ?_⟩
  rw [publications_none (hop _)]
  exact h i m hi

theorem CompletionBoard.Wellformed.open (h : b.Wellformed) : Advances b ((b.open.map Prod.snd).getD b)
    [.open] := by
  have hnone : Advances b b [.open] :=
    Advances.silent h (fun _ => rfl) fun i m hi => ⟨m, hi, Follows.refl m⟩
  unfold CompletionBoard.open
  rcases hfree : b.free with _ | ⟨i, _⟩
  · exact hnone
  simp only
  rcases hi : b.mailboxes[i]? with _ | m
  · exact hnone
  have hidle := h.idle i (by simp [hfree]) m hi
  have hnodup := h.free
  rw [hfree, nodup_cons] at hnodup
  refine Advances.silent ⟨fun j n hj => ?_, hnodup.2, fun j hj n hn => ?_⟩ (fun _ => rfl) ?_
  · rw [show (_ : CompletionBoard).mailboxes[j]? = _ from getElem_set hi _ j] at hj
    split at hj
    · cases hj
      have hm := h.mailbox i m hi
      exact ⟨hm.positive, hm.acceptance, hm.terminal, hm.settled, hm.proof, hm.contradictory,
        fun hret => absurd hret hidle.2⟩
    · exact h.mailbox j n hj
  · have hne : j ≠ i := fun heq => hnodup.1 (heq ▸ hj)
    rw [show (_ : CompletionBoard).mailboxes[j]? = _ from getElem_set hi _ j, if_neg hne] at hn
    exact h.idle j (by rw [hfree]; exact mem_cons_of_mem _ hj) n hn
  have hope : Follows m { m with isOpen := true } [] := ⟨Nat.le_refl _, id, fun _ _ => rfl⟩
  exact follows_silent hi rfl hope

theorem CompletionBoard.Wellformed.close (h : b.Wellformed) (id : OperationId) :
    Advances b (b.close id).2 [.close id] ∧
    ((b.close id).1 = true → ∃ m, b.mailboxes[id.index]? = some m ∧ m.isOpen = true ∧
      m.generation = id.generation ∧ m.record.closes = true) := by
  have hnone : Advances b b [.close id] :=
    Advances.silent h (fun _ => rfl) fun i m hi => ⟨m, hi, Follows.refl m⟩
  unfold CompletionBoard.close
  rcases hm : b.mailbox? id with _ | m
  · exact ⟨hnone, nofun⟩
  have hi : b.mailboxes[id.index]? = some m := by
    unfold mailbox? at hm
    split at hm
    · exact hm
    · cases hm
  have hwf := h.mailbox _ _ hi
  simp only
  split
  · exact ⟨hnone, nofun⟩
  rename_i hopen
  simp only [Bool.not_eq_true', not_or, Bool.not_eq_false, ne_eq, not_not] at hopen
  have hlive : m.contradictory.value ≠ .retired := fun hret =>
    nomatch hopen.1.symm.trans (hwf.retired hret).1
  rw [hwf.close hlive]
  rcases hcloses : m.record.closes with _ | _
  · simp only [Bool.false_eq_true, if_false, set_self hi]
    exact ⟨hnone, nofun⟩
  obtain ⟨hwf', hclosed, hcases⟩ := hwf.closed hcloses
  have hnot : id.index ∉ b.free := fun hmem =>
    nomatch (h.idle _ hmem m hi).1.symm.trans hopen.1
  simp only [if_true]
  refine ⟨?_, fun _ => ⟨m, hi, hopen.1, hopen.2, hcloses⟩⟩
  rcases hcases with ⟨hmax, hgen, hret⟩ | ⟨hmax, hgen, hclean⟩
  · rw [if_pos hmax]
    refine Advances.silent (h.write hi hwf' rfl rfl fun hmem => absurd hmem hnot)
      (fun _ => rfl) (follows_silent hi rfl ⟨?_, fun _ => hret, ?_⟩)
    · exact Nat.le_of_eq hgen.symm
    · exact fun _ hlive' => absurd hret hlive'
  rw [if_neg hmax]
  refine Advances.silent ⟨fun j n hj => ?_, ?_, fun j hj n hn => ?_⟩ (fun _ => rfl)
    (follows_silent hi rfl ⟨?_, fun hret => absurd hret hlive, ?_⟩)
  · rw [show (_ : CompletionBoard).mailboxes[j]? = _ from getElem_set hi _ j] at hj
    split at hj
    · cases hj
      exact hwf'
    · exact h.mailbox j n hj
  · refine List.nodup_append.mpr ⟨h.free, nodup_singleton _, ?_⟩
    rintro x hx y hy rfl
    exact hnot (List.mem_singleton.mp hy ▸ hx)
  · rw [show (_ : CompletionBoard).mailboxes[j]? = _ from getElem_set hi _ j] at hn
    split at hn
    · cases hn
      exact ⟨hclosed, by rw [hclean]; simp⟩
    rename_i hne
    rcases List.mem_append.mp hj with hj | hj
    · exact h.idle j hj n hn
    · exact absurd (List.mem_singleton.mp hj) hne
  · omega
  intro hsame
  omega

theorem CompletionBoard.Wellformed.harvestLoop (limit : Nat) :
    ∀ (news : List Nat) (seen : List Observation) {b : CompletionBoard}, b.Wellformed →
    (harvestLoop limit news seen b).2.Wellformed ∧
    ∀ (i : Nat) (m : Mailbox), b.mailboxes[i]? = some m →
      ∃ m', (harvestLoop limit news seen b).2.mailboxes[i]? = some m' ∧ Follows m m' []
  | [], seen, b, h => ⟨⟨h.mailbox, h.free, h.idle⟩, fun i m hi => ⟨m, hi, Follows.refl m⟩⟩
  | j :: rest, seen, b, h => by
    unfold CompletionBoard.harvestLoop
    split
    · rcases hj : b.mailboxes[j]? with _ | n
      · exact CompletionBoard.Wellformed.harvestLoop limit rest seen h
      have hwf := h.mailbox j n hj
      have hset : (b.set j { n with queued := false }).Wellformed :=
        h.write hj (requeued_wellformed hwf false) rfl rfl fun hfree => h.idle j hfree n hj
      have hcleared : Follows n { n with queued := false } [] := ⟨Nat.le_refl _, id, fun _ _ => rfl⟩
      have hmail : (b.set j { n with queued := false }).mailboxes
          = b.mailboxes.set j { n with queued := false } := rfl
      have hstep := follows_silent hj hmail hcleared
      have hrest : ∀ seen', (CompletionBoard.harvestLoop limit rest seen'
            (b.set j { n with queued := false })).2.Wellformed ∧
          ∀ (i : Nat) (m : Mailbox), b.mailboxes[i]? = some m →
            ∃ m', (CompletionBoard.harvestLoop limit rest seen'
              (b.set j { n with queued := false })).2.mailboxes[i]? = some m' ∧
              Follows m m' [] := by
        intro seen'
        obtain ⟨hwf', hfol⟩ := CompletionBoard.Wellformed.harvestLoop limit rest seen' hset
        refine ⟨hwf', fun i m hi => ?_⟩
        obtain ⟨m1, hm1, hf1⟩ := hstep i m hi
        obtain ⟨m2, hm2, hf2⟩ := hfol i m1 hm1
        exact ⟨m2, hm2, hf1.trans (fun _ => hf2) hf2.generation hf2.retired⟩
      simp only
      split
      · exact hrest _
      · exact hrest _
    · exact ⟨⟨h.mailbox, h.free, h.idle⟩, fun i m hi => ⟨m, hi, Follows.refl m⟩⟩

theorem CompletionBoard.Wellformed.unheard (h : b.Wellformed) (hm : b.mailbox? id = none)
    (hother : ∀ id', id' ≠ id → op.publication id' = none) : Advances b b [op] := by
  refine ⟨h, fun i m hi => ⟨m, hi, ?_⟩⟩
  rw [publications_none (hother _ ?_)]
  · exact Follows.refl m
  rintro rfl
  have hvalid : Id.valid (⟨i, m.generation⟩ : OperationId) = true := by
    have := (h.mailbox i m hi).positive
    simp [Id.valid]
    omega
  rw [mailbox?, if_pos hvalid, hi] at hm
  cases hm

theorem CompletionBoard.Wellformed.run (h : b.Wellformed) (op : Op) (hrun : op.run b = .ok b') :
    Advances b b' [op] := by
  cases op with
  | «open» =>
    cases hrun
    exact h.open
  | close id =>
    cases hrun
    exact (h.close id).1
  | harvest limit =>
    cases hrun
    obtain ⟨hwf, hfol⟩ := CompletionBoard.Wellformed.harvestLoop limit b.news [] h
    exact Advances.silent hwf (fun _ => rfl) hfol
  | accept id a =>
    obtain ⟨⟨published, b1⟩, hacc, rfl⟩ := map_ok hrun
    unfold CompletionBoard.accept at hacc
    obtain ⟨_, hcheck, hrest⟩ := bind_ok hacc
    have hres : a ≠ .none := by
      rintro rfl
      exact absurd hcheck (by simp [check])
    have hother : ∀ id', id' ≠ id → (Op.accept id a).publication id' = none := fun id' hne => by
      simp [Op.publication, Ne.symm hne]
    cases hm : b.mailbox? id with
    | none =>
      rw [hm] at hrest
      cases hrest
      exact h.unheard hm hother
    | some =>
      rw [hm] at hrest
      exact h.publish hm (dif_pos ⟨rfl, hres⟩) hother rfl hrest
  | complete id t =>
    obtain ⟨⟨published, b1⟩, hcom, rfl⟩ := map_ok hrun
    unfold CompletionBoard.complete at hcom
    have hother : ∀ id', id' ≠ id → (Op.complete id t).publication id' = none := fun id' hne => by
      simp [Op.publication, Ne.symm hne]
    cases hm : b.mailbox? id with
    | none =>
      rw [hm] at hcom
      cases hcom
      exact h.unheard hm hother
    | some =>
      rw [hm] at hcom
      obtain ⟨y, hy, hrest⟩ := bind_ok hcom
      exact h.publish hm (if_pos rfl) hother hy hrest

/-! ## Every run -/

theorem CompletionBoard.Wellformed.runs (h : b.Wellformed) {ops : List Op}
    (hrun : runs b ops = .ok b') : Advances b b' ops := by
  induction ops generalizing b with
  | nil =>
    cases hrun
    exact ⟨h, fun i m hi => ⟨m, hi, Follows.refl m⟩⟩
  | cons op rest ih =>
    unfold Completions.runs at hrun
    rw [foldlM_cons] at hrun
    obtain ⟨b1, hop, hrest⟩ := bind_ok hrun
    have hone := h.run op hop
    have hlast := ih hone.wellformed hrest
    refine ⟨hlast.wellformed, fun i m hi => ?_⟩
    obtain ⟨m1, hm1, hf1⟩ := hone.follows i m hi
    obtain ⟨m2, hm2, hf2⟩ := hlast.follows i m1 hm1
    have hsplit : publications ⟨i, m.generation⟩ (op :: rest)
        = publications ⟨i, m.generation⟩ [op] ++ publications ⟨i, m.generation⟩ rest := by
      unfold publications
      rw [← filterMap_append]
      rfl
    rw [hsplit]
    exact ⟨m2, hm2, hf1.trans (fun hg => hg ▸ hf2) hf2.generation hf2.retired⟩

theorem create_wellformed {mailboxes firstGeneration : Nat}
    (h : CompletionBoard.create mailboxes firstGeneration = .ok b) : b.Wellformed := by
  obtain ⟨_, hcheck, hb⟩ := bind_ok h
  cases hb
  have hpos : 0 < firstGeneration := by
    unfold check at hcheck
    split at hcheck
    next hcond =>
      exact (of_decide_eq_true hcond).2.2.1
    · cases hcheck
  have hmail : ∀ (i : Nat) (m : Mailbox),
      (List.replicate mailboxes (Mailbox.ofGeneration firstGeneration))[i]? = some m →
      m = Mailbox.ofGeneration firstGeneration := fun i m hi =>
    eq_of_mem_replicate (mem_of_getElem? hi)
  refine ⟨fun i m hi => ?_, nodup_range, fun i _ m hi => ?_⟩
  · rw [hmail i m hi]
    exact ⟨hpos, rfl, rfl, by simp [Mailbox.ofGeneration], rfl, rfl,
      fun heq => absurd heq (by simp [Mailbox.ofGeneration])⟩
  rw [hmail i m hi]
  exact ⟨rfl, by simp [Mailbox.ofGeneration]⟩

theorem Reachable.wellformed (h : Reachable b) : b.Wellformed := by
  induction h with
  | init hcreate => exact create_wellformed hcreate
  | step op _ hrun ih => exact (ih.run op hrun).wellformed

theorem CompletionBoard.Wellformed.close_answer (h : b.Wellformed) {i : Nat} {m : Mailbox}
    (hi : b.mailboxes[i]? = some m) (hopen : m.isOpen = true) :
    (b.close ⟨i, m.generation⟩).1 = m.record.closes := by
  have hwf := h.mailbox i m hi
  have hlive : m.contradictory.value ≠ .retired := fun hret =>
    nomatch hopen.symm.trans (hwf.retired hret).1
  have hvalid : Id.valid (⟨i, m.generation⟩ : OperationId) = true := by
    have := hwf.positive
    simp [Id.valid]
    omega
  unfold CompletionBoard.close mailbox?
  simp only [hvalid, if_true, hi, hopen, Bool.not_true, Bool.false_eq_true, ne_eq,
    not_true_eq_false, or_self, if_false, hwf.close hlive]
  cases m.record.closes with
  | false => simp
  | true =>
    simp only [if_true]
    split <;> rfl

def Reconciled (seen : Observation) : Prop :=
  (seen.acceptance = .notStarted ∧ seen.terminal = none) ∨
  ((seen.acceptance = .accepted ∨ seen.acceptance = .unknown) ∧
    ∃ terminal, seen.terminal = some terminal ∧ terminal.noFurtherAccess = true)

theorem reconciled_of_closes {m : Mailbox} (h : m.Wellformed) (hcloses : m.record.closes = true)
    (i : Nat) : (m.observation i).contradictory = false ∧ Reconciled (m.observation i) := by
  rw [h.observation]
  unfold Record.closes at hcloses
  simp only [Bool.and_eq_true, Bool.not_eq_true'] at hcloses
  obtain ⟨hclean, hrest⟩ := hcloses
  unfold Reconciled Record.contradicted
  cases ha : m.record.acceptance with
  | none => simp [ha] at hrest
  | notStarted =>
    simp only [ha, Option.isNone_iff_eq_none] at hrest
    simp [hclean, hrest]
  | accepted | unknown =>
    simp only [ha, Bool.and_eq_true] at hrest
    obtain ⟨r, hr⟩ := Option.isSome_iff_exists.mp hrest.1
    simp [hclean, hr, hrest.2]

/-- **The order of results does not matter.** Two runs that made the same publications for a
    generation, in any order and among any other calls, and left it open, leave the same
    contradictory status, the same observation if there is no contradiction, and the same answer
    from `Close`; `Close` succeeds only on what is reconciled and not contradicted; and a
    publication of another generation, or of a retired one, changes nothing. -/
theorem results_commute (h : Reachable b) :
    (∀ (ops₁ ops₂ : List Op) (b₁ b₂ : CompletionBoard) (i : Nat) (m m₁ m₂ : Mailbox),
      b.mailboxes[i]? = some m → runs b ops₁ = .ok b₁ → runs b ops₂ = .ok b₂ →
      b₁.mailboxes[i]? = some m₁ → m₁.isOpen = true → m₁.generation = m.generation →
      b₂.mailboxes[i]? = some m₂ → m₂.isOpen = true → m₂.generation = m.generation →
      (publications ⟨i, m.generation⟩ ops₁).Perm (publications ⟨i, m.generation⟩ ops₂) →
      (m₁.observation i).contradictory = (m₂.observation i).contradictory ∧
      ((m₁.observation i).contradictory = false → m₁.observation i = m₂.observation i) ∧
      (b₁.close ⟨i, m.generation⟩).1 = (b₂.close ⟨i, m.generation⟩).1) ∧
    (∀ id, (b.close id).1 = true → ∃ m, b.mailboxes[id.index]? = some m ∧ m.isOpen = true ∧
      m.generation = id.generation ∧ (m.observation id.index).contradictory = false ∧
      Reconciled (m.observation id.index)) ∧
    ∀ (id : OperationId) (m : Mailbox), b.mailboxes[id.index]? = some m →
      (id.generation ≠ m.generation ∨ m.contradictory.value = .retired) →
      (∀ a, a ≠ .none → b.accept id a = .ok (.stale, b)) ∧
      ∀ t, b.complete id t = .ok (.stale, b) := by
  have hwf := h.wellformed
  refine ⟨?_, fun id hclose => ?_, fun id m hi hstale => ?_⟩
  · intro ops₁ ops₂ b₁ b₂ i m m₁ m₂ hi hrun1 hrun2 hm1 hopen1 hgen1 hm2 hopen2 hgen2 hperm
    -- Each run leaves the record its own publications make, and those agree.
    have hrecord : ∀ {ops b' m'}, runs b ops = .ok b' → b'.mailboxes[i]? = some m' →
        m'.isOpen = true → m'.generation = m.generation →
        b'.Wellformed ∧ m'.record = (publications ⟨i, m.generation⟩ ops).foldl Record.publish
          m.record := by
      intro ops b' m' hrun hm' hopen hgen
      have hadv := hwf.runs hrun
      obtain ⟨m'', hm'', hfol⟩ := hadv.follows i m hi
      cases hm'.symm.trans hm''
      refine ⟨hadv.wellformed, hfol.record hgen fun hret => ?_⟩
      exact absurd (hopen.symm.trans ((hadv.wellformed.mailbox i m' hm').retired hret).1) (by simp)
    obtain ⟨hwf1, hrec1⟩ := hrecord hrun1 hm1 hopen1 hgen1
    obtain ⟨hwf2, hrec2⟩ := hrecord hrun2 hm2 hopen2 hgen2
    have hagree : Record.Agree m₁.record m₂.record := by
      rw [hrec1, hrec2]
      exact Record.publish_perm hperm m.record
    have hobs1 := (hwf1.mailbox i m₁ hm1).observation i
    have hobs2 := (hwf2.mailbox i m₂ hm2).observation i
    refine ⟨?_, fun hclean => ?_, ?_⟩
    · rw [hobs1, hobs2]
      exact hagree.1
    · have heq := hagree.2 (by rw [hobs1] at hclean; exact hclean)
      rw [hobs1, hobs2, heq, hgen1, hgen2]
    have hclose1 := hwf1.close_answer hm1 hopen1
    have hclose2 := hwf2.close_answer hm2 hopen2
    rw [hgen1] at hclose1
    rw [hgen2] at hclose2
    rw [hclose1, hclose2]
    exact hagree.closes
  · obtain ⟨m, hi, hopen, hgen, hcloses⟩ := (hwf.close id).2 hclose
    exact ⟨m, hi, hopen, hgen, reconciled_of_closes (hwf.mailbox _ m hi) hcloses id.index⟩
  have hm := hwf.mailbox _ m hi
  have hpub : b.publish id.index (.stale, m, false) = .ok (.stale, b) := by
    show Except.ok (Published.stale, b.set id.index m) = _
    rw [set_self hi]
  refine ⟨fun a ha => ?_, fun t => ?_⟩
  · unfold CompletionBoard.accept mailbox?
    simp only [check, ha, ne_eq, not_false_eq_true, decide_true, if_true, ok_bind]
    split
    next hnone =>
      rfl
    rename_i m' hm'
    split at hm'
    · cases hi.symm.trans hm'
      rw [Except.ok.inj (hm.stale hstale (.accept a ha))]
      exact hpub
    · cases hm'
  unfold CompletionBoard.complete mailbox?
  split
  · rfl
  rename_i m' hm'
  split at hm'
  · cases hi.symm.trans hm'
    rw [show m.complete id.generation t = _ from hm.stale hstale (.complete t)]
    exact hpub
  · cases hm'

def boardOf (m : Mailbox) (news : List Nat) : CompletionBoard :=
  { mailboxes := [m], free := [], openCount := 1, news }

/-- A result and one that differs, in either order: not the same words, but both contradictory. -/
theorem results_commute_differing : ∃ m₁ m₂ : Mailbox, m₁ ≠ m₂ ∧
      (m₁.observation 0).contradictory = (m₂.observation 0).contradictory := by
  let opened : Mailbox := { Mailbox.ofGeneration 1 with isOpen := true }
  let after (outcome : Outcome) : Mailbox :=
    { opened with
      terminal := ⟨1, .written outcome⟩, contradictory := ⟨1, .contradicted⟩, queued := true }
  let success : Op := .complete ⟨0, 1⟩ { outcome := .succeeded }
  let failure : Op := .complete ⟨0, 1⟩ { outcome := .failed }
  have hreach : Reachable (boardOf opened []) :=
    .step .open (.init (show CompletionBoard.create 1 1 = _ from rfl)) rfl
  refine ⟨after .succeeded, after .failed, by decide, ?_⟩
  exact ((results_commute hreach).1 [success, failure] [failure, success]
    (boardOf (after .succeeded) [0]) (boardOf (after .failed) [0]) 0 opened _ _ rfl rfl rfl rfl rfl
    rfl rfl rfl rfl (List.Perm.swap _ _ _)).1

end JitLlm.Completions
