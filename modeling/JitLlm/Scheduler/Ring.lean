import JitLlm.Scheduler.Publications

/-!
# No completion is lost

`completions.cc` taken apart where its threads can interleave. A publisher records in the
mailbox's words, exchanges `queued` and, if it was not set, pushes the index on the news ring;
`Harvest`'s loop pops an index, clears `queued` and reads the mailbox. Each is one step, and the
steps of any number of publishers and of the one owner come in any order.

An index's `queued` flag is the one token for its place in the ring: whoever set it holds it until
it is pushed, the ring holds it until it is popped, and the owner holds it until it clears the
flag. So an index is in the ring at most once; and a publication that found the flag set is
recorded before the read that follows its clearing.
-/

namespace JitLlm.Completions

open Base Lib List Option
open Scheduler hiding Mailbox CompletionBoard

/-! ## The interleaved board -/

/-- Where a publisher stands in its call: nowhere, its words written and its mailbox to announce,
    or the flag set and the index to push. -/
inductive Publisher
  | idle
  | recorded (index : Nat)
  | announcing (index : Nat)

/-- Where the owner stands: in no `Harvest`, or before a pop, with an index popped, or with its
    flag cleared; and what this harvest has to answer so far. -/
inductive Owner
  | idle
  | harvesting (limit : Nat) (seen : List Observation)
  | popped (limit : Nat) (seen : List Observation) (index : Nat)
  | cleared (limit : Nat) (seen : List Observation) (index : Nat)

def Owner.seen : Owner → List Observation
  | .idle => []
  | .harvesting _ seen | .popped _ seen _ | .cleared _ seen _ => seen

inductive Event
  | opened (id : OperationId)
  | recorded (id : OperationId)
  | observed (seen : Observation)

def Event.about (id : OperationId) : Event → Bool
  | .opened id' | .recorded id' => id' = id
  | .observed seen => seen.operation = id

def latest (id : OperationId) (log : List Event) : Option Event := log.find? (Event.about id)

structure World (T : Type) where
  board : CompletionBoard
  publishers : T → Publisher := fun _ => .idle
  owner : Owner := .idle
  -- Newest first.
  log : List Event := []
  harvested : List Observation := []

/-- One step of a publisher `t` or of the owner. -/
inductive Label (T : Type)
  | record (t : T) (id : OperationId) (publication : Publication)
  | exchange (t : T)
  | push (t : T)
  | open
  | close (id : OperationId)
  | harvest (limit : Nat)
  | pop
  | clear
  | read

namespace World

variable {T : Type} {w w' : World T} {i : Nat} {m : Mailbox} {id : OperationId}
    {b : CompletionBoard}

section Steps

variable [DecidableEq T]

def setPublisher (w : World T) (t : T) (p : Publisher) : World T :=
  { w with publishers := Function.update w.publishers t p }

/-- `Harvest` returns. -/
def finish (w : World T) (seen : List Observation) : World T :=
  { w with owner := .idle, harvested := seen ++ w.harvested }

/-- A step; `none` where the label's does not come next. -/
def step (w : World T) : Label T → Checked (Option (World T))
  | .record t id publication =>
    match w.publishers t with
    | .idle =>
      match w.board.mailbox? id with
      | none => .ok (some w)
      | some m => do
        let (_, m, announced) ← m.publish id.generation publication
        let w := { w with board := w.board.set id.index m }
        if announced then
          return some { w.setPublisher t (.recorded id.index) with log := .recorded id :: w.log }
        else return some w
    | _ => .ok none
  | .exchange t =>
    match w.publishers t with
    | .recorded i =>
      match w.board.mailboxes[i]? with
      | none => .error .missing
      | some m =>
        if m.queued then .ok (some (w.setPublisher t .idle))
        else .ok (some ({ w with board := w.board.set i { m with queued := true } }.setPublisher t
          (.announcing i)))
    | _ => .ok none
  | .push t =>
    match w.publishers t with
    | .announcing i =>
      if w.board.news.length < w.board.mailboxes.length then
        .ok (some ({ w with board := { w.board with news := w.board.news ++ [i] } }.setPublisher t
          .idle))
      else .error .newsOverflow
    | _ => .ok none
  | .open =>
    match w.owner with
    | .idle =>
      match w.board.open with
      | none => .ok (some w)
      | some (id, board) => .ok (some { w with board, log := .opened id :: w.log })
    | _ => .ok none
  | .close id =>
    match w.owner with
    | .idle => .ok (some { w with board := (w.board.close id).2 })
    | _ => .ok none
  | .harvest limit =>
    match w.owner with
    | .idle => .ok (some { w with owner := .harvesting limit [] })
    | _ => .ok none
  | .pop =>
    match w.owner with
    | .harvesting limit seen =>
      if seen.length < limit then
        match w.board.news with
        | [] => .ok (some (w.finish seen))
        | i :: rest =>
          .ok (some { w with
            board := { w.board with news := rest }, owner := .popped limit seen i })
      else .ok (some (w.finish seen))
    | _ => .ok none
  | .clear =>
    match w.owner with
    | .popped limit seen i =>
      match w.board.mailboxes[i]? with
      | none => .error .missing
      | some m =>
        .ok (some { w with
          board := w.board.set i { m with queued := false }
          owner := .cleared limit seen i })
    | _ => .ok none
  | .read =>
    match w.owner with
    | .cleared limit seen i =>
      match w.board.mailboxes[i]? with
      | none => .error .missing
      | some m =>
        -- News of an operation the owner already closed is dropped.
        if !m.isOpen then .ok (some { w with owner := .harvesting limit seen })
        else .ok (some { w with
          owner := .harvesting limit (CompletionBoard.report (m.observation i) seen)
          log := .observed (m.observation i) :: w.log })
    | _ => .ok none

inductive Reachable : World T → Prop
  | init {mailboxes firstGeneration : Nat} {board : CompletionBoard} :
      CompletionBoard.create mailboxes firstGeneration = .ok board → Reachable { board }
  | step {w w' : World T} (label : Label T) :
      Reachable w → w.step label = .ok (some w') → Reachable w'

end Steps

/-! ## The invariant -/

def Popped (w : World T) (i : Nat) : Prop := ∃ limit seen, w.owner = .popped limit seen i

def Cleared (w : World T) (i : Nat) : Prop := ∃ limit seen, w.owner = .cleared limit seen i

def Token (w : World T) (i : Nat) : Prop :=
  i ∈ w.board.news ∨ (∃ t, w.publishers t = .announcing i) ∨ w.Popped i

/-- An index's flag is set while its token is held, and one holds it. -/
structure Tokens (w : World T) : Prop where
  nodup : w.board.news.Nodup
  single : ∀ t t' i, w.publishers t = .announcing i → w.publishers t' = .announcing i → t = t'
  pushing : ∀ t i, w.publishers t = .announcing i → i ∉ w.board.news ∧ ¬ w.Popped i
  popped : ∀ i, w.Popped i → i ∉ w.board.news
  queued : ∀ (i : Nat) (m : Mailbox), w.board.mailboxes[i]? = some m →
    (m.queued = true ↔ w.Token i)
  range : ∀ i, w.Token i ∨ w.Cleared i ∨ (∃ t, w.publishers t = .recorded i) →
    i < w.board.mailboxes.length

def reported (w : World T) : List Observation := w.owner.seen ++ w.harvested

/-- Somebody will still read the mailbox: a publisher is about to announce it, its token is held,
    or the owner is about to read. -/
def Pending (w : World T) (i : Nat) (m : Mailbox) : Prop :=
  (∃ t, w.publishers t = .recorded i) ∨ m.queued = true ∨ w.Cleared i

/-- Nothing was recorded since the mailbox was opened; or the newest thing that happened to it is
    that the owner read what it holds now; or that it was published to, and it will be read. -/
def Told (w : World T) (i : Nat) (m : Mailbox) : Prop :=
  latest ⟨i, m.generation⟩ w.log = some (.opened ⟨i, m.generation⟩) ∨
  (latest ⟨i, m.generation⟩ w.log = some (.observed (m.observation i)) ∧
    m.observation i ∈ w.reported) ∨
  (latest ⟨i, m.generation⟩ w.log = some (.recorded ⟨i, m.generation⟩) ∧ w.Pending i m)

structure Sound (w : World T) : Prop where
  wellformed : w.board.Wellformed
  tokens : w.Tokens
  told : ∀ (i : Nat) (m : Mailbox), w.board.mailboxes[i]? = some m → m.isOpen = true → w.Told i m

/-! ## What a step leaves alone -/

theorem Tokens.congr (h : w.Tokens) (hnews : w'.board.news = w.board.news)
    (hann : ∀ t i, w'.publishers t = .announcing i ↔ w.publishers t = .announcing i)
    (hpop : ∀ i, w'.Popped i ↔ w.Popped i)
    (hlen : w'.board.mailboxes.length = w.board.mailboxes.length)
    (hqueued : ∀ (i : Nat) (m' : Mailbox), w'.board.mailboxes[i]? = some m' →
      ∃ m, w.board.mailboxes[i]? = some m ∧ m.queued = m'.queued)
    (hrange : ∀ i, w'.Cleared i ∨ (∃ t, w'.publishers t = .recorded i) →
      i < w.board.mailboxes.length) : w'.Tokens := by
  have htoken : ∀ i, w'.Token i ↔ w.Token i := fun i => by
    unfold Token
    rw [hnews, hpop i]
    simp only [hann]
  refine ⟨hnews ▸ h.nodup, fun t t' i ht ht' => ?_, fun t i ht => ?_, fun i hi => ?_,
    fun i m' hi => ?_, fun i hi => ?_⟩
  · exact h.single t t' i ((hann t i).mp ht) ((hann t' i).mp ht')
  · rw [hnews, hpop]
    exact h.pushing t i ((hann t i).mp ht)
  · rw [hnews]
    exact h.popped i ((hpop i).mp hi)
  · obtain ⟨m, hm, hq⟩ := hqueued i m' hi
    rw [← hq, htoken]
    exact h.queued i m hm
  rw [hlen]
  rcases hi with hi | hi
  · exact h.range i (.inl ((htoken i).mp hi))
  · exact hrange i hi

theorem latest_cons_other {e : Event} (log : List Event)
    (h : e.about id = false) : latest id (e :: log) = latest id log :=
  find?_cons_of_neg (by simp [h])

theorem latest_cons_self {e : Event} (log : List Event)
    (h : e.about id = true) : latest id (e :: log) = some e := find?_cons_of_pos h

theorem Told.keep (h : w.Told i m)
    (hlog : latest ⟨i, m.generation⟩ w'.log = latest ⟨i, m.generation⟩ w.log)
    (hrep : ∀ o ∈ w.reported, o.operation = ⟨i, m.generation⟩ → o ∈ w'.reported) {m' : Mailbox}
    (hgen : m'.generation = m.generation) (hobs : m'.observation i = m.observation i)
    (hpen : w.Pending i m → w'.Pending i m') : w'.Told i m' := by
  unfold Told
  rw [hgen, hlog, hobs]
  rcases h with h | ⟨h, hmem⟩ | ⟨h, hp⟩
  · exact .inl h
  · exact .inr (.inl ⟨h, hrep _ hmem rfl⟩)
  · exact .inr (.inr ⟨h, hpen hp⟩)

open CompletionBoard

theorem mailboxes_set {m' : Mailbox} (hi : b.mailboxes[i]? = some m)
    (j : Nat) : (b.set i m').mailboxes[j]? = if j = i then some m' else b.mailboxes[j]? :=
  getElem_set hi m' j

theorem length_set (b : CompletionBoard) (i : Nat) (m : Mailbox) :
    (b.set i m).mailboxes.length = b.mailboxes.length := List.length_set

theorem Tokens.mailbox (h : w.Tokens)
    (hi : w.Token i ∨ w.Cleared i ∨ ∃ t, w.publishers t = .recorded i) :
    ∃ m, w.board.mailboxes[i]? = some m := ⟨_, getElem?_eq_getElem (h.range i hi)⟩

theorem popped_congr (howner : w'.owner = w.owner) (i : Nat) : w'.Popped i ↔ w.Popped i := by
  unfold Popped
  rw [howner]

theorem cleared_congr (howner : w'.owner = w.owner) (i : Nat) : w'.Cleared i ↔ w.Cleared i := by
  unfold Cleared
  rw [howner]

theorem reported_congr (howner : w'.owner = w.owner) (hhar : w'.harvested = w.harvested) :
    w'.reported = w.reported := by
  unfold reported
  rw [howner, hhar]

/-! ## The publishers' steps -/

section Publishers

variable {t : T} {p : Publisher} {m' : Mailbox}

/-- A step of publisher `t`, which is then at `p`: the owner and the others stay. -/
structure Publishes (w w' : World T) (t : T) (p : Publisher) : Prop where
  self : w'.publishers t = p
  others : ∀ t', t' ≠ t → w'.publishers t' = w.publishers t'
  owner : w'.owner = w.owner
  harvested : w'.harvested = w.harvested

theorem Publishes.reported (h : Publishes w w' t p) : w'.reported = w.reported :=
  reported_congr h.owner h.harvested

theorem Tokens.range_publishes (h : w.Tokens) (hp : Publishes w w' t p)
    (hself : ∀ j, p = .recorded j → j < w.board.mailboxes.length) {j : Nat}
    (hj : w'.Cleared j ∨ ∃ t', w'.publishers t' = .recorded j) :
    j < w.board.mailboxes.length := by
  rcases hj with hj | ⟨t', hj⟩
  · exact h.range j (.inr (.inl ((cleared_congr hp.owner j).mp hj)))
  by_cases heq : t' = t
  · exact hself j (hp.self.symm.trans (heq ▸ hj))
  rw [hp.others t' heq] at hj
  exact h.range j (.inr (.inr ⟨t', hj⟩))

theorem Sound.recorded (h : w.Sound) (hi : w.board.mailboxes[i]? = some m)
    (ht : w.publishers t = .idle) (hwf : m'.Wellformed) (hkeeps : Mailbox.Keeps m m')
    (hlive : m'.contradictory.value ≠ .retired) (hboard : w'.board = w.board.set i m')
    (hpub : Publishes w w' t (.recorded i))
    (hlog : w'.log = .recorded ⟨i, m.generation⟩ :: w.log) : w'.Sound := by
  refine ⟨?_, h.tokens.congr ?_ (fun t' j => ?_) (popped_congr hpub.owner) ?_ (fun j n hj => ?_)
    fun j hj => ?_, fun j n hj hopen => ?_⟩
  · rw [hboard]
    refine h.wellformed.write hi hwf rfl rfl fun hfree => ⟨?_, hlive⟩
    exact hkeeps.isOpen.trans (h.wellformed.idle _ hfree m hi).1
  · rw [hboard]
    rfl
  · by_cases heq : t' = t
    · rw [heq, hpub.self, ht]
      simp
    · rw [hpub.others t' heq]
  · rw [hboard, length_set]
  · rw [hboard, mailboxes_set hi] at hj
    split at hj
    next heq =>
      cases hj
      rw [heq]
      exact ⟨m, hi, hkeeps.queued.symm⟩
    · exact ⟨n, hj, rfl⟩
  · refine h.tokens.range_publishes hpub (fun k hk => ?_) hj
    cases hk
    exact (List.getElem?_eq_some_iff.mp hi).1
  rw [hboard, mailboxes_set hi] at hj
  split at hj
  next heq =>
    cases hj
    subst heq
    refine .inr (.inr ⟨?_, .inl ⟨t, hpub.self⟩⟩)
    rw [hlog, hkeeps.generation]
    exact latest_cons_self _ (by simp [Event.about])
  rename_i hne
  refine (h.told j n hj hopen).keep ?_ (fun o ho _ => ?_) rfl rfl fun hp => ?_
  · rw [hlog]
    refine latest_cons_other _ (decide_eq_false fun heq => hne ?_)
    exact (congrArg Id.index heq).symm
  · rw [hpub.reported]
    exact ho
  rcases hp with ⟨t', ht'⟩ | hp | hp
  · refine .inl ⟨t', (hpub.others t' ?_).trans ht'⟩
    rintro rfl
    cases ht.symm.trans ht'
  · exact .inr (.inl hp)
  · exact .inr (.inr ((cleared_congr hpub.owner j).mpr hp))

theorem Pending.exchanged {j : Nat} {n n' : Mailbox} (hp : w.Pending j n)
    (ht : w.publishers t = .recorded i) (hself : j = i → n'.queued = true)
    (hqueued : n.queued = true → n'.queued = true) (hpub : Publishes w w' t p) :
    w'.Pending j n' := by
  rcases hp with ⟨t', ht'⟩ | hq | hc
  · by_cases heq : t' = t
    · rw [heq, ht] at ht'
      exact .inr (.inl (hself (Publisher.recorded.inj ht').symm))
    · exact .inl ⟨t', (hpub.others t' heq).trans ht'⟩
  · exact .inr (.inl (hqueued hq))
  · exact .inr (.inr ((cleared_congr hpub.owner j).mpr hc))

section

variable (h : w.Sound) (hi : w.board.mailboxes[i]? = some m) (ht : w.publishers t = .recorded i)
include h hi ht

theorem Sound.coalesced (hqueued : m.queued = true)
    (hboard : w'.board = w.board) (hpub : Publishes w w' t .idle) (hlog : w'.log = w.log) :
    w'.Sound := by
  refine ⟨hboard ▸ h.wellformed, h.tokens.congr (by rw [hboard]) (fun t' j => ?_)
    (popped_congr hpub.owner) (by rw [hboard]) (fun j n hj => ⟨n, hboard ▸ hj, rfl⟩)
    fun _ => h.tokens.range_publishes hpub (by simp), fun j n hj hopen => ?_⟩
  · by_cases heq : t' = t
    · rw [heq, hpub.self, ht]
      simp
    · rw [hpub.others t' heq]
  rw [hboard] at hj
  refine (h.told j n hj hopen).keep (by rw [hlog]) (fun o ho _ => ?_) rfl rfl
    fun hp => hp.exchanged ht (fun heq => ?_) id hpub
  · rw [hpub.reported]
    exact ho
  subst heq
  cases hi.symm.trans hj
  exact hqueued

theorem Sound.exchanged (hqueued : m.queued = false)
    (hboard : w'.board = w.board.set i { m with queued := true })
    (hpub : Publishes w w' t (.announcing i)) (hlog : w'.log = w.log) : w'.Sound := by
  have hnews : w'.board.news = w.board.news := by rw [hboard]; rfl
  have hfree : ¬ w.Token i := fun htoken =>
    absurd (((h.tokens.queued i m hi).mpr htoken).symm.trans hqueued) (by simp)
  have hann : ∀ t' j, w'.publishers t' = .announcing j ↔
      (t' = t ∧ j = i) ∨ w.publishers t' = .announcing j := by
    intro t' j
    by_cases heq : t' = t
    · rw [heq, hpub.self, ht]
      simp only [Publisher.announcing.injEq, true_and, reduceCtorEq, or_false]
      exact eq_comm
    rw [hpub.others t' heq]
    simp [heq]
  refine ⟨?_, ⟨?_, fun t1 t2 j h1 h2 => ?_, fun t' j hj => ?_, fun j hj => ?_, fun j n hj => ?_,
    fun j hj => ?_⟩, fun j n hj hopen => ?_⟩
  · rw [hboard]
    exact h.wellformed.write hi (requeued_wellformed (h.wellformed.mailbox i m hi) true) rfl rfl
      fun hfree' => h.wellformed.idle i hfree' m hi
  · rw [hnews]
    exact h.tokens.nodup
  · rcases (hann t1 j).mp h1 with ⟨ht1, hj1⟩ | h1
    · rcases (hann t2 j).mp h2 with ⟨ht2, -⟩ | h2
      · rw [ht1, ht2]
      · exact absurd (.inr (.inl ⟨t2, hj1 ▸ h2⟩)) hfree
    rcases (hann t2 j).mp h2 with ⟨-, hj2⟩ | h2
    · exact absurd (.inr (.inl ⟨t1, hj2 ▸ h1⟩)) hfree
    · exact h.tokens.single t1 t2 j h1 h2
  · rw [hnews, popped_congr hpub.owner]
    rcases (hann t' j).mp hj with ⟨rfl, rfl⟩ | hj
    · exact ⟨fun hmem => hfree (.inl hmem), fun hp => hfree (.inr (.inr hp))⟩
    · exact h.tokens.pushing t' j hj
  · rw [hnews]
    exact h.tokens.popped j ((popped_congr hpub.owner j).mp hj)
  · have htoken : j ≠ i → (w'.Token j ↔ w.Token j) := fun hne => by
      unfold Token
      rw [hnews, popped_congr hpub.owner]
      simp [hann, hne]
    rw [hboard, mailboxes_set hi] at hj
    split at hj
    next heq =>
      cases hj
      rw [heq]
      exact ⟨fun _ => .inr (.inl ⟨t, hpub.self⟩), fun _ => rfl⟩
    rename_i hne
    rw [htoken hne]
    exact h.tokens.queued j n hj
  · rw [hboard, length_set]
    rcases hj with (hmem | ⟨t', ht'⟩ | hp) | hj
    · exact h.tokens.range j (.inl (.inl (hnews ▸ hmem)))
    · rcases (hann t' j).mp ht' with ⟨-, rfl⟩ | ht'
      · exact (List.getElem?_eq_some_iff.mp hi).1
      · exact h.tokens.range j (.inl (.inr (.inl ⟨t', ht'⟩)))
    · exact h.tokens.range j (.inl (.inr (.inr ((popped_congr hpub.owner j).mp hp))))
    · exact h.tokens.range_publishes hpub (by simp) hj
  have hrep : ∀ o ∈ w.reported, o ∈ w'.reported := fun o ho => by
    rw [hpub.reported]
    exact ho
  rw [hboard, mailboxes_set hi] at hj
  split at hj
  next heq =>
    cases hj
    subst heq
    exact (h.told j m hi hopen).keep (by rw [hlog]) (fun o ho _ => hrep o ho) rfl rfl
      fun hp => hp.exchanged ht (fun _ => rfl) (fun _ => rfl) hpub
  rename_i hne
  exact (h.told j n hj hopen).keep (by rw [hlog]) (fun o ho _ => hrep o ho) rfl rfl
    fun hp => hp.exchanged ht (fun heq => absurd heq hne) id hpub

end

theorem Tokens.room (h : w.Tokens) (ht : w.publishers t = .announcing i) :
    w.board.news.length < w.board.mailboxes.length := by
  have hnot := (h.pushing t i ht).1
  have hnodup : (i :: w.board.news).Nodup := nodup_cons.mpr ⟨hnot, h.nodup⟩
  have hsub : i :: w.board.news ⊆ List.range w.board.mailboxes.length := by
    intro j hj
    rw [mem_range]
    rcases mem_cons.mp hj with rfl | hj
    · exact h.range j (.inl (.inr (.inl ⟨t, ht⟩)))
    · exact h.range j (.inl (.inl hj))
  have hle := (subperm_of_subset hnodup hsub).length_le
  rw [length_cons, length_range] at hle
  exact hle

theorem Sound.pushed (h : w.Sound) (ht : w.publishers t = .announcing i)
    (hboard : w'.board = { w.board with news := w.board.news ++ [i] })
    (hpub : Publishes w w' t .idle) (hlog : w'.log = w.log) : w'.Sound := by
  have hnews : w'.board.news = w.board.news ++ [i] := by rw [hboard]
  have hmail : w'.board.mailboxes = w.board.mailboxes := by rw [hboard]
  have hann : ∀ t' j, w'.publishers t' = .announcing j →
      w.publishers t' = .announcing j ∧ j ≠ i := by
    intro t' j hj
    by_cases heq : t' = t
    · rw [heq, hpub.self] at hj
      cases hj
    rw [hpub.others t' heq] at hj
    refine ⟨hj, ?_⟩
    rintro rfl
    exact heq (h.tokens.single t' t j hj ht)
  have htoken : ∀ j, w'.Token j ↔ w.Token j := by
    intro j
    unfold Token
    rw [hnews, popped_congr hpub.owner, mem_append, mem_singleton]
    constructor
    · rintro ((hmem | rfl) | ⟨t', ht'⟩ | hp)
      · exact .inl hmem
      · exact .inr (.inl ⟨t, ht⟩)
      · exact .inr (.inl ⟨t', (hann t' j ht').1⟩)
      · exact .inr (.inr hp)
    rintro (hmem | ⟨t', ht'⟩ | hp)
    · exact .inl (.inl hmem)
    · by_cases heq : t' = t
      · rw [heq, ht] at ht'
        exact .inl (.inr (Publisher.announcing.inj ht').symm)
      · exact .inr (.inl ⟨t', (hpub.others t' heq).trans ht'⟩)
    · exact .inr (.inr hp)
  refine ⟨⟨?_, ?_, ?_⟩, ⟨?_, fun t1 t2 j h1 h2 => ?_, fun t' j hj => ?_, fun j hj => ?_,
    fun j n hj => ?_, fun j hj => ?_⟩, fun j n hj hopen => ?_⟩
  · rw [hmail]
    exact h.wellformed.mailbox
  · rw [hboard]
    exact h.wellformed.free
  · rw [hboard]
    exact h.wellformed.idle
  · rw [hnews]
    refine nodup_append.mpr ⟨h.tokens.nodup, nodup_singleton i, ?_⟩
    rintro x hx y hy rfl
    exact (h.tokens.pushing t i ht).1 (mem_singleton.mp hy ▸ hx)
  · exact h.tokens.single t1 t2 j (hann t1 j h1).1 (hann t2 j h2).1
  · obtain ⟨hj', hne⟩ := hann t' j hj
    rw [hnews, popped_congr hpub.owner]
    refine ⟨fun hmem => ?_, (h.tokens.pushing t' j hj').2⟩
    rcases mem_append.mp hmem with hmem | hmem
    · exact (h.tokens.pushing t' j hj').1 hmem
    · exact hne (mem_singleton.mp hmem)
  · rw [hnews]
    intro hmem
    have hp := (popped_congr hpub.owner j).mp hj
    rcases mem_append.mp hmem with hmem | hmem
    · exact h.tokens.popped j hp hmem
    · exact (h.tokens.pushing t i ht).2 (mem_singleton.mp hmem ▸ hp)
  · rw [htoken]
    exact h.tokens.queued j n (hmail ▸ hj)
  · rw [hmail]
    rcases hj with hj | hj
    · exact h.tokens.range j (.inl ((htoken j).mp hj))
    · exact h.tokens.range_publishes hpub (by simp) hj
  rw [hmail] at hj
  refine (h.told j n hj hopen).keep (by rw [hlog]) (fun o ho _ => ?_) rfl rfl fun hp => ?_
  · rw [hpub.reported]
    exact ho
  rcases hp with ⟨t', ht'⟩ | hq | hc
  · refine .inl ⟨t', (hpub.others t' ?_).trans ht'⟩
    rintro rfl
    cases ht.symm.trans ht'
  · exact .inr (.inl hq)
  · exact .inr (.inr ((cleared_congr hpub.owner j).mpr hc))

end Publishers

/-! ## The owner's steps -/

section Owners

theorem Sound.turned (h : w.Sound) (hboard : w'.board = w.board)
    (hpub : w'.publishers = w.publishers) (hlog : w'.log = w.log)
    (hpop : ∀ i, w'.Popped i ↔ w.Popped i) (hcleared : ∀ i, w'.Cleared i ↔ w.Cleared i)
    (hrep : w'.reported = w.reported) : w'.Sound := by
  refine ⟨hboard ▸ h.wellformed, h.tokens.congr (by rw [hboard]) (fun t j => by rw [hpub])
    hpop (by rw [hboard]) (fun j n hj => ⟨n, hboard ▸ hj, rfl⟩) fun j hj => ?_,
    fun j n hj hopen => ?_⟩
  · rw [hpub, hcleared] at hj
    exact h.tokens.range j (.inr hj)
  rw [hboard] at hj
  refine (h.told j n hj hopen).keep (by rw [hlog]) (fun o ho _ => hrep ▸ ho) rfl rfl ?_
  unfold Pending
  rw [hpub, hcleared]
  exact id

theorem Sound.rewritten (h : w.Sound) {m' : Mailbox} (hi : w.board.mailboxes[i]? = some m)
    (hwf : w'.board.Wellformed) (hmail : w'.board.mailboxes = w.board.mailboxes.set i m')
    (hqueued : m'.queued = m.queued) (hnews : w'.board.news = w.board.news)
    (hpub : w'.publishers = w.publishers) (howner : w'.owner = w.owner)
    (hhar : w'.harvested = w.harvested)
    (hlog : ∀ j g, j ≠ i → latest ⟨j, g⟩ w'.log = latest ⟨j, g⟩ w.log)
    (htold : m'.isOpen = true → w'.Told i m') : w'.Sound := by
  refine ⟨hwf, h.tokens.congr hnews (fun t j => by rw [hpub]) (popped_congr howner) ?_
    (fun j n hj => ?_) fun j hj => ?_, fun j n hj hopen => ?_⟩
  · rw [hmail, List.length_set]
  · rw [hmail, getElem_set hi] at hj
    split at hj
    next heq =>
      cases hj
      exact ⟨m, heq ▸ hi, hqueued.symm⟩
    · exact ⟨n, hj, rfl⟩
  · rw [hpub, cleared_congr howner] at hj
    exact h.tokens.range j (Or.inr hj)
  rw [hmail, getElem_set hi] at hj
  split at hj
  next heq =>
    cases hj
    rw [heq]
    exact htold hopen
  rename_i hne
  refine (h.told j n hj hopen).keep (hlog j _ hne) (fun o ho _ => ?_) rfl rfl ?_
  · rw [reported_congr howner hhar]
    exact ho
  unfold Pending
  rw [hpub, cleared_congr howner]
  exact id

theorem Sound.popped (h : w.Sound) {rest : List Nat} (hnews : w.board.news = i :: rest)
    (hidle : ∀ j, ¬ w.Popped j ∧ ¬ w.Cleared j)
    (hboard : w'.board = { w.board with news := rest }) (hpub : w'.publishers = w.publishers)
    (hpop : ∀ j, w'.Popped j ↔ j = i) (hcleared : ∀ j, ¬ w'.Cleared j)
    (hlog : w'.log = w.log) (hrep : w'.reported = w.reported) : w'.Sound := by
  have hnews' : w'.board.news = rest := by rw [hboard]
  have hmail : w'.board.mailboxes = w.board.mailboxes := by rw [hboard]
  have hnodup := h.tokens.nodup
  rw [hnews, nodup_cons] at hnodup
  have htoken : ∀ j, w'.Token j ↔ w.Token j := by
    intro j
    unfold Token
    rw [hnews', hnews, hpub, hpop j, mem_cons]
    have hnot := (hidle j).1
    tauto
  refine ⟨⟨?_, ?_, ?_⟩, ⟨?_, fun t1 t2 j h1 h2 => ?_, fun t j hj => ?_, fun j hj => ?_,
    fun j n hj => ?_, fun j hj => ?_⟩, fun j n hj hopen => ?_⟩
  · rw [hmail]
    exact h.wellformed.mailbox
  · rw [hboard]
    exact h.wellformed.free
  · rw [hboard]
    exact h.wellformed.idle
  · rw [hnews']
    exact hnodup.2
  · rw [hpub] at h1 h2
    exact h.tokens.single t1 t2 j h1 h2
  · rw [hpub] at hj
    have hnot := (h.tokens.pushing t j hj).1
    rw [hnews, mem_cons, not_or] at hnot
    rw [hnews', hpop]
    exact ⟨hnot.2, hnot.1⟩
  · rw [(hpop j).mp hj, hnews']
    exact hnodup.1
  · rw [htoken]
    exact h.tokens.queued j n (hmail ▸ hj)
  · rw [hmail]
    rcases hj with hj | hj | hj
    · exact h.tokens.range j (.inl ((htoken j).mp hj))
    · exact absurd hj (hcleared j)
    · exact h.tokens.range j (.inr (.inr (hpub ▸ hj)))
  rw [hmail] at hj
  refine (h.told j n hj hopen).keep (by rw [hlog]) (fun o ho _ => hrep ▸ ho) rfl rfl ?_
  rintro (hp | hq | hc)
  · exact .inl (hpub ▸ hp)
  · exact .inr (.inl hq)
  · exact absurd hc (hidle j).2

theorem Sound.cleared (h : w.Sound) (hi : w.board.mailboxes[i]? = some m)
    (hpop : ∀ j, w.Popped j ↔ j = i) (hidle : ∀ j, ¬ w.Cleared j)
    (hboard : w'.board = w.board.set i { m with queued := false })
    (hpub : w'.publishers = w.publishers) (hpopped : ∀ j, ¬ w'.Popped j)
    (hcleared : ∀ j, w'.Cleared j ↔ j = i) (hlog : w'.log = w.log)
    (hrep : w'.reported = w.reported) : w'.Sound := by
  have hnews : w'.board.news = w.board.news := by rw [hboard]; rfl
  have hnot : i ∉ w.board.news := h.tokens.popped i ((hpop i).mpr rfl)
  have hfree : ∀ t, w.publishers t ≠ .announcing i := fun t ht =>
    (h.tokens.pushing t i ht).2 ((hpop i).mpr rfl)
  have htoken : ∀ j, w'.Token j ↔ w.Token j ∧ j ≠ i := by
    intro j
    unfold Token
    rw [hnews, hpub, hpop]
    constructor
    · rintro (hmem | ⟨t, ht⟩ | hp)
      · exact ⟨.inl hmem, fun heq => hnot (heq ▸ hmem)⟩
      · exact ⟨.inr (.inl ⟨t, ht⟩), fun heq => hfree t (heq ▸ ht)⟩
      · exact absurd hp (hpopped j)
    rintro ⟨hmem | ht | hp, hne⟩
    · exact .inl hmem
    · exact .inr (.inl ht)
    · exact absurd hp hne
  have hmem : i < w.board.mailboxes.length := (List.getElem?_eq_some_iff.mp hi).1
  refine ⟨?_, ⟨?_, fun t1 t2 j h1 h2 => ?_, fun t j hj => ?_, fun j hj => absurd hj (hpopped j),
    fun j n hj => ?_, fun j hj => ?_⟩, fun j n hj hopen => ?_⟩
  · rw [hboard]
    exact h.wellformed.write hi (requeued_wellformed (h.wellformed.mailbox i m hi) false) rfl rfl
      fun hfree' => h.wellformed.idle i hfree' m hi
  · rw [hnews]
    exact h.tokens.nodup
  · rw [hpub] at h1 h2
    exact h.tokens.single t1 t2 j h1 h2
  · rw [hpub] at hj
    rw [hnews]
    exact ⟨(h.tokens.pushing t j hj).1, hpopped j⟩
  · rw [htoken]
    rw [hboard, mailboxes_set hi] at hj
    split at hj
    next heq =>
      cases hj
      simp [heq]
    rename_i hne
    rw [h.tokens.queued j n hj]
    exact ⟨fun ht => ⟨ht, hne⟩, And.left⟩
  · rw [hboard, length_set]
    rcases hj with hj | hj | hj
    · exact h.tokens.range j (.inl ((htoken j).mp hj).1)
    · rw [(hcleared j).mp hj]
      exact hmem
    · exact h.tokens.range j (.inr (.inr (hpub ▸ hj)))
  rw [hboard, mailboxes_set hi] at hj
  split at hj
  next heq =>
    cases hj
    subst heq
    exact (h.told j m hi hopen).keep (by rw [hlog]) (fun o ho _ => hrep ▸ ho) rfl rfl
      fun _ => .inr (.inr ((hcleared j).mpr rfl))
  rename_i hne
  refine (h.told j n hj hopen).keep (by rw [hlog]) (fun o ho _ => hrep ▸ ho) rfl rfl ?_
  rintro (hp | hq | hc)
  · exact .inl (hpub ▸ hp)
  · exact .inr (.inl hq)
  · exact absurd hc (hidle j)

theorem Sound.readMailbox (h : w.Sound) (hi : w.board.mailboxes[i]? = some m)
    (hclear : ∀ j, w.Cleared j ↔ j = i) (hpop : ∀ j, ¬ w.Popped j) (hboard : w'.board = w.board)
    (hpub : w'.publishers = w.publishers) (hpopped : ∀ j, ¬ w'.Popped j)
    (hcleared : ∀ j, ¬ w'.Cleared j)
    (hlog : ∀ j g, j ≠ i → latest ⟨j, g⟩ w'.log = latest ⟨j, g⟩ w.log)
    (hrep : ∀ o ∈ w.reported, o.operation.index ≠ i → o ∈ w'.reported)
    (htold : m.isOpen = true → w'.Told i m) : w'.Sound := by
  refine ⟨hboard ▸ h.wellformed, h.tokens.congr (by rw [hboard]) (fun t j => by rw [hpub])
    (fun j => iff_of_false (hpopped j) (hpop j)) (by rw [hboard])
    (fun j n hj => ⟨n, hboard ▸ hj, rfl⟩) fun j hj => ?_, fun j n hj hopen => ?_⟩
  · rcases hj with hj | hj
    · exact absurd hj (hcleared j)
    · exact h.tokens.range j (.inr (.inr (hpub ▸ hj)))
  rw [hboard] at hj
  by_cases hne : j = i
  · subst hne
    cases hi.symm.trans hj
    exact htold hopen
  refine (h.told j n hj hopen).keep (hlog j _ hne) (fun o ho hop => ?_) rfl rfl ?_
  · refine hrep o ho ?_
    rw [hop]
    exact hne
  rintro (hp | hq | hc)
  · exact .inl (hpub ▸ hp)
  · exact .inr (.inl hq)
  · exact absurd ((hclear j).mp hc) hne

end Owners

/-! ## Every step -/

theorem open_some {b' : CompletionBoard} {id : OperationId} (h : b.open = some (id, b')) :
    ∃ i m, b.mailboxes[i]? = some m ∧ id = ⟨i, m.generation⟩ ∧
      b'.mailboxes = b.mailboxes.set i { m with isOpen := true } ∧ b'.news = b.news := by
  unfold CompletionBoard.open at h
  split at h
  · cases h
  rename_i i rest hfree
  split at h
  · cases h
  rename_i m hi
  cases h
  exact ⟨i, m, hi, rfl, rfl, rfl⟩

theorem close_news (h : b.Wellformed) (id : OperationId) : (b.close id).2.news = b.news ∧
    ((b.close id).2 = b ∨ ∃ i m m', b.mailboxes[i]? = some m ∧
      (b.close id).2.mailboxes = b.mailboxes.set i m' ∧ m'.isOpen = false ∧
      m'.queued = m.queued) := by
  unfold CompletionBoard.close
  rcases hm : b.mailbox? id with _ | m
  · exact ⟨rfl, .inl rfl⟩
  have hi : b.mailboxes[id.index]? = some m := by
    unfold mailbox? at hm
    split at hm
    · exact hm
    · cases hm
  have hwf := h.mailbox _ _ hi
  simp only
  split
  · exact ⟨rfl, .inl rfl⟩
  rename_i hopen
  simp only [Bool.not_eq_true', not_or, Bool.not_eq_false, ne_eq, not_not] at hopen
  have hlive : m.contradictory.value ≠ .retired := fun hret =>
    nomatch hopen.1.symm.trans (hwf.retired hret).1
  rw [hwf.close hlive]
  rcases hcloses : m.record.closes with _ | _
  · simp only [Bool.false_eq_true, if_false, set_self hi]
    exact ⟨trivial, .inl trivial⟩
  have hclosed := (hwf.closed hcloses).2.1
  have hqueued : m.closed.queued = m.queued := by
    unfold Mailbox.closed
    split <;> rfl
  simp only [if_true]
  split
  · exact ⟨rfl, .inr ⟨_, m, m.closed, hi, rfl, hclosed, hqueued⟩⟩
  · exact ⟨rfl, .inr ⟨_, m, m.closed, hi, rfl, hclosed, hqueued⟩⟩

theorem mem_report_self (seen : Observation) (observations : List Observation) :
    seen ∈ report seen observations := by
  unfold report
  split
  next hany =>
    obtain ⟨earlier, hmem, heq⟩ := any_eq_true.mp hany
    exact mem_map.mpr ⟨earlier, hmem, if_pos (of_decide_eq_true heq)⟩
  · simp

theorem mem_report_other {seen o : Observation} {observations : List Observation}
    (h : o ∈ observations) (hne : o.operation ≠ seen.operation) : o ∈ report seen observations := by
  unfold report
  split
  · exact mem_map.mpr ⟨o, h, if_neg hne⟩
  · exact mem_append_left _ h

section Reached

variable [DecidableEq T]

theorem setPublisher_self (w : World T) (t : T) (p : Publisher) :
    (w.setPublisher t p).publishers t = p := by
  simp [setPublisher]

theorem setPublisher_other (w : World T) {t t' : T} (p : Publisher) (h : t' ≠ t) :
    (w.setPublisher t p).publishers t' = w.publishers t' := by
  simp [setPublisher, h]

theorem Sound.record (h : w.Sound) (t : T) (id : OperationId) (p : Publication) :
    ∃ o, w.step (.record t id p) = .ok o ∧ ∀ w', o = some w' → w'.Sound := by
  unfold World.step
  simp only
  cases ht : w.publishers t with
  | recorded | announcing => exact ⟨_, rfl, by simp⟩
  | idle =>
    simp only
    rcases hm : w.board.mailbox? id with _ | m
    · exact ⟨_, rfl, fun w' hw' => some.inj hw' ▸ h⟩
    have hi : w.board.mailboxes[id.index]? = some m := by
      unfold mailbox? at hm
      split at hm
      · exact hm
      · cases hm
    have hwf := h.wellformed.mailbox _ _ hi
    have hsame : ({ w with board := w.board.set id.index m } : World T).Sound := by
      rw [set_self hi]
      exact h
    by_cases hcur : id.generation = m.generation ∧ m.contradictory.value ≠ .retired
    · obtain ⟨hg, hlive⟩ := hcur
      obtain ⟨⟨published, m', announced⟩, hy, hrec⟩ := hwf.publish hlive p
      simp only [hg, hy, ok_bind]
      cases announced with
      | false =>
        have hkeep : m' = m := hrec.silent rfl
        subst hkeep
        exact ⟨_, rfl, fun w' hw' => some.inj hw' ▸ hsame⟩
      | true =>
        refine ⟨_, rfl, fun w' hw' => some.inj hw' ▸ ?_⟩
        refine h.recorded hi ht hrec.wellformed hrec.keeps hrec.marker (by rfl)
          ⟨setPublisher_self _ t _, fun t' => setPublisher_other _ _, rfl, rfl⟩ ?_
        show Event.recorded id :: w.log = _
        rw [← hg]
    have hstale : id.generation ≠ m.generation ∨ m.contradictory.value = .retired := by
      by_contra hcon
      push Not at hcon
      exact hcur hcon
    simp only [hwf.stale hstale p, ok_bind]
    exact ⟨_, rfl, fun w' hw' => some.inj hw' ▸ hsame⟩

theorem Sound.step (h : w.Sound) (label : Label T) :
    ∃ o, w.step label = .ok o ∧ ∀ w', o = some w' → w'.Sound := by
  have hidle : ∀ {owner : Owner}, w.owner = owner → (∀ l s i, owner ≠ .popped l s i) →
      (∀ l s i, owner ≠ .cleared l s i) → ∀ j, ¬ w.Popped j ∧ ¬ w.Cleared j := by
    rintro owner howner hp hc j
    exact ⟨fun ⟨l, s, hj⟩ => hp l s j (howner.symm.trans hj),
      fun ⟨l, s, hj⟩ => hc l s j (howner.symm.trans hj)⟩
  cases label with
  | record t id p => exact h.record t id p
  | exchange t =>
    unfold World.step
    simp only
    cases ht : w.publishers t with
    | idle | announcing => exact ⟨_, rfl, by simp⟩
    | recorded =>
      obtain ⟨m, hi⟩ := h.tokens.mailbox (.inr (.inr ⟨t, ht⟩))
      simp only [hi]
      cases hq : m.queued with
      | true =>
        refine ⟨_, rfl, fun w' hw' => some.inj hw' ▸ ?_⟩
        exact h.coalesced hi ht hq rfl
          ⟨setPublisher_self _ t _, fun t' => setPublisher_other _ _, rfl, rfl⟩ rfl
      | false =>
        refine ⟨_, rfl, fun w' hw' => some.inj hw' ▸ ?_⟩
        exact h.exchanged hi ht hq rfl
          ⟨setPublisher_self _ t _, fun t' => setPublisher_other _ _, rfl, rfl⟩ rfl
  | push t =>
    unfold World.step
    simp only
    cases ht : w.publishers t with
    | idle | recorded => exact ⟨_, rfl, by simp⟩
    | announcing =>
      simp only [if_pos (h.tokens.room ht)]
      refine ⟨_, rfl, fun w' hw' => some.inj hw' ▸ ?_⟩
      exact h.pushed ht rfl
        ⟨setPublisher_self _ t _, fun t' => setPublisher_other _ _, rfl, rfl⟩ rfl
  | «open» =>
    unfold World.step
    simp only
    split
    · have hadv := h.wellformed.open
      rcases hopen : w.board.open with _ | opened
      · exact ⟨_, rfl, fun w' hw' => some.inj hw' ▸ h⟩
      obtain ⟨id, b'⟩ := opened
      rw [hopen] at hadv
      obtain ⟨i, m, hi, rfl, hmail, hnews⟩ := open_some hopen
      refine ⟨_, rfl, fun w' hw' => some.inj hw' ▸ ?_⟩
      refine h.rewritten hi hadv.wellformed hmail rfl hnews rfl rfl rfl
        (fun j g hne => ?_) fun _ => .inl ?_
      · exact latest_cons_other _ (decide_eq_false fun heq => hne (congrArg Id.index heq).symm)
      · exact latest_cons_self _ (by simp [Event.about])
    · exact ⟨_, rfl, by simp⟩
  | close id =>
    unfold World.step
    simp only
    split
    · refine ⟨_, rfl, fun w' hw' => some.inj hw' ▸ ?_⟩
      have hwf := (h.wellformed.close id).1.wellformed
      obtain ⟨hnews, hsame | ⟨i, m, m', hi, hmail, hclosed, hqueued⟩⟩ := close_news h.wellformed id
      · exact h.turned hsame rfl rfl (popped_congr rfl) (cleared_congr rfl) rfl
      exact h.rewritten hi hwf hmail hqueued hnews rfl rfl rfl (fun _ _ _ => rfl)
        fun hopen => nomatch hclosed.symm.trans hopen
    · exact ⟨_, rfl, by simp⟩
  | harvest limit =>
    unfold World.step
    simp only
    split
    next howner =>
      refine ⟨_, rfl, fun w' hw' => some.inj hw' ▸ ?_⟩
      have hnot := hidle howner (by simp) (by simp)
      refine h.turned rfl rfl rfl (fun j => iff_of_false ?_ (hnot j).1)
        (fun j => iff_of_false ?_ (hnot j).2) ?_
      · simp [Popped]
      · simp [Cleared]
      · simp [reported, howner, Owner.seen]
    · exact ⟨_, rfl, by simp⟩
  | pop =>
    unfold World.step
    simp only
    split
    next limit seen howner =>
      have hnot := hidle howner (by simp) (by simp)
      have hfin : (w.finish seen).Sound := by
        refine h.turned rfl rfl rfl (fun j => iff_of_false ?_ (hnot j).1)
          (fun j => iff_of_false ?_ (hnot j).2) ?_
        · simp [Popped, finish]
        · simp [Cleared, finish]
        · simp [reported, howner, Owner.seen, finish]
      split
      · rcases hnews : w.board.news with _ | _
        · exact ⟨_, rfl, fun w' hw' => some.inj hw' ▸ hfin⟩
        refine ⟨_, rfl, fun w' hw' => some.inj hw' ▸ ?_⟩
        refine h.popped hnews hnot rfl rfl (fun j => ?_) (fun j => ?_) rfl ?_
        · simp [Popped, eq_comm]
        · simp [Cleared]
        · simp [reported, howner, Owner.seen]
      · exact ⟨_, rfl, fun w' hw' => some.inj hw' ▸ hfin⟩
    · exact ⟨_, rfl, by simp⟩
  | clear =>
    unfold World.step
    simp only
    split
    next limit seen i howner =>
      obtain ⟨m, hi⟩ := h.tokens.mailbox (.inl (.inr (.inr ⟨limit, seen, howner⟩)))
      simp only [hi]
      refine ⟨_, rfl, fun w' hw' => some.inj hw' ▸ ?_⟩
      refine h.cleared hi (fun j => ?_) (fun j => ?_) rfl rfl (fun j => ?_) (fun j => ?_) rfl ?_
      · simp [Popped, howner, eq_comm]
      · simp [Cleared, howner]
      · simp [Popped]
      · simp [Cleared, eq_comm]
      · simp [reported, howner, Owner.seen]
    · exact ⟨_, rfl, by simp⟩
  | read =>
    unfold World.step
    simp only
    split
    next limit seen i howner =>
      obtain ⟨m, hi⟩ := h.tokens.mailbox (.inr (.inl ⟨limit, seen, howner⟩))
      have hclear : ∀ j, w.Cleared j ↔ j = i := fun j => by simp [Cleared, howner, eq_comm]
      have hpop : ∀ j, ¬ w.Popped j := fun j => by simp [Popped, howner]
      simp only [hi]
      cases hopen : m.isOpen with
      | false =>
        refine ⟨_, rfl, fun w' hw' => some.inj hw' ▸ ?_⟩
        refine h.readMailbox hi hclear hpop rfl rfl (fun j => ?_) (fun j => ?_) (fun _ _ _ => rfl)
          (fun o ho _ => ?_) fun htrue => nomatch hopen.symm.trans htrue
        · simp [Popped]
        · simp [Cleared]
        · simpa [reported, howner, Owner.seen] using ho
      | true =>
        refine ⟨_, rfl, fun w' hw' => some.inj hw' ▸ ?_⟩
        refine h.readMailbox hi hclear hpop rfl rfl (fun j => ?_) (fun j => ?_)
          (fun j g hne => ?_) (fun o ho hne => ?_) fun _ => .inr (.inl ⟨?_, ?_⟩)
        · simp [Popped]
        · simp [Cleared]
        · exact latest_cons_other _ (decide_eq_false fun heq => hne (congrArg Id.index heq).symm)
        · simp only [reported, howner, Owner.seen, mem_append] at ho ⊢
          refine ho.imp_left fun ho => mem_report_other ho fun heq => hne ?_
          rw [heq]
          rfl
        · exact latest_cons_self _ (decide_eq_true rfl)
        · exact mem_append_left _ (mem_report_self _ _)
    · exact ⟨_, rfl, by simp⟩

theorem Reachable.sound (h : Reachable w) : w.Sound := by
  induction h with
  | init hcreate =>
    rename_i board
    have hnews : board.news = [] := by
      obtain ⟨_, -, hb⟩ := bind_ok hcreate
      cases hb
      rfl
    have hfresh : ∀ (i : Nat) (m : Mailbox), board.mailboxes[i]? = some m →
        m.queued = false ∧ m.isOpen = false := by
      intro i m hi
      obtain ⟨_, -, hb⟩ := bind_ok hcreate
      cases hb
      rw [eq_of_mem_replicate (mem_of_getElem? hi)]
      exact ⟨rfl, rfl⟩
    have htoken : ∀ i, ¬ (⟨board, fun _ => .idle, .idle, [], []⟩ : World T).Token i := fun i => by
      simp [Token, hnews, Popped]
    refine ⟨create_wellformed hcreate, ⟨?_, ?_, ?_, ?_, fun i m hi => ?_, fun i hi => ?_⟩,
      fun i m hi hopen => ?_⟩
    · simp [hnews]
    · simp
    · simp
    · simp [Popped]
    · exact iff_of_false (by simp [(hfresh i m hi).1]) (htoken i)
    · rcases hi with hi | hi | hi
      · exact absurd hi (htoken i)
      · simp [Cleared] at hi
      · simp at hi
    · exact nomatch (hfresh i m hi).2.symm.trans hopen
  | step label _ hstep ih =>
    obtain ⟨o, ho, hsound⟩ := ih.step label
    exact hsound _ (Except.ok.inj (ho.symm.trans hstep))

/-- Nobody is between two steps: no publisher has its mailbox to announce or its index to push,
    and no harvest has an index popped that it has not read. -/
def Quiet (w : World T) : Prop :=
  (∀ t, w.publishers t = .idle) ∧ ∀ i, ¬ w.Popped i ∧ ¬ w.Cleared i

/-- **No completion is lost and the ring never overflows.** In every world reached, an index is in
    the ring at most once, so the ring has a place for each mailbox, and no check fires whatever
    step comes next. When the ring is empty and nobody is between two steps, an open mailbox was
    either not published to since it was opened, or the newest thing that happened to it is that
    the owner read what it holds now, in an observation of its generation that was reported. -/
theorem no_completion_lost (h : Reachable w) :
    (w.board.news.Nodup ∧ w.board.news.length ≤ w.board.mailboxes.length ∧
      ∀ label, ∃ o, w.step label = .ok o) ∧
    (w.board.news = [] → w.Quiet → ∀ (i : Nat) (m : Mailbox), w.board.mailboxes[i]? = some m →
      m.isOpen = true →
      latest ⟨i, m.generation⟩ w.log = some (.opened ⟨i, m.generation⟩) ∨
      (latest ⟨i, m.generation⟩ w.log = some (.observed (m.observation i)) ∧
        m.observation i ∈ w.reported)) := by
  have hsound := h.sound
  refine ⟨⟨hsound.tokens.nodup, ?_, fun label => ?_⟩, fun hempty hquiet i m hi hopen => ?_⟩
  · have hsub : w.board.news ⊆ List.range w.board.mailboxes.length := fun j hj =>
      mem_range.mpr (hsound.tokens.range j (.inl (.inl hj)))
    have hle := (subperm_of_subset hsound.tokens.nodup hsub).length_le
    rw [length_range] at hle
    exact hle
  · obtain ⟨o, ho, -⟩ := hsound.step label
    exact ⟨o, ho⟩
  obtain ⟨hidle, howner⟩ := hquiet
  rcases hsound.told i m hi hopen with htold | htold | ⟨-, hpen⟩
  · exact .inl htold
  · exact .inr htold
  -- Nobody is left who could still read it.
  rcases hpen with ⟨t, ht⟩ | hq | hc
  · exact nomatch (hidle t).symm.trans ht
  · rcases (hsound.tokens.queued i m hi).mp hq with hmem | ⟨t, ht⟩ | hp
    · rw [hempty] at hmem
      cases hmem
    · exact nomatch (hidle t).symm.trans ht
    · exact absurd hp (howner i).1
  · exact absurd hc (howner i).2

def runs (w : World T) : List (Label T) → Checked (Option (World T))
  | [] => .ok (some w)
  | label :: labels => do
    match ← w.step label with
    | none => return none
    | some w => w.runs labels

theorem Reachable.runs (h : Reachable w) {labels : List (Label T)}
    (hrun : w.runs labels = .ok (some w')) : Reachable w' := by
  induction labels generalizing w with
  | nil => cases hrun; exact h
  | cons label labels ih =>
    obtain ⟨o, ho, hrest⟩ := bind_ok hrun
    cases o with
    | none => exact absurd hrest (by simp [pure, Except.pure])
    | some => exact ih (.step label h ho) hrest

/-- One publisher has set the flag and not pushed; the other finds it set, and what it recorded is
    read all the same. -/
def coalescing : List (Label Bool) :=
  [.open, .record true ⟨0, 1⟩ (.accept .accepted (by decide)), .exchange true,
    .record false ⟨0, 1⟩ (.complete { outcome := .succeeded, bytes := 7 }), .exchange false,
    .push true, .harvest 5, .pop, .clear, .read, .pop]

theorem no_completion_lost_coalesced :
    ∃ (w : World Bool) (m : Mailbox), w.board.mailboxes[0]? = some m ∧ m.isOpen = true ∧
      (m.observation 0).terminal = some { outcome := .succeeded, bytes := 7 } ∧
      m.observation 0 ∈ w.harvested := by
  obtain ⟨board, hcreate⟩ : ∃ board, CompletionBoard.create 1 1 = .ok board := ⟨_, rfl⟩
  obtain ⟨w, hrun, hnews, hquiet, howner, m, hm, hopen, hter, hlat⟩ :
      ∃ w : World Bool, World.runs { board } coalescing = .ok (some w) ∧ w.board.news = [] ∧
        (∀ t, w.publishers t = .idle) ∧ w.owner = .idle ∧
        ∃ m : Mailbox, w.board.mailboxes[0]? = some m ∧ m.isOpen = true ∧
          (m.observation 0).terminal = some { outcome := .succeeded, bytes := 7 } ∧
          latest ⟨0, m.generation⟩ w.log ≠ some (.opened ⟨0, m.generation⟩) := by
    cases hcreate
    refine ⟨_, rfl, rfl, ?_, rfl, _, rfl, rfl, rfl, ?_⟩
    · intro t
      cases t <;> rfl
    intro heq
    exact absurd (some.inj heq) (by simp)
  have hquiet' : w.Quiet := ⟨hquiet, fun i => by simp [Popped, Cleared, howner]⟩
  rcases (no_completion_lost (Reachable.runs (.init hcreate) hrun)).2 hnews hquiet' 0 m hm hopen
    with hope | ⟨-, hmem⟩
  · exact absurd hope hlat
  refine ⟨w, m, hm, hopen, hter, ?_⟩
  simpa [reported, howner, Owner.seen] using hmem

end Reached

end World
end JitLlm.Completions
