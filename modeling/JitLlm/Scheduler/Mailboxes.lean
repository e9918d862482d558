import JitLlm.Scheduler.Invariant

/-!
# Operations' records and their mailboxes

What opening, publishing, answering and closing do to `Mailboxes`, and to what `find` finds. The
one subtle case is `RollBack`: the scheduler itself answers for an operation no lane took, so its
mailbox is for a moment not clean while the record says unpublished. The record is closed in the
same call, and a lemma about closing needs only that it *might* have been published.
-/

namespace JitLlm.Scheduler

open Base Lib List Option
open Catalog hiding Operation Reachable

/-! ## Finding -/

variable {id : OperationId}

theorem find_eq_some {s : Scheduler} {op : Operation} : s.find id = some op ↔
      s.operations[id.index]? = some (some op) ∧ op.id = id ∧ id.valid = true := by
  unfold find
  constructor
  · intro h
    split at h
    next op' hop =>
      split at h
      next hid =>
        cases h
        exact ⟨hop, hid.2, hid.1⟩
      · cases h
    · cases h
  rintro ⟨hop, hid, hv⟩
  simp [hop, hid, hv]

theorem find_set {s : Scheduler} {c : Option Operation} (hcell : ∀ op, c = some op → op.id = id)
    (hv : id.valid = true) (hi : id.index < s.operations.length)
    (hold : ∀ op, s.operations[id.index]? = some (some op) → op.id = id) (id' : OperationId) :
    find { s with operations := s.operations.set id.index c } id' =
      if id' = id then c else s.find id' := by
  by_cases hid : id' = id
  · subst hid
    cases c with
    | none => simp [find, getElem?_set_self hi]
    | some op => simp [find, getElem?_set_self hi, hcell op rfl, hv]
  rw [if_neg hid]
  by_cases hidx : id'.index = id.index
  · -- Another generation of the slot: found neither before nor after.
    have hold' : s.find id' = none := by
      rcases hf : s.find id' with _ | op
      · rfl
      obtain ⟨hop, hopid, -⟩ := find_eq_some.mp hf
      rw [hidx] at hop
      exact absurd (hopid.symm.trans (hold op hop)) hid
    rw [hold']
    cases c with
    | none => simp [find, hidx, getElem?_set_self hi]
    | some op =>
      have hne : op.id ≠ id' := fun h => hid (h.symm.trans (hcell op rfl))
      simp [find, hidx, getElem?_set_self hi, hne]
  unfold find
  simp only [getElem?_set_ne (Ne.symm hidx)]

/-! ## Mailboxes -/

namespace Mailboxes

variable {b b' : CompletionBoard} {ops : List (Option Operation)} {log : List Event} {i : Nat}
    {m m' : Mailbox} {command : Command} {op : Operation}

theorem cons (h : Mailboxes b ops log) {event : Event}
    (hne : ∀ id command, event ≠ .took id command) : Mailboxes b ops (event :: log) :=
  { h with
    took := fun id command hmem => by
      rcases mem_cons.mp hmem with hmem | hmem
      · exact absurd hmem.symm (hne id command)
      · exact h.took id command hmem
    asked := fun i op hop => ⟨fun hpub => by
      obtain ⟨command, hmem⟩ := (h.asked i op hop).1 hpub
      exact ⟨command, mem_cons_of_mem _ hmem⟩, (h.asked i op hop).2⟩ }

theorem set (h : Mailboxes b ops log) (hm : b.mailboxes[i]? = some m)
    (hb : b'.mailboxes = b.mailboxes.set i m') (hfree : b'.free = b.free)
    (hcount : b'.openCount = b.openCount) (hgen : m'.generation = m.generation)
    (hopen : m'.isOpen = m.isOpen) (hret : m'.retired = m.retired)
    (hreti : m'.retired = true → m'.acceptance ≠ .none ∧ m'.terminal.isSome = true)
    (hclean : (m.clean → m'.clean) ∨ ∃ op, ops[i]? = some (some op) ∧ op.published = true) :
    Mailboxes b' ops log := by
  have hi := (List.getElem?_eq_some_iff.mp hm).1
  have hself : b'.mailboxes[i]? = some m' := by rw [hb, getElem?_set_self hi]
  have hother : ∀ j, j ≠ i → b'.mailboxes[j]? = b.mailboxes[j]? := fun j hj => by
    rw [hb, getElem?_set_ne (Ne.symm hj)]
  refine ⟨by rw [hb, length_set]; exact h.length, fun j m1 hm1 => ?_, fun j op hop => ?_,
    fun j m1 hm1 ho => ?_, fun j m1 hm1 hr => ?_, hfree ▸ h.nodup, fun j hj => ?_,
    fun id command hmem => ?_, h.asked, ?_⟩
  · by_cases hj : j = i
    · subst hj
      cases hself.symm.trans hm1
      rw [hgen]
      exact h.generation j m hm
    rw [hother j hj] at hm1
    exact h.generation j m1 hm1
  · obtain ⟨hidx, m1, hm1, hiso, hg, hc⟩ := h.record j op hop
    by_cases hj : j = i
    · subst hj
      cases hm.symm.trans hm1
      refine ⟨hidx, m', hself, hopen.trans hiso, hgen.trans hg, fun hpub => ?_⟩
      rcases hclean with hclean | ⟨op', hop', hpub'⟩
      · exact hclean (hc hpub)
      cases some.inj (hop.symm.trans hop')
      cases hpub.symm.trans hpub'
    · exact ⟨hidx, m1, (hother j hj).trans hm1, hiso, hg, hc⟩
  · by_cases hj : j = i
    · subst hj
      cases hself.symm.trans hm1
      exact h.filled j m hm (hopen ▸ ho)
    rw [hother j hj] at hm1
    exact h.filled j m1 hm1 ho
  · by_cases hj : j = i
    · subst hj
      cases hself.symm.trans hm1
      exact hreti hr
    rw [hother j hj] at hm1
    exact h.retired j m1 hm1 hr
  · rw [hfree] at hj
    obtain ⟨m1, hm1, hclosed, hc⟩ := h.free j hj
    by_cases hji : j = i
    · subst hji
      cases hm.symm.trans hm1
      refine ⟨m', hself, hopen.trans hclosed, ?_⟩
      rcases hclean with hclean | ⟨op, hop, -⟩
      · exact hclean hc
      obtain ⟨-, m2, hm2, hiso, -⟩ := h.record j op hop
      cases hm.symm.trans hm2
      cases hclosed.symm.trans hiso
    · exact ⟨m1, (hother j hji).trans hm1, hclosed, hc⟩
  · obtain ⟨m1, hm1, hcase⟩ := h.took id command hmem
    by_cases hj : id.index = i
    · rw [hj] at hm1
      cases hm.symm.trans hm1
      refine ⟨m', by rw [hj]; exact hself, ?_⟩
      rw [hgen, hret]
      exact hcase
    · exact ⟨m1, (hother _ hj).trans hm1, hcase⟩
  have hset := sum_map_set (fun m : Mailbox => m.isOpen.toNat) m' hm
  rw [hb, hcount, ← h.count]
  simp only [hopen] at hset
  omega

theorem of_eq (h : Mailboxes b ops log) (hb : b'.mailboxes = b.mailboxes)
    (hfree : b'.free = b.free) (hcount : b'.openCount = b.openCount) : Mailboxes b' ops log := by
  refine ⟨?_, ?_, ?_, ?_, ?_, ?_, ?_, ?_, h.asked, ?_⟩
  · rw [hb]; exact h.length
  · rw [hb]; exact h.generation
  · rw [hb]; exact h.record
  · rw [hb]; exact h.filled
  · rw [hb]; exact h.retired
  · rw [hfree]; exact h.nodup
  · rw [hb, hfree]; exact h.free
  · rw [hb]; exact h.took
  · rw [hb, hcount]; exact h.count

theorem announce (h : Mailboxes b ops log) : Sat (fun f => f = .missing ∨ f = .newsOverflow)
      (fun b' => Mailboxes b' ops log ∧ b'.free = b.free ∧ b'.openCount = b.openCount ∧
        b'.retired = b.retired ∧ b'.mailboxes.length = b.mailboxes.length ∧
        ∀ (j : Nat) (m : Mailbox), b.mailboxes[j]? = some m →
          ∃ q, b'.mailboxes[j]? = some { m with queued := q })
      (b.announce i) := by
  unfold CompletionBoard.announce
  rcases hm : b.mailboxes[i]? with _ | m
  · exact .inl rfl
  simp only
  split
  · exact ⟨h, rfl, rfl, rfl, rfl, fun j m hj => ⟨m.queued, hj⟩⟩
  split
  · refine ⟨h.set hm rfl rfl rfl rfl rfl rfl (h.retired i m hm) (.inl id), rfl, rfl, rfl,
      length_set .., fun j m' hj => ?_⟩
    show ∃ q, (b.mailboxes.set i { m with queued := true })[j]? = some { m' with queued := q }
    by_cases hji : j = i
    · subst hji
      cases hm.symm.trans hj
      exact ⟨true, getElem?_set_self (List.getElem?_eq_some_iff.mp hm).1⟩
    · exact ⟨m'.queued, by rw [getElem?_set_ne (Ne.symm hji)]; exact hj⟩
  · exact .inr rfl

def Publishable (b : CompletionBoard) (ops : List (Option Operation)) (id : OperationId) : Prop :=
  ∃ m, b.mailboxes[id.index]? = some m ∧
    (id.generation < m.generation ∨ id.generation = m.generation ∧
      (m.retired = true ∨ ∃ op, ops[id.index]? = some (some op) ∧ op.published = true))

theorem publishable {id : OperationId} (h : Mailboxes b ops log)
    (hmem : Event.took id command ∈ log) : Publishable b ops id := by
  obtain ⟨m, hm, hcase⟩ := h.took id command hmem
  refine ⟨m, hm, hcase.imp_right fun hcase => ⟨hcase.1, hcase.2.imp_right ?_⟩⟩
  rintro ⟨op, hop, -, hpub⟩
  exact ⟨op, hop, hpub⟩

def Publishes (b b' : CompletionBoard) : Prop :=
  b'.free = b.free ∧ b'.openCount = b.openCount ∧ b'.retired = b.retired ∧
    b'.mailboxes.length = b.mailboxes.length

theorem Publishes.refl (b : CompletionBoard) : Publishes b b := ⟨rfl, rfl, rfl, rfl⟩

theorem setAnnounce (h : Mailboxes b ops log)
    (hm : b.mailboxes[i]? = some m) (hgen : m'.generation = m.generation)
    (hopen : m'.isOpen = m.isOpen) (hret : m'.retired = m.retired)
    (hreti : m'.retired = true → m'.acceptance ≠ .none ∧ m'.terminal.isSome = true)
    (hclean : (m.clean → m'.clean) ∨ ∃ op, ops[i]? = some (some op) ∧ op.published = true) :
    Sat (fun f => f = .missing ∨ f = .newsOverflow)
      (fun b' => Mailboxes b' ops log ∧ Publishes b b' ∧
        ∃ q, b'.mailboxes[i]? = some { m' with queued := q })
      ((b.set i m').announce i) := by
  have hset : Mailboxes (b.set i m') ops log := h.set hm rfl rfl rfl hgen hopen hret hreti hclean
  have hi := (List.getElem?_eq_some_iff.mp hm).1
  refine (announce hset).imp ?_
  rintro b' ⟨hb', hfree, hcount, hretd, hlen, hat⟩
  refine ⟨hb', ⟨hfree, hcount, hretd, hlen.trans ?_⟩, hat i m' ?_⟩
  · exact length_set ..
  · exact getElem?_set_self hi

theorem contradict {m : Mailbox} (h : Mailboxes b ops log) (hm : b.mailboxes[i]? = some m)
    (hpub : ∃ op, ops[i]? = some (some op) ∧ op.published = true) :
    Sat (fun f => f = .missing ∨ f = .newsOverflow)
      (fun y => Mailboxes y.2 ops log ∧ Publishes b y.2) (b.contradict i m) := by
  unfold CompletionBoard.contradict
  split
  · exact ⟨h, .refl b⟩
  refine Sat.bind (h.setAnnounce hm rfl rfl rfl ?_ (.inr hpub)) fun b' hb' => ?_
  · exact h.retired i m hm
  · exact ⟨hb'.1, hb'.2.1⟩

/-- A word that is not stale, to a box not retired, is about a published operation. -/
theorem Publishable.flying {id : OperationId} (hp : Publishable b ops id)
    (hm : b.mailboxes[id.index]? = some m)
    (hgen : ¬(!id.valid || decide (m.generation ≠ id.generation)) = true)
    (hret : m.retired ≠ true) : ∃ op, ops[id.index]? = some (some op) ∧ op.published = true := by
  obtain ⟨m', hm', hcase⟩ := hp
  cases hm.symm.trans hm'
  rcases hcase with hlt | ⟨-, hret' | hop⟩
  · exact absurd (by simp [hlt.ne']) hgen
  · exact absurd hret' hret
  · exact hop

theorem accept {id : OperationId} (h : Mailboxes b ops log) (hp : Publishable b ops id)
    (acceptance : Acceptance) (hne : acceptance ≠ .none) :
    Sat (fun f => f = .missing ∨ f = .newsOverflow)
      (fun y => Mailboxes y.2 ops log ∧ Publishes b y.2) (b.accept id acceptance) := by
  unfold CompletionBoard.accept
  have ⟨m, hm, _⟩ := hp
  rw [hm]
  simp only
  split
  · exact ⟨h, .refl b⟩
  rename_i hgen
  split
  next hnone =>
    -- Nothing accepted yet, so not retired: the operation is in flight.
    have hpub := hp.flying hm hgen fun hret => (h.retired _ m hm hret).1 hnone
    refine Sat.bind (h.setAnnounce hm rfl rfl rfl ?_ (.inr hpub)) fun b' hb' => ?_
    · exact fun hr => ⟨hne, (h.retired _ m hm hr).2⟩
    · exact ⟨hb'.1, hb'.2.1⟩
  split
  · exact ⟨h, .refl b⟩
  rename_i hret
  split
  · exact ⟨h, .refl b⟩
  exact h.contradict hm (hp.flying hm hgen hret)

theorem complete {id : OperationId} (h : Mailboxes b ops log) (hp : Publishable b ops id)
    (terminal : Terminal) : Sat (fun f => f = .missing ∨ f = .newsOverflow)
      (fun y => Mailboxes y.2 ops log ∧ Publishes b y.2) (b.complete id terminal) := by
  unfold CompletionBoard.complete
  have ⟨m, hm, _⟩ := hp
  rw [hm]
  simp only
  split
  · exact ⟨h, .refl b⟩
  rename_i hgen
  cases hterm : m.terminal with
  | none =>
    have hpub := hp.flying hm hgen fun hret =>
      absurd (h.retired _ m hm hret).2 (by simp [hterm])
    refine Sat.bind (h.setAnnounce hm rfl rfl rfl ?_ (.inr hpub)) fun b' hb' => ?_
    · exact fun hr => ⟨(h.retired _ m hm hr).1, rfl⟩
    · exact ⟨hb'.1, hb'.2.1⟩
  | some recorded =>
    simp only
    split
    · exact ⟨h, .refl b⟩
    rename_i hret
    have hpub := hp.flying hm hgen hret
    split
    · split
      · refine Sat.bind (h.setAnnounce hm rfl rfl rfl ?_ (.inr hpub)) fun b' hb' => ?_
        · exact fun hr => absurd hr hret
        · exact ⟨hb'.1, hb'.2.1⟩
      · exact ⟨h, .refl b⟩
    · exact h.contradict hm hpub

theorem harvestGo (limit : Nat) (news : List Nat) (h : Mailboxes b ops log) :
    Mailboxes (CompletionBoard.harvest.go limit news b).2 ops log := by
  induction news generalizing limit b with
  | nil => exact h.of_eq rfl rfl rfl
  | cons i rest ih =>
    unfold CompletionBoard.harvest.go
    rcases hm : b.mailboxes[i]? with _ | m
    · exact ih limit h
    have hset : Mailboxes (b.set i { m with queued := false }) ops log :=
      h.set hm rfl rfl rfl rfl rfl rfl (h.retired i m hm) (.inl id)
    simp only
    split
    · exact ih limit hset
    cases limit with
    | zero => exact hset.of_eq rfl rfl rfl
    | succ limit => exact ih limit hset

theorem harvest (limit : Nat) (h : Mailboxes b ops log) :
    Mailboxes (b.harvest limit).2 ops log := by
  cases limit with
  | zero => exact h
  | succ limit => exact harvestGo limit b.news h

/-! ### Opening and closing -/

theorem setRecord {op op' : Operation} {log' : List Event} (h : Mailboxes b ops log)
    (hop : ops[i]? = some (some op)) (hid : op'.id = op.id)
    (hpub : op.published = true → op'.published = true)
    (hasked : (op'.published = true → ∃ command, Event.took op'.id command ∈ log') ∧
      (op'.quarantined = true → op'.published = true)) (hlog : ∀ event ∈ log, event ∈ log')
    (htook : ∀ id command, Event.took id command ∈ log' → Event.took id command ∈ log ∨
      id = op.id ∧ op'.published = true) : Mailboxes b (ops.set i (some op')) log' := by
  have hi := (List.getElem?_eq_some_iff.mp hop).1
  have hself : (ops.set i (some op'))[i]? = some (some op') := getElem?_set_self hi
  have hother : ∀ j, j ≠ i → (ops.set i (some op'))[j]? = ops[j]? := fun j hj =>
    getElem?_set_ne (Ne.symm hj)
  obtain ⟨hidx, m, hm, hopen, hg, hc⟩ := h.record i op hop
  refine ⟨by rw [length_set]; exact h.length, h.generation, fun j op1 hop1 => ?_,
    fun j m hm ho => ?_, h.retired, h.nodup, h.free, fun id command hmem => ?_,
    fun j op1 hop1 => ?_, h.count⟩
  · by_cases hj : j = i
    · subst hj
      cases some.inj (hself.symm.trans hop1)
      rw [hid]
      refine ⟨hidx, m, hm, hopen, hg, fun hp => hc ?_⟩
      cases hop' : op.published with
      | false => rfl
      | true => exact nomatch hp.symm.trans (hpub hop')
    rw [hother j hj] at hop1
    exact h.record j op1 hop1
  · by_cases hj : j = i
    · subst hj
      exact ⟨op', hself⟩
    rw [hother j hj]
    exact h.filled j m hm ho
  · rcases htook id command hmem with hmem | ⟨rfl, hpub'⟩
    · obtain ⟨m, hm, hcase⟩ := h.took id command hmem
      refine ⟨m, hm, hcase.imp_right fun hcase => ⟨hcase.1, hcase.2.imp_right ?_⟩⟩
      rintro ⟨op1, hop1, hid1, hpub1⟩
      by_cases hj : id.index = i
      · rw [hj] at hop1 ⊢
        cases some.inj (hop.symm.trans hop1)
        exact ⟨op', hself, hid.trans hid1, hpub hpub1⟩
      · exact ⟨op1, (hother _ hj).trans hop1, hid1, hpub1⟩
    rw [hidx]
    exact ⟨m, hm, .inr ⟨hg.symm, .inr ⟨op', hself, hid, hpub'⟩⟩⟩
  by_cases hj : j = i
  · subst hj
    cases some.inj (hself.symm.trans hop1)
    exact hasked
  rw [hother j hj] at hop1
  refine ⟨fun hpub1 => ?_, (h.asked j op1 hop1).2⟩
  obtain ⟨command, hmem⟩ := (h.asked j op1 hop1).1 hpub1
  exact ⟨command, hlog _ hmem⟩

theorem taken {id : OperationId} {op op' : Operation} (h : Mailboxes b ops log)
    (hop : ops[id.index]? = some (some op)) (hid : op.id = id) (hid' : op'.id = id)
    (hpub : op'.published = true) (command : Command) :
    Mailboxes b (ops.set id.index (some op')) (.took id command :: log) := by
  refine h.setRecord hop (hid'.trans hid.symm) (fun _ => hpub)
    ⟨fun _ => ⟨command, by rw [hid']; exact mem_cons_self⟩, fun _ => hpub⟩
    (fun _ hmem => mem_cons_of_mem _ hmem) fun id1 command1 hmem => ?_
  rcases mem_cons.mp hmem with hmem | hmem
  · exact .inr ⟨(Event.took.inj hmem).1.trans hid.symm, hpub⟩
  · exact .inl hmem

theorem forget {id : OperationId} (h : Mailboxes b ops (.took id command :: log))
    (hnone : ops[id.index]? = some none) : Mailboxes b ops log :=
  { h with
    took := fun id' command' hmem => h.took id' command' (mem_cons_of_mem _ hmem)
    asked := fun i op hop => ⟨fun hpub => by
      obtain ⟨command', hmem⟩ := (h.asked i op hop).1 hpub
      rcases mem_cons.mp hmem with hmem | hmem
      · obtain ⟨rfl, -⟩ := Event.took.inj hmem
        rw [(h.record i op hop).1, hop] at hnone
        cases hnone
      · exact ⟨command', hmem⟩, (h.asked i op hop).2⟩ }

theorem published (h : Mailboxes b ops log)
    (hop : ops[i]? = some (some op)) (hmem : Event.took op.id command ∈ log) :
    op.published = true := by
  obtain ⟨hidx, m, hm, -, hg, hclean⟩ := h.record i op hop
  obtain ⟨m', hm', hcase⟩ := h.took op.id command hmem
  rw [hidx] at hm' hcase
  cases hm.symm.trans hm'
  by_contra hpub
  rcases hcase with hlt | ⟨-, hret | ⟨op', hop', -, hpub'⟩⟩
  · omega
  · exact absurd hret (by rw [(hclean (by simpa using hpub)).2.2.2]; simp)
  cases some.inj (hop.symm.trans hop')
  exact hpub hpub'

theorem «open» {id : OperationId} (h : Mailboxes b ops log) (hopen : b.open = some (id, b'))
    (hid : op.id = id) (hpub : op.published = false) (hrun : op.quarantined = false) :
    Mailboxes b' (ops.set id.index (some op)) log ∧ ops[id.index]? = some none ∧
      id.valid = true := by
  unfold CompletionBoard.open at hopen
  rcases hfree : b.free with _ | ⟨i, rest⟩
  · simp [hfree] at hopen
  rw [hfree] at hopen
  simp only at hopen
  obtain ⟨m, hm, hclosed, hclean⟩ := h.free i (by rw [hfree]; exact mem_cons_self)
  rw [hm] at hopen
  simp only [some.injEq, Prod.mk.injEq] at hopen
  obtain ⟨rfl, rfl⟩ := hopen
  have hi := (List.getElem?_eq_some_iff.mp hm).1
  have hnone : ops[i]? = some none := by
    have hlt : i < ops.length := by rw [h.length]; exact hi
    rcases hcell : ops[i] with _ | op'
    · rw [getElem?_eq_getElem hlt, hcell]
    obtain ⟨-, m', hm', hopen', -⟩ := h.record i op' (by
      rw [getElem?_eq_getElem hlt, hcell])
    cases hm.symm.trans hm'
    cases hclosed.symm.trans hopen'
  have hnodup := h.nodup
  rw [hfree, nodup_cons] at hnodup
  have hgen := h.generation i m hm
  refine ⟨?_, hnone, by simp only [Id.valid, bne_iff_ne]; omega⟩
  have hself : (b.mailboxes.set i { m with isOpen := true })[i]? = some { m with isOpen := true } :=
    getElem?_set_self hi
  have hother : ∀ j, j ≠ i →
      (b.mailboxes.set i { m with isOpen := true })[j]? = b.mailboxes[j]? := fun j hj =>
    getElem?_set_ne (Ne.symm hj)
  have hopsSelf : (ops.set i (some op))[i]? = some (some op) :=
    getElem?_set_self (List.getElem?_eq_some_iff.mp hnone).1
  have hopsOther : ∀ j, j ≠ i → (ops.set i (some op))[j]? = ops[j]? := fun j hj =>
    getElem?_set_ne (Ne.symm hj)
  refine ⟨by simp only [CompletionBoard.set, length_set]; exact h.length,
    fun j m1 hm1 => ?_, fun j op1 hop1 => ?_, fun j m1 hm1 ho => ?_, fun j m1 hm1 hr => ?_,
    hnodup.2, fun j hj => ?_, fun id1 command hmem => ?_, fun j op1 hop1 => ?_, ?_⟩
  · by_cases hj : j = i
    · subst hj
      cases hself.symm.trans hm1
      exact hgen
    · exact h.generation j m1 ((hother j hj).symm.trans hm1)
  · by_cases hj : j = i
    · subst hj
      cases some.inj (hopsSelf.symm.trans hop1)
      exact ⟨by rw [hid], _, hself, rfl, by rw [hid], fun _ => hclean⟩
    obtain ⟨hidx, m1, hm1, hrest⟩ := h.record j op1 ((hopsOther j hj).symm.trans hop1)
    exact ⟨hidx, m1, (hother j hj).trans hm1, hrest⟩
  · by_cases hj : j = i
    · exact ⟨op, by rw [hj]; exact hopsSelf⟩
    obtain ⟨op1, hop1⟩ := h.filled j m1 ((hother j hj).symm.trans hm1) ho
    exact ⟨op1, (hopsOther j hj).trans hop1⟩
  · by_cases hj : j = i
    · subst hj
      cases hself.symm.trans hm1
      exact h.retired j m hm hr
    · exact h.retired j m1 ((hother j hj).symm.trans hm1) hr
  · have hj' : j ≠ i := fun heq => hnodup.1 (heq ▸ hj)
    obtain ⟨m1, hm1, hrest⟩ := h.free j (by rw [hfree]; exact mem_cons_of_mem _ hj)
    exact ⟨m1, (hother j hj').trans hm1, hrest⟩
  · obtain ⟨m1, hm1, hcase⟩ := h.took id1 command hmem
    by_cases hj : id1.index = i
    · rw [hj] at hm1 hcase ⊢
      cases hm.symm.trans hm1
      refine ⟨_, hself, ?_⟩
      -- The mailbox was free, so whatever was taken there was of an earlier generation.
      rcases hcase with hlt | ⟨-, hret | ⟨op1, hop1, -⟩⟩
      · exact .inl hlt
      · exact absurd hret (by rw [hclean.2.2.2]; simp)
      · cases hnone.symm.trans hop1
    refine ⟨m1, (hother _ hj).trans hm1, hcase.imp_right fun hcase => ⟨hcase.1,
      hcase.2.imp_right ?_⟩⟩
    rintro ⟨op1, hop1, hrest⟩
    exact ⟨op1, (hopsOther _ hj).trans hop1, hrest⟩
  · by_cases hj : j = i
    · subst hj
      cases some.inj (hopsSelf.symm.trans hop1)
      simp [hpub, hrun]
    · exact h.asked j op1 ((hopsOther j hj).symm.trans hop1)
  have hset := sum_map_set (fun m : Mailbox => m.isOpen.toNat) { m with isOpen := true } hm
  simp only [hclosed, Bool.toNat_false, Bool.toNat_true, h.count] at hset
  exact hset

theorem open_isSome (h : Mailboxes b ops log) (hav : b.available ≠ 0) :
    ∃ id b', b.open = some (id, b') := by
  unfold CompletionBoard.open
  rcases hfree : b.free with _ | ⟨i, _⟩
  · exact absurd (by simp [CompletionBoard.available, hfree]) hav
  obtain ⟨m, hm, -⟩ := h.free i (by rw [hfree]; exact mem_cons_self)
  simp only [hm]
  exact ⟨_, _, rfl⟩

theorem close {id : OperationId} (h : Mailboxes b ops log)
    (hop : ops[id.index]? = some (some op)) (hid : op.id = id) (hclose : b.close id = (true, b')) :
    Mailboxes b' (ops.set id.index none) log := by
  obtain ⟨-, m, hm, hiso, hgen, -⟩ := h.record _ op hop
  rw [hid] at hgen
  have hi := (List.getElem?_eq_some_iff.mp hm).1
  have hopsSelf : (ops.set id.index none)[id.index]? = some none :=
    getElem?_set_self (List.getElem?_eq_some_iff.mp hop).1
  have hopsOther : ∀ j, j ≠ id.index → (ops.set id.index none)[j]? = ops[j]? := fun j hj =>
    getElem?_set_ne (Ne.symm hj)
  have hnot : id.index ∉ b.free := by
    intro hmem
    obtain ⟨m', hm', hclosed, -⟩ := h.free _ hmem
    cases hm.symm.trans hm'
    cases hclosed.symm.trans hiso
  unfold CompletionBoard.close at hclose
  rw [hm] at hclose
  simp only at hclose
  split at hclose
  · cases hclose
  split at hclose
  · cases hclose
  rename_i hrec
  have hrec : m.reconciled = true ∧ m.contradictory = false := by simpa using hrec
  -- The mailbox closed: what it is now, and that no lane can publish for what was there.
  have key : ∀ (m' : Mailbox) (b1 : CompletionBoard),
      b1.mailboxes = b.mailboxes.set id.index m' → m'.isOpen = false →
      0 < m'.generation →
      (m'.retired = true → m'.acceptance ≠ .none ∧ m'.terminal.isSome = true) →
      (b1.free.Nodup ∧ ∀ j ∈ b1.free, (j ∈ b.free) ∨ (j = id.index ∧ m'.clean)) →
      (m.generation < m'.generation ∨ m'.generation = m.generation ∧ m'.retired = true) →
      b1.openCount = b.openCount - 1 → Mailboxes b1 (ops.set id.index none) log := by
    intro m' b1 hb1 hclosed hpos hret hfree hnext hcount
    have hself : b1.mailboxes[id.index]? = some m' := by
      rw [hb1, getElem?_set_self hi]
    have hother : ∀ j, j ≠ id.index → b1.mailboxes[j]? = b.mailboxes[j]? := fun j hj => by
      rw [hb1, getElem?_set_ne (Ne.symm hj)]
    refine ⟨by rw [hb1, length_set, length_set]; exact h.length,
      fun j m1 hm1 => ?_, fun j op1 hop1 => ?_, fun j m1 hm1 ho => ?_,
      fun j m1 hm1 hr => ?_, hfree.1, fun j hj => ?_, fun id1 command hmem => ?_,
      fun j op1 hop1 => ?_, ?_⟩
    · by_cases hj : j = id.index
      · subst hj
        cases hself.symm.trans hm1
        exact hpos
      · exact h.generation j m1 ((hother j hj).symm.trans hm1)
    · by_cases hj : j = id.index
      · subst hj
        cases hopsSelf.symm.trans hop1
      obtain ⟨hidx, m1, hm1, hrest⟩ := h.record j op1 ((hopsOther j hj).symm.trans hop1)
      exact ⟨hidx, m1, (hother j hj).trans hm1, hrest⟩
    · by_cases hj : j = id.index
      · subst hj
        cases hself.symm.trans hm1
        cases hclosed.symm.trans ho
      obtain ⟨op1, hop1⟩ := h.filled j m1 ((hother j hj).symm.trans hm1) ho
      exact ⟨op1, (hopsOther j hj).trans hop1⟩
    · by_cases hj : j = id.index
      · subst hj
        cases hself.symm.trans hm1
        exact hret hr
      · exact h.retired j m1 ((hother j hj).symm.trans hm1) hr
    · rcases hfree.2 j hj with hj | ⟨rfl, hclean⟩
      · obtain ⟨m1, hm1, hrest⟩ := h.free j hj
        have hne : j ≠ id.index := fun heq => hnot (heq ▸ hj)
        exact ⟨m1, (hother j hne).trans hm1, hrest⟩
      · exact ⟨m', hself, hclosed, hclean⟩
    · obtain ⟨m1, hm1, hcase⟩ := h.took id1 command hmem
      by_cases hj : id1.index = id.index
      · rw [hj] at hm1 ⊢
        cases hm.symm.trans hm1
        refine ⟨m', hself, ?_⟩
        rcases hnext with hlt | ⟨heq, hr⟩
        · rcases hcase with hcase | hcase <;> omega
        rcases hcase with hcase | hcase
        · exact .inl (heq ▸ hcase)
        · exact .inr ⟨hcase.1.trans heq.symm, .inl hr⟩
      refine ⟨m1, (hother _ hj).trans hm1, hcase.imp_right fun hcase => ⟨hcase.1,
        hcase.2.imp_right ?_⟩⟩
      rintro ⟨op1, hop1, hrest⟩
      exact ⟨op1, (hopsOther _ hj).trans hop1, hrest⟩
    · by_cases hj : j = id.index
      · subst hj
        cases hopsSelf.symm.trans hop1
      · exact h.asked j op1 ((hopsOther j hj).symm.trans hop1)
    have hset := sum_map_set (fun m : Mailbox => m.isOpen.toNat) m' hm
    simp only [hclosed, hiso, Bool.toNat_false, Bool.toNat_true, h.count] at hset
    rw [hb1, hcount]
    omega
  split at hclose
  · obtain ⟨-, rfl⟩ := Prod.mk.inj hclose
    refine key _ _ rfl rfl (h.generation _ m hm) (fun _ => ?_)
      ⟨h.nodup, fun j hj => .inl hj⟩ (.inr ⟨rfl, rfl⟩) rfl
    have hacc := hrec.1
    unfold Mailbox.reconciled at hacc
    cases ha : m.acceptance <;> simp [ha] at hacc ⊢
    · exact hacc.1
    · exact hacc.1
  obtain ⟨-, rfl⟩ := Prod.mk.inj hclose
  refine key _ _ rfl rfl (Nat.succ_pos _) nofun ⟨?_, ?_⟩ (.inl (Nat.lt_succ_self _)) rfl
  · show (b.free ++ [id.index]).Nodup
    rw [nodup_append]
    refine ⟨h.nodup, by simp, ?_⟩
    rintro j hj k hk rfl
    exact hnot (mem_singleton.mp hk ▸ hj)
  intro j hj
  rcases mem_append.mp hj with hj | hj
  · exact .inl hj
  · exact .inr ⟨mem_singleton.mp hj, rfl, rfl, rfl, rfl⟩

theorem acceptNotStarted {id : OperationId} (h : Mailboxes b ops log)
    (hop : ops[id.index]? = some (some op)) (hid : op.id = id) (hv : id.valid = true)
    (hpub : op.published = false) : Sat (fun f => f = .missing ∨ f = .newsOverflow)
      (fun y => y.1 = .recorded ∧ ∃ b', y.2.close id = (true, b') ∧
        Mailboxes b' (ops.set id.index none) log)
      (b.accept id .notStarted) := by
  obtain ⟨-, m, hm, hiso, hgen, hclean⟩ := h.record _ op hop
  obtain ⟨hacc, hterm, hcon, hret⟩ := hclean hpub
  rw [hid] at hgen
  -- As if a lane had taken it: the record goes with the mailbox anyway.
  have hset : Mailboxes b (ops.set id.index (some { op with published := true }))
      (.took id op.command :: log) := h.taken hop hid (by exact hid) rfl op.command
  have hself : (ops.set id.index (some { op with published := true }))[id.index]? =
      some (some { op with published := true }) :=
    getElem?_set_self (List.getElem?_eq_some_iff.mp hop).1
  unfold CompletionBoard.accept
  rw [hm]
  simp only [hv, hgen, hacc, Bool.not_true, ne_eq, not_true_eq_false, decide_false,
    Bool.or_self, Bool.false_eq_true, if_false, if_true]
  refine Sat.bind (hset.setAnnounce hm hgen.symm rfl rfl ?_ (.inr ⟨_, hself, rfl⟩)) fun b1 hb1 => ?_
  · exact fun hr => absurd hr (by rw [hret]; simp)
  obtain ⟨hboxes, -, q, hq⟩ := hb1
  have hclosed : b1.close id = (true, (b1.close id).2) := by
    unfold CompletionBoard.close
    rw [hq]
    simp only [hv, hiso, hterm, hcon, Mailbox.reconciled, Bool.not_true, Bool.or_self,
      ne_eq, not_true_eq_false, decide_false, Bool.false_eq_true, if_false, isNone_none]
    split <;> rfl
  have hfinal := hboxes.close hself hid hclosed
  rw [set_set] at hfinal
  have hnone : (ops.set id.index none)[id.index]? = some none :=
    getElem?_set_self (List.getElem?_eq_some_iff.mp hop).1
  exact ⟨rfl, _, hclosed, hfinal.forget hnone⟩

end Mailboxes
end JitLlm.Scheduler
