import JitLlm.Providers.Pieces

/-!
# What starting does

`StartQueued` only ever submits runs of pieces that wait, of reads that are not stopping: it marks
them in flight and leaves every read's head as it is, until at its end the reads with nothing to
start leave the queue.
-/

namespace JitLlm.Providers.DirectReader

open Base Lib List Option
open Scheduler (IoKind ReadSpec)

/-! ## One submission -/

structure Ready (d : DirectReader) (m : Member) : Prop where
  piece : ∃ p, d.pieceAt m = some p ∧ p.inFlight = false ∧ p.done ≠ p.length
  head : ∃ h, d.headAt m.key = some h ∧ h.stopping = false

/-- The run may be a request: pieces that wait, and if there are more than one, of reads proper
    that are not to go alone. -/
structure Startable (d : DirectReader) (run : List Member) : Prop where
  ready : ∀ m ∈ run, Ready d m
  span : 1 < run.length → ∀ m ∈ run, ∃ h, d.headAt m.key = some h ∧ h.spec.kind = .read ∧
    h.alone = false
  ordered : run.Pairwise (Before d)

structure Submits (run : List Member) (d d' : DirectReader) : Prop where
  rest : d' = { d with
    reads := d'.reads
    settled := d'.settled
    nextToken := d.nextToken + 1
    requests := d.requests.insert d.nextToken { members := run }
    log := .submitted d.nextToken (d.parts run) :: d.log }
  heads : ∀ key, d'.headAt key = d.headAt key
  pieces : ∀ m, d'.pieceAt m = (d.pieceAt m).map fun p =>
    if m ∈ run then { p with inFlight := true, token := d.nextToken } else p

section Submit

variable {d d' : DirectReader} {run : List Member}

theorem submit_safe (take : Nat → Bool) (hrun : Startable d run) :
    Safe (fun y => y.1 = true ∧ Submits run d y.2 ∨
      y.1 = false ∧ y.2 = { d with nextToken := d.nextToken + 1 }) (d.submit take run) := by
  unfold submit
  simp only
  split
  · refine Sat.bind (foldlM_edits
      (f := fun p => { p with inFlight := true, token := d.nextToken }) (markInFlight d.nextToken)
      (fun _ => rfl) editPiece_edits run fun m hm => ?_) fun d' h => ?_
    · obtain ⟨p, hp, -⟩ := (hrun.ready m hm).piece
      exact isSome_iff_exists.mpr ⟨p, hp⟩
    · exact .inl ⟨rfl, h.rest, h.heads, h.pieces⟩
  · exact .inr ⟨rfl, rfl⟩

theorem Sound.submits (h : Sound d) (hrun : Startable d run) (hne : run ≠ [])
    (hs : Submits run d d') : Sound d' := by
  have hrequ : ∀ t, d'.requests.find? t =
      if t = d.nextToken then some { members := run } else d.requests.find? t := by
    intro t
    rw [hs.rest]
    exact OrdMap.find?_insert _ _ _ _
  have hqueue : d'.queue = d.queue := by rw [hs.rest]
  have hnext : d'.nextToken = d.nextToken + 1 := by rw [hs.rest]
  have harr : d'.nextArrival = d.nextArrival := by rw [hs.rest]
  refine ⟨fun key h' hh' => ?_, fun key1 key2 h1 h2 hh1 hh2 => ?_, fun a key hq => ?_,
    fun key h' hh' hq => ?_, fun t req hreq => ?_, fun t req hreq m hm => ?_,
    fun t req hreq => ?_, fun m p' hp' hflight => ?_, fun m p' hp' => ?_⟩
  · rw [hs.heads] at hh'
    rw [harr]
    exact h.arrival key h' hh'
  · rw [hs.heads] at hh1 hh2
    exact h.distinct key1 key2 h1 h2 hh1 hh2
  · rw [hqueue] at hq
    rw [hs.heads]
    exact h.queue a key hq
  · rw [hs.heads] at hh'
    rw [hqueue]
    exact h.queued key h' hh' hq
  · rw [hrequ] at hreq
    rw [hnext]
    split at hreq
    · omega
    · exact Nat.lt_succ_of_lt (h.token t req hreq)
  · rw [hrequ] at hreq
    rw [hs.pieces]
    split at hreq
    next ht =>
      cases hreq
      obtain ⟨p, hp, -⟩ := (hrun.ready m hm).piece
      refine ⟨{ p with inFlight := true, token := d.nextToken }, ?_, rfl, ht.symm⟩
      rw [hp, map_some, if_pos hm]
    obtain ⟨p, hp, hflight, htoken⟩ := h.members t req hreq m hm
    have hnot : m ∉ run := by
      intro hmem
      obtain ⟨p0, hp0, hidle, -⟩ := (hrun.ready m hmem).piece
      cases hp.symm.trans hp0
      cases hflight.symm.trans hidle
    exact ⟨p, by rw [hp, map_some, if_neg hnot], hflight, htoken⟩
  · have hcongr : ∀ key h', d'.headAt key = some h' →
        ∃ h, d.headAt key = some h ∧ h'.arrival = h.arrival :=
      fun key h' hh' => ⟨h', (hs.heads key).symm.trans hh', rfl⟩
    rw [hrequ] at hreq
    split at hreq
    · cases hreq
      exact ⟨hne, hrun.ordered.imp fun hb => hb.congr hcongr⟩
    obtain ⟨hne', hpair⟩ := h.ordered t req hreq
    exact ⟨hne', hpair.imp fun hb => hb.congr hcongr⟩
  · rw [hs.pieces] at hp'
    obtain ⟨p, hp, rfl⟩ := map_eq_some_iff.mp hp'
    rw [hrequ]
    by_cases hmem : m ∈ run
    · simp only [if_pos hmem, if_true]
      exact ⟨_, rfl, hmem⟩
    simp only [if_neg hmem] at hflight ⊢
    obtain ⟨req, hreq, hm⟩ := h.flight m p hp hflight
    have hne : p.token ≠ d.nextToken := fun heq => absurd (h.token _ req hreq) (by omega)
    exact ⟨req, by rw [if_neg hne]; exact hreq, hm⟩
  rw [hs.pieces] at hp'
  obtain ⟨p, hp, rfl⟩ := map_eq_some_iff.mp hp'
  have hfil := h.filled m p hp
  split <;> exact hfil

theorem Sound.refused (h : Sound d) : Sound { d with nextToken := d.nextToken + 1 } :=
  ⟨h.arrival, h.distinct, h.queue, h.queued,
    fun t req hreq => Nat.lt_succ_of_lt (h.token t req hreq), h.members, h.ordered, h.flight,
    h.filled⟩

end Submit

/-! ## Gathering -/

/-- A property of the reader that starting keeps: a run that may start went, or the provider
    refused one. -/
structure Starting (P : DirectReader → Prop) : Prop where
  submits : ∀ d d' run, P d → Sound d → Startable d run → run ≠ [] → Submits run d d' → P d'
  refused : ∀ d, P d → P { d with nextToken := d.nextToken + 1 }

/-- Where `StartQueued`'s loops stand, with the members `ahead` still to be looked at. -/
structure Gathering (P : DirectReader → Prop) (d₀ : DirectReader) (ahead : List Member)
    (y : DirectReader × Gathered) : Prop where
  sound : Sound y.1
  kept : P y.1
  heads : ∀ key, y.1.headAt key = d₀.headAt key
  pieces : ∀ m, (y.1.pieceAt m).isSome = (d₀.pieceAt m).isSome
  queue : y.1.queue = d₀.queue
  run : Startable y.1 y.2.run
  apart : (y.2.run ++ ahead).Pairwise (Before d₀)

section Gather

variable {P : DirectReader → Prop} {c : ReaderSettings} {d₀ d d' : DirectReader} {g : Gathered}
  {take : Nat → Bool} {ahead ahead' : List Member} {m : Member}

section

variable (h : Gathering P d₀ ahead (d, g))
include h

theorem Gathering.later (hsub : ahead'.Sublist ahead) : Gathering P d₀ ahead' (d, g) :=
  { h with apart := h.apart.sublist (hsub.append_left _) }

theorem Gathering.submits (hP : Starting P) (hne : g.run ≠ [])
    (hs : Submits g.run d d') : Gathering P d₀ ahead (d', { g with run := [] }) where
  sound := h.sound.submits h.run hne hs
  kept := hP.submits d d' g.run h.kept h.sound h.run hne hs
  heads key := (hs.heads key).trans (h.heads key)
  pieces m := by
    rw [hs.pieces, isSome_map]
    exact h.pieces m
  queue := by
    rw [hs.rest]
    exact h.queue
  run := ⟨fun _ hm => absurd hm not_mem_nil, nofun, .nil⟩
  apart := h.apart.sublist (sublist_append_right _ _)

theorem Gathering.refused (hP : Starting P) :
    Gathering P d₀ ahead ({ d with nextToken := d.nextToken + 1 }, { g with full := true }) :=
  ⟨h.sound.refused, hP.refused d h.kept, h.heads, h.pieces, h.queue,
    ⟨fun m hm => ⟨(h.run.ready m hm).piece, (h.run.ready m hm).head⟩, h.run.span, h.run.ordered⟩,
    h.apart⟩

end

theorem Gathering.begins (h : Gathering P d₀ (m :: ahead) (d, g)) (hm : Ready d m)
    (runEnd runBytes : Nat) : Gathering P d₀ ahead (d, { g with run := [m], runEnd, runBytes }) :=
  ⟨h.sound, h.kept, h.heads, h.pieces, h.queue,
    ⟨fun _ hm' => mem_singleton.mp hm' ▸ hm, nofun, pairwise_singleton _ _⟩,
    h.apart.sublist (sublist_append_right _ _)⟩

theorem Gathering.joins {back : Member} {last reading : Reading} {offset length : Nat}
    (h : Gathering P d₀ (m :: ahead) (d, g)) (hm : Ready d m) (hback : g.run.getLast? = some back)
    (hlast : d.reads.find? back.key = some last) (hread : d.reads.find? m.key = some reading)
    (hjoins : joins c g last reading offset length = true) (runEnd runBytes : Nat) :
    Gathering P d₀ ahead (d, { g with run := g.run ++ [m], runEnd, runBytes }) := by
  simp only [DirectReader.joins, Bool.and_eq_true, Bool.not_eq_true', decide_eq_true_eq] at hjoins
  obtain ⟨⟨⟨⟨⟨⟨⟨⟨-, hlastAlone⟩, halone⟩, -⟩, hlastKind⟩, hkind⟩, -⟩, -⟩, -⟩ := hjoins
  refine ⟨h.sound, h.kept, h.heads, h.pieces, h.queue, ⟨fun m' hm' => ?_, fun _ m' hm' => ?_, ?_⟩, ?_⟩
  · rcases mem_append.mp hm' with hm' | hm'
    · exact h.run.ready m' hm'
    · exact mem_singleton.mp hm' ▸ hm
  · rcases mem_append.mp hm' with hm' | hm'
    · by_cases hlen : 1 < g.run.length
      · exact h.run.span hlen m' hm'
      -- The run was of one piece, and that one was looked at.
      obtain ⟨a, ha⟩ : ∃ a, g.run = [a] := by
        refine length_eq_one_iff.mp ?_
        have := length_pos_of_mem hm'
        omega
      rw [ha] at hm' hback
      obtain rfl := mem_singleton.mp hm'
      obtain rfl : m' = back := by simpa using hback
      exact ⟨last.head, headAt_of_find hlast, hlastKind, hlastAlone⟩
    obtain rfl := mem_singleton.mp hm'
    exact ⟨reading.head, headAt_of_find hread, hkind, halone⟩
  · have hpair : (g.run ++ [m] ++ ahead).Pairwise (Before d₀) := by simpa using h.apart
    refine (pairwise_append.mp hpair).1.imp fun hb => hb.congr fun key h' hh' => ?_
    exact ⟨h', (h.heads key).symm.trans hh', rfl⟩
  · simpa using h.apart

theorem gatherPiece_safe (hP : Starting P) {key i : Nat}
    (h : Gathering P d₀ (⟨key, i⟩ :: ahead) (d, g)) (hi : (d₀.pieceAt ⟨key, i⟩).isSome = true)
    (hhead : ∃ r, d₀.headAt key = some r ∧ r.stopping = false) :
    Safe (Gathering P d₀ ahead) (gatherPiece c take key (d, g) i) := by
  have hskip : Gathering P d₀ ahead (d, g) := h.later (sublist_cons_self _ _)
  unfold gatherPiece
  simp only
  split
  · exact hskip
  rw [← h.pieces] at hi
  obtain ⟨p, hp⟩ := isSome_iff_exists.mp hi
  obtain ⟨r, hr, hpr⟩ := pieceAt_eq_some.mp hp
  refine readAt_bind hr ?_
  refine require_bind hpr ?_
  split
  · exact hskip
  rename_i hwaits
  simp only [Bool.or_eq_true, decide_eq_true_eq, not_or, Bool.not_eq_true] at hwaits
  have hready : ∀ d' : DirectReader, d'.pieceAt ⟨key, i⟩ = some p →
      d'.headAt key = d₀.headAt key → Ready d' ⟨key, i⟩ :=
    fun d' hp' hh' => ⟨⟨p, hp', hwaits⟩, hh' ▸ hhead⟩
  split
  · exact h.begins (hready d hp (h.heads key)) _ _
  rename_i back hback
  have hmem : back ∈ g.run := mem_of_getLast? hback
  obtain ⟨h1, hh1, -⟩ := (h.run.ready back hmem).head
  obtain ⟨last, hlast, -⟩ := headAt_eq_some.mp hh1
  refine readAt_bind hlast ?_
  split
  next hjoins =>
    exact h.joins (hready d hp (h.heads key)) hback hlast hr hjoins _ _
  refine Sat.bind (submit_safe take h.run) ?_
  rintro ⟨taken, d'⟩ (⟨rfl, hs⟩ | ⟨rfl, rfl⟩)
  · have hafter := h.submits hP (ne_nil_of_mem hmem) hs
    -- The piece looked at is not of the run that went.
    have hnot : (⟨key, i⟩ : Member) ∉ g.run := fun hin =>
      ((pairwise_append.mp h.apart).2.2 _ hin _ mem_cons_self).1 rfl
    have hp' : d'.pieceAt ⟨key, i⟩ = some p := by
      rw [hs.pieces, hp, map_some, if_neg hnot]
    exact hafter.begins (hready d' hp' (hafter.heads key)) _ _
  · exact hskip.refused hP

def aheadOf (d : DirectReader) (entries : List (Nat × Nat)) : List Member :=
  entries.flatMap fun e => match d.reads.find? e.2 with
    | none => []
    | some r => (List.range r.pieces.length).map (Member.mk e.2)

theorem gatherRead_safe (hP : Starting P) {entry : Nat × Nat} {rest : List (Nat × Nat)}
    {y : DirectReader × Gathered} (h : Gathering P d₀ (aheadOf d₀ (entry :: rest)) y)
    (hentry : ∃ r, d₀.headAt entry.2 = some r) :
    Safe (Gathering P d₀ (aheadOf d₀ rest)) (gatherRead c take y entry) := by
  obtain ⟨d, g⟩ := y
  obtain ⟨h0, hh0⟩ := hentry
  obtain ⟨r0, hr0, rfl⟩ := headAt_eq_some.mp hh0
  have hahead : aheadOf d₀ (entry :: rest) =
      (List.range r0.pieces.length).map (Member.mk entry.2) ++ aheadOf d₀ rest := by
    simp only [aheadOf, flatMap_cons, hr0]
  rw [hahead] at h
  have hskip : Gathering P d₀ (aheadOf d₀ rest) (d, g) := h.later (sublist_append_right _ _)
  obtain ⟨r, hr, hhead⟩ := headAt_eq_some.mp ((h.heads entry.2).trans hh0)
  have hlen : r.pieces.length = r0.pieces.length := by
    have hiff : ∀ i, i < r.pieces.length ↔ i < r0.pieces.length := fun i => by
      have hsome := h.pieces ⟨entry.2, i⟩
      simp only [pieceAt, hr, hr0, bind_some] at hsome
      rw [← Nat.not_le, ← Nat.not_le, ← getElem?_eq_none_iff, ← getElem?_eq_none_iff,
        ← not_isSome_iff_eq_none, ← not_isSome_iff_eq_none, hsome]
    have h1 := hiff r.pieces.length
    have h2 := hiff r0.pieces.length
    omega
  unfold gatherRead
  split
  · exact hskip
  refine readAt_bind hr ?_
  split
  · exact hskip
  rename_i hstop
  have hnot : ∃ r, d₀.headAt entry.2 = some r ∧ r.stopping = false := by
    refine ⟨_, hh0, ?_⟩
    rw [← hhead]
    exact Bool.eq_false_iff.mpr hstop
  refine Sat.foldlM (I := fun is y =>
    (∀ i ∈ is, i < r0.pieces.length) ∧
      Gathering P d₀ (is.map (Member.mk entry.2) ++ aheadOf d₀ rest) y) ?_ ⟨?_, ?_⟩ |>.imp
    fun y hy => hy.2
  · rintro ⟨d', g'⟩ i is ⟨his, h'⟩
    refine Sat.imp (gatherPiece_safe hP h' ?_ hnot) fun y hy =>
      ⟨fun j hj => his j (mem_cons_of_mem _ hj), hy⟩
    simpa [pieceAt, hr0] using his i mem_cons_self
  · intro i hi
    rw [← hlen]
    exact mem_range.mp hi
  rw [hlen]
  exact h

/-! ## The whole of it -/

theorem Sound.aheadOf_ordered (h : Sound d) : (aheadOf d d.queue.entries).Pairwise (Before d) := by
  have hkey : ∀ {x : Nat × Nat} {m : Member}, m ∈ (match d.reads.find? x.2 with
      | none => []
      | some r => (List.range r.pieces.length).map (Member.mk x.2)) → m.key = x.2 := by
    intro x m hx
    split at hx
    · cases hx
    obtain ⟨i, -, rfl⟩ := mem_map.mp hx
    rfl
  refine pairwise_flatMap.mpr ⟨fun e he => ?_, ?_⟩
  · split
    · exact .nil
    refine pairwise_map.mpr (List.nodup_range.imp fun {i j} hij => ⟨?_, ?_⟩)
    · exact fun heq => hij (congrArg Member.piece heq)
    intro h1 h2 hh1 hh2
    exact Nat.le_of_eq (congrArg Reading.arrival (some.inj (hh1.symm.trans hh2)))
  -- Two entries are of two reads, the first the earlier.
  refine d.queue.sorted.imp_of_mem fun {e e'} he he' hlt => ?_
  obtain ⟨h1, hh1, ha1, -⟩ := h.queue e.1 e.2 (OrdMap.mem_entries_iff.mp he)
  obtain ⟨h2, hh2, ha2, -⟩ := h.queue e'.1 e'.2 (OrdMap.mem_entries_iff.mp he')
  intro m hm m' hm'
  refine ⟨fun heq => ?_, fun h1' h2' hh1' hh2' => ?_⟩
  · have hsame : e.2 = e'.2 := (hkey hm).symm.trans (heq ▸ hkey hm')
    rw [← hsame, hh1] at hh2
    cases hh2
    omega
  rw [hkey hm, hh1] at hh1'
  rw [hkey hm', hh2] at hh2'
  cases hh1'
  cases hh2'
  omega

/-- A property of the reader that only its requests, pieces and history matter to: leaving the
    queue keeps it. -/
def QueueBlind (P : DirectReader → Prop) : Prop :=
  ∀ d key r, d.reads.find? key = some r → Sound d → P d → ∀ queue,
    P { d.setRead key { r with queued := false } with queue }

theorem Sound.dequeue {key : Nat} {r : Reading} (h : Sound d) (hr : d.reads.find? key = some r) :
    Sound { d.setRead key { r with queued := false } with queue := d.queue.erase r.arrival } := by
  refine h.requeued (b := false) (headAt_of_find hr) (fun key' => ?_) (fun m => ?_)
    (fun a => OrdMap.find?_erase ..) rfl rfl rfl
  · show (d.setRead key { r with queued := false }).headAt key' = _
    rw [headAt_setRead]
    rfl
  · show (d.setRead key { r with queued := false }).pieceAt m = _
    rw [pieceAt_setRead]
    split
    next hkey =>
      unfold pieceAt
      rw [hkey, hr]
      rfl
    · rfl

theorem trimQueue_safe (hblind : QueueBlind P) : ∀ {entries : List (Nat × Nat)} {d : DirectReader},
    Sound d → P d → (∀ e ∈ entries, d.queue.find? e.1 = some e.2) →
    entries.Pairwise (fun e e' => e.1 < e'.1) →
    Safe (fun d' => Sound d' ∧ P d') (trimQueue d entries)
  | [], d, h, hP, _, _ => ⟨h, hP⟩
  | (arrival, key) :: rest, d, h, hP, hqueue, hsor => by
    have hentry := hqueue (arrival, key) mem_cons_self
    obtain ⟨h0, hh0, harr, -⟩ := h.queue arrival key hentry
    obtain ⟨r, hr, rfl⟩ := headAt_eq_some.mp hh0
    obtain ⟨hfirst, hrest⟩ := pairwise_cons.mp hsor
    unfold trimQueue
    refine readAt_bind hr ?_
    split
    · exact ⟨h, hP⟩
    obtain rfl : r.arrival = arrival := harr
    refine trimQueue_safe hblind (h.dequeue hr) (hblind d key r hr h hP _) (fun e he => ?_)
      hrest
    have hne : e.1 ≠ r.arrival := (Nat.ne_of_lt (hfirst e he)).symm
    simp only [OrdMap.find?_erase, if_neg hne]
    exact hqueue e (mem_cons_of_mem _ he)

theorem startQueued_safe (hP : Starting P) (hblind : QueueBlind P) (take : Nat → Bool)
    (h : Sound d) (hd : P d) : Safe (fun d' => Sound d' ∧ P d') (d.startQueued c take) := by
  have hfirst : Gathering P d (aheadOf d d.queue.entries) (d, {}) :=
    ⟨h, hd, fun _ => rfl, fun _ => rfl, rfl,
      ⟨fun _ hm => absurd hm not_mem_nil, nofun, .nil⟩,
      h.aheadOf_ordered⟩
  refine Sat.bind (Sat.foldlM (I := fun rest y => (∀ e ∈ rest, ∃ r, d.headAt e.2 = some r) ∧
    Gathering P d (aheadOf d rest) y) ?_ ⟨?_, hfirst⟩) ?_
  · rintro y e rest ⟨hrest, hy⟩
    exact Sat.imp (gatherRead_safe hP hy (hrest e mem_cons_self)) fun y' hy' =>
      ⟨fun e' he' => hrest e' (mem_cons_of_mem _ he'), hy'⟩
  · intro e he
    obtain ⟨h0, hh0, -⟩ := h.queue e.1 e.2 (OrdMap.mem_entries_iff.mp he)
    exact ⟨h0, hh0⟩
  rintro ⟨d', g⟩ ⟨-, hy⟩
  have htrim : ∀ d1 : DirectReader, Sound d1 → P d1 →
      Safe (fun d' => Sound d' ∧ P d') (trimQueue d1 d1.queue.entries) := fun d1 h1 hP1 =>
    trimQueue_safe hblind h1 hP1 (fun e he => OrdMap.mem_entries_iff.mp he) d1.queue.sorted
  simp only
  split
  next hsub =>
    simp only [Bool.and_eq_true, Bool.not_eq_true', isEmpty_eq_false_iff] at hsub
    refine Sat.bind (submit_safe take hy.run) ?_
    rintro ⟨taken, d''⟩ (⟨rfl, hs⟩ | ⟨rfl, rfl⟩)
    · have hafter := hy.submits hP hsub.2 hs
      exact htrim _ hafter.sound hafter.kept
    have hafter := hy.refused hP
    exact htrim _ hafter.sound hafter.kept
  · exact htrim _ hy.sound hy.kept

end Gather
end JitLlm.Providers.DirectReader
