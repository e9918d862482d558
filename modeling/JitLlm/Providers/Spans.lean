import JitLlm.Providers.Starts

/-!
# Withdrawing, and what a span's error says

A request may carry pieces of several reads. The reader asks the provider to cancel one only when
every read in it is stopping, and once; it starts nothing of a read that is stopping; and an error
of a request that carried more than one piece fails no read: each starts again on its own, and is
reported failed only by a request that carried it alone, or once its retries are used up.

All of it is said of the history: what was asked of the provider, what it answered, and what was
reported, each piece with the read it was of and whether that was stopping.
-/

namespace JitLlm.Providers.DirectReader

open Base Lib List
open Scheduler (IoKind ReadSpec)

/-! ## The history -/

def Part.who (p : Part) : Nat × Nat × Nat := (p.key, p.piece, p.arrival)

def Event.asksCancel (t : Nat) : Event → Bool
  | .cancelled t' _ => t' = t
  | _ => false

def Event.retries (arrival : Nat) : Event → Bool
  | .settled _ parts result =>
    (-result = eIntr || -result = eAgain) && parts.any (·.arrival = arrival)
  | _ => false

/-- Why a read may be reported failed: a request that carried it alone failed (an error, or a
    count short of a write's range), or it met more retryable errors than it is retried for. -/
def Failed (c : ReaderSettings) (log : List Event) (arrival : Nat) (error : Int) : Prop :=
  (∃ t part result, .settled t [part] result ∈ log ∧ part.arrival = arrival ∧
      (result < 0 ∧ error = -result ∨ 0 ≤ result ∧ error = eIo)) ∨
    c.retries < log.countP (Event.retries arrival)

structure Told (c : ReaderSettings) (d : DirectReader) : Prop where
  submitted : ∀ t parts, .submitted t parts ∈ d.log →
    t < d.nextToken ∧ ∀ p ∈ parts, p.stopping = false
  cancelled : ∀ t parts, .cancelled t parts ∈ d.log →
    t < d.nextToken ∧ (∀ p ∈ parts, p.stopping = true) ∧
      ∃ parts', .submitted t parts' ∈ d.log ∧ parts'.map Part.who = parts.map Part.who
  once : ∀ t, d.log.countP (Event.asksCancel t) ≤ 1
  asked : ∀ t req, d.requests.find? t = some req → req.cancelled = false →
    d.log.countP (Event.asksCancel t) = 0
  carried : ∀ t req, d.requests.find? t = some req → ∃ parts, .submitted t parts ∈ d.log ∧
    parts.map Part.who = (d.parts req.members).map Part.who
  spans : ∀ t req, d.requests.find? t = some req → 1 < req.members.length →
    ∀ m ∈ req.members, ∃ h, d.headAt m.key = some h ∧ h.spec.kind = .read
  tries : ∀ key h, d.headAt key = some h →
    h.retries ≤ d.log.countP (Event.retries h.arrival)
  failed : ∀ key h, d.headAt key = some h → h.stopping = true → h.outcome = .failed →
    Failed c d.log h.arrival h.error
  reported : ∀ a read, .finished a read ∈ d.log → read.outcome = .failed →
    Failed c d.log a read.error

section Told

variable {c : ReaderSettings} {d d' : DirectReader} {log : List Event} {event : Event}

theorem Failed.mono {a : Nat} {error : Int} (h : Failed c log a error) (events : List Event) :
    Failed c (events ++ log) a error := by
  rcases h with ⟨t, part, result, hmem, hrest⟩ | hlt
  · exact .inl ⟨t, part, result, mem_append_right _ hmem, hrest⟩
  refine .inr (Nat.lt_of_lt_of_le hlt ?_)
  rw [countP_append]
  exact Nat.le_add_left _ _

theorem parts_who {members : List Member} (h : ∀ m ∈ members,
    (d'.headAt m.key).map Reading.arrival = (d.headAt m.key).map Reading.arrival) :
    (d'.parts members).map Part.who = (d.parts members).map Part.who := by
  unfold parts
  rw [map_filterMap, map_filterMap]
  refine filterMap_congr fun m hm => ?_
  have hm := h m hm
  simp only [headAt, Option.map_map] at hm ⊢
  cases hr : d.reads.find? m.key <;> cases hr' : d'.reads.find? m.key <;>
    simp_all [Part.who, Reading.head]

theorem Told.rehead (h : Told c d) (hs : Sound d) (hlog : d'.log = d.log)
    (hrequ : d'.requests = d.requests) (hnext : d'.nextToken = d.nextToken)
    (hkept : ∀ key h0, d.headAt key = some h0 →
      ∃ h', d'.headAt key = some h' ∧ h'.arrival = h0.arrival ∧ h'.spec = h0.spec)
    (hnew : ∀ key h', d'.headAt key = some h' →
      h'.retries ≤ d.log.countP (Event.retries h'.arrival) ∧
        (h'.stopping = true → h'.outcome = .failed → Failed c d.log h'.arrival h'.error)) :
    Told c d' := by
  have hhead : ∀ t req, d.requests.find? t = some req → ∀ m ∈ req.members,
      ∃ h0 h', d.headAt m.key = some h0 ∧ d'.headAt m.key = some h' ∧ h'.arrival = h0.arrival ∧
        h'.spec = h0.spec := by
    intro t req hreq m hm
    obtain ⟨p, hp, -⟩ := hs.members t req hreq m hm
    obtain ⟨r, hr, -⟩ := pieceAt_eq_some.mp hp
    obtain ⟨h', hh', hrest⟩ := hkept m.key r.head (headAt_of_find hr)
    exact ⟨r.head, h', headAt_of_find hr, hh', hrest⟩
  refine ⟨?_, ?_, ?_, ?_, ?_, ?_, ?_, ?_, ?_⟩
  · rw [hlog, hnext]
    exact h.submitted
  · rw [hlog, hnext]
    exact h.cancelled
  · rw [hlog]
    exact h.once
  · rw [hlog, hrequ]
    exact h.asked
  · rw [hlog, hrequ]
    intro t req hreq
    obtain ⟨parts, hmem, hwho⟩ := h.carried t req hreq
    refine ⟨parts, hmem, hwho.trans (parts_who fun m hm => ?_)⟩
    obtain ⟨h0, h', hh0, hh', harr, -⟩ := hhead t req hreq m hm
    rw [hh0, hh', Option.map_some, Option.map_some, harr]
  · rw [hrequ]
    intro t req hreq hlen m hm
    obtain ⟨h1, hh1, hkind⟩ := h.spans t req hreq hlen m hm
    obtain ⟨h', hh', -, hspec⟩ := hkept m.key h1 hh1
    exact ⟨h', hh', by rw [hspec]; exact hkind⟩
  · rw [hlog]
    exact fun key h' hh' => (hnew key h' hh').1
  · rw [hlog]
    exact fun key h' hh' => (hnew key h' hh').2
  rw [hlog]
  exact h.reported

theorem Told.submits {run : List Member} (h : Told c d) (hrun : Startable d run)
    (hs : Submits run d d') : Told c d' := by
  have hlog : d'.log = .submitted d.nextToken (d.parts run) :: d.log := by rw [hs.rest]
  have hnext : d'.nextToken = d.nextToken + 1 := by rw [hs.rest]
  have hrequ : ∀ t, d'.requests.find? t =
      if t = d.nextToken then some { members := run } else d.requests.find? t := by
    intro t
    rw [hs.rest]
    exact OrdMap.find?_insert _ _ _ _
  have hwho : ∀ members, (d'.parts members).map Part.who = (d.parts members).map Part.who :=
    fun members => parts_who fun m _ => by rw [hs.heads]
  refine ⟨fun t parts hmem => ?_, fun t parts hmem => ?_, fun t => ?_, fun t req hreq hnot => ?_,
    fun t req hreq => ?_, fun t req hreq hlen m hm => ?_, fun key h' hh' => ?_,
    fun key h' hh' hstop hout => ?_, fun a read hmem hout => ?_⟩
  · rw [hlog] at hmem
    rw [hnext]
    rcases List.mem_cons.mp hmem with heq | hmem
    · cases heq
      refine ⟨Nat.lt_succ_self _, fun p hp => ?_⟩
      obtain ⟨m, hm, hpart⟩ := List.mem_filterMap.mp hp
      obtain ⟨r, hr, rfl⟩ := Option.map_eq_some_iff.mp hpart
      obtain ⟨h0, hh0, hstop⟩ := (hrun.ready m hm).head
      rw [headAt_of_find hr] at hh0
      cases hh0
      exact hstop
    obtain ⟨hlt, hstop⟩ := h.submitted t parts hmem
    exact ⟨Nat.lt_succ_of_lt hlt, hstop⟩
  · rw [hlog] at hmem
    rw [hnext, hlog]
    obtain ⟨hlt, hstop, parts', hmem', hwho'⟩ :=
      h.cancelled t parts ((List.mem_cons.mp hmem).resolve_left (by simp))
    exact ⟨Nat.lt_succ_of_lt hlt, hstop, parts', mem_cons_of_mem _ hmem', hwho'⟩
  · rw [hlog, countP_cons]
    exact h.once t
  · rw [hlog, countP_cons]
    rw [hrequ] at hreq
    split at hreq
    · -- No cancellation was asked of a token that was not used.
      rename_i ht
      refine List.countP_eq_zero.mpr fun event hmem => ?_
      cases event with
      | cancelled t' parts =>
        have hlt := (h.cancelled t' parts hmem).1
        simp only [Event.asksCancel, decide_eq_true_eq]
        omega
      | submitted | settled | finished => simp [Event.asksCancel]
    · exact h.asked t req hreq hnot
  · rw [hlog, hwho]
    rw [hrequ] at hreq
    split at hreq
    next ht =>
      cases hreq
      exact ⟨_, ht ▸ mem_cons_self, rfl⟩
    obtain ⟨parts, hmem, hwho'⟩ := h.carried t req hreq
    exact ⟨parts, mem_cons_of_mem _ hmem, hwho'⟩
  · rw [hrequ] at hreq
    rw [hs.heads]
    split at hreq
    · cases hreq
      obtain ⟨h0, hh0, hkind, -⟩ := hrun.span hlen m hm
      exact ⟨h0, hh0, hkind⟩
    · exact h.spans t req hreq hlen m hm
  · rw [hs.heads] at hh'
    rw [hlog, countP_cons]
    exact h.tries key h' hh'
  · rw [hs.heads] at hh'
    rw [hlog]
    exact (h.failed key h' hh' hstop hout).mono [_]
  rw [hlog] at hmem ⊢
  exact (h.reported a read ((List.mem_cons.mp hmem).resolve_left (by simp)) hout).mono [_]

theorem told_starting (c : ReaderSettings) : Starting (Told c) where
  submits _ _ _ h _ hrun _ hs := h.submits hrun hs
  refused _ h :=
    ⟨fun t parts hmem => ⟨Nat.lt_succ_of_lt (h.submitted t parts hmem).1,
        (h.submitted t parts hmem).2⟩,
      fun t parts hmem => ⟨Nat.lt_succ_of_lt (h.cancelled t parts hmem).1,
        (h.cancelled t parts hmem).2⟩,
      h.once, h.asked, h.carried, h.spans, h.tries, h.failed, h.reported⟩

theorem Told.put {key : Nat} {r : Reading} (r' : Reading) (h : Told c d) (hs : Sound d)
    (hr : d.reads.find? key = some r) (harr : r'.arrival = r.arrival) (hspec : r'.spec = r.spec)
    (htries : r'.retries ≤ d.log.countP (Event.retries r'.arrival))
    (hfailed : r'.stopping = true → r'.outcome = .failed → Failed c d.log r'.arrival r'.error)
    (queue : OrdMap Nat Nat) : Told c { d.setRead key r' with queue } := by
  have hheads : ∀ key', ({ d.setRead key r' with queue } : DirectReader).headAt key' =
      if key' = key then some r'.head else d.headAt key' := headAt_setRead
  refine h.rehead hs rfl rfl rfl (fun key' h0 hh0 => ?_) fun key' h' hh' => ?_
  · rw [hheads]
    split
    next hkey =>
      rw [hkey, headAt_of_find hr] at hh0
      cases hh0
      exact ⟨_, rfl, harr, hspec⟩
    · exact ⟨h0, hh0, rfl, rfl⟩
  rw [hheads] at hh'
  split at hh'
  · cases hh'
    exact ⟨htries, hfailed⟩
  · exact ⟨h.tries key' h' hh', h.failed key' h' hh'⟩

theorem told_queueBlind (c : ReaderSettings) : QueueBlind (Told c) := by
  intro d key r hr hs h queue
  exact h.put { r with queued := false } hs hr rfl rfl
    (h.tries key r.head (headAt_of_find hr)) (h.failed key r.head (headAt_of_find hr)) queue

end Told

/-! ## Settling -/

/-- While a completed request is settled: what it was is in the history, and its reads are there.
    The members still to be settled are `rest`. -/
structure Settling (c : ReaderSettings) (members : List Member) (t : Nat) (parts : List Part)
    (result : Int) (d : DirectReader) : Prop where
  sound : Sound d
  told : Told c d
  settled : .settled t parts result ∈ d.log
  reads : ∀ m ∈ members, (d.pieceAt m).isSome = true
  known : ∀ m ∈ members, ∀ h, d.headAt m.key = some h →
    (∃ part ∈ parts, part.arrival = h.arrival) ∧ (1 < members.length → h.spec.kind = .read)
  lone : ∀ m, members = [m] → ∀ h, d.headAt m.key = some h →
    ∃ part, parts = [part] ∧ part.arrival = h.arrival

section Settling

variable {c : ReaderSettings} {members : List Member} {t key : Nat} {parts : List Part}
    {result : Int} {r : Reading} {keys : List Nat} {d : DirectReader}

theorem Settling.find (h : Settling c members t parts result d) {m : Member} (hm : m ∈ members) :
    ∃ r p, d.reads.find? m.key = some r ∧ r.pieces[m.piece]? = some p := by
  obtain ⟨p, hp⟩ := Option.isSome_iff_exists.mp (h.reads m hm)
  obtain ⟨r, hr, hpr⟩ := pieceAt_eq_some.mp hp
  exact ⟨r, p, hr, hpr⟩

theorem Settling.of {d' : DirectReader} (h : Settling c members t parts result d)
    (hs : Sound d') (ht : Told c d') (hlog : d'.log = d.log)
    (hheads : ∀ key h', d'.headAt key = some h' →
      ∃ h0, d.headAt key = some h0 ∧ h'.arrival = h0.arrival ∧ h'.spec = h0.spec)
    (hpieces : ∀ m, (d.pieceAt m).isSome = true → (d'.pieceAt m).isSome = true) :
    Settling c members t parts result d' where
  sound := hs
  told := ht
  settled := hlog ▸ h.settled
  reads m hm := hpieces m (h.reads m hm)
  known m hm h' hh' := by
    obtain ⟨h0, hh0, harr, hspec⟩ := hheads m.key h' hh'
    rw [harr, hspec]
    exact h.known m hm h0 hh0
  lone m hm h' hh' := by
    obtain ⟨h0, hh0, harr, -⟩ := hheads m.key h' hh'
    rw [harr]
    exact h.lone m hm h0 hh0

theorem Settling.put (r' : Reading)
    (h : Settling c members t parts result d) (hr : d.reads.find? key = some r) (hg : r.Grows r')
    (htries : r'.retries ≤ d.log.countP (Event.retries r'.arrival))
    (hfailed : r'.stopping = true → r'.outcome = .failed → Failed c d.log r'.arrival r'.error) :
    Settling c members t parts result (d.setRead key r') ∧
      Settling c members t parts result (d.enqueue key r') := by
  have hheads : ∀ (q : Reading), q.arrival = r'.arrival → q.spec = r'.spec → ∀ key' h',
      (d.setRead key q).headAt key' = some h' →
        ∃ h0, d.headAt key' = some h0 ∧ h'.arrival = h0.arrival ∧ h'.spec = h0.spec := by
    intro q harr hspec key' h' hh'
    rw [headAt_setRead] at hh'
    split at hh'
    next hkey =>
      cases hh'
      exact ⟨r.head, hkey ▸ headAt_of_find hr, harr.trans hg.arrival, hspec.trans hg.spec⟩
    · exact ⟨h', hh', rfl, rfl⟩
  have hpieces : ∀ m, (d.pieceAt m).isSome = true → ((d.setRead key r').pieceAt m).isSome = true := by
    intro m hm
    obtain ⟨p, hp⟩ := Option.isSome_iff_exists.mp hm
    obtain ⟨p', hp', -⟩ := hg.pieceAt_of_some hr hp
    exact Option.isSome_iff_exists.mpr ⟨p', hp'⟩
  have hset : Settling c members t parts result (d.setRead key r') :=
    h.of (h.sound.grow hr hg) (h.told.put r' h.sound hr hg.arrival hg.spec htries hfailed d.queue)
      rfl (hheads r' rfl rfl) hpieces
  refine ⟨hset, ?_⟩
  have hsound := h.sound.enqueue hr hg
  rcases enqueue_eq d key r' with heq | ⟨hstop, heq⟩
  · rw [heq]
    exact hset
  rw [heq] at hsound ⊢
  refine h.of hsound (h.told.put { r' with queued := true } h.sound hr hg.arrival hg.spec htries
    (fun hstop' => nomatch hstop'.symm.trans hstop) _) rfl
    (hheads { r' with queued := true } rfl rfl) fun m hm => ?_
  have hm' := hpieces m hm
  rw [pieceAt_setRead] at hm'
  show ((d.setRead key { r' with queued := true }).pieceAt m).isSome = true
  rw [pieceAt_setRead]
  exact hm'

theorem Settling.same (h : Settling c members t parts result d) (hr : d.reads.find? key = some r) :
    r.retries ≤ d.log.countP (Event.retries r.arrival) ∧
      (r.stopping = true → r.outcome = .failed → Failed c d.log r.arrival r.error) :=
  ⟨h.told.tries key r.head (headAt_of_find hr), h.told.failed key r.head (headAt_of_find hr)⟩

theorem Settling.stop {r r0 : Reading} {outcome : ReadOutcome} {error : Int}
    (h : Settling c members t parts result d) (hr : d.reads.find? key = some r0) (hg : r0.Grows r)
    (hret : r.retries = r0.retries) (hstops : r.stopping = r0.stopping)
    (houtc : r.outcome = r0.outcome) (herror : r.error = r0.error)
    (hwhy : outcome = .failed → Failed c d.log r0.arrival error) :
    Settling c members t parts result (d.setRead key (r.stop outcome error)) := by
  obtain ⟨htries, hfailed⟩ := h.same hr
  have hgrown : r0.Grows (r.stop outcome error) := by
    unfold Reading.stop
    split
    · exact hg
    · exact ⟨hg.spec, hg.arrival, hg.queued, hg.pieces⟩
  refine (h.put _ hr hgrown ?_ ?_).1
  · rw [hgrown.arrival]
    unfold Reading.stop
    split <;> exact hret ▸ htries
  rw [hgrown.arrival]
  unfold Reading.stop
  split
  · intro hstop hout
    rw [herror]
    exact hfailed (hstops ▸ hstop) (houtc ▸ hout)
  · exact fun _ hout => hwhy hout

/-! ### Errors -/

theorem mem_eachRead : ∀ {members : List Member} {last : Option Nat},
    key ∈ eachRead last members → ∃ m ∈ members, m.key = key
  | m :: rest, last, h => by
    unfold eachRead at h
    split at h
    · obtain ⟨m', hm', hkey⟩ := mem_eachRead h
      exact ⟨m', mem_cons_of_mem _ hm', hkey⟩
    rcases List.mem_cons.mp h with rfl | h
    · exact ⟨m, mem_cons_self, rfl⟩
    obtain ⟨m', hm', hkey⟩ := mem_eachRead h
    exact ⟨m', mem_cons_of_mem _ hm', hkey⟩

theorem eachRead_sorted (arrival : Nat → Nat) (hinj : ∀ m ∈ members, ∀ m' ∈ members,
    arrival m.key = arrival m'.key → m.key = m'.key) :
    ∀ {rest : List Member} {last : Option Nat}, (∀ m ∈ rest, m ∈ members) →
      (∀ l ∈ last, (∃ m ∈ members, m.key = l) ∧ ∀ m ∈ rest, arrival l ≤ arrival m.key) →
      rest.Pairwise (fun m m' => arrival m.key ≤ arrival m'.key) →
      (eachRead last rest).Pairwise (fun k k' => arrival k < arrival k') ∧
        ∀ l ∈ last, ∀ k ∈ eachRead last rest, arrival l < arrival k
  | [], last, _, _, _ => ⟨.nil, fun _ _ _ hk => absurd hk not_mem_nil⟩
  | m :: rest, last, hmem, hlast, hpair => by
    obtain ⟨hfirst, hrest⟩ := List.pairwise_cons.mp hpair
    have hin : m ∈ members := hmem m mem_cons_self
    have hsub : ∀ m' ∈ rest, m' ∈ members := fun m' hm' => hmem m' (mem_cons_of_mem _ hm')
    unfold eachRead
    split
    · exact eachRead_sorted arrival hinj hsub
        (fun l hl => ⟨(hlast l hl).1, fun m' hm' => (hlast l hl).2 m' (mem_cons_of_mem _ hm')⟩)
        hrest
    rename_i hne
    have hnext : ∀ l ∈ some m.key, (∃ m0 ∈ members, m0.key = l) ∧
        ∀ m' ∈ rest, arrival l ≤ arrival m'.key := by
      intro l hl
      cases hl
      exact ⟨⟨m, hin, rfl⟩, hfirst⟩
    obtain ⟨hsor, hafter⟩ := eachRead_sorted arrival hinj hsub hnext hrest
    have hlt : ∀ l ∈ last, arrival l < arrival m.key := by
      intro l hl
      obtain ⟨⟨m0, hm0, rfl⟩, hle⟩ := hlast l hl
      refine Nat.lt_of_le_of_ne (hle m mem_cons_self) fun heq => hne ?_
      rw [← hinj m0 hm0 m hin heq]
      exact hl
    refine ⟨List.pairwise_cons.mpr ⟨fun k hk => hafter _ rfl k hk, hsor⟩, fun l hl k hk => ?_⟩
    rcases List.mem_cons.mp hk with rfl | hk
    · exact hlt l hl
    · exact Nat.lt_trans (hlt l hl) (hafter _ rfl k hk)

theorem Sound.eachRead_nodup (hs : Sound d) (hne : ∀ m ∈ members, (d.pieceAt m).isSome = true)
    (hpair : members.Pairwise (Before d)) : (eachRead none members).Nodup := by
  have hhead : ∀ m ∈ members, ∃ h, d.headAt m.key = some h := by
    intro m hm
    obtain ⟨p, hp⟩ := Option.isSome_iff_exists.mp (hne m hm)
    obtain ⟨r, hr, -⟩ := pieceAt_eq_some.mp hp
    exact ⟨r.head, headAt_of_find hr⟩
  have hinj : ∀ m ∈ members, ∀ m' ∈ members,
      ((d.headAt m.key).map Reading.arrival).getD 0 =
        ((d.headAt m'.key).map Reading.arrival).getD 0 → m.key = m'.key := by
    intro m hm m' hm' heq
    obtain ⟨h1, hh1⟩ := hhead m hm
    obtain ⟨h2, hh2⟩ := hhead m' hm'
    rw [hh1, hh2] at heq
    exact hs.distinct _ _ h1 h2 hh1 hh2 heq
  have hnone : ∀ l ∈ (none : Option Nat), (∃ m0 ∈ members, m0.key = l) ∧ ∀ m' ∈ members,
      ((d.headAt l).map Reading.arrival).getD 0 ≤
        ((d.headAt m'.key).map Reading.arrival).getD 0 := fun l hl => nomatch hl
  have hsor := (eachRead_sorted (fun key => ((d.headAt key).map Reading.arrival).getD 0) hinj
    (fun m hm => hm) hnone (hpair.imp_of_mem fun hm hm' hb => by
      obtain ⟨h1, hh1⟩ := hhead _ hm
      obtain ⟨h2, hh2⟩ := hhead _ hm'
      simp only [hh1, hh2]
      exact hb.2 h1 h2 hh1 hh2)).1
  exact hsor.imp fun hlt heq => absurd (heq ▸ hlt) (Nat.lt_irrefl _)

section

variable (h : Settling c members t parts result d)
    (hkeys : ∀ key ∈ keys, ∃ m ∈ members, m.key = key)
include h hkeys

theorem Settling.each {f : DirectReader → Nat → Checked DirectReader}
    (hf : ∀ d key r, Settling c members t parts result d → d.reads.find? key = some r →
      Safe (Settling c members t parts result) (f d key)) :
    Safe (Settling c members t parts result) (keys.foldlM f d) := by
  refine Sat.foldlM (I := fun keys d => (∀ key ∈ keys, ∃ m ∈ members, m.key = key) ∧
    Settling c members t parts result d) ?_ ⟨hkeys, h⟩ |>.imp fun d hd => hd.2
  rintro d key rest ⟨hrest, h⟩
  obtain ⟨m, hm, rfl⟩ := hrest key mem_cons_self
  obtain ⟨r, p, hr, -⟩ := h.find hm
  exact (hf d m.key r h hr).imp fun d' hd' =>
    ⟨fun key hkey => hrest key (mem_cons_of_mem _ hkey), hd'⟩

theorem Settling.retried (hnodup : keys.Nodup) (hmore : ∀ key ∈ keys, ∀ h', d.headAt key = some h' →
      h'.retries < d.log.countP (Event.retries h'.arrival)) :
    Safe (Settling c members t parts result) (keys.foldlM (retryRead c (-result)) d) := by
  refine Sat.foldlM (I := fun keys d => (∀ key ∈ keys, ∃ m ∈ members, m.key = key) ∧ keys.Nodup ∧
    (∀ key ∈ keys, ∀ h', d.headAt key = some h' →
      h'.retries < d.log.countP (Event.retries h'.arrival)) ∧
    Settling c members t parts result d) ?_ ⟨hkeys, hnodup, hmore, h⟩ |>.imp fun d hd => hd.2.2.2
  rintro d key rest ⟨hrest, hnodup, hmore, h⟩
  obtain ⟨m, hm, rfl⟩ := hrest key mem_cons_self
  obtain ⟨r, p, hr, -⟩ := h.find hm
  obtain ⟨hnot, hnodup⟩ := List.nodup_cons.mp hnodup
  have hlt : r.retries < d.log.countP (Event.retries r.arrival) :=
    hmore m.key mem_cons_self r.head (headAt_of_find hr)
  have hnext : ∀ d' : DirectReader, d'.log = d.log →
      (∀ key ∈ rest, d'.headAt key = d.headAt key) → Settling c members t parts result d' →
      (∀ key ∈ rest, ∃ m ∈ members, m.key = key) ∧ rest.Nodup ∧
      (∀ key ∈ rest, ∀ h', d'.headAt key = some h' →
        h'.retries < d'.log.countP (Event.retries h'.arrival)) ∧
      Settling c members t parts result d' := by
    intro d' hlog hheads h'
    refine ⟨fun key hkey => hrest key (mem_cons_of_mem _ hkey), hnodup, ?_, h'⟩
    intro key hkey h1 hh1
    rw [hheads key hkey] at hh1
    rw [hlog]
    exact hmore key (mem_cons_of_mem _ hkey) h1 hh1
  have hother : ∀ key ∈ rest, key ≠ m.key := fun key hkey heq => hnot (heq ▸ hkey)
  refine readAt_bind hr ?_
  split
  · have hput := (h.put { r with retries := r.retries + 1 } hr (.flags rfl rfl rfl rfl) hlt
      (h.same hr).2).2
    refine hnext _ ?_ (fun key hkey => ?_) hput
    · rcases enqueue_eq d m.key { r with retries := r.retries + 1 } with heq | ⟨-, heq⟩ <;>
        rw [heq] <;> rfl
    rcases enqueue_eq d m.key { r with retries := r.retries + 1 } with heq | ⟨-, heq⟩
    · rw [heq, headAt_setRead, if_neg (hother key hkey)]
    rw [heq]
    exact (headAt_setRead key).trans (if_neg (hother key hkey))
  rename_i hspent
  refine hnext _ rfl (fun key hkey => ?_) (h.stop hr (.refl r) rfl rfl rfl rfl fun _ => .inr ?_)
  · rw [headAt_setRead, if_neg (hother key hkey)]
  · omega

end

theorem Settling.error (h : Settling c members t parts result d) (hneg : result < 0)
    (hpair : members.Pairwise (Before d))
    (hmore : -result = eIntr ∨ -result = eAgain → ∀ m ∈ members, ∀ h', d.headAt m.key = some h' →
      h'.retries < d.log.countP (Event.retries h'.arrival)) :
    Safe (Settling c members t parts result) (d.settleError c members (-result)) := by
  have hkeys : ∀ key ∈ eachRead none members, ∃ m ∈ members, m.key = key :=
    fun key hkey => mem_eachRead hkey
  unfold settleError
  split
  · refine h.each hkeys fun d key r h hr => ?_
    refine readAt_bind hr ?_
    exact h.stop hr (.refl r) rfl rfl rfl rfl nofun
  split
  next hretry =>
    refine h.retried hkeys (h.sound.eachRead_nodup h.reads hpair) fun key hkey h' hh' => ?_
    obtain ⟨m, hm, rfl⟩ := mem_eachRead hkey
    exact hmore hretry m hm h' hh'
  split
  next m =>
    obtain ⟨r, p, hr, -⟩ := h.find (mem_singleton_self m)
    refine readAt_bind hr ?_
    refine h.stop hr (.refl r) rfl rfl rfl rfl fun _ => .inl ?_
    obtain ⟨part, hparts, harr⟩ := h.lone m rfl r.head (headAt_of_find hr)
    exact ⟨t, part, result, hparts ▸ h.settled, harr, .inl ⟨hneg, rfl⟩⟩
  refine h.each hkeys fun d key r h hr => ?_
  refine readAt_bind hr ?_
  exact (h.put { r with alone := true } hr (.flags rfl rfl rfl rfl) (h.same hr).1 (h.same hr).2).2

/-! ### Counts -/

theorem filled_grows {i : Nat} {p : Piece} (hp : r.pieces[i]? = some p) (n : Nat) : r.Grows { r with
      pieces := r.pieces.set i { p with done := p.done + min n (p.length - p.done) } } := by
  refine ⟨rfl, rfl, rfl, fun j => ?_⟩
  simp only [getElem?_set]
  split
  next hij =>
    subst hij
    rw [if_pos (List.getElem?_eq_some_iff.mp hp).1, hp]
    exact .some ⟨rfl, by simp, by simp only; omega⟩
  · exact Piece.Grows.option _

theorem Settling.fill (h : Settling c members t parts result d) (hpos : 0 ≤ result) {m : Member}
    (hm : m ∈ members) (remaining : Nat) (reached : Bool) :
    Safe (fun y => Settling c members t parts result y.1)
      (fillPiece c result.toNat (d, remaining, reached) m) := by
  obtain ⟨r, p, hr, hp⟩ := h.find hm
  obtain ⟨htries, hfailed⟩ := h.same hr
  unfold fillPiece
  simp only
  refine readAt_bind hr ?_
  split
  · exact (h.put r hr (.refl r) htries hfailed).2
  refine require_bind hp ?_
  have hg := filled_grows hp remaining
  split
  · exact (h.put _ hr hg htries hfailed).1
  split
  · by_cases hkind : r.spec.kind = .write
    · simp only [hkind, if_true]
      refine h.stop hr hg rfl rfl rfl rfl fun _ => .inl ?_
      -- A write went alone.
      have hlone : members = [m] := by
        have hlen : ¬ 1 < members.length := fun hlt =>
          absurd (((h.known m hm r.head (headAt_of_find hr)).2 hlt).symm.trans hkind) (by simp)
        obtain ⟨a, ha⟩ := List.length_eq_one_iff.mp
          (Nat.le_antisymm (Nat.not_lt.mp hlen) (length_pos_of_mem hm))
        rw [ha] at hm ⊢
        rw [List.mem_singleton.mp hm]
      obtain ⟨part, hparts, harr⟩ := h.lone m hlone r.head (headAt_of_find hr)
      exact ⟨t, part, result, hparts ▸ h.settled, harr, .inr ⟨hpos, rfl⟩⟩
    simp only [if_neg hkind]
    exact h.stop hr hg rfl rfl rfl rfl nofun
  · exact (h.put _ hr hg htries hfailed).2

theorem Settling.settle (h : Settling c members t parts result d)
    (hpair : members.Pairwise (Before d))
    (hmore : -result = eIntr ∨ -result = eAgain → ∀ m ∈ members, ∀ h', d.headAt m.key = some h' →
      h'.retries < d.log.countP (Event.retries h'.arrival)) :
    Safe (Settling c members t parts result) (d.settle c members result) := by
  unfold DirectReader.settle
  split
  next hneg =>
    exact h.error hneg hpair hmore
  rename_i hpos
  have hloop : Safe (fun y : DirectReader × Nat × Bool => Settling c members t parts result y.1)
      (members.foldlM (fillPiece c result.toNat) (d, result.toNat, true)) := by
    refine Sat.imp (Sat.foldlM (I := fun rest (y : DirectReader × Nat × Bool) =>
      (∀ m ∈ rest, m ∈ members) ∧ Settling c members t parts result y.1) ?_
      ⟨fun m hm => hm, h⟩) fun y hy => hy.2
    rintro ⟨d, remaining, reached⟩ m rest ⟨hrest, h⟩
    exact (h.fill (Int.not_lt.mp hpos) (hrest m mem_cons_self) remaining reached).imp
      fun y hy => ⟨fun m' hm' => hrest m' (mem_cons_of_mem _ hm'), hy⟩
  exact Sat.bind hloop fun y hy => hy

end Settling

/-! ## Completions -/

section Completions

variable {c : ReaderSettings} {d d' : DirectReader} {t : Nat} {req : Request} {result : Int}

variable {log : List Event}

theorem Sound.lands (h : Sound d) (hreq : d.requests.find? t = some req)
    (he : Edits (fun p => { p with inFlight := false }) req.members
      { d with requests := d.requests.erase t, log } d') : Sound d' := by
  have hheads : ∀ key, d'.headAt key = d.headAt key := he.heads
  have hpieces : ∀ m, d'.pieceAt m = (d.pieceAt m).map fun p =>
      if m ∈ req.members then { p with inFlight := false } else p := he.pieces
  have hrequ : ∀ t', d'.requests.find? t' = if t' = t then none else d.requests.find? t' := by
    intro t'
    rw [he.rest]
    exact OrdMap.find?_erase _ _ _
  have hqueue : d'.queue = d.queue := by rw [he.rest]
  have hnext : d'.nextToken = d.nextToken := by rw [he.rest]
  have harr : d'.nextArrival = d.nextArrival := by rw [he.rest]
  refine ⟨fun key h' hh' => ?_, fun key1 key2 h1 h2 hh1 hh2 => ?_, fun a key hq => ?_,
    fun key h' hh' hq => ?_, fun t' req' hreq' => ?_, fun t' req' hreq' m hm => ?_,
    fun t' req' hreq' => ?_, fun m p' hp' hflight => ?_, fun m p' hp' => ?_⟩
  · rw [hheads] at hh'
    rw [harr]
    exact h.arrival key h' hh'
  · rw [hheads] at hh1 hh2
    exact h.distinct key1 key2 h1 h2 hh1 hh2
  · rw [hqueue] at hq
    rw [hheads]
    exact h.queue a key hq
  · rw [hheads] at hh'
    rw [hqueue]
    exact h.queued key h' hh' hq
  · rw [hrequ] at hreq'
    rw [hnext]
    split at hreq'
    · cases hreq'
    · exact h.token t' req' hreq'
  · rw [hrequ] at hreq'
    split at hreq'
    · cases hreq'
    rename_i hne
    obtain ⟨p, hp, hflight, htoken⟩ := h.members t' req' hreq' m hm
    have hnot : m ∉ req.members := by
      intro hmem
      obtain ⟨p0, hp0, -, htoken0⟩ := h.members t req hreq m hmem
      cases hp.symm.trans hp0
      exact hne (htoken.symm.trans htoken0)
    exact ⟨p, by rw [hpieces, hp, Option.map_some, if_neg hnot], hflight, htoken⟩
  · rw [hrequ] at hreq'
    split at hreq'
    · cases hreq'
    obtain ⟨hne, hpair⟩ := h.ordered t' req' hreq'
    exact ⟨hne, hpair.imp fun hb => hb.congr fun key h' hh' =>
      ⟨h', (hheads key).symm.trans hh', rfl⟩⟩
  · rw [hpieces] at hp'
    obtain ⟨p, hp, rfl⟩ := Option.map_eq_some_iff.mp hp'
    by_cases hmem : m ∈ req.members
    · simp [hmem] at hflight
    simp only [if_neg hmem] at hflight ⊢
    obtain ⟨req', hreq', hm⟩ := h.flight m p hp hflight
    have hne : p.token ≠ t := by
      intro heq
      rw [heq, hreq] at hreq'
      cases hreq'
      exact hmem hm
    exact ⟨req', by rw [hrequ, if_neg hne]; exact hreq', hm⟩
  rw [hpieces] at hp'
  obtain ⟨p, hp, rfl⟩ := Option.map_eq_some_iff.mp hp'
  have hfil := h.filled m p hp
  split <;> exact hfil

theorem Told.lands (h : Told c d) (parts : List Part)
    (he : Edits (fun p => { p with inFlight := false }) req.members { d with
      requests := d.requests.erase t
      log := .settled t parts result :: d.log } d') : Told c d' := by
  have hheads : ∀ key, d'.headAt key = d.headAt key := he.heads
  have hlog : d'.log = .settled t parts result :: d.log := by rw [he.rest]
  have hnext : d'.nextToken = d.nextToken := by rw [he.rest]
  have hrequ : ∀ t' req', d'.requests.find? t' = some req' → d.requests.find? t' = some req' := by
    intro t' req' hreq'
    rw [he.rest] at hreq'
    simp only [OrdMap.find?_erase] at hreq'
    split at hreq'
    · cases hreq'
    · exact hreq'
  have hold : ∀ {event : Event}, (∀ parts result, event ≠ .settled t parts result) →
      event ∈ d'.log → event ∈ d.log := by
    intro event hne hmem
    rw [hlog] at hmem
    exact (List.mem_cons.mp hmem).resolve_left (hne parts result)
  have hmore : ∀ a, d.log.countP (Event.retries a) ≤ d'.log.countP (Event.retries a) := by
    intro a
    rw [hlog, countP_cons]
    exact Nat.le_add_right _ _
  have hcan : ∀ t', d'.log.countP (Event.asksCancel t') = d.log.countP (Event.asksCancel t') := by
    intro t'
    rw [hlog, countP_cons]
    rfl
  refine ⟨fun t' parts' hmem => ?_, fun t' parts' hmem => ?_, fun t' => ?_,
    fun t' req' hreq' hnot => ?_, fun t' req' hreq' => ?_, fun t' req' hreq' hlen m hm => ?_,
    fun key h' hh' => ?_, fun key h' hh' hstop hout => ?_, fun a read hmem hout => ?_⟩
  · rw [hnext]
    exact h.submitted t' parts' (hold (by simp) hmem)
  · rw [hnext]
    obtain ⟨hlt, hstop, parts0, hmem0, hwho⟩ := h.cancelled t' parts' (hold (by simp) hmem)
    exact ⟨hlt, hstop, parts0, by rw [hlog]; exact mem_cons_of_mem _ hmem0, hwho⟩
  · rw [hcan]
    exact h.once t'
  · rw [hcan]
    exact h.asked t' req' (hrequ t' req' hreq') hnot
  · obtain ⟨parts0, hmem0, hwho⟩ := h.carried t' req' (hrequ t' req' hreq')
    refine ⟨parts0, by rw [hlog]; exact mem_cons_of_mem _ hmem0, hwho.trans ?_⟩
    exact (parts_who fun m _ => by rw [hheads]).symm
  · rw [hheads]
    exact h.spans t' req' (hrequ t' req' hreq') hlen m hm
  · rw [hheads] at hh'
    exact Nat.le_trans (h.tries key h' hh') (hmore _)
  · rw [hheads] at hh'
    rw [hlog]
    exact (h.failed key h' hh' hstop hout).mono [_]
  have hf := h.reported a read (hold (by simp) hmem) hout
  rw [hlog]
  exact hf.mono [_]

theorem harvest_safe (h : Sound d ∧ Told c d) (completion : Nat × Int) :
    Safe (fun d' => Sound d' ∧ Told c d') (harvest c d completion) := by
  obtain ⟨hs, ht⟩ := h
  unfold harvest
  split
  · exact ⟨hs, ht⟩
  rename_i req hreq
  refine Sat.bind (foldlM_edits (f := fun p => { p with inFlight := false }) markLanded
    (fun _ => rfl) markLanded_edits req.members fun m hm => ?_) fun d' he => ?_
  · obtain ⟨p, hp, -⟩ := hs.members _ req hreq m hm
    exact Option.isSome_iff_exists.mpr ⟨p, hp⟩
  have hheads : ∀ key, d'.headAt key = d.headAt key := he.heads
  have hlog : d'.log = .settled completion.1 (d.parts req.members) completion.2 :: d.log := by
    rw [he.rest]
  -- The read of a member, and what the history says of it.
  have hpart : ∀ m ∈ req.members, ∀ h', d'.headAt m.key = some h' →
      ∃ r, d.reads.find? m.key = some r ∧ r.head = h' := by
    intro m hm h' hh'
    rw [hheads] at hh'
    exact headAt_eq_some.mp hh'
  have hset : Settling c req.members completion.1 (d.parts req.members) completion.2 d' := by
    refine ⟨hs.lands hreq he, ht.lands _ he, by rw [hlog]; exact mem_cons_self,
      fun m hm => ?_, fun m hm h' hh' => ⟨?_, fun hlen => ?_⟩, fun m hm h' hh' => ?_⟩
    · obtain ⟨p, hp, -⟩ := hs.members _ req hreq m hm
      have hpieces := he.pieces m
      rw [hpieces, Option.isSome_map]
      exact Option.isSome_iff_exists.mpr ⟨p, hp⟩
    · obtain ⟨r, hr, rfl⟩ := hpart m hm h' hh'
      exact ⟨_, List.mem_filterMap.mpr ⟨m, hm, by rw [hr]; rfl⟩, rfl⟩
    · rw [hheads] at hh'
      obtain ⟨h0, hh0, hkind⟩ := ht.spans _ req hreq hlen m hm
      cases hh'.symm.trans hh0
      exact hkind
    obtain ⟨r, hr, rfl⟩ := hpart m (hm ▸ mem_singleton_self m) h' hh'
    exact ⟨_, by simp [parts, hm, hr]; rfl, rfl⟩
  refine Sat.imp (hset.settle ?_ fun hretry m hm h' hh' => ?_) fun d'' hd'' =>
    ⟨hd''.sound, hd''.told⟩
  · exact (hs.ordered _ req hreq).2.imp fun hb => hb.congr fun key h' hh' =>
      ⟨h', (hheads key).symm.trans hh', rfl⟩
  obtain ⟨⟨part, hpar, harr⟩, -⟩ := hset.known m hm h' hh'
  rw [hheads] at hh'
  have htries := ht.tries m.key h' hh'
  have hcounts : Event.retries h'.arrival
      (.settled completion.1 (d.parts req.members) completion.2) = true := by
    simp only [Event.retries, Bool.and_eq_true, Bool.or_eq_true, decide_eq_true_eq, any_eq_true]
    exact ⟨hretry, part, hpar, harr⟩
  rw [hlog, countP_cons, if_pos hcounts]
  omega

theorem Sound.gone {key : Nat} {r : Reading} (h : Sound d) (hr : d.reads.find? key = some r)
    (hidle : ∀ (i : Nat) p, r.pieces[i]? = some p → p.inFlight = false) : Sound { d with
      queue := if r.queued then d.queue.erase r.arrival else d.queue
      reads := d.reads.erase key
      log } := by
  have hhead := headAt_of_find hr
  have hheads : ∀ key' h', (d.reads.erase key).find? key' = some h' →
      key' ≠ key ∧ d.reads.find? key' = some h' := by
    intro key' h' hh'
    rw [OrdMap.find?_erase] at hh'
    split at hh'
    · cases hh'
    · exact ⟨‹_›, hh'⟩
  have hview : ∀ key' h', (({ d with reads := d.reads.erase key } : DirectReader).headAt key') =
      some h' → key' ≠ key ∧ d.headAt key' = some h' := by
    intro key' h' hh'
    obtain ⟨r', hr', rfl⟩ := headAt_eq_some.mp hh'
    obtain ⟨hne, hr'⟩ := hheads key' r' hr'
    exact ⟨hne, headAt_of_find hr'⟩
  have hback : ∀ key', key' ≠ key →
      (({ d with reads := d.reads.erase key } : DirectReader).headAt key') = d.headAt key' := by
    intro key' hne
    show ((d.reads.erase key).find? key').map Reading.head = _
    rw [OrdMap.find?_erase, if_neg hne]
    rfl
  have hpieces : ∀ m p, (({ d with reads := d.reads.erase key } : DirectReader).pieceAt m) =
      some p → d.pieceAt m = some p := by
    intro m p hp
    obtain ⟨r', hr', hp'⟩ := pieceAt_eq_some.mp hp
    exact pieceAt_eq_some.mpr ⟨r', (hheads m.key r' hr').2, hp'⟩
  have hqueue : ∀ a key', (if r.queued then d.queue.erase r.arrival else d.queue).find? a =
      some key' ↔ d.queue.find? a = some key' ∧ key' ≠ key := by
    intro a key'
    constructor
    · intro hq
      split at hq
      · simp only [OrdMap.find?_erase] at hq
        split at hq
        · cases hq
        rename_i hne
        refine ⟨hq, fun heq => hne ?_⟩
        obtain ⟨h0, hh0, harr, -⟩ := h.queue a key' hq
        rw [heq, hhead] at hh0
        cases hh0
        exact harr.symm
      rename_i hnot
      refine ⟨hq, fun heq => hnot ?_⟩
      obtain ⟨h0, hh0, -, hqueued⟩ := h.queue a key' hq
      rw [heq, hhead] at hh0
      cases hh0
      exact hqueued
    rintro ⟨hq, hne⟩
    split
    · have hother : a ≠ r.arrival := by
        intro heq
        obtain ⟨h0, hh0, harr, -⟩ := h.queue a key' hq
        exact hne (h.distinct key' key h0 r.head hh0 hhead (harr.trans heq))
      rw [OrdMap.find?_erase, if_neg hother]
      exact hq
    · exact hq
  refine ⟨fun key' h' hh' => ?_, fun key1 key2 h1 h2 hh1 hh2 => ?_, fun a key' hq => ?_,
    fun key' h' hh' hq => ?_, h.token, fun t' req' hreq' m hm => ?_, fun t' req' hreq' => ?_,
    fun m p hp => ?_, fun m p hp => ?_⟩
  · exact h.arrival key' h' (hview key' h' hh').2
  · exact h.distinct key1 key2 h1 h2 (hview key1 h1 hh1).2 (hview key2 h2 hh2).2
  · obtain ⟨hq, hne⟩ := (hqueue a key').mp hq
    obtain ⟨h0, hh0, hrest⟩ := h.queue a key' hq
    exact ⟨h0, (hback key' hne).trans hh0, hrest⟩
  · obtain ⟨hne, hh⟩ := hview key' h' hh'
    exact (hqueue _ _).mpr ⟨h.queued key' h' hh hq, hne⟩
  · obtain ⟨p, hp, hflight, htoken⟩ := h.members t' req' hreq' m hm
    obtain ⟨r', hr', hp'⟩ := pieceAt_eq_some.mp hp
    have hne : m.key ≠ key := by
      intro heq
      rw [heq, hr] at hr'
      cases hr'
      exact nomatch hflight.symm.trans (hidle _ p hp')
    refine ⟨p, pieceAt_eq_some.mpr ⟨r', ?_, hp'⟩, hflight, htoken⟩
    rw [OrdMap.find?_erase, if_neg hne]
    exact hr'
  · obtain ⟨hne, hpair⟩ := h.ordered t' req' hreq'
    exact ⟨hne, hpair.imp fun hb => hb.congr fun key' h' hh' => ⟨h', (hview key' h' hh').2, rfl⟩⟩
  · exact h.flight m p (hpieces m p hp)
  · exact h.filled m p (hpieces m p hp)

theorem report_safe (y : List FinishedRead × DirectReader) (h : Sound y.2 ∧ Told c y.2) (key : Nat) :
    Sound (report y key).2 ∧ Told c (report y key).2 := by
  obtain ⟨finished, d⟩ := y
  obtain ⟨hs, ht⟩ := h
  unfold report
  simp only
  split
  · exact ⟨hs, ht⟩
  rename_i r hr
  split
  next hfin =>
    have hidle : ∀ (i : Nat) p, r.pieces[i]? = some p → p.inFlight = false := by
      intro i p hp
      have hall := List.all_eq_true.mp hfin p (mem_of_getElem? hp)
      simp only [Bool.and_eq_true, Bool.not_eq_true'] at hall
      exact hall.1
    refine ⟨hs.gone hr hidle, ?_⟩
    have hview : ∀ key' h', (({ d with reads := d.reads.erase key } : DirectReader).headAt key') =
        some h' → d.headAt key' = some h' := by
      intro key' h' hh'
      obtain ⟨r', hr', rfl⟩ := headAt_eq_some.mp hh'
      simp only [OrdMap.find?_erase] at hr'
      split at hr'
      · cases hr'
      · exact headAt_of_find hr'
    have hmember : ∀ t' req', d.requests.find? t' = some req' → ∀ m ∈ req'.members,
        (({ d with reads := d.reads.erase key } : DirectReader).headAt m.key) = d.headAt m.key := by
      intro t' req' hreq' m hm
      obtain ⟨p, hp, hflight, -⟩ := hs.members t' req' hreq' m hm
      obtain ⟨r', hr', hp'⟩ := pieceAt_eq_some.mp hp
      have hne : m.key ≠ key := by
        intro heq
        rw [heq, hr] at hr'
        cases hr'
        exact nomatch hflight.symm.trans (hidle _ p hp')
      show ((d.reads.erase key).find? m.key).map Reading.head = _
      rw [OrdMap.find?_erase, if_neg hne]
      rfl
    refine ⟨fun t' parts' hmem => ?_, fun t' parts' hmem => ?_, fun t' => ?_,
      fun t' req' hreq' hnot => ?_, fun t' req' hreq' => ?_, fun t' req' hreq' hlen m hm => ?_,
      fun key' h' hh' => ?_, fun key' h' hh' hstop hout => ?_, fun a read hmem hout => ?_⟩
    · exact ht.submitted t' parts' ((List.mem_cons.mp hmem).resolve_left (by simp))
    · obtain ⟨hlt, hstop, parts0, hmem0, hwho⟩ :=
        ht.cancelled t' parts' ((List.mem_cons.mp hmem).resolve_left (by simp))
      exact ⟨hlt, hstop, parts0, mem_cons_of_mem _ hmem0, hwho⟩
    · rw [countP_cons]
      exact ht.once t'
    · rw [countP_cons]
      exact ht.asked t' req' hreq' hnot
    · obtain ⟨parts0, hmem0, hwho⟩ := ht.carried t' req' hreq'
      refine ⟨parts0, mem_cons_of_mem _ hmem0, hwho.trans (parts_who fun m hm => ?_).symm⟩
      exact congrArg _ (hmember t' req' hreq' m hm)
    · obtain ⟨h0, hh0, hkind⟩ := ht.spans t' req' hreq' hlen m hm
      exact ⟨h0, (hmember t' req' hreq' m hm).trans hh0, hkind⟩
    · rw [countP_cons]
      exact ht.tries key' h' (hview key' h' hh')
    · exact (ht.failed key' h' (hview key' h' hh') hstop hout).mono [_]
    rcases List.mem_cons.mp hmem with heq | hmem
    · -- The read reported now: it stopped as failed.
      cases heq
      simp only [Reading.report] at hout ⊢
      split at hout
      · exact (ht.failed key r.head (headAt_of_find hr) ‹_› hout).mono [_]
      · cases hout
    · exact (ht.reported a read hmem hout).mono [_]
  · exact ⟨hs, ht⟩

theorem reports_safe (keys : List Nat) : ∀ (y : List FinishedRead × DirectReader),
    Sound y.2 ∧ Told c y.2 → Sound (keys.foldl report y).2 ∧ Told c (keys.foldl report y).2 := by
  induction keys with
  | nil => exact fun y h => h
  | cons key rest ih => exact fun y h => ih _ (report_safe y h key)

end Completions

/-! ## Calls -/

section Calls

variable {c : ReaderSettings} {d : DirectReader} {members : List Member}

theorem poll_safe (h : Sound d ∧ Told c d) (take take' : Nat → Bool)
    (completions : List (Nat × Int)) :
    Safe (fun y => Sound y.2 ∧ Told c y.2) (d.poll c take completions take') := by
  refine Sat.bind (startQueued_safe (told_starting c) (told_queueBlind c) take h.1 h.2)
    fun d1 h1 => ?_
  refine Sat.bind (Sat.foldlM (I := fun _ d => Sound d ∧ Told c d)
    (fun d completion _ h => harvest_safe h completion) h1) fun d2 h2 => ?_
  refine Sat.bind (startQueued_safe (told_starting c) (told_queueBlind c) take' h2.1 h2.2)
    fun d3 h3 => ?_
  have h4 := reports_safe d3.settled ([], d3) h3
  exact ⟨⟨h4.1.arrival, h4.1.distinct, h4.1.queue, h4.1.queued, h4.1.token, h4.1.members,
    h4.1.ordered, h4.1.flight, h4.1.filled⟩, ⟨h4.2.submitted, h4.2.cancelled, h4.2.once,
    h4.2.asked, h4.2.carried, h4.2.spans, h4.2.tries, h4.2.failed, h4.2.reported⟩⟩

theorem allStopping_safe (hreads : ∀ m ∈ members, ∃ r, d.reads.find? m.key = some r) :
    Safe (fun all => all = true → ∀ p ∈ d.parts members, p.stopping = true)
      (members.foldlM (fun all m => do
        if all then return (← d.readAt m.key).stopping else return false) true) := by
  -- The loop's flag says that every member looked at so far is stopping.
  have hloop : ∀ (rest seen : List Member) (all : Bool), members = seen ++ rest →
      (all = true → ∀ m ∈ seen, ∀ r, d.reads.find? m.key = some r → r.stopping = true) →
      Safe (fun all => all = true → ∀ m ∈ members, ∀ r, d.reads.find? m.key = some r →
        r.stopping = true) (rest.foldlM (fun all m => do
          if all then return (← d.readAt m.key).stopping else return false) all) := by
    intro rest
    induction rest with
    | nil =>
      intro seen all hsplit hall
      rw [append_nil] at hsplit
      exact hsplit ▸ hall
    | cons m rest ih =>
      intro seen all hsplit hall
      have hnext : members = (seen ++ [m]) ++ rest := by simp [hsplit]
      obtain ⟨r, hr⟩ := hreads m (by simp [hsplit])
      rw [foldlM_cons]
      rcases all with _ | _
      · exact ih (seen ++ [m]) false hnext nofun
      refine Sat.bind (P := fun b => b = r.stopping) ?_ ?_
      · refine readAt_bind hr ?_
        rfl
      rintro _ rfl
      refine ih (seen ++ [m]) r.stopping hnext fun hstop m' hm' r' hr' => ?_
      rcases List.mem_append.mp hm' with hm' | hm'
      · exact hall rfl m' hm' r' hr'
      rw [List.mem_singleton.mp hm', hr] at hr'
      cases hr'
      exact hstop
  refine (hloop members [] true rfl fun _ _ hm => absurd hm not_mem_nil).imp
    fun all hall htrue p hp => ?_
  obtain ⟨m, hm, hpart⟩ := List.mem_filterMap.mp hp
  obtain ⟨r, hr, rfl⟩ := Option.map_eq_some_iff.mp hpart
  exact hall htrue m hm r hr

theorem cancelIfAbandoned_safe (h : Sound d ∧ Told c d) (t : Nat) :
    Safe (fun d' => Sound d' ∧ Told c d' ∧ d'.reads = d.reads) (d.cancelIfAbandoned t) := by
  obtain ⟨hs, ht⟩ := h
  unfold cancelIfAbandoned
  split
  · exact ⟨hs, ht, rfl⟩
  rename_i req hreq
  split
  · exact ⟨hs, ht, rfl⟩
  rename_i hnot
  have hnot : req.cancelled = false := by simpa using hnot
  refine Sat.bind (allStopping_safe fun m hm => ?_) fun all hall => ?_
  · obtain ⟨p, hp, -⟩ := hs.members t req hreq m hm
    obtain ⟨r, hr, -⟩ := pieceAt_eq_some.mp hp
    exact ⟨r, hr⟩
  split
  next htrue =>
    have hrequ : ∀ t' req', (d.requests.insert t { req with cancelled := true }).find? t' =
        some req' → ∃ req0, d.requests.find? t' = some req0 ∧ req'.members = req0.members ∧
          (req'.cancelled = false → t' ≠ t ∧ req0.cancelled = false) := by
      intro t' req' hreq'
      rw [OrdMap.find?_insert] at hreq'
      split at hreq'
      next heq =>
        cases hreq'
        exact ⟨req, heq ▸ hreq, rfl, nofun⟩
      · exact ⟨req', hreq', rfl, fun hf => ⟨‹_›, hf⟩⟩
    obtain ⟨parts0, hmem0, hwho0⟩ := ht.carried t req hreq
    refine ⟨⟨hs.arrival, hs.distinct, hs.queue, hs.queued, fun t' req' hreq' => ?_,
      fun t' req' hreq' => ?_, fun t' req' hreq' => ?_, fun m p hp hflight => ?_, hs.filled⟩,
      ⟨fun t' parts' hmem => ?_, fun t' parts' hmem => ?_, fun t' => ?_,
        fun t' req' hreq' hc => ?_, fun t' req' hreq' => ?_, fun t' req' hreq' hlen => ?_,
        fun key' h' hh' => ?_, fun key' h' hh' hstop hout => ?_, fun a read hmem hout => ?_⟩, rfl⟩
    · obtain ⟨req0, hreq0, -⟩ := hrequ t' req' hreq'
      exact hs.token t' req0 hreq0
    · obtain ⟨req0, hreq0, hmemb, -⟩ := hrequ t' req' hreq'
      rw [hmemb]
      exact hs.members t' req0 hreq0
    · obtain ⟨req0, hreq0, hmemb, -⟩ := hrequ t' req' hreq'
      rw [hmemb]
      exact hs.ordered t' req0 hreq0
    · obtain ⟨req0, hreq0, hm⟩ := hs.flight m p hp hflight
      rw [OrdMap.find?_insert]
      split
      next heq =>
        rw [heq, hreq] at hreq0
        cases hreq0
        exact ⟨_, rfl, hm⟩
      · exact ⟨req0, hreq0, hm⟩
    · exact ht.submitted t' parts' ((List.mem_cons.mp hmem).resolve_left (by simp))
    · rcases List.mem_cons.mp hmem with heq | hmem
      · cases heq
        exact ⟨hs.token t req hreq, hall htrue, parts0, mem_cons_of_mem _ hmem0, hwho0⟩
      obtain ⟨hlt, hstop, parts1, hmem1, hwho1⟩ := ht.cancelled t' parts' hmem
      exact ⟨hlt, hstop, parts1, mem_cons_of_mem _ hmem1, hwho1⟩
    · rw [countP_cons]
      split
      · -- It was not asked before: it was not marked.
        rename_i hasks
        obtain rfl : t = t' := by simpa [Event.asksCancel] using hasks
        rw [ht.asked t req hreq hnot]
      · exact ht.once t'
    · obtain ⟨req0, hreq0, -, hfalse⟩ := hrequ t' req' hreq'
      obtain ⟨hne, hc0⟩ := hfalse hc
      rw [countP_cons, ht.asked t' req0 hreq0 hc0]
      simp [Event.asksCancel, Ne.symm hne]
    · obtain ⟨req0, hreq0, hmemb, -⟩ := hrequ t' req' hreq'
      obtain ⟨parts1, hmem1, hwho1⟩ := ht.carried t' req0 hreq0
      exact ⟨parts1, mem_cons_of_mem _ hmem1, by rw [hmemb]; exact hwho1⟩
    · obtain ⟨req0, hreq0, hmemb, -⟩ := hrequ t' req' hreq'
      rw [hmemb] at hlen ⊢
      exact ht.spans t' req0 hreq0 hlen
    · rw [countP_cons]
      exact ht.tries key' h' hh'
    · exact (ht.failed key' h' hh' hstop hout).mono [_]
    · exact (ht.reported a read ((List.mem_cons.mp hmem).resolve_left (by simp)) hout).mono [_]
  · exact ⟨hs, ht, rfl⟩

/-- The read as its last waiter leaves. -/
def Reading.forsaken (r : Reading) (waiter : Nat) : Reading :=
  { r with
    waiters := r.waiters.erase waiter
    stopping := true
    outcome := .cancelled
    error := 0 }

theorem Reading.stop_forsaken {r : Reading} {waiter : Nat} (h : r.stopping = false) :
    ({ r with waiters := r.waiters.erase waiter } : Reading).stop .cancelled 0 =
      r.forsaken waiter := by
  simp [Reading.stop, h, Reading.forsaken]

theorem withdraw_safe (h : Sound d ∧ Told c d) (key waiter : Nat) :
    Safe (fun y => Sound y.2 ∧ Told c y.2) (d.withdraw key waiter) := by
  obtain ⟨hs, ht⟩ := h
  unfold withdraw
  split
  · exact ⟨hs, ht⟩
  rename_i r hr
  split
  · exact ⟨hs, ht⟩
  simp only
  have htries := ht.tries key r.head (headAt_of_find hr)
  have hfailed := ht.failed key r.head (headAt_of_find hr)
  split
  next hlast =>
    simp only [Bool.and_eq_true, Bool.not_eq_true'] at hlast
    rw [Reading.stop_forsaken hlast.2]
    have hs' : Sound (d.setRead key (r.forsaken waiter)) := hs.grow hr (.flags rfl rfl rfl rfl)
    have ht' := ht.put (r.forsaken waiter) hs hr rfl rfl htries nofun d.queue
    refine Sat.bind (Sat.foldlM (I := fun _ d => Sound d ∧ Told c d) (fun d p _ h => ?_)
      ⟨hs', ht'⟩) fun d' hd' => ?_
    · split
      · exact (cancelIfAbandoned_safe h p.token).imp fun d' hd' => ⟨hd'.1, hd'.2.1⟩
      · exact h
    exact ⟨⟨hd'.1.arrival, hd'.1.distinct, hd'.1.queue, hd'.1.queued, hd'.1.token,
      hd'.1.members, hd'.1.ordered, hd'.1.flight, hd'.1.filled⟩,
      ⟨hd'.2.submitted, hd'.2.cancelled, hd'.2.once, hd'.2.asked, hd'.2.carried, hd'.2.spans,
        hd'.2.tries, hd'.2.failed, hd'.2.reported⟩⟩
  exact ⟨hs.grow hr (.flags rfl rfl rfl rfl),
    ht.put { r with waiters := r.waiters.erase waiter } hs hr rfl rfl htries hfailed d.queue⟩

theorem piecesFrom_fresh {requestBytes length : Nat} {p : Piece} : ∀ {n start : Nat},
    p ∈ piecesFrom requestBytes length n start → p.done = 0 ∧ p.inFlight = false
  | n + 1, start, h => by
    unfold piecesFrom at h
    split at h
    · rcases List.mem_cons.mp h with rfl | h
      · exact ⟨rfl, rfl⟩
      · exact piecesFrom_fresh h
    · cases h

structure Fresh (d : DirectReader) (r : Reading) : Prop where
  arrival : r.arrival = d.nextArrival
  idle : ∀ p ∈ r.pieces, p.done = 0 ∧ p.inFlight = false
  retries : r.retries = 0
  stopping : r.stopping = false

theorem arrives_safe {key : Nat} {r : Reading} (h : Sound d ∧ Told c d)
    (hnone : d.reads.find? key = none) (hr : Fresh d r) : Sound { d with
      reads := d.reads.insert key { r with queued := true }
      queue := d.queue.insert r.arrival key
      nextArrival := d.nextArrival + 1 } ∧
    Told c { d with
      reads := d.reads.insert key { r with queued := true }
      queue := d.queue.insert r.arrival key
      nextArrival := d.nextArrival + 1 } := by
  obtain ⟨hs, ht⟩ := h
  have hheads : ∀ key', ({ d with
      reads := d.reads.insert key { r with queued := true } } : DirectReader).headAt key' =
        if key' = key then some { r.head with queued := true } else d.headAt key' := by
    intro key'
    exact headAt_setRead key'
  have hpieces : ∀ m, ({ d with
      reads := d.reads.insert key { r with queued := true } } : DirectReader).pieceAt m =
        if m.key = key then r.pieces[m.piece]? else d.pieceAt m := by
    intro m
    exact pieceAt_setRead
  have hold : ∀ key', (∃ h', d.headAt key' = some h') → key' ≠ key := by
    rintro key' ⟨h', hh'⟩ rfl
    obtain ⟨r', hr', -⟩ := headAt_eq_some.mp hh'
    cases hnone.symm.trans hr'
  have hlater : ∀ key' h', d.headAt key' = some h' → h'.arrival ≠ r.arrival := by
    intro key' h' hh' heq
    have := hs.arrival key' h' hh'
    rw [heq, hr.arrival] at this
    omega
  constructor
  · refine ⟨fun key' h' hh' => ?_, fun key1 key2 h1 h2 hh1 hh2 harr => ?_, fun a key' hq => ?_,
      fun key' h' hh' hq => ?_, hs.token, fun t' req' hreq' m hm => ?_, fun t' req' hreq' => ?_,
      fun m p hp hflight => ?_, fun m p hp => ?_⟩
    · have hh := (hheads key').symm.trans hh'
      split at hh
      · cases hh
        exact Nat.lt_succ_of_le (Nat.le_of_eq hr.arrival)
      · exact Nat.lt_succ_of_lt (hs.arrival key' h' hh)
    · have hh1 := (hheads key1).symm.trans hh1
      have hh2 := (hheads key2).symm.trans hh2
      split at hh1 <;> split at hh2
      · simp_all
      · cases hh1
        exact absurd harr.symm (hlater key2 h2 hh2)
      · cases hh2
        exact absurd harr (hlater key1 h1 hh1)
      · exact hs.distinct key1 key2 h1 h2 hh1 hh2 harr
    · show ∃ h', ({ d with
        reads := d.reads.insert key { r with queued := true } } : DirectReader).headAt key' =
          some h' ∧ _
      rw [hheads]
      simp only [OrdMap.find?_insert] at hq
      split at hq
      next ha =>
        cases hq
        exact ⟨_, if_pos rfl, ha.symm, rfl⟩
      obtain ⟨h0, hh0, hrest⟩ := hs.queue a key' hq
      exact ⟨h0, by rw [if_neg (hold key' ⟨h0, hh0⟩)]; exact hh0, hrest⟩
    · have hh := (hheads key').symm.trans hh'
      simp only [OrdMap.find?_insert]
      split at hh
      next hkey =>
        cases hh
        rw [hkey]
        exact if_pos rfl
      rw [if_neg (hlater key' h' hh)]
      exact hs.queued key' h' hh hq
    · obtain ⟨p, hp, hrest⟩ := hs.members t' req' hreq' m hm
      obtain ⟨r', hr', -⟩ := pieceAt_eq_some.mp hp
      refine ⟨p, (hpieces m).trans ?_, hrest⟩
      rw [if_neg (hold m.key ⟨_, headAt_of_find hr'⟩)]
      exact hp
    · obtain ⟨hne, hpair⟩ := hs.ordered t' req' hreq'
      refine ⟨hne, hpair.imp_of_mem fun {m m'} hm hm' hb => ⟨hb.1, fun h1 h2 hh1 hh2 => ?_⟩⟩
      have hh1 := (hheads m.key).symm.trans hh1
      have hh2 := (hheads m'.key).symm.trans hh2
      obtain ⟨p, hp, -⟩ := hs.members t' req' hreq' m hm
      obtain ⟨p', hp', -⟩ := hs.members t' req' hreq' m' hm'
      obtain ⟨r1, hr1, -⟩ := pieceAt_eq_some.mp hp
      obtain ⟨r2, hr2, -⟩ := pieceAt_eq_some.mp hp'
      rw [if_neg (hold m.key ⟨_, headAt_of_find hr1⟩)] at hh1
      rw [if_neg (hold m'.key ⟨_, headAt_of_find hr2⟩)] at hh2
      exact hb.2 h1 h2 hh1 hh2
    · have hp := (hpieces m).symm.trans hp
      split at hp
      · exact absurd (hflight.symm.trans (hr.idle p (mem_of_getElem? hp)).2) (by simp)
      · exact hs.flight m p hp hflight
    have hp := (hpieces m).symm.trans hp
    split at hp
    · rw [(hr.idle p (mem_of_getElem? hp)).1]
      exact Nat.zero_le _
    · exact hs.filled m p hp
  refine ht.rehead hs rfl rfl rfl (fun key' h0 hh0 => ?_) fun key' h' hh' => ?_
  · refine ⟨h0, (hheads key').trans ?_, rfl, rfl⟩
    rw [if_neg (hold key' ⟨h0, hh0⟩)]
    exact hh0
  have hh := (hheads key').symm.trans hh'
  split at hh
  · cases hh
    refine ⟨?_, fun hstop => nomatch hstop.symm.trans hr.stopping⟩
    show r.retries ≤ _
    rw [hr.retries]
    exact Nat.zero_le _
  · exact ⟨ht.tries key' h' hh, ht.failed key' h' hh⟩

theorem read_safe (h : Sound d ∧ Told c d) (take : Nat → Bool) (key : Nat) (spec : ReadSpec)
    (waiter : Nat) : Safe (fun y => Sound y.2 ∧ Told c y.2) (d.read c take key spec waiter) := by
  unfold read
  split
  next r hr =>
    split
    · exact h
    split
    · exact h
    split
    · exact h
    split
    · exact h
    exact ⟨h.1.grow hr (.flags rfl rfl rfl rfl),
      h.2.put { r with waiters := r.waiters ++ [waiter] } h.1 hr rfl rfl
        (h.2.tries key r.head (headAt_of_find hr)) (h.2.failed key r.head (headAt_of_find hr))
        d.queue⟩
  rename_i hnone
  split
  · exact h
  split
  · exact h
  split
  · exact h
  have hafter := arrives_safe h hnone (r := {
      spec
      waiters := [waiter]
      pieces := piecesFrom c.requestBytes spec.length spec.length 0
      arrival := d.nextArrival }) ⟨rfl, fun p hp => piecesFrom_fresh hp, rfl, rfl⟩
  refine Sat.bind (startQueued_safe (told_starting c) (told_queueBlind c) take hafter.1
    hafter.2) fun d' hd' => hd'

theorem call_safe (h : Sound d ∧ Told c d) (call : Call) :
    Safe (fun d' => Sound d' ∧ Told c d') (d.call c call) := by
  cases call with
  | read take key spec waiter => exact Sat.bind (read_safe h take key spec waiter) fun _ hy => hy
  | withdraw key waiter => exact Sat.bind (withdraw_safe h key waiter) fun _ hy => hy
  | poll take completions take' =>
    exact Sat.bind (poll_safe h take take' completions) fun _ hy => hy

theorem Reachable.told (h : Reachable c d) : Sound d ∧ Told c d := by
  induction h with
  | start =>
    constructor
    · exact ⟨fun _ _ hh => (nomatch hh), fun _ _ _ _ hh => (nomatch hh), fun _ _ hq => (nomatch hq),
        nofun, nofun, nofun,
        nofun, nofun, nofun⟩
    exact ⟨nofun, nofun, fun _ => Nat.zero_le _,
      nofun, nofun, nofun,
      nofun, nofun, nofun⟩
  | call call _ hcall ih => exact (call_safe ih call).val hcall

end Calls

/-- **Requests and pieces agree.** After any calls, whatever the provider answered: no call ends on
    a check; the members of a request are exactly the pieces in flight with its token; the queue
    holds a read, at its arrival, exactly while it is queued; and no piece is filled past its
    length. -/
theorem requests_agree {c : ReaderSettings} {d : DirectReader} (h : Reachable c d) :
    (∀ call, ∃ d', d.call c call = .ok d') ∧
    (∀ t m, (∃ req, d.requests.find? t = some req ∧ m ∈ req.members) ↔
      ∃ p, d.pieceAt m = some p ∧ p.inFlight = true ∧ p.token = t) ∧
    (∀ a key, d.queue.find? a = some key ↔
      ∃ h, d.headAt key = some h ∧ h.arrival = a ∧ h.queued = true) ∧
    ∀ m p, d.pieceAt m = some p → p.done ≤ p.length := by
  obtain ⟨hs, ht⟩ := h.told
  refine ⟨fun call => ?_, fun t m => ⟨?_, ?_⟩, fun a key => ⟨hs.queue a key, ?_⟩, hs.filled⟩
  · have hsafe := call_safe ⟨hs, ht⟩ call
    cases hcall : d.call c call with
    | ok d' => exact ⟨d', rfl⟩
    | error => exact (hsafe.err hcall).elim
  · rintro ⟨req, hreq, hm⟩
    exact hs.members t req hreq m hm
  · rintro ⟨p, hp, hflight, rfl⟩
    exact hs.flight m p hp hflight
  · rintro ⟨r, hr, rfl, hqueued⟩
    exact hs.queued key r hr hqueued

def runCalls (c : ReaderSettings) : DirectReader → List Call → Option DirectReader
  | d, [] => some d
  | d, call :: calls =>
    match d.call c call with
    | .ok d' => runCalls c d' calls
    | .error _ => none

theorem runCalls_reachable {c : ReaderSettings} {d' : DirectReader} :
    ∀ {calls : List Call} {d : DirectReader}, Reachable c d → runCalls c d calls = some d' →
      Reachable c d' := by
  intro calls
  induction calls with
  | nil =>
    intro d h hrun
    cases hrun
    exact h
  | cons call calls ih =>
    intro d h hrun
    unfold runCalls at hrun
    split at hrun
    next d1 hcall =>
      exact ih (h.call call hcall) hrun
    · cases hrun

def spanned : ReaderSettings where
  alignment := 1
  requestBytes := 4
  spanBytes := 16

def stepped : ReaderSettings where
  alignment := 4
  requestBytes := 4
  retries := 0
  spanBytes := 64

def paired : ReaderSettings where
  alignment := 4
  requestBytes := 4
  retries := 0
  spanBytes := 64
  spanSegments := 2

def pairCalls (key : Nat) : List Call := [
  .read (fun _ => false) key { fd := 3, offset := 0, memory := 100, length := 4 } 7,
  .read (fun _ => false) (key + 1) { fd := 3, offset := 4, memory := 200, length := 4 } 7,
  .poll (fun _ => true) [] (fun _ => true)]

/-- A pair's request fails, and each read starts again on its own, one of them to fail; another
    pair's request is cancelled once both reads are withdrawn. -/
def spanCalls : List Call :=
  pairCalls 1 ++ [
    .poll (fun _ => true) [(3, -5)] (fun _ => true),
    .poll (fun _ => true) [(4, -5), (5, 4)] (fun _ => true)] ++
  pairCalls 3 ++ [.withdraw 3 7, .withdraw 4 7]

theorem requests_agree_spans : ∃ d, runCalls spanned {} spanCalls = some d ∧
    ∀ call, ∃ d', d.call spanned call = .ok d' := by
  have hrun : (runCalls spanned {} spanCalls).isSome = true := by decide +kernel
  obtain ⟨d, hd⟩ := Option.isSome_iff_exists.mp hrun
  exact ⟨d, hd, (requests_agree (runCalls_reachable .start hd)).1⟩

end JitLlm.Providers.DirectReader
