import JitLlm.Runtime.Responses

/-!
# What holds between the two threads' sections

`Core` is what the queue, the channels and the connections keep, whichever thread ran last, and
`Driving` what the driver may rely on of the request it holds. Each section keeps both
(`Good.step`); a channel's response, its way through the queue and the end of its connection are
read off them.
-/

namespace JitLlm.Runtime.Api

namespace Channel

def Reusable (ch : Channel) : Prop :=
  ch.ended = true ∧ ∃ h, ch.history.head = some h ∧ h.keepAlive = true

theorem Evolves.reusable {ch ch' : Channel} (h : ch.Evolves ch') (hr : ch.Reusable) :
    ch'.Reusable := by
  obtain ⟨he, hd, hh, hk⟩ := hr
  obtain ⟨h1, -, h3⟩ := h.steady he
  exact ⟨h1, hd, h3.trans hh, hk⟩

/-- Nothing of the channel has happened in the queue yet. -/
def Unqueued (ch : Channel) : Prop :=
  ch.history.interims = 0 ∧ ch.queued = false ∧ ch.history.entered = 0 ∧ ch.history.left = 0

end Channel

namespace World

def Settled (w : World) (i : Nat) : Prop :=
  (w.connections (w.channels i).connection).dead = true ∨
    (w.connections (w.channels i).connection).state = .linger ∨
    (w.connections (w.channels i).connection).channel = some i ∨ (w.channels i).Reusable

structure Core (w : World) : Prop where
  ok : ∀ i, (w.channels i).Ok
  nodup : w.queue.Nodup
  queued : ∀ i, i ∈ w.queue ↔ (w.channels i).queued = true
  inside : ∀ i ∈ w.queue, i < w.nextChannel ∧ (w.channels i).ended = false ∧
    (w.channels i).history.entered = 1 ∧ (w.channels i).history.left = 0
  outside : ∀ i, i ∉ w.queue → (w.channels i).history.entered = (w.channels i).history.left ∧
    (w.channels i).history.entered ≤ 1
  alive : ∀ c, (w.connections c).dead = false → c < w.nextConnection
  channelOf : ∀ c i, (w.connections c).channel = some i → i < w.nextChannel ∧
    (w.channels i).connection = c ∧ (w.connections c).dead = false ∧
    (w.connections c).state = .busy ∧
    ((w.connections c).inputClosed = false → (w.channels i).history.interims = 0)
  home : ∀ i, i < w.nextChannel → (w.channels i).connection < w.nextConnection
  settled : ∀ i, i < w.nextChannel → w.Settled i
  followed : ∀ i k, i < k → k < w.nextChannel →
    (w.channels i).connection = (w.channels k).connection → (w.channels i).Reusable

variable {w w' : World} {j : Json} {options : Options} {f : Channel → Channel}

theorem Core.congr (h : w.Core) (h1 : w'.channels = w.channels) (h2 : w'.nextChannel = w.nextChannel)
    (h3 : w'.connections = w.connections) (h4 : w'.nextConnection = w.nextConnection)
    (h5 : w'.queue = w.queue) : w'.Core := by
  obtain ⟨chs, n, cs, m, q, r, d, s, dr, hl⟩ := w
  simp only at h1 h2 h3 h4 h5
  subst h1 h2 h3 h4 h5
  exact ⟨h.ok, h.nodup, h.queued, h.inside, h.outside, h.alive, h.channelOf, h.home, h.settled,
    h.followed⟩

theorem setChannel_self (w : World) (k : Nat) (ch : Channel) : (w.setChannel k ch).channels k = ch :=
  Function.update_self ..

theorem setChannel_of_ne (w : World) {k i : Nat} (h : i ≠ k) (ch : Channel) :
    (w.setChannel k ch).channels i = w.channels i :=
  Function.update_of_ne h ..

theorem Core.setChannel (h : w.Core) {k : Nat} {ch : Channel}
    (he : (w.channels k).Evolves ch) (hqueued : ch.queued = (w.channels k).queued)
    (hent : ch.history.entered = (w.channels k).history.entered)
    (hleft : ch.history.left = (w.channels k).history.left)
    (hint : ch.history.interims = (w.channels k).history.interims ∨
      (w.connections (w.channels k).connection).inputClosed = true)
    (hended : k ∈ w.queue → ch.ended = false) : (w.setChannel k ch).Core := by
  have hconn : ∀ i, ((w.setChannel k ch).channels i).connection = (w.channels i).connection := by
    intro i
    by_cases hi : i = k
    · rw [hi, setChannel_self]
      exact he.connection
    · rw [setChannel_of_ne w hi]
  have hreuse : ∀ i, (w.channels i).Reusable → ((w.setChannel k ch).channels i).Reusable := by
    intro i hr
    by_cases hi : i = k
    · rw [hi] at hr ⊢
      rw [setChannel_self]
      exact he.reusable hr
    · rwa [setChannel_of_ne w hi]
  constructor
  · intro i
    by_cases hi : i = k
    · rw [hi, setChannel_self]
      exact he.ok
    rw [setChannel_of_ne w hi]
    exact h.ok i
  · exact h.nodup
  · intro i
    by_cases hi : i = k
    · rw [hi, setChannel_self, hqueued]
      exact h.queued k
    rw [setChannel_of_ne w hi]
    exact h.queued i
  · intro i hmem
    by_cases hi : i = k
    · rw [hi] at hmem ⊢
      obtain ⟨h1, -, h3, h4⟩ := h.inside k hmem
      rw [setChannel_self, hent, hleft]
      exact ⟨h1, hended hmem, h3, h4⟩
    rw [setChannel_of_ne w hi]
    exact h.inside i hmem
  · intro i hmem
    by_cases hi : i = k
    · rw [hi] at hmem ⊢
      rw [setChannel_self, hent, hleft]
      exact h.outside k hmem
    rw [setChannel_of_ne w hi]
    exact h.outside i hmem
  · exact h.alive
  · intro c i hc
    obtain ⟨h1, h2, h3, h4, h5⟩ := h.channelOf c i hc
    refine ⟨h1, (hconn i).trans h2, h3, h4, fun hopen => ?_⟩
    by_cases hi : i = k
    · rw [hi, setChannel_self]
      rw [hi] at h2 h5
      rcases hint with heq | hclosed
      · rw [heq]
        exact h5 hopen
      rw [h2] at hclosed
      cases hclosed.symm.trans hopen
    rw [setChannel_of_ne w hi]
    exact h5 hopen
  · intro i hi
    rw [hconn]
    exact h.home i hi
  · intro i hi
    unfold Settled
    rw [hconn]
    rcases h.settled i hi with h1 | h2 | h3 | h4
    · exact .inl h1
    · exact .inr (.inl h2)
    · exact .inr (.inr (.inl h3))
    · exact .inr (.inr (.inr (hreuse i h4)))
  intro i m hlt hm hsame
  rw [hconn, hconn] at hsame
  exact hreuse i (h.followed i m hlt hm hsame)

variable {conn : Connection}

theorem Core.setConnection (h : w.Core) {c : Nat}
    (halive : conn.dead = false → c < w.nextConnection)
    (hchan : ∀ i, conn.channel = some i → (w.connections c).channel = some i ∧
      conn.dead = false ∧ conn.state = .busy ∧
      (conn.inputClosed = false → (w.connections c).inputClosed = false))
    (hset : ∀ i, i < w.nextChannel → (w.channels i).connection = c →
      conn.dead = true ∨ conn.state = .linger ∨ conn.channel = some i ∨ (w.channels i).Reusable) :
    (w.setConnection c conn).Core := by
  have hself : (w.setConnection c conn).connections c = conn := Function.update_self ..
  have hne : ∀ c', c' ≠ c → (w.setConnection c conn).connections c' = w.connections c' :=
    fun c' hc => Function.update_of_ne hc ..
  refine ⟨h.ok, h.nodup, h.queued, h.inside, h.outside, ?_, ?_, h.home, ?_, h.followed⟩
  · intro c' hdead
    by_cases hc : c' = c
    · rw [hc] at hdead ⊢
      rw [hself] at hdead
      exact halive hdead
    rw [hne c' hc] at hdead
    exact h.alive c' hdead
  · intro c' i hi
    by_cases hc : c' = c
    · rw [hc] at hi ⊢
      rw [hself] at hi ⊢
      obtain ⟨h1, h2, h3, h4⟩ := hchan i hi
      obtain ⟨g1, g2, -, -, g5⟩ := h.channelOf c i h1
      exact ⟨g1, g2, h2, h3, fun hopen => g5 (h4 hopen)⟩
    rw [hne c' hc] at hi ⊢
    exact h.channelOf c' i hi
  intro i hi
  unfold Settled
  by_cases hc : (w.channels i).connection = c
  · show (((w.setConnection c conn).connections (w.channels i).connection).dead = true) ∨
      ((w.setConnection c conn).connections (w.channels i).connection).state = .linger ∨
      ((w.setConnection c conn).connections (w.channels i).connection).channel = some i ∨ _
    rw [hc, hself]
    exact hset i hi hc
  show (((w.setConnection c conn).connections (w.channels i).connection).dead = true) ∨
    ((w.setConnection c conn).connections (w.channels i).connection).state = .linger ∨
    ((w.setConnection c conn).connections (w.channels i).connection).channel = some i ∨ _
  rw [hne _ hc]
  exact h.settled i hi

structure Leaves (ch ch' : Channel) : Prop extends ch.Evolves ch' where
  queued : ch'.queued = false
  entered : ch'.history.entered = ch.history.entered
  left : ch'.history.left = ch.history.left + 1
  interims : ch'.history.interims = ch.history.interims

theorem Core.leaves (h : w.Core) {ids : List Nat}
    (hsub : ∀ i ∈ ids, i ∈ w.queue) (hf : ∀ i ∈ ids, Leaves (w.channels i) (f (w.channels i)))
    (hchan : ∀ i, w'.channels i = if i ∈ ids then f (w.channels i) else w.channels i)
    (hqueue : w'.queue = w.queue.filter (· ∉ ids)) (h2 : w'.nextChannel = w.nextChannel)
    (h3 : w'.connections = w.connections) (h4 : w'.nextConnection = w.nextConnection) :
    w'.Core := by
  have hin : ∀ i, i ∈ ids → w'.channels i = f (w.channels i) := fun i hi => by
    rw [hchan, if_pos hi]
  have hout : ∀ i, i ∉ ids → w'.channels i = w.channels i := fun i hi => by
    rw [hchan, if_neg hi]
  have hmem : ∀ i, i ∈ w'.queue ↔ i ∈ w.queue ∧ i ∉ ids := fun i => by
    rw [hqueue, List.mem_filter, decide_eq_true_eq]
  have hconn : ∀ i, (w'.channels i).connection = (w.channels i).connection := by
    intro i
    by_cases hi : i ∈ ids
    · rw [hin i hi]
      exact (hf i hi).connection
    · rw [hout i hi]
  have hreuse : ∀ i, (w.channels i).Reusable → (w'.channels i).Reusable := by
    intro i hr
    by_cases hi : i ∈ ids
    · rw [hin i hi]
      exact (hf i hi).toEvolves.reusable hr
    · rwa [hout i hi]
  constructor
  · intro i
    by_cases hi : i ∈ ids
    · rw [hin i hi]
      exact (hf i hi).ok
    rw [hout i hi]
    exact h.ok i
  · rw [hqueue]
    exact h.nodup.filter _
  · intro i
    rw [hmem]
    by_cases hi : i ∈ ids
    · rw [hin i hi, (hf i hi).queued]
      simp [hi]
    rw [hout i hi, h.queued i]
    simp [hi]
  · intro i hi
    obtain ⟨hq, hi⟩ := (hmem i).mp hi
    rw [hout i hi, h2]
    exact h.inside i hq
  · intro i hi
    by_cases hids : i ∈ ids
    · obtain ⟨-, -, g3, g4⟩ := h.inside i (hsub i hids)
      rw [hin i hids, (hf i hids).entered, (hf i hids).left, g3, g4]
      exact ⟨rfl, Nat.le_refl 1⟩
    rw [hout i hids]
    exact h.outside i fun hq => hi ((hmem i).mpr ⟨hq, hids⟩)
  · rw [h3, h4]
    exact h.alive
  · intro c i hc
    rw [h3] at hc ⊢
    obtain ⟨g1, g2, g3, g4, g5⟩ := h.channelOf c i hc
    refine ⟨h2 ▸ g1, (hconn i).trans g2, g3, g4, fun hopen => ?_⟩
    by_cases hi : i ∈ ids
    · rw [hin i hi, (hf i hi).interims]
      exact g5 hopen
    rw [hout i hi]
    exact g5 hopen
  · intro i hi
    rw [hconn, h4]
    exact h.home i (h2 ▸ hi)
  · intro i hi
    unfold Settled
    rw [hconn, h3]
    rcases h.settled i (h2 ▸ hi) with g1 | g2 | g3 | g4
    · exact .inl g1
    · exact .inr (.inl g2)
    · exact .inr (.inr (.inl g3))
    · exact .inr (.inr (.inr (hreuse i g4)))
  intro i k hlt hk hsame
  rw [hconn, hconn] at hsame
  exact hreuse i (h.followed i k hlt (h2 ▸ hk) hsame)

theorem Core.leaveOne (h : w.Core) {k : Nat} (hk : k ∈ w.queue)
    (hf : Leaves (w.channels k) (f (w.channels k)))
    (hchan : w'.channels = (w.setChannel k (f (w.channels k))).channels)
    (hqueue : w'.queue = w.queue.filter (· ≠ k)) (h2 : w'.nextChannel = w.nextChannel)
    (h3 : w'.connections = w.connections) (h4 : w'.nextConnection = w.nextConnection) :
    w'.Core := by
  have hone : ∀ i, i ∈ [k] → i = k := fun i hi => List.mem_singleton.mp hi
  refine h.leaves (fun i hi => hone i hi ▸ hk) (fun i hi => hone i hi ▸ hf) (fun i => ?_) ?_ h2 h3 h4
  · rw [hchan]
    by_cases hi : i = k
    · rw [if_pos (List.mem_singleton.mpr hi), hi]
      exact setChannel_self ..
    rw [if_neg fun hm => hi (hone i hm)]
    exact setChannel_of_ne w hi _
  rw [hqueue]
  exact List.filter_congr fun i _ => by simp

/-- The connection has taken the next channel of the world. -/
def Takes (w : World) (conn : Connection) : Prop :=
  conn.channel = some w.nextChannel ∧ conn.dead = false ∧ conn.state = .busy

/-- The world in which connection `c` has opened `ch`, in the queue when `q` says so. -/
def opening (w : World) (c : Nat) (conn : Connection) (ch : Channel) (q : Bool) : World :=
  { (w.setConnection c conn).newChannel ch with
    queue := if q then w.queue ++ [w.nextChannel] else w.queue }

theorem Core.opened (h : w.Core) {c : Nat} {ch : Channel} {q : Bool}
    (hdead : (w.connections c).dead = false) (hstate : (w.connections c).state ≠ .linger)
    (hnone : (w.connections c).channel = none) (hch : ch.Ok) (hconn : ch.connection = c)
    (hint : ch.history.interims = 0) (hqueued : ch.queued = q)
    (hent : ch.history.entered = if q then 1 else 0) (hleft : ch.history.left = 0)
    (hended : q = true → ch.ended = false) (hconn' : w.Takes conn) :
    (w.opening c conn ch q).Core := by
  have hnew : (w.opening c conn ch q).channels w.nextChannel = ch := Function.update_self ..
  have hold : ∀ i, i ≠ w.nextChannel → (w.opening c conn ch q).channels i = w.channels i :=
    fun i hi => Function.update_of_ne hi ..
  have hself : (w.opening c conn ch q).connections c = conn := Function.update_self ..
  have hother : ∀ c', c' ≠ c → (w.opening c conn ch q).connections c' = w.connections c' :=
    fun c' hc => Function.update_of_ne hc ..
  have hfresh : w.nextChannel ∉ w.queue := fun hmem =>
    absurd (h.inside _ hmem).1 (Nat.lt_irrefl _)
  have hmem : ∀ i, i ∈ (w.opening c conn ch q).queue ↔
      i ∈ w.queue ∨ (q = true ∧ i = w.nextChannel) := by
    intro i
    cases q <;> simp [opening]
  -- whatever the connection carried before has ended, and said that it goes on
  have hbef : ∀ i, i < w.nextChannel → (w.channels i).connection = c → (w.channels i).Reusable := by
    intro i hi hc
    have hs := h.settled i hi
    unfold Settled at hs
    rw [hc, hdead, hnone] at hs
    rcases hs with hs | hs | hs | hs
    · cases hs
    · exact absurd hs hstate
    · cases hs
    · exact hs
  constructor
  · intro i
    by_cases hi : i = w.nextChannel
    · rw [hi, hnew]
      exact hch
    rw [hold i hi]
    exact h.ok i
  · rcases q with _ | _
    · exact h.nodup
    refine List.nodup_append.mpr ⟨h.nodup, List.pairwise_singleton _ _, fun a ha b hb heq => ?_⟩
    rw [List.mem_singleton.mp hb] at heq
    rw [heq] at ha
    exact hfresh ha
  · intro i
    rw [hmem]
    by_cases hi : i = w.nextChannel
    · rw [hi, hnew, hqueued]
      simp [hfresh]
    rw [hold i hi, ← h.queued i]
    simp [hi]
  · intro i hi
    by_cases hnext : i = w.nextChannel
    · rw [hnext] at hi ⊢
      rcases (hmem _).mp hi with hq | ⟨hq, -⟩
      · exact absurd hq hfresh
      rw [hnew, hent, hleft, hq]
      exact ⟨Nat.lt_succ_self _, hended hq, rfl, rfl⟩
    rcases (hmem _).mp hi with hq | ⟨-, heq⟩
    · obtain ⟨g1, g2⟩ := h.inside i hq
      rw [hold i hnext]
      exact ⟨Nat.lt_succ_of_lt g1, g2⟩
    · exact absurd heq hnext
  · intro i hi
    by_cases hnext : i = w.nextChannel
    · rw [hnext] at hi ⊢
      have hq : q = false := by
        cases hq : q with
        | false => rfl
        | true => exact absurd ((hmem _).mpr (.inr ⟨hq, rfl⟩)) hi
      rw [hnew, hent, hleft, hq]
      exact ⟨rfl, Nat.zero_le 1⟩
    rw [hold i hnext]
    exact h.outside i fun hq => hi ((hmem i).mpr (.inl hq))
  · intro c' hc'
    by_cases hc : c' = c
    · rw [hc]
      exact h.alive c hdead
    rw [hother c' hc] at hc'
    exact h.alive c' hc'
  · intro c' i hi
    by_cases hc : c' = c
    · rw [hc, hself] at hi ⊢
      have hi : i = w.nextChannel := (Option.some.inj (hconn'.1.symm.trans hi)).symm
      rw [hi, hnew]
      exact ⟨Nat.lt_succ_self _, hconn, hconn'.2.1, hconn'.2.2, fun _ => hint⟩
    rw [hother c' hc] at hi ⊢
    obtain ⟨g1, g2⟩ := h.channelOf c' i hi
    rw [hold i (Nat.ne_of_lt g1)]
    exact ⟨Nat.lt_succ_of_lt g1, g2⟩
  · intro i (hi : i < w.nextChannel + 1)
    by_cases hnext : i = w.nextChannel
    · rw [hnext, hnew, hconn]
      exact h.alive c hdead
    rw [hold i hnext]
    exact h.home i (by omega)
  · intro i (hi : i < w.nextChannel + 1)
    unfold Settled
    by_cases hnext : i = w.nextChannel
    · rw [hnext, hnew, hconn, hself]
      exact .inr (.inr (.inl hconn'.1))
    have hlt : i < w.nextChannel := by omega
    rw [hold i hnext]
    by_cases hc : (w.channels i).connection = c
    · exact .inr (.inr (.inr (hbef i hlt hc)))
    rw [hother _ hc]
    exact h.settled i hlt
  intro i k hlt (hk : k < w.nextChannel + 1) hsame
  have hi : i < w.nextChannel := by omega
  rw [hold i (Nat.ne_of_lt hi)] at hsame ⊢
  by_cases hnext : k = w.nextChannel
  · rw [hnext, hnew, hconn] at hsame
    exact hbef i hi hsame
  rw [hold k hnext] at hsame
  exact h.followed i k hlt (by omega) hsame

end World

/-! ## The driver -/

def Driver.Holds (d : Driver) (i : Nat) : Prop :=
  d = .taken i ∨ d = .serving i ∨ d = .responded i

theorem Driver.Holds.of_live {d : Driver} {i : Nat} (h : d = .taken i ∨ d = .serving i) :
    d.Holds i := by
  rcases h with h | h
  · exact .inl h
  · exact .inr (.inl h)

namespace World

variable {w w' : World} {j : Json} {options : Options} {ch : Channel}
    {http10 keepAlive stream : Bool} {i : Nat}

structure Driving (w : World) : Prop where
  holds : ∀ i, w.driver.Holds i → i < w.nextChannel ∧ i ∉ w.queue
  live : ∀ i, w.driver = .taken i ∨ w.driver = .serving i →
    (w.channels i).ended = true → (w.channels i).stalled = true
  running : ∀ i, w.running = some i → w.driver = .serving i ∨ w.driver = .responded i

theorem Driving.frame (h : w.Driving) (hdriver : w'.driver = w.driver)
    (hrun : w'.running = w.running) (hnext : w.nextChannel ≤ w'.nextChannel)
    (hqueue : ∀ i, i < w.nextChannel → i ∈ w'.queue → i ∈ w.queue)
    (hlive : ∀ i, w.driver.Holds i → ((w.channels i).ended = true → (w.channels i).stalled = true) →
      (w'.channels i).ended = true → (w'.channels i).stalled = true) : w'.Driving := by
  constructor
  · intro i hi
    rw [hdriver] at hi
    obtain ⟨h1, h2⟩ := h.holds i hi
    exact ⟨Nat.lt_of_lt_of_le h1 hnext, fun hmem => h2 (hqueue i h1 hmem)⟩
  · intro i hi
    rw [hdriver] at hi
    exact hlive i (Driver.Holds.of_live hi) (h.live i hi)
  intro i hi
  rw [hrun] at hi
  rw [hdriver]
  exact h.running i hi

structure Good (w : World) : Prop where
  core : w.Core
  driving : w.Driving

theorem Driving.same (h : w.Driving) (hdriver : w'.driver = w.driver)
    (hrun : w'.running = w.running) (hnext : w'.nextChannel = w.nextChannel)
    (hqueue : w'.queue = w.queue) (hchan : ∀ i, (w'.channels i).ended = (w.channels i).ended ∧
      (w'.channels i).stalled = (w.channels i).stalled) : w'.Driving :=
  h.frame hdriver hrun (Nat.le_of_eq hnext.symm) (fun _ _ hm => hqueue ▸ hm)
    fun i _ hl he => by
      rw [(hchan i).2]
      rw [(hchan i).1] at he
      exact hl he

/-! ## Connections -/

theorem Good.accept (h : w.Good) : w.accept.Good := by
  have hmore : ({ w with nextConnection := w.nextConnection + 1 } : World).Core :=
    ⟨h.core.ok, h.core.nodup, h.core.queued, h.core.inside, h.core.outside,
      fun c hc => Nat.lt_succ_of_lt (h.core.alive c hc), h.core.channelOf,
      fun i hi => Nat.lt_succ_of_lt (h.core.home i hi), h.core.settled, h.core.followed⟩
  refine ⟨?_, h.driving.same rfl rfl rfl rfl fun _ => ⟨rfl, rfl⟩⟩
  refine hmore.setConnection
    (fun _ => Nat.lt_succ_self _) (fun i hi => nomatch hi) fun i hi hc => ?_
  have := h.core.home i hi
  exact absurd hc (Nat.ne_of_lt this)

variable {c : Nat} {conn : Connection}

theorem Good.setConnection (h : w.Good) (hchan : conn.channel = (w.connections c).channel)
    (hdead : conn.dead = (w.connections c).dead)
    (hbusy : (w.connections c).state = .busy → conn.state = .busy)
    (hlin : (w.connections c).state = .linger → conn.state = .linger)
    (hclosed : conn.inputClosed = false → (w.connections c).inputClosed = false) :
    (w.setConnection c conn).Good := by
  refine ⟨h.core.setConnection (fun hd => h.core.alive c (hdead ▸ hd)) (fun i hi => ?_)
    (fun i hi hc => ?_), h.driving.same rfl rfl rfl rfl fun _ => ⟨rfl, rfl⟩⟩
  · rw [hchan] at hi
    obtain ⟨-, -, h3, h4, -⟩ := h.core.channelOf c i hi
    exact ⟨hi, hdead.trans h3, hbusy h4, hclosed⟩
  have hs := h.core.settled i hi
  unfold Settled at hs
  rw [hc] at hs
  rw [hdead, hchan]
  rcases hs with hs | hs | hs | hs
  · exact .inl hs
  · exact .inr (.inl (hlin hs))
  · exact .inr (.inr (.inl hs))
  · exact .inr (.inr (.inr hs))

theorem Core.close (h : w.Core) (hnone : conn.channel = none)
    (hclosed : conn.dead = true ∨ (conn.state = .linger ∧ (w.connections c).dead = false)) :
    (w.setConnection c conn).Core := by
  refine h.setConnection (fun hd => ?_) (fun i hi => ?_) fun i _ _ => ?_
  · rcases hclosed with hc | ⟨-, hc⟩
    · cases hc.symm.trans hd
    · exact h.alive c hc
  · rw [hnone] at hi
    cases hi
  rcases hclosed with hc | ⟨hc, -⟩
  · exact .inl hc
  · exact .inr (.inl hc)

theorem Good.setChannel (h : w.Good) {k : Nat}
    (he : (w.channels k).Evolves ch) (hqueued : ch.queued = (w.channels k).queued)
    (hent : ch.history.entered = (w.channels k).history.entered)
    (hleft : ch.history.left = (w.channels k).history.left)
    (hint : ch.history.interims = (w.channels k).history.interims ∨
      (w.connections (w.channels k).connection).inputClosed = true)
    (hended : ch.ended = (w.channels k).ended)
    (hstal : (w.channels k).stalled = true → ch.stalled = true) : (w.setChannel k ch).Good := by
  refine ⟨h.core.setChannel he hqueued hent hleft hint fun hk => ?_,
    h.driving.frame rfl rfl (Nat.le_refl _) (fun _ _ hm => hm) fun i _ hl hend => ?_⟩
  · rw [hended]
    exact (h.core.inside k hk).2.1
  by_cases hi : i = k
  · rw [hi] at hl hend ⊢
    rw [setChannel_self] at hend ⊢
    rw [hended] at hend
    exact hstal (hl hend)
  rw [setChannel_of_ne w hi] at hend ⊢
  exact hl hend

theorem Good.drop (h : w.Good) (c : Nat) : (w.drop c).Good := by
  unfold World.drop
  simp only
  split
  · exact h
  rcases hc : (w.connections c).channel with _ | k
  · exact ⟨h.core.close rfl (.inl rfl), h.driving.same rfl rfl rfl rfl fun _ => ⟨rfl, rfl⟩⟩
  simp only
  have hgone := (h.core.ok k).setGone
  split
  · next hqueued =>
    have hk : k ∈ w.queue := (h.core.queued k).mpr hqueued
    have hleave : Leaves (w.channels k) ({ w.channels k with gone := true } : Channel).leave :=
      ⟨hgone.trans hgone.ok.leave, rfl, rfl, rfl, rfl⟩
    have hcore : ({ w.setChannel k ({ w.channels k with gone := true } : Channel).leave with
        queue := w.queue.filter (· ≠ k) } : World).Core :=
      h.core.leaveOne (f := fun ch => ({ ch with gone := true } : Channel).leave) hk hleave rfl rfl
        rfl rfl rfl
    refine ⟨hcore.close rfl (.inl rfl), h.driving.frame rfl rfl (Nat.le_refl _)
      (fun i _ hm => (List.mem_filter.mp hm).1) fun i hi hl hend => ?_⟩
    have hne : i ≠ k := fun heq => (h.driving.holds i hi).2 (heq ▸ hk)
    have hsame : (w.setChannel k ({ w.channels k with gone := true } : Channel).leave).channels i =
      w.channels i := setChannel_of_ne w hne _
    exact hsame ▸ hl (hsame ▸ hend)
  have hgood := h.setChannel hgone rfl rfl rfl (.inl rfl) rfl fun hs => hs
  exact ⟨hgood.core.close rfl (.inl rfl), hgood.driving.same rfl rfl rfl rfl fun _ => ⟨rfl, rfl⟩⟩

theorem Good.onChannel (h : w.Good) {f : Channel → Channel}
    (hf : ∀ k, (w.connections c).channel = some k → (w.channels k).Evolves (f (w.channels k)) ∧
      (f (w.channels k)).queued = (w.channels k).queued ∧
      (f (w.channels k)).history.entered = (w.channels k).history.entered ∧
      (f (w.channels k)).history.left = (w.channels k).history.left ∧
      (f (w.channels k)).history.interims = (w.channels k).history.interims ∧
      (f (w.channels k)).ended = (w.channels k).ended ∧
      ((w.channels k).stalled = true → (f (w.channels k)).stalled = true)) :
    (w.onChannel c f).Good := by
  unfold World.onChannel
  cases hc : (w.connections c).channel with
  | none => exact h
  | some k =>
    obtain ⟨h1, h2, h3, h4, h5, h6, h7⟩ := hf k hc
    exact h.setChannel h1 h2 h3 h4 (.inl h5) h6 h7

theorem onChannel_connections (w : World) (c : Nat) (f : Channel → Channel) :
    (w.onChannel c f).connections = w.connections := by
  unfold onChannel
  split <;> rfl

theorem onChannel_setConnection (w : World) (c : Nat) (f : Channel → Channel) (conn : Connection) :
    (w.onChannel c f).setConnection c conn = match (w.connections c).channel with
      | none => w.setConnection c conn
      | some k => (w.setConnection c conn).setChannel k (f (w.channels k)) := by
  unfold onChannel
  cases (w.connections c).channel <;> rfl

theorem Good.pipelined (h : w.Good) (c : Nat) : (w.pipelined c).Good := by
  unfold World.pipelined
  have hgood : (w.onChannel c ({ · with keepAlive := false })).Good :=
    h.onChannel fun k _ => ⟨(h.core.ok k).keepAliveOff.1, rfl, rfl, rfl, rfl, rfl, fun hs => hs⟩
  have hconn := onChannel_connections w c ({ · with keepAlive := false })
  refine hgood.setConnection ?_ ?_ ?_ ?_ ?_ <;> rw [hconn]
  · exact fun hb => hb
  · exact fun hl => hl
  · exact fun hi => hi

theorem keepalive_stalled (ch : Channel) (hs : ch.stalled = true) :
    (ch.keepalive j).stalled = true := by
  unfold Channel.keepalive
  split
  · split
    · exact ((Channel.putBody_puts _).trans (Channel.record_puts _)).stalled.trans hs
    split
    · exact Channel.putStart_puts.stalled.trans hs
    · exact hs
  · exact hs

theorem Good.keepalive (h : w.Good) (c : Nat) : (w.onChannel c (·.keepalive j)).Good :=
  h.onChannel fun k _ => by
    obtain ⟨h1, h2, h3⟩ := (h.core.ok k).keepalive (j := j)
    exact ⟨h1, h2.queued, h2.entered, h2.left, h2.interims, h3, keepalive_stalled _⟩

theorem inputClosed_stalled (ch : Channel) (hs : ch.stalled = true) :
    (ch.inputClosed j).stalled = true := by
  unfold Channel.inputClosed
  simp only
  split
  · exact hs
  split
  · split
    · exact ((Channel.putBody_puts _).trans (Channel.record_puts _)).stalled.trans hs
    · exact Channel.putStart_puts.stalled.trans hs
  · split <;> exact hs

theorem Good.inputClosed (h : w.Good) (c : Nat) : (w.inputClosed j c).Good := by
  unfold World.inputClosed
  simp only
  split
  · exact h
  next hopen =>
  have hclosed : (w.setConnection c { w.connections c with
      inputClosed := true, closeAfter := true }).Good :=
    h.setConnection rfl rfl (fun hb => hb) (fun hl => hl) nofun
  have hflag : ({ w.connections c with inputClosed := true, closeAfter := true } :
      Connection).inputClosed = true := rfl
  rw [onChannel_setConnection]
  generalize ({ w.connections c with inputClosed := true, closeAfter := true } : Connection) = conn
    at hclosed hflag ⊢
  rcases hc : (w.connections c).channel with _ | k
  · exact hclosed
  obtain ⟨-, hk, -, -, hint⟩ := h.core.channelOf c k hc
  obtain ⟨h1, h2, h3, h4, h5⟩ := (h.core.ok k).inputClosed (j := j) (hint (by simpa using hopen))
  refine hclosed.setChannel (k := k) h1 h3 h4 h5 (.inr ?_) h2 (inputClosed_stalled _)
  show (Function.update w.connections c conn (w.channels k).connection).inputClosed = true
  rw [hk, Function.update_self]
  exact hflag

theorem Good.flush (h : w.Good) (hdead : (w.connections c).dead = false) : (w.flush c).Good := by
  unfold World.flush
  simp only
  rcases hc : (w.connections c).channel with _ | k
  · exact h
  simp only
  obtain ⟨hlt, hk, -, hbusy, -⟩ := h.core.channelOf c k hc
  obtain ⟨h1, h2, h3⟩ := (h.core.ok k).take
  have htaken := h.setChannel h1 h2.queued h2.entered h2.left (.inl h2.interims) h3 fun hs => hs
  split
  · exact htaken.drop c
  split
  · split
    · next hended =>
      have hended : (w.channels k).ended = true := (Bool.and_eq_true_iff.mp hended).1
      split
      · next hkeep =>
        -- the head said the connection goes on, as it would have turned `keepAlive` off
        simp only [Bool.and_eq_true, Bool.not_eq_true'] at hkeep
        have hreuse : (w.channels k).Reusable := by
          refine ⟨hended, ?_⟩
          rcases (h.core.ok k).stage with hs | ⟨r, hs⟩ | ⟨r, hs⟩
          · cases hs.ended.symm.trans hended
          · cases hs.ended.symm.trans hended
          refine ⟨r.head, hs.head, ?_⟩
          cases hka : r.head.keepAlive with
          | true => rfl
          | false =>
            have := (h.core.ok k).close r.head hs.head hka
            cases this.symm.trans hkeep.1.1
        refine ⟨htaken.core.setConnection (fun _ => h.core.alive c hdead)
          (fun i hi => nomatch hi) fun i hi hic => ?_,
          htaken.driving.same rfl rfl rfl rfl fun _ => ⟨rfl, rfl⟩⟩
        by_cases hik : i = k
        · rw [hik, setChannel_self]
          exact .inr (.inr (.inr (h1.reusable hreuse)))
        rw [setChannel_of_ne w hik] at hic ⊢
        have hs := h.core.settled i hi
        unfold Settled at hs
        rw [hic, hdead, hbusy, hc] at hs
        rcases hs with hs | hs | hs | hs
        · cases hs
        · cases hs
        · exact absurd (Option.some.inj hs).symm hik
        · exact .inr (.inr (.inr hs))
      exact ⟨htaken.core.close rfl (.inr ⟨rfl, hdead⟩),
        htaken.driving.same rfl rfl rfl rfl fun _ => ⟨rfl, rfl⟩⟩
    · exact htaken
  · exact htaken.setConnection hc.symm rfl (fun hb => hb) (fun hl => hl) fun hi => hi

/-! ## New channels -/

theorem fresh_waiting {c n timeout : Nat} :
    ({ connection := c, http10, idleTimeout := timeout, id := n, keepAlive, stream } :
      Channel).Waiting :=
  ⟨rfl, rfl, rfl, rfl, rfl, rfl, Nat.zero_le 1, rfl⟩

theorem fresh_ok {c n timeout : Nat} :
    ({ connection := c, http10, idleTimeout := timeout, id := n, keepAlive, stream } :
      Channel).Ok where
  stage := .inl fresh_waiting
  stalled hs := nomatch hs
  close _ hh := nomatch hh

theorem Driving.opened (h : w.Driving) {q : Bool} : (w.opening c conn ch q).Driving := by
  refine h.frame rfl rfl (Nat.le_succ _) (fun i hi hm => ?_) fun i hi hl hend => ?_
  · rcases q with _ | _
    · exact hm
    rcases List.mem_append.mp hm with hm | hm
    · exact hm
    exact absurd (List.mem_singleton.mp hm) (Nat.ne_of_lt hi)
  have hsame : (w.opening c conn ch q).channels i = w.channels i :=
    Function.update_of_ne (Nat.ne_of_lt (h.holds i hi).1) ..
  rw [hsame] at hend ⊢
  exact hl hend

section

variable (h : w.Good) (hdead : (w.connections c).dead = false)
include h hdead

theorem Good.opened (hstate : (w.connections c).state ≠ .linger)
    (hbusy : (w.connections c).state ≠ .busy) (hch : ch.Ok) (hconn : ch.connection = c)
    (hcounts : ch.Unqueued) (hconn' : w.Takes conn) : (w.opening c conn ch false).Good := by
  have hnone : (w.connections c).channel = none := by
    cases hc : (w.connections c).channel with
    | none => rfl
    | some k => exact absurd (h.core.channelOf c k hc).2.2.2.1 hbusy
  obtain ⟨hint, hqueued, hent, hleft⟩ := hcounts
  exact ⟨h.core.opened hdead hstate hnone hch hconn hint hqueued hent hleft nofun hconn',
    h.driving.opened⟩

theorem Good.answered {ch ch' : Channel}
    (hstate : (w.connections c).state = .head ∨ (w.connections c).state = .body)
    (hputs : ch.Puts ch') (hch' : ch'.Ok) (hconn : ch.connection = c) (hcounts : ch.Unqueued)
    (hconn' : w.Takes conn) : ((w.setConnection c conn).newChannel ch').Good := by
  obtain ⟨hint, hqueued, hent, hleft⟩ := hcounts
  refine h.opened hdead ?_ ?_ hch' (hputs.connection.trans hconn) ⟨hputs.interims.trans hint,
    hputs.queued.trans hqueued, hputs.entered.trans hent, hputs.left.trans hleft⟩ hconn'
  · rcases hstate with hs | hs <;> rw [hs] <;> exact nofun
  · rcases hstate with hs | hs <;> rw [hs] <;> exact nofun

theorem Good.refuse (hstate : (w.connections c).state = .head ∨ (w.connections c).state = .body)
    (error : Error) (extra : List String) : (w.refuse j options c error extra).Good :=
  h.answered hdead hstate (Channel.putError_puts error extra)
    (fresh_ok.putError rfl error extra).1.ok rfl ⟨rfl, rfl, rfl, rfl⟩ ⟨rfl, hdead, rfl⟩

theorem Good.enqueued (hstate : (w.connections c).state = .body)
    (hch : ch.Ok) (hended : ch.ended = false) (hconn : ch.connection = c)
    (hcounts : ch.Unqueued) (hconn' : w.Takes conn) : (w.opening c conn ch.enter true).Good := by
  have hnone : (w.connections c).channel = none := by
    cases hc : (w.connections c).channel with
    | none => rfl
    | some k => exact nomatch (h.core.channelOf c k hc).2.2.2.1.symm.trans hstate
  have henter : ch.Evolves ch.enter := hch.flags rfl fun hk => hk
  have hent : ch.enter.history.entered = 1 := by
    show ch.history.entered + 1 = 1
    rw [hcounts.2.2.1]
  exact ⟨h.core.opened hdead (by rw [hstate]; exact nofun) hnone henter.ok
    hconn hcounts.1 rfl hent hcounts.2.2.2 (fun _ => hended) hconn', h.driving.opened⟩

theorem Good.onRequest
    (hstate : (w.connections c).state = .body) (keepAlive pipelined : Bool) (outcome : Outcome) :
    (w.onRequest j options c keepAlive pipelined outcome).Good := by
  have herror : ∀ (conn : Connection) (ch : Channel) (error : Error) (extra : List String),
      ch.Ok → ch.ended = false → ch.connection = c → ch.Unqueued → w.Takes conn →
      ((w.setConnection c conn).newChannel (ch.putError j error extra)).Good :=
    fun conn ch error extra hok hended hconn hcounts hconn' =>
      h.answered hdead (.inr hstate) (Channel.putError_puts error extra)
        (hok.putError hended error extra).1.ok hconn hcounts hconn'
  unfold World.onRequest
  simp only
  cases outcome with
  | refused error extra =>
    exact herror _ _ error extra fresh_ok rfl rfl ⟨rfl, rfl, rfl, rfl⟩ ⟨rfl, hdead, rfl⟩
  | answered body =>
    exact h.answered hdead (.inr hstate) (Channel.answer_puts body)
      (fresh_waiting.answered fresh_ok body).ok rfl ⟨rfl, rfl, rfl, rfl⟩ ⟨rfl, hdead, rfl⟩
  | chat =>
    simp only
    split
    · exact h.enqueued hdead hstate fresh_ok rfl rfl ⟨rfl, rfl, rfl, rfl⟩ ⟨rfl, hdead, rfl⟩
    split
    · exact herror _ _ _ [] fresh_ok rfl rfl ⟨rfl, rfl, rfl, rfl⟩ ⟨rfl, hdead, rfl⟩
    split
    · exact herror _ _ _ [] fresh_ok rfl rfl ⟨rfl, rfl, rfl, rfl⟩ ⟨rfl, hdead, rfl⟩
    exact herror _ _ _ [] fresh_ok rfl rfl ⟨rfl, rfl, rfl, rfl⟩ ⟨rfl, hdead, rfl⟩

end

/-! ## The queue -/

theorem each_channels (f : Channel → Channel) : ∀ {ids : List Nat} {w : World}, ids.Nodup →
    ∀ i, (w.each f ids).channels i = if i ∈ ids then f (w.channels i) else w.channels i
  | [], w, _, i => by
    rw [if_neg List.not_mem_nil]
    rfl
  | k :: ids, w, hnodup, i => by
    obtain ⟨hk, hrest⟩ := List.nodup_cons.mp hnodup
    have hstep : (w.each f (k :: ids)).channels i =
        ((w.setChannel k (f (w.channels k))).each f ids).channels i := rfl
    rw [hstep, each_channels f hrest i]
    by_cases hik : i = k
    · rw [hik, if_neg hk, if_pos List.mem_cons_self, setChannel_self]
    rw [setChannel_of_ne w hik]
    simp only [List.mem_cons, hik, false_or]

theorem leaves_putError (hch : ch.Ok) (hended : ch.ended = false) (error : Error) :
    Leaves ch (ch.leave.putError j error) := by
  have hputs : ch.leave.Puts (ch.leave.putError j error) := Channel.putError_puts error []
  exact ⟨hch.leave.trans (hch.leave.ok.putError hended error []).1, hputs.queued,
    hputs.entered, hputs.left, hputs.interims⟩

section

variable (h : w.Good)
include h

theorem Good.leaves {ids : List Nat} {f : Channel → Channel} (hsub : ∀ i ∈ ids, i ∈ w.queue)
    (hnodup : ids.Nodup) (hf : ∀ i ∈ ids, Leaves (w.channels i) (f (w.channels i)))
    (hchan : w'.channels = (w.each f ids).channels) (hqueue : w'.queue = w.queue.filter (· ∉ ids))
    (h2 : w'.nextChannel = w.nextChannel) (h3 : w'.connections = w.connections)
    (h4 : w'.nextConnection = w.nextConnection) (h5 : w'.driver = w.driver)
    (h6 : w'.running = w.running) : w'.Good := by
  have heach : ∀ i, w'.channels i = if i ∈ ids then f (w.channels i) else w.channels i :=
    fun i => by rw [hchan, each_channels f hnodup i]
  refine ⟨h.core.leaves hsub hf heach hqueue h2 h3 h4, h.driving.frame h5 h6
    (Nat.le_of_eq h2.symm) (fun i _ hm => ?_) fun i hi hl hend => ?_⟩
  · rw [hqueue] at hm
    exact (List.mem_filter.mp hm).1
  have hids : i ∉ ids := fun hm => (h.driving.holds i hi).2 (hsub i hm)
  rw [heach i, if_neg hids] at hend ⊢
  exact hl hend

theorem Good.expire (waited : Nat → Bool) : (w.expire j waited).Good := by
  unfold World.expire
  simp only
  refine h.leaves (f := fun ch => ch.leave.putError j (refusal 429
      "the request waited too long behind others; retry later"))
    (fun i hi => (List.mem_filter.mp hi).1) (h.core.nodup.filter _) (fun i hi => ?_)
    rfl (List.filter_congr fun i hi => ?_) rfl rfl rfl rfl rfl
  · exact leaves_putError (h.core.ok i) (h.core.inside i (List.mem_filter.mp hi).1).2.1 _
  · simp only [List.mem_filter, hi, true_and, decide_not, Bool.decide_eq_true]

theorem Good.refuseAll {f : Channel → Channel}
    (hf : ∀ i ∈ w.queue, Leaves (w.channels i) (f (w.channels i)))
    (hchan : w'.channels = (w.each f w.queue).channels) (hqueue : w'.queue = [])
    (h2 : w'.nextChannel = w.nextChannel) (h3 : w'.connections = w.connections)
    (h4 : w'.nextConnection = w.nextConnection) (h5 : w'.driver = w.driver)
    (h6 : w'.running = w.running) : w'.Good := by
  refine h.leaves (fun _ hi => hi) h.core.nodup hf hchan ?_ h2 h3 h4 h5 h6
  rw [hqueue]
  exact (List.filter_eq_nil_iff.mpr fun i hi => by simpa using hi).symm

theorem Good.stallRunning (message : String) : (w.stallRunning j message).Good := by
  unfold World.stallRunning
  split
  · exact h
  next k hr =>
  simp only
  split
  · exact h
  next hc =>
  have hended : (w.channels k).ended = false := by
    cases he : (w.channels k).ended with
    | false => rfl
    | true => simp [he] at hc
  have hk := (h.driving.holds k (.inr (h.driving.running k hr))).2
  have hstall := (h.core.ok k).stall (j := j) hended (refusal 504 message "backend_stalled")
  have hputs : (w.channels k).Puts ((w.channels k).putError j
      (refusal 504 message "backend_stalled")) := Channel.putError_puts _ []
  refine ⟨h.core.setChannel hstall hputs.queued hputs.entered hputs.left (.inl hputs.interims)
    fun hmem => absurd hmem hk, h.driving.frame rfl rfl (Nat.le_refl _) (fun _ _ hm => hm)
    fun i _ hl hend => ?_⟩
  by_cases hi : i = k
  · rw [hi, setChannel_self]
  rw [setChannel_of_ne w hi] at hend ⊢
  exact hl hend

theorem Good.watchBackend (message : String) : (w.watchBackend j message).Good := by
  have hstall := h.stallRunning (j := j) message
  exact hstall.refuseAll (f := fun ch => ch.leave.putError j (refusal 503
      "the model backend has stopped making progress; retry later" "backend_unresponsive"))
    (fun i hi => leaves_putError (hstall.core.ok i) (hstall.core.inside i hi).2.1 _)
    rfl rfl rfl rfl rfl rfl rfl

theorem Good.drain : w.drain.Good := by
  refine ⟨⟨h.core.ok, h.core.nodup, h.core.queued, h.core.inside, h.core.outside, ?_, ?_,
    h.core.home, ?_, h.core.followed⟩, h.driving.same rfl rfl rfl rfl fun _ => ⟨rfl, rfl⟩⟩
  · intro c hc
    simp only [World.drain] at hc
    split at hc
    · exact h.core.alive c hc
    · cases hc
  · intro c i hi
    simp only [World.drain] at hi ⊢
    split at hi
    · next hb =>
      rw [if_pos hb]
      exact h.core.channelOf c i hi
    · cases hi
  intro i hi
  unfold Settled
  simp only [World.drain]
  split
  · exact h.core.settled i hi
  · exact .inl rfl

end

/-! ## The driver's sections -/

section

variable (h : w.Good)
include h

theorem Good.take {rest : List Nat} (hqueue : w.queue = i :: rest)
    (hdriver : w.driver = .idle) : ({ w.setChannel i (w.channels i).leave with
      queue := rest, driver := .taken i } : World).Good := by
  have hi : i ∈ w.queue := hqueue ▸ List.mem_cons_self
  have hnodup := h.core.nodup
  rw [hqueue] at hnodup
  obtain ⟨hnot, -⟩ := List.nodup_cons.mp hnodup
  have hleave : Leaves (w.channels i) (w.channels i).leave :=
    ⟨(h.core.ok i).leave, rfl, rfl, rfl, rfl⟩
  refine ⟨h.core.leaveOne hi hleave rfl ?_ rfl rfl rfl,
    ⟨fun k hk => ?_, fun k hk hend => ?_, fun k hk => ?_⟩⟩
  · rw [hqueue, List.filter_cons_of_neg (by simp)]
    refine (List.filter_eq_self.mpr fun k hk => ?_).symm
    simp only [decide_eq_true_eq]
    exact fun heq => hnot (heq ▸ hk)
  · have hk : k = i := by
      rcases hk with hk | hk | hk
      · exact (Driver.taken.inj hk).symm
      · cases hk
      · cases hk
    rw [hk]
    exact ⟨(h.core.inside i hi).1, hnot⟩
  · have hk : k = i := by
      rcases hk with hk | hk
      · exact (Driver.taken.inj hk).symm
      · cases hk
    rw [hk] at hend
    have hended := (h.core.inside i hi).2.1
    rw [show (w.setChannel i (w.channels i).leave).channels i = (w.channels i).leave from
      setChannel_self ..] at hend
    cases hended.symm.trans hend
  have hser := h.driving.running k hk
  rw [hdriver] at hser
  rcases hser with hs | hs <;> cases hs

theorem Good.live (hd : w.driver = .taken i ∨ w.driver = .serving i) : (w.channels i).Live :=
  ⟨h.core.ok i, h.driving.live i hd⟩

theorem Good.onServing {f : Channel → Channel}
    (hf : ∀ i, (w.channels i).Live → (w.channels i).Evolves (f (w.channels i)) ∧
      (w.channels i).Keeps (f (w.channels i)) ∧ (f (w.channels i)).Live)
    (hstep : w.onServing f = some w') : w'.Good := by
  unfold World.onServing at hstep
  split at hstep
  · next i hd =>
    obtain ⟨he, hk, hlive⟩ := hf i (h.live (.inr hd))
    have hi : w.driver.Holds i := .inr (.inl hd)
    cases hstep
    refine ⟨h.core.setChannel he hk.queued hk.entered hk.left (.inl hk.interims)
      fun hmem => absurd hmem (h.driving.holds i hi).2, h.driving.frame rfl rfl (Nat.le_refl _)
      (fun _ _ hm => hm) fun m _ hl hend => ?_⟩
    by_cases hm : m = i
    · rw [hm, setChannel_self] at hend ⊢
      exact hlive.stalled hend
    rw [setChannel_of_ne w hm] at hend ⊢
    exact hl hend
  · cases hstep

theorem Good.finish (hd : w.driver = .serving i) (e : Channel.Ending) :
    ({ w.setChannel i ((w.channels i).finish j options e) with driver := .responded i } :
      World).Good := by
  obtain ⟨he, hk⟩ := (h.live (.inr hd)).finish (j := j) options e
  have hi := h.driving.holds i (.inr (.inl hd))
  have hcore := h.core.setChannel he hk.queued hk.entered hk.left (.inl hk.interims)
    fun hmem => absurd hmem hi.2
  refine ⟨hcore.congr rfl rfl rfl rfl rfl, ⟨fun m hm => ?_, fun m hm => ?_, fun m hm => ?_⟩⟩
  · have hm : m = i := by
      rcases hm with hm | hm | hm
      · cases hm
      · cases hm
      · exact (Driver.responded.inj hm).symm
    rw [hm]
    exact hi
  · rcases hm with hm | hm <;> cases hm
  have hser := h.driving.running m hm
  rw [hd] at hser
  rcases hser with hs | hs
  · exact .inr (by rw [Driver.serving.inj hs])
  · cases hs

theorem Good.serve (hd : w.driver = .taken i) :
    ({ w with running := some i, driver := .serving i, healthy := true } : World).Good := by
  refine ⟨h.core.congr rfl rfl rfl rfl rfl, ⟨fun m hm => ?_, fun m hm => ?_, fun m hm => ?_⟩⟩
  · have hm : m = i := by
      rcases hm with hm | hm | hm
      · cases hm
      · exact (Driver.serving.inj hm).symm
      · cases hm
    rw [hm]
    exact h.driving.holds i (.inl hd)
  · have hm : m = i := by
      rcases hm with hm | hm
      · cases hm
      · exact (Driver.serving.inj hm).symm
    rw [hm]
    exact h.driving.live i (.inl hd)
  cases hm
  exact .inl rfl

theorem Good.idle {d : Driver} (hd : d = .idle ∨ d = .stopped)
    (hdriver : w'.driver = d) (hrun : w'.running = none) (h1 : w'.channels = w.channels)
    (h2 : w'.nextChannel = w.nextChannel) (h3 : w'.connections = w.connections)
    (h4 : w'.nextConnection = w.nextConnection) (h5 : w'.queue = w.queue) : w'.Good := by
  have hnot : ∀ i, ¬w'.driver.Holds i := by
    intro i hi
    rw [hdriver] at hi
    rcases hd with hd | hd <;> rw [hd] at hi <;> rcases hi with hi | hi | hi <;> cases hi
  refine ⟨h.core.congr h1 h2 h3 h4 h5, ⟨fun i hi => absurd hi (hnot i), fun i hi => ?_,
    fun i hi => ?_⟩⟩
  · exact absurd (Driver.Holds.of_live hi) (hnot i)
  rw [hrun] at hi
  cases hi

theorem Good.running_none
    (hd : ∀ i, w.driver ≠ .serving i ∧ w.driver ≠ .responded i) : w.running = none := by
  rcases hr : w.running with _ | i
  · rfl
  rcases h.driving.running i hr with hs | hs
  · exact absurd hs (hd i).1
  · exact absurd hs (hd i).2

theorem Good.refusesLast (hi : i ∈ w.queue) : Leaves (w.channels i)
    (({ (w.channels i).leave with keepAlive := false } : Channel).putError j
      (refusal 503 "the runtime is stopping")) := by
  have hleave := (h.core.ok i).leave
  have hoff := hleave.ok.keepAliveOff.1
  have hputs : ({ (w.channels i).leave with keepAlive := false } : Channel).Puts _ :=
    Channel.putError_puts (j := j) (refusal 503 "the runtime is stopping") []
  exact ⟨(hleave.trans hoff).trans (hoff.ok.putError (h.core.inside i hi).2.1 _ []).1,
    hputs.queued, hputs.entered, hputs.left, hputs.interims⟩

theorem Good.refuseQueue (hd : w.driver = .idle) : (w.refuseQueue j).Good := by
  have href : ({ w.refuseQueue j with driver := w.driver } : World).Good :=
    h.refuseAll (f := fun ch => ({ ch.leave with keepAlive := false } : Channel).putError j
      (refusal 503 "the runtime is stopping"))
      (fun _ hi => h.refusesLast hi) rfl rfl rfl rfl rfl rfl rfl
  refine href.idle (.inr rfl) rfl (h.running_none fun k => ?_) rfl rfl rfl rfl rfl
  rw [hd]
  exact ⟨nofun, nofun⟩

end

theorem Good.start : ({} : World).Good where
  core :=
    { ok := fun _ => fresh_ok
      nodup := List.nodup_nil
      queued := fun i => by simp
      inside := fun i hi => nomatch hi
      outside := fun i _ => ⟨rfl, Nat.zero_le 1⟩
      alive := fun c hc => nomatch hc
      channelOf := fun c i hi => nomatch hi
      home := fun i hi => absurd hi (Nat.not_lt_zero i)
      settled := fun i hi => absurd hi (Nat.not_lt_zero i)
      followed := fun i k _ hk => absurd hk (Nat.not_lt_zero k) }
  driving := by
    refine ⟨fun i hi => ?_, fun i hi => ?_, fun i hi => nomatch hi⟩
    · rcases hi with hi | hi | hi <;> cases hi
    · rcases hi with hi | hi <;> cases hi

theorem Good.step (h : w.Good) {label : Label} (hstep : w.step j options label = some w') :
    w'.Good := by
  cases label with
  | accept =>
    cases hstep
    exact h.accept
  | readHead c | readBody c http10 expectContinue =>
    obtain ⟨hc, hstep⟩ := Option.ite_none_right_eq_some.mp hstep
    simp only [Bool.and_eq_true, Bool.not_eq_true', decide_eq_true_eq] at hc
    cases hstep
    refine h.setConnection rfl rfl ?_ ?_ fun hi => hi <;> rw [hc.2] <;> exact nofun
  | refuse c error extra =>
    obtain ⟨hc, hstep⟩ := Option.ite_none_right_eq_some.mp hstep
    simp only [Bool.and_eq_true, Bool.not_eq_true', Bool.or_eq_true, decide_eq_true_eq] at hc
    cases hstep
    exact h.refuse hc.1 hc.2 error extra
  | request c keepAlive pipelined outcome =>
    obtain ⟨hc, hstep⟩ := Option.ite_none_right_eq_some.mp hstep
    simp only [Bool.and_eq_true, Bool.not_eq_true', decide_eq_true_eq] at hc
    cases hstep
    exact h.onRequest hc.1 hc.2 keepAlive pipelined outcome
  | flush c =>
    obtain ⟨hc, hstep⟩ := Option.ite_none_right_eq_some.mp hstep
    simp only [Bool.and_eq_true, Bool.not_eq_true'] at hc
    cases hstep
    exact h.flush hc.1
  | sent =>
    obtain ⟨-, hstep⟩ := Option.ite_none_right_eq_some.mp hstep
    cases hstep
    exact h.setConnection rfl rfl (fun hb => hb) (fun hl => hl) fun hi => hi
  | drop c =>
    cases hstep
    exact h.drop c
  | pipelined c =>
    obtain ⟨-, hstep⟩ := Option.ite_none_right_eq_some.mp hstep
    cases hstep
    exact h.pipelined c
  | inputClosed c =>
    obtain ⟨-, hstep⟩ := Option.ite_none_right_eq_some.mp hstep
    cases hstep
    exact h.inputClosed c
  | keepalive c =>
    obtain ⟨-, hstep⟩ := Option.ite_none_right_eq_some.mp hstep
    cases hstep
    exact h.keepalive c
  | watchBackend message =>
    cases hstep
    exact h.watchBackend message
  | expire waited =>
    cases hstep
    exact h.expire waited
  | drain =>
    cases hstep
    exact h.drain
  | take =>
    simp only [World.step] at hstep
    split at hstep
    · next hd hq =>
      split at hstep
      · cases hstep
      cases hstep
      exact h.take hq hd
    · cases hstep
  | serve =>
    simp only [World.step] at hstep
    split at hstep
    · next i hd =>
      split at hstep
      · cases hstep
        refine h.idle (.inl rfl) rfl (h.running_none fun k => ?_) rfl rfl rfl rfl rfl
        rw [hd]
        exact ⟨nofun, nofun⟩
      cases hstep
      exact h.serve hd
    · cases hstep
  | admitted => exact h.onServing (fun i hl => hl.admitted) hstep
  | emit reasoning content =>
    refine h.onServing (fun i hl => ?_) hstep
    obtain ⟨h1, h2, h3, -, -⟩ := hl.emit (j := j) options reasoning content
    exact ⟨h1, h2, h3⟩
  | finish ending =>
    simp only [World.step] at hstep
    split at hstep
    · next i hd =>
      cases hstep
      exact h.finish hd ending
    · cases hstep
  | returned =>
    simp only [World.step] at hstep
    split at hstep
    · cases hstep
      exact h.idle (.inl rfl) rfl rfl rfl rfl rfl rfl rfl
    · cases hstep
  | beat | stop =>
    cases hstep
    exact ⟨h.core.congr rfl rfl rfl rfl rfl, h.driving.same rfl rfl rfl rfl fun _ => ⟨rfl, rfl⟩⟩
  | refuseQueue =>
    simp only [World.step] at hstep
    split at hstep
    · next hd =>
      cases hstep
      exact h.refuseQueue hd
    · cases hstep

end World
end JitLlm.Runtime.Api
