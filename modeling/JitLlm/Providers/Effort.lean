import JitLlm.Providers.Spans
import Mathlib.Algebra.BigOperators.Group.Finset.Basic
import Mathlib.Algebra.Order.BigOperators.Group.Finset

/-!
# How many requests a read needs

A request that ends moves something that cannot move for ever: the bytes its first piece has, a
read's retries, or a read that stops. What is left to move is a read's weight. A read behind the
first piece of a request may gain nothing by it, so what a read may cost is its own weight and
that of the reads that arrived before it: pieces go in the order their reads arrived.

The weight of a read that stops is its pieces in flight; of another, for each piece, the steps it
lacks and whether it may still go with others.
-/

namespace JitLlm.Providers.DirectReader

open Base Lib List Option
open Scheduler (IoKind ReadSpec)

/-! ## Weights -/

def inSpan (d : DirectReader) (p : Piece) : Bool :=
  p.inFlight && (d.requests.find? p.token).any fun req => decide (1 < req.members.length)

def stepsLeft (c : ReaderSettings) (p : Piece) : Nat := (p.length - p.done) / c.alignment

def pieceWeight (c : ReaderSettings) (d : DirectReader) (h : Reading) : Option Piece → Nat
  | none => 0
  | some p =>
    if h.stopping then p.inFlight.toNat
    else 1 + stepsLeft c p + if h.alone then (inSpan d p).toNat else 1

def headWeight (c : ReaderSettings) (h : Reading) : Nat :=
  if h.stopping then 0 else 1 + (c.retries - h.retries)

def weight (c : ReaderSettings) (d : DirectReader) (key : Nat) (h : Reading) : Nat :=
  headWeight c h + ∑ i ∈ Finset.range h.spec.length, pieceWeight c d h (d.pieceAt ⟨key, i⟩)

def worth (c : ReaderSettings) (spec : ReadSpec) : Nat :=
  1 + c.retries + spec.length / c.alignment +
    2 * ((spec.length + (c.requestBytes - 1)) / c.requestBytes)

def tokens (d : DirectReader) (key n : Nat) : Finset Nat :=
  (Finset.range n).biUnion fun i => match d.pieceAt ⟨key, i⟩ with
    | some p => if p.inFlight then {p.token} else ∅
    | none => ∅

def Event.submission : Event → Bool
  | .submitted _ _ => true
  | _ => false

def Event.submits (arrival : Nat) : Event → Bool
  | .submitted _ parts => parts.any (·.arrival = arrival)
  | _ => false

structure Turn (h h' : Reading) : Prop where
  spec : h'.spec = h.spec
  arrival : h'.arrival = h.arrival
  stopping : h.stopping = true → h'.stopping = true
  alone : h.alone = true → h'.alone = true
  retries : h.retries ≤ h'.retries

section Weights

variable {c : ReaderSettings} {d d' : DirectReader} {h h' : Reading} {key n t : Nat} {p p' : Piece}

theorem Turn.refl (h : Reading) : Turn h h := ⟨rfl, rfl, id, id, Nat.le_refl _⟩

theorem Turn.trans {h1 h2 h3 : Reading} (h : Turn h1 h2) (h' : Turn h2 h3) : Turn h1 h3 :=
  ⟨h'.spec.trans h.spec, h'.arrival.trans h.arrival, fun hs => h'.stopping (h.stopping hs),
    fun ha => h'.alone (h.alone ha), Nat.le_trans h.retries h'.retries⟩

theorem mem_tokens : t ∈ tokens d key n ↔
    ∃ i < n, ∃ p, d.pieceAt ⟨key, i⟩ = some p ∧ p.inFlight = true ∧ p.token = t := by
  unfold tokens
  rw [Finset.mem_biUnion]
  refine exists_congr fun i => and_congr Finset.mem_range ?_
  rcases d.pieceAt ⟨key, i⟩ with _ | p
  · simp
  cases hflight : p.inFlight with
  | false => simp [hflight]
  | true => simp only [hflight, if_true, Finset.mem_singleton, some.injEq,
      exists_eq_left', true_and, eq_comm]

theorem tokens_card_le : (tokens d key h.spec.length).card ≤ weight c d key h := by
  refine Nat.le_trans Finset.card_biUnion_le (Nat.le_trans (Finset.sum_le_sum fun i _ => ?_)
    (Nat.le_add_left _ _))
  rcases d.pieceAt ⟨key, i⟩ with _ | p
  · simp
  simp only [pieceWeight]
  cases hflight : p.inFlight with
  | false => simp
  | true =>
    simp only [if_true, Finset.card_singleton, Bool.toNat_true]
    split <;> omega

theorem headWeight_le (ht : Turn h h') : headWeight c h' ≤ headWeight c h := by
  unfold headWeight
  have hr := ht.retries
  cases hs : h.stopping with
  | true => simp [ht.stopping hs]
  | false =>
    split
    · exact Nat.zero_le _
    simp only [Bool.false_eq_true, if_false]
    omega

theorem pieceWeight_le (ht : Turn h h') (hlen : p'.length = p.length) (hdone : p.done ≤ p'.done)
    (hflight : p'.inFlight = true → p.inFlight = true)
    (hspan : inSpan d' p' = true → inSpan d p = true) :
    pieceWeight c d' h' (some p') ≤ pieceWeight c d h (some p) := by
  have hflight : p'.inFlight.toNat ≤ p.inFlight.toNat := by
    cases hf : p'.inFlight with
    | false => exact Nat.zero_le _
    | true => rw [hflight hf]
  have hspan : (inSpan d' p').toNat ≤ (inSpan d p).toNat := by
    cases hf : inSpan d' p' with
    | false => exact Nat.zero_le _
    | true => rw [hspan hf]
  have hleft : stepsLeft c p' ≤ stepsLeft c p := Nat.div_le_div_right (by omega)
  have hone : ∀ b : Bool, b.toNat ≤ 1 := Bool.toNat_le
  simp only [pieceWeight]
  cases hs : h.stopping with
  | true =>
    simp only [ht.stopping hs, if_true]
    exact hflight
  | false =>
    have hf' := hone p'.inFlight
    have hs' := hone (inSpan d' p')
    cases ha : h.alone with
    | true =>
      simp only [ht.alone ha, if_true, Bool.false_eq_true, if_false]
      split <;> omega
    | false =>
      simp only [Bool.false_eq_true, if_false]
      split
      · omega
      · split <;> omega

end Weights

/-! ## What lightens -/

/-- Nothing new starts: the reads that are left go on, and of their pieces only such as are not in
    flight get further. -/
structure Eases (c : ReaderSettings) (d d' : DirectReader) : Prop where
  heads : ∀ key h', d'.headAt key = some h' → ∃ h, d.headAt key = some h ∧ Turn h h'
  pieces : ∀ m p', d'.pieceAt m = some p' → ∃ p, d.pieceAt m = some p ∧ p'.length = p.length ∧
    p.done ≤ p'.done ∧
    (p'.inFlight = true → p.inFlight = true ∧ p'.done = p.done ∧ p'.token = p.token)
  steps : ∀ m p p' h', d.pieceAt m = some p → d'.pieceAt m = some p' →
    d'.headAt m.key = some h' → h'.stopping = false → c.alignment ∣ p.length →
    c.alignment ∣ p.done → c.alignment ∣ p'.done
  requests : ∀ t req', d'.requests.find? t = some req' →
    ∃ req, d.requests.find? t = some req ∧ req'.members = req.members
  arrivals : d'.nextArrival = d.nextArrival
  log : d'.log.filter Event.submission = d.log.filter Event.submission

structure Keeps (d d' : DirectReader) : Prop where
  heads : ∀ key h, d.headAt key = some h → ∃ h', d'.headAt key = some h'
  pieces : ∀ m p, d.pieceAt m = some p →
    ∃ p', d'.pieceAt m = some p' ∧ p'.inFlight = p.inFlight ∧ p'.token = p.token

section Eases

variable {c : ReaderSettings} {d d' d1 d2 d3 : DirectReader} {key : Nat} {r r' h h' : Reading}

theorem Eases.of_reads (hreads : d'.reads = d.reads) (hrequ : d'.requests = d.requests)
    (harr : d'.nextArrival = d.nextArrival)
    (hlog : d'.log.filter Event.submission = d.log.filter Event.submission) : Eases c d d' := by
  have hheads : ∀ key, d'.headAt key = d.headAt key := fun key => by unfold headAt; rw [hreads]
  have hpieces : ∀ m, d'.pieceAt m = d.pieceAt m := fun m => by unfold pieceAt; rw [hreads]
  refine ⟨fun key h' hh' => ⟨h', (hheads key).symm.trans hh', .refl h'⟩,
    fun m p' hp' => ⟨p', (hpieces m).symm.trans hp', rfl, Nat.le_refl _, fun hf => ⟨hf, rfl, rfl⟩⟩,
    fun m p p' h' hp hp' hh' hs _ hdvd => ?_,
    fun t req' hreq' => ⟨req', hrequ ▸ hreq', rfl⟩, harr, hlog⟩
  cases hp.symm.trans ((hpieces m).symm.trans hp')
  exact hdvd

theorem Eases.refl (d : DirectReader) : Eases c d d := .of_reads rfl rfl rfl rfl

theorem Eases.trans (h : Eases c d1 d2) (h' : Eases c d2 d3) : Eases c d1 d3 where
  heads := by
    intro key h3 hh3
    obtain ⟨h2, hh2, ht'⟩ := h'.heads key h3 hh3
    obtain ⟨h1, hh1, ht⟩ := h.heads key h2 hh2
    exact ⟨h1, hh1, ht.trans ht'⟩
  pieces := by
    intro m p3 hp3
    obtain ⟨p2, hp2, hlen', hdone', hf'⟩ := h'.pieces m p3 hp3
    obtain ⟨p1, hp1, hlen, hdone, hf⟩ := h.pieces m p2 hp2
    refine ⟨p1, hp1, hlen'.trans hlen, Nat.le_trans hdone hdone', fun hflight => ?_⟩
    obtain ⟨hflight2, hd', ht'⟩ := hf' hflight
    obtain ⟨hflight1, hd, ht⟩ := hf hflight2
    exact ⟨hflight1, hd'.trans hd, ht'.trans ht⟩
  steps := by
    intro m p1 p3 h3 hp1 hp3 hh3 hstop hlen hdvd
    obtain ⟨p2, hp2, -⟩ := h'.pieces m p3 hp3
    obtain ⟨p1', hp1', hlen2, -⟩ := h.pieces m p2 hp2
    cases hp1.symm.trans hp1'
    obtain ⟨h2, hh2, ht⟩ := h'.heads m.key h3 hh3
    have hstop2 : h2.stopping = false := by
      cases hs : h2.stopping with
      | false => rfl
      | true => exact (ht.stopping hs).symm.trans hstop
    exact h'.steps m p2 p3 h3 hp2 hp3 hh3 hstop (hlen2 ▸ hlen)
      (h.steps m p1 p2 h2 hp1 hp2 hh2 hstop2 hlen hdvd)
  requests := by
    intro t req3 hreq3
    obtain ⟨req2, hreq2, hm'⟩ := h'.requests t req3 hreq3
    obtain ⟨req1, hreq1, hm⟩ := h.requests t req2 hreq2
    exact ⟨req1, hreq1, hm'.trans hm⟩
  arrivals := h'.arrivals.trans h.arrivals
  log := h'.log.trans h.log

theorem Keeps.refl (d : DirectReader) : Keeps d d :=
  ⟨fun _ h hh => ⟨h, hh⟩, fun _ p hp => ⟨p, hp, rfl, rfl⟩⟩

theorem Keeps.trans (h : Keeps d1 d2) (h' : Keeps d2 d3) : Keeps d1 d3 := by
  constructor
  · intro key h1 hh1
    obtain ⟨h2, hh2⟩ := h.heads key h1 hh1
    exact h'.heads key h2 hh2
  intro m p hp
  obtain ⟨p2, hp2, hflight, htoken⟩ := h.pieces m p hp
  obtain ⟨p3, hp3, hflight', htoken'⟩ := h'.pieces m p2 hp2
  exact ⟨p3, hp3, hflight'.trans hflight, htoken'.trans htoken⟩

def Fills (c : ReaderSettings) (r r' : Reading) : Prop :=
  ∀ i : Nat, Option.Rel (fun p p' : Piece => p'.length = p.length ∧ p.done ≤ p'.done ∧
    p'.inFlight = p.inFlight ∧ p'.token = p.token ∧ (p.inFlight = true → p'.done = p.done) ∧
    (r'.stopping = false → c.alignment ∣ p.length → c.alignment ∣ p.done →
      c.alignment ∣ p'.done)) r.pieces[i]? r'.pieces[i]?

theorem Fills.same (hpieces : r'.pieces = r.pieces) : Fills c r r' := by
  intro i
  rw [hpieces]
  cases r.pieces[i]? with
  | none => exact .none
  | some => exact .some ⟨rfl, Nat.le_refl _, rfl, rfl, fun _ => rfl, fun _ _ hdvd => hdvd⟩

theorem Eases.put (hr : d.reads.find? key = some r) (ht : Turn r r') (hpieces : Fills c r r')
    (queue : OrdMap Nat Nat) :
    Eases c d { d.setRead key r' with queue } ∧ Keeps d { d.setRead key r' with queue } := by
  have hold : ∀ {m}, m.key = key → d.pieceAt m = r.pieces[m.piece]? := by
    rintro m rfl
    unfold pieceAt
    rw [hr]
    rfl
  have hheads : ∀ key', ({ d.setRead key r' with queue } : DirectReader).headAt key' =
      if key' = key then some r'.head else d.headAt key' := headAt_setRead
  have hat : ∀ m, ({ d.setRead key r' with queue } : DirectReader).pieceAt m =
      if m.key = key then r'.pieces[m.piece]? else d.pieceAt m := fun m => pieceAt_setRead
  refine ⟨⟨fun key' h' hh' => ?_, fun m p' hp' => ?_,
    fun m p p' h' hp hp' hh' hstop hlen hdvd => ?_, fun t req' hreq' => ⟨req', hreq', rfl⟩, rfl,
    rfl⟩, ⟨fun key' h0 hh0 => ?_, fun m p hp => ?_⟩⟩
  · rw [hheads] at hh'
    split at hh'
    next hkey =>
      cases hh'
      exact ⟨r.head, hkey ▸ headAt_of_find hr, ht.spec, ht.arrival, ht.stopping, ht.alone,
        ht.retries⟩
    · exact ⟨h', hh', .refl h'⟩
  · rw [hat] at hp'
    split at hp'
    next hkey =>
      have hrel := hpieces m.piece
      rw [hp'] at hrel
      rw [hold hkey]
      rcases hp : r.pieces[m.piece]? with _ | p
      · rw [hp] at hrel; cases hrel
      rw [hp] at hrel
      cases hrel with
      | some hrel =>
        obtain ⟨hlen, hdone, hflight, htoken, hsame, -⟩ := hrel
        exact ⟨p, rfl, hlen, hdone, fun hf =>
          ⟨hflight.symm.trans hf, hsame (hflight.symm.trans hf), htoken⟩⟩
    · exact ⟨p', hp', rfl, Nat.le_refl _, fun hf => ⟨hf, rfl, rfl⟩⟩
  · rw [hat] at hp'
    rw [hheads] at hh'
    split at hp'
    next hkey =>
      rw [if_pos hkey] at hh'
      cases hh'
      rw [hold hkey] at hp
      have hrel := hpieces m.piece
      rw [hp, hp'] at hrel
      cases hrel with
      | some hrel => exact hrel.2.2.2.2.2 hstop hlen hdvd
    cases hp.symm.trans hp'
    exact hdvd
  · rw [hheads]
    split
    · exact ⟨_, rfl⟩
    · exact ⟨h0, hh0⟩
  rw [hat]
  split
  next hkey =>
    have hrel := hpieces m.piece
    rw [hold hkey] at hp
    rw [hp] at hrel
    rcases hp' : r'.pieces[m.piece]? with _ | p'
    · rw [hp'] at hrel; cases hrel
    rw [hp'] at hrel
    cases hrel with
    | some hrel => exact ⟨p', rfl, hrel.2.2.1, hrel.2.2.2.1⟩
  · exact ⟨p, hp, rfl, rfl⟩

theorem Eases.inSpan (he : Eases c d d') {p p' : Piece}
    (hflight : p'.inFlight = true → p.inFlight = true ∧ p'.done = p.done ∧ p'.token = p.token)
    (hspan : d'.inSpan p' = true) : d.inSpan p = true := by
  unfold DirectReader.inSpan at hspan ⊢
  simp only [Bool.and_eq_true, Option.any_eq_true] at hspan ⊢
  obtain ⟨hf, req', hreq', hlen⟩ := hspan
  obtain ⟨hf0, -, htoken⟩ := hflight hf
  obtain ⟨req, hreq, hmem⟩ := he.requests _ req' hreq'
  exact ⟨hf0, req, htoken ▸ hreq, hmem ▸ hlen⟩

theorem Eases.piece_le (he : Eases c d d') (ht : Turn h h') (m : Member) :
    pieceWeight c d' h' (d'.pieceAt m) ≤ pieceWeight c d h (d.pieceAt m) := by
  rcases hp' : d'.pieceAt m with _ | p'
  · exact Nat.zero_le _
  obtain ⟨p, hp, hlen, hdone, hflight⟩ := he.pieces m p' hp'
  rw [hp]
  exact pieceWeight_le ht hlen hdone (fun hf => (hflight hf).1) (he.inSpan hflight)

theorem Eases.weight_le (he : Eases c d d') (ht : Turn h h') (key : Nat) :
    weight c d' key h' ≤ weight c d key h := by
  unfold weight
  rw [ht.spec]
  exact Nat.add_le_add (headWeight_le ht) (Finset.sum_le_sum fun i _ => he.piece_le ht ⟨key, i⟩)

end Eases

/-! ## What the end of a request does -/

def Forward (c : ReaderSettings) (d d' : DirectReader) (m : Member) : Prop :=
  ∃ p p', d.pieceAt m = some p ∧ d'.pieceAt m = some p' ∧ p.done + c.alignment ≤ p'.done

def Stops (d : DirectReader) (key : Nat) : Prop := ∃ h, d.headAt key = some h ∧ h.stopping = true

/-- What the end of a request means to a read in it: it is stopping; one of its retries is used;
    it starts alone from now on, which a request of several says; or the request's first piece got
    further or is of a read that is stopping. -/
inductive Headway (c : ReaderSettings) (d d' : DirectReader) (members : List Member) (key : Nat) :
    Prop
  | stops : Stops d' key → Headway c d d' members key
  | retried {h h' : Reading} : d.headAt key = some h → d'.headAt key = some h' →
      h.retries < c.retries → h.retries < h'.retries → Headway c d d' members key
  | apart {h' : Reading} : d'.headAt key = some h' → h'.alone = true → 1 < members.length →
      Headway c d d' members key
  | behind {m₀ : Member} {rest : List Member} : members = m₀ :: rest →
      Forward c d d' m₀ ∨ Stops d' m₀.key → Headway c d d' members key

section Settle

variable {c : ReaderSettings} {d d' d0 : DirectReader} {members : List Member} {key : Nat}
    {m : Member} {r : Reading}

theorem Stops.ease (h : Stops d key) (he : Eases c d d') (hk : Keeps d d') : Stops d' key := by
  obtain ⟨h0, hh0, hs⟩ := h
  obtain ⟨h', hh'⟩ := hk.heads key h0 hh0
  obtain ⟨h1, hh1, ht⟩ := he.heads key h' hh'
  cases hh0.symm.trans hh1
  exact ⟨h', hh', ht.stopping hs⟩

theorem Forward.ease (h : Forward c d0 d m) (he : Eases c d d') (hk : Keeps d d') :
    Forward c d0 d' m := by
  obtain ⟨p0, p, hp0, hp, hle⟩ := h
  obtain ⟨p', hp', -⟩ := hk.pieces m p hp
  obtain ⟨p1, hp1, -, hdone, -⟩ := he.pieces m p' hp'
  cases hp.symm.trans hp1
  exact ⟨p0, p', hp0, hp', Nat.le_trans hle hdone⟩

theorem Headway.ease (h : Headway c d0 d members key) (he : Eases c d d') (hk : Keeps d d') :
    Headway c d0 d' members key := by
  cases h with
  | stops h => exact .stops (h.ease he hk)
  | retried hh0 hh hlt hmore =>
    obtain ⟨h', hh'⟩ := hk.heads key _ hh
    obtain ⟨h1, hh1, ht⟩ := he.heads key h' hh'
    cases hh.symm.trans hh1
    exact .retried hh0 hh' hlt (Nat.lt_of_lt_of_le hmore ht.retries)
  | apart hh halone hlen =>
    obtain ⟨h', hh'⟩ := hk.heads key _ hh
    obtain ⟨h1, hh1, ht⟩ := he.heads key h' hh'
    cases hh.symm.trans hh1
    exact .apart hh' (ht.alone halone) hlen
  | behind hmem h =>
    exact .behind hmem (h.imp (fun hf => hf.ease he hk) fun hs => hs.ease he hk)

theorem Eases.enqueue {r' : Reading} (hr : d.reads.find? key = some r) (ht : Turn r r')
    (hpieces : Fills c r r') : Eases c d (d.enqueue key r') ∧ Keeps d (d.enqueue key r') := by
  rcases enqueue_eq d key r' with heq | ⟨-, heq⟩
  · rw [heq]
    exact Eases.put hr ht hpieces d.queue
  rw [heq]
  have hturn : Turn r { r' with queued := true } :=
    ⟨ht.spec, ht.arrival, ht.stopping, ht.alone, ht.retries⟩
  exact Eases.put hr hturn hpieces _

theorem headAt_enqueue (d : DirectReader) (key : Nat) (r : Reading) :
    ∃ queued, (d.enqueue key r).headAt key = some { r.head with queued } := by
  rcases enqueue_eq d key r with heq | ⟨-, heq⟩
  · rw [heq, headAt_setRead, if_pos rfl]
    exact ⟨r.queued, rfl⟩
  rw [heq]
  exact ⟨true, (headAt_setRead (d := d) key).trans (if_pos rfl)⟩

theorem stop_turn (r : Reading) (outcome : ReadOutcome) (error : Int) :
    Turn r (r.stop outcome error) ∧ (r.stop outcome error).stopping = true ∧
      (r.stop outcome error).pieces = r.pieces := by
  unfold Reading.stop
  split
  · exact ⟨.refl r, ‹_›, rfl⟩
  · exact ⟨⟨rfl, rfl, fun _ => rfl, id, Nat.le_refl _⟩, rfl, rfl⟩

theorem eachRead_headway {f : DirectReader → Nat → Checked DirectReader}
    (hreads : ∀ m ∈ members, ∃ h, d0.headAt m.key = some h)
    (hf : ∀ d key r, Eases c d0 d → d.reads.find? key = some r →
      Safe (fun d' => Eases c d d' ∧ Keeps d d' ∧ Headway c d0 d' members key) (f d key)) :
    Safe (fun d' => Eases c d0 d' ∧ Keeps d0 d' ∧
      ∀ key ∈ eachRead none members, Headway c d0 d' members key)
      ((eachRead none members).foldlM f d0) := by
  refine Sat.imp (Sat.foldlM (I := fun rest d => (∀ key ∈ rest, key ∈ eachRead none members) ∧
    Eases c d0 d ∧ Keeps d0 d ∧
    ∀ key ∈ eachRead none members, key ∈ rest ∨ Headway c d0 d members key) ?_
    ⟨fun key hkey => hkey, .refl d0, .refl d0, fun key hkey => .inl hkey⟩) ?_
  · rintro d key rest ⟨hrest, he, hk, hdone⟩
    obtain ⟨m, hm, rfl⟩ := mem_eachRead (hrest key mem_cons_self)
    obtain ⟨h0, hh0⟩ := hreads m hm
    obtain ⟨h, hh⟩ := hk.heads m.key h0 hh0
    obtain ⟨r, hr, -⟩ := headAt_eq_some.mp hh
    refine (hf d m.key r he hr).imp fun d' hd' => ?_
    obtain ⟨he', hk', hway⟩ := hd'
    refine ⟨fun key hkey => hrest key (mem_cons_of_mem _ hkey), he.trans he', hk.trans hk',
      fun key hkey => ?_⟩
    rcases hdone key hkey with hin | hway'
    · rcases mem_cons.mp hin with rfl | hin
      · exact .inr hway
      · exact .inl hin
    · exact .inr (hway'.ease he' hk')
  rintro d' ⟨-, he, hk, hdone⟩
  exact ⟨he, hk, fun key hkey => (hdone key hkey).resolve_left not_mem_nil⟩

theorem mem_eachRead_of_mem : ∀ {members : List Member} {last : Option Nat},
    m ∈ members → m.key ∈ eachRead last members ∨ last = some m.key
  | m' :: rest, last, h => by
    unfold eachRead
    split
    next hlast =>
      rcases mem_cons.mp h with rfl | h
      · exact .inr hlast
      · exact mem_eachRead_of_mem h
    rcases mem_cons.mp h with rfl | h
    · exact .inl mem_cons_self
    have hrest : m.key ∈ eachRead (some m'.key) rest ∨ some m'.key = some m.key :=
      mem_eachRead_of_mem h
    rcases hrest with hmem | heq
    · exact .inl (mem_cons_of_mem _ hmem)
    rw [← some.inj heq]
    exact .inl mem_cons_self

theorem settleError_headway (hreads : ∀ m ∈ members, ∃ h, d0.headAt m.key = some h)
    (hne : members ≠ []) (error : Int) :
    Safe (fun d' => Eases c d0 d' ∧ Keeps d0 d' ∧ ∀ m ∈ members, Headway c d0 d' members m.key)
      (d0.settleError c members error) := by
  have hall : ∀ {f : DirectReader → Nat → Checked DirectReader},
      (∀ d key r, Eases c d0 d → d.reads.find? key = some r →
        Safe (fun d' => Eases c d d' ∧ Keeps d d' ∧ Headway c d0 d' members key) (f d key)) →
      Safe (fun d' => Eases c d0 d' ∧ Keeps d0 d' ∧ ∀ m ∈ members, Headway c d0 d' members m.key)
        ((eachRead none members).foldlM f d0) := by
    intro f hf
    refine (eachRead_headway hreads hf).imp fun d' hd' => ⟨hd'.1, hd'.2.1, fun m hm => ?_⟩
    exact hd'.2.2 m.key ((mem_eachRead_of_mem hm).resolve_right (by simp))
  have hstop : ∀ {d : DirectReader} {key r} outcome error, d.reads.find? key = some r →
      Eases c d (d.setRead key (r.stop outcome error)) ∧
        Keeps d (d.setRead key (r.stop outcome error)) ∧
        Stops (d.setRead key (r.stop outcome error)) key := by
    intro d key r outcome error hr
    obtain ⟨hturn, hstops, hpieces⟩ := stop_turn r outcome error
    obtain ⟨he, hk⟩ := Eases.put (c := c) hr hturn (.same hpieces) d.queue
    exact ⟨he, hk, _, (headAt_setRead key).trans (if_pos rfl), hstops⟩
  unfold settleError
  split
  · refine hall fun d key r _ hr => ?_
    refine readAt_bind hr ?_
    obtain ⟨he, hk, hs⟩ := hstop .cancelled 0 hr
    exact ⟨he, hk, .stops hs⟩
  split
  · refine hall fun d key r he0 hr => ?_
    refine readAt_bind hr ?_
    split
    next hlt =>
      have hturn : Turn r { r with retries := r.retries + 1 } := ⟨rfl, rfl, id, id, Nat.le_succ _⟩
      obtain ⟨he, hk⟩ := Eases.enqueue (c := c) hr hturn (.same rfl)
      obtain ⟨queued, hh⟩ := headAt_enqueue d key { r with retries := r.retries + 1 }
      obtain ⟨h0, hh0, ht⟩ := he0.heads key r.head (headAt_of_find hr)
      have hle : h0.retries ≤ r.retries := ht.retries
      exact ⟨he, hk, .retried hh0 hh (Nat.lt_of_le_of_lt hle hlt) (Nat.lt_succ_of_le hle)⟩
    obtain ⟨he, hk, hs⟩ := hstop .failed error hr
    exact ⟨he, hk, .stops hs⟩
  split
  next m =>
    obtain ⟨h, hh⟩ := hreads m (mem_singleton_self m)
    obtain ⟨r, hr, -⟩ := headAt_eq_some.mp hh
    refine readAt_bind hr ?_
    obtain ⟨he, hk, hs⟩ := hstop .failed error hr
    refine ⟨he, hk, fun m' hm' => .stops ?_⟩
    rw [mem_singleton.mp hm']
    exact hs
  rename_i hmany
  have hlen : 1 < members.length := by
    rcases members with _ | ⟨m, _ | ⟨m', rest⟩⟩
    · exact absurd rfl hne
    · exact absurd rfl (hmany m)
    · simp
  refine hall fun d key r _ hr => ?_
  refine readAt_bind hr ?_
  have hturn : Turn r { r with alone := true } := ⟨rfl, rfl, id, fun _ => rfl, Nat.le_refl _⟩
  obtain ⟨he, hk⟩ := Eases.enqueue (c := c) hr hturn (.same rfl)
  obtain ⟨queued, hh⟩ := headAt_enqueue d key { r with alone := true }
  exact ⟨he, hk, .apart hh rfl hlen⟩

theorem filled_fills {i : Nat} {p : Piece} {r r' : Reading} {n : Nat} (hp : r.pieces[i]? = some p)
    (hidle : p.inFlight = false) (hpieces : r'.pieces =
      r.pieces.set i { p with done := p.done + min n (p.length - p.done) })
    (hsteps : r'.stopping = false → c.alignment ∣ p.length → c.alignment ∣ p.done →
      c.alignment ∣ p.done + min n (p.length - p.done)) : Fills c r r' := by
  intro j
  rw [hpieces, getElem?_set]
  split
  next hij =>
    subst hij
    rw [if_pos (List.getElem?_eq_some_iff.mp hp).1, hp]
    exact .some ⟨rfl, Nat.le_add_right _ _, rfl, rfl,
      fun hf => absurd (hf.symm.trans hidle) (by simp), hsteps⟩
  cases r.pieces[j]? with
  | none => exact .none
  | some => exact .some ⟨rfl, Nat.le_refl _, rfl, rfl, fun _ => rfl, fun _ _ hdvd => hdvd⟩

theorem le_of_dvd_add {a x n : Nat} (hx : a ∣ x) (hsum : a ∣ x + n) (hpos : 0 < n) : a ≤ n :=
  Nat.le_of_dvd hpos ((Nat.dvd_add_right hx).mp hsum)

theorem fillPiece_eases {p : Piece} (hp : d.pieceAt m = some p)
    (hidle : p.inFlight = false) (result remaining : Nat) (reached : Bool) :
    Safe (fun y => Eases c d y.1 ∧ Keeps d y.1 ∧
      (reached = true → remaining = result → p.done < p.length → c.alignment ∣ p.length →
        (∀ h, d.headAt m.key = some h → h.stopping = false → c.alignment ∣ p.done) →
        Forward c d y.1 m ∨ Stops y.1 m.key))
      (fillPiece c result (d, remaining, reached) m) := by
  obtain ⟨r, hr, hpiece⟩ := pieceAt_eq_some.mp hp
  unfold fillPiece
  simp only
  refine readAt_bind hr ?_
  split
  next hnot =>
    obtain ⟨he, hk⟩ := Eases.enqueue (c := c) hr (.refl r) (.same rfl)
    exact ⟨he, hk, fun hreac => absurd hreac (by simpa using hnot)⟩
  refine require_bind hpiece ?_
  have hturn : Turn r { r with pieces := r.pieces.set m.piece { p with
      done := p.done + min remaining (p.length - p.done) } } :=
    ⟨rfl, rfl, id, id, Nat.le_refl _⟩
  have hset : (r.pieces.set m.piece { p with
      done := p.done + min remaining (p.length - p.done) })[m.piece]? =
        some { p with done := p.done + min remaining (p.length - p.done) } := by
    rw [getElem?_set, if_pos rfl, if_pos (List.getElem?_eq_some_iff.mp hpiece).1]
  -- The read was stopping, or its piece was a whole number of steps far.
  have hstopp : ∀ {d' : DirectReader}, Eases c d d' → Keeps d d' → r.stopping = true →
      Stops d' m.key := fun he hk hs =>
    Stops.ease ⟨r.head, headAt_of_find hr, hs⟩ he hk
  split
  next hfull =>
    have hwhole : c.alignment ∣ p.length →
        c.alignment ∣ p.done + min remaining (p.length - p.done) := by
      intro hlen
      rw [show p.done + min remaining (p.length - p.done) = p.length from hfull]
      exact hlen
    obtain ⟨he, hk⟩ := Eases.put (c := c) hr hturn (filled_fills hpiece hidle rfl
      fun _ hlen _ => hwhole hlen) d.queue
    refine ⟨he, hk, fun _ _ hlt hlen hdvd => ?_⟩
    by_cases hs : r.stopping = true
    · exact .inr (hstopp he hk hs)
    refine .inl ⟨p, _, hp, (pieceAt_setRead (d := d)).trans ((if_pos rfl).trans hset), ?_⟩
    have hstep : c.alignment ≤ min remaining (p.length - p.done) := by
      refine le_of_dvd_add (hdvd r.head (headAt_of_find hr) (Bool.eq_false_iff.mpr hs))
        (hwhole hlen) ?_
      omega
    exact Nat.add_le_add_left hstep _
  split
  · -- The end of the file, or a count no request can go on from: the read stops.
    have hstop : ∀ outcome error, Safe (fun y : DirectReader × Nat × Bool => Eases c d y.1 ∧
        Keeps d y.1 ∧ (reached = true → remaining = result → p.done < p.length →
          c.alignment ∣ p.length →
          (∀ h, d.headAt m.key = some h → h.stopping = false → c.alignment ∣ p.done) →
          Forward c d y.1 m ∨ Stops y.1 m.key))
        (pure (d.setRead m.key (({ r with pieces := r.pieces.set m.piece { p with
          done := p.done + min remaining (p.length - p.done) } } : Reading).stop outcome error),
            remaining - min remaining (p.length - p.done), false)) := by
      intro outcome error
      obtain ⟨hturn', hstops, hpieces⟩ := stop_turn { r with pieces := r.pieces.set m.piece { p with
        done := p.done + min remaining (p.length - p.done) } } outcome error
      obtain ⟨he, hk⟩ := Eases.put (c := c) hr (hturn.trans hturn') (filled_fills hpiece hidle
        hpieces fun hs => nomatch hs.symm.trans hstops) d.queue
      exact ⟨he, hk, fun _ _ _ _ _ =>
        .inr ⟨_, (headAt_setRead m.key).trans (if_pos rfl), hstops⟩⟩
    by_cases hkind : r.spec.kind = .write
    · simp only [hkind, if_true]
      exact hstop _ _
    simp only [if_neg hkind]
    exact hstop _ _
  next hnot =>
    rw [not_or] at hnot
    have hwhole : c.alignment ∣ p.done + min remaining (p.length - p.done) :=
      Nat.dvd_of_mod_eq_zero (by simpa using hnot.2)
    obtain ⟨he, hk⟩ := Eases.enqueue (c := c) hr hturn (filled_fills hpiece hidle rfl
      fun _ _ _ => hwhole)
    refine ⟨he, hk, fun _ heq hlt _ hdvd => ?_⟩
    by_cases hs : r.stopping = true
    · exact .inr (hstopp he hk hs)
    have hstep : c.alignment ≤ min remaining (p.length - p.done) :=
      le_of_dvd_add (hdvd r.head (headAt_of_find hr) (Bool.eq_false_iff.mpr hs)) hwhole
        (Nat.lt_min.mpr ⟨by omega, by omega⟩)
    refine .inl ⟨p, { p with done := p.done + min remaining (p.length - p.done) }, hp, ?_,
      Nat.add_le_add_left hstep _⟩
    rcases enqueue_eq d m.key _ with heq | ⟨-, heq⟩
    · rw [heq]
      exact (pieceAt_setRead (d := d)).trans ((if_pos rfl).trans hset)
    rw [heq]
    exact (pieceAt_setRead (d := d)).trans ((if_pos rfl).trans hset)

structure Landed (c : ReaderSettings) (members : List Member) (d : DirectReader) : Prop where
  nonempty : members ≠ []
  pieces : ∀ m ∈ members, ∃ p, d.pieceAt m = some p ∧ p.inFlight = false ∧ p.done < p.length ∧
    c.alignment ∣ p.length ∧
    ∀ h, d.headAt m.key = some h → h.stopping = false → c.alignment ∣ p.done

theorem settle_headway (hl : Landed c members d0) (result : Int) :
    Safe (fun d' => Eases c d0 d' ∧ Keeps d0 d' ∧ ∀ m ∈ members, Headway c d0 d' members m.key)
      (d0.settle c members result) := by
  unfold settle
  split
  · refine settleError_headway (fun m hm => ?_) hl.nonempty _
    obtain ⟨p, hp, -⟩ := hl.pieces m hm
    obtain ⟨r, hr, -⟩ := pieceAt_eq_some.mp hp
    exact ⟨r.head, headAt_of_find hr⟩
  rcases hmem : members with _ | ⟨m0, rest⟩
  · exact absurd hmem hl.nonempty
  have hin : ∀ m ∈ m0 :: rest, m ∈ members := fun m hm => hmem ▸ hm
  obtain ⟨p0, hp0, hidle0, hlt, hlen, hdvd⟩ := hl.pieces m0 (hin m0 mem_cons_self)
  have hloop : Safe (fun y : DirectReader × Nat × Bool => Eases c d0 y.1 ∧ Keeps d0 y.1 ∧
      (Forward c d0 y.1 m0 ∨ Stops y.1 m0.key))
      ((m0 :: rest).foldlM (fillPiece c result.toNat) (d0, result.toNat, true)) := by
    refine Sat.bind (fillPiece_eases hp0 hidle0 result.toNat result.toNat true) fun y hy => ?_
    obtain ⟨he, hk, hfirst⟩ := hy
    refine Sat.imp (Sat.foldlM (I := fun ms (y : DirectReader × Nat × Bool) =>
      (∀ m ∈ ms, m ∈ members) ∧ Eases c d0 y.1 ∧ Keeps d0 y.1 ∧
        (Forward c d0 y.1 m0 ∨ Stops y.1 m0.key)) ?_
      ⟨fun m hm => hin m (mem_cons_of_mem _ hm), he, hk, hfirst rfl rfl hlt hlen hdvd⟩)
      fun y hy => hy.2
    rintro ⟨d, remaining, reached⟩ m ms ⟨hms, he, hk, hfirst⟩
    obtain ⟨p, hp, hidle, -⟩ := hl.pieces m (hms m mem_cons_self)
    obtain ⟨p', hp', hflight, -⟩ := hk.pieces m p hp
    refine (fillPiece_eases hp' (hflight.trans hidle) result.toNat remaining reached).imp fun y hy => ?_
    exact ⟨fun m' hm' => hms m' (mem_cons_of_mem _ hm'), he.trans hy.1, hk.trans hy.2.1,
      hfirst.imp (fun hf => hf.ease hy.1 hy.2.1) fun hs => hs.ease hy.1 hy.2.1⟩
  exact Sat.bind hloop fun y hy => ⟨hy.1, hy.2.1, fun m _ => .behind rfl hy.2.2⟩

end Settle

/-! ## Sizes -/

/-- The reads' pieces are whole steps, those in flight lack some, and no read weighs more than as
    it arrived; no request was of a read yet to come. -/
structure Fit (c : ReaderSettings) (d : DirectReader) : Prop where
  inside : ∀ m p, d.pieceAt m = some p → ∃ h, d.headAt m.key = some h ∧ m.piece < h.spec.length
  whole : ∀ m p, d.pieceAt m = some p → c.alignment ∣ p.length
  steps : ∀ m p h, d.pieceAt m = some p → d.headAt m.key = some h → h.stopping = false →
    c.alignment ∣ p.done
  lacks : ∀ m p, d.pieceAt m = some p → p.inFlight = true → p.done < p.length
  light : ∀ key h, d.headAt key = some h → weight c d key h ≤ worth c h.spec
  past : ∀ t parts, .submitted t parts ∈ d.log.filter Event.submission →
    ∀ p ∈ parts, p.arrival < d.nextArrival

section Harvest

variable {c : ReaderSettings} {d d' : DirectReader} {t : Nat} {req : Request}

theorem Fit.ease (hf : Fit c d) (he : Eases c d d') : Fit c d' where
  inside := by
    intro m p' hp'
    obtain ⟨r, hr, -⟩ := pieceAt_eq_some.mp hp'
    obtain ⟨p, hp, -⟩ := he.pieces m p' hp'
    obtain ⟨h, hh, hlt⟩ := hf.inside m p hp
    obtain ⟨h0, hh0, ht⟩ := he.heads m.key r.head (headAt_of_find hr)
    cases hh.symm.trans hh0
    exact ⟨r.head, headAt_of_find hr, ht.spec ▸ hlt⟩
  whole := by
    intro m p' hp'
    obtain ⟨p, hp, hlen, -⟩ := he.pieces m p' hp'
    exact hlen ▸ hf.whole m p hp
  steps := by
    intro m p' h' hp' hh' hstop
    obtain ⟨p, hp, -⟩ := he.pieces m p' hp'
    obtain ⟨h, hh, ht⟩ := he.heads m.key h' hh'
    have hstop0 : h.stopping = false := by
      cases hs : h.stopping with
      | false => rfl
      | true => exact (ht.stopping hs).symm.trans hstop
    exact he.steps m p p' h' hp hp' hh' hstop (hf.whole m p hp) (hf.steps m p h hp hh hstop0)
  lacks := by
    intro m p' hp' hflight
    obtain ⟨p, hp, hlen, -, hsame⟩ := he.pieces m p' hp'
    obtain ⟨hflight0, hdone, -⟩ := hsame hflight
    rw [hdone, hlen]
    exact hf.lacks m p hp hflight0
  light := by
    intro key h' hh'
    obtain ⟨h, hh, ht⟩ := he.heads key h' hh'
    rw [ht.spec]
    exact Nat.le_trans (he.weight_le ht key) (hf.light key h hh)
  past := by
    rw [he.log, he.arrivals]
    exact hf.past

theorem Eases.lands (req : Request) (log : List Event)
    (hlog : log.filter Event.submission = d.log.filter Event.submission)
    (he : Edits (fun p => { p with inFlight := false }) req.members
      { d with requests := d.requests.erase t, log } d') : Eases c d d' := by
  have hheads : ∀ key, d'.headAt key = d.headAt key := he.heads
  have hpieces : ∀ m, d'.pieceAt m = (d.pieceAt m).map fun p =>
    if m ∈ req.members then { p with inFlight := false } else p := he.pieces
  refine ⟨fun key h' hh' => ⟨h', (hheads key).symm.trans hh', .refl h'⟩, fun m p' hp' => ?_,
    fun m p p' h' hp hp' _ _ _ hdvd => ?_, fun t' req' hreq' => ?_, ?_, ?_⟩
  · rw [hpieces] at hp'
    obtain ⟨p, hp, rfl⟩ := map_eq_some_iff.mp hp'
    refine ⟨p, hp, ?_⟩
    split
    · exact ⟨rfl, Nat.le_refl _, nofun⟩
    · exact ⟨rfl, Nat.le_refl _, fun hf => ⟨hf, rfl, rfl⟩⟩
  · rw [hpieces, hp] at hp'
    cases hp'
    split <;> exact hdvd
  · rw [he.rest] at hreq'
    simp only [OrdMap.find?_erase] at hreq'
    split at hreq'
    · cases hreq'
    · exact ⟨req', hreq', rfl⟩
  · rw [he.rest]
  rw [he.rest]
  exact hlog

/-- What `Poll`'s handling of a request that ended comes to. -/
structure Harvested (c : ReaderSettings) (t : Nat) (req : Request) (d d' : DirectReader) :
    Prop where
  eases : Eases c d d'
  heads : ∀ key h, d.headAt key = some h → ∃ h', d'.headAt key = some h'
  pieces : ∀ m p, d.pieceAt m = some p → ∃ p', d'.pieceAt m = some p'
  headway : ∀ m ∈ req.members, Headway c d d' req.members m.key
  landed : ∀ m ∈ req.members, ∀ p, d'.pieceAt m = some p → p.inFlight = false
  others : ∀ m p, d.pieceAt m = some p → p.inFlight = true → p.token ≠ t →
    ∃ p', d'.pieceAt m = some p' ∧ p'.inFlight = true ∧ p'.token = p.token

theorem harvest_headway (hs : Sound d) (hf : Fit c d) (hreq : d.requests.find? t = some req)
    (result : Int) : Safe (Harvested c t req d) (harvest c d (t, result)) := by
  unfold harvest
  split
  next hnone =>
    cases hreq.symm.trans hnone
  rename_i req' hreq'
  cases hreq.symm.trans hreq'
  refine Sat.bind (foldlM_edits (f := fun p => { p with inFlight := false }) markLanded
    (fun _ => rfl) markLanded_edits req.members fun m hm => ?_) fun d1 hedits => ?_
  · obtain ⟨p, hp, -⟩ := hs.members _ req hreq m hm
    exact isSome_iff_exists.mpr ⟨p, hp⟩
  have hheads : ∀ key, d1.headAt key = d.headAt key := hedits.heads
  have hpieces : ∀ m, d1.pieceAt m = (d.pieceAt m).map fun p =>
    if m ∈ req.members then { p with inFlight := false } else p := hedits.pieces
  have hland : ∀ m ∈ req.members, ∃ p, d.pieceAt m = some p ∧ p.inFlight = true ∧
      d1.pieceAt m = some { p with inFlight := false } := by
    intro m hm
    obtain ⟨p, hp, hflight, -⟩ := hs.members _ req hreq m hm
    exact ⟨p, hp, hflight, by rw [hpieces, hp, map_some, if_pos hm]⟩
  have he : Eases c d d1 :=
    Eases.lands req (.settled t (d.parts req.members) result :: d.log) rfl hedits
  have hlan : Landed c req.members d1 := by
    refine ⟨(hs.ordered t req hreq).1, fun m hm => ?_⟩
    obtain ⟨p, hp, hflight, hp1⟩ := hland m hm
    exact ⟨_, hp1, rfl, hf.lacks m p hp hflight, hf.whole m p hp, fun h hh hstop =>
      hf.steps m p h hp ((hheads m.key).symm.trans hh) hstop⟩
  -- What got further since the pieces landed did so since before.
  have hfor : ∀ {d'} m, m ∈ req.members → Forward c d1 d' m → Forward c d d' m := by
    rintro d' m hm ⟨p1, p', hp1, hp', hle⟩
    obtain ⟨p, hp, -, hp1'⟩ := hland m hm
    cases hp1.symm.trans hp1'
    exact ⟨p, p', hp, hp', hle⟩
  refine (settle_headway hlan result).imp fun d' hd' => ?_
  obtain ⟨he', hk', hway⟩ := hd'
  refine ⟨he.trans he', fun key h hh => hk'.heads key h ((hheads key).trans hh),
    fun m p hp => ?_, fun m hm => ?_, fun m hm p' hp' => ?_, fun m p hp hflight htoken => ?_⟩
  · obtain ⟨p', hp', -⟩ := hk'.pieces m _ ((hpieces m).trans (congrArg _ hp))
    exact ⟨p', hp'⟩
  · cases hway m hm with
    | stops h => exact .stops h
    | retried hh hh' hlt hmore => exact .retried ((hheads m.key).symm.trans hh) hh' hlt hmore
    | apart hh' halone hlen => exact .apart hh' halone hlen
    | behind hmem h =>
      exact .behind hmem (h.imp_left (hfor _ (hmem ▸ mem_cons_self)))
  · obtain ⟨p, hp, -, hp1⟩ := hland m hm
    obtain ⟨p2, hp2, hflight, -⟩ := hk'.pieces m _ hp1
    cases hp'.symm.trans hp2
    exact hflight
  have hnot : m ∉ req.members := by
    intro hm
    obtain ⟨p0, hp0, -, htoken0⟩ := hs.members t req hreq m hm
    cases hp.symm.trans hp0
    exact htoken htoken0
  have hp1 : d1.pieceAt m = some p := by rw [hpieces, hp, map_some, if_neg hnot]
  obtain ⟨p', hp', hflight', htoken'⟩ := hk'.pieces m p hp1
  exact ⟨p', hp', hflight'.trans hflight, htoken'⟩

theorem weight_lt {m : Member} {h h' : Reading} {p p' : Piece} (he : Eases c d d')
    (ht : Turn h h') (hp : d.pieceAt m = some p) (hp' : d'.pieceAt m = some p')
    (hin : m.piece < h.spec.length) (hflight : p.inFlight = true) (hlan : p'.inFlight = false)
    (hlen : p'.length = p.length) (hfits : p'.done ≤ p.length)
    (hway : h'.stopping = true ∨ (h.retries < c.retries ∧ h.retries < h'.retries) ∨
      (h'.alone = true ∧ d.inSpan p = true) ∨ p.done + c.alignment ≤ p'.done) :
    weight c d' m.key h' < weight c d m.key h := by
  have hsum : ∑ i ∈ Finset.range h.spec.length, pieceWeight c d' h' (d'.pieceAt ⟨m.key, i⟩) ≤
      ∑ i ∈ Finset.range h.spec.length, pieceWeight c d h (d.pieceAt ⟨m.key, i⟩) :=
    Finset.sum_le_sum fun i _ => he.piece_le ht ⟨m.key, i⟩
  have hhead : headWeight c h' ≤ headWeight c h := headWeight_le ht
  have hpiece : pieceWeight c d' h' (some p') < pieceWeight c d h (some p) →
      weight c d' m.key h' < weight c d m.key h := by
    intro hlt
    unfold weight
    rw [ht.spec]
    refine Nat.add_lt_add_of_le_of_lt hhead (Finset.sum_lt_sum
      (fun i _ => he.piece_le ht ⟨m.key, i⟩) ⟨m.piece, Finset.mem_range.mpr hin, ?_⟩)
    rw [hp, hp']
    exact hlt
  have hof_head : headWeight c h' < headWeight c h → weight c d' m.key h' < weight c d m.key h := by
    intro hlt
    unfold weight
    rw [ht.spec]
    exact Nat.add_lt_add_of_lt_of_le hlt hsum
  have hnos : d'.inSpan p' = false := by simp [inSpan, hlan]
  have hleft : stepsLeft c p' ≤ stepsLeft c p := by
    refine Nat.div_le_div_right ?_
    obtain ⟨p0, hp0, -, hdone, -⟩ := he.pieces m p' hp'
    cases hp.symm.trans hp0
    omega
  cases hs : h.stopping with
  | true =>
    refine hpiece ?_
    simp [pieceWeight, hs, ht.stopping hs, hlan, hflight]
  | false =>
    cases hs' : h'.stopping with
    | true =>
      refine hof_head ?_
      simp only [headWeight, hs, hs', if_true, Bool.false_eq_true, if_false]
      omega
    | false =>
      rcases hway with hstop | ⟨hlt, hmore⟩ | ⟨halone, hspan⟩ | hfor
      · cases hstop.symm.trans hs'
      · refine hof_head ?_
        simp only [headWeight, hs, hs', Bool.false_eq_true, if_false]
        omega
      · refine hpiece ?_
        simp only [pieceWeight, hs, hs', Bool.false_eq_true, if_false, halone, if_true, hnos,
          hspan, Bool.toNat_true, Bool.toNat_false]
        split <;> omega
      refine hpiece ?_
      have hstep : stepsLeft c p' < stepsLeft c p := by
        unfold stepsLeft
        rw [hlen]
        have hsub : p.length - p'.done + c.alignment ≤ p.length - p.done := by omega
        calc (p.length - p'.done) / c.alignment
            < (p.length - p'.done) / c.alignment + 1 := Nat.lt_succ_self _
          _ = (p.length - p'.done + c.alignment) / c.alignment :=
              (Nat.add_div_right _ c.alignment_pos).symm
          _ ≤ (p.length - p.done) / c.alignment := Nat.div_le_div_right hsub
      simp only [pieceWeight, hs, hs', Bool.false_eq_true, if_false, hnos, Bool.toNat_false]
      cases ha : h.alone with
      | true =>
        simp only [ht.alone ha, if_true]
        omega
      | false =>
        simp only [Bool.false_eq_true, if_false]
        split <;> omega

theorem Harvested.lighter {m : Member} {h : Reading} (hv : Harvested c t req d d') (hs : Sound d)
    (hs' : Sound d') (hf : Fit c d) (hreq : d.requests.find? t = some req)
    (hm : m ∈ req.members) (hh : d.headAt m.key = some h) :
    ∃ key h1 h1', d.headAt key = some h1 ∧ d'.headAt key = some h1' ∧ h1.arrival ≤ h.arrival ∧
      weight c d' key h1' < weight c d key h1 := by
  -- One read of the request, with what became of it.
  have hone : ∀ m ∈ req.members, ∀ h, d.headAt m.key = some h →
      (∀ h' p p', d'.headAt m.key = some h' → d.pieceAt m = some p → d'.pieceAt m = some p' →
        h'.stopping = true ∨ (h.retries < c.retries ∧ h.retries < h'.retries) ∨
          (h'.alone = true ∧ d.inSpan p = true) ∨ p.done + c.alignment ≤ p'.done) →
      ∃ h', d'.headAt m.key = some h' ∧ weight c d' m.key h' < weight c d m.key h := by
    intro m hm h hh hway
    obtain ⟨h', hh'⟩ := hv.heads m.key h hh
    obtain ⟨h0, hh0, ht⟩ := hv.eases.heads m.key h' hh'
    cases hh.symm.trans hh0
    obtain ⟨p, hp, hflight, -⟩ := hs.members t req hreq m hm
    obtain ⟨h2, hh2, hin⟩ := hf.inside m p hp
    cases hh.symm.trans hh2
    obtain ⟨p', hp'⟩ := hv.pieces m p hp
    obtain ⟨p0, hp0, hlen, -⟩ := hv.eases.pieces m p' hp'
    cases hp.symm.trans hp0
    exact ⟨h', hh', weight_lt hv.eases ht hp hp' hin hflight (hv.landed m hm p' hp') hlen
      (hlen ▸ hs'.filled m p' hp') (hway h' p p' hh' hp hp')⟩
  cases hv.headway m hm with
  | stops hstops =>
    obtain ⟨h1, hh1, hstop⟩ := hstops
    obtain ⟨h', hh', hlt⟩ := hone m hm h hh fun h' p p' hh' _ _ => by
      cases hh1.symm.trans hh'
      exact .inl hstop
    exact ⟨m.key, h, h', hh, hh', Nat.le_refl _, hlt⟩
  | retried hh0 hh1 hlt0 hmore =>
    cases hh.symm.trans hh0
    obtain ⟨h', hh', hlt⟩ := hone m hm h hh fun h' p p' hh' _ _ => by
      cases hh1.symm.trans hh'
      exact .inr (.inl ⟨hlt0, hmore⟩)
    exact ⟨m.key, h, h', hh, hh', Nat.le_refl _, hlt⟩
  | apart hh1 halone hlen =>
    obtain ⟨h', hh', hlt⟩ := hone m hm h hh fun h' p p' hh' hp _ => by
      cases hh1.symm.trans hh'
      obtain ⟨p0, hp0, hflight, htoken⟩ := hs.members t req hreq m hm
      cases hp.symm.trans hp0
      refine .inr (.inr (.inl ⟨halone, ?_⟩))
      simp [inSpan, hflight, htoken, hreq, hlen]
    exact ⟨m.key, h, h', hh, hh', Nat.le_refl _, hlt⟩
  | @behind m0 rest hmem hfirst =>
    have hm0 : m0 ∈ req.members := hmem ▸ mem_cons_self
    obtain ⟨p0, hp0, -⟩ := hs.members t req hreq m0 hm0
    obtain ⟨h0, hh0, -⟩ := hf.inside m0 p0 hp0
    have harr : h0.arrival ≤ h.arrival := by
      have hpair := (hs.ordered t req hreq).2
      rw [hmem] at hpair hm
      rcases mem_cons.mp hm with rfl | hm
      · cases hh.symm.trans hh0
        exact Nat.le_refl _
      · exact ((pairwise_cons.mp hpair).1 m hm).2 h0 h hh0 hh
    obtain ⟨h', hh', hlt⟩ := hone m0 hm0 h0 hh0 fun h' p p' hh' hp hp' => by
      rcases hfirst with ⟨p1, p1', hp1, hp1', hle⟩ | ⟨h1, hh1, hstop⟩
      · cases hp.symm.trans hp1
        cases hp'.symm.trans hp1'
        exact .inr (.inr (.inr hle))
      cases hh1.symm.trans hh'
      exact .inl hstop
    exact ⟨m0.key, h0, h', hh0, hh', harr, hlt⟩

end Harvest
end JitLlm.Providers.DirectReader
