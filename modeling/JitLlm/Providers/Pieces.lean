import JitLlm.Providers.DirectReader

/-!
# Reads, requests and the queue name one another

What holds of a reader between its calls: a request in flight carries pieces of reads that are
there, each marked with its token, and a piece marked is carried by that request; the queue holds
exactly the reads marked queued, each under its arrival; and no piece is filled past its length.
So no lookup of the reader fails.

A read is looked at in two parts: its head, all but the pieces (`headAt`), and its pieces one by
one (`pieceAt`). What each function does is said of these two.
-/

namespace JitLlm.Providers.DirectReader

open Base Lib Option
open Scheduler (IoKind ReadSpec)

/-! ## Views -/

def Reading.head (r : Reading) : Reading := { r with pieces := [] }

def headAt (d : DirectReader) (key : Nat) : Option Reading := (d.reads.find? key).map Reading.head

def pieceAt (d : DirectReader) (m : Member) : Option Piece :=
  (d.reads.find? m.key).bind fun r => r.pieces[m.piece]?

section Views

variable {d : DirectReader} {key : Nat} {r r' h : Reading} {m : Member} {p : Piece}

theorem headAt_eq_some : d.headAt key = some h ↔ ∃ r, d.reads.find? key = some r ∧ r.head = h :=
  map_eq_some_iff

theorem pieceAt_eq_some : d.pieceAt m = some p ↔
    ∃ r, d.reads.find? m.key = some r ∧ r.pieces[m.piece]? = some p :=
  bind_eq_some_iff

theorem headAt_of_find (hr : d.reads.find? key = some r) : d.headAt key = some r.head := by
  unfold headAt
  rw [hr]
  rfl

theorem headAt_setRead (key' : Nat) :
    (d.setRead key r').headAt key' = if key' = key then some r'.head else d.headAt key' := by
  unfold headAt setRead
  simp only [OrdMap.find?_insert]
  split <;> rfl

theorem pieceAt_setRead :
    (d.setRead key r').pieceAt m = if m.key = key then r'.pieces[m.piece]? else d.pieceAt m := by
  unfold pieceAt setRead
  simp only [OrdMap.find?_insert]
  split <;> rfl

end Views

/-! ## The invariant -/

def Before (d : DirectReader) (m m' : Member) : Prop :=
  m ≠ m' ∧ ∀ h h', d.headAt m.key = some h → d.headAt m'.key = some h' → h.arrival ≤ h'.arrival

theorem Before.congr {d d' : DirectReader} {m m' : Member} (hb : Before d m m')
    (hheads : ∀ key h', d'.headAt key = some h' →
      ∃ h, d.headAt key = some h ∧ h'.arrival = h.arrival) : Before d' m m' := by
  refine ⟨hb.1, fun h1 h2 hh1 hh2 => ?_⟩
  obtain ⟨h1', hh1', harr1⟩ := hheads _ h1 hh1
  obtain ⟨h2', hh2', harr2⟩ := hheads _ h2 hh2
  rw [harr1, harr2]
  exact hb.2 h1' h2' hh1' hh2'

structure Sound (d : DirectReader) : Prop where
  arrival : ∀ key h, d.headAt key = some h → h.arrival < d.nextArrival
  distinct : ∀ key key' h h', d.headAt key = some h → d.headAt key' = some h' →
    h.arrival = h'.arrival → key = key'
  queue : ∀ a key, d.queue.find? a = some key →
    ∃ h, d.headAt key = some h ∧ h.arrival = a ∧ h.queued = true
  queued : ∀ key h, d.headAt key = some h → h.queued = true →
    d.queue.find? h.arrival = some key
  token : ∀ t req, d.requests.find? t = some req → t < d.nextToken
  members : ∀ t req, d.requests.find? t = some req → ∀ m ∈ req.members,
    ∃ p, d.pieceAt m = some p ∧ p.inFlight = true ∧ p.token = t
  ordered : ∀ t req, d.requests.find? t = some req →
    req.members ≠ [] ∧ req.members.Pairwise (Before d)
  flight : ∀ m p, d.pieceAt m = some p → p.inFlight = true →
    ∃ req, d.requests.find? p.token = some req ∧ m ∈ req.members
  filled : ∀ m p, d.pieceAt m = some p → p.done ≤ p.length

abbrev Safe {α : Type} (P : α → Prop) : Checked α → Prop := Sat (fun _ => False) P

section

variable {α β : Type} {P : β → Prop}

theorem readAt_bind {d : DirectReader} {key : Nat} {r : Reading} {f : Reading → Checked β}
    (h : d.reads.find? key = some r) (hf : Safe P (f r)) : Safe P (d.readAt key >>= f) := by
  unfold readAt
  rw [h]
  exact hf

theorem require_bind {o : Option α} {a : α} {f : α → Checked β} (h : o = some a)
    (hf : Safe P (f a)) : Safe P (require .noEntry o >>= f) := by
  rw [h]
  exact hf

end

/-! ## Changes of pieces -/

section Edits

variable {f : Piece → Piece} {d : DirectReader}

/-- Some pieces are changed, and nothing else but whose reads `Poll` is to look at. -/
structure Edits (f : Piece → Piece) (run : List Member) (d d' : DirectReader) : Prop where
  rest : d' = { d with reads := d'.reads, settled := d'.settled }
  heads : ∀ key, d'.headAt key = d.headAt key
  pieces : ∀ m, d'.pieceAt m = (d.pieceAt m).map fun p => if m ∈ run then f p else p

theorem editPiece_edits (d : DirectReader) (m : Member) (hm : (d.pieceAt m).isSome = true) :
    Safe (Edits f [m] d) (editPiece f d m) := by
  obtain ⟨p, hp⟩ := isSome_iff_exists.mp hm
  obtain ⟨r, hr, hpr⟩ := pieceAt_eq_some.mp hp
  refine readAt_bind hr ?_
  refine require_bind hpr ?_
  refine ⟨rfl, fun key => ?_, fun m' => ?_⟩
  · rw [headAt_setRead]
    split
    next heq =>
      rw [heq, headAt_of_find hr]
      rfl
    · rfl
  rw [pieceAt_setRead]
  by_cases hkey : m'.key = m.key
  · rw [if_pos hkey]
    unfold pieceAt
    rw [hkey, hr, bind_some, List.getElem?_set]
    have hlt : m.piece < r.pieces.length := (List.getElem?_eq_some_iff.mp hpr).1
    by_cases hpiece : m.piece = m'.piece
    · have heq : m' = m := by
        cases m
        cases m'
        simp_all
      subst heq
      rw [if_pos rfl, if_pos hlt, hpr]
      simp
    have hne : m' ≠ m := fun heq => hpiece (by rw [heq])
    simp [hpiece, hne]
  have hne : m' ≠ m := fun heq => hkey (by rw [heq])
  simp [hkey, hne]

theorem foldlM_edits (g : DirectReader → Member → Checked DirectReader) (hf : ∀ p, f (f p) = f p)
    (hg : ∀ d m, (d.pieceAt m).isSome = true → Safe (Edits f [m] d) (g d m)) (run : List Member)
    (hrun : ∀ m ∈ run, (d.pieceAt m).isSome = true) : Safe (Edits f run d) (run.foldlM g d) := by
  induction run generalizing d with
  | nil =>
    refine ⟨rfl, fun _ => rfl, fun m => ?_⟩
    cases d.pieceAt m <;> rfl
  | cons m rest ih =>
    refine Sat.bind (hg d m (hrun m List.mem_cons_self)) fun d1 h₁ => ?_
    refine Sat.imp (ih fun m' hm' => ?_) fun d' h' => ⟨?_, fun key => ?_, fun m' => ?_⟩
    · rw [h₁.pieces, isSome_map]
      exact hrun m' (List.mem_cons_of_mem _ hm')
    · rw [h'.rest, h₁.rest]
    · rw [h'.heads, h₁.heads]
    rw [h'.pieces, h₁.pieces, map_map]
    congr 1
    funext p
    by_cases h1 : m' = m <;> by_cases h2 : m' ∈ rest <;> simp [h1, h2, hf]

theorem markLanded_edits (d : DirectReader) (m : Member) (hm : (d.pieceAt m).isSome = true) :
    Safe (Edits (fun p => { p with inFlight := false }) [m] d) (markLanded d m) := by
  refine Sat.bind (editPiece_edits d m hm) fun d' h => ?_
  refine ⟨?_, h.heads, h.pieces⟩
  rw [h.rest]

end Edits

/-! ## Changes of a read -/

structure Piece.Grows (p p' : Piece) : Prop where
  same : p' = { p with done := p'.done }
  more : p.done ≤ p'.done
  fits : p.done ≤ p.length → p'.done ≤ p.length

theorem Piece.Grows.refl (p : Piece) : p.Grows p := ⟨rfl, Nat.le_refl _, id⟩

/-- A read that may have been filled further, its flags but `queued` changed. -/
structure Reading.Grows (r r' : Reading) : Prop where
  spec : r'.spec = r.spec
  arrival : r'.arrival = r.arrival
  queued : r'.queued = r.queued
  pieces : ∀ i : Nat, Option.Rel Piece.Grows r.pieces[i]? r'.pieces[i]?

theorem Piece.Grows.option (o : Option Piece) : Option.Rel Piece.Grows o o := by
  cases o with
  | none => exact .none
  | some p => exact .some (.refl p)

theorem Reading.Grows.flags {r r' : Reading} (spec : r'.spec = r.spec)
    (arrival : r'.arrival = r.arrival) (queued : r'.queued = r.queued)
    (pieces : r'.pieces = r.pieces) : r.Grows r' :=
  ⟨spec, arrival, queued, fun i => by rw [pieces]; exact Piece.Grows.option _⟩

theorem Reading.Grows.refl (r : Reading) : r.Grows r := .flags rfl rfl rfl rfl

section Sound

variable {d : DirectReader} {key : Nat} {r r' : Reading} {m : Member}

theorem Reading.Grows.pieceAt_some {p' : Piece} (hr : d.reads.find? key = some r) (hg : r.Grows r')
    (hp : (d.setRead key r').pieceAt m = some p') : ∃ p, d.pieceAt m = some p ∧ p.Grows p' := by
  rw [pieceAt_setRead] at hp
  split at hp
  next hkey =>
    have hrel := hg.pieces m.piece
    rw [hp] at hrel
    rcases hpr : r.pieces[m.piece]? with _ | p
    · rw [hpr] at hrel
      cases hrel
    rw [hpr] at hrel
    cases hrel with
    | some hgrows => exact ⟨p, pieceAt_eq_some.mpr ⟨r, hkey ▸ hr, hpr⟩, hgrows⟩
  · exact ⟨p', hp, .refl p'⟩

theorem Reading.Grows.pieceAt_of_some {p : Piece} (hr : d.reads.find? key = some r)
    (hg : r.Grows r') (hp : d.pieceAt m = some p) :
    ∃ p', (d.setRead key r').pieceAt m = some p' ∧ p.Grows p' := by
  rw [pieceAt_setRead]
  split
  next hkey =>
    obtain ⟨r0, hr0, hpr⟩ := pieceAt_eq_some.mp hp
    rw [hkey, hr] at hr0
    cases hr0
    have hrel := hg.pieces m.piece
    rw [hpr] at hrel
    rcases hpr' : r'.pieces[m.piece]? with _ | p'
    · rw [hpr'] at hrel
      cases hrel
    rw [hpr'] at hrel
    cases hrel with
    | some hgrows => exact ⟨p', rfl, hgrows⟩
  · exact ⟨p, hp, .refl p⟩

theorem headAt_setRead_like (r' : Reading) {key' : Nat} {h : Reading}
    (hr : d.reads.find? key = some r) (harr : r'.arrival = r.arrival)
    (hh : (d.setRead key r').headAt key' = some h) :
    ∃ h0, d.headAt key' = some h0 ∧ h.arrival = h0.arrival ∧
      (r'.queued = r.queued → h.queued = h0.queued) := by
  rw [headAt_setRead] at hh
  split at hh
  next hkey =>
    cases hh
    exact ⟨r.head, hkey ▸ headAt_of_find hr, harr, id⟩
  · exact ⟨h, hh, rfl, fun _ => rfl⟩

theorem headAt_setRead_of {key' : Nat} {h0 : Reading} (hr : d.reads.find? key = some r)
    (harr : r'.arrival = r.arrival) (hh : d.headAt key' = some h0) :
    ∃ h, (d.setRead key r').headAt key' = some h ∧ h.arrival = h0.arrival ∧
      (r'.queued = r.queued → h.queued = h0.queued) := by
  rw [headAt_setRead]
  split
  next hkey =>
    rw [hkey, headAt_of_find hr] at hh
    cases hh
    exact ⟨r'.head, rfl, harr, id⟩
  · exact ⟨h0, hh, rfl, fun _ => rfl⟩

theorem Sound.grow (h : Sound d) (hr : d.reads.find? key = some r) (hg : r.Grows r') :
    Sound (d.setRead key r') where
  arrival key' h' hh' := by
    obtain ⟨h0, hh0, harr, -⟩ := headAt_setRead_like r' hr hg.arrival hh'
    rw [harr]
    exact h.arrival key' h0 hh0
  distinct key1 key2 h1 h2 hh1 hh2 heq := by
    obtain ⟨h1', hh1', harr1, -⟩ := headAt_setRead_like r' hr hg.arrival hh1
    obtain ⟨h2', hh2', harr2, -⟩ := headAt_setRead_like r' hr hg.arrival hh2
    exact h.distinct key1 key2 h1' h2' hh1' hh2' (by rw [← harr1, ← harr2, heq])
  queue a key' hq := by
    obtain ⟨h0, hh0, harr, hqueued⟩ := h.queue a key' hq
    obtain ⟨h1, hh1, harr1, hqueued1⟩ := headAt_setRead_of hr hg.arrival hh0
    exact ⟨h1, hh1, harr1.trans harr, (hqueued1 hg.queued).trans hqueued⟩
  queued key' h' hh' hq := by
    obtain ⟨h0, hh0, harr, hqueued⟩ := headAt_setRead_like r' hr hg.arrival hh'
    rw [harr]
    exact h.queued key' h0 hh0 ((hqueued hg.queued).symm.trans hq)
  token := h.token
  members t req hreq m' hm' := by
    obtain ⟨p, hp, hflight, htoken⟩ := h.members t req hreq m' hm'
    obtain ⟨p', hp', hgrows⟩ := hg.pieceAt_of_some hr hp
    exact ⟨p', hp', by rw [hgrows.same]; exact hflight, by rw [hgrows.same]; exact htoken⟩
  ordered t req hreq := by
    obtain ⟨hne, hpair⟩ := h.ordered t req hreq
    refine ⟨hne, hpair.imp fun hb => hb.congr fun key' h' hh' => ?_⟩
    obtain ⟨h0, hh0, harr, -⟩ := headAt_setRead_like r' hr hg.arrival hh'
    exact ⟨h0, hh0, harr⟩
  flight m' p' hp' hflight := by
    obtain ⟨p, hp, hgrows⟩ := hg.pieceAt_some hr hp'
    rw [hgrows.same] at hflight ⊢
    exact h.flight m' p hp hflight
  filled m' p' hp' := by
    obtain ⟨p, hp, hgrows⟩ := hg.pieceAt_some hr hp'
    have hfits := hgrows.fits (h.filled m' p hp)
    rw [hgrows.same]
    exact hfits

theorem enqueue_eq (d : DirectReader) (key : Nat) (r : Reading) :
    d.enqueue key r = d.setRead key r ∨
      r.stopping = false ∧ d.enqueue key r =
        { d.setRead key { r with queued := true } with queue := d.queue.insert r.arrival key } := by
  unfold enqueue
  split
  next hcond =>
    simp only [Bool.and_eq_true, Bool.not_eq_true'] at hcond
    exact .inr ⟨hcond.2, rfl⟩
  · exact .inl rfl

/-- A read put on the queue, or taken off it. -/
theorem Sound.requeued {d' : DirectReader} {b : Bool} (h : Sound d) (hr : d.headAt key = some r)
    (hheads : ∀ key', d'.headAt key' =
      if key' = key then some { r with queued := b } else d.headAt key')
    (hpieces : ∀ m, d'.pieceAt m = d.pieceAt m)
    (hqueue : ∀ a, d'.queue.find? a =
      if a = r.arrival then (if b then some key else none) else d.queue.find? a)
    (hreq : d'.requests = d.requests) (harr : d'.nextArrival = d.nextArrival)
    (htoken : d'.nextToken = d.nextToken) : Sound d' := by
  have hlike : ∀ key' h', d'.headAt key' = some h' →
      ∃ h0, d.headAt key' = some h0 ∧ h'.arrival = h0.arrival := by
    intro key' h' hh'
    rw [hheads] at hh'
    split at hh'
    next hkey =>
      cases hh'
      exact ⟨r, hkey ▸ hr, rfl⟩
    · exact ⟨h', hh', rfl⟩
  refine ⟨fun key' h' hh' => ?_, fun key1 key2 h1 h2 hh1 hh2 heq => ?_, fun a key' hq => ?_,
    fun key' h' hh' hq => ?_, by rw [hreq, htoken]; exact h.token, ?_, ?_, ?_, ?_⟩
  · obtain ⟨h0, hh0, heq⟩ := hlike key' h' hh'
    rw [heq, harr]
    exact h.arrival key' h0 hh0
  · obtain ⟨h1', hh1', harr1⟩ := hlike key1 h1 hh1
    obtain ⟨h2', hh2', harr2⟩ := hlike key2 h2 hh2
    exact h.distinct key1 key2 h1' h2' hh1' hh2' (by rw [← harr1, ← harr2, heq])
  · rw [hheads]
    rw [hqueue] at hq
    split at hq
    next ha =>
      cases b <;> cases hq
      exact ⟨_, if_pos rfl, ha.symm, rfl⟩
    rename_i hne
    obtain ⟨h0, hh0, ha, hqueued⟩ := h.queue a key' hq
    have hkey : key' ≠ key := by
      rintro rfl
      cases hr.symm.trans hh0
      exact hne ha.symm
    exact ⟨h0, by rw [if_neg hkey]; exact hh0, ha, hqueued⟩
  · rw [hheads] at hh'
    rw [hqueue]
    split at hh'
    next hkey =>
      cases hh'
      rw [if_pos rfl, if_pos hq, hkey]
    rename_i hkey
    rw [if_neg fun heq => hkey (h.distinct key' key h' r hh' hr heq)]
    exact h.queued key' h' hh' hq
  · simp only [hreq, hpieces]
    exact h.members
  · rw [hreq]
    exact fun t req hget => (h.ordered t req hget).imp_right fun hpair =>
      hpair.imp fun hb => hb.congr hlike
  · simp only [hreq, hpieces]
    exact h.flight
  · simp only [hpieces]
    exact h.filled

theorem Sound.enqueue (h : Sound d) (hr : d.reads.find? key = some r) (hg : r.Grows r') :
    Sound (d.enqueue key r') := by
  have hgrown := h.grow hr hg
  rcases enqueue_eq d key r' with heq | ⟨-, heq⟩
  · rw [heq]
    exact hgrown
  have hhead : (d.setRead key r').headAt key = some r'.head := by
    rw [headAt_setRead, if_pos rfl]
  rw [heq]
  refine hgrown.requeued (b := true) hhead (fun key' => ?_) (fun m => ?_)
    (fun a => OrdMap.find?_insert ..) rfl rfl rfl
  · show (d.setRead key { r' with queued := true }).headAt key' = _
    rw [headAt_setRead, headAt_setRead]
    split <;> rfl
  · show (d.setRead key { r' with queued := true }).pieceAt m = _
    rw [pieceAt_setRead, pieceAt_setRead]

end Sound
end JitLlm.Providers.DirectReader
