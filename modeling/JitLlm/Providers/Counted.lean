import JitLlm.Providers.Effort

/-!
# Every read needs finitely many requests

The requests a read took part in are counted against what it and the reads before it weigh: a
request in flight is one the count is ahead by, and as it ends something gets lighter. What a read
weighs as it arrives is told by its length, so the count never passes a number that is known by
then.
-/

namespace JitLlm.Providers.DirectReader

open Base Lib List
open Scheduler (IoKind ReadSpec)

/-! ## The account -/

/-- What a read no later than the one that arrived as `a` weighs. -/
def weightAt (c : ReaderSettings) (a : Nat) (d : DirectReader) (key : Nat) : Nat :=
  match d.headAt key with
  | some h => if h.arrival ≤ a then weight c d key h else 0
  | none => 0

/-- The requests the read took part in, against what it and the reads before it weigh. -/
structure Spent (c : ReaderSettings) (a : Nat) (keys : Finset Nat) (bound : Nat)
    (d : DirectReader) : Prop where
  arrived : a < d.nextArrival
  known : ∀ key h, d.headAt key = some h → h.arrival ≤ a → key ∈ keys
  live : ∀ key h, d.headAt key = some h → h.arrival = a →
    (d.log.filter Event.submission).countP (Event.submits a) + ∑ k ∈ keys, weightAt c a d k ≤
      bound + (tokens d key h.spec.length).card
  within : (d.log.filter Event.submission).countP (Event.submits a) ≤ bound

section Spent

variable {c : ReaderSettings} {a bound : Nat} {keys : Finset Nat} {d d' : DirectReader}

theorem weightAt_eq {key : Nat} {h : Reading} (hh : d.headAt key = some h) (hle : h.arrival ≤ a) :
    weightAt c a d key = weight c d key h := by
  unfold weightAt
  rw [hh]
  exact if_pos hle

theorem weightAt_le (hlight : ∀ key h', d'.headAt key = some h' →
    ∃ h, d.headAt key = some h ∧ h'.arrival = h.arrival ∧ weight c d' key h' ≤ weight c d key h)
    (key : Nat) : weightAt c a d' key ≤ weightAt c a d key := by
  cases hh' : d'.headAt key with
  | none =>
    unfold weightAt
    rw [hh']
    exact Nat.zero_le _
  | some h' =>
    obtain ⟨h, hh, harr, hle⟩ := hlight key h' hh'
    by_cases ha : h'.arrival ≤ a
    · rw [weightAt_eq hh' ha, weightAt_eq hh (harr ▸ ha)]
      exact hle
    unfold weightAt
    rw [hh']
    simp only [if_neg ha]
    exact Nat.zero_le _

theorem Eases.weightAt_le (he : Eases c d d') (key : Nat) :
    weightAt c a d' key ≤ weightAt c a d key :=
  DirectReader.weightAt_le (fun key h' hh' => by
    obtain ⟨h, hh, ht⟩ := he.heads key h' hh'
    exact ⟨h, hh, ht.arrival, he.weight_le ht key⟩) key

theorem tokens_card_le_sum (hkeys : ∀ key h, d.headAt key = some h → h.arrival ≤ a → key ∈ keys)
    {key : Nat} {h : Reading} (hh : d.headAt key = some h) (harr : h.arrival = a) :
    (tokens d key h.spec.length).card ≤ ∑ k ∈ keys, weightAt c a d k := by
  have hle : h.arrival ≤ a := Nat.le_of_eq harr
  calc (tokens d key h.spec.length).card ≤ weight c d key h := tokens_card_le
    _ = weightAt c a d key := (weightAt_eq hh hle).symm
    _ ≤ ∑ k ∈ keys, weightAt c a d k :=
      Finset.single_le_sum (fun _ _ => Nat.zero_le _) (hkeys key h hh hle)

theorem Spent.ease (hp : Spent c a keys bound d) (he : Eases c d d')
    (hflight : ∀ m p h', d.pieceAt m = some p → p.inFlight = true → d'.headAt m.key = some h' →
      ∃ p', d'.pieceAt m = some p' ∧ p'.inFlight = true ∧ p'.token = p.token) :
    Spent c a keys bound d' where
  arrived := he.arrivals ▸ hp.arrived
  known := by
    intro key h' hh' hle
    obtain ⟨h, hh, ht⟩ := he.heads key h' hh'
    exact hp.known key h hh (ht.arrival ▸ hle)
  live := by
    intro key h' hh' harr
    obtain ⟨h, hh, ht⟩ := he.heads key h' hh'
    have hlive := hp.live key h hh (ht.arrival.symm.trans harr)
    have hsum : ∑ k ∈ keys, weightAt c a d' k ≤ ∑ k ∈ keys, weightAt c a d k :=
      Finset.sum_le_sum fun k _ => he.weightAt_le k
    have hcard : (tokens d key h.spec.length).card ≤ (tokens d' key h'.spec.length).card := by
      refine Finset.card_le_card fun t ht' => ?_
      obtain ⟨i, hi, p, hpiece, hf, htoken⟩ := mem_tokens.mp ht'
      obtain ⟨p', hp', hf', htoken'⟩ := hflight ⟨key, i⟩ p h' hpiece hf hh'
      exact mem_tokens.mpr ⟨i, ht.spec ▸ hi, p', hp', hf', htoken'.trans htoken⟩
    rw [he.log]
    omega
  within := by
    rw [he.log]
    exact hp.within

theorem Spent.keeps (hp : Spent c a keys bound d) (he : Eases c d d') (hk : Keeps d d') :
    Spent c a keys bound d' := by
  refine hp.ease he fun m p h' hpiece hflight _ => ?_
  obtain ⟨p', hp', hflight', htoken⟩ := hk.pieces m p hpiece
  exact ⟨p', hp', hflight'.trans hflight, htoken⟩

theorem Spent.harvested {t : Nat} {req : Request} (hp : Spent c a keys bound d)
    (hv : Harvested c t req d d') (hs : Sound d) (hs' : Sound d') (hf : Fit c d)
    (hreq : d.requests.find? t = some req) : Spent c a keys bound d' where
  arrived := hv.eases.arrivals ▸ hp.arrived
  known := by
    intro key h' hh' hle
    obtain ⟨h, hh, ht⟩ := hv.eases.heads key h' hh'
    exact hp.known key h hh (ht.arrival ▸ hle)
  live := by
    intro key h' hh' harri
    obtain ⟨h, hh, ht⟩ := hv.eases.heads key h' hh'
    have harr : h.arrival = a := ht.arrival.symm.trans harri
    have hlive := hp.live key h hh harr
    rw [hv.eases.log]
    have hsub : tokens d key h.spec.length ⊆ insert t (tokens d' key h'.spec.length) := by
      intro t' ht'
      obtain ⟨i, hi, p, hpiece, hflight, rfl⟩ := mem_tokens.mp ht'
      by_cases heq : p.token = t
      · exact Finset.mem_insert.mpr (.inl heq)
      obtain ⟨p', hp', hflight', htoken'⟩ := hv.others ⟨key, i⟩ p hpiece hflight heq
      exact Finset.mem_insert_of_mem (mem_tokens.mpr ⟨i, ht.spec ▸ hi, p', hp', hflight', htoken'⟩)
    by_cases hmem : t ∈ tokens d key h.spec.length
    · obtain ⟨i, hi, p, hpiece, hflight, rfl⟩ := mem_tokens.mp hmem
      obtain ⟨req', hreq', hm⟩ := hs.flight ⟨key, i⟩ p hpiece hflight
      cases hreq.symm.trans hreq'
      obtain ⟨key1, h1, h1', hh1, hh1', hle, hlt⟩ := hv.lighter hs hs' hf hreq hm hh
      obtain ⟨h2, hh2, ht1⟩ := hv.eases.heads key1 h1' hh1'
      cases hh1.symm.trans hh2
      have hle : h1.arrival ≤ a := harr ▸ hle
      have hsum : ∑ k ∈ keys, weightAt c a d' k < ∑ k ∈ keys, weightAt c a d k := by
        refine Finset.sum_lt_sum (fun k _ => hv.eases.weightAt_le k)
          ⟨key1, hp.known key1 h1 hh1 hle, ?_⟩
        rw [weightAt_eq hh1 hle, weightAt_eq hh1' (ht1.arrival ▸ hle)]
        exact hlt
      have hcard := Nat.le_trans (Finset.card_le_card hsub) (Finset.card_insert_le _ _)
      omega
    have hsum : ∑ k ∈ keys, weightAt c a d' k ≤ ∑ k ∈ keys, weightAt c a d k :=
      Finset.sum_le_sum fun k _ => hv.eases.weightAt_le k
    have hcard : (tokens d key h.spec.length).card ≤ (tokens d' key h'.spec.length).card := by
      refine Finset.card_le_card fun t' ht' => ?_
      rcases Finset.mem_insert.mp (hsub ht') with rfl | hin
      · exact absurd ht' hmem
      · exact hin
    omega
  within := by
    rw [hv.eases.log]
    exact hp.within

end Spent

/-! ## Starting -/

section Starting

variable {c : ReaderSettings} {a bound : Nat} {keys : Finset Nat} {d d' : DirectReader}
  {run : List Member}

theorem Submits.weight_le (hs : Submits run d d') (hsound : Sound d) (hrun : Startable d run)
    {key : Nat} {h : Reading} (hh : d.headAt key = some h) :
    weight c d' key h ≤ weight c d key h := by
  refine Nat.add_le_add_left (Finset.sum_le_sum fun i _ => ?_) _
  rw [hs.pieces]
  rcases hp : d.pieceAt ⟨key, i⟩ with _ | p
  · exact Nat.le_refl _
  split
  next hm =>
    obtain ⟨h0, hh0, hstop⟩ := (hrun.ready _ hm).head
    cases hh.symm.trans hh0
    -- A read that starts alone is not in a run of several.
    have hspan : h.alone = true →
        d'.inSpan { p with inFlight := true, token := d.nextToken } = false := by
      intro halone
      have hlen : ¬ 1 < run.length := by
        intro hlt
        obtain ⟨h1, hh1, -, hnot⟩ := hrun.span hlt _ hm
        cases hh.symm.trans hh1
        cases halone.symm.trans hnot
      unfold inSpan
      rw [hs.rest]
      simp [hlen]
    simp only [pieceWeight, hstop, Bool.false_eq_true, if_false]
    refine Nat.add_le_add_left ?_ _
    split
    next halone =>
      rw [hspan halone]
      exact Nat.zero_le _
    · exact Nat.le_refl _
  refine pieceWeight_le (.refl h) rfl (Nat.le_refl _) id fun hspan => ?_
  unfold inSpan at hspan ⊢
  simp only [Bool.and_eq_true, Option.any_eq_true] at hspan ⊢
  obtain ⟨hflight, req, hreq, hlen⟩ := hspan
  obtain ⟨req0, hreq0, -⟩ := hsound.flight _ p hp hflight
  have hne : p.token ≠ d.nextToken := Nat.ne_of_lt (hsound.token _ req0 hreq0)
  rw [hs.rest] at hreq
  simp only [OrdMap.find?_insert, if_neg hne] at hreq
  exact ⟨hflight, req, hreq, hlen⟩

theorem Submits.pieceAt (hs : Submits run d d') {m : Member} {p' : Piece}
    (hp' : d'.pieceAt m = some p') : ∃ p, d.pieceAt m = some p ∧
      p' = if m ∈ run then { p with inFlight := true, token := d.nextToken } else p := by
  rw [hs.pieces] at hp'
  obtain ⟨p, hp, rfl⟩ := Option.map_eq_some_iff.mp hp'
  exact ⟨p, hp, rfl⟩

theorem Fit.submits (hf : Fit c d) (hsound : Sound d) (hrun : Startable d run)
    (hs : Submits run d d') : Fit c d' where
  inside := by
    intro m p' hp'
    obtain ⟨p, hp, -⟩ := hs.pieceAt hp'
    rw [hs.heads]
    exact hf.inside m p hp
  whole := by
    intro m p' hp'
    obtain ⟨p, hp, rfl⟩ := hs.pieceAt hp'
    have := hf.whole m p hp
    split <;> exact this
  steps := by
    intro m p' h hp' hh hstop
    obtain ⟨p, hp, rfl⟩ := hs.pieceAt hp'
    rw [hs.heads] at hh
    have := hf.steps m p h hp hh hstop
    split <;> exact this
  lacks := by
    intro m p' hp' hflight
    obtain ⟨p, hp, rfl⟩ := hs.pieceAt hp'
    split at hflight
    next hm =>
      obtain ⟨p0, hp0, -, hne⟩ := (hrun.ready m hm).piece
      cases hp.symm.trans hp0
      rw [if_pos hm]
      exact Nat.lt_of_le_of_ne (hsound.filled m p hp) hne
    rename_i hm
    rw [if_neg hm]
    exact hf.lacks m p hp hflight
  light := by
    intro key h hh
    rw [hs.heads] at hh
    exact Nat.le_trans (hs.weight_le hsound hrun hh) (hf.light key h hh)
  past := by
    intro t parts hmem p hp
    rw [hs.rest] at hmem ⊢
    simp only [filter_cons, Event.submission, if_true, mem_cons] at hmem
    rcases hmem with heq | hmem
    · cases heq
      obtain ⟨m, -, hm⟩ := List.mem_filterMap.mp hp
      obtain ⟨r, hr, rfl⟩ := Option.map_eq_some_iff.mp hm
      exact hsound.arrival m.key r.head (headAt_of_find hr)
    · exact hf.past t parts hmem p hp

theorem Spent.submits (hp : Spent c a keys bound d) (hf : Fit c d) (hsound : Sound d)
    (hrun : Startable d run) (hs : Submits run d d') : Spent c a keys bound d' := by
  have hlog : d'.log.filter Event.submission =
      .submitted d.nextToken (d.parts run) :: d.log.filter Event.submission := by
    rw [hs.rest]
    rfl
  have hkeys : ∀ key h, d'.headAt key = some h → h.arrival ≤ a → key ∈ keys := by
    intro key h hh
    exact hp.known key h ((hs.heads key).symm.trans hh)
  have hsum : ∑ k ∈ keys, weightAt c a d' k ≤ ∑ k ∈ keys, weightAt c a d k :=
    Finset.sum_le_sum fun k _ => weightAt_le (fun key h hh =>
      ⟨h, (hs.heads key).symm.trans hh, rfl,
        hs.weight_le hsound hrun ((hs.heads key).symm.trans hh)⟩) k
  -- The parts of the run that are the read's.
  have hpart : (∃ p ∈ d.parts run, p.arrival = a) →
      ∃ m ∈ run, ∃ h, d.headAt m.key = some h ∧ h.arrival = a := by
    rintro ⟨p, hmem, harri⟩
    obtain ⟨m, hm, hmap⟩ := List.mem_filterMap.mp hmem
    obtain ⟨r, hr, rfl⟩ := Option.map_eq_some_iff.mp hmap
    exact ⟨m, hm, r.head, headAt_of_find hr, harri⟩
  have hlive : ∀ key h, d'.headAt key = some h → h.arrival = a →
      (d'.log.filter Event.submission).countP (Event.submits a) + ∑ k ∈ keys, weightAt c a d' k ≤
        bound + (tokens d' key h.spec.length).card := by
    intro key h hh harri
    rw [hs.heads] at hh
    have hbef := hp.live key h hh harri
    -- What was in flight is.
    have hsub : tokens d key h.spec.length ⊆ tokens d' key h.spec.length := by
      intro t ht
      obtain ⟨i, hi, p, hpiece, hflight, htoken⟩ := mem_tokens.mp ht
      refine mem_tokens.mpr ⟨i, hi, p, ?_, hflight, htoken⟩
      rw [hs.pieces, hpiece, Option.map_some, if_neg]
      intro hm
      obtain ⟨p0, hp0, hidle, -⟩ := (hrun.ready _ hm).piece
      cases hpiece.symm.trans hp0
      cases hflight.symm.trans hidle
    rw [hlog, countP_cons]
    split
    next hin =>
      obtain ⟨m, hm, h1, hh1, harr1⟩ := hpart (by simpa [Event.submits] using hin)
      have hkey : m.key = key := hsound.distinct m.key key h1 h hh1 hh (harr1.trans harri.symm)
      have hnew : d.nextToken ∉ tokens d key h.spec.length := by
        intro ht
        obtain ⟨i, -, p, hpiece, hflight, htoken⟩ := mem_tokens.mp ht
        obtain ⟨req, hreq, -⟩ := hsound.flight _ p hpiece hflight
        exact absurd (hsound.token _ req hreq) (by omega)
      have hmem : d.nextToken ∈ tokens d' key h.spec.length := by
        obtain ⟨p, hpiece, -⟩ := (hrun.ready m hm).piece
        obtain ⟨h2, hh2, hlt⟩ := hf.inside m p hpiece
        subst hkey
        cases hh.symm.trans hh2
        exact mem_tokens.mpr ⟨m.piece, hlt, _, by
          rw [hs.pieces, hpiece, Option.map_some, if_pos hm], rfl, rfl⟩
      have hcard : (tokens d key h.spec.length).card + 1 ≤ (tokens d' key h.spec.length).card := by
        rw [← Finset.card_insert_of_notMem hnew]
        exact Finset.card_le_card (Finset.insert_subset hmem hsub)
      omega
    have hcard := Finset.card_le_card hsub
    omega
  refine ⟨?_, hkeys, hlive, ?_⟩
  · rw [hs.rest]
    exact hp.arrived
  by_cases hex : ∃ key h, d'.headAt key = some h ∧ h.arrival = a
  · obtain ⟨key, h, hh, harri⟩ := hex
    have h1 := hlive key h hh harri
    have h2 : (tokens d' key h.spec.length).card ≤ ∑ k ∈ keys, weightAt c a d' k :=
      tokens_card_le_sum hkeys hh harri
    omega
  rw [hlog, countP_cons, if_neg]
  · exact hp.within
  intro hin
  obtain ⟨m, -, h, hh, harri⟩ := hpart (by simpa [Event.submits] using hin)
  exact hex ⟨m.key, h, (hs.heads m.key).trans hh, harri⟩

end Starting

/-! ## Accounts over calls -/

/-- The reads' sizes, and the accounts that are kept: of which read, against which keys' reads,
    and up to what. -/
structure Accounts (c : ReaderSettings) (kept : Set (Nat × Finset Nat × Nat)) (d : DirectReader) :
    Prop where
  fit : Fit c d
  spent : ∀ x ∈ kept, Spent c x.1 x.2.1 x.2.2 d

section Accounts

variable {c : ReaderSettings} {kept : Set (Nat × Finset Nat × Nat)} {d d' : DirectReader}

theorem Accounts.keeps (h : Accounts c kept d) (he : Eases c d d') (hk : Keeps d d') :
    Accounts c kept d' :=
  ⟨h.fit.ease he, fun x hx => (h.spent x hx).keeps he hk⟩

theorem Accounts.same (h : Accounts c kept d) (hreads : d'.reads = d.reads)
    (hreq : d'.requests = d.requests) (harr : d'.nextArrival = d.nextArrival)
    (hlog : d'.log.filter Event.submission = d.log.filter Event.submission) :
    Accounts c kept d' := by
  refine h.keeps (.of_reads hreads hreq harr hlog) ⟨fun key h hh => ⟨h, ?_⟩,
    fun m p hp => ⟨p, ?_, rfl, rfl⟩⟩
  · unfold headAt
    rw [hreads]
    exact hh
  unfold pieceAt
  rw [hreads]
  exact hp

theorem accounts_starting (c : ReaderSettings) (kept : Set (Nat × Finset Nat × Nat)) :
    Starting (fun d => Told c d ∧ Accounts c kept d) where
  submits := by
    rintro d d' run ⟨ht, ha⟩ hs hrun hne hsub
    exact ⟨(told_starting c).submits d d' run ht hs hrun hne hsub, ha.fit.submits hs hrun hsub,
      fun x hx => (ha.spent x hx).submits ha.fit hs hrun hsub⟩
  refused := by
    rintro d ⟨ht, ha⟩
    exact ⟨(told_starting c).refused d ht, ha.same rfl rfl rfl rfl⟩

theorem accounts_queueBlind (c : ReaderSettings) (kept : Set (Nat × Finset Nat × Nat)) :
    QueueBlind (fun d => Told c d ∧ Accounts c kept d) := by
  rintro d key r hr hs ⟨ht, ha⟩ queue
  have hturn : Turn r { r with queued := false } := ⟨rfl, rfl, id, id, Nat.le_refl _⟩
  obtain ⟨he, hk⟩ := Eases.put (c := c) hr hturn (.same rfl) queue
  exact ⟨told_queueBlind c d key r hr hs ht queue, ha.keeps he hk⟩

theorem startQueued_accounts (h : Sound d ∧ Told c d ∧ Accounts c kept d) (take : Nat → Bool) :
    Safe (fun d' => Sound d' ∧ Told c d' ∧ Accounts c kept d') (d.startQueued c take) :=
  startQueued_safe (accounts_starting c kept) (accounts_queueBlind c kept) take h.1 h.2

theorem harvest_accounts (h : Sound d ∧ Told c d ∧ Accounts c kept d) (completion : Nat × Int) :
    Safe (fun d' => Sound d' ∧ Told c d' ∧ Accounts c kept d') (harvest c d completion) := by
  obtain ⟨hs, ht, ha⟩ := h
  obtain ⟨t, result⟩ := completion
  have hsafe := harvest_safe ⟨hs, ht⟩ (t, result)
  cases hreq : d.requests.find? t with
  | none =>
    unfold harvest at hsafe ⊢
    simp only [hreq] at hsafe ⊢
    exact ⟨hs, ht, ha⟩
  | some =>
    refine (hsafe.and (harvest_headway hs ha.fit hreq result)).imp fun d' hd' => ?_
    obtain ⟨⟨hs', ht'⟩, hv⟩ := hd'
    exact ⟨hs', ht', ha.fit.ease hv.eases, fun x hx =>
      (ha.spent x hx).harvested hv hs hs' ha.fit hreq⟩

theorem report_accounts (y : List FinishedRead × DirectReader)
    (h : Sound y.2 ∧ Told c y.2 ∧ Accounts c kept y.2) (key : Nat) :
    Sound (report y key).2 ∧ Told c (report y key).2 ∧ Accounts c kept (report y key).2 := by
  obtain ⟨hs, ht, ha⟩ := h
  obtain ⟨hs', ht'⟩ := report_safe y ⟨hs, ht⟩ key
  refine ⟨hs', ht', ?_⟩
  obtain ⟨finished, d⟩ := y
  unfold report
  simp only
  split
  · exact ha
  split
  · -- The read is gone, and the others as they were.
    have hfind : ∀ {key' r'}, (d.reads.erase key).find? key' = some r' →
        key' ≠ key ∧ d.reads.find? key' = some r' := by
      intro key' r' hr'
      rw [OrdMap.find?_erase] at hr'
      split at hr'
      · cases hr'
      · exact ⟨‹_›, hr'⟩
    rename_i r hr _
    have he : Eases c d { d with
        queue := if r.queued then d.queue.erase r.arrival else d.queue
        reads := d.reads.erase key
        log := .finished r.arrival (r.report key) :: d.log } := by
      refine ⟨fun key' h' hh' => ?_, fun m p' hp' => ?_, fun m p p' h' hp hp' _ _ _ hdvd => ?_,
        fun t req hreq => ⟨req, hreq, rfl⟩, rfl, rfl⟩
      · obtain ⟨r', hr', rfl⟩ := headAt_eq_some.mp hh'
        exact ⟨r'.head, headAt_of_find (hfind hr').2, .refl _⟩
      · obtain ⟨r', hr', hp'⟩ := pieceAt_eq_some.mp hp'
        exact ⟨p', pieceAt_eq_some.mpr ⟨r', (hfind hr').2, hp'⟩, rfl, Nat.le_refl _,
          fun hf => ⟨hf, rfl, rfl⟩⟩
      obtain ⟨r', hr', hp'⟩ := pieceAt_eq_some.mp hp'
      obtain rfl := Option.some.inj (hp.symm.trans (pieceAt_eq_some.mpr ⟨r', (hfind hr').2, hp'⟩))
      exact hdvd
    refine ⟨ha.fit.ease he, fun x hx => (ha.spent x hx).ease he
      fun m p h' hp hflight hh' => ⟨p, ?_, hflight, rfl⟩⟩
    obtain ⟨r', hr', -⟩ := headAt_eq_some.mp hh'
    obtain ⟨r0, hr0, hp⟩ := pieceAt_eq_some.mp hp
    cases hr0.symm.trans (hfind hr').2
    exact pieceAt_eq_some.mpr ⟨_, hr', hp⟩
  · exact ha

theorem reports_accounts (keys : List Nat) : ∀ (y : List FinishedRead × DirectReader),
    Sound y.2 ∧ Told c y.2 ∧ Accounts c kept y.2 →
      Sound (keys.foldl report y).2 ∧ Told c (keys.foldl report y).2 ∧
        Accounts c kept (keys.foldl report y).2 := by
  induction keys with
  | nil => exact fun y h => h
  | cons key rest ih => exact fun y h => ih _ (report_accounts y h key)

theorem poll_accounts (h : Sound d ∧ Told c d ∧ Accounts c kept d) (take take' : Nat → Bool)
    (completions : List (Nat × Int)) :
    Safe (fun y => Accounts c kept y.2) (d.poll c take completions take') := by
  refine Sat.bind (startQueued_accounts h take) fun d1 h1 => ?_
  refine Sat.bind (Sat.foldlM (I := fun _ d => Sound d ∧ Told c d ∧ Accounts c kept d)
    (fun d completion _ h => harvest_accounts h completion) h1) fun d2 h2 => ?_
  refine Sat.bind (startQueued_accounts h2 take') fun d3 h3 => ?_
  exact (reports_accounts d3.settled ([], d3) h3).2.2.same rfl rfl rfl rfl

theorem cancelIfAbandoned_keeps (hs : Sound d) (ha : Accounts c kept d) (t : Nat) :
    Safe (Accounts c kept) (d.cancelIfAbandoned t) := by
  unfold cancelIfAbandoned
  split
  · exact ha
  rename_i req hreq
  split
  · exact ha
  refine Sat.bind (allStopping_safe fun m hm => ?_) fun all _ => ?_
  · obtain ⟨p, hp, -⟩ := hs.members t req hreq m hm
    obtain ⟨r, hr, -⟩ := pieceAt_eq_some.mp hp
    exact ⟨r, hr⟩
  split
  · refine ha.keeps ⟨fun key h hh => ⟨h, hh, .refl h⟩, fun m p hp => ⟨p, hp, rfl, Nat.le_refl _,
      fun hf => ⟨hf, rfl, rfl⟩⟩, fun m p p' h' hp hp' _ _ _ hdvd => ?_, fun t' req' hreq' => ?_,
      rfl, rfl⟩ ⟨fun _ h hh => ⟨h, hh⟩, fun _ p hp => ⟨p, hp, rfl, rfl⟩⟩
    · cases hp.symm.trans hp'
      exact hdvd
    simp only [OrdMap.find?_insert] at hreq'
    split at hreq'
    next heq =>
      cases hreq'
      exact ⟨req, heq ▸ hreq, rfl⟩
    · exact ⟨req', hreq', rfl⟩
  · exact ha

theorem cancelIfAbandoned_accounts (h : Sound d ∧ Told c d ∧ Accounts c kept d) (t : Nat) :
    Safe (fun d' => Sound d' ∧ Told c d' ∧ Accounts c kept d') (d.cancelIfAbandoned t) :=
  ((cancelIfAbandoned_safe ⟨h.1, h.2.1⟩ t).and (cancelIfAbandoned_keeps h.1 h.2.2 t)).imp
    fun _ hd' => ⟨hd'.1.1, hd'.1.2.1, hd'.2⟩

theorem withdraw_accounts (h : Sound d ∧ Told c d ∧ Accounts c kept d) (key waiter : Nat) :
    Safe (fun y => Accounts c kept y.2) (d.withdraw key waiter) := by
  obtain ⟨hs, ht, ha⟩ := h
  unfold withdraw
  split
  · exact ha
  rename_i r hr
  split
  · exact ha
  simp only
  split
  next hlast =>
    simp only [Bool.and_eq_true, Bool.not_eq_true'] at hlast
    rw [Reading.stop_forsaken hlast.2]
    have hturn : Turn r (r.forsaken waiter) := ⟨rfl, rfl, fun _ => rfl, id, Nat.le_refl _⟩
    have hs' : Sound (d.setRead key (r.forsaken waiter)) := hs.grow hr (.flags rfl rfl rfl rfl)
    have ht' := ht.put (r.forsaken waiter) hs hr rfl rfl (ht.tries key r.head (headAt_of_find hr))
      nofun d.queue
    obtain ⟨he, hk⟩ := Eases.put (c := c) hr hturn (.same rfl) d.queue
    refine Sat.bind (Sat.foldlM (I := fun _ d => Sound d ∧ Told c d ∧ Accounts c kept d)
      (fun d p _ h => ?_) ⟨hs', ht', ha.keeps he hk⟩) fun d' hd' => ?_
    · split
      · exact cancelIfAbandoned_accounts h p.token
      · exact h
    · exact hd'.2.2.same rfl rfl rfl rfl
  have hturn : Turn r { r with waiters := r.waiters.erase waiter } :=
    ⟨rfl, rfl, id, id, Nat.le_refl _⟩
  obtain ⟨he, hk⟩ := Eases.put (c := c) hr hturn (.same rfl) d.queue
  exact ha.keeps he hk

end Accounts

/-! ## A read that arrives -/

section Arrivals

variable {c : ReaderSettings} {kept : Set (Nat × Finset Nat × Nat)} {d d' : DirectReader}
    {requestBytes key' key : Nat} {r : Reading}

theorem piecesFrom_length_le (requestBytes length : Nat) : ∀ n start : Nat,
    (piecesFrom requestBytes length n start).length ≤ n
  | 0, _ => Nat.le_refl _
  | n + 1, start => by
    unfold piecesFrom
    split
    · exact Nat.succ_le_succ (piecesFrom_length_le requestBytes length n (start + requestBytes))
    · exact Nat.zero_le _

theorem piecesFrom_whole {a length : Nat} {p : Piece} (hreq : a ∣ requestBytes)
    (hlen : a ∣ length) : ∀ {n start : Nat}, a ∣ start →
      p ∈ piecesFrom requestBytes length n start → a ∣ p.length
  | n + 1, start, hstart, h => by
    unfold piecesFrom at h
    split at h
    · rcases List.mem_cons.mp h with rfl | h
      · show a ∣ min requestBytes (length - start)
        rcases Nat.le_total requestBytes (length - start) with hle | hle
        · rw [Nat.min_eq_left hle]
          exact hreq
        rw [Nat.min_eq_right hle]
        exact Nat.dvd_sub hlen hstart
      · exact piecesFrom_whole hreq hlen (Nat.dvd_add hstart hreq) h
    · cases h

theorem piecesFrom_count (hpos : 0 < requestBytes) (length : Nat) :
    ∀ n start : Nat, (piecesFrom requestBytes length n start).length ≤
      (length - start + (requestBytes - 1)) / requestBytes
  | 0, _ => Nat.zero_le _
  | n + 1, start => by
    unfold piecesFrom
    split
    next hlt =>
      have hrest := piecesFrom_count hpos length n (start + requestBytes)
      rw [length_cons]
      calc (piecesFrom requestBytes length n (start + requestBytes)).length + 1
          ≤ (length - (start + requestBytes) + (requestBytes - 1)) / requestBytes + 1 :=
            Nat.succ_le_succ hrest
        _ = (length - (start + requestBytes) + (requestBytes - 1) + requestBytes) / requestBytes :=
            (Nat.add_div_right _ hpos).symm
        _ ≤ (length - start + (requestBytes - 1)) / requestBytes := by
            rcases Nat.le_total requestBytes (length - start) with hle | hle
            · exact Nat.div_le_div_right (by omega)
            have hone : length - (start + requestBytes) = 0 := by omega
            have hlast : (0 + (requestBytes - 1) + requestBytes) / requestBytes = 1 := by
              rw [Nat.add_div_right _ hpos, Nat.zero_add, Nat.div_eq_of_lt (by omega)]
            rw [hone, hlast]
            exact (Nat.one_le_div_iff hpos).mpr (by omega)
    · exact Nat.zero_le _

theorem piecesFrom_steps (a requestBytes length : Nat) : ∀ n start : Nat,
    ((piecesFrom requestBytes length n start).map fun p => p.length / a).sum ≤
      (length - start) / a
  | 0, _ => Nat.zero_le _
  | n + 1, start => by
    unfold piecesFrom
    split
    · have hrest := piecesFrom_steps a requestBytes length n (start + requestBytes)
      rw [map_cons, sum_cons]
      calc min requestBytes (length - start) / a +
            ((piecesFrom requestBytes length n (start + requestBytes)).map
              fun p => p.length / a).sum
          ≤ min requestBytes (length - start) / a + (length - (start + requestBytes)) / a :=
            Nat.add_le_add_left hrest _
        _ ≤ (min requestBytes (length - start) + (length - (start + requestBytes))) / a :=
            Nat.div_add_div_le_add_div
        _ ≤ (length - start) / a := Nat.div_le_div_right (by omega)
    · exact Nat.zero_le _

theorem sum_range_getElem? (f : Option Piece → Nat) (hnone : f none = 0) :
    ∀ (n : Nat) (l : List Piece), l.length ≤ n →
      ∑ i ∈ Finset.range n, f l[i]? = (l.map fun p => f (some p)).sum
  | n, [], _ => by simp [hnone]
  | n + 1, p :: l, h => by
    rw [Finset.sum_range_succ', map_cons, sum_cons]
    have hrest := sum_range_getElem? f hnone n l (Nat.le_of_succ_le_succ h)
    simp only [getElem?_cons_succ, getElem?_cons_zero]
    omega

/-- A read as `Read` makes it. -/
structure Made (c : ReaderSettings) (d : DirectReader) (r : Reading) : Prop where
  arrival : r.arrival = d.nextArrival
  stopping : r.stopping = false
  alone : r.alone = false
  retries : r.retries = 0
  aligned : c.alignment ∣ r.spec.length
  pieces : r.pieces = piecesFrom c.requestBytes r.spec.length r.spec.length 0

theorem Made.weight_le (hr : Made c d r) {d' : DirectReader} {h : Reading}
    (hspec : h.spec = r.spec) (hstop : h.stopping = false) (halone : h.alone = false)
    (hret : h.retries = 0) (hpieces : ∀ i, d'.pieceAt ⟨key, i⟩ = r.pieces[i]?) :
    weight c d' key h ≤ worth c r.spec := by
  have hlen : r.pieces.length ≤ r.spec.length := by
    rw [hr.pieces]
    exact piecesFrom_length_le _ _ _ _
  have hsum : ∑ i ∈ Finset.range r.spec.length, pieceWeight c d' h (d'.pieceAt ⟨key, i⟩) =
      (r.pieces.map fun p => 2 + p.length / c.alignment).sum := by
    simp only [hpieces]
    rw [sum_range_getElem? _ rfl _ _ hlen]
    refine congrArg List.sum (map_congr_left fun p hp => ?_)
    rw [hr.pieces] at hp
    simp only [pieceWeight, hstop, halone, Bool.false_eq_true, if_false, stepsLeft,
      (piecesFrom_fresh hp).1, Nat.sub_zero]
    omega
  have hparts : (r.pieces.map fun p => 2 + p.length / c.alignment).sum ≤
      2 * ((r.spec.length + (c.requestBytes - 1)) / c.requestBytes) +
        r.spec.length / c.alignment := by
    have hcount := piecesFrom_count c.requestBytes_pos r.spec.length r.spec.length 0
    have hsteps := piecesFrom_steps c.alignment c.requestBytes r.spec.length r.spec.length 0
    rw [Nat.sub_zero, ← hr.pieces] at hcount hsteps
    rw [sum_map_add, map_const', sum_replicate_nat, Nat.mul_comm]
    exact Nat.add_le_add (Nat.mul_le_mul_left 2 hcount) hsteps
  unfold weight
  rw [hspec, hsum]
  simp only [headWeight, hstop, hret, Bool.false_eq_true, if_false, Nat.sub_zero]
  unfold worth
  omega

structure Arrives (d : DirectReader) (key : Nat) (r : Reading) (d' : DirectReader) : Prop where
  absent : d.reads.find? key = none
  heads : ∀ key', d'.headAt key' =
    if key' = key then some { r.head with queued := true } else d.headAt key'
  pieces : ∀ m, d'.pieceAt m = if m.key = key then r.pieces[m.piece]? else d.pieceAt m
  requests : d'.requests = d.requests
  log : d'.log = d.log
  arrivals : d'.nextArrival = d.nextArrival + 1

theorem Arrives.of_none (hnone : d.reads.find? key = none) (r : Reading) (queue : OrdMap Nat Nat) :
    Arrives d key r { d with
      reads := d.reads.insert key { r with queued := true }
      queue
      nextArrival := d.nextArrival + 1 } :=
  ⟨hnone, headAt_setRead (d := d), fun _ => pieceAt_setRead (d := d), rfl, rfl, rfl⟩

theorem Arrives.ne_of_head (hd : Arrives d key r d') {h : Reading}
    (hh : d.headAt key' = some h) : key' ≠ key := by
  rintro rfl
  obtain ⟨r', hr', -⟩ := headAt_eq_some.mp hh
  cases hd.absent.symm.trans hr'

theorem Arrives.weight_eq (hd : Arrives d key r d') (h : Reading) (hne : key' ≠ key) :
    weight c d' key' h = weight c d key' h := by
  refine congrArg _ (Finset.sum_congr rfl fun i _ => ?_)
  rw [hd.pieces, if_neg hne]
  cases d.pieceAt ⟨key', i⟩ with
  | none => rfl
  | some => simp only [pieceWeight, inSpan, hd.requests]

theorem Made.weight_new (hr : Made c d r) (hd : Arrives d key r d') :
    weight c d' key { r.head with queued := true } ≤ worth c r.spec :=
  hr.weight_le rfl hr.stopping hr.alone hr.retries fun i => by rw [hd.pieces, if_pos rfl]

theorem Made.fit (hr : Made c d r) (hf : Fit c d) (hd : Arrives d key r d') : Fit c d' := by
  have hmade : ∀ {i : Nat} {p : Piece}, r.pieces[i]? = some p →
      p ∈ piecesFrom c.requestBytes r.spec.length r.spec.length 0 := by
    intro i p hp
    rw [← hr.pieces]
    exact mem_of_getElem? hp
  refine ⟨fun m p hp => ?_, fun m p hp => ?_, fun m p h hp hh hstop => ?_,
    fun m p hp hflight => ?_, fun key' h hh => ?_, fun t parts hmem p hp => ?_⟩
  · rw [hd.pieces] at hp
    rw [hd.heads]
    split at hp
    · refine ⟨_, if_pos ‹_›, ?_⟩
      have hlt := (List.getElem?_eq_some_iff.mp hp).1
      rw [hr.pieces] at hlt
      exact Nat.lt_of_lt_of_le hlt (piecesFrom_length_le _ _ _ _)
    rw [if_neg ‹_›]
    exact hf.inside m p hp
  · rw [hd.pieces] at hp
    split at hp
    · exact piecesFrom_whole c.requestBytes_dvd hr.aligned (Nat.dvd_zero _) (hmade hp)
    · exact hf.whole m p hp
  · rw [hd.pieces] at hp
    rw [hd.heads] at hh
    split at hp
    · rw [(piecesFrom_fresh (hmade hp)).1]
      exact Nat.dvd_zero _
    rw [if_neg ‹_›] at hh
    exact hf.steps m p h hp hh hstop
  · rw [hd.pieces] at hp
    split at hp
    · exact absurd (hflight.symm.trans (piecesFrom_fresh (hmade hp)).2) (by simp)
    · exact hf.lacks m p hp hflight
  · rw [hd.heads] at hh
    split at hh
    next heq =>
      cases hh
      exact heq ▸ hr.weight_new hd
    rw [hd.weight_eq h ‹_›]
    exact hf.light key' h hh
  rw [hd.log] at hmem
  rw [hd.arrivals]
  exact Nat.lt_succ_of_lt (hf.past t parts hmem p hp)

theorem Made.spent {a bound : Nat} {keys : Finset Nat} (hr : Made c d r)
    (hp : Spent c a keys bound d) (hd : Arrives d key r d') : Spent c a keys bound d' := by
  have hlater : ∀ {key' h}, d'.headAt key' = some h → h.arrival ≤ a →
      key' ≠ key ∧ d.headAt key' = some h := by
    intro key' h hh hle
    rw [hd.heads] at hh
    split at hh
    · cases hh
      have : d.nextArrival ≤ a := hr.arrival ▸ hle
      exact absurd hp.arrived (by omega)
    · exact ⟨‹_›, hh⟩
  refine ⟨by rw [hd.arrivals]; exact Nat.lt_succ_of_lt hp.arrived, fun key' h hh hle => ?_,
    fun key' h hh harr => ?_, by rw [hd.log]; exact hp.within⟩
  · exact hp.known key' h (hlater hh hle).2 hle
  obtain ⟨hne, hh0⟩ := hlater hh (Nat.le_of_eq harr)
  have hlive := hp.live key' h hh0 harr
  have htok : tokens d' key' h.spec.length = tokens d key' h.spec.length := by
    refine Finset.biUnion_congr rfl fun i _ => ?_
    rw [hd.pieces, if_neg hne]
  have hsum : ∑ k ∈ keys, weightAt c a d' k ≤ ∑ k ∈ keys, weightAt c a d k := by
    refine Finset.sum_le_sum fun k _ => ?_
    cases hk : d'.headAt k with
    | none =>
      unfold weightAt
      rw [hk]
      exact Nat.zero_le _
    | some h' =>
      by_cases hle : h'.arrival ≤ a
      · obtain ⟨hne', hh'⟩ := hlater hk hle
        rw [weightAt_eq hk hle, weightAt_eq hh' hle, hd.weight_eq _ hne']
      unfold weightAt
      rw [hk]
      simp only [if_neg hle]
      exact Nat.zero_le _
  rw [hd.log, htok]
  omega

theorem keys_nodup (m : OrdMap Nat Reading) : (m.entries.map Prod.fst).Nodup :=
  List.pairwise_map.mpr (m.sorted.imp fun hlt => Nat.ne_of_lt hlt)

theorem Made.opens (hr : Made c d r) (hf : Fit c d) (hs : Sound d) (hd : Arrives d key r d') :
    Spent c d.nextArrival (insert key (d.reads.entries.map Prod.fst).toFinset)
      (worth c r.spec + d.reads.sum fun _ r' => worth c r'.spec) d' := by
  -- No request was of this arrival.
  have hfresh : (d.log.filter Event.submission).countP (Event.submits d.nextArrival) = 0 := by
    refine List.countP_eq_zero.mpr fun event hmem hsub => ?_
    cases event with
    | submitted t parts =>
      obtain ⟨p, hp, harr⟩ := List.any_eq_true.mp hsub
      have hlt := hf.past t parts hmem p hp
      simp only [decide_eq_true_eq] at harr
      omega
    | cancelled | settled | finished => cases hsub
  have hkeys : key ∉ (d.reads.entries.map Prod.fst).toFinset := by
    intro hmem
    obtain ⟨⟨k, r'⟩, hentry, rfl⟩ := List.mem_map.mp (List.mem_toFinset.mp hmem)
    exact nomatch hd.absent.symm.trans (OrdMap.mem_entries_iff.mp hentry)
  have hothers : ∑ k ∈ (d.reads.entries.map Prod.fst).toFinset,
      weightAt c d.nextArrival d' k ≤ d.reads.sum fun _ r' => worth c r'.spec := by
    rw [sum_toFinset _ (keys_nodup _), map_map]
    refine sum_le_sum fun e he => ?_
    have hhead := headAt_of_find (OrdMap.mem_entries_iff.mp he)
    have hne := hd.ne_of_head hhead
    have hle : e.2.head.arrival ≤ d.nextArrival := Nat.le_of_lt (hs.arrival e.1 _ hhead)
    show weightAt c d.nextArrival d' e.1 ≤ worth c e.2.spec
    rw [weightAt_eq (((hd.heads e.1).trans (if_neg hne)).trans hhead) hle, hd.weight_eq _ hne]
    exact hf.light e.1 _ hhead
  have hown : weightAt c d.nextArrival d' key ≤ worth c r.spec := by
    rw [weightAt_eq ((hd.heads key).trans (if_pos rfl)) (Nat.le_of_eq hr.arrival)]
    exact hr.weight_new hd
  refine ⟨by rw [hd.arrivals]; exact Nat.lt_succ_self _, fun key' h hh _ => ?_,
    fun key' h hh harri => ?_, by rw [hd.log, hfresh]; exact Nat.zero_le _⟩
  · rw [hd.heads] at hh
    split at hh
    · exact Finset.mem_insert.mpr (.inl ‹_›)
    obtain ⟨r', hr', -⟩ := headAt_eq_some.mp hh
    exact Finset.mem_insert_of_mem (List.mem_toFinset.mpr
      (List.mem_map.mpr ⟨(key', r'), OrdMap.mem_entries_iff.mpr hr', rfl⟩))
  rw [hd.log, hfresh, Finset.sum_insert hkeys]
  omega

end Arrivals

/-! ## Calls -/

section Calls

variable {c : ReaderSettings} {kept : Set (Nat × Finset Nat × Nat)} {d d' d'' : DirectReader}

def opening (c : ReaderSettings) (d : DirectReader) (key : Nat) (spec : ReadSpec) :
    Nat × Finset Nat × Nat :=
  (d.nextArrival, insert key (d.reads.entries.map Prod.fst).toFinset,
    worth c spec + d.reads.sum fun _ r => worth c r.spec)

theorem read_accounts (h : Sound d ∧ Told c d ∧ Accounts c kept d) (take : Nat → Bool) (key : Nat)
    (spec : ReadSpec) (waiter : Nat) : Safe (fun y => Accounts c kept y.2 ∧
      (y.1 = .ok false → Accounts c (insert (opening c d key spec) kept) y.2))
      (d.read c take key spec waiter) := by
  obtain ⟨hs, ht, ha⟩ := h
  unfold read
  split
  next r hr =>
    split
    · exact ⟨ha, nofun⟩
    split
    · exact ⟨ha, nofun⟩
    split
    · exact ⟨ha, nofun⟩
    split
    · exact ⟨ha, nofun⟩
    have hturn : Turn r { r with waiters := r.waiters ++ [waiter] } :=
      ⟨rfl, rfl, id, id, Nat.le_refl _⟩
    obtain ⟨he, hk⟩ := Eases.put (c := c) hr hturn (.same rfl) d.queue
    exact ⟨ha.keeps he hk, nofun⟩
  rename_i hnone
  split
  · exact ⟨ha, nofun⟩
  rename_i hali
  split
  · exact ⟨ha, nofun⟩
  split
  · exact ⟨ha, nofun⟩
  have hmade : Made c d {
      spec
      waiters := [waiter]
      pieces := piecesFrom c.requestBytes spec.length spec.length 0
      arrival := d.nextArrival } := by
    refine ⟨rfl, rfl, rfl, rfl, Nat.dvd_of_mod_eq_zero ?_, rfl⟩
    simp only [Bool.or_eq_true, not_or, decide_eq_true_eq, ne_eq, Decidable.not_not] at hali
    exact hali.2
  have hafter := arrives_safe ⟨hs, ht⟩ hnone (r := {
      spec
      waiters := [waiter]
      pieces := piecesFrom c.requestBytes spec.length spec.length 0
      arrival := d.nextArrival }) ⟨rfl, fun p hp => piecesFrom_fresh hp, rfl, rfl⟩
  have hd := Arrives.of_none hnone {
      spec
      waiters := [waiter]
      pieces := piecesFrom c.requestBytes spec.length spec.length 0
      arrival := d.nextArrival } (d.queue.insert d.nextArrival key)
  have hopens : Accounts c (insert (opening c d key spec) kept) _ :=
    ⟨hmade.fit ha.fit hd, fun x hx => hx.elim (fun heq => heq ▸ hmade.opens ha.fit hs hd)
      fun hx => hmade.spent (ha.spent x hx) hd⟩
  refine Sat.bind (startQueued_accounts ⟨hafter.1, hafter.2, hopens⟩ take) fun d' hd' => ?_
  exact ⟨⟨hd'.2.2.fit, fun x hx => hd'.2.2.spent x (.inr hx)⟩, fun _ => hd'.2.2⟩

theorem call_accounts (h : Sound d ∧ Told c d ∧ Accounts c kept d) (call : Call) :
    Safe (fun d' => Sound d' ∧ Told c d' ∧ Accounts c kept d') (d.call c call) := by
  have hkept : Safe (Accounts c kept) (d.call c call) := by
    cases call with
    | read take key spec waiter =>
      exact Sat.bind (read_accounts h take key spec waiter) fun _ hy => hy.1
    | withdraw key waiter => exact Sat.bind (withdraw_accounts h key waiter) fun _ hy => hy
    | poll take completions take' =>
      exact Sat.bind (poll_accounts h take take' completions) fun _ hy => hy
  exact ((call_safe ⟨h.1, h.2.1⟩ call).and hkept).imp fun _ hd' => ⟨hd'.1.1, hd'.1.2, hd'.2⟩

theorem Reachable.accounts (h : Reachable c d) : Sound d ∧ Told c d ∧ Accounts c ∅ d := by
  induction h with
  | start =>
    have htold := (Reachable.start (c := c)).told
    refine ⟨htold.1, htold.2, ⟨?_, fun x hx => hx.elim⟩⟩
    exact ⟨nofun, nofun, (fun _ _ _ hp => nomatch hp), nofun, nofun, nofun⟩
  | call call _ hcall ih => exact (call_accounts ih call).val hcall

def Later (c : ReaderSettings) : DirectReader → DirectReader → Prop :=
  Relation.ReflTransGen fun d d' => ∃ call, d.call c call = .ok d'

theorem Later.accounts (h : Later c d d') (ha : Sound d ∧ Told c d ∧ Accounts c kept d) :
    Sound d' ∧ Told c d' ∧ Accounts c kept d' := by
  induction h with
  | refl => exact ha
  | tail _ hcall ih =>
    obtain ⟨call, hcall⟩ := hcall
    exact (call_accounts ih call).val hcall

theorem countP_submits (a : Nat) (log : List Event) :
    log.countP (Event.submits a) = (log.filter Event.submission).countP (Event.submits a) := by
  rw [countP_filter]
  refine countP_congr fun event _ => ?_
  cases event <;> simp [Event.submits, Event.submission]

end Calls

/-- **Every read needs finitely many requests.** However the provider answers, from the call that
    began a read on:

    - the requests taken with a piece of it are never more than it and the reads then in flight
      weigh, a number of their lengths, the alignment, the request size and the retries;
    - and whenever a request ends, every read in it is stopping, or used a retry, or starts alone
      from now on (the request was of several pieces), or stands behind the request's first
      piece, which got at least a step further or is of a read that is stopping, and which is
      never of a read that arrived later. -/
theorem requests_bounded {c : ReaderSettings} {d d' d'' : DirectReader} {take : Nat → Bool}
    {key : Nat} {spec : ReadSpec} {waiter : Nat} (h : Reachable c d)
    (hread : d.read c take key spec waiter = .ok (.ok false, d')) (hlater : Later c d' d'') :
    d''.log.countP (Event.submits d.nextArrival) ≤
        worth c spec + (d.reads.sum fun _ r => worth c r.spec) ∧
      ∀ take' (completions : List (Nat × Int)) t result d₁ d₂ d₃ req, d''.startQueued c take' = .ok d₁ →
        completions.foldlM (harvest c) d₁ = .ok d₂ → d₂.requests.find? t = some req →
        harvest c d₂ (t, result) = .ok d₃ →
        ∀ m ∈ req.members, Headway c d₂ d₃ req.members m.key ∧
          ∀ m₀ h₀ h, req.members.head? = some m₀ → d₂.headAt m₀.key = some h₀ →
            d₂.headAt m.key = some h → h₀.arrival ≤ h.arrival := by
  have hcall : d.call c (.read take key spec waiter) = .ok d' := by
    show (do return (← d.read c take key spec waiter).2) = _
    rw [hread]
    rfl
  obtain ⟨hs, ht, ha⟩ := h.accounts
  have hafter := (h.call _ hcall).accounts
  have hope := ((read_accounts ⟨hs, ht, ha⟩ take key spec waiter).val hread).2 rfl
  have hend := hlater.accounts ⟨hafter.1, hafter.2.1, hope⟩
  constructor
  · rw [countP_submits]
    exact (hend.2.2.spent _ (Set.mem_insert _ _)).within
  intro take' completions t result d₁ d₂ d₃ req hstart hloop hreq hhar m hm
  have h1 := (startQueued_accounts hend take').val hstart
  have h2 := (Sat.foldlM (I := fun _ d => Sound d ∧ Told c d ∧ Accounts c _ d)
    (fun d completion _ h => harvest_accounts h completion) h1).val hloop
  have hv := (harvest_headway h2.1 h2.2.2.fit hreq result).val hhar
  refine ⟨hv.headway m hm, fun m₀ h₀ h hfirst hh0 hh => ?_⟩
  have hpair := (h2.1.ordered t req hreq).2
  rcases hmem : req.members with _ | ⟨m1, rest⟩
  · rw [hmem] at hm
    cases hm
  rw [hmem] at hfirst hpair hm
  cases hfirst
  rcases List.mem_cons.mp hm with rfl | hm
  · cases hh0.symm.trans hh
    exact Nat.le_refl _
  · exact ((List.pairwise_cons.mp hpair).1 m hm).2 h₀ h hh0 hh

def behindSpec : ReadSpec := { fd := 3, offset := 16, memory := 200, length := 4 }

def frontCall : Call :=
  .read (fun _ => false) 1 { fd := 3, offset := 0, memory := 100, length := 16 } 7

def shortCalls : List Call := [
  .poll (fun _ => true) [] (fun _ => true),
  .poll (fun _ => true) [(3, 4)] (fun _ => true),
  .poll (fun _ => true) [(4, 4)] (fun _ => true),
  .poll (fun _ => true) [(5, 4)] (fun _ => true),
  .poll (fun _ => true) [(6, 4)] (fun _ => true)]

theorem runCalls_later {c : ReaderSettings} {d' : DirectReader} :
    ∀ {calls : List Call} {d : DirectReader}, runCalls c d calls = some d' → Later c d d' := by
  intro calls
  induction calls with
  | nil =>
    intro d hrun
    cases hrun
    exact .refl
  | cons call calls ih =>
    intro d hrun
    unfold runCalls at hrun
    split at hrun
    next d1 hcall =>
      exact .head ⟨call, hcall⟩ (ih hrun)
    · cases hrun

/-- The read of one piece is in five requests, and may be in seventeen. -/
theorem requests_bounded_behind : ∃ d d' d'', Reachable stepped d ∧
    d.read stepped (fun _ => false) 2 behindSpec 7 = .ok (.ok false, d') ∧ Later stepped d' d'' ∧
    d''.log.countP (Event.submits d.nextArrival) = 5 ∧
    d''.log.countP (Event.submits d.nextArrival) ≤
      worth stepped behindSpec + (d.reads.sum fun _ r => worth stepped r.spec) ∧
    worth stepped behindSpec + (d.reads.sum fun _ r => worth stepped r.spec) = 17 := by
  have hrun : ((runCalls stepped {} [frontCall]).bind fun d =>
      (d.read stepped (fun _ => false) 2 behindSpec 7).toOption.bind fun y =>
        (runCalls stepped y.2 shortCalls).map fun d'' =>
          (y.1.toOption, d''.log.countP (Event.submits d.nextArrival),
            worth stepped behindSpec + d.reads.sum fun _ r => worth stepped r.spec)) =
      some (some false, 5, 17) := by decide +kernel
  simp only [Option.bind_eq_some_iff, Option.map_eq_some_iff, Prod.mk.injEq] at hrun
  obtain ⟨d, hd, ⟨answer, d'⟩, hread, d'', hlater, hans, hcount, hbound⟩ := hrun
  have hreach := runCalls_reachable .start hd
  have hans : answer = .ok false := by
    cases answer with
    | error => cases hans
    | ok => exact congrArg _ (Option.some.inj hans)
  subst hans
  have hread := ok_of_toOption hread
  have hlater := runCalls_later hlater
  exact ⟨d, d', d'', hreach, hread, hlater, hcount,
    (requests_bounded hreach hread hlater).1, hbound⟩

/-- A read that weighs four is in five requests, behind another; and of two requests of one read
    that fail in turn, the second moves nothing of it, uses no retry, and finds it set to start
    alone already. -/
theorem requests_beyond_own : (∃ d, Reachable stepped d ∧ worth stepped behindSpec = 4 ∧
      d.log.countP (Event.submits 1) = 5) ∧
    ∃ d d₁ d₂ d₃ h, Reachable paired d ∧ d.startQueued paired (fun _ => true) = .ok d₁ ∧
      harvest paired d₁ (2, -5) = .ok d₂ ∧ harvest paired d₂ (3, -5) = .ok d₃ ∧
      d₂.requests.find? 3 = some { members := [⟨1, 2⟩, ⟨1, 3⟩] } ∧
      d₂.headAt 1 = some h ∧ d₃.headAt 1 = some h ∧ h.alone = true ∧ h.stopping = false ∧
      (d₃.reads.find? 1).map (fun r => r.pieces.map Piece.done) = some [0, 0, 0, 0] := by
  constructor
  · have hrun : (runCalls stepped {} (frontCall ::
        .read (fun _ => false) 2 behindSpec 7 :: shortCalls)).map
          (fun d => d.log.countP (Event.submits 1)) = some 5 := by decide +kernel
    obtain ⟨d, hd, hcount⟩ := Option.map_eq_some_iff.mp hrun
    exact ⟨d, runCalls_reachable .start hd, by decide, hcount⟩
  have hrun : ((runCalls paired {} [frontCall, .poll (fun _ => true) [] (fun _ => true)]).bind
      fun d => (d.startQueued paired (fun _ => true)).toOption.bind fun d₁ =>
        (harvest paired d₁ (2, -5)).toOption.bind fun d₂ =>
          (harvest paired d₂ (3, -5)).toOption.map fun d₃ =>
            (d₂.requests.find? 3, d₂.headAt 1, d₃.headAt 1,
              (d₃.reads.find? 1).map (fun r => r.pieces.map Piece.done))) = some
      (some { members := [⟨1, 2⟩, ⟨1, 3⟩] }, some {
          spec := { fd := 3, offset := 0, memory := 100, length := 16 }
          waiters := [7], pieces := [], arrival := 0, queued := true, alone := true },
        some {
          spec := { fd := 3, offset := 0, memory := 100, length := 16 }
          waiters := [7], pieces := [], arrival := 0, queued := true, alone := true },
        some [0, 0, 0, 0]) := by decide +kernel
  simp only [Option.bind_eq_some_iff, Option.map_eq_some_iff, Prod.mk.injEq] at hrun
  obtain ⟨d, hd, d₁, h1, d₂, h2, d₃, h3, hreq, hh2, hh3, hdone⟩ := hrun
  exact ⟨d, d₁, d₂, d₃, _, runCalls_reachable .start hd, ok_of_toOption h1, ok_of_toOption h2,
    ok_of_toOption h3, hreq, hh2, hh3, rfl, rfl, Option.map_eq_some_iff.mpr hdone⟩

end JitLlm.Providers.DirectReader
