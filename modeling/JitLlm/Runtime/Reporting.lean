import JitLlm.Runtime.Conversation
import Mathlib.Data.List.TakeWhile

/-!
# Every visible token is reported once

What `Generate` gives to `on_tokens`: one report for the token of the prefill's logits and one for
each step of the loop. A report continues where the one before ended, since the count reported is
what was visible then; a step keeps at least one token, so leaving out the stop token never shows
less than before.
-/

namespace JitLlm.Runtime.Llm

open List

variable {F S σ α β : Type} (x : Config) (m : Runner F S σ α β) (options : GenerateOptions S)
    {ts : List Int} {sampling : Option S} {g : Decode F} {out : Generation F}
    {onTokens : Nat → List Int → Bool}

/-- A call of `report`: the tokens generated since the one before, the span from `start` to `stop`
    given to `on_tokens`, and its answer. -/
structure Report where
  kept : List Int
  start : Nat
  stop : Nat
  span : List Int
  goOn : Bool
deriving DecidableEq

/-- What `report` does with the tokens so far. -/
def reportOf (kept : List Int) (out : Generation F) (calls reported : Nat) : Report where
  kept := kept
  start := reported
  stop := visible options out
  span := (out.tokens.drop reported).take (visible options out - reported)
  goOn := (report options out calls reported).1

/-- The generation a step leaves for its report, as `decoded` has it. -/
def grown (r : Stepped F) : Generation F :=
  pushKept x options { r.out with steps := r.out.steps + 1 } r.kept

def decodeReports (sampling : Option S) (s : σ) (g : Decode F) : List Report :=
  if _hgo : g.out.stopped = false ∧ g.out.cancelled = false ∧
      g.out.tokens.length < options.maxTokens then
    if g.pos + 1 ≥ x.context then []
    else
      match hstep : decodeStep x m options sampling s g.out g.all g.pos with
      | (.error _, _) => []
      | (.ok r, s') =>
        have : g.out.tokens.length < (decoded x options g r).out.tokens.length :=
          decoded_grows x (decodeStep_tokens x m hstep)
        reportOf options r.kept (grown x options r) g.calls g.reported ::
          decodeReports sampling s' (decoded x options g r)
  else []
termination_by options.maxTokens - g.out.tokens.length

/-- The reports of `Generate`. -/
def generateReports (l : Llm) (s : σ) (last : List F) (out : Generation F) : List Report :=
  if last.isEmpty then []
  else
    let sampling := options.sampling.filter m.samples
    match m.choose sampling options.seed last l.history.length with
    | .error _ => []
    | .ok first =>
      let g := begun x options out l.history last first
      reportOf options [first] g.out 0 0 :: decodeReports x m options sampling s g

/-! ## Tokens up to a stop -/

def upToStop : List Int → List Int
  | [] => []
  | t :: ts => if isStop x options t then [t] else t :: upToStop ts

def hasStop (ts : List Int) : Bool := ts.any (isStop x options)

theorem upToStop_append (ts us : List Int) : upToStop x options (ts ++ us) =
    if hasStop x options ts then upToStop x options ts else ts ++ upToStop x options us := by
  induction ts with
  | nil => simp [hasStop]
  | cons t ts ih =>
    rw [cons_append, upToStop, ih, upToStop, hasStop, hasStop, any_cons]
    by_cases ht : isStop x options t = true
    · simp [ht]
    · by_cases hts : ts.any (isStop x options) = true <;> simp [ht, hts]

theorem upToStop_of_not (h : hasStop x options ts = false) : upToStop x options ts = ts := by
  have := upToStop_append x options ts []
  simpa [h, upToStop] using this

theorem upToStop_dropLast (h : hasStop x options ts = true) :
    (upToStop x options ts).dropLast = ts.takeWhile (fun t => !isStop x options t) := by
  induction ts with
  | nil => simp [hasStop] at h
  | cons t ts ih =>
    cases ht : isStop x options t with
    | true => simp [upToStop, ht]
    | false =>
      have hts : hasStop x options ts = true := by simpa [hasStop, ht] using h
      have hne : upToStop x options ts ≠ [] := by
        cases ts with
        | nil => simp [hasStop] at hts
        | cons u us => unfold upToStop; split <;> simp
      rw [upToStop, if_neg (by simp [ht]), dropLast_cons_of_ne_nil hne, ih hts]
      simp [ht]

theorem upToStop_length_le (ts : List Int) : (upToStop x options ts).length ≤ ts.length := by
  induction ts with
  | nil => exact Nat.le_refl _
  | cons t ts ih =>
    unfold upToStop
    split
    · simp
    · simpa using ih

theorem pushKept_spec (kept : List Int) : ∀ out : Generation F,
    (pushKept x options out kept).tokens = out.tokens ++ upToStop x options kept ∧
      (pushKept x options out kept).stopped = (out.stopped || hasStop x options kept) := by
  induction kept with
  | nil =>
    intro out
    simp [pushKept, upToStop, hasStop]
  | cons t ts ih =>
    intro out
    unfold pushKept upToStop
    cases ht : isStop x options t with
    | true => simp [hasStop, ht]
    | false =>
      have := ih { out with tokens := out.tokens ++ [t] }
      simpa [hasStop, ht] using this

/-! ## What is reported along a run -/

variable {x m options}

/-- Where the loop stands after generating `gen`: the tokens are those up to a stop token, and
    what was reported is what is visible. -/
structure Shown (x : Config) (options : GenerateOptions S) (gen : List Int) (g : Decode F) :
    Prop where
  tokens : g.out.tokens = upToStop x options gen
  stopped : g.out.stopped = hasStop x options gen
  fits : g.out.tokens.length ≤ options.maxTokens ∨ options.maxTokens = 0
  reported : g.reported = visible options g.out

def KeepsWithin (m : Runner F S σ α β) : Prop :=
  ∀ sampling seed s all pos left kept s', 0 < left →
    m.specStep sampling seed s all pos left = (.ok kept, s') → kept.accepted.length + 1 ≤ left

theorem decodeStep_kept (hm : KeepsWithin m) {s s' : σ}
    {r : Stepped F} (hlt : g.out.tokens.length < options.maxTokens)
    (h : decodeStep x m options sampling s g.out g.all g.pos = (.ok r, s')) :
    g.out.tokens.length + r.kept.length ≤ options.maxTokens ∧ r.out.tokens = g.out.tokens ∧
      r.out.stopped = g.out.stopped := by
  unfold decodeStep at h
  split at h
  · split at h
    next => cases h
    rename_i kept s1 hspec
    cases h
    have := hm _ _ _ _ _ _ _ _ (by omega) hspec
    refine ⟨?_, rfl, rfl⟩
    simp only [Stepped.kept, length_append, length_singleton]
    omega
  split at h
  · cases h
  split at h
  · cases h
  cases h
  refine ⟨?_, rfl, rfl⟩
  simp only [Stepped.kept, length_append, length_singleton, length_nil]
  omega

theorem visible_of_not (h : out.stopped = false) :
    visible options out = min out.tokens.length options.maxTokens := by
  simp [visible, h]

theorem visible_of_stopped (h : out.stopped = true)
    (hfits : out.tokens.length ≤ options.maxTokens) :
    visible options out = out.tokens.length - 1 := by
  unfold visible
  rw [Nat.min_eq_left hfits, h]
  dsimp only
  split
  · rfl
  next hn =>
  simp only [Bool.true_and, beq_self_eq_true, decide_eq_true_eq] at hn
  omega

theorem visible_le_max (out : Generation F) : visible options out ≤ options.maxTokens := by
  unfold visible
  dsimp only
  split <;> omega

theorem Shown.step (hm : KeepsWithin m) (hon : options.onTokens = some onTokens) {s s' : σ}
    {gen : List Int} {r : Stepped F} (h : Shown x options gen g) (hst : g.out.stopped = false)
    (hlt : g.out.tokens.length < options.maxTokens)
    (hstep : decodeStep x m options sampling s g.out g.all g.pos = (.ok r, s')) :
    Shown x options (gen ++ r.kept) (decoded x options g r) ∧
      (decoded x options g r).out.tokens = (grown x options r).tokens ∧
      g.out.tokens <+: (grown x options r).tokens ∧
      g.reported = g.out.tokens.length ∧ g.reported ≤ visible options (grown x options r) ∧
      visible options (decoded x options g r).out = visible options (grown x options r) := by
  obtain ⟨hfit, htok, hstop⟩ := decodeStep_kept hm hlt hstep
  obtain ⟨hpush, hpus⟩ := pushKept_spec x options r.kept { r.out with steps := r.out.steps + 1 }
  have hnone : hasStop x options gen = false := by rw [← h.stopped]; exact hst
  have hgen : g.out.tokens = gen := h.tokens.trans (upToStop_of_not x options hnone)
  have hrep : g.reported = g.out.tokens.length := by
    rw [h.reported, visible_of_not hst]
    omega
  have hgrown : (grown x options r).tokens = g.out.tokens ++ upToStop x options r.kept := by
    rw [← htok]
    exact hpush
  have hgstop : (grown x options r).stopped = hasStop x options r.kept := by
    rw [grown, hpus, hstop, hst, Bool.false_or]
  have hlen : (grown x options r).tokens.length ≤ options.maxTokens := by
    have := upToStop_length_le x options r.kept
    rw [hgrown, length_append]
    omega
  have hmore : g.out.tokens.length < (grown x options r).tokens.length := by
    exact decoded_grows x (g := g) htok
  have hvis : g.reported ≤ visible options (grown x options r) := by
    cases hs : (grown x options r).stopped with
    | true =>
      rw [visible_of_stopped hs hlen]
      omega
    | false =>
      rw [visible_of_not hs]
      omega
  refine ⟨⟨?_, ?_, Or.inl hlen, ?_⟩, rfl, hgrown ▸ prefix_append _ _, hrep, hvis, rfl⟩
  · show (grown x options r).tokens = _
    rw [hgrown, upToStop_append, hnone, hgen]
    rfl
  · show (grown x options r).stopped = _
    rw [hgstop]
    simp only [hasStop, any_append] at hnone ⊢
    rw [hnone, Bool.false_or]
  show (report options (grown x options r) g.calls g.reported).2 = _
  simp only [report, hon]
  rfl

/-- A list of reports that continue one another from `reported` on; none follows one that was
    answered with false. -/
structure Contiguous (log : List Report) : Prop where
  ordered : ∀ r ∈ log, r.start ≤ r.stop
  last : ∀ r ∈ log.dropLast, r.goOn = true

theorem decodeReports_spec (hm : KeepsWithin m)
    (hon : options.onTokens = some onTokens) (sampling : Option S) : ∀ (n : Nat) (s : σ)
    (gen : List Int) (g : Decode F), options.maxTokens - g.out.tokens.length = n →
      Shown x options gen g →
      let log := decodeReports x m options sampling s g
      let g' := (decode x m options sampling s g).2.1
      Contiguous log ∧ (g.out.cancelled = true → log = []) ∧
        Shown x options (gen ++ (log.map Report.kept).flatten) g' ∧
        g.out.tokens.take g.reported ++ (log.map Report.span).flatten =
          g'.out.tokens.take (visible options g'.out) := by
  intro n
  induction n using Nat.strongRecOn with
  | ind n ih =>
    intro s gen g hn h
    have hbase : Contiguous [] ∧ (g.out.cancelled = true → ([] : List Report) = []) ∧
        Shown x options (gen ++ (([] : List Report).map Report.kept).flatten) g ∧
        g.out.tokens.take g.reported ++ (([] : List Report).map Report.span).flatten =
          g.out.tokens.take (visible options g.out) := by
      refine ⟨⟨by simp, by simp⟩, fun _ => rfl, by simpa using h, ?_⟩
      simp [h.reported]
    unfold decodeReports decode
    dsimp only
    split
    next hgo =>
      split
      next => exact hbase
      split
      next hstep =>
        try rw [hstep]
        exact hbase
      rename_i r s' hstep
      try rw [hstep]
      try dsimp only
      obtain ⟨hnext, htok, hpre, hrep, hvis, hsame⟩ := h.step hm hon hgo.1 hgo.2.2 hstep
      have hgrow : g.out.tokens.length < (decoded x options g r).out.tokens.length :=
        decoded_grows x (decodeStep_tokens x m hstep)
      obtain ⟨hcont, hcan, hshown, hall⟩ :=
        ih _ (by omega) s' (gen ++ r.kept) (decoded x options g r) rfl hnext
      refine ⟨⟨?_, ?_⟩, ?_, ?_, ?_⟩
      · intro r' hr'
        rcases List.mem_cons.mp hr' with rfl | hr'
        · exact hvis
        · exact hcont.ordered r' hr'
      · intro r' hr'
        rcases hlog : decodeReports x m options sampling s' (decoded x options g r) with _ | ⟨a, as⟩
        · rw [hlog] at hr'
          simp at hr'
        rw [hlog, dropLast_cons_cons] at hr'
        rcases List.mem_cons.mp hr' with rfl | hr'
        · -- the loop went on, so the callback had not cancelled it
          by_contra hno
          have hc : (decoded x options g r).out.cancelled = true := by
            simpa [reportOf, decoded, grown] using hno
          rw [hcan hc] at hlog
          cases hlog
        · exact hcont.last r' (hlog ▸ hr')
      · intro hc
        rw [hgo.2.1] at hc
        cases hc
      · simpa [reportOf] using hshown
      rw [← hall]
      simp only [map_cons, flatten_cons, ← append_assoc]
      congr 1
      rw [htok, hnext.reported, hsame, hrep, take_length, reportOf]
      obtain ⟨more, hmore⟩ := hpre
      rw [hrep] at hvis
      rw [← hmore, drop_left, take_append, take_of_length_le hvis]
    next => exact hbase

theorem upToStop_getLast (h : hasStop x options ts = true) {t : Int}
    (hlast : (upToStop x options ts).getLast? = some t) : isStop x options t = true := by
  induction ts with
  | nil => simp [hasStop] at h
  | cons u us ih =>
    cases hu : isStop x options u with
    | true =>
      simp only [upToStop, hu, if_true, getLast?_singleton, Option.some.injEq] at hlast
      exact hlast ▸ hu
    | false =>
      have hus : hasStop x options us = true := by simpa [hasStop, hu] using h
      apply ih hus
      rw [upToStop, if_neg (by simp [hu])] at hlast
      cases hrest : upToStop x options us with
      | nil =>
        cases us with
        | nil => simp [hasStop] at hus
        | cons v vs =>
          unfold upToStop at hrest
          split at hrest <;> cases hrest
      | cons v vs =>
        rw [hrest, getLast?_cons_cons] at hlast
        exact hlast

theorem Shown.visible {gen : List Int} (h : Shown x options gen g) :
    g.out.tokens.take (visible options g.out) <+: gen.takeWhile (fun t => !isStop x options t) ∧
      g.out.tokens.take (visible options g.out) =
        if g.out.stopped then (g.out.tokens.take options.maxTokens).dropLast
        else g.out.tokens.take options.maxTokens := by
  cases hst : g.out.stopped with
  | false =>
    have hnone : hasStop x options gen = false := by rw [← h.stopped]; exact hst
    have hvis : g.out.tokens.take (Llm.visible options g.out) =
        g.out.tokens.take options.maxTokens := by
      rw [visible_of_not hst, Nat.min_comm, ← take_take, take_length]
    refine ⟨?_, by rw [hvis]; rfl⟩
    rw [hvis, h.tokens, upToStop_of_not x options hnone]
    have hall : gen.takeWhile (fun t => !isStop x options t) = gen := by
      rw [takeWhile_eq_self_iff]
      intro t ht
      simp only [hasStop, any_eq_false] at hnone
      simpa using hnone t ht
    rw [hall]
    exact take_prefix _ _
  | true =>
    have hsome : hasStop x options gen = true := by rw [← h.stopped]; exact hst
    rcases h.fits with hfits | hzero
    · rw [visible_of_stopped hst hfits, ← dropLast_eq_take, h.tokens,
        upToStop_dropLast x options hsome]
      refine ⟨prefix_rfl, ?_⟩
      rw [if_pos rfl, ← h.tokens, take_of_length_le hfits, h.tokens,
        upToStop_dropLast x options hsome]
    have hz : Llm.visible options g.out = 0 := by
      have : Llm.visible options g.out ≤ options.maxTokens := visible_le_max g.out
      omega
    rw [hz, hzero]
    simp

/-- Every visible token is reported once, in order, whatever the steps keep and the callback
    answers: the spans are what `Generate` returns less the stop token, none has a stop token or
    what follows one, and none follows an answer of false. -/
theorem reports_exact (x : Config) (m : Runner F S σ α β) (options : GenerateOptions S)
    (l : Llm) (s : σ) (last : List F) (out : Generation F) (onTokens : Nat → List Int → Bool)
    (hon : options.onTokens = some onTokens) (hm : KeepsWithin m) :
    let log := generateReports x m options l s last out
    let shown := (log.map Report.span).flatten
    (∀ r ∈ log, r.start ≤ r.stop) ∧ (∀ r ∈ log.dropLast, r.goOn = true) ∧
    shown.length ≤ options.maxTokens ∧
    shown <+: (log.map Report.kept).flatten.takeWhile (fun t => !isStop x options t) ∧
    ∀ out' l' s', generate x m l s last options out = (.ok (), out', l', s') →
      shown = (if out'.stopped then out'.tokens.dropLast else out'.tokens) ∧
      out'.tokens.length ≤ options.maxTokens ∧
      (out'.stopped = true → ∀ t, out'.tokens.getLast? = some t → isStop x options t = true) := by
  unfold generateReports generate
  split
  next => simp
  dsimp only
  split
  next hfirst => simp [hfirst]
  rename_i first hfirst
  -- both matches are on this answer
  try rw [hfirst]
  try dsimp only
  have hbegun : Shown x options [first] (begun x options out l.history last first) := by
    refine ⟨?_, ?_, by have := Nat.eq_zero_or_pos options.maxTokens; simp [begun]; omega, ?_⟩
    · simp only [begun, upToStop]
      split <;> rfl
    · simp [begun, hasStop]
    simp only [begun, report, hon]
    rfl
  obtain ⟨hcont, hcan, hshown, hall⟩ := decodeReports_spec hm hon
    (options.sampling.filter m.samples) _ s [first] _ rfl hbegun
  obtain ⟨hpre, heq⟩ := hshown.visible
  generalize hg : begun x options out l.history last first = g at *
  generalize hlog : decodeReports x m options (options.sampling.filter m.samples) s g = log at *
  have hspans : ((reportOf options [first] g.out 0 0 :: log).map Report.span).flatten =
      ((decode x m options (options.sampling.filter m.samples) s g).2.1.out.tokens.take
        (visible options (decode x m options (options.sampling.filter m.samples) s g).2.1.out)) := by
    rw [← hall, hbegun.reported]
    simp [reportOf]
  rw [hspans]
  refine ⟨?_, ?_, ?_, hpre, ?_⟩
  · intro r hr
    rcases List.mem_cons.mp hr with rfl | hr
    · exact Nat.zero_le _
    · exact hcont.ordered r hr
  · intro r hr
    rcases log with _ | ⟨a, as⟩
    · simp at hr
    rcases List.mem_cons.mp hr with rfl | hr
    · by_contra hno
      have hc : g.out.cancelled = true := by
        rw [← hg] at hno ⊢
        simpa [reportOf, begun, report, hon, visible] using hno
      exact absurd (hcan hc) (by simp)
    · exact hcont.last r hr
  · rw [length_take]
    exact (Nat.min_le_left _ _).trans (visible_le_max _)
  intro out' l' s' hgen
  rw [heq]
  cases hdec : decode x m options (options.sampling.filter m.samples) s g with
  | mk answer rest =>
    rw [hdec] at hgen hshown
    rcases answer with e | u
    · simp at hgen
    dsimp only at hgen hshown ⊢
    split at hgen
    · simp at hgen
    cases hgen
    refine ⟨rfl, ?_, ?_⟩
    · exact length_take_le _ _
    intro hst t ht
    have hsome : hasStop x options ([first] ++ (log.map Report.kept).flatten) = true := by
      rw [← hshown.stopped]
      exact hst
    rcases hshown.fits with hfits | hzero
    · rw [trimmed, take_of_length_le hfits, hshown.tokens] at ht
      exact upToStop_getLast hsome ht
    · simp [trimmed, hzero] at ht

theorem reports_exact_small : KeepsWithin plainRunner ∧ ((generateReports smallConfig plainRunner
      { maxTokens := 8, onTokens := some fun _ _ => true } {} [] [1] {}).map
        Report.span).flatten.length ≤ 8 :=
  have hm : KeepsWithin plainRunner := by
    intro _ _ _ _ _ _ _ _ hleft h
    cases h
    exact hleft
  ⟨hm, (reports_exact smallConfig plainRunner _ {} [] [1] {} _ rfl hm).2.2.1⟩

end JitLlm.Runtime.Llm
