import JitLlm.Runtime.Reporting

/-!
# Greedy speculation changes nothing but speed

`SpecStep` of the two models that draft, over a target whose logits depend on the tokens up to a
row. A verify accepts drafts while they are what the target would choose, and then adds the
target's own choice: what a step keeps is a run of the target's greedy tokens, at least one and no
more than are left. The loop that keeps such runs, of whatever lengths, ends where the loop that
keeps one token at a time does: at the first stop token, or with `max_tokens`.
-/

namespace JitLlm.Runtime.Llm

open List

variable {F S σ α β : Type}

/-- The target: the logits after a sequence of tokens, and how a token is chosen from them. -/
structure Target (F S : Type) where
  row : List Int → List F
  -- `engine::Argmax`: an index.
  argmax : List F → Nat
  -- `execution::Sample` and `execution::VerifyDraft`, by the parameters, the seed and the position.
  sample : S → Nat → List F → Nat → Except String Int
  verifyDraft : S → Nat → List F → Int → Nat → Except String (Bool × Int)

namespace Target

variable (t : Target F S)

def choose (sampling : Option S) (seed : Nat) (row : List F) (position : Nat) :
    Except String Int :=
  match sampling with
  | none => .ok (t.argmax row)
  | some p => t.sample p seed row position

/-- `Llm::Keep`: whether a draft stays, and the token instead. -/
def keep (sampling : Option S) (seed : Nat) (row : List F) (draft : Int) (position : Nat) :
    Except String (Bool × Int) :=
  match sampling with
  | none => .ok ((t.argmax row : Int) == draft, t.argmax row)
  | some p => t.verifyDraft p seed row draft position

/-- A verify's rows: the anchor ends `all`, and each row after it follows one more draft. -/
def verify (all drafts : List Int) (rows : Nat) : List (List F) :=
  (List.range rows).map fun i => t.row (all ++ drafts.take i)

end Target

/-- The loop over a verify's drafts from row `m` on; -1 when all were kept. -/
def keepLoop (keep : Nat → Int → Except String (Bool × Int)) (m : Nat) :
    List Int → Except String (Nat × Int)
  | [] => .ok (m, -1)
  | d :: ds =>
    match keep m d with
    | .error e => .error e
    | .ok (true, _) => keepLoop keep (m + 1) ds
    | .ok (false, instead) => .ok (m, instead)

/-- The part both `SpecStep`s share: the drafts kept, and the next token. -/
def accepted (keep : Nat → Int → Except String (Bool × Int)) (choose : Nat → Except String Int)
    (drafts : List Int) : Except String (Nat × Int) :=
  match keepLoop keep 0 drafts with
  | .error e => .error e
  | .ok (m, next) =>
    if next < 0 then
      match choose m with
      | .error e => .error e
      | .ok chosen => .ok (m, chosen)
    else .ok (m, next)

def resize (n : Nat) (l : List Int) : List Int := l.take n ++ List.replicate (n - l.length) 0

/-! ## DeepSeek's step -/

inductive Dsv4Window where
  | full
  | ring
deriving DecidableEq

/-- What `SpecStep` reads of the options and of the state's layout. -/
structure Dsv4Options where
  draftRows : Nat
  maxVerify : Nat
  context : Nat
  window : Dsv4Window
  rawCells : Nat

namespace Dsv4Options

def pad (n tile : Nat) : Nat := (n + tile - 1) / tile * tile

def widthsAt (o : Dsv4Options) (total : Nat) : Nat × Nat × Nat :=
  let comp := fun ratio => max (pad (total / ratio) 256) 256
  (match o.window with
    | .ring => o.rawCells
    | .full => min o.rawCells (max 256 (pad (min total o.rawCells) 256)),
    comp 4, comp 128)

/-- `Dsv4SameWidths`. -/
def sameWidths (o : Dsv4Options) (past rows : Nat) : Bool :=
  rows != 0 && o.widthsAt (past + 1) == o.widthsAt (past + rows)

def narrow (o : Dsv4Options) (pos : Nat) : Nat → Nat
  | 0 => 0
  | rows + 1 => if rows + 1 > 1 && !o.sameWidths pos (rows + 1) then o.narrow pos rows else rows + 1

def rows (o : Dsv4Options) (pos left : Nat) : Nat :=
  o.narrow pos (min (min (o.draftRows + 1) o.maxVerify) (min left (o.context - pos)))

end Dsv4Options

/-- DeepSeek's `SpecStep`; `draft` is what the drafter proposes after the tokens so far. -/
def dsv4SpecStep (t : Target F S) (o : Dsv4Options) (draft : σ → List Int → List Int × σ)
    (sampling : Option S) (seed : Nat) (s : σ) (all : List Int) (pos left : Nat) :
    Except String (Kept F) × σ :=
  let rows := o.rows pos left
  let (device, s) := draft s all
  let verified := t.verify all device rows
  let drafts := resize (rows - 1) device
  let row := fun i => verified.getD i []
  match accepted (fun m d => t.keep sampling seed (row m) d (pos + m + 1))
      (fun m => t.choose sampling seed (row m) (pos + m + 1)) drafts with
  | .error e => (.error e, s)
  | .ok (m, next) =>
    (.ok { accepted := drafts.take m, next, logits := verified.take (m + 1), drafted := rows - 1 }, s)

/-! ## Qwen's step -/

structure Qwen38Options where
  draftRows : Nat
  context : Nat

/-- Qwen's `SpecStep`: greedy it takes the verify's own argmaxes. -/
def qwen38SpecStep (t : Target F S) (o : Qwen38Options) (draft : σ → List Int → List Int × σ)
    (sampling : Option S) (seed : Nat) (s : σ) (all : List Int) (pos left : Nat) :
    Except String (Kept F) × σ :=
  if pos + o.draftRows > o.context then (.error "the drafts would pass the context", s)
  else
    let (device, s) := draft s all
    let rows := min (device.length + 1) (min left (o.context - pos))
    let drafts := resize (rows - 1) device
    let verified := t.verify all drafts rows
    let row := fun i => verified.getD i []
    let argmax := fun i => (t.argmax (row i) : Int)
    match (match sampling with
      | none => accepted (fun m d => .ok (argmax m == d, argmax m)) (fun m => .ok (argmax m)) drafts
      | some _ => accepted (fun m d => t.keep sampling seed (row m) d (pos + m + 1))
          (fun m => t.choose sampling seed (row m) (pos + m + 1)) drafts) with
    | .error e => (.error e, s)
    | .ok (m, next) =>
      (.ok { accepted := drafts.take m, next, logits := verified.take (m + 1)
             drafted := rows - 1 }, s)

/-! ## What a step keeps -/

/-- The target's greedy tokens after `all`, `n` of them. -/
def greedy (t : Target F S) (all : List Int) : Nat → List Int
  | 0 => []
  | n + 1 => (t.argmax (t.row all) : Int) :: greedy t (all ++ [(t.argmax (t.row all) : Int)]) n

theorem greedy_add (t : Target F S) (k n : Nat) : ∀ all : List Int,
    greedy t all (k + n) = greedy t all k ++ greedy t (all ++ greedy t all k) n := by
  induction k with
  | zero => intro all; simp [greedy]
  | succ k ih =>
    intro all
    rw [Nat.succ_add]
    simp [greedy, ih]

@[simp] theorem greedy_length (t : Target F S) (n : Nat) : ∀ all : List Int,
    (greedy t all n).length = n := by
  induction n with
  | zero => intro all; rfl
  | succ n ih => intro all; simp [greedy, ih]

theorem keepLoop_greedy (t : Target F S) (choose : Nat → Int) (drafts : List Int) :
    ∀ (m : Nat) (all : List Int),
      (∀ i ≤ drafts.length, choose (m + i) = t.argmax (t.row (all ++ drafts.take i))) →
      ∃ j next, j ≤ drafts.length ∧
        keepLoop (fun m d => .ok (choose m == d, choose m)) m drafts = .ok (m + j, next) ∧
        (next = -1 ∧ j = drafts.length ∨ next = choose (m + j)) ∧
        drafts.take j = greedy t all j := by
  induction drafts with
  | nil =>
    intro m all _
    exact ⟨0, -1, Nat.le_refl _, rfl, Or.inl ⟨rfl, rfl⟩, rfl⟩
  | cons d ds ih =>
    intro m all hrows
    have h0 : choose m = t.argmax (t.row all) := by simpa using hrows 0 (Nat.zero_le _)
    unfold keepLoop
    by_cases hd : choose m = d
    · simp only [hd, beq_self_eq_true]
      have hrows' : ∀ i ≤ ds.length, choose (m + 1 + i) = t.argmax (t.row (all ++ [d] ++ ds.take i)) := by
        intro i hi
        have := hrows (i + 1) (by simpa using hi)
        simpa [Nat.add_assoc, Nat.add_comm 1 i] using this
      obtain ⟨j, next, hj, hloop, hnext, hkept⟩ := ih (m + 1) (all ++ [d]) hrows'
      refine ⟨j + 1, next, by simpa using hj, ?_, ?_, ?_⟩
      · rw [hloop, Nat.add_assoc, Nat.add_comm 1 j]
      · rcases hnext with ⟨hn, hall⟩ | hn
        · exact Or.inl ⟨hn, by simp [hall]⟩
        · exact Or.inr (by rw [hn, Nat.add_assoc, Nat.add_comm 1 j])
      · rw [take_succ_cons, greedy, ← h0, hd, hkept]
    have hne : (choose m == d) = false := by simpa using hd
    simp only [hne]
    exact ⟨0, choose m, Nat.zero_le _, rfl, Or.inr rfl, rfl⟩

theorem accepted_greedy (t : Target F S) (choose : Nat → Int) (all drafts : List Int)
    (hrows : ∀ i ≤ drafts.length, choose i = t.argmax (t.row (all ++ drafts.take i))) :
    ∃ m next, m ≤ drafts.length ∧
      accepted (fun m d => .ok (choose m == d, choose m)) (fun m => .ok (choose m)) drafts =
        .ok (m, next) ∧ drafts.take m ++ [next] = greedy t all (m + 1) := by
  obtain ⟨j, next, hj, hloop, hnext, hkept⟩ :=
    keepLoop_greedy t choose drafts 0 all (by simpa using hrows)
  have hlast : ∀ m, m ≤ drafts.length → drafts.take m = greedy t all m →
      drafts.take m ++ [choose m] = greedy t all (m + 1) := by
    intro m hm hk
    rw [greedy_add, hrows m hm, hk]
    rfl
  have hpos : ∀ m ≤ drafts.length, ¬ choose m < 0 := by
    intro m hm
    rw [hrows m hm]
    omega
  refine ⟨j, choose j, hj, ?_, hlast j hj hkept⟩
  unfold accepted
  rw [hloop]
  rcases hnext with ⟨hn, -⟩ | hn
  · simp [hn]
  · simp [hn, hpos j hj]

theorem resize_length (n : Nat) (l : List Int) : (resize n l).length = n := by
  simp only [resize, length_append, length_take, length_replicate]
  omega

theorem verify_getD (t : Target F S) (all drafts : List Int) {rows i : Nat} (h : i < rows) :
    (t.verify all drafts rows).getD i [] = t.row (all ++ drafts.take i) := by
  simp [Target.verify, getD_eq_getElem?_getD, h]

namespace Dsv4Options

theorem narrow_le (o : Dsv4Options) (pos : Nat) (rows : Nat) :
    o.narrow pos rows ≤ rows ∧ (0 < rows → 0 < o.narrow pos rows) := by
  induction rows with
  | zero => exact ⟨Nat.le_refl _, fun h => h⟩
  | succ rows ih =>
    unfold narrow
    split
    next hc =>
      simp only [gt_iff_lt, Bool.and_eq_true, decide_eq_true_eq] at hc
      exact ⟨by omega, fun _ => ih.2 (by omega)⟩
    next => exact ⟨Nat.le_refl _, fun _ => Nat.succ_pos _⟩

end Dsv4Options

/-- A speculative step of greedy decoding: it does not fail, and keeps a run of the target's
    greedy tokens, within those left. -/
def StepsGreedily (t : Target F S)
    (specStep : Option S → Nat → σ → List Int → Nat → Nat → Except String (Kept F) × σ)
    (usable : Nat) : Prop :=
  ∀ seed s all pos left, pos < usable → 0 < left →
    ∃ kept s', specStep none seed s all pos left = (.ok kept, s') ∧
      kept.accepted.length + 1 ≤ left ∧
      kept.accepted ++ [kept.next] = greedy t all (kept.accepted.length + 1)

theorem dsv4_stepsGreedily (t : Target F S) (o : Dsv4Options) (hver : 0 < o.maxVerify)
    (draft : σ → List Int → List Int × σ) (hdraft : ∀ s all, (draft s all).1.length = o.draftRows) :
    StepsGreedily t (dsv4SpecStep t o draft) o.context := by
  intro seed s all pos left hpos hleft
  have hrows := o.narrow_le pos (min (min (o.draftRows + 1) o.maxVerify) (min left (o.context - pos)))
  have hle : o.rows pos left ≤ left ∧ o.rows pos left ≤ o.draftRows + 1 ∧ 0 < o.rows pos left := by
    unfold Dsv4Options.rows
    omega
  have hlen := hdraft s all
  unfold dsv4SpecStep
  generalize draft s all = d at *
  obtain ⟨device, s'⟩ := d
  have hres : resize (o.rows pos left - 1) device = device.take (o.rows pos left - 1) := by
    simp only [resize]
    rw [show o.rows pos left - 1 - device.length = 0 by simp only at hlen; omega]
    simp
  dsimp only
  rw [hres]
  obtain ⟨m, next, hm, hacc, hkept⟩ := accepted_greedy t
    (fun i => t.argmax ((t.verify all device (o.rows pos left)).getD i [])) all
    (device.take (o.rows pos left - 1)) (by
      intro i hi
      rw [length_take] at hi
      rw [verify_getD t all device (by omega), take_take, Nat.min_eq_left (by omega)])
  simp only [Target.keep, Target.choose]
  rw [hacc]
  refine ⟨_, s', rfl, ?_, ?_⟩
  · rw [length_take] at hm
    simp only [length_take]
    omega
  have hml : (List.take m (List.take (o.rows pos left - 1) device)).length = m := by
    rw [length_take]
    omega
  simp only [hml]
  exact hkept

theorem qwen38_stepsGreedily (t : Target F S) (o : Qwen38Options)
    (draft : σ → List Int → List Int × σ) :
    StepsGreedily t (qwen38SpecStep t o draft) (o.context - o.draftRows) := by
  intro seed s all pos left hpos hleft
  unfold qwen38SpecStep
  rw [if_neg (by omega)]
  generalize draft s all = d
  obtain ⟨device, s'⟩ := d
  dsimp only
  generalize hr : min (device.length + 1) (min left (o.context - pos)) = rows
  have hlen := resize_length (rows - 1) device
  obtain ⟨m, next, hm, hacc, hkept⟩ := accepted_greedy t
    (fun i => t.argmax ((t.verify all (resize (rows - 1) device) rows).getD i [])) all
    (resize (rows - 1) device) (by
      intro i hi
      rw [verify_getD t all _ (by omega)])
  rw [hacc]
  refine ⟨_, s', rfl, ?_, ?_⟩
  · simp only [length_take]
    omega
  have hml : (List.take m (resize (rows - 1) device)).length = m := by
    rw [length_take]
    omega
  simp only [hml]
  exact hkept

/-! ## The whole generation -/

/-- A runner of the target `t`: nothing of the device fails. -/
structure Serves (m : Runner F S σ α β) (t : Target F S) : Prop where
  runChunk : ∀ s all pos inject, ∃ s', m.runChunk s all pos inject = (.ok (t.row all), s')
  choose : ∀ sampling seed row pos, m.choose sampling seed row pos = t.choose sampling seed row pos
  settle : ∀ s, ∃ s', m.settle s = (.ok (), s')

def Agrees (options : GenerateOptions S) : Prop :=
  ∀ onTokens, options.onTokens = some onTokens → ∀ calls span, onTokens calls span = true

theorem report_agrees {options : GenerateOptions S} (h : Agrees options) (out : Generation F)
    (calls reported : Nat) : (report options out calls reported).1 = true := by
  unfold report
  split
  · rfl
  · next onTokens hon => exact h onTokens hon _ _

section Greedy

variable {x : Config} {m : Runner F S σ α β} {t : Target F S} {usable : Nat}
  {options : GenerateOptions S} (hm : Serves m t) (hspec : StepsGreedily t m.specStep usable)
  (hon : Agrees options) (hctx : usable ≤ x.context)

include hm hspec

theorem decodeStep_greedy (s : σ) (g : Decode F) (hpos : g.pos < usable)
    (hlt : g.out.tokens.length < options.maxTokens) :
    ∃ r s', decodeStep x m options none s g.out g.all g.pos = (.ok r, s') ∧
      r.out.tokens = g.out.tokens ∧ r.out.stopped = g.out.stopped ∧
      r.kept = greedy t g.all r.kept.length ∧ 0 < r.kept.length ∧
      g.out.tokens.length + r.kept.length ≤ options.maxTokens := by
  unfold decodeStep
  split
  · obtain ⟨kept, s', hstep, hlen, hkept⟩ := hspec options.seed s g.all g.pos
      (options.maxTokens - g.out.tokens.length) hpos (by omega)
    rw [hstep]
    refine ⟨_, s', rfl, rfl, rfl, ?_, ?_, ?_⟩
    · simpa [Stepped.kept] using hkept
    · simp [Stepped.kept]
    simp only [Stepped.kept, length_append, length_singleton]
    omega
  obtain ⟨s', hrun⟩ := hm.runChunk s g.all g.pos false
  simp only [hrun, hm.choose, Target.choose]
  refine ⟨_, s', rfl, rfl, rfl, rfl, Nat.one_pos, ?_⟩
  simp only [Stepped.kept, nil_append, length_singleton]
  omega

include hon hctx

theorem decode_greedy :
    ∀ (n : Nat) (s : σ) (g : Decode F), options.maxTokens - g.out.tokens.length = n →
      g.out.stopped = false → g.out.cancelled = false →
      g.out.tokens.length ≤ options.maxTokens → g.pos + n < usable →
      ∃ g' s', decode x m options none s g = (.ok (), g', s') ∧
        g'.out.tokens = g.out.tokens ++ upToStop x options (greedy t g.all n) ∧
        g'.out.stopped = hasStop x options (greedy t g.all n) := by
  intro n
  induction n using Nat.strongRecOn with
  | ind n ih =>
    intro s g hn hst hcan hle hpos
    unfold decode
    by_cases hgo : g.out.tokens.length < options.maxTokens
    · rw [dif_pos ⟨hst, hcan, hgo⟩, if_neg (by omega)]
      obtain ⟨r, s', hstep, htok, hstop, hkept, hk, hfit⟩ :=
        decodeStep_greedy (x := x) hm hspec s g (by omega) hgo
      obtain ⟨hpush, hpus⟩ := pushKept_spec x options r.kept { r.out with steps := r.out.steps + 1 }
      have hgreedy : greedy t g.all n =
          r.kept ++ greedy t (g.all ++ r.kept) (n - r.kept.length) := by
        rw [hkept, greedy_length, ← greedy_add]
        congr 1
        omega
      have hout : (decoded x options g r).out.tokens = g.out.tokens ++ upToStop x options r.kept := by
        rw [← htok]
        exact hpush
      have hstopped : (decoded x options g r).out.stopped = hasStop x options r.kept := by
        show (pushKept x options _ r.kept).stopped = _
        rw [hpus, hstop, hst, Bool.false_or]
      have hcancel : (decoded x options g r).out.cancelled = false := by
        simp [decoded, report_agrees hon]
      split
      next heq =>
        rw [hstep] at heq
        cases heq
      rename_i heq
      rw [hstep] at heq
      cases heq
      rw [hgreedy, upToStop_append]
      cases hs : hasStop x options r.kept with
      | true =>
        rw [hs] at hstopped
        refine ⟨_, s', ?_, hout, ?_⟩
        · unfold decode
          rw [dif_neg (by simp [hstopped])]
        rw [hstopped]
        simp only [hasStop, any_append] at hs ⊢
        rw [hs, Bool.true_or]
      | false =>
        rw [hs] at hstopped
        rw [upToStop_of_not x options hs] at hout
        have hlen : (decoded x options g r).out.tokens.length =
            g.out.tokens.length + r.kept.length := by rw [hout, length_append]
        obtain ⟨g', s'', hdec, htoks, hstops⟩ := ih (n - r.kept.length) (by omega) s'
          (decoded x options g r) (by omega) hstopped hcancel (by omega) (by
            show g.pos + r.kept.length + _ < _
            omega)
        refine ⟨g', s'', hdec, ?_, ?_⟩
        · rw [htoks, hout, append_assoc]
          rfl
        rw [hstops]
        simp only [hasStop, any_append] at hs ⊢
        rw [hs, Bool.false_or]
        rfl
    rw [dif_neg (by omega)]
    obtain rfl : n = 0 := by omega
    exact ⟨g, s, rfl, by simp [greedy, upToStop], by simp [greedy, hasStop, hst]⟩

theorem generate_greedy {l : Llm} (s : σ) {last : List F}
    (out : Generation F) (hlast : last ≠ []) (hgreedy : options.sampling.filter m.samples = none)
    (hfit : l.history.length + options.maxTokens ≤ usable) : let first : Int := t.argmax last
    let tokens := upToStop x options
      (first :: greedy t (l.history ++ [first]) (options.maxTokens - 1))
    ∃ out' l' s', generate x m l s last options out = (.ok (), out', l', s') ∧
      out'.tokens = tokens.take options.maxTokens ∧
      out'.stopped = hasStop x options
        (first :: greedy t (l.history ++ [first]) (options.maxTokens - 1)) := by
  intro first tokens
  unfold generate
  rw [if_neg (by simpa using hlast)]
  simp only [hgreedy, hm.choose, Target.choose]
  generalize hg : begun x options out l.history last (t.argmax last : Int) = g
  have htok : g.out.tokens = [first] := by rw [← hg]; rfl
  have hst : g.out.stopped = isStop x options first := by rw [← hg]; rfl
  have hcan : g.out.cancelled = false := by
    rw [← hg]
    simp [begun, report_agrees hon]
  have hall : g.all = l.history ++ [first] := by rw [← hg]; rfl
  have hpos : g.pos = l.history.length := by rw [← hg]; rfl
  have hdec : ∃ g' s', decode x m options none s g = (.ok (), g', s') ∧
      g'.out.tokens.take options.maxTokens = tokens.take options.maxTokens ∧
      g'.out.stopped = hasStop x options
        (first :: greedy t (l.history ++ [first]) (options.maxTokens - 1)) := by
    simp only [tokens, upToStop, hasStop, any_cons]
    cases hf : isStop x options first with
    | true =>
      refine ⟨g, s, ?_, by rw [htok, if_pos rfl], by rw [hst, hf, Bool.true_or]⟩
      unfold decode
      rw [dif_neg (by simp [hst, hf])]
    | false =>
      rcases Nat.eq_zero_or_pos options.maxTokens with hz | hp
      · refine ⟨g, s, ?_, by simp [hz], by rw [hst, hf, hz]; rfl⟩
        unfold decode
        rw [dif_neg (by simp [hz])]
      obtain ⟨g', s', hd, ht, hs⟩ := decode_greedy hm hspec hon hctx (options.maxTokens - 1) s g
        (by rw [htok]; rfl) (by rw [hst, hf]) hcan (by rw [htok]; exact hp) (by omega)
      rw [hall] at ht hs
      refine ⟨g', s', hd, ?_, by rw [hs, Bool.false_or]; rfl⟩
      rw [ht, htok]
      rfl
  obtain ⟨g', s1, hd, ht, hs⟩ := hdec
  obtain ⟨s2, hset⟩ := hm.settle s1
  rw [hd]
  dsimp only
  rw [hset]
  exact ⟨_, _, _, rfl, ht, hs⟩

end Greedy

def targetRunner (t : Target F S) (samples : S → Bool)
    (specStep : Option S → Nat → σ → List Int → Nat → Nat → Except String (Kept F) × σ) :
    Runner F S σ Unit Unit where
  runChunk s all _ _ := (.ok (t.row all), s)
  specStep := specStep
  settle s := (.ok (), s)
  clearState s := (.ok (), s)
  drafterBytes := 0
  saveTarget s := (.ok (), s)
  saveDrafter s := (.ok (), s)
  loadTarget s _ := (.ok (), s)
  loadDrafter s _ := (.ok (), s)
  cursor _ := 0
  setCursor s _ := s
  choose := t.choose
  samples := samples

theorem targetRunner_serves (t : Target F S) (samples : S → Bool)
    (specStep : Option S → Nat → σ → List Int → Nat → Nat → Except String (Kept F) × σ) :
    Serves (targetRunner t samples specStep) t :=
  ⟨fun s _ _ _ => ⟨s, rfl⟩, fun _ _ _ _ => rfl, fun s => ⟨s, rfl⟩⟩

def SameGeneration (x : Config) (m : Runner F S σ α β) (l : Llm) (s : σ) (last : List F)
    (options : GenerateOptions S) (out : Generation F) : Prop :=
  ∃ a b l₁ l₂ s₁ s₂,
    generate { x with speculate := true } m l s last options out = (.ok (), a, l₁, s₁) ∧
    generate { x with speculate := false } m l s last options out = (.ok (), b, l₂, s₂) ∧
    a.tokens = b.tokens ∧ a.stopped = b.stopped

theorem upToStop_congr {x x' : Config} (options : GenerateOptions S) (h : x.stops = x'.stops)
    (ts : List Int) : upToStop x options ts = upToStop x' options ts := by
  have hstop : isStop x options = isStop x' options := by
    funext t
    rw [isStop, isStop, h]
  induction ts with
  | nil => rfl
  | cons t ts ih => rw [upToStop, upToStop, hstop, ih]

theorem sameGeneration {x : Config} {m : Runner F S σ α β} {t : Target F S} {usable : Nat}
    (hm : Serves m t) (hspec : StepsGreedily t m.specStep usable) {options : GenerateOptions S}
    (hon : Agrees options) (hctx : usable ≤ x.context) {l : Llm} (s : σ) {last : List F}
    (out : Generation F) (hlast : last ≠ []) (hgreedy : options.sampling.filter m.samples = none)
    (hfit : l.history.length + options.maxTokens ≤ usable) :
    SameGeneration x m l s last options out := by
  obtain ⟨a, l1, s1, ha, hat, has⟩ := generate_greedy (x := { x with speculate := true }) hm hspec
    hon hctx s out hlast hgreedy hfit
  obtain ⟨b, l2, s2, hb, hbt, hbs⟩ := generate_greedy (x := { x with speculate := false }) hm hspec
    hon hctx s out hlast hgreedy hfit
  refine ⟨a, b, l1, l2, s1, s2, ha, hb, ?_, has.trans hbs.symm⟩
  rw [hat, hbt]
  congr 1
  apply upToStop_congr
  rfl

/-- Greedy speculation changes nothing but speed, whatever the drafter proposes: for DeepSeek within
    the context, for Qwen within what its drafts leave of it. -/
theorem speculation_same (t : Target F S) (samples : S → Bool) (x : Config)
    (options : GenerateOptions S) (hon : Agrees options)
    (hgreedy : options.sampling.filter samples = none) (l : Llm) (s : σ) (last : List F)
    (hlast : last ≠ []) (out : Generation F) (draft : σ → List Int → List Int × σ) :
    (∀ o : Dsv4Options, 0 < o.maxVerify → o.context = x.context →
      (∀ s all, (draft s all).1.length = o.draftRows) →
      l.history.length + options.maxTokens ≤ x.context →
      SameGeneration x (targetRunner t samples (dsv4SpecStep t o draft)) l s last options out) ∧
    ∀ o : Qwen38Options, o.context = x.context →
      l.history.length + options.maxTokens ≤ x.context - o.draftRows →
      SameGeneration x (targetRunner t samples (qwen38SpecStep t o draft)) l s last options out := by
  constructor
  · intro o hver hctx hdraft hfit
    exact sameGeneration (targetRunner_serves t samples _)
      (dsv4_stepsGreedily t o hver draft hdraft) hon hctx.le s out hlast hgreedy (hctx ▸ hfit)
  intro o hctx hfit
  exact sameGeneration (targetRunner_serves t samples _) (qwen38_stepsGreedily t o draft) hon
    (by omega) s out hlast hgreedy (by rw [hctx]; exact hfit)

/-- A target that counts, and a drafter that is right once. -/
theorem speculation_same_counting : SameGeneration ⟨"m", 64, 8, true, [6]⟩
      (targetRunner (σ := Unit) ⟨fun ts => [ts.getLastD 0 + 1], fun row => (row.headD 0).toNat,
        fun _ _ _ _ => .ok 0, fun _ _ _ _ _ => .ok (true, 0)⟩ (fun _ : Unit => false)
        (qwen38SpecStep ⟨fun ts => [ts.getLastD 0 + 1], fun row => (row.headD 0).toNat,
          fun _ _ _ _ => .ok 0, fun _ _ _ _ _ => .ok (true, 0)⟩ ⟨2, 64⟩
          fun s ts => ([ts.getLastD 0 + 1, 0], s)))
      { history := [1, 2] } () [(3 : Int)] { maxTokens := 8 } {} :=
  (speculation_same _ _ ⟨"m", 64, 8, true, [6]⟩ { maxTokens := 8 } (by intro f h; cases h) rfl
    { history := [1, 2] } () [3] (by simp) {} _).2 ⟨2, 64⟩ rfl (by decide)

end JitLlm.Runtime.Llm
