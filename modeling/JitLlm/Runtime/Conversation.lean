import JitLlm.Runtime.Serving

/-!
# The recorded conversation and the state

Runs of an `Llm`'s public calls over a runner that keeps its contract. Whenever no clear is
needed the device state holds exactly the history, provided no call leaves the flag behind:
`Clear`, `SaveState` and `RestoreState` answer a failure without setting `needs_clear_`, and
`RestoreState` clears it for a state that was saved while it was set.
-/

namespace JitLlm.Runtime.Llm

variable {F S σ α β : Type} {x : Config} {m : Runner F S σ α β}

/-- What the code relies on of the model behind it: `Holds s ts`, the state has seen exactly
    `ts`, and `Settled s`, nothing is owed to its memory. A failed call promises nothing of
    the state, but a copy out of it only reads. -/
structure Contract (m : Runner F S σ α β) (Holds : σ → List Int → Prop) (Settled : σ → Prop) :
    Prop where
  runChunk : ∀ s all n inject row s', n ≤ all.length → Holds s (all.take n) →
    m.runChunk s all n inject = (.ok row, s') → Holds s' all
  specStep : ∀ sampling seed s ts anchor left kept s', Holds s ts →
    m.specStep sampling seed s (ts ++ [anchor]) ts.length left = (.ok kept, s') →
      Holds s' (ts ++ [anchor] ++ kept.accepted)
  settle : ∀ s ts s', Holds s ts → m.settle s = (.ok (), s') → Holds s' ts
  settled : ∀ s s', m.settle s = (.ok (), s') → Settled s'
  clearState : ∀ s s', m.clearState s = (.ok (), s') → Holds s' []
  saveTarget : ∀ s ts answer s', Holds s ts → m.saveTarget s = (answer, s') → Holds s' ts
  saveDrafter : ∀ s ts answer s', Holds s ts → m.saveDrafter s = (answer, s') → Holds s' ts
  /-- What was saved of a settled state gives it back, over any settled state. -/
  whole : ∀ s ts target s₁ drafter s₂, Holds s ts → Settled s → m.drafterBytes ≠ 0 →
    m.saveTarget s = (.ok target, s₁) → m.saveDrafter s₁ = (.ok drafter, s₂) →
    ∀ t t₁ t₂, Settled t → m.loadTarget t target = (.ok (), t₁) →
      m.loadDrafter t₁ drafter = (.ok (), t₂) → Holds (m.setCursor t₂ (m.cursor s₂)) ts
  alone : ∀ s ts target s₁, Holds s ts → Settled s → m.drafterBytes = 0 →
    m.saveTarget s = (.ok target, s₁) →
    ∀ t t₁, Settled t → m.loadTarget t target = (.ok (), t₁) →
      Holds (m.setCursor t₁ (m.cursor s₁)) ts

inductive Call (F S : Type)
  | prefill (tokens : List Int) (goOn : Option (Nat → Nat → Bool))
  | generate (last : List F) (options : GenerateOptions S) (out : Generation F)
  | clear
  | forget
  | saveState
  | restoreState

/-- An `Llm`, its device state, and the host memory of the last successful `SaveState`, with
    what `needs_clear_` was then. -/
structure World (σ α β : Type) where
  llm : Llm
  device : σ
  saved : Option (Snapshot α β × Bool)

/-- One public call; a `RestoreState` is from the memory the last `SaveState` wrote. -/
def step (x : Config) (m : Runner F S σ α β) (w : World σ α β) : Call F S → Option (World σ α β)
  | .prefill tokens goOn =>
    let (_, llm, device) := prefill x m w.llm w.device tokens goOn
    some { w with llm, device }
  | .generate last options out =>
    let (_, _, llm, device) := generate x m w.llm w.device last options out
    some { w with llm, device }
  | .clear =>
    let (_, llm, device) := clear m w.llm w.device
    some { w with llm, device }
  | .forget => some { w with llm := forget w.llm }
  | .saveState =>
    match saveState m w.llm w.device with
    | (.ok host, llm, device) => some { llm, device, saved := some (host, w.llm.needsClear) }
    | (.error _, llm, device) => some { w with llm, device }
  | .restoreState =>
    match w.saved with
    | none => none
    | some (host, _) =>
      let (_, llm, device) := restoreState m w.llm w.device host
      some { w with llm, device }

def Spares (Holds : σ → List Int → Prop) (s s' : σ) : Prop := ∀ ts, Holds s ts → Holds s' ts

def Harmless (Holds : σ → List Int → Prop) {ε γ : Type} (s : σ) (answer : Except ε γ × σ) : Prop :=
  ∀ e, answer.1 = .error e → Spares Holds s answer.2

/-- The call does not meet the flag left behind: a `Clear`, `SaveState` or `RestoreState` made
    while no clear is needed does not fail having changed the state, and what a `RestoreState`
    puts back was not saved while a clear was needed. -/
def Careful (m : Runner F S σ α β) (Holds : σ → List Int → Prop) (w : World σ α β) :
    Call F S → Prop
  | .clear => w.llm.needsClear = true ∨ Harmless Holds w.device (m.clearState w.device)
  | .saveState => w.llm.needsClear = true ∨ Harmless Holds w.device (m.settle w.device)
  | .restoreState => ∀ host dirty, w.saved = some (host, dirty) → dirty = false ∧
      (w.llm.needsClear = true ∨
        Harmless Holds w.device (m.settle w.device) ∧
        (∀ s, m.settle w.device = (.ok (), s) →
          Harmless Holds w.device (m.loadTarget s host.target) ∧
          ∀ s', m.loadTarget s host.target = (.ok (), s') →
            Harmless Holds w.device (loadDrafterPart m s' host)))
  | _ => True

/-- A run of calls, each careful where `careful` asks for it. -/
inductive Runs (x : Config) (m : Runner F S σ α β) (careful : World σ α β → Call F S → Prop) :
    World σ α β → World σ α β → Prop
  | refl (w : World σ α β) : Runs x m careful w w
  | step {w w' w'' : World σ α β} (c : Call F S) :
      Runs x m careful w w' → careful w' c → step x m w' c = some w'' → Runs x m careful w w''

/-! ## The invariant -/

/-- What was saved with no clear needed gives back the saved history, over any settled
    state. -/
def Restores (m : Runner F S σ α β) (Holds : σ → List Int → Prop) (Settled : σ → Prop) (l : Llm)
    (host : Snapshot α β) : Prop :=
  ∀ t t₁ t₂, Settled t → m.loadTarget t host.target = (.ok (), t₁) →
    loadDrafterPart m t₁ host = (.ok (), t₂) →
      Holds (m.setCursor t₂ l.savedCursor) l.savedHistory

/-- The state holds the history while no clear is needed, and the saved memory the saved one. -/
structure Faithful (m : Runner F S σ α β) (Holds : σ → List Int → Prop) (Settled : σ → Prop)
    (w : World σ α β) : Prop where
  held : w.llm.needsClear = false → Holds w.device w.llm.history
  saved : ∀ host, w.saved = some (host, false) → Restores m Holds Settled w.llm host

section Calls

variable {Holds : σ → List Int → Prop} {Settled : σ → Prop} {l l' : Llm} {s s' : σ}
    {goOn : Option (Nat → Nat → Bool)} {answer : Except String Unit} {tokens : List Int}
    {options : GenerateOptions S} {sampling : Option S}

theorem prefillChunks_holds (k : Contract m Holds Settled) {all : List Int} {rows : Nat}
    {hrows : 0 < rows} :
    ∀ (n : Nat) (s : σ × List F) (run : PrefillRun) {ran : PrefillRun} {s' : σ × List F},
      all.length - run.stop = n → run.stop ≤ all.length → Holds s.1 (all.take run.stop) →
      prefillChunks rows all.length hrows (prefillChunk x m all) goOn s run = (.ok ran, s') →
      Holds s'.1 (all.take ran.stop) := by
  intro n
  induction n using Nat.strongRecOn with
  | ind n ih =>
    intro s run ran s' hn hle hheld hran
    rw [prefillChunks] at hran
    split at hran
    next hlt =>
      have hpos := chunkRows_pos hrows (Nat.sub_pos_of_lt hlt)
      have hfit := chunkRows_le rows (all.length - run.stop)
      dsimp only at hran
      split at hran
      · cases hran
        exact hheld
      split at hran
      · cases hran
      rename_i s1 hchunk
      refine ih (all.length - (run.stop + chunkRows rows (all.length - run.stop))) (by omega) s1
        _ rfl (by simp only; omega) ?_ hran
      unfold prefillChunk at hchunk
      split at hchunk
      · cases hchunk
      rename_i row s2 hrow
      cases hchunk
      refine k.runChunk s.1 _ run.stop x.speculate row s2 ?_ ?_ hrow
      · simp only [List.length_take]
        omega
      simp only [List.take_take]
      rw [Nat.min_eq_left (by omega)]
      exact hheld
    cases hran
    exact hheld

theorem clear_kept {l : Llm} {s : σ} (k : Contract m Holds Settled)
    (h : clear m l s = (answer, l', s')) :
    (answer = .ok () ∧ l' = { l with history := [], needsClear := false } ∧ Holds s' []) ∨
      ((∃ e, answer = .error e ∧ (m.clearState s).1 = .error e) ∧ l' = l ∧
        s' = (m.clearState s).2) := by
  unfold clear at h
  split at h
  next e s1 hcleared =>
    cases h
    exact .inr ⟨⟨e, rfl, by rw [hcleared]⟩, rfl, by rw [hcleared]⟩
  rename_i s1 hcleared
  cases h
  exact .inl ⟨rfl, rfl, k.clearState s _ hcleared⟩

section

variable (k : Contract m Holds Settled) (hheld : l.needsClear = false → Holds s l.history)
include k hheld

theorem prefillCleared_kept {answer : Except String (PrefillRun × List F)}
    (h : prefillCleared x m l s tokens goOn = (answer, l', s')) :
    (l'.needsClear = false → Holds s' l'.history) ∧ l'.savedHistory = l.savedHistory ∧
      l'.savedCursor = l.savedCursor := by
  unfold prefillCleared at h
  split at h
  · cases h
    exact ⟨hheld, rfl, rfl⟩
  dsimp only at h
  split at h
  · cases h
    exact ⟨hheld, rfl, rfl⟩
  split at h
  · cases h
    exact ⟨fun hclear => (by simp at hclear), rfl, rfl⟩
  rename_i ran s1 last hran
  cases h
  refine ⟨fun hclear => ?_, rfl, rfl⟩
  have hstart : Holds s ((l.history ++ tokens).take l.history.length) := by
    rw [List.take_left]
    exact hheld hclear
  unfold runPrefillChunks at hran
  split at hran
  · exact prefillChunks_holds (x := x) k _ (s, []) _ rfl (by simp) hstart hran
  split at hran
  · cases hran
  cases hran
  exact hstart

theorem prefill_kept {answer : Except String (PrefillRun × List F)}
    (h : prefill x m l s tokens goOn = (answer, l', s')) :
    (l'.needsClear = false → Holds s' l'.history) ∧ l'.savedHistory = l.savedHistory ∧
      l'.savedCursor = l.savedCursor := by
  unfold prefill at h
  split at h
  next hneeds =>
    split at h
    next e l1 s1 hclear =>
      cases h
      rcases clear_kept k hclear with ⟨hok, -⟩ | ⟨-, rfl, -⟩
      · cases hok
      · exact ⟨fun hno => (by simp [hneeds] at hno), rfl, rfl⟩
    rename_i l1 s1 hclear
    rcases clear_kept k hclear with ⟨-, rfl, hempty⟩ | ⟨⟨e, he, -⟩, -⟩
    · exact prefillCleared_kept (l := { l with history := [], needsClear := false }) k
        (fun _ => hempty) h
    · cases he
  · exact prefillCleared_kept k hheld h

end

/-! ## `Generate` -/

def AtAnchor (Holds : σ → List Int → Prop) (s : σ) (g : Decode F) : Prop :=
  ∃ ts anchor, g.all = ts ++ [anchor] ∧ g.pos = ts.length ∧ Holds s ts

theorem decodeStep_holds (k : Contract m Holds Settled)
    {s s' : σ} {g : Decode F} {r : Stepped F} (hat : AtAnchor Holds s g)
    (h : decodeStep x m options sampling s g.out g.all g.pos = (.ok r, s')) :
    AtAnchor Holds s' (decoded x options g r) := by
  obtain ⟨ts, anchor, hall, hpos, hheld⟩ := hat
  refine ⟨ts ++ [anchor] ++ r.accepted, r.next, ?_, ?_, ?_⟩
  · simp [decoded, hall, Stepped.kept]
  · simp only [decoded, hpos, Stepped.kept, List.length_append, List.length_singleton]
    omega
  unfold decodeStep at h
  rw [hall, hpos] at h
  split at h
  · split at h
    · cases h
    rename_i kept s1 hspec
    cases h
    exact k.specStep _ _ s ts anchor _ kept _ hheld hspec
  split at h
  · cases h
  rename_i row s1 hrow
  split at h
  · cases h
  cases h
  simp only [List.append_nil]
  refine k.runChunk s _ ts.length false row _ (by simp) ?_ hrow
  rw [List.take_left]
  exact hheld

theorem decode_holds (k : Contract m Holds Settled) :
    ∀ (n : Nat) (s : σ) (g : Decode F) {g' : Decode F} {s' : σ},
      options.maxTokens - g.out.tokens.length = n → AtAnchor Holds s g →
      decode x m options sampling s g = (.ok (), g', s') → AtAnchor Holds s' g' := by
  intro n
  induction n using Nat.strongRecOn with
  | ind n ih =>
    intro s g g' s' hn hat hdec
    rw [decode] at hdec
    split at hdec
    next hgo =>
      split at hdec
      · cases hdec
      split at hdec
      · cases hdec
      rename_i r s1 hstep
      have hgrows : g.out.tokens.length < (decoded x options g r).out.tokens.length :=
        decoded_grows x (decodeStep_tokens x m hstep)
      exact ih _ (by omega) s1 _ rfl (decodeStep_holds k hat hstep) hdec
    cases hdec
    exact hat

theorem generate_kept (k : Contract m Holds Settled)
    (hheld : l.needsClear = false → Holds s l.history) {last : List F} {out out' : Generation F}
    (h : generate x m l s last options out = (answer, out', l', s')) :
    (l'.needsClear = false → Holds s' l'.history) ∧ l'.savedHistory = l.savedHistory ∧
      l'.savedCursor = l.savedCursor := by
  unfold generate at h
  split at h
  · cases h
    exact ⟨hheld, rfl, rfl⟩
  dsimp only at h
  split at h
  · cases h
    exact ⟨hheld, rfl, rfl⟩
  rename_i first hfirst
  split at h
  · cases h
    exact ⟨fun hclear => (by simp at hclear), rfl, rfl⟩
  rename_i g s1 hdec
  split at h
  · cases h
    exact ⟨fun hclear => (by simp at hclear), rfl, rfl⟩
  rename_i s2 hset
  cases h
  refine ⟨fun hclear => ?_, rfl, rfl⟩
  have hbegun : AtAnchor Holds s (begun x options out l.history last first) :=
    ⟨l.history, first, rfl, rfl, hheld hclear⟩
  obtain ⟨ts, anchor, hall, hpos, hts⟩ := decode_holds (x := x) k _ s _ rfl hbegun hdec
  rw [hall, hpos, List.take_left]
  exact k.settle s1 ts _ hts hset

/-! ## `SaveState` and `RestoreState` -/

section

variable (k : Contract m Holds Settled) (hheld : l.needsClear = false → Holds s l.history)
include k hheld

theorem saveState_kept {answer : Except String (Snapshot α β)}
    (h : saveState m l s = (answer, l', s'))
    (hhar : l.needsClear = true ∨ Harmless Holds s (m.settle s)) :
    (l'.needsClear = false → Holds s' l'.history) ∧ l'.needsClear = l.needsClear ∧
      (∀ host, answer = .ok host → l.needsClear = false → Restores m Holds Settled l' host) ∧
      ∀ e, answer = .error e → l' = l := by
  unfold saveState at h
  split at h
  next e s1 hset =>
    cases h
    refine ⟨fun hclear => ?_, rfl, (fun _ hok => by cases hok), fun _ _ => rfl⟩
    rcases hhar with hneeds | hspares
    · simp [hneeds] at hclear
    rw [hset] at hspares
    exact hspares e rfl _ (hheld hclear)
  rename_i s1 hset
  have hsett : Settled s1 := k.settled s s1 hset
  have hheld1 : l.needsClear = false → Holds s1 l.history :=
    fun hclear => k.settle s _ s1 (hheld hclear) hset
  split at h
  next e s2 htar =>
    cases h
    exact ⟨fun hclear => k.saveTarget s1 _ _ _ (hheld1 hclear) htar, rfl,
      (fun _ hok => by cases hok), fun _ _ => rfl⟩
  rename_i target s2 htar
  have hheld2 : l.needsClear = false → Holds s2 l.history :=
    fun hclear => k.saveTarget s1 _ _ s2 (hheld1 hclear) htar
  split at h
  next hdraf =>
    split at h
    next e s3 hsaved =>
      cases h
      exact ⟨fun hclear => k.saveDrafter s2 _ _ _ (hheld2 hclear) hsaved, rfl,
        (fun _ hok => by cases hok), fun _ _ => rfl⟩
    rename_i drafter s3 hsaved
    cases h
    refine ⟨fun hclear => k.saveDrafter s2 _ _ _ (hheld2 hclear) hsaved, rfl, ?_,
      fun _ he => by cases he⟩
    rintro host hok hclear
    cases hok
    intro t t1 t2 ht htar' hdraf'
    simp only [loadDrafterPart, if_pos hdraf] at hdraf'
    exact k.whole s1 _ target s2 drafter s' (hheld1 hclear) hsett hdraf htar hsaved
      t t1 t2 ht htar' hdraf'
  next hnone =>
    cases h
    refine ⟨hheld2, rfl, ?_, fun _ he => by cases he⟩
    rintro host hok hclear
    cases hok
    intro t t1 t2 ht htar' hdraf'
    simp only [loadDrafterPart, Prod.mk.injEq, true_and] at hdraf'
    subst hdraf'
    exact k.alone s1 _ target s' (hheld1 hclear) hsett (not_not.mp hnone) htar t t1 ht htar'

theorem restoreState_kept {host : Snapshot α β}
        (h : restoreState m l s host = (answer, l', s')) (hsaved : Restores m Holds Settled l host)
    (hhar : l.needsClear = true ∨ Harmless Holds s (m.settle s) ∧
      (∀ s1, m.settle s = (.ok (), s1) → Harmless Holds s (m.loadTarget s1 host.target) ∧
        ∀ s2, m.loadTarget s1 host.target = (.ok (), s2) →
          Harmless Holds s (loadDrafterPart m s2 host))) :
    (l'.needsClear = false → Holds s' l'.history) ∧ l'.savedHistory = l.savedHistory ∧
      l'.savedCursor = l.savedCursor := by
  unfold restoreState at h
  split at h
  next e s1 hset =>
    cases h
    refine ⟨fun hclear => ?_, rfl, rfl⟩
    rcases hhar with hneeds | ⟨hspares, -⟩
    · simp [hneeds] at hclear
    rw [hset] at hspares
    exact hspares e rfl _ (hheld hclear)
  rename_i s1 hset
  split at h
  next e s2 htar =>
    cases h
    refine ⟨fun hclear => ?_, rfl, rfl⟩
    rcases hhar with hneeds | ⟨-, hloads⟩
    · simp [hneeds] at hclear
    have hspares := (hloads s1 hset).1
    rw [htar] at hspares
    exact hspares e rfl _ (hheld hclear)
  rename_i s2 htar
  split at h
  next e s3 hdraf =>
    cases h
    refine ⟨fun hclear => ?_, rfl, rfl⟩
    rcases hhar with hneeds | ⟨-, hloads⟩
    · simp [hneeds] at hclear
    have hspares := (hloads s1 hset).2 s2 htar
    rw [hdraf] at hspares
    exact hspares e rfl _ (hheld hclear)
  rename_i s3 hdraf
  cases h
  exact ⟨fun _ => hsaved s1 s2 s3 (k.settled s s1 hset) htar hdraf, rfl, rfl⟩

end

theorem step_faithful (k : Contract m Holds Settled) {w w' : World σ α β} {c : Call F S}
    (h : Faithful m Holds Settled w) (hcar : Careful m Holds w c)
    (hstep : step x m w c = some w') : Faithful m Holds Settled w' := by
  -- A call that saves nothing keeps what was saved.
  have hsaved : ∀ {l' : Llm}, l'.savedHistory = w.llm.savedHistory →
      l'.savedCursor = w.llm.savedCursor →
      ∀ host, w.saved = some (host, false) → Restores m Holds Settled l' host := by
    intro l' hhis hcur host heq
    have := h.saved host heq
    unfold Restores at this ⊢
    rwa [hhis, hcur]
  cases c with
  | prefill tokens goOn =>
    cases hstep
    obtain ⟨hheld, hhis, hcur⟩ := prefill_kept k h.held
      (show prefill x m w.llm w.device tokens goOn = (_, _, _) from rfl)
    exact ⟨hheld, hsaved hhis hcur⟩
  | generate last options out =>
    cases hstep
    obtain ⟨hheld, hhis, hcur⟩ := generate_kept k h.held
      (show generate x m w.llm w.device last options out = (_, _, _, _) from rfl)
    exact ⟨hheld, hsaved hhis hcur⟩
  | clear =>
    cases hstep
    rcases clear_kept (l := w.llm) (s := w.device) k rfl with
      ⟨-, hl, hempty⟩ | ⟨⟨e, -, he⟩, hl, hs⟩
    · refine ⟨fun _ => ?_, ?_⟩
      · simp only [hl]
        exact hempty
      simp only [hl]
      exact hsaved rfl rfl
    refine ⟨fun hclear => ?_, ?_⟩
    · simp only [hl, hs] at hclear ⊢
      rcases hcar with hneeds | hspares
      · simp [hneeds] at hclear
      · exact hspares e he _ (h.held hclear)
    simp only [hl]
    exact h.saved
  | forget =>
    cases hstep
    exact ⟨fun hclear => (by simp [forget] at hclear), hsaved rfl rfl⟩
  | saveState =>
    simp only [step] at hstep
    split at hstep
    next host l' s' hsave =>
      obtain ⟨hheld, -, hok, -⟩ := saveState_kept k h.held hsave hcar
      cases hstep
      refine ⟨hheld, ?_⟩
      intro host' heq
      simp only [Option.some.injEq, Prod.mk.injEq] at heq
      obtain ⟨rfl, hclean⟩ := heq
      exact hok host rfl hclean
    rename_i e l' s' hsave
    obtain ⟨hheld, -, -, herr⟩ := saveState_kept k h.held hsave hcar
    cases hstep
    obtain rfl : l' = w.llm := herr e rfl
    exact ⟨hheld, h.saved⟩
  | restoreState =>
    simp only [step] at hstep
    split at hstep
    · cases hstep
    rename_i host dirty heq
    cases hstep
    obtain ⟨rfl, hhar⟩ := hcar host dirty heq
    obtain ⟨hheld, hhis, hcur⟩ := restoreState_kept (l := w.llm) (s := w.device) k h.held
      rfl (h.saved host heq) hhar
    exact ⟨hheld, hsaved hhis hcur⟩

end Calls

/-- An `Llm` as it is made, over a cleared state. -/
def fresh (s : σ) : World σ α β := { llm := {}, device := s, saved := none }

/-- **The recorded conversation is what the state holds**, in every state that a run of careful
    calls reaches from a cleared one. -/
theorem history_held {Holds : σ → List Int → Prop} {Settled : σ → Prop}
    (k : Contract m Holds Settled) {s : σ} (hstart : Holds s []) {w : World σ α β}
    (h : Runs x m (Careful m Holds) (fresh s) w) (hclear : w.llm.needsClear = false) :
    Holds w.device w.llm.history := by
  have hfait : Faithful m Holds Settled w := by
    clear hclear
    induction h with
    | refl => exact ⟨fun _ => hstart, fun host heq => (by simp [fresh] at heq)⟩
    | step c _ hcar hstep ih => exact step_faithful k ih hcar hstep
  exact hfait.held hclear

/-! ## A runner that never fails -/

def plainRunner : Runner Int Unit (List Int) (List Int) Unit where
  runChunk s all n _ := (.ok [1], s ++ all.drop n)
  specStep _ _ s all pos _ :=
    (.ok { accepted := [], next := 1, logits := [[1]], drafted := 0 }, s ++ all.drop pos)
  settle s := (.ok (), s)
  clearState _ := (.ok (), [])
  drafterBytes := 0
  saveTarget s := (.ok s, s)
  saveDrafter s := (.ok (), s)
  loadTarget _ target := (.ok (), target)
  loadDrafter s _ := (.ok (), s)
  cursor _ := 0
  setCursor s _ := s
  choose _ _ _ _ := .ok 1
  samples _ := false

def smallConfig : Config :=
  { name := "small", context := 16, maxRows := 8, speculate := false, stops := [] }

theorem plainRunner_contract : Contract plainRunner (fun s ts => s = ts) (fun _ => True) where
  runChunk := by
    rintro s all n inject row s' - rfl h
    cases h
    exact List.take_append_drop n all
  specStep := by
    rintro sampling seed s ts anchor left kept s' rfl h
    cases h
    simp
  settle := by
    rintro s ts s' rfl h
    cases h
    rfl
  settled _ _ _ := trivial
  clearState := by
    rintro s s' h
    cases h
    rfl
  saveTarget := by
    rintro s ts answer s' rfl h
    cases h
    rfl
  saveDrafter := by
    rintro s ts answer s' rfl h
    cases h
    rfl
  whole := by
    rintro s ts target s1 drafter s2 - - hdraf
    exact absurd rfl hdraf
  alone := by
    rintro s ts target s1 rfl - - h t t1 - h'
    cases h
    cases h'
    rfl

theorem step_prefill_seven : step smallConfig plainRunner (fresh []) (.prefill [7] none) =
      some { llm := { history := [7] }, device := [7], saved := none } := by
  simp [step, fresh, prefill, prefillCleared, runPrefillChunks, prefillChunks, prefillChunk,
    goesOn, chunkRows, smallConfig, plainRunner, kPrefillTiledFrom]

/-- **`RestoreState` forgets that a clear was needed.** A forgotten conversation saved and put
    back: no clear is needed after it, the history is empty, and the state holds its token. -/
theorem restoreState_forgets : Contract plainRunner (fun s ts => s = ts) (fun _ => True) ∧
    ∃ w, Runs smallConfig plainRunner (fun _ _ => True) (fresh []) w ∧
      w.llm.needsClear = false ∧ ¬w.device = w.llm.history := by
  refine ⟨plainRunner_contract, ⟨{ llm := {}, device := [7], saved := some (⟨[7], none⟩, true) },
    ?_, rfl, by decide⟩⟩
  have h1 : Runs smallConfig plainRunner (fun _ _ => True) (fresh [])
      { llm := { history := [7] }, device := [7], saved := none } :=
    .step (.prefill [7] none) (.refl _) trivial step_prefill_seven
  have h2 : Runs smallConfig plainRunner (fun _ _ => True) (fresh [])
      { llm := { needsClear := true }, device := [7], saved := none } :=
    .step .forget h1 trivial rfl
  have h3 : Runs smallConfig plainRunner (fun _ _ => True) (fresh [])
      { llm := { needsClear := true }, device := [7], saved := some (⟨[7], none⟩, true) } :=
    .step .saveState h2 trivial rfl
  exact .step .restoreState h3 trivial rfl

/-- Saved with no clear needed, the token is there again after a clear and a restore. -/
theorem history_held_restored : ∃ w, Runs smallConfig plainRunner
      (Careful plainRunner fun s ts => s = ts) (fresh []) w ∧ w.llm.history = [7] ∧
      w.device = w.llm.history := by
  have hok : ∀ s, Harmless (fun s ts => s = ts) s (plainRunner.settle s) := by
    intro s e he
    cases he
  have h1 : Runs smallConfig plainRunner (Careful plainRunner fun s ts => s = ts) (fresh [])
      { llm := { history := [7] }, device := [7], saved := none } :=
    .step (.prefill [7] none) (.refl _) trivial step_prefill_seven
  have h2 : Runs smallConfig plainRunner (Careful plainRunner fun s ts => s = ts) (fresh [])
      { llm := { history := [7], savedHistory := [7] }, device := [7],
        saved := some (⟨[7], none⟩, false) } :=
    .step .saveState h1 (.inr (hok _)) rfl
  have h3 : Runs smallConfig plainRunner (Careful plainRunner fun s ts => s = ts) (fresh [])
      { llm := { savedHistory := [7] }, device := [], saved := some (⟨[7], none⟩, false) } :=
    .step .clear h2 (.inr fun e he => nomatch he) rfl
  have h4 : Runs smallConfig plainRunner (Careful plainRunner fun s ts => s = ts) (fresh [])
      { llm := { history := [7], savedHistory := [7] }, device := [7],
        saved := some (⟨[7], none⟩, false) } := by
    refine .step .restoreState h3 ?_ rfl
    rintro host dirty heq
    cases heq
    refine ⟨rfl, .inr ⟨hok _, ?_⟩⟩
    rintro s -
    constructor
    · intro e he
      cases he
    rintro s' - e he
    cases he
  exact ⟨_, h4, rfl, history_held plainRunner_contract rfl h4 rfl⟩

end JitLlm.Runtime.Llm
