import JitLlm.Execution.Program
import JitLlm.Lib.Sat
import Mathlib.Data.List.Forall2

/-!
# What a plan is

One lemma for each stage of `PlanProgram`: the output's bound, the items' sum, the kinds' widths and
closures, the phases tried from the widest down. Together: the plan fits at every width it may run
at, and a chunked kind runs as wide as fits.
-/

namespace JitLlm

open Base Lib List Option

namespace Execution

open Catalog
open Memory (Envelope)

/-! ## Rounding -/

def rounded (bytes granularity : Bytes) : Nat :=
  ceilDiv bytes.value granularity.value * granularity.value

theorem times_eq_some {a b : Nat} {r : Bytes} (h : times a b = some r) : r.value = a * b := by
  unfold times at h
  split at h
  · rw [← some.inj h]
  · cases h

theorem roundUp_eq_some {bytes granularity r : Bytes} (h : roundUp bytes granularity = some r) :
    r.value = rounded bytes granularity := times_eq_some h

theorem ceilDiv_le (a b : Nat) : ceilDiv a b ≤ a := by
  unfold ceilDiv
  rcases Nat.eq_zero_or_pos b with rfl | hb
  · rw [Nat.div_zero, Nat.mod_zero]
    split <;> omega
  have hdiv := Nat.div_add_mod a b
  have hle : a / b ≤ b * (a / b) := Nat.le_mul_of_pos_left _ hb
  split <;> omega

/-! ## Bounds -/

section Bounds

variable {contract : ProgramContract} {request : ProgramRequest} {granularity : Bytes}
    {items : List RetainedItem}

theorem outputBound_ok {blocks output : Nat}
    (h : outputBound contract request = .ok (blocks, output)) :
    request.prompt + output ≤ contract.contextLimit ∧ blocks ≤ contract.contextLimit := by
  unfold outputBound at h
  split at h
  · cases h
  rename_i hprompt
  simp only at h
  split at h
  next hblocky =>
    split at h
    · cases h
    cases Except.ok.inj h
    -- so many blocks are held by the room, so their product does not wrap
    have hle : min ((contract.contextLimit - request.prompt) / contract.mode.block)
        (ceilDiv request.maxOutput contract.mode.block) * contract.mode.block ≤
          contract.contextLimit - request.prompt :=
      Nat.le_trans (Nat.mul_le_mul_right _ (Nat.min_le_left _ _)) (Nat.div_mul_le_self _ _)
    have hheld := Nat.div_le_self (contract.contextLimit - request.prompt) contract.mode.block
    exact ⟨by omega, by omega⟩
  split at h
  · cases h
  cases Except.ok.inj h
  exact ⟨by omega, Nat.zero_le _⟩

theorem planBounds_ok {blocks output bound : Nat}
    (h : planBounds contract request granularity = .ok (blocks, output, bound, items)) :
    (bound = request.prompt + output ∧ bound ≤ contract.contextLimit ∧
      blocks ≤ contract.contextLimit) ∧ 0 < contract.mode.wirePerPosition.value ∧
      contract.phases ≠ [] := by
  unfold planBounds at h
  split at h
  · cases h
  obtain ⟨-, -, h⟩ := bind_ok h
  obtain ⟨⟨blocks', output'⟩, hbound, h⟩ := bind_ok h
  obtain ⟨items', -, h⟩ := bind_ok h
  obtain ⟨_, hphases, h⟩ := bind_ok h
  obtain ⟨rfl, rfl, rfl, rfl⟩ : blocks' = blocks ∧ output' = output ∧
      (request.prompt + output') % 2 ^ 64 = bound ∧ items' = items := by
    simpa using Except.ok.inj h
  obtain ⟨hle, hblocks⟩ := outputBound_ok hbound
  have hlimit := contract.limitBound
  unfold uint64Max at hlimit
  have hmod : (request.prompt + output') % 2 ^ 64 = request.prompt + output' :=
    Nat.mod_eq_of_lt (by omega)
  unfold checkPhases at hphases
  split at hphases
  · cases hphases
  rename_i hsome
  split at hphases
  · cases hphases
  rename_i hwire
  refine ⟨⟨hmod, by rw [hmod]; exact hle, hblocks⟩, ?_, fun hnil => hsome (by rw [hnil]; rfl)⟩
  rcases Nat.eq_zero_or_pos contract.mode.wirePerPosition.value with h0 | hpos
  · exact absurd (Bytes.ext h0) (by
      simp only [Bool.or_eq_true, decide_eq_true_eq, not_or] at hwire
      exact hwire.2)
  · exact hpos

def sumOf (items : List RetainedItem) : Nat := (items.map fun item => item.bytes.value).sum

theorem retainedSum_ok : ∀ {sum total : Bytes},
    retainedSum sum items = .ok total → total.value = sum.value + sumOf items := by
  induction items with
  | nil =>
    intro sum total h
    cases h
    rfl
  | cons item rest ih =>
    intro sum total h
    unfold retainedSum at h
    split at h
    · cases h
    rename_i sum' hsum
    rw [ih h, Bytes.plus_eq_some.mp hsum, Nat.add_assoc]
    rfl

end Bounds

/-! ## Candidates -/

section Candidates

variable {contract : ProgramContract} {context : ModelContext} {catalog : Catalog}
    {names : List String} {kind : PhaseKind} {domain : DomainId} {request : ProgramRequest}

/-- The widths a kind may run at are validated ones: all, up to the one its rule fixes, or that
    alone. -/
structure Allows (contract : ProgramContract) (request : ProgramRequest) (kind : PhaseKind)
    (allowed : List Nat) : Prop where
  ascending : allowed.Pairwise (· < ·)
  positive : ∀ w ∈ kind.positions, 0 < w
  validated : ∀ w ∈ allowed, w ∈ kind.positions
  nonempty : allowed ≠ []
  chunk : kind.rule = .chunk → allowed = kind.positions ∧ kind.emits = false
  fixed : kind.rule ≠ .chunk → ∀ w ∈ allowed, w ≤ fixedWidth contract.mode request kind.rule

structure Candidate.Of (contract : ProgramContract) (context : ModelContext) (catalog : Catalog)
    (domain : DomainId) (request : ProgramRequest) (kind : PhaseKind) (c : Candidate) : Prop where
  same : c.kind = kind
  allows : Allows contract request kind c.allowed
  closure : ∃ closure, context.closureOf catalog kind.components = .ok (.ok closure) ∧
    c.closure = (closure.bytesByDomain.find? domain).getD Bytes.zero

theorem ascending_pairwise : ∀ {l : List PhaseWidth}, Execution.ascending l = true →
    (l.map PhaseWidth.positions).Pairwise (· < ·)
  | [], _ => .nil
  | [a], _ => pairwise_singleton _ _
  | a :: b :: rest, h => by
    unfold Execution.ascending at h
    simp only [Bool.and_eq_true, decide_eq_true_eq] at h
    have ih := ascending_pairwise h.2
    refine pairwise_cons.mpr ⟨fun w hw => ?_, ih⟩
    rcases mem_cons.mp hw with rfl | hw
    · exact h.1
    · exact Nat.lt_trans h.1 ((pairwise_cons.mp ih).1 w hw)

theorem checkKind_ok (h : checkKind contract context names kind = .ok ()) :
    kind.name ≠ "" ∧ kind.name ∉ names ∧ kind.positions ≠ [] ∧
      kind.positions.Pairwise (· < ·) ∧ (∀ w ∈ kind.positions, 0 < w) ∧
      (kind.rule = .chunk → kind.emits = false) := by
  unfold checkKind at h
  split at h
  · cases h
  rename_i hname
  split at h
  · cases h
  rename_i hwid
  split at h
  · cases h
  split at h
  · cases h
  rename_i hrule
  simp only [Bool.or_eq_true, decide_eq_true_eq, not_or, List.contains_iff_mem] at hname
  simp only [Bool.or_eq_true, decide_eq_true_eq, not_or, Bool.not_eq_true, Bool.not_eq_false',
    List.isEmpty_iff] at hwid
  obtain ⟨⟨hne, hzero⟩, hasc⟩ := hwid
  have hpair : kind.positions.Pairwise (· < ·) := ascending_pairwise hasc
  refine ⟨hname.1, hname.2, fun hnil => hne (List.map_eq_nil_iff.mp hnil), hpair, ?_, ?_⟩
  · intro w hw
    rcases hpos : kind.positions with _ | ⟨a, _⟩
    · rw [hpos] at hw
      cases hw
    rw [hpos] at hw hzero hpair
    have ha : a ≠ 0 := fun h0 => hzero (congrArg some h0)
    rcases List.mem_cons.mp hw with rfl | hw
    · omega
    have := (List.pairwise_cons.mp hpair).1 w hw
    omega
  intro hchunk
  simp only [hchunk, decide_true, Bool.true_and, Bool.or_eq_true, not_or, Bool.not_eq_true] at hrule
  exact hrule.2

theorem narrowed_allows {width : Nat} (hmem : width ∈ kind.positions) :
    (∀ w ∈ kind.narrowed width, w ∈ kind.positions ∧ w ≤ width) ∧ width ∈ kind.narrowed width ∧
      (kind.positions.Pairwise (· < ·) → (kind.narrowed width).Pairwise (· < ·)) := by
  unfold PhaseKind.narrowed
  split
  · exact ⟨forall_mem_singleton.mpr ⟨hmem, Nat.le_refl _⟩, mem_singleton.mpr rfl,
      fun _ => pairwise_singleton _ _⟩
  refine ⟨fun w hw => ?_, mem_filter.mpr ⟨hmem, decide_eq_true (Nat.le_refl _)⟩,
    fun h => h.filter _⟩
  have := mem_filter.mp hw
  exact ⟨this.1, of_decide_eq_true this.2⟩

theorem allow_ok {capacity capacity' : Bytes}
    {allowed : List Nat} (hkind : checkKind contract context names kind = .ok ())
    (h : allow contract request capacity kind = .ok (allowed, capacity')) :
    Allows contract request kind allowed ∧ capacity.value ≤ capacity'.value ∧
      (kind.emits = true → ∀ w ∈ allowed,
        w * contract.mode.wirePerPosition.value ≤ capacity'.value) := by
  obtain ⟨-, -, hne, hasc, hpos, hchunk⟩ := checkKind_ok hkind
  unfold allow at h
  split at h
  next hrule =>
    cases Except.ok.inj h
    refine ⟨⟨hasc, hpos, fun w hw => hw, hne, fun _ => ⟨rfl, hchunk hrule⟩,
      fun hnot => absurd hrule hnot⟩, Nat.le_refl _, fun hemits => ?_⟩
    rw [hchunk hrule] at hemits
    cases hemits
  rename_i hrule
  simp only at h
  split at h
  · cases h
  rename_i hwidth
  have hmem : fixedWidth contract.mode request kind.rule ∈ kind.positions := by simpa using hwidth
  obtain ⟨hnar, hself, hsor⟩ := narrowed_allows hmem
  have hall : Allows contract request kind
      (kind.narrowed (fixedWidth contract.mode request kind.rule)) :=
    ⟨hsor hasc, hpos, fun w hw => (hnar w hw).1, ne_nil_of_mem hself,
      fun h => absurd h hrule, fun _ w hw => (hnar w hw).2⟩
  split at h
  · cases h
  split at h
  next hemits =>
    cases Except.ok.inj h
    refine ⟨hall, Nat.le_refl _, fun hyes => ?_⟩
    rw [hyes] at hemits
    cases hemits
  split at h
  · cases h
  rename_i bytes hbytes
  cases Except.ok.inj h
  refine ⟨hall, ?_, fun _ w hw => ?_⟩
  · rw [Bytes.max_value]
    exact Nat.le_max_left _ _
  rw [Bytes.max_value, times_eq_some hbytes]
  exact Nat.le_trans (Nat.mul_le_mul_right _ (hnar w hw).2) (Nat.le_max_right _ _)

theorem closureBytes_ok {result : Result Closure} {bytes : Bytes}
    (h : closureBytes domain kind result = .ok bytes) : ∃ closure, result = .ok closure ∧
      bytes = (closure.bytesByDomain.find? domain).getD Bytes.zero := by
  unfold closureBytes at h
  split at h
  · cases h
  rename_i closure
  split at h
  · cases h
  · exact ⟨closure, rfl, (Except.ok.inj h).symm⟩

theorem candidates_ok : ∀ {kinds : List PhaseKind} {names : List String} {capacity : Bytes}
    {cs : List Candidate} {capacity' : Bytes},
    candidates contract context catalog domain request names capacity kinds =
      .ok (.ok (cs, capacity')) →
    List.Forall₂ (Candidate.Of contract context catalog domain request) kinds cs ∧
      (kinds.map PhaseKind.name).Nodup ∧ (∀ kind ∈ kinds, kind.name ≠ "" ∧ kind.name ∉ names) ∧
      capacity.value ≤ capacity'.value ∧
      (∀ c ∈ cs, c.kind.emits = true → ∀ w ∈ c.allowed,
        w * contract.mode.wirePerPosition.value ≤ capacity'.value) := by
  intro kinds
  induction kinds with
  | nil =>
    intro names capacity cs capacity' h
    cases Except.ok.inj (Except.ok.inj h)
    exact ⟨.nil, nodup_nil, nofun, Nat.le_refl _, nofun⟩
  | cons kind rest ih =>
    intro names capacity cs capacity' h
    unfold candidates at h
    split at h
    · cases Except.ok.inj h
    rename_i hkind
    split at h
    · cases Except.ok.inj h
    rename_i allowed capacity1 hallow
    obtain ⟨result, hres, h⟩ := bind_ok h
    split at h
    · cases Except.ok.inj h
    rename_i closure hclos
    obtain ⟨more, hmore, h⟩ := bind_ok h
    split at h
    · cases Except.ok.inj h
    rename_i cs' capacity2
    cases Except.ok.inj (Except.ok.inj h)
    obtain ⟨hname, hfresh, -⟩ := checkKind_ok hkind
    obtain ⟨hall, hle, hroom⟩ := allow_ok hkind hallow
    obtain ⟨found, rfl, hbytes⟩ := closureBytes_ok hclos
    obtain ⟨hof, hnodup, hnames, hle', hrooms⟩ := ih hmore
    refine ⟨.cons ⟨rfl, hall, found, hres, hbytes⟩ hof, ?_, ?_, Nat.le_trans hle hle', ?_⟩
    · rw [map_cons, nodup_cons]
      refine ⟨fun hmem => ?_, hnodup⟩
      obtain ⟨kind', hkind', heq⟩ := mem_map.mp hmem
      exact (hnames kind' hkind').2 (mem_append_right _ (mem_singleton.mpr heq))
    · intro kind' hkind'
      rcases mem_cons.mp hkind' with rfl | hkind'
      · exact ⟨hname, hfresh⟩
      exact ⟨(hnames kind' hkind').1, fun hmem => (hnames kind' hkind').2 (mem_append_left _ hmem)⟩
    intro c hc
    rcases mem_cons.mp hc with rfl | hc
    · exact fun hemits w hw => Nat.le_trans (hroom hemits w hw) hle'
    · exact hrooms c hc

end Candidates

/-! ## Phases -/

section Phases

variable {request : ProgramRequest} {available granularity retained : Bytes} {output blocks : Nat}
    {c : Candidate} {allowed : List Nat} {p : PlannedPhase}

theorem workingAt_ok {widths : List Nat} {ws : List PhaseWidth} : ∀ {largest r : Bytes},
    workingAt granularity widths largest ws = some r → largest.value ≤ r.value ∧
      (∀ w ∈ ws, w.positions ∈ widths → rounded w.working granularity ≤ r.value) ∧
      (r.value = largest.value ∨
        ∃ w ∈ ws, w.positions ∈ widths ∧ r.value = rounded w.working granularity) := by
  induction ws with
  | nil =>
    intro largest r h
    cases h
    exact ⟨Nat.le_refl _, fun w hw => (nomatch hw), .inl rfl⟩
  | cons w rest ih =>
    intro largest r h
    unfold workingAt at h
    split at h
    next hmem =>
      have hmem : w.positions ∈ widths := by simpa using hmem
      split at h
      · cases h
      rename_i bytes hbytes
      obtain ⟨hle, hall, hone⟩ := ih h
      rw [Bytes.max_value, roundUp_eq_some hbytes] at hle hone
      refine ⟨by omega, ?_, ?_⟩
      · intro w' hw' hpos
        rcases mem_cons.mp hw' with rfl | hw'
        · omega
        · exact hall w' hw' hpos
      rcases hone with heq | ⟨w', hw', hpos, heq⟩
      · rcases Nat.le_total largest.value (rounded w.working granularity) with hmax | hmax
        · exact .inr ⟨w, mem_cons_self, hmem, by rw [heq, Nat.max_eq_right hmax]⟩
        · exact .inl (by rw [heq, Nat.max_eq_left hmax])
      · exact .inr ⟨w', mem_cons_of_mem _ hw', hpos, heq⟩
    next hmem =>
      obtain ⟨hle, hall, hone⟩ := ih h
      refine ⟨hle, ?_, ?_⟩
      · intro w' hw' hpos
        rcases mem_cons.mp hw' with rfl | hw'
        · exact absurd (by simpa using hpos) hmem
        · exact hall w' hw' hpos
      rcases hone with heq | ⟨w', hw', hpos, heq⟩
      · exact .inl heq
      · exact .inr ⟨w', mem_cons_of_mem _ hw', hpos, heq⟩

structure PlannedAt (request : ProgramRequest) (available granularity retained : Bytes)
    (output blocks : Nat) (c : Candidate) (allowed : List Nat) (p : PlannedPhase) : Prop where
  kind : p.kind = c.kind.name
  width : p.width = allowed.getLastD 0
  widths : p.widths = allowed
  closure : p.closure = c.closure
  working : workingAt granularity allowed Bytes.zero c.kind.widths = some p.working
  envelope : p.envelope.value = p.closure.value + p.working.value
  fits : retained.value + p.envelope.value ≤ available.value
  count : phaseCount request output blocks c.kind allowed = some p.maxCount

theorem planAt_fits
    (h : planAt request available granularity output blocks retained c allowed = .ok (.inl p)) :
    PlannedAt request available granularity retained output blocks c allowed p := by
  unfold planAt at h
  simp only at h
  split at h
  · cases h
  rename_i working envelope required hsums
  simp only [Option.bind_eq_bind, Option.pure_def, Option.bind_eq_some_iff, Option.some.injEq,
    Prod.mk.injEq] at hsums
  obtain ⟨working', hwor, envelope', henv, required', hreq, rfl, rfl, rfl⟩ := hsums
  split at h
  · cases h
  rename_i hfits
  split at h
  · cases h
  rename_i count hcount
  obtain rfl := Sum.inl.inj (Except.ok.inj h)
  have hreq := Bytes.plus_eq_some.mp hreq
  have henv := Bytes.plus_eq_some.mp henv
  exact ⟨rfl, rfl, rfl, rfl, hwor, henv, by simp only; omega, hcount⟩

theorem planAt_refuses {rejection : ProgramRejection}
    (h : planAt request available granularity output blocks retained c allowed =
      .ok (.inr rejection)) :
    ∃ working, workingAt granularity allowed Bytes.zero c.kind.widths = some working ∧
      available.value < retained.value + (c.closure.value + working.value) := by
  unfold planAt at h
  simp only at h
  split at h
  · cases h
  rename_i working envelope required hsums
  simp only [Option.bind_eq_bind, Option.pure_def, Option.bind_eq_some_iff, Option.some.injEq,
    Prod.mk.injEq] at hsums
  obtain ⟨working', hwor, envelope', henv, required', hreq, rfl, rfl, rfl⟩ := hsums
  split at h
  next hfits =>
    have hreq := Bytes.plus_eq_some.mp hreq
    have henv := Bytes.plus_eq_some.mp henv
    exact ⟨working', hwor, by omega⟩
  split at h
  · cases h
  · cases h

theorem planWidths_ok : ∀ {tries i : Nat} {narrowest : Option ProgramRejection},
    planWidths request available granularity output blocks retained c tries i narrowest = .ok p →
    ∃ k, i ≤ k ∧ k < i + tries ∧
      PlannedAt request available granularity retained output blocks c
        (c.allowed.take (c.allowed.length - k)) p ∧
      ∀ j, i ≤ j → j < k → ∃ rejection, planAt request available granularity output blocks retained
        c (c.allowed.take (c.allowed.length - j)) = .ok (.inr rejection) := by
  intro tries
  induction tries with
  | zero =>
    intro i narrowest h
    cases h
  | succ tries ih =>
    intro i narrowest h
    obtain ⟨tried, htried, h⟩ := bind_ok h
    split at h
    · cases h
      exact ⟨i, Nat.le_refl _, by omega, planAt_fits htried, fun j hj hlt => by omega⟩
    rename_i rejection
    obtain ⟨k, hk, hlt, hplan, hwider⟩ := ih h
    refine ⟨k, by omega, by omega, hplan, fun j hj hjk => ?_⟩
    rcases Nat.eq_or_lt_of_le hj with rfl | hj
    · exact ⟨rejection, htried⟩
    · exact hwider j hj hjk

section

variable (hprompt : request.prompt ≤ uint64Max) (hout : output ≤ uint64Max)
    (hblocks : blocks ≤ uint64Max)
include hprompt hout hblocks

theorem phaseCount_le {kind : PhaseKind} {n : Nat}
    (h : phaseCount request output blocks kind allowed = some n) :
    n ≤ uint64Max := by
  unfold phaseCount at h
  split at h
  · cases h
    exact Nat.le_trans (ceilDiv_le _ _) hprompt
  · cases h
    exact hout
  · unfold multiply at h
    split at h
    · cases h
      assumption
    · cases h
  cases h
  exact hblocks

theorem planPhases_ok {cs : List Candidate} : ∀ {largest largest' : Bytes} {count count' : Nat}
    {phases : List PlannedPhase},
    planPhases request available granularity output blocks retained largest count cs =
      .ok (phases, largest', count') →
    List.Forall₂ (fun c p => planWidths request available granularity output blocks retained c
        c.tries 0 none = .ok p) cs phases ∧
      largest.value ≤ largest'.value ∧ (∀ p ∈ phases, p.envelope.value ≤ largest'.value) ∧
      (largest'.value = largest.value ∨ ∃ p ∈ phases, largest'.value = p.envelope.value) ∧
      count' = count + (phases.map PlannedPhase.maxCount).sum ∧
      (count ≤ uint64Max → count' ≤ uint64Max) := by
  induction cs with
  | nil =>
    intro largest largest' count count' phases h
    obtain ⟨rfl, hpair⟩ := Prod.mk.inj (Except.ok.inj h)
    cases hpair
    exact ⟨.nil, Nat.le_refl _, fun p hp => (nomatch hp), .inl rfl, rfl, id⟩
  | cons c cs ih =>
    intro largest largest' count count' phases h
    obtain ⟨planned, hplan, h⟩ := bind_ok h
    split at h
    · cases h
    rename_i hcount
    obtain ⟨⟨more, largest1, count1⟩, hmore, h⟩ := bind_ok h
    obtain ⟨rfl, hpair⟩ := Prod.mk.inj (Except.ok.inj h)
    cases hpair
    obtain ⟨hphases, hle, hall, hone, hsum, hbound⟩ := ih hmore
    rw [Bytes.max_value] at hle hone
    have hleft := Nat.le_trans (Nat.le_max_left _ _) hle
    have hright := Nat.le_trans (Nat.le_max_right _ _) hle
    obtain ⟨k, -, -, hplanAt, -⟩ := planWidths_ok hplan
    have hmost := phaseCount_le hprompt hout hblocks hplanAt.count
    have hnext : count + planned.maxCount ≤ uint64Max := by
      omega
    refine ⟨.cons hplan hphases, hleft, ?_, ?_, ?_, fun _ => hbound hnext⟩
    · intro p hp
      rcases mem_cons.mp hp with rfl | hp
      · exact hright
      · exact hall p hp
    · rcases hone with heq | ⟨p, hp, heq⟩
      · rcases Nat.le_total largest.value planned.envelope.value with hmax | hmax
        · exact .inr ⟨planned, mem_cons_self, by rw [heq, Nat.max_eq_right hmax]⟩
        · exact .inl (by rw [heq, Nat.max_eq_left hmax])
      · exact .inr ⟨p, mem_cons_of_mem _ hp, heq⟩
    · rw [hsum, map_cons, sum_cons, Nat.add_assoc]

end

end Phases

/-! ## A kind as planned -/

section Kinds

variable {contract : ProgramContract} {context : ModelContext} {catalog : Catalog}
  {domain : DomainId} {request : ProgramRequest} {available granularity retained : Bytes}
  {output blocks : Nat} {kind : PhaseKind} {c : Candidate} {p : PlannedPhase}

theorem mem_take_iff {l : List Nat} (h : l.Pairwise (· < ·)) {m : Nat} (hm : 0 < m)
    (hle : m ≤ l.length) {w : Nat} (hw : w ∈ l) : w ∈ l.take m ↔ w ≤ (l.take m).getLastD 0 := by
  have hne : l.take m ≠ [] := by
    intro hnil
    have := congrArg List.length hnil
    rw [length_take, length_nil] at this
    omega
  have hlast : (l.take m).getLastD 0 = (l.take m).getLast hne := by
    rw [getLastD_eq_getLast?, getLast?_eq_some_getLast hne, getD_some]
  have hsplit := pairwise_append.mp ((take_append_drop m l).symm ▸ h)
  rw [hlast]
  constructor
  · intro hmem
    -- ascending, so nothing is past the last
    obtain ⟨front, hfront⟩ : ∃ front, l.take m = front ++ [(l.take m).getLast hne] :=
      ⟨_, (dropLast_append_getLast hne).symm⟩
    have hpair := hsplit.1
    rw [hfront] at hpair hmem
    rcases mem_append.mp hmem with hmem | hmem
    · exact Nat.le_of_lt ((pairwise_append.mp hpair).2.2 w hmem _ (mem_singleton.mpr rfl))
    · exact Nat.le_of_eq (mem_singleton.mp hmem)
  intro hle'
  rcases mem_append.mp ((take_append_drop m l).symm ▸ hw) with hmem | hmem
  · exact hmem
  have := hsplit.2.2 _ (getLast_mem hne) w hmem
  omega

structure Fits (contract : ProgramContract) (context : ModelContext) (catalog : Catalog)
    (domain : DomainId) (request : ProgramRequest) (available granularity retained : Bytes)
    (kind : PhaseKind) (p : PlannedPhase) : Prop where
  name : p.kind = kind.name
  closure : ∃ closure, context.closureOf catalog kind.components = .ok (.ok closure) ∧
    p.closure = (closure.bytesByDomain.find? domain).getD Bytes.zero
  validated : ∀ w ∈ p.widths, w ∈ kind.positions ∧ 0 < w ∧ w ≤ p.width
  widest : p.width ∈ p.widths
  working : ∀ width ∈ kind.widths, width.positions ∈ p.widths →
    retained.value + (p.closure.value + rounded width.working granularity) ≤ available.value
  envelope : p.envelope.value = p.closure.value + p.working.value
  largest : (∀ width ∈ kind.widths, width.positions ∈ p.widths →
      rounded width.working granularity ≤ p.working.value) ∧
    ∃ width ∈ kind.widths, width.positions ∈ p.widths ∧
      p.working.value = rounded width.working granularity
  chunk : kind.rule = .chunk → (∀ w ∈ kind.positions, w ∈ p.widths ↔ w ≤ p.width) ∧
    ∀ width ∈ kind.widths, (∀ narrower ∈ kind.widths, narrower.positions ≤ width.positions →
      retained.value + (p.closure.value + rounded narrower.working granularity) ≤
        available.value) → width.positions ≤ p.width
  fixed : kind.rule ≠ .chunk → ∀ w ∈ p.widths, w ≤ fixedWidth contract.mode request kind.rule

theorem planned_widths (h : planWidths request available granularity output blocks retained c
    c.tries 0 none = .ok p) : ∀ w ∈ p.widths, w ∈ c.allowed := by
  obtain ⟨k, -, -, hplan, -⟩ := planWidths_ok h
  intro w hw
  rw [hplan.widths] at hw
  exact mem_of_mem_take hw

theorem fits_of_planned (hof : Candidate.Of contract context catalog domain request kind c)
    (h : planWidths request available granularity output blocks retained c c.tries 0 none = .ok p) :
    Fits contract context catalog domain request available granularity retained kind p := by
  obtain ⟨rfl, hallows, hclos⟩ := hof
  obtain ⟨k, -, hk, hplan, hwider⟩ := planWidths_ok h
  have hpos := length_pos_iff.mpr hallows.nonempty
  have htries : c.tries ≤ c.allowed.length := by
    unfold Candidate.tries
    split <;> omega
  have hlen : (c.allowed.take (c.allowed.length - k)).length = c.allowed.length - k := by
    rw [length_take]
    omega
  have hne : c.allowed.take (c.allowed.length - k) ≠ [] := by
    intro hnil
    rw [hnil, length_nil] at hlen
    omega
  have hlast : p.width = (c.allowed.take (c.allowed.length - k)).getLast hne := by
    rw [hplan.width, getLastD_eq_getLast?, getLast?_eq_some_getLast hne, getD_some]
  have hmemWidth : p.width ∈ p.widths := by
    rw [hplan.widths, hlast]
    exact getLast_mem hne
  have hsub := planned_widths h
  obtain ⟨-, hall, hone⟩ := workingAt_ok hplan.working
  have hfits := hplan.fits
  have henv := hplan.envelope
  have hall' : ∀ width ∈ c.kind.widths, width.positions ∈ p.widths →
      rounded width.working granularity ≤ p.working.value := by
    intro width hwidth hmem
    rw [hplan.widths] at hmem
    exact hall width hwidth hmem
  have hmem : ∀ w ∈ c.allowed, w ∈ p.widths ↔ w ≤ p.width := by
    intro w hw
    rw [hplan.widths, hplan.width]
    exact mem_take_iff hallows.ascending (by omega) (Nat.sub_le _ _) hw
  refine ⟨hplan.kind, ?_, ?_, hmemWidth, ?_, henv, ⟨hall', ?_⟩, ?_, ?_⟩
  · rw [hplan.closure]
    exact hclos
  · intro w hw
    have hval := hallows.validated w (hsub w hw)
    exact ⟨hval, hallows.positive w hval, (hmem w (hsub w hw)).mp hw⟩
  · intro width hwidth hmem
    have := hall' width hwidth hmem
    omega
  · rcases hone with heq | ⟨width, hwidth, hposi, heq⟩
    · obtain ⟨width, hwidth, hposi⟩ := mem_map.mp (hallows.validated _ (hsub _ hmemWidth))
      rw [← hposi] at hmemWidth
      have hle := hall' width hwidth hmemWidth
      rw [heq, Bytes.zero_value] at hle
      exact ⟨width, hwidth, hmemWidth, by rw [heq, Bytes.zero_value]; omega⟩
    rw [← hplan.widths] at hposi
    exact ⟨width, hwidth, hposi, heq⟩
  · intro hchunk
    obtain ⟨hposi, -⟩ := hallows.chunk hchunk
    rw [← hposi]
    refine ⟨hmem, fun width hwidth hholds => ?_⟩
    by_contra hnot
    -- a wider width was tried with all the narrower ones, and did not fit
    have hwidthMem : width.positions ∈ c.allowed := by
      rw [hposi]
      exact mem_map.mpr ⟨width, hwidth, rfl⟩
    obtain ⟨j, hj, hget⟩ := mem_iff_getElem.mp hwidthMem
    have hpast : c.allowed.length - k ≤ j := by
      by_contra hlt
      refine hnot ((hmem _ hwidthMem).mp ?_)
      rw [hplan.widths, ← hget]
      exact mem_take_iff_getElem.mpr ⟨j, by omega, rfl⟩
    obtain ⟨rejection, hrej⟩ := hwider (c.allowed.length - (j + 1)) (Nat.zero_le _) (by omega)
    rw [show c.allowed.length - (c.allowed.length - (j + 1)) = j + 1 by omega] at hrej
    obtain ⟨working, hwor, hover⟩ := planAt_refuses hrej
    have hlastWidth : (c.allowed.take (j + 1)).getLastD 0 = width.positions := by
      rw [take_succ_eq_append_getElem hj, getLastD_concat, hget]
    obtain ⟨-, -, hone'⟩ := workingAt_ok hwor
    have hclosEq := congrArg Bytes.value hplan.closure
    rcases hone' with heq | ⟨narrower, hnar, hwit, heq⟩
    · have hself := hholds width hwidth (Nat.le_refl _)
      rw [heq, Bytes.zero_value] at hover
      omega
    have hle : narrower.positions ≤ width.positions := by
      rw [← hlastWidth]
      exact (mem_take_iff hallows.ascending (by omega) hj (mem_of_mem_take hwit)).mp hwit
    have hself := hholds narrower hnar hle
    omega
  intro hrule w hw
  exact hallows.fixed hrule w (hsub w hw)

end Kinds

/-! ## The plan -/

section Plan

variable {contract : ProgramContract} {context : ModelContext} {catalog : Catalog}
  {domain : DomainId} {request : ProgramRequest} {available granularity : Bytes}
  {plan : ProgramPlan}

/-- What `PlanProgram` has of a plan it accepts. -/
structure Accepted (contract : ProgramContract) (context : ModelContext) (catalog : Catalog)
    (domain : DomainId) (request : ProgramRequest) (available granularity : Bytes)
    (plan : ProgramPlan) : Prop where
  bound : plan.prompt = request.prompt ∧ plan.stateBound = plan.prompt + plan.output ∧
    plan.stateBound ≤ contract.contextLimit
  wire : 0 < contract.mode.wirePerPosition.value
  retained : plan.envelope.retained.value = sumOf plan.retained
  phases : List.Forall₂ (Fits contract context catalog domain request available granularity
    plan.envelope.retained) contract.phases plan.phases
  names : (contract.phases.map PhaseKind.name).Nodup
  named : ∀ kind ∈ contract.phases, kind.name ≠ ""
  largest : (∀ p ∈ plan.phases, p.envelope.value ≤ plan.envelope.phase.value) ∧
    ∃ p ∈ plan.phases, plan.envelope.phase.value = p.envelope.value
  count : plan.maxPhases = (plan.phases.map PlannedPhase.maxCount).sum ∧
    plan.maxPhases ≤ uint64Max
  room : List.Forall₂ (fun kind p => kind.emits = true → kind.rule ≠ .chunk ∧ ∀ w ∈ p.widths,
    w * contract.mode.wirePerPosition.value ≤ plan.outputCapacity.value) contract.phases plan.phases

theorem forall₂_trans {α β γ : Type} {R : α → β → Prop} {S : β → γ → Prop} {T : α → γ → Prop}
    (hRS : ∀ a b c, R a b → S b c → T a c) : ∀ {as : List α} {bs : List β} {cs : List γ},
    List.Forall₂ R as bs → List.Forall₂ S bs cs → List.Forall₂ T as cs
  | _, _, _, .nil, .nil => .nil
  | _, _, _, .cons h hs, .cons h' hs' => .cons (hRS _ _ _ h h') (forall₂_trans hRS hs hs')

theorem forall₂_mem {α β : Type} {R : α → β → Prop} : ∀ {as : List α} {bs : List β},
    List.Forall₂ R as bs → List.Forall₂ (fun a b => R a b ∧ a ∈ as ∧ b ∈ bs) as bs
  | _, _, .nil => .nil
  | _, _, .cons h hs => .cons ⟨h, mem_cons_self, mem_cons_self⟩
      ((forall₂_mem hs).imp fun _ _ h =>
        ⟨h.1, mem_cons_of_mem _ h.2.1, mem_cons_of_mem _ h.2.2⟩)

theorem planProgram_accepted (h : planProgram contract context catalog domain request available
    granularity = .ok (.ok plan)) :
    Accepted contract context catalog domain request available granularity plan := by
  unfold planProgram at h
  split at h
  · cases Except.ok.inj h
  rename_i blocks output bound items hbounds
  obtain ⟨kinds, hkinds, h⟩ := bind_ok h
  split at h
  · cases Except.ok.inj h
  rename_i cs capacity
  have h := Except.ok.inj h
  obtain ⟨⟨hbound, hle, hblocks⟩, hwire, hsome⟩ := planBounds_ok hbounds
  obtain ⟨hof, hnodup, hnames, -, hroom⟩ := candidates_ok hkinds
  have hlimit := contract.limitBound
  unfold planEnvelopes at h
  split at h
  · cases h
  obtain ⟨retained, hret, h⟩ := bind_ok h
  obtain ⟨⟨phases, phase, maxPhases⟩, hphases, h⟩ := bind_ok h
  cases h
  obtain ⟨hplan, -, hlar, hatt, hsum, hmost⟩ :=
    planPhases_ok (by omega) (by omega) (by omega) hphases
  constructor
  · exact ⟨rfl, hbound, hle⟩
  · exact hwire
  · rw [retainedSum_ok hret, Bytes.zero_value, Nat.zero_add]
  · refine forall₂_trans (fun kind c p hc hp => ?_) hof hplan
    exact fits_of_planned hc hp
  · exact hnodup
  · exact fun kind hkind => (hnames kind hkind).1
  · refine ⟨hlar, ?_⟩
    rcases hatt with hzero | hsome'
    · obtain ⟨p, hp⟩ : ∃ p, p ∈ phases := by
        refine exists_mem_of_ne_nil _ fun hnil => hsome ?_
        rw [hnil] at hplan
        rw [forall₂_nil_right_iff.mp hplan] at hof
        exact forall₂_nil_right_iff.mp hof
      have hle := hlar p hp
      exact ⟨p, hp, by rw [hzero, Bytes.zero_value] at hle ⊢; omega⟩
    · exact hsome'
  · exact ⟨by rw [hsum, Nat.zero_add], hmost (Nat.zero_le _)⟩
  refine forall₂_trans (fun kind c p hc hp => ?_) (forall₂_mem hof) hplan
  obtain ⟨⟨rfl, hall, -⟩, -, hmem⟩ := hc
  intro hemits
  refine ⟨fun hchunk => ?_, fun w hw => hroom c hmem hemits w (planned_widths hp w hw)⟩
  rw [(hall.chunk hchunk).2] at hemits
  cases hemits

/-- **A plan fits wherever it may run.** -/
theorem planProgram_fits (h : planProgram contract context catalog domain request available
    granularity = .ok (.ok plan)) :
    plan.prompt + plan.output = plan.stateBound ∧ plan.stateBound ≤ contract.contextLimit ∧
    plan.envelope.retained.value = (plan.retained.map fun item => item.bytes.value).sum ∧
    List.Forall₂ (fun kind p => p.kind = kind.name ∧
      (∃ closure, context.closureOf catalog kind.components = .ok (.ok closure) ∧
        p.closure = (closure.bytesByDomain.find? domain).getD Bytes.zero) ∧
      (∀ w ∈ p.widths, w ∈ kind.positions) ∧ p.width ∈ p.widths ∧
      (∀ width ∈ kind.widths, width.positions ∈ p.widths →
        plan.envelope.retained.value + (p.closure.value +
          ceilDiv width.working.value granularity.value * granularity.value) ≤ available.value ∧
        p.closure.value + ceilDiv width.working.value granularity.value * granularity.value ≤
          p.envelope.value) ∧
      (∃ width ∈ kind.widths, width.positions ∈ p.widths ∧ p.envelope.value =
        p.closure.value + ceilDiv width.working.value granularity.value * granularity.value) ∧
      (kind.rule = .chunk → (∀ w ∈ kind.positions, w ∈ p.widths ↔ w ≤ p.width) ∧
        ∀ width ∈ kind.widths, (∀ narrower ∈ kind.widths, narrower.positions ≤ width.positions →
          plan.envelope.retained.value + (p.closure.value +
            ceilDiv narrower.working.value granularity.value * granularity.value) ≤
              available.value) → width.positions ≤ p.width)) contract.phases plan.phases ∧
    (∀ p ∈ plan.phases, p.envelope.value ≤ plan.envelope.phase.value) ∧
    (∃ p ∈ plan.phases, plan.envelope.phase.value = p.envelope.value) ∧
    (plan.phases.map PlannedPhase.maxCount).sum = plan.maxPhases ∧ plan.maxPhases ≤ uint64Max := by
  have hacc := planProgram_accepted h
  obtain ⟨-, hbound, hlimit⟩ := hacc.bound
  refine ⟨hbound.symm, hlimit, hacc.retained, hacc.phases.imp fun kind p hp => ?_,
    hacc.largest.1, hacc.largest.2, hacc.count.1.symm, hacc.count.2⟩
  obtain ⟨width, hwidth, hmem, hwor⟩ := hp.largest.2
  have henv := hp.envelope
  refine ⟨hp.name, hp.closure, fun w hw => (hp.validated w hw).1, hp.widest,
    fun width hwidth hmem => ⟨hp.working width hwidth hmem, ?_⟩,
    ⟨width, hwidth, hmem, by rw [henv, hwor]; rfl⟩, hp.chunk⟩
  have := hp.largest.1 width hwidth hmem
  unfold rounded at this
  omega

def sampleKind : PhaseKind where
  name := "step"
  components := []
  widths := [⟨1, Bytes.zero⟩]
  emits := true

def sampleContract : ProgramContract where
  contextLimit := 8
  limitBound := by decide
  states := []
  working := []
  phases := [sampleKind]
  mode := { name := "token", wirePerPosition := ⟨4, by decide⟩ }

def sampleBytes : Bytes := ⟨16, by decide⟩

def samplePlan : Checked (Planned ProgramPlan) :=
  planProgram sampleContract ⟨[]⟩ {} {} { prompt := 2, maxOutput := 3 } sampleBytes sampleBytes

theorem samplePlan_ok : ∃ plan, samplePlan = .ok (.ok plan) := ⟨_, rfl⟩

theorem planProgram_fits_sample : ∃ plan, samplePlan = .ok (.ok plan) ∧
    plan.prompt + plan.output = plan.stateBound := by
  obtain ⟨plan, hplan⟩ := samplePlan_ok
  exact ⟨plan, hplan, (planProgram_fits hplan).1⟩

end Plan

end Execution
end JitLlm
