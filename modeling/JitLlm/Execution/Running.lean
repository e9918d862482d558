import JitLlm.Execution.Planning
import Mathlib.Algebra.Order.BigOperators.Group.List
import Mathlib.Algebra.Order.Group.Nat

/-!
# `execution/program.cc` — a program running

The cursor refuses a phase past the plan, the output buffer a position past its bound or bytes past
its capacity. Over every run of both, in any order: what is published and what is reserved fit, each
kind runs no more than planned, and a drained buffer has room for whatever the cursor allows next.
-/

namespace JitLlm

open Base Lib List

namespace Execution

open Catalog

/-! ## The cursor -/

structure CursorKind where
  name : String
  widths : List Nat
  maxCount : Nat
  count : Nat := 0

/-- `ProgramCursor`; `current` is the phase in flight, where the source has its name or, for none,
    the empty string, which is no kind's name. -/
structure ProgramCursor where
  kinds : List CursorKind
  current : Option String := none
  phasesRun : Nat := 0

namespace ProgramCursor

/-- One kind more, unless there is one of that name: the map's `emplace`. -/
def emplace (kinds : List CursorKind) (phase : PlannedPhase) : List CursorKind :=
  if kinds.any fun k => k.name = phase.kind then kinds
  else kinds ++ [{ name := phase.kind, widths := phase.widths, maxCount := phase.maxCount }]

def ofPlan (plan : ProgramPlan) : ProgramCursor where
  kinds := plan.phases.foldl emplace []

def counted (kinds : List CursorKind) (kind : String) : List CursorKind :=
  kinds.map fun k => if k.name = kind then { k with count := k.count + 1 } else k

def begin (c : ProgramCursor) (kind : String) (width : Nat) : Except ProgramError ProgramCursor :=
  if c.current.isSome then .error .wrongState
  else
    match c.kinds.find? fun k => k.name = kind with
    | none => .error .invalid
    | some planned =>
      if !planned.widths.contains width then .error .unsupported
      else if planned.count ≥ planned.maxCount then .error .beyondProgram
      else .ok {
        kinds := counted c.kinds kind
        current := some kind
        phasesRun := c.phasesRun + 1 }

/-- `End`. -/
def finish (c : ProgramCursor) : Except ProgramError ProgramCursor :=
  if c.current.isNone then .error .wrongState else .ok { c with current := none }

def countOf (c : ProgramCursor) (kind : String) : Nat :=
  match c.kinds.find? fun k => k.name = kind with
  | some k => k.count
  | none => 0

def Allows (c : ProgramCursor) (kind : String) (width : Nat) : Prop :=
  ∃ k, (c.kinds.find? fun k => k.name = kind) = some k ∧ width ∈ k.widths

end ProgramCursor

/-! ## The output buffer -/

structure OutputBuffer where
  capacity : Bytes
  bound : Nat
  used : Bytes := Bytes.zero
  reserved : Bytes := Bytes.zero
  reservedPositions : Nat := 0
  publishedPositions : Nat := 0

namespace OutputBuffer

def reserve (b : OutputBuffer) (bytes : Bytes) (positions : Nat) :
    Except ProgramError OutputBuffer :=
  if b.reserved ≠ Bytes.zero then .error .wrongState
  else if bytes = Bytes.zero || positions = 0 then .error .invalid
  else if positions > b.bound - b.publishedPositions then .error .beyondProgram
  else
    match b.used.plus bytes with
    | none => .error .outputFull
    | some after =>
      if after.value > b.capacity.value then .error .outputFull
      else .ok { b with reserved := bytes, reservedPositions := positions }

def cancel (b : OutputBuffer) : OutputBuffer :=
  { b with reserved := Bytes.zero, reservedPositions := 0 }

/-- `Publish`; the capacity is the fallback for a sum that would wrap. -/
def publish (b : OutputBuffer) (bytes : Bytes) (positions : Nat) :
    Except ProgramError OutputBuffer :=
  if b.reserved = Bytes.zero then .error .wrongState
  else if bytes.value > b.reserved.value || positions > b.reservedPositions then .error .invalid
  else .ok (cancel {
    b with
    used := (b.used.plus bytes).getD b.capacity
    publishedPositions := (b.publishedPositions + positions) % 2 ^ 64 })

def drain (b : OutputBuffer) (bytes : Bytes) : Except ProgramError OutputBuffer :=
  match b.used.minus bytes with
  | none => .error .invalid
  | some left => .ok { b with used := left }

end OutputBuffer

/-! ## Runs -/

inductive Call
  | begin (kind : String) (width : Nat)
  | finish
  | reserve (bytes : Bytes) (positions : Nat)
  | publish (bytes : Bytes) (positions : Nat)
  | cancel
  | drain (bytes : Bytes)

structure Program where
  cursor : ProgramCursor
  buffer : OutputBuffer

namespace Program

def ofPlan (plan : ProgramPlan) : Program where
  cursor := .ofPlan plan
  buffer := { capacity := plan.outputCapacity, bound := plan.output }

def onCursor (x : Program) : Except ProgramError ProgramCursor → Program
  | .ok cursor => { x with cursor }
  | .error _ => x

def onBuffer (x : Program) : Except ProgramError OutputBuffer → Program
  | .ok buffer => { x with buffer }
  | .error _ => x

def call (x : Program) : Call → Program
  | .begin kind width => x.onCursor (x.cursor.begin kind width)
  | .finish => x.onCursor x.cursor.finish
  | .reserve bytes positions => x.onBuffer (x.buffer.reserve bytes positions)
  | .publish bytes positions => x.onBuffer (x.buffer.publish bytes positions)
  | .cancel => { x with buffer := x.buffer.cancel }
  | .drain bytes => x.onBuffer (x.buffer.drain bytes)

def run (plan : ProgramPlan) (calls : List Call) : Program := calls.foldl call (ofPlan plan)

end Program

/-! ## The buffer's credits -/

/-- What is published and what is reserved fit, in bytes and in positions. -/
structure OutputBuffer.Held (b : OutputBuffer) : Prop where
  bytes : b.used.value + b.reserved.value ≤ b.capacity.value
  positions : b.publishedPositions + b.reservedPositions ≤ b.bound
  bound : b.bound ≤ uint64Max

section Buffer

variable {b b' : OutputBuffer} {bytes : Bytes} {positions : Nat}

theorem OutputBuffer.Held.reserve (h : b.Held) (hres : b.reserve bytes positions = .ok b') :
    b'.Held ∧ b'.capacity = b.capacity ∧ b'.bound = b.bound := by
  unfold OutputBuffer.reserve at hres
  split at hres
  · cases hres
  split at hres
  · cases hres
  split at hres
  · cases hres
  rename_i hpos
  split at hres
  · cases hres
  rename_i after hafter
  split at hres
  · cases hres
  cases hres
  have hafter := Bytes.plus_eq_some.mp hafter
  have := h.positions
  exact ⟨⟨by simp only; omega, by simp only; omega, h.bound⟩, rfl, rfl⟩

theorem OutputBuffer.Held.sum (h : b.Held) (hle : bytes.value ≤ b.reserved.value) :
    ∃ sum, b.used.plus bytes = some sum ∧ sum.value = b.used.value + bytes.value := by
  have hbytes := h.bytes
  have hcap := b.capacity.bound
  exact ⟨⟨b.used.value + bytes.value, by omega⟩, Bytes.plus_eq_some.mpr rfl, rfl⟩

theorem OutputBuffer.Held.cancel (h : b.Held) : b.cancel.Held := by
  have := h.bytes
  have := h.positions
  refine ⟨?_, ?_, h.bound⟩
  · show b.used.value + 0 ≤ b.capacity.value
    omega
  show b.publishedPositions + 0 ≤ b.bound
  omega

theorem OutputBuffer.Held.publish (h : b.Held) (hpub : b.publish bytes positions = .ok b') :
    b'.Held ∧ b'.capacity = b.capacity ∧ b'.bound = b.bound := by
  unfold OutputBuffer.publish at hpub
  split at hpub
  · cases hpub
  split at hpub
  · cases hpub
  rename_i hwit
  simp only [Bool.or_eq_true, decide_eq_true_eq, not_or, Nat.not_lt] at hwit
  cases hpub
  obtain ⟨sum, hsum, hvalue⟩ := h.sum hwit.1
  have hbytes := h.bytes
  have hpos := h.positions
  have hbound := h.bound
  unfold uint64Max at hbound
  have hmod : (b.publishedPositions + positions) % 2 ^ 64 = b.publishedPositions + positions :=
    Nat.mod_eq_of_lt (by omega)
  refine ⟨⟨?_, ?_, h.bound⟩, rfl, rfl⟩
  · show ((b.used.plus bytes).getD b.capacity).value + 0 ≤ b.capacity.value
    rw [hsum, Option.getD_some]
    omega
  show (b.publishedPositions + positions) % 2 ^ 64 + 0 ≤ b.bound
  rw [hmod]
  omega

theorem OutputBuffer.Held.drain (h : b.Held) (hdrain : b.drain bytes = .ok b') :
    b'.Held ∧ b'.capacity = b.capacity ∧ b'.bound = b.bound := by
  unfold OutputBuffer.drain at hdrain
  split at hdrain
  · cases hdrain
  rename_i left hleft
  cases hdrain
  have hleft := Bytes.minus_eq_some.mp hleft
  have := h.bytes
  exact ⟨⟨by simp only; omega, h.positions, h.bound⟩, rfl, rfl⟩

end Buffer

/-! ## The cursor's counts -/

/-- The kinds are the plan's, none run more than planned, and all that ran are counted. -/
structure ProgramCursor.Counted (plan : ProgramPlan) (c : ProgramCursor) : Prop where
  kinds : c.kinds.map (fun k => (k.name, k.widths, k.maxCount)) =
    plan.phases.map fun p => (p.kind, p.widths, p.maxCount)
  names : (c.kinds.map CursorKind.name).Nodup
  most : ∀ k ∈ c.kinds, k.count ≤ k.maxCount
  total : c.phasesRun = (c.kinds.map CursorKind.count).sum

section Cursor

variable {plan : ProgramPlan} {c c' : ProgramCursor} {kind : String} {width : Nat}

theorem ofPlan_kinds (hnodup : (plan.phases.map PlannedPhase.kind).Nodup) :
    (ProgramCursor.ofPlan plan).kinds = plan.phases.map fun p =>
      { name := p.kind, widths := p.widths, maxCount := p.maxCount } := by
  have hfold : ∀ (phases : List PlannedPhase) (kinds : List CursorKind),
      (kinds.map CursorKind.name ++ phases.map PlannedPhase.kind).Nodup →
      phases.foldl ProgramCursor.emplace kinds = kinds ++ phases.map fun p =>
        { name := p.kind, widths := p.widths, maxCount := p.maxCount } := by
    intro phases
    induction phases with
    | nil =>
      intro kinds _
      exact (append_nil _).symm
    | cons p rest ih =>
      intro kinds hnodup
      have hfresh : ¬ (kinds.any fun k => k.name = p.kind) = true := by
        intro hany
        obtain ⟨k, hk, heq⟩ := any_eq_true.mp hany
        have hdis := (nodup_append.mp hnodup).2.2
        exact hdis k.name (mem_map.mpr ⟨k, hk, rfl⟩) p.kind mem_cons_self (of_decide_eq_true heq)
      rw [foldl_cons, ProgramCursor.emplace, if_neg hfresh, ih _ (by simpa using hnodup)]
      simp
  exact hfold plan.phases [] (by simpa using hnodup)

theorem ofPlan_counted (hnodup : (plan.phases.map PlannedPhase.kind).Nodup) :
    (ProgramCursor.ofPlan plan).Counted plan := by
  have hkinds := ofPlan_kinds hnodup
  constructor
  · rw [hkinds, map_map]
    rfl
  · rw [hkinds, map_map]
    exact hnodup
  · intro k hk
    rw [hkinds] at hk
    obtain ⟨p, -, rfl⟩ := mem_map.mp hk
    exact Nat.zero_le _
  rw [hkinds, map_map]
  induction plan.phases with
  | nil => rfl
  | cons p rest ih => rw [map_cons, sum_cons, ← ih]; rfl

theorem counted_names (kinds : List CursorKind) (kind : String) :
    (ProgramCursor.counted kinds kind).map CursorKind.name = kinds.map CursorKind.name := by
  unfold ProgramCursor.counted
  rw [map_map]
  refine map_congr_left fun k _ => ?_
  show (if k.name = kind then _ else k).name = k.name
  split <;> rfl

theorem counted_sum : ∀ {kinds : List CursorKind} {k : CursorKind},
    (kinds.map CursorKind.name).Nodup → k ∈ kinds →
    ((ProgramCursor.counted kinds k.name).map CursorKind.count).sum =
      (kinds.map CursorKind.count).sum + 1 := by
  intro kinds
  induction kinds with
  | nil => exact nofun
  | cons a rest ih =>
    intro k hnodup hk
    obtain ⟨hfresh, hrest⟩ := nodup_cons.mp hnodup
    show (if a.name = k.name then { a with count := a.count + 1 } else a : CursorKind).count +
      ((ProgramCursor.counted rest k.name).map CursorKind.count).sum = _
    rcases mem_cons.mp hk with rfl | hk
    · have hsame : ProgramCursor.counted rest k.name = rest := by
        refine (map_congr_left fun r hr => ?_).trans (map_id _)
        refine if_neg fun heq => hfresh ?_
        rw [← heq]
        exact mem_map.mpr ⟨r, hr, rfl⟩
      rw [if_pos rfl, hsame, map_cons, sum_cons]
      simp only
      omega
    have hne : a.name ≠ k.name := fun heq => hfresh (by
      rw [heq]
      exact mem_map.mpr ⟨k, hk, rfl⟩)
    rw [if_neg hne, ih hrest hk, map_cons, sum_cons, Nat.add_assoc]

theorem ProgramCursor.Counted.begin (h : c.Counted plan) (hbegin : c.begin kind width = .ok c') :
    c'.Counted plan ∧ c.current = none := by
  unfold ProgramCursor.begin at hbegin
  split at hbegin
  · cases hbegin
  rename_i hcur
  split at hbegin
  · cases hbegin
  rename_i planned hfind
  split at hbegin
  · cases hbegin
  split at hbegin
  · cases hbegin
  rename_i hcount
  cases hbegin
  have hmem := mem_of_find?_eq_some hfind
  have hname : planned.name = kind := by simpa using find?_some hfind
  subst hname
  refine ⟨⟨?_, ?_, ?_, ?_⟩, by simpa using hcur⟩
  · rw [← h.kinds]
    show (ProgramCursor.counted c.kinds planned.name).map _ = _
    unfold ProgramCursor.counted
    rw [map_map]
    refine map_congr_left fun k _ => ?_
    simp only [Function.comp]
    split <;> rfl
  · show (ProgramCursor.counted c.kinds planned.name).map _ |>.Nodup
    rw [counted_names]
    exact h.names
  · intro k hk
    obtain ⟨k0, hk0, rfl⟩ := mem_map.mp hk
    split
    next heq =>
      have hsame : k0 = planned := inj_on_of_nodup_map h.names hk0 hmem heq
      subst hsame
      simp only
      omega
    · exact h.most k0 hk0
  show c.phasesRun + 1 = _
  rw [h.total]
  exact (counted_sum h.names hmem).symm

theorem ProgramCursor.Counted.finish (h : c.Counted plan) (hfin : c.finish = .ok c') :
    c'.Counted plan := by
  unfold ProgramCursor.finish at hfin
  split at hfin
  · cases hfin
  cases hfin
  exact ⟨h.kinds, h.names, h.most, h.total⟩

theorem countOf_begin (hbegin : c.begin kind width = .ok c') (other : String) :
    c'.countOf other = c.countOf other + if kind = other then 1 else 0 := by
  unfold ProgramCursor.begin at hbegin
  split at hbegin
  · cases hbegin
  split at hbegin
  · cases hbegin
  rename_i planned hfind
  split at hbegin
  · cases hbegin
  split at hbegin
  · cases hbegin
  cases hbegin
  unfold ProgramCursor.countOf ProgramCursor.counted
  have hfind' : ((c.kinds.map fun k =>
      if k.name = kind then { k with count := k.count + 1 } else k).find?
        fun k => decide (k.name = other)) = (c.kinds.find? fun k => decide (k.name = other)).map
          fun k => if k.name = kind then { k with count := k.count + 1 } else k := by
    rw [find?_map]
    congr 1
    congr 1
    funext k
    simp only [Function.comp]
    split <;> rfl
  simp only [hfind']
  cases hother : c.kinds.find? fun k => decide (k.name = other) with
  | none =>
    have hne : kind ≠ other := by
      rintro rfl
      rw [hother] at hfind
      cases hfind
    simp [hne]
  | some k =>
    have hname : k.name = other := by simpa using find?_some hother
    simp only [Option.map_some, hname]
    by_cases heq : kind = other
    · rw [if_pos heq.symm, if_pos heq]
    · rw [if_neg fun h => heq h.symm, if_neg heq, Nat.add_zero]

end Cursor

/-! ## Every run -/

namespace Program

def begins (kind : String) (x : Program) : Call → Nat
  | .begin k width => if k = kind ∧ (x.cursor.begin k width).isOk then 1 else 0
  | _ => 0

def begun (kind : String) : Program → List Call → Nat
  | _, [] => 0
  | x, call :: rest => x.begins kind call + begun kind (x.call call) rest

structure Kept (plan : ProgramPlan) (x : Program) : Prop where
  counted : x.cursor.Counted plan
  held : x.buffer.Held
  capacity : x.buffer.capacity = plan.outputCapacity
  bound : x.buffer.bound = plan.output

variable {plan : ProgramPlan} {x : Program}

theorem Kept.onCursor (h : x.Kept plan) {r : Except ProgramError ProgramCursor}
    (hr : ∀ cursor, r = .ok cursor → cursor.Counted plan) : (x.onCursor r).Kept plan := by
  cases r with
  | error => exact h
  | ok cursor => exact ⟨hr cursor rfl, h.held, h.capacity, h.bound⟩

theorem Kept.onBuffer (h : x.Kept plan) {r : Except ProgramError OutputBuffer}
    (hr : ∀ buffer, r = .ok buffer → buffer.Held ∧ buffer.capacity = x.buffer.capacity ∧
      buffer.bound = x.buffer.bound) : (x.onBuffer r).Kept plan := by
  cases r with
  | error => exact h
  | ok buffer =>
    obtain ⟨hheld, hcap, hbound⟩ := hr buffer rfl
    exact ⟨h.counted, hheld, hcap.trans h.capacity, hbound.trans h.bound⟩

theorem Kept.call (h : x.Kept plan) (call : Call) : (x.call call).Kept plan := by
  cases call with
  | begin => exact h.onCursor fun _ hbegin => (h.counted.begin hbegin).1
  | finish => exact h.onCursor fun _ hfin => h.counted.finish hfin
  | reserve => exact h.onBuffer fun _ hres => h.held.reserve hres
  | publish => exact h.onBuffer fun _ hpub => h.held.publish hpub
  | cancel => exact ⟨h.counted, h.held.cancel, h.capacity, h.bound⟩
  | drain => exact h.onBuffer fun _ hdrain => h.held.drain hdrain

theorem onBuffer_cursor (r : Except ProgramError OutputBuffer) :
    (x.onBuffer r).cursor = x.cursor := by
  cases r <;> rfl

theorem Kept.calls (h : x.Kept plan) (calls : List Call) :
    (calls.foldl Program.call x).Kept plan ∧ ∀ kind,
      (calls.foldl Program.call x).cursor.countOf kind =
        x.cursor.countOf kind + begun kind x calls := by
  induction calls generalizing x with
  | nil => exact ⟨h, fun _ => rfl⟩
  | cons call rest ih =>
    obtain ⟨hkept, hcount⟩ := ih (h.call call)
    refine ⟨hkept, fun kind => ?_⟩
    rw [foldl_cons, hcount, begun, ← Nat.add_assoc]
    congr 1
    cases call with
    | begin k width =>
      show (x.onCursor (x.cursor.begin k width)).cursor.countOf kind =
        x.cursor.countOf kind + if k = kind ∧ (x.cursor.begin k width).isOk then 1 else 0
      rcases hbegin : x.cursor.begin k width with _ | cursor
      · simp [Program.onCursor, Except.isOk, Except.toBool]
      show cursor.countOf kind = _
      rw [countOf_begin hbegin]
      simp [Except.isOk, Except.toBool]
    | finish =>
      show (x.onCursor x.cursor.finish).cursor.countOf kind = _
      unfold ProgramCursor.finish
      split <;> rfl
    | reserve | publish | drain => exact congrArg (ProgramCursor.countOf · kind) (onBuffer_cursor _)
    | cancel => rfl

end Program

/-! ## An admitted program -/

section Admitted

variable {contract : ProgramContract} {context : ModelContext} {catalog : Catalog} {α β : Type}
  {domain : DomainId} {request : ProgramRequest} {available granularity : Bytes}
  {plan : ProgramPlan}

theorem forall₂_map_eq {γ : Type} {R : α → β → Prop} {f : α → γ} {g : β → γ}
    (hR : ∀ a b, R a b → g b = f a) {as : List α} {bs : List β} (h : List.Forall₂ R as bs) :
    bs.map g = as.map f := by
  induction h with
  | nil => rfl
  | cons hab _ ih => rw [map_cons, map_cons, hR _ _ hab, ih]

theorem forall₂_and {R S : α → β → Prop} : ∀ {as : List α} {bs : List β},
    List.Forall₂ R as bs → List.Forall₂ S as bs → List.Forall₂ (fun a b => R a b ∧ S a b) as bs
  | _, _, .nil, .nil => .nil
  | _, _, .cons h hs, .cons h' hs' => .cons ⟨h, h'⟩ (forall₂_and hs hs')

theorem forall₂_right {R : α → β → Prop} {as : List α} {bs : List β}
    (h : List.Forall₂ R as bs) : ∀ b ∈ bs, ∃ a ∈ as, R a b := by
  induction h with
  | nil => exact fun b hb => (nomatch hb)
  | cons hab _ ih =>
    intro b hb
    rcases mem_cons.mp hb with rfl | hb
    · exact ⟨_, mem_cons_self, hab⟩
    obtain ⟨a, ha, hR⟩ := ih b hb
    exact ⟨a, mem_cons_of_mem _ ha, hR⟩

section

variable (h : Accepted contract context catalog domain request available granularity plan)
include h

theorem Accepted.kinds : (plan.phases.map PlannedPhase.kind).Nodup := by
  rw [forall₂_map_eq (f := PhaseKind.name) (fun kind p hp => hp.name) h.phases]
  exact h.names

theorem Accepted.kept : (Program.ofPlan plan).Kept plan := by
  obtain ⟨-, hbound, hlimit⟩ := h.bound
  have := contract.limitBound
  refine ⟨ofPlan_counted h.kinds, ⟨Nat.zero_le _, Nat.zero_le _, ?_⟩, rfl, rfl⟩
  show plan.output ≤ uint64Max
  omega

end

variable {c : ProgramCursor}

theorem Accepted.allowed (h : Accepted contract context catalog domain request available
    granularity plan) (hc : c.Counted plan) {kind : PhaseKind}
    (hkind : kind ∈ contract.phases) (hemits : kind.emits = true) {w : Nat}
    (hall : c.Allows kind.name w) :
    0 < w ∧ w * contract.mode.wirePerPosition.value ≤ plan.outputCapacity.value := by
  obtain ⟨k, hfind, hw⟩ := hall
  have hmem := mem_of_find?_eq_some hfind
  have hname : k.name = kind.name := by simpa using find?_some hfind
  have hplan : (k.name, k.widths, k.maxCount) ∈
      plan.phases.map fun p => (p.kind, p.widths, p.maxCount) := by
    rw [← hc.kinds]
    exact mem_map.mpr ⟨k, hmem, rfl⟩
  obtain ⟨p, hp, heq⟩ := mem_map.mp hplan
  simp only [Prod.mk.injEq] at heq
  obtain ⟨hpname, hpwid, -⟩ := heq
  obtain ⟨kind', hkind', hfits, hroom⟩ := forall₂_right
    (R := fun kind p => Fits contract context catalog domain request available granularity
      plan.envelope.retained kind p ∧ (kind.emits = true → kind.rule ≠ .chunk ∧ ∀ w ∈ p.widths,
        w * contract.mode.wirePerPosition.value ≤ plan.outputCapacity.value))
    (forall₂_and h.phases h.room) p hp
  have hsame : kind' = kind := by
    refine inj_on_of_nodup_map h.names hkind' hkind ?_
    rw [← hfits.name, hpname, hname]
  subst hsame
  rw [← hpwid] at hw
  exact ⟨(hfits.validated w hw).2.1, (hroom hemits).2 w hw⟩

theorem ProgramCursor.Counted.countOf_le (hc : c.Counted plan)
    {p : PlannedPhase} (hkinds : (plan.phases.map PlannedPhase.kind).Nodup) (hp : p ∈ plan.phases) :
    c.countOf p.kind ≤ p.maxCount := by
  unfold ProgramCursor.countOf
  split
  next k hfind =>
    have hmem := mem_of_find?_eq_some hfind
    have hname : k.name = p.kind := by simpa using find?_some hfind
    have hplan : (k.name, k.widths, k.maxCount) ∈
        plan.phases.map fun p => (p.kind, p.widths, p.maxCount) := by
      rw [← hc.kinds]
      exact mem_map.mpr ⟨k, hmem, rfl⟩
    obtain ⟨p', hp', heq⟩ := mem_map.mp hplan
    simp only [Prod.mk.injEq] at heq
    obtain rfl : p' = p := inj_on_of_nodup_map hkinds hp' hp (heq.1.trans hname)
    rw [heq.2.2]
    exact hc.most k hmem
  · exact Nat.zero_le _

theorem ProgramCursor.Counted.phasesRun_le (hc : c.Counted plan) :
    c.phasesRun ≤ (plan.phases.map PlannedPhase.maxCount).sum := by
  have hmost : plan.phases.map PlannedPhase.maxCount = c.kinds.map CursorKind.maxCount := by
    have := congrArg (List.map fun t : String × List Nat × Nat => t.2.2) hc.kinds
    rw [map_map, map_map] at this
    exact this.symm
  rw [hc.total, hmost]
  exact sum_le_sum hc.most

/-- **An admitted program can always emit.** -/
theorem program_emits (h : planProgram contract context catalog domain request available
    granularity = .ok (.ok plan)) (calls : List Call) : let x := Program.run plan calls
    x.buffer.capacity = plan.outputCapacity ∧
    x.buffer.used.value + x.buffer.reserved.value ≤ plan.outputCapacity.value ∧
    x.buffer.publishedPositions ≤ plan.output ∧
    (∀ bytes positions b', x.buffer.publish bytes positions = .ok b' →
      ∃ sum, x.buffer.used.plus bytes = some sum ∧ b'.used = sum) ∧
    (∀ p ∈ plan.phases, Program.begun p.kind (.ofPlan plan) calls ≤ p.maxCount) ∧
    x.cursor.phasesRun ≤ plan.maxPhases ∧
    (x.cursor.current.isSome → ∀ kind width, x.cursor.begin kind width = .error .wrongState) ∧
    (x.buffer.used = Bytes.zero → x.buffer.reserved = Bytes.zero →
      ∀ p, p = plan.output - x.buffer.publishedPositions → 0 < p →
        ∀ kind ∈ contract.phases, kind.emits = true → ∀ w, x.cursor.Allows kind.name w →
          ∃ bytes b', bytes.value = min w p * contract.mode.wirePerPosition.value ∧
            x.buffer.reserve bytes (min w p) = .ok b') := by
  intro x
  have hacc := planProgram_accepted h
  obtain ⟨hkept, hcount⟩ := hacc.kept.calls calls
  have hkept : x.Kept plan := hkept
  have hbytes := hkept.held.bytes
  have hposi := hkept.held.positions
  rw [hkept.capacity] at hbytes
  rw [hkept.bound] at hposi
  refine ⟨hkept.capacity, hbytes, by omega, fun bytes positions b' hpub => ?_, fun p hp => ?_,
    ?_, fun hcur kind width => ?_, ?_⟩
  · unfold OutputBuffer.publish at hpub
    split at hpub
    · cases hpub
    split at hpub
    · cases hpub
    rename_i hwit
    simp only [Bool.or_eq_true, decide_eq_true_eq, not_or, Nat.not_lt] at hwit
    obtain ⟨sum, hsum, -⟩ := hkept.held.sum hwit.1
    cases hpub
    refine ⟨sum, hsum, ?_⟩
    show (x.buffer.used.plus bytes).getD x.buffer.capacity = sum
    rw [hsum, Option.getD_some]
  · have hle := hkept.counted.countOf_le hacc.kinds hp
    have hcount : x.cursor.countOf p.kind = _ := hcount p.kind
    omega
  · rw [hacc.count.1]
    exact hkept.counted.phasesRun_le
  · unfold ProgramCursor.begin
    rw [if_pos hcur]
  intro hused hres p hp hpos kind hkind hemits w hall
  obtain ⟨hw, hroom⟩ := hacc.allowed hkept.counted hkind hemits hall
  have hwire := hacc.wire
  have hle : min w p * contract.mode.wirePerPosition.value ≤ plan.outputCapacity.value :=
    Nat.le_trans (Nat.mul_le_mul_right _ (Nat.min_le_left _ _)) hroom
  have hsome : 0 < min w p * contract.mode.wirePerPosition.value := Nat.mul_pos (by omega) hwire
  have hmax := plan.outputCapacity.bound
  refine ⟨⟨min w p * contract.mode.wirePerPosition.value, by omega⟩,
    { x.buffer with
      reserved := ⟨min w p * contract.mode.wirePerPosition.value, by omega⟩
      reservedPositions := min w p }, rfl, ?_⟩
  have hsum : x.buffer.used.plus ⟨min w p * contract.mode.wirePerPosition.value, by omega⟩ =
      some ⟨min w p * contract.mode.wirePerPosition.value, by omega⟩ := by
    rw [hused]
    exact Bytes.plus_eq_some.mpr (Nat.zero_add _).symm
  unfold OutputBuffer.reserve
  rw [if_neg (Decidable.not_not.mpr hres), if_neg, if_neg, hsum]
  · simp only [hkept.capacity]
    rw [if_neg (by omega)]
  · rw [hkept.bound]
    omega
  simp only [Bool.or_eq_true, decide_eq_true_eq, not_or]
  refine ⟨fun hzero => ?_, by omega⟩
  have := congrArg Bytes.value hzero
  simp only [Bytes.zero_value] at this
  omega

theorem program_emits_sample : ∃ plan, samplePlan = .ok (.ok plan) ∧
    (Program.run plan [.begin "step" 1]).cursor.phasesRun ≤ plan.maxPhases := by
  obtain ⟨plan, hplan⟩ := samplePlan_ok
  exact ⟨plan, hplan, (program_emits hplan [.begin "step" 1]).2.2.2.2.2.1⟩

end Admitted

end Execution
end JitLlm
