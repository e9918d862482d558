import JitLlm.Scheduler.Events

/-!
# What `WaitAhead` estimates

On one of its branches `WaitAhead` adds up all that is ahead of a request, and on the other it
replays the choices to come. `burden` is the sum of all that could be ahead, with no bound on it.
The first branch answers the burden whenever it answers; both answer at most the burden, and do
answer, when it is in the range of ticks. So an estimate gets no worse when the burden gets no
larger, however the sums are cut off on the way.
-/

namespace JitLlm.Admission

open Base Lib Memory List Option

variable {a a' b : Admission} {id x : RequestId} {now : Tick} {m n k : Nat} {r : Request}
    {ids : List RequestId}

/-! ## Sums of work -/

def cost (r : Request) : Nat := (r.spec.work - r.done) + r.spec.switchCost

def costs (rs : List Request) : Nat := (rs.map cost).sum

@[simp] theorem costs_nil : costs [] = 0 := rfl

@[simp] theorem costs_cons (r : Request) (rs : List Request) : costs (r :: rs) = cost r + costs rs := by
  simp [costs]

@[simp] theorem costs_append (rs rs' : List Request) : costs (rs ++ rs') = costs rs + costs rs' := by
  simp [costs]

variable {rs rs' : List Request}

theorem costs_perm (h : rs.Perm rs') : costs rs = costs rs' := (h.map cost).sum_eq

theorem costs_sublist (h : rs.Sublist rs') : costs rs ≤ costs rs' := by
  induction h with
  | slnil => exact Nat.le_refl _
  | cons =>
    rw [costs_cons]
    omega
  | cons_cons =>
    rw [costs_cons, costs_cons]
    omega

theorem plus_eq (h : plus m n = some k) : k = m + n ∧ m ≤ uint64Max - n := by
  unfold plus at h
  split at h
  · cases h
  rename_i hle
  cases h
  exact ⟨rfl, Nat.le_of_not_lt hle⟩

theorem plus_ok (h : m ≤ uint64Max - n) : plus m n = some (m + n) := by
  unfold plus
  rw [if_neg (Nat.not_lt.mpr h)]

theorem plus_mono {m' n' : Nat} (h : plus m n = some k) (hm : m' ≤ m) (hn : n' ≤ n) :
    ∃ k', k' ≤ k ∧ plus m' n' = some k' := by
  obtain ⟨rfl, hle⟩ := plus_eq h
  exact ⟨m' + n', Nat.add_le_add hm hn, plus_ok (by omega)⟩

theorem addWork_eq {start : Option Tick} {u : Nat} (h : addWork start r = some u) :
    ∃ v, start = some v ∧ u = v + cost r := by
  obtain ⟨w, hw, hu⟩ := bind_eq_some_iff.mp h
  obtain ⟨v, hv, hw⟩ := bind_eq_some_iff.mp hw
  obtain ⟨rfl, -⟩ := plus_eq hw
  obtain ⟨rfl, -⟩ := plus_eq hu
  exact ⟨v, hv, by unfold cost; omega⟩

theorem addWork_ok {v : Nat} (h : v + cost r ≤ uint64Max) :
    addWork (some v) r = some (v + cost r) := by
  unfold cost at h ⊢
  unfold addWork
  rw [bind_some, plus_ok (by omega), bind_some, plus_ok (by omega), Nat.add_assoc]

variable {rs : List Request}

theorem foldl_addWork_eq : ∀ {start : Option Tick} {u : Nat},
    rs.foldl addWork start = some u → ∃ v, start = some v ∧ u = v + costs rs := by
  induction rs with
  | nil =>
    intro start u h
    exact ⟨u, h, rfl⟩
  | cons r rest ih =>
    intro start u h
    obtain ⟨w, hw, rfl⟩ := ih h
    obtain ⟨v, rfl, rfl⟩ := addWork_eq hw
    exact ⟨v, rfl, by rw [costs_cons]; omega⟩

theorem foldl_addWork_ok : ∀ {v : Nat}, v + costs rs ≤ uint64Max →
    rs.foldl addWork (some v) = some (v + costs rs) := by
  induction rs with
  | nil =>
    intro v _
    rfl
  | cons r rest ih =>
    intro v h
    rw [costs_cons] at h ⊢
    rw [foldl_cons, addWork_ok (by omega), ih (by omega), Nat.add_assoc]

/-! ## The replay -/

theorem passOver_cost (chosen : RequestClass) (r : Request) :
    cost (passOver chosen r) = cost r ∧ (passOver chosen r).sequence = r.sequence := by
  unfold passOver
  split
  · exact ⟨rfl, rfl⟩
  · exact ⟨rfl, rfl⟩

theorem foldl_picks {α : Type} {f : Option α → α → Option α} {x : α}
    (hf : ∀ smallest next, f smallest next = some next ∨ f smallest next = smallest) :
    ∀ {l : List α} {smallest : Option α}, l.foldl f smallest = some x → smallest = some x ∨ x ∈ l
  | [], _, h => .inl h
  | next :: rest, smallest, h => by
    rw [foldl_cons] at h
    rcases foldl_picks hf h with heq | hmem
    · rcases hf smallest next with hnext | hsame
      · rw [hnext] at heq
        cases heq
        exact .inr mem_cons_self
      · exact .inl (hsame.symm.trans heq)
    · exact .inr (mem_cons_of_mem _ hmem)

theorem minElement_mem {settings : PolicySettings} {choices : List Request} {i : Nat}
    (h : minElement settings choices = some (r, i)) : choices[i]? = some r := by
  unfold minElement at h
  have hmem := (foldl_picks (fun smallest next => ?_) h).resolve_left (by simp)
  · exact mem_zipIdx_iff_getElem?.mp hmem
  rcases smallest with _ | _
  · exact .inl rfl
  simp only
  split
  · exact .inl rfl
  · exact .inr rfl

def others (sequence : Nat) (rs : List Request) : Nat :=
  costs (rs.filter fun r => r.sequence ≠ sequence)

theorem others_aged (sequence : Nat) (chosen : RequestClass) (rs : List Request) :
    others sequence (rs.map (passOver chosen)) = others sequence rs := by
  unfold others
  induction rs with
  | nil => rfl
  | cons r rest ih =>
    obtain ⟨hcost, hseq⟩ := passOver_cost chosen r
    simp only [map_cons, filter_cons, hseq]
    split
    · rw [costs_cons, costs_cons, hcost, ih]
    · exact ih

theorem others_eraseIdx {sequence : Nat} : ∀ {rs : List Request} {i : Nat} {r : Request},
    rs[i]? = some r → r.sequence ≠ sequence →
    others sequence rs = cost r + others sequence (rs.eraseIdx i) := by
  intro rs
  induction rs with
  | nil =>
    intro i r h
    simp at h
  | cons q rest ih =>
    intro i r h hne
    cases i with
    | zero =>
      cases h
      simp only [others, filter_cons, eraseIdx_zero, tail_cons]
      rw [if_pos (by simpa using hne), costs_cons]
    | succ i =>
      have hrest := ih (i := i) (by simpa using h) hne
      simp only [others] at hrest
      simp only [others, eraseIdx_cons_succ, filter_cons]
      split
      · rw [costs_cons, costs_cons, hrest]
        omega
      · exact hrest

theorem replay_le (settings : PolicySettings) (sequence : Nat) (fuel : Nat) :
    ∀ (choices : List Request) (v : Nat) (immediate : Bool),
      v + others sequence choices ≤ uint64Max →
      ∃ w, w ≤ v + others sequence choices ∧
        (replay settings sequence fuel choices (some v) immediate).1 = some w := by
  induction fuel with
  | zero =>
    intro choices v immediate _
    exact ⟨v, Nat.le_add_right _ _, rfl⟩
  | succ fuel ih =>
    intro choices v immediate h
    unfold replay
    split
    · exact ⟨v, Nat.le_add_right _ _, rfl⟩
    rename_i next i hmin
    split
    · exact ⟨v, Nat.le_add_right _ _, rfl⟩
    rename_i hne
    have herase := others_eraseIdx (minElement_mem hmin) hne
    rw [addWork_ok (by omega)]
    obtain ⟨w, hw, heq⟩ := ih ((choices.eraseIdx i).map (passOver next.spec.requestClass))
      (v + cost next) false (by rw [others_aged]; omega)
    rw [others_aged] at hw
    exact ⟨w, by omega, heq⟩

/-! ## The lists it reads -/

def rows (a : Admission) (ids : List RequestId) : List Request := ids.filterMap a.requests.find?

theorem rows_cons (h : a.requests.find? x = some r) : a.rows (x :: ids) = r :: a.rows ids := by
  unfold rows
  rw [filterMap_cons, h]

theorem rows_append (ids ids' : List RequestId) : a.rows (ids ++ ids') = a.rows ids ++ a.rows ids' :=
  filterMap_append

theorem rows_sublist {ids ids' : List RequestId} (h : ids.Sublist ids') :
    (a.rows ids).Sublist (a.rows ids') := h.filterMap _

theorem Alive.rows (h : a.Alive ids) : ids.mapM a.request = .ok (a.rows ids) := by
  induction ids with
  | nil => rfl
  | cons x rest ih =>
    obtain ⟨r, hr⟩ := h.find mem_cons_self
    rw [mapM_cons, request_ok hr, ih fun y hy => h y (mem_cons_of_mem _ hy), rows_cons hr]
    rfl

/-! ## The slot -/

def slotOf (start : Option Tick) (rs : List Request) : Option Tick :=
  rs.foldl (fun slot r => slot.bind fun s => (addWork (some 0) r).map (Nat.max s)) start

def busiest (m : Nat) (rs : List Request) : Nat := rs.foldl (fun m r => Nat.max m (cost r)) m

theorem le_busiest (rs : List Request) : ∀ m, m ≤ busiest m rs := by
  induction rs with
  | nil => exact fun m => Nat.le_refl m
  | cons r rest ih => exact fun m => (Nat.le_max_left m (cost r)).trans (ih _)

theorem slotOf_eq : ∀ {start : Option Tick} {u : Nat},
    slotOf start rs = some u → ∃ v, start = some v ∧ u = busiest v rs := by
  induction rs with
  | nil =>
    intro start u h
    exact ⟨u, h, rfl⟩
  | cons r rest ih =>
    intro start u h
    obtain ⟨w, hw, rfl⟩ := ih h
    obtain ⟨v, rfl, hv⟩ := bind_eq_some_iff.mp hw
    obtain ⟨k, hk, rfl⟩ := map_eq_some_iff.mp hv
    obtain ⟨z, hz, rfl⟩ := addWork_eq hk
    cases hz
    rw [Nat.zero_add]
    exact ⟨v, rfl, rfl⟩

theorem slotOf_ok : ∀ {v : Nat}, busiest v rs ≤ uint64Max →
    slotOf (some v) rs = some (busiest v rs) := by
  induction rs with
  | nil =>
    intro v _
    rfl
  | cons r rest ih =>
    intro v h
    have hmax : Nat.max v (cost r) ≤ uint64Max := (le_busiest rest _).trans h
    have hcost : 0 + cost r ≤ uint64Max := by
      rw [Nat.zero_add]
      exact (Nat.le_max_right _ _).trans hmax
    unfold slotOf
    rw [foldl_cons, addWork_ok hcost, Nat.zero_add]
    exact ih h

theorem waitForSlot_eq {target : Request} {immediate : Bool} : ∀ {ids : List RequestId}
    {start y : Option Tick × Option Tick},
    ids.foldlM (a.waitForSlot target immediate now) start = .ok y →
    y.1 = slotOf start.1 (a.rows ids) ∧ (immediate = false → y.2 = start.2) := by
  intro ids
  induction ids with
  | nil =>
    intro start y h
    cases h
    exact ⟨rfl, fun _ => rfl⟩
  | cons x rest ih =>
    intro start y h
    obtain ⟨next, hnext, h⟩ := bind_ok h
    obtain ⟨hslot, hpoint⟩ := ih h
    obtain ⟨r, hr, hnext⟩ := bind_ok hnext
    rw [rows_cons (request_find hr)]
    have hfirst : next.1 = (start.1.bind fun s => (addWork (some 0) r).map (Nat.max s)) ∧
        (immediate = false → next.2 = start.2) := by
      simp only at hnext
      split at hnext
      · cases hnext
        exact ⟨rfl, fun _ => rfl⟩
      rename_i hopen
      have himm : immediate = true := by
        cases immediate with
        | true => rfl
        | false => simp at hopen
      obtain ⟨peers, -, hnext⟩ := bind_ok hnext
      split at hnext
      · cases hnext
        exact ⟨rfl, fun _ => rfl⟩
      split at hnext
      · cases hnext
        exact ⟨rfl, fun _ => rfl⟩
      cases hnext
      exact ⟨rfl, fun hfalse => nomatch himm.symm.trans hfalse⟩
    rw [hslot, hfirst.1]
    exact ⟨rfl, fun hfalse => (hpoint hfalse).trans (hfirst.2 hfalse)⟩

/-! ## The estimate -/

section Estimate

variable {spec : RequestSpec} {sequence : Nat} {target : Request} {immediate : Bool}

def predecessors (a : Admission) (sequence : Nat) : List Request :=
  (a.rows a.queued).filter fun other => other.sequence < sequence

def overtakers (a : Admission) (spec : RequestSpec) (sequence : Nat) : List Request :=
  (a.rows a.queued).filter fun other =>
    other.sequence > sequence ∧ other.spec.requestClass.rank > spec.requestClass.rank

def behind (a : Admission) (spec : RequestSpec) (sequence : Nat) : Bool :=
  ((a.rows a.queued).any fun other => other.sequence < sequence) ||
    !(a.ledger.check a.domain { add := some spec.envelope }).isOk

def firstAhead (a : Admission) (spec : RequestSpec) (sequence : Nat) : Option Tick × Bool :=
  if a.behind spec sequence then
    ((a.predecessors sequence).foldl addWork ((a.rows a.waiting).foldl addWork (some 0)), false)
  else replay a.settings sequence ((a.rows a.waiting).length + 1)
    (a.rows a.waiting ++ [({ spec, sequence } : Request)]) (some 0) true

def next (a : Admission) (spec : RequestSpec) (sequence : Nat) : Bool :=
  (a.firstAhead spec sequence).2 && (a.overtakers spec sequence).isEmpty

def earlier : Option Tick → Option Tick → Option Tick
  | some point, some slot => if point < slot then some point else some slot
  | some point, none => some point
  | none, slot => slot

def estimate (a : Admission) (spec : RequestSpec) (sequence : Nat) (y : Option Tick × Option Tick) :
    Option Tick :=
  ((a.rows a.paused.toList).foldl addWork (earlier y.2 y.1)).bind fun value =>
    ((a.overtakers spec sequence).foldl addWork (a.firstAhead spec sequence).1).bind fun prior =>
      plus value prior

theorem waitAhead_eq (h : a.Readable) (spec : RequestSpec) (sequence : Nat) (now : Tick) :
    ∃ y, a.running.foldlM (a.waitForSlot { spec, sequence } (a.next spec sequence) now)
        (some 0, none) = .ok y ∧
      a.waitAhead spec sequence now = .ok (a.estimate spec sequence y) := by
  rcases hwait : a.waitAhead spec sequence now with _ | _
  · exact ((h.waitAhead spec sequence now).err hwait).elim
  unfold Admission.waitAhead at hwait
  rw [h.queued.rows, h.waiting.rows] at hwait
  simp only [ok_bind] at hwait
  obtain ⟨y, hy, hwait⟩ := bind_ok hwait
  refine ⟨y, hy, congrArg Except.ok ?_⟩
  cases hp : a.paused with
  | none =>
    rw [hp] at hwait
    cases hwait
    unfold estimate
    rw [hp]
    rfl
  | some p =>
    obtain ⟨r, hr⟩ := h.paused.find (x := p) (by simp [hp])
    rw [hp] at hwait
    simp only [request_ok hr, ok_bind] at hwait
    cases hwait
    unfold estimate
    rw [hp, toList_some, rows_cons hr]
    rfl

def burden (a : Admission) (spec : RequestSpec) (sequence : Nat) : Nat :=
  busiest 0 (a.rows a.running) + costs (a.rows a.paused.toList) + costs (a.rows a.waiting) +
    costs (a.predecessors sequence) + costs (a.overtakers spec sequence)

theorem waitAhead_behind (h : a.Readable) (hbeh : a.behind spec sequence = true) {w : Nat}
    (hwait : a.waitAhead spec sequence now = .ok (some w)) : w = a.burden spec sequence := by
  obtain ⟨y, hy, heq⟩ := waitAhead_eq h spec sequence now
  have hfirst : a.firstAhead spec sequence = ((a.predecessors sequence).foldl addWork
      ((a.rows a.waiting).foldl addWork (some 0)), false) := if_pos hbeh
  have hnext : a.next spec sequence = false := by
    unfold next
    rw [hfirst]
    rfl
  obtain ⟨hslot, hpoint⟩ := waitForSlot_eq hy
  have hpoint' : y.2 = none := hpoint hnext
  have hsome := Except.ok.inj (heq.symm.trans hwait)
  unfold estimate at hsome
  rw [hfirst, hpoint', hslot] at hsome
  obtain ⟨value, hvalue, hsome⟩ := bind_eq_some_iff.mp hsome
  obtain ⟨prior, hprior, hsome⟩ := bind_eq_some_iff.mp hsome
  obtain ⟨rfl, -⟩ := plus_eq hsome
  obtain ⟨s, hs, rfl⟩ := foldl_addWork_eq hvalue
  obtain ⟨z, hz, rfl⟩ := slotOf_eq hs
  cases hz
  obtain ⟨p, hp, rfl⟩ := foldl_addWork_eq hprior
  obtain ⟨q, hq, rfl⟩ := foldl_addWork_eq hp
  obtain ⟨z, hz, rfl⟩ := foldl_addWork_eq hq
  cases hz
  unfold burden
  omega

theorem earlier_le (point : Option Tick) {slot : Option Tick} {s : Nat} (h : slot = some s) :
    ∃ w, w ≤ s ∧ earlier point slot = some w := by
  subst h
  rcases point with _ | point
  · exact ⟨s, Nat.le_refl s, rfl⟩
  show ∃ w, w ≤ s ∧ (if point < s then some point else some s) = some w
  split
  next hlt =>
    exact ⟨point, Nat.le_of_lt hlt, rfl⟩
  · exact ⟨s, Nat.le_refl s, rfl⟩

theorem firstAhead_le (spec : RequestSpec) (sequence : Nat)
    (h : costs (a.rows a.waiting) + costs (a.predecessors sequence) ≤ uint64Max) :
    ∃ w, w ≤ costs (a.rows a.waiting) + costs (a.predecessors sequence) ∧
      (a.firstAhead spec sequence).1 = some w := by
  unfold firstAhead
  split
  · refine ⟨_, Nat.le_refl _, ?_⟩
    rw [foldl_addWork_ok (by omega), Nat.zero_add, foldl_addWork_ok h]
  have hothers : others sequence (a.rows a.waiting ++ [({ spec, sequence } : Request)]) ≤
      costs (a.rows a.waiting) := by
    unfold others
    rw [filter_append, costs_append]
    have htar : [({ spec, sequence } : Request)].filter (fun r => r.sequence ≠ sequence) = [] := by
      simp
    rw [htar, costs_nil, Nat.add_zero]
    exact costs_sublist filter_sublist
  obtain ⟨w, hw, heq⟩ := replay_le a.settings sequence ((a.rows a.waiting).length + 1)
    (a.rows a.waiting ++ [({ spec, sequence } : Request)]) 0 true (by omega)
  exact ⟨w, by omega, heq⟩

theorem waitAhead_le (h : a.Readable) (hrange : a.burden spec sequence ≤ uint64Max) (now : Tick) :
    ∃ w, w ≤ a.burden spec sequence ∧ a.waitAhead spec sequence now = .ok (some w) := by
  obtain ⟨y, hy, heq⟩ := waitAhead_eq h spec sequence now
  unfold burden at hrange ⊢
  have hslot : y.1 = some (busiest 0 (a.rows a.running)) := by
    rw [(waitForSlot_eq hy).1]
    exact slotOf_ok (by omega)
  obtain ⟨s, hs, hear⟩ := earlier_le y.2 hslot
  obtain ⟨p, hp, hfirst⟩ := firstAhead_le (a := a) spec sequence (by omega)
  refine ⟨s + costs (a.rows a.paused.toList) + (p + costs (a.overtakers spec sequence)), by omega, ?_⟩
  rw [heq]
  unfold estimate
  rw [hear, hfirst, foldl_addWork_ok (by omega), foldl_addWork_ok (by omega)]
  simp only [bind_some]
  rw [plus_ok (by omega)]

/-! ## Fewer in the queue -/

/-- Some of the queued are gone, and nothing else is different. -/
structure Fewer (a b : Admission) : Prop where
  ledger : b.ledger = a.ledger
  domain : b.domain = a.domain
  settings : b.settings = a.settings
  running : b.running = a.running
  waiting : b.waiting = a.waiting
  paused : b.paused = a.paused
  request : ∀ x, x ∈ a.running ∨ x ∈ a.waiting ∨ x ∈ a.paused.toList →
    b.requests.find? x = a.requests.find? x
  queued : (b.rows b.queued).Sublist (a.rows a.queued)

theorem rows_congr {ids : List RequestId}
    (h : ∀ x ∈ ids, b.requests.find? x = a.requests.find? x) : b.rows ids = a.rows ids :=
  filterMap_congr h

theorem Fewer.rows (h : Fewer a b) : b.rows b.running = a.rows a.running ∧
    b.rows b.waiting = a.rows a.waiting ∧ b.rows b.paused.toList = a.rows a.paused.toList := by
  rw [h.running, h.waiting, h.paused]
  exact ⟨rows_congr fun x hx => h.request x (.inl hx),
    rows_congr fun x hx => h.request x (.inr (.inl hx)),
    rows_congr fun x hx => h.request x (.inr (.inr hx))⟩

theorem Fewer.overtakers (h : Fewer a b) (spec : RequestSpec) (sequence : Nat) :
    (b.overtakers spec sequence).Sublist (a.overtakers spec sequence) := h.queued.filter _

theorem Fewer.burden (h : Fewer a b) (spec : RequestSpec) (sequence : Nat) :
    b.burden spec sequence ≤ a.burden spec sequence := by
  obtain ⟨hrun, hwait, hpaused⟩ := h.rows
  have hpred : costs (b.predecessors sequence) ≤ costs (a.predecessors sequence) :=
    costs_sublist (h.queued.filter _)
  have hove := costs_sublist (h.overtakers spec sequence)
  unfold Admission.burden
  rw [hrun, hwait, hpaused]
  omega

theorem Fewer.behind (h : Fewer a b) (hbeh : b.behind spec sequence = true) :
    a.behind spec sequence = true := by
  unfold Admission.behind at hbeh ⊢
  rw [h.ledger, h.domain, Bool.or_eq_true] at hbeh
  rw [Bool.or_eq_true]
  refine hbeh.imp_left ?_
  intro hany
  obtain ⟨r, hr, hlt⟩ := any_eq_true.mp hany
  exact any_eq_true.mpr ⟨r, h.queued.subset hr, hlt⟩

section

variable (h : Fewer a b) (ha : a.Readable) (hb : b.Readable)
include h ha hb

theorem Fewer.waitForSlot {soFar : Option Tick × Option Tick} (hx : x ∈ a.running) :
    b.waitForSlot target immediate now soFar x = a.waitForSlot target immediate now soFar x := by
  have hreq : b.request x = a.request x := by
    unfold Admission.request
    rw [h.request x (.inl hx)]
  have hgrants : b.grants (erase b.running x) = a.grants (erase a.running x) := by
    have hpeers : a.Hold (erase a.running x) := fun y hy => ha.hold y (mem_erase.mp hy).1
    have hpeers' : b.Hold (erase b.running x) := fun y hy => hb.hold y (mem_erase.mp hy).1
    rw [hpeers.grants, hpeers'.grants, h.running]
    refine congrArg Except.ok (filterMap_congr ?_)
    intro y hy
    show (b.requests.find? y).bind _ = (a.requests.find? y).bind _
    rw [h.request y (.inl (mem_erase.mp hy).1)]
  unfold Admission.waitForSlot
  rw [hreq, hgrants, h.paused, h.settings, h.ledger, h.domain]

theorem Fewer.slots : ∀ {ids : List RequestId} (start : Option Tick × Option Tick),
    (∀ x ∈ ids, x ∈ a.running) → ids.foldlM (b.waitForSlot target immediate now) start =
      ids.foldlM (a.waitForSlot target immediate now) start := by
  intro ids
  induction ids with
  | nil => exact fun start _ => rfl
  | cons x rest ih =>
    intro start hids
    rw [foldlM_cons, foldlM_cons, h.waitForSlot ha hb (hids x mem_cons_self)]
    refine bind_congr ?_
    intro next
    exact ih next fun y hy => hids y (mem_cons_of_mem _ hy)

theorem Fewer.earlier (hfirst : b.firstAhead spec sequence = a.firstAhead spec sequence)
    {y y' : Option Tick × Option Tick}
    (hy : a.running.foldlM (a.waitForSlot { spec, sequence } (a.next spec sequence) now)
      (some 0, none) = .ok y)
    (hy' : b.running.foldlM (b.waitForSlot { spec, sequence } (b.next spec sequence) now)
      (some 0, none) = .ok y') {e : Nat} (he : earlier y.2 y.1 = some e) :
    ∃ e', e' ≤ e ∧ earlier y'.2 y'.1 = some e' := by
  rw [h.running, h.slots ha hb _ fun x hx => hx] at hy'
  by_cases hsame : b.next spec sequence = a.next spec sequence
  · rw [hsame] at hy'
    cases hy.symm.trans hy'
    exact ⟨e, Nat.le_refl e, he⟩
  -- Only an overtaker that is gone makes it next.
  have hnext : a.next spec sequence = false := by
    unfold Admission.next at hsame ⊢
    rw [hfirst] at hsame
    rcases hempty : (a.overtakers spec sequence).isEmpty with _ | _
    · exact Bool.and_false _
    have hnil := h.overtakers spec sequence
    rw [isEmpty_iff.mp hempty] at hnil
    refine absurd ?_ hsame
    rw [hempty, eq_nil_of_sublist_nil hnil]
    rfl
  have hpoint : y.2 = none := (waitForSlot_eq hy).2 hnext
  have hslot : y'.1 = y.1 := by rw [(waitForSlot_eq hy).1, (waitForSlot_eq hy').1]
  rw [hpoint] at he
  exact earlier_le y'.2 (hslot.trans he)

theorem Fewer.waitAhead {w : Nat}
    (hrange : w ≤ uint64Max) (hwait : a.waitAhead spec sequence now = .ok (some w)) :
    ∃ w', w' ≤ w ∧ b.waitAhead spec sequence now = .ok (some w') := by
  cases hbeh : a.behind spec sequence with
  | true =>
    obtain rfl := waitAhead_behind ha hbeh hwait
    have hle := h.burden spec sequence
    obtain ⟨w', hw', heq⟩ := waitAhead_le hb (hle.trans hrange) now
    exact ⟨w', hw'.trans hle, heq⟩
  | false =>
    have hbeh' : ¬ b.behind spec sequence = true := by
      intro hbeh'
      rw [h.behind hbeh'] at hbeh
      cases hbeh
    obtain ⟨hrun, hwaiting, hpaused⟩ := h.rows
    have hfirst : b.firstAhead spec sequence = a.firstAhead spec sequence := by
      unfold firstAhead
      rw [if_neg hbeh', if_neg (by simp [hbeh]), hwaiting, h.settings]
    obtain ⟨y, hy, heq⟩ := waitAhead_eq ha spec sequence now
    obtain ⟨y', hy', heq'⟩ := waitAhead_eq hb spec sequence now
    have hsome := Except.ok.inj (heq.symm.trans hwait)
    unfold estimate at hsome
    obtain ⟨value, hvalue, hsome⟩ := bind_eq_some_iff.mp hsome
    obtain ⟨prior, hprior, hsome⟩ := bind_eq_some_iff.mp hsome
    obtain ⟨rfl, -⟩ := plus_eq hsome
    obtain ⟨e, he, rfl⟩ := foldl_addWork_eq hvalue
    obtain ⟨p, hp, rfl⟩ := foldl_addWork_eq hprior
    obtain ⟨e', he', hear⟩ := h.earlier ha hb hfirst hy hy' he
    have hove := costs_sublist (h.overtakers spec sequence)
    refine ⟨e' + costs (a.rows a.paused.toList) + (p + costs (b.overtakers spec sequence)),
      by omega, ?_⟩
    rw [heq']
    unfold estimate
    rw [hpaused, hear, hfirst, hp, foldl_addWork_ok (by omega), foldl_addWork_ok (by omega)]
    simp only [bind_some]
    rw [plus_ok (by omega)]

end

end Estimate

/-! ## What no longer can run -/

def Runnable (a : Admission) (r : Request) (now : Tick) : Prop := a.unrunnable r now = .ok none

theorem Runnable.mono {r : Request} (h : a.Runnable r now)
    (hfits : b.fitsAlone r.spec = a.fitsAlone r.spec) (hset : b.settings = a.settings)
    (hwait : ∀ w, w ≤ uint64Max → a.waitAhead r.spec r.sequence now = .ok (some w) →
      ∃ w', w' ≤ w ∧ b.waitAhead r.spec r.sequence now = .ok (some w')) : b.Runnable r now := by
  unfold Runnable unrunnable at h ⊢
  rw [hfits, hset]
  obtain ⟨fits, hf, h⟩ := bind_ok h
  rw [hf, ok_bind]
  split at h
  · cases h
  rename_i hfit
  rw [if_neg hfit]
  split at h
  · cases h
  rename_i htim
  rw [if_neg htim]
  split at h
  · rfl
  obtain ⟨wait, hw, h⟩ := bind_ok h
  simp only at h
  split at h
  · cases h
  rename_i finish hfin
  split at h
  · cases h
  rename_i hle
  obtain ⟨v2, hsum2, hplus3⟩ := bind_eq_some_iff.mp hfin
  obtain ⟨v1, hsum1, hplus2⟩ := bind_eq_some_iff.mp hsum2
  obtain ⟨w, hsome, hplus1⟩ := bind_eq_some_iff.mp hsum1
  rw [hsome] at hw
  have hrange : w ≤ uint64Max := by
    have hw1 : w ≤ v1 := (plus_eq hplus1).1 ▸ Nat.le_add_left w now
    exact hw1.trans ((plus_eq hplus2).2.trans (Nat.sub_le _ _))
  obtain ⟨w', hw', heq⟩ := hwait w hrange hw
  obtain ⟨u1, hu1, heq1⟩ := plus_mono hplus1 (Nat.le_refl now) hw'
  obtain ⟨u2, hu2, heq2⟩ := plus_mono hplus2 hu1 (Nat.le_refl r.spec.work)
  obtain ⟨u3, hu3, heq3⟩ := plus_mono hplus3 hu2 (Nat.le_refl r.spec.switchCost)
  have hle' : ¬ u3 > _ := fun hgt => hle (Nat.lt_of_lt_of_le hgt hu3)
  simp only [heq, ok_bind, bind_some, heq1, heq2, heq3, if_neg hle']
  rfl

theorem Fewer.runnable (h : Fewer a b) (ha : a.Readable) (hb : b.Readable) {r : Request}
    (hr : a.Runnable r now) : b.Runnable r now := by
  refine hr.mono ?_ h.settings fun w hrange hwait => h.waitAhead ha hb hrange hwait
  unfold fitsAlone totals
  rw [h.ledger, h.domain]

end JitLlm.Admission
