import JitLlm.Providers.DeviceMemory
import JitLlm.Scheduler.State

/-!
# `scheduler/services.cc` — `CarryOut`, the VMM lane's work

One command is up to four calls of the device-memory provider, each with its own undoing. The
provider is a parameter: its calls are functions of a state of any type, so any sequence of answers
is one of some provider's. `Contract` is what `device_memory.h` promises of it, stated on what can
be seen of its state: which backing is mapped where and with what access, and which backings there
are. It promises nothing of a call whose outcome is unknown.
-/

namespace JitLlm.Scheduler

open Base Lib Option
open Providers (Failure BackingId ReservationId)

/-! ## The stash -/

/-- `HandoffStash::Entry`. -/
structure KeptBacking where
  allocationClass : Nat
  size : Bytes
  backing : BackingId
deriving DecidableEq

/-- `HandoffStash`: its entries, the most recent last. -/
abbrev HandoffStash := List KeptBacking

/-- The test `Take` makes of an entry. -/
def KeptBacking.is (allocationClass : Nat) (size : Bytes) (k : KeptBacking) : Bool :=
  k.allocationClass = allocationClass && k.size = size

def takeNewest (allocationClass : Nat) (size : Bytes) : List KeptBacking → Option (KeptBacking × List KeptBacking)
  | [] => none
  | k :: rest =>
    if k.is allocationClass size then some (k, rest)
    else (takeNewest allocationClass size rest).map fun p => (p.1, k :: p.2)

def HandoffStash.take (stash : HandoffStash) (allocationClass : Nat) (size : Bytes) :
    Option (BackingId × HandoffStash) :=
  (takeNewest allocationClass size stash.reverse).map fun p => (p.1.backing, p.2.reverse)

def HandoffStash.put (stash : HandoffStash) (allocationClass : Nat) (size : Bytes)
    (backing : BackingId) : HandoffStash :=
  stash ++ [⟨allocationClass, size, backing⟩]

variable {allocationClass : Nat}

theorem takeNewest_some {size : Bytes} : ∀ {l : List KeptBacking} {k : KeptBacking}
    {rest : List KeptBacking}, takeNewest allocationClass size l = some (k, rest) →
      k.allocationClass = allocationClass ∧ k.size = size ∧ (k :: rest).Perm l
  | [], _, _, h => nomatch h
  | k' :: l, k, rest, h => by
    unfold takeNewest at h
    split at h
    · next hk =>
      cases some.inj h
      simp only [KeptBacking.is, Bool.and_eq_true, decide_eq_true_eq] at hk
      exact ⟨hk.1, hk.2, .refl _⟩
    obtain ⟨⟨k1, rest1⟩, htake, heq⟩ := map_eq_some_iff.mp h
    cases heq
    obtain ⟨h1, h2, hperm⟩ := takeNewest_some htake
    exact ⟨h1, h2, (List.Perm.swap k' k1 rest1).trans (hperm.cons k')⟩

theorem take_some {stash rest : HandoffStash} {size : Bytes}
    {backing : BackingId} (h : stash.take allocationClass size = some (backing, rest)) :
    (⟨allocationClass, size, backing⟩ :: rest).Perm stash := by
  obtain ⟨⟨k, l⟩, htake, heq⟩ := map_eq_some_iff.mp h
  cases heq
  obtain ⟨rfl, rfl, hperm⟩ := takeNewest_some htake
  exact ((List.reverse_perm l).cons k).trans (hperm.trans (List.reverse_perm stash))

theorem put_take {stash rest : HandoffStash} {size : Bytes}
    {backing : BackingId} (h : stash.take allocationClass size = some (backing, rest)) :
    (rest.put allocationClass size backing).Perm stash :=
  (List.perm_append_singleton _ _).trans (take_some h)

/-! ## The provider -/

/-- `providers::DeviceMemory`, as far as `CarryOut` calls it. -/
structure DeviceMemory (M : Type) where
  create : M → Nat → Bytes → Except Failure BackingId × M
  release : M → BackingId → Except Failure Unit × M
  map : M → ReservationId → Bytes → BackingId → Except Failure Unit × M
  setAccess : M → ReservationId → Bytes → Bytes → Providers.Access → Except Failure Unit × M
  unmap : M → ReservationId → Bytes → Bytes → Except Failure Unit × M
  mappedAt : M → ReservationId → Bytes → Option BackingId

/-- A mapping: its backing, which is mapped whole, and its access. -/
structure Mapped where
  backing : BackingId
  size : Bytes
  access : Providers.Access
deriving DecidableEq

/-- What can be seen of a provider: the mapping that starts at a place, and a backing's size. -/
structure Seen where
  mapping : ReservationId → Bytes → Option Mapped
  backing : BackingId → Option Bytes

namespace Seen

def mapAt (v : Seen) (r : ReservationId) (offset : Bytes) (m : Option Mapped) : Seen :=
  { v with mapping := fun r' offset' => if r' = r ∧ offset' = offset then m else v.mapping r' offset' }

def setBacking (v : Seen) (b : BackingId) (size : Option Bytes) : Seen :=
  { v with backing := fun b' => if b' = b then size else v.backing b' }

variable {v : Seen} {r : ReservationId} {offset : Bytes} {b : BackingId}

theorem mapAt_mapAt (m m' : Option Mapped) :
    (v.mapAt r offset m).mapAt r offset m' = v.mapAt r offset m' := by
  unfold mapAt
  congr 1
  funext r' offset'
  simp only
  split <;> rfl

theorem mapAt_self {m : Option Mapped} (h : v.mapping r offset = m) : v.mapAt r offset m = v := by
  have hsame : (fun r' offset' => if r' = r ∧ offset' = offset then m else v.mapping r' offset') =
      v.mapping := by
    funext r' offset'
    split
    · next heq => rw [heq.1, heq.2, h]
    · rfl
  unfold mapAt
  rw [hsame]

theorem setBacking_setBacking (size size' : Option Bytes) :
    (v.setBacking b size).setBacking b size' = v.setBacking b size' := by
  unfold setBacking
  congr 1
  funext b'
  simp only
  split <;> rfl

theorem setBacking_self {size : Option Bytes} (h : v.backing b = size) :
    v.setBacking b size = v := by
  have hsame : (fun b' => if b' = b then size else v.backing b') = v.backing := by
    funext b'
    split
    · next heq => rw [heq, h]
    · rfl
  unfold setBacking
  rw [hsame]

theorem mapping_mapAt (m : Option Mapped) : (v.mapAt r offset m).mapping r offset = m :=
  if_pos ⟨rfl, rfl⟩

end Seen

/-- What `device_memory.h` promises. A failure that is known changes nothing. -/
structure Contract {M : Type} (memory : DeviceMemory M) (see : M → Seen) : Prop where
  createKnown : ∀ m c size f, (memory.create m c size).1 = .error f → f.isUnknown = false →
    see (memory.create m c size).2 = see m
  releaseKnown : ∀ m b f, (memory.release m b).1 = .error f → f.isUnknown = false →
    see (memory.release m b).2 = see m
  mapKnown : ∀ m r offset b f, (memory.map m r offset b).1 = .error f → f.isUnknown = false →
    see (memory.map m r offset b).2 = see m
  accessKnown : ∀ m r offset size a f, (memory.setAccess m r offset size a).1 = .error f →
    f.isUnknown = false → see (memory.setAccess m r offset size a).2 = see m
  unmapKnown : ∀ m r offset size f, (memory.unmap m r offset size).1 = .error f →
    f.isUnknown = false → see (memory.unmap m r offset size).2 = see m
  create : ∀ m c size b, (memory.create m c size).1 = .ok b →
    (see m).backing b = none ∧
      see (memory.create m c size).2 = (see m).setBacking b (some size)
  release : ∀ m b, (memory.release m b).1 = .ok () →
    see (memory.release m b).2 = (see m).setBacking b none
  map : ∀ m r offset b, (memory.map m r offset b).1 = .ok () →
    (see m).mapping r offset = none ∧ ∃ size, (see m).backing b = some size ∧
      see (memory.map m r offset b).2 = (see m).mapAt r offset (some ⟨b, size, .none⟩)
  access : ∀ m r offset a at_, (see m).mapping r offset = some at_ →
    (memory.setAccess m r offset at_.size a).1 = .ok () →
      see (memory.setAccess m r offset at_.size a).2 =
        (see m).mapAt r offset (some { at_ with access := a })
  unmap : ∀ m r offset at_, (see m).mapping r offset = some at_ →
    (memory.unmap m r offset at_.size).1 = .ok () →
      see (memory.unmap m r offset at_.size).2 = (see m).mapAt r offset none
  mappedAt : ∀ m r offset, memory.mappedAt m r offset = ((see m).mapping r offset).map Mapped.backing

/-! ## Carrying out -/

inductive Publication
  | accept (acceptance : Acceptance)
  | complete (terminal : Terminal)
deriving DecidableEq

def notStarted : List Publication := [.accept .notStarted]

def unproven (acceptance : Acceptance) : List Publication :=
  [.accept acceptance, .complete { outcome := .failed, bytes := 0, noFurtherAccess := false }]

/-- The last two publications of `CarryOut`. -/
def succeeded (work : BackingWork) : List Publication :=
  [.accept .accepted,
    .complete { outcome := .succeeded, bytes := work.size.value, noFurtherAccess := true }]

section Work

variable {M : Type} (memory : DeviceMemory M)

/-- What `CarryOut` publishes and leaves. -/
structure Carrying (M : Type) where
  published : List Publication
  stash : HandoffStash
  memory : M

/-- The branch of `kRelease`. -/
def carryRelease (stash : HandoffStash) (m : M) (work : BackingWork) : Carrying M :=
  match stash.take work.allocationClass work.size with
  | none => ⟨notStarted, stash, m⟩
  | some (kept, rest) =>
    match memory.release m kept with
    | (.error f, m') =>
      if f.isUnknown then ⟨unproven .unknown, rest, m'⟩
      else ⟨notStarted, rest.put work.allocationClass work.size kept, m'⟩
    | (.ok (), m') => ⟨succeeded work, rest, m'⟩

/-- `undo`: whether it succeeded, and what it leaves. -/
def undoMap (stash : HandoffStash) (m : M) (work : BackingWork) (backing : BackingId) :
    Bool × HandoffStash × M :=
  if work.reuse then (true, stash.put work.allocationClass work.size backing, m)
  else
    match memory.release m backing with
    | (.error _, m') => (false, stash, m')
    | (.ok (), m') => (true, stash, m')

def undone (undo : Bool × HandoffStash × M) : Carrying M :=
  ⟨if undo.1 then notStarted else unproven .accepted, undo.2.1, undo.2.2⟩

/-- The branch of `kMap` from the backing on. -/
def carryMapOf (stash : HandoffStash) (m : M) (work : BackingWork) (backing : BackingId) :
    Carrying M :=
  match memory.map m work.reservation work.offset backing with
  | (.error f, m₁) =>
    if f.isUnknown then ⟨unproven .unknown, stash, m₁⟩
    else undone (undoMap memory stash m₁ work backing)
  | (.ok (), m₁) =>
    match memory.setAccess m₁ work.reservation work.offset work.size .readWrite with
    | (.ok (), m₂) => ⟨succeeded work, stash, m₂⟩
    | (.error f, m₂) =>
      if f.isUnknown then ⟨unproven .unknown, stash, m₂⟩
      else
        match memory.unmap m₂ work.reservation work.offset work.size with
        | (.error _, m₃) => ⟨unproven .accepted, stash, m₃⟩
        | (.ok (), m₃) => undone (undoMap memory stash m₃ work backing)

/-- The branch of `kMap`. -/
def carryMap (stash : HandoffStash) (m : M) (work : BackingWork) : Carrying M :=
  if work.reuse then
    match stash.take work.allocationClass work.size with
    | none => ⟨notStarted, stash, m⟩
    | some (backing, rest) => carryMapOf memory rest m work backing
  else
    match memory.create m work.allocationClass work.size with
    | (.error f, m') => ⟨if f.isUnknown then unproven .unknown else notStarted, stash, m'⟩
    | (.ok backing, m') => carryMapOf memory stash m' work backing

/-- The branch of `kUnmap`. -/
def carryUnmap (stash : HandoffStash) (m : M) (work : BackingWork) : Carrying M :=
  match memory.mappedAt m work.reservation work.offset with
  | none => ⟨notStarted, stash, m⟩
  | some backing =>
    match memory.unmap m work.reservation work.offset work.size with
    | (.error f, m') =>
      if f.isUnknown then ⟨unproven .unknown, stash, m'⟩
      else if f.error = .undetermined then ⟨unproven .accepted, stash, m'⟩
      else ⟨notStarted, stash, m'⟩
    | (.ok (), m') =>
      if work.retain then
        ⟨succeeded work, stash.put work.allocationClass work.size backing, m'⟩
      else
        match memory.release m' backing with
        | (.error f, m'') => ⟨unproven (if f.isUnknown then .unknown else .accepted), stash, m''⟩
        | (.ok (), m'') => ⟨succeeded work, stash, m''⟩

/-- `CarryOut`; the provider may be none. -/
def carryOut (memory : Option (DeviceMemory M)) (stash : HandoffStash) (m : M)
    (work : BackingWork) : Carrying M :=
  match memory with
  | none => ⟨notStarted, stash, m⟩
  | some memory =>
    match work.kind with
    | .release => carryRelease memory stash m work
    | .map => carryMap memory stash m work
    | .unmap => carryUnmap memory stash m work

end Work

/-! ## All or nothing -/

inductive Intended (stash : HandoffStash) (v : Seen) (work : BackingWork) :
    HandoffStash → Seen → Prop
  | mapped {b : BackingId} (kind : work.kind = .map) (fresh : work.reuse = false)
      (new : v.backing b = none) (hole : v.mapping work.reservation work.offset = none) :
      Intended stash v work stash ((v.setBacking b (some work.size)).mapAt work.reservation
        work.offset (some ⟨b, work.size, .readWrite⟩))
  | reused {b : BackingId} {rest : HandoffStash} (kind : work.kind = .map)
      (reuse : work.reuse = true)
      (taken : (⟨work.allocationClass, work.size, b⟩ :: rest).Perm stash)
      (hole : v.mapping work.reservation work.offset = none) :
      Intended stash v work rest
        (v.mapAt work.reservation work.offset (some ⟨b, work.size, .readWrite⟩))
  | unmapped {m : Mapped} (kind : work.kind = .unmap) (retain : work.retain = false)
      (found : v.mapping work.reservation work.offset = some m) :
      Intended stash v work stash
        ((v.mapAt work.reservation work.offset none).setBacking m.backing none)
  | retained {m : Mapped} (kind : work.kind = .unmap) (retain : work.retain = true)
      (found : v.mapping work.reservation work.offset = some m) :
      Intended stash v work (stash.put work.allocationClass work.size m.backing)
        (v.mapAt work.reservation work.offset none)
  | released {b : BackingId} {rest : HandoffStash} (kind : work.kind = .release)
      (taken : (⟨work.allocationClass, work.size, b⟩ :: rest).Perm stash) :
      Intended stash v work rest (v.setBacking b none)

/-- What a command may publish, and what then is so: nothing changed, the whole change, or a
    failure without proof. Each publishes one acceptance. -/
inductive Carried (stash : HandoffStash) (v : Seen) (work : BackingWork) :
    List Publication → HandoffStash → Seen → Prop
  | notStarted {stash' : HandoffStash} (same : stash'.Perm stash) :
      Carried stash v work notStarted stash' v
  | succeeded {stash' : HandoffStash} {v' : Seen} (intended : Intended stash v work stash' v') :
      Carried stash v work (succeeded work) stash' v'
  | unproven {stash' : HandoffStash} {v' : Seen} (acceptance : Acceptance)
      (started : acceptance = .accepted ∨ acceptance = .unknown) :
      Carried stash v work (unproven acceptance) stash' v'

/-- A mapping at the command's place, the one the command makes there included, has the command's
    size. -/
structure Sized (stash : HandoffStash) (v : Seen) (work : BackingWork) : Prop where
  mapping : ∀ m, v.mapping work.reservation work.offset = some m → m.size = work.size
  kept : ∀ b rest size, stash.take work.allocationClass work.size = some (b, rest) →
    v.backing b = some size → size = work.size

section Proof

variable {M : Type} {memory : DeviceMemory M} {see : M → Seen} {stash rest : HandoffStash} {m : M}
  {work : BackingWork}

theorem carryRelease_carried (hc : Contract memory see) (hkind : work.kind = .release) :
    Carried stash (see m) work (carryRelease memory stash m work).published
      (carryRelease memory stash m work).stash (see (carryRelease memory stash m work).memory) := by
  unfold carryRelease
  rcases htake : stash.take work.allocationClass work.size with _ | taken
  · exact .notStarted (.refl _)
  obtain ⟨kept, rest⟩ := taken
  simp only
  have hknown := hc.releaseKnown m kept
  have hok := hc.release m kept
  rcases hrel : memory.release m kept with ⟨answer, m'⟩
  rw [hrel] at hknown hok
  cases answer with
  | error f =>
    simp only
    by_cases hf : f.isUnknown
    · rw [if_pos hf]
      exact .unproven _ (.inr rfl)
    rw [if_neg hf]
    have hsee := hknown f rfl (by simpa using hf)
    rw [hsee]
    exact .notStarted (put_take htake)
  | ok =>
    have hsee := hok rfl
    rw [hsee]
    exact .succeeded (.released hkind (take_some htake))

/-- The backing a `kMap` has in hand: taken from the stash, or new. -/
inductive InHand (stash : HandoffStash) (v : Seen) (work : BackingWork) (b : BackingId) :
    HandoffStash → Seen → Prop
  | taken {rest : HandoffStash} (reuse : work.reuse = true)
      (taken : stash.take work.allocationClass work.size = some (b, rest)) :
      InHand stash v work b rest v
  | created (fresh : work.reuse = false) (new : v.backing b = none) :
      InHand stash v work b stash (v.setBacking b (some work.size))

variable {b : BackingId}

theorem undone_carried {v : Seen} (hc : Contract memory see)
    (hhand : InHand stash v work b rest (see m)) :
    Carried stash v work (undone (undoMap memory rest m work b)).published
      (undone (undoMap memory rest m work b)).stash
      (see (undone (undoMap memory rest m work b)).memory) := by
  unfold undoMap
  generalize hv : see m = v' at hhand
  cases hhand with
  | taken reuse htake =>
    rw [if_pos reuse]
    simp only [undone, hv]
    exact .notStarted (put_take htake)
  | created fresh new =>
    rw [if_neg (by simp [fresh])]
    have hok := hc.release m b
    rcases hrel : memory.release m b with ⟨answer, m'⟩
    rw [hrel] at hok
    rcases answer with _ | _
    · exact .unproven _ (.inl rfl)
    have hsee := hok rfl
    simp only [undone, if_true]
    rw [hsee, hv, Seen.setBacking_setBacking, Seen.setBacking_self new]
    exact .notStarted (.refl _)

variable {v v' : Seen}

theorem InHand.hole (h : InHand stash v work b rest v')
    {r : ReservationId} {offset : Bytes} : v'.mapping r offset = v.mapping r offset := by
  cases h with
  | taken | created => rfl

theorem InHand.size {size : Bytes} (h : InHand stash v work b rest v')
    (hsized : Sized stash v work) (hb : v'.backing b = some size) : size = work.size := by
  cases h with
  | taken reuse htake => exact hsized.kept b _ size htake hb
  | created =>
    have hself : (v.setBacking b (some work.size)).backing b = some work.size := if_pos rfl
    exact some.inj (hb.symm.trans hself)

theorem InHand.intended (h : InHand stash v work b rest v')
    (hkind : work.kind = .map) (hhole : v.mapping work.reservation work.offset = none) :
    Intended stash v work rest
      (v'.mapAt work.reservation work.offset (some ⟨b, work.size, .readWrite⟩)) := by
  cases h with
  | taken reuse htake => exact .reused hkind reuse (take_some htake) hhole
  | created fresh new => exact .mapped hkind fresh new hhole

theorem carryMapOf_carried {v : Seen} (hc : Contract memory see) (hkind : work.kind = .map)
    (hsized : Sized stash v work) (hhand : InHand stash v work b rest (see m)) :
    Carried stash v work (carryMapOf memory rest m work b).published
      (carryMapOf memory rest m work b).stash
      (see (carryMapOf memory rest m work b).memory) := by
  unfold carryMapOf
  have hmapKnown := hc.mapKnown m work.reservation work.offset b
  have hmap := hc.map m work.reservation work.offset b
  rcases hcall : memory.map m work.reservation work.offset b with ⟨answer, m1⟩
  rw [hcall] at hmapKnown hmap
  cases answer with
  | error f =>
    simp only
    by_cases hf : f.isUnknown
    · rw [if_pos hf]
      exact .unproven _ (.inr rfl)
    rw [if_neg hf]
    refine undone_carried hc ?_
    rw [hmapKnown f rfl (by simpa using hf)]
    exact hhand
  | ok u =>
    simp only
    obtain ⟨hhole, size, hback, hsee1⟩ := hmap rfl
    obtain rfl : size = work.size := hhand.size hsized hback
    have hat : (see m1).mapping work.reservation work.offset = some ⟨b, work.size, .none⟩ := by
      rw [hsee1, Seen.mapping_mapAt]
    have haccKnown := hc.accessKnown m1 work.reservation work.offset work.size .readWrite
    have hacc := hc.access m1 work.reservation work.offset .readWrite _ hat
    rcases hset : memory.setAccess m1 work.reservation work.offset work.size .readWrite with
      ⟨answer, m2⟩
    rw [hset] at haccKnown hacc
    cases answer with
    | ok =>
      rw [hacc rfl, hsee1, Seen.mapAt_mapAt]
      exact .succeeded (hhand.intended hkind (hhand.hole.symm.trans hhole))
    | error f =>
      simp only
      by_cases hf : f.isUnknown
      · rw [if_pos hf]
        exact .unproven _ (.inr rfl)
      rw [if_neg hf]
      have hsee2 := haccKnown f rfl (by simpa using hf)
      have hunmap := hc.unmap m2 work.reservation work.offset _ (by rw [hsee2]; exact hat)
      rcases hcall' : memory.unmap m2 work.reservation work.offset work.size with ⟨answer, m3⟩
      rw [hcall'] at hunmap
      rcases answer with _ | _
      · exact .unproven _ (.inl rfl)
      refine undone_carried hc ?_
      rw [hunmap rfl, hsee2, hsee1, Seen.mapAt_mapAt, Seen.mapAt_self hhole]
      exact hhand

theorem carryMap_carried (hc : Contract memory see) (hkind : work.kind = .map)
    (hsized : Sized stash (see m) work) :
    Carried stash (see m) work (carryMap memory stash m work).published
      (carryMap memory stash m work).stash (see (carryMap memory stash m work).memory) := by
  unfold carryMap
  by_cases hreuse : work.reuse
  · rw [if_pos hreuse]
    cases htake : stash.take work.allocationClass work.size with
    | none => exact .notStarted (.refl _)
    | some taken => exact carryMapOf_carried hc hkind hsized (.taken hreuse htake)
  rw [if_neg hreuse]
  have hknown := hc.createKnown m work.allocationClass work.size
  have hok := hc.create m work.allocationClass work.size
  rcases hcall : memory.create m work.allocationClass work.size with ⟨answer, m'⟩
  rw [hcall] at hknown hok
  cases answer with
  | error f =>
    simp only
    by_cases hf : f.isUnknown
    · rw [if_pos hf]
      exact .unproven _ (.inr rfl)
    rw [if_neg hf, hknown f rfl (by simpa using hf)]
    exact .notStarted (.refl _)
  | ok b =>
    obtain ⟨hnew, hsee⟩ := hok b rfl
    refine carryMapOf_carried hc hkind hsized ?_
    rw [hsee]
    exact .created (by simpa using hreuse) hnew

theorem carryUnmap_carried (hc : Contract memory see) (hkind : work.kind = .unmap)
    (hsized : Sized stash (see m) work) :
    Carried stash (see m) work (carryUnmap memory stash m work).published
      (carryUnmap memory stash m work).stash (see (carryUnmap memory stash m work).memory) := by
  unfold carryUnmap
  rw [hc.mappedAt]
  rcases hat : (see m).mapping work.reservation work.offset with _ | at_
  · exact .notStarted (.refl _)
  simp only [map_some]
  have hknown := hc.unmapKnown m work.reservation work.offset work.size
  have hok := hc.unmap m work.reservation work.offset at_ hat
  rw [hsized.mapping at_ hat] at hok
  rcases hcall : memory.unmap m work.reservation work.offset work.size with ⟨answer, m'⟩
  rw [hcall] at hknown hok
  cases answer with
  | error f =>
    simp only
    by_cases hf : f.isUnknown
    · rw [if_pos hf]
      exact .unproven _ (.inr rfl)
    rw [if_neg hf]
    by_cases hu : f.error = .undetermined
    · rw [if_pos hu]
      exact .unproven _ (.inl rfl)
    rw [if_neg hu]
    have hsee := hknown f rfl (by simpa using hf)
    rw [hsee]
    exact .notStarted (.refl _)
  | ok u =>
    have hsee := hok rfl
    simp only
    by_cases hret : work.retain
    · rw [if_pos hret, hsee]
      exact .succeeded (.retained hkind hret hat)
    rw [if_neg hret]
    have hrel := hc.release m' at_.backing
    rcases hcall' : memory.release m' at_.backing with ⟨answer, m''⟩
    rw [hcall'] at hrel
    cases answer with
    | error =>
      refine .unproven _ ?_
      split
      · exact .inr rfl
      · exact .inl rfl
    | ok =>
      rw [hrel rfl, hsee]
      exact .succeeded (.unmapped hkind (by simpa using hret) hat)

/-- A command is carried out whole, or not at all, or published as failed without proof. -/
theorem carryOut_carried (memory : Option (DeviceMemory M)) (see : M → Seen)
    (hc : ∀ mem, memory = some mem → Contract mem see) (stash : HandoffStash) (m : M)
    (work : BackingWork) (hsized : Sized stash (see m) work) :
    Carried stash (see m) work (carryOut memory stash m work).published
      (carryOut memory stash m work).stash (see (carryOut memory stash m work).memory) := by
  unfold carryOut
  rcases memory with _ | mem
  · exact .notStarted (.refl _)
  have hc := hc mem rfl
  cases hkind : work.kind with
  | release => exact carryRelease_carried hc hkind
  | map => exact carryMap_carried hc hkind hsized
  | unmap => exact carryUnmap_carried hc hkind hsized

end Proof

/-! ## A provider that keeps the contract -/

/-- A provider without a driver: what is seen of it is its state, its next identity beside it, and
    it refuses what `device_memory.h` calls misuse. -/
def plainMemory : DeviceMemory (Seen × Nat) where
  create m _ size :=
    if ((m.1.backing ⟨m.2, 1⟩).isSome) then (.error (Providers.invalid "full"), m)
    else (.ok ⟨m.2, 1⟩, (m.1.setBacking ⟨m.2, 1⟩ (some size), m.2 + 1))
  release m b :=
    match m.1.backing b with
    | none => (.error (Providers.invalid "stale or unknown backing"), m)
    | some _ => (.ok (), (m.1.setBacking b none, m.2))
  map m r offset b :=
    match m.1.backing b, m.1.mapping r offset with
    | some size, none => (.ok (), (m.1.mapAt r offset (some ⟨b, size, .none⟩), m.2))
    | _, _ => (.error (Providers.invalid "the mapping overlaps another"), m)
  setAccess m r offset size access :=
    match m.1.mapping r offset with
    | some at_ =>
      if at_.size = size then (.ok (), (m.1.mapAt r offset (some { at_ with access }), m.2))
      else (.error (Providers.invalid "the range splits a mapping"), m)
    | none => (.error (Providers.invalid "the range does not cover whole mappings"), m)
  unmap m r offset size :=
    match m.1.mapping r offset with
    | some at_ =>
      if at_.size = size then (.ok (), (m.1.mapAt r offset none, m.2))
      else (.error (Providers.invalid "the range splits a mapping"), m)
    | none => (.error (Providers.invalid "the range does not cover whole mappings"), m)
  mappedAt m r offset := (m.1.mapping r offset).map Mapped.backing

theorem plainMemory_contract : Contract plainMemory Prod.fst where
  createKnown m c size f h _ := by
    unfold plainMemory at h ⊢
    simp only at h ⊢
    split at h
    · next hc => rw [if_pos hc]
    · cases h
  releaseKnown m b f h _ := by
    unfold plainMemory at h ⊢
    simp only at h ⊢
    split at h
    · rfl
    · cases h
  mapKnown m r offset b f h _ := by
    unfold plainMemory at h ⊢
    simp only at h ⊢
    split at h
    · cases h
    · rfl
  accessKnown m r offset size a f h _ := by
    unfold plainMemory at h ⊢
    simp only at h ⊢
    split at h
    · split at h
      · cases h
      · next hne => rw [if_neg hne]
    · rfl
  unmapKnown m r offset size f h _ := by
    unfold plainMemory at h ⊢
    simp only at h ⊢
    split at h
    · split at h
      · cases h
      · next hne => rw [if_neg hne]
    · rfl
  create m c size b h := by
    unfold plainMemory at h ⊢
    simp only at h ⊢
    split at h
    · cases h
    next hc =>
    cases h
    rw [if_neg hc]
    exact ⟨by simpa using hc, rfl⟩
  release m b h := by
    unfold plainMemory at h ⊢
    simp only at h ⊢
    split at h
    · cases h
    · rfl
  map m r offset b h := by
    unfold plainMemory at h ⊢
    simp only at h ⊢
    split at h
    · next size hsize hnone => exact ⟨hnone, size, hsize, rfl⟩
    · cases h
  access m r offset a at_ hat _ := by
    unfold plainMemory
    simp only [hat, if_true]
  unmap m r offset at_ hat _ := by
    unfold plainMemory
    simp only [hat, if_true]
  mappedAt m r offset := rfl

def onePlace : Seen where
  mapping r offset :=
    if r = ⟨0, 1⟩ ∧ offset = Bytes.zero then some ⟨⟨0, 1⟩, ⟨2097152, by decide⟩, .readWrite⟩ else none
  backing b := if b = ⟨0, 1⟩ then some ⟨2097152, by decide⟩ else none

/-- Its backing is unmapped and kept for a handoff. -/
theorem carryOut_carried_retained : let work : BackingWork :=
      { kind := .unmap, reservation := ⟨0, 1⟩, offset := Bytes.zero, size := ⟨2097152, by decide⟩
        allocationClass := 0, retain := true }
    (carryOut (some plainMemory) [] (onePlace, 1) work).published = succeeded work ∧
      (carryOut (some plainMemory) [] (onePlace, 1) work).stash = [⟨0, work.size, ⟨0, 1⟩⟩] ∧
      Carried [] onePlace work (carryOut (some plainMemory) [] (onePlace, 1) work).published
        (carryOut (some plainMemory) [] (onePlace, 1) work).stash
        (carryOut (some plainMemory) [] (onePlace, 1) work).memory.1 := by
  intro work
  refine ⟨by decide, by decide, carryOut_carried (some plainMemory) Prod.fst ?_ []
    (onePlace, 1) work ?_⟩
  · intro mem hmem
    cases hmem
    exact plainMemory_contract
  refine ⟨fun m hm => ?_, fun b rest size htake => nomatch htake⟩
  rw [← some.inj hm]

end JitLlm.Scheduler
