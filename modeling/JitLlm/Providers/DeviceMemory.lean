import JitLlm.Base.Ids
import JitLlm.Lib.OrdMap
import JitLlm.Lib.Sat

/-!
# `providers/device_memory.cc` — the device-memory provider

`VmmProvider`: reservations of address space, physical backing, and the mappings of one into
the other, over an implementation's primitives. The primitives are a parameter of each call,
so that a run may meet any answers in any order: a success, a known failure, or an outcome
that is unknown and leaves what it touched undetermined.

A call answers its result beside the records after it, or the fatal check that ended the
process.
-/

namespace JitLlm.Providers

open Base Lib

inductive BackingKind
  | device | host
deriving DecidableEq

structure AllocationClass where
  kind : BackingKind := .device
  location : Nat := 0
  granularity : Bytes
deriving DecidableEq

inductive Access
  | none | read | readWrite
deriving DecidableEq

inductive ProviderError
  | invalid | outOfMemory | unsupported | failed | unknown | undetermined
deriving DecidableEq

structure Failure where
  error : ProviderError := .failed
  detail : String
deriving DecidableEq

abbrev ReservationId := Id .reservation
abbrev BackingId := Id .backing

structure AddressRange where
  base : Nat
  size : Bytes
deriving DecidableEq

structure Mapping where
  backing : BackingId
  size : Bytes
deriving DecidableEq

structure Reservation where
  base : Nat
  size : Bytes
  mappings : OrdMap Nat Mapping
  undetermined : Bool

structure Backing where
  allocationClass : Nat
  size : Bytes
  handle : Nat
  mapped : Bool
  undetermined : Bool

inductive VmmFatal
  | releasedBacking  -- "a mapping of a released backing"
  | noEntry          -- an `at` of a map or vector that has no such entry
  | missing          -- a null pointer followed
deriving DecidableEq

abbrev VmmChecked := Except VmmFatal

/-- An implementation's classes and granularity, as its constructor fixes them: the
    granularity is a non-zero multiple of every class's. -/
structure Layout where
  classes : List AllocationClass
  granularity : Bytes
  positive : 0 < granularity.value
  divides : ∀ c ∈ classes, c.granularity.value ∣ granularity.value

def Layout.aligned (x : Layout) (value : Bytes) : Bool :=
  value.value % x.granularity.value = 0

structure Driver where
  doReserve : Bytes → Except Failure Nat
  doFree : Nat → Bytes → Except Failure Unit
  doCreate : AllocationClass → Bytes → Except Failure Nat
  doRelease : Nat → Bytes → Except Failure Unit
  doMap : Nat → Bytes → Nat → Except Failure Unit
  doSetAccess : Nat → Bytes → Access → Bool → Except Failure Unit
  doUnmap : Nat → Bytes → Except Failure Unit

structure VmmProvider where
  reservations : SlotTable .reservation Reservation
  backings : SlotTable .backing Backing

def invalid (detail : String) : Failure := { error := .invalid, detail }

def refuseUndetermined : Failure where
  error := .undetermined
  detail := "undetermined after an unknown outcome: the owner must quarantine it"

/-- `Unknown`. -/
def Failure.isUnknown (failure : Failure) : Bool := failure.error = .unknown

def wrapAdd (a b : Nat) : Nat := (a + b) % (uint64Max + 1)

def wrapSub (a b : Nat) : Bytes :=
  ⟨(a + (uint64Max + 1) - b) % (uint64Max + 1), Nat.le_of_lt_succ (Nat.mod_lt _ (Nat.succ_pos _))⟩

namespace VmmProvider

variable (x : Layout)

def initial : VmmProvider := ⟨.empty, .empty⟩

/-! ## Writing through a pointer a `Find` gave -/

def setReservation (v : VmmProvider) (r : ReservationId) (place : Reservation) : VmmProvider :=
  { v with reservations := v.reservations.set r place }

def setBacking (v : VmmProvider) (b : BackingId) (backing : Backing) : VmmProvider :=
  { v with backings := v.backings.set b backing }

/-- The undo of `Reserve` and `Create` when the table is full. -/
def undone (answer : Except Failure Unit) (full failed : String) : Failure :=
  match answer with
  | .ok () => { error := .failed, detail := full }
  | .error f => { error := f.error, detail := failed ++ f.detail }

def reserve (v : VmmProvider) (d : Driver) (size : Bytes) :
    Except Failure ReservationId × VmmProvider :=
  if size = Bytes.zero ∨ x.aligned size = false then
    (.error (invalid (s!"a reservation of {size.value} bytes is not a multiple of " ++
      s!"{x.granularity.value}")), v)
  else
    match d.doReserve size with
    | .error failure =>
      if failure.isUnknown then
        -- The range may exist: it stays charged, with no address to use.
        match v.reservations.insert
            { base := 0, size, mappings := .empty, undetermined := true } with
        | some (_, reservations) => (.error failure, { v with reservations })
        | none => (.error failure, v)
      else (.error failure, v)
    | .ok base =>
      match v.reservations.insert { base, size, mappings := .empty, undetermined := false } with
      | some (id, reservations) => (.ok id, { v with reservations })
      | none =>
        (.error (undone (d.doFree base size) "the reservation table is full"
          "the reservation table is full, and freeing the range failed: "), v)

def rangeOf (v : VmmProvider) (r : ReservationId) : Except Failure AddressRange :=
  match v.reservations.find? r with
  | none => .error (invalid "stale or unknown reservation")
  | some found =>
    if found.undetermined then .error refuseUndetermined
    else .ok { base := found.base, size := found.size }

def free (v : VmmProvider) (d : Driver) (r : ReservationId) :
    Except Failure Unit × VmmProvider :=
  match v.reservations.find? r with
  | none => (.error (invalid "stale or unknown reservation"), v)
  | some found =>
    if found.undetermined then (.error refuseUndetermined, v)
    else if found.mappings.isEmpty = false then
      (.error (invalid "the reservation still has mappings"), v)
    else
      match d.doFree found.base found.size with
      | .error failure =>
        (.error failure, v.setReservation r { found with undetermined := failure.isUnknown })
      | .ok () => (.ok (), { v with reservations := v.reservations.erase r })

def create (v : VmmProvider) (d : Driver) (allocationClass : Nat) (size : Bytes) :
    Except Failure BackingId × VmmProvider :=
  match x.classes[allocationClass]? with
  | none => (.error (invalid "no such allocation class"), v)
  | some chosen =>
    if size = Bytes.zero ∨ size.value % chosen.granularity.value ≠ 0 ∨ x.aligned size = false then
      (.error (invalid s!"backing of {size.value} bytes is not a multiple of the granularity"), v)
    else
      match d.doCreate chosen size with
      | .error failure =>
        if failure.isUnknown then
          -- The backing may exist: it stays charged, with no handle to use.
          match v.backings.insert
              { allocationClass, size, handle := 0, mapped := false, undetermined := true } with
          | some (_, backings) => (.error failure, { v with backings })
          | none => (.error failure, v)
        else (.error failure, v)
      | .ok handle =>
        match v.backings.insert
            { allocationClass, size, handle, mapped := false, undetermined := false } with
        | some (id, backings) => (.ok id, { v with backings })
        | none =>
          (.error (undone (d.doRelease handle size) "the backing table is full"
            "the backing table is full, and releasing the backing failed: "), v)

def release (v : VmmProvider) (d : Driver) (b : BackingId) : Except Failure Unit × VmmProvider :=
  match v.backings.find? b with
  | none => (.error (invalid "stale or unknown backing"), v)
  | some found =>
    if found.undetermined then (.error refuseUndetermined, v)
    else if found.mapped then (.error (invalid "the backing is still mapped"), v)
    else
      match d.doRelease found.handle found.size with
      | .error failure =>
        -- Retrying an unknown release could free a handle since given to someone else.
        (.error failure, v.setBacking b { found with undetermined := failure.isUnknown })
      | .ok () => (.ok (), { v with backings := v.backings.erase b })

/-- Whether the hole at [offset, end) is none: a mapping at or after `offset` that starts
    before `end`, or the one before it reaching past `offset`. -/
def overlaps (place : Reservation) (offset stop : Nat) : Bool :=
  (match place.mappings.lowerBound offset with
    | some after => decide (after.1 < stop)
    | none => false) ||
  (match place.mappings.below offset with
    | some before => decide (offset < wrapAdd before.1 before.2.size.value)
    | none => false)

def map (v : VmmProvider) (d : Driver) (r : ReservationId) (offset : Bytes) (b : BackingId) :
    Except Failure Unit × VmmProvider :=
  match v.reservations.find? r, v.backings.find? b with
  | some place, some found =>
    if place.undetermined || found.undetermined then (.error refuseUndetermined, v)
    else if found.mapped then (.error (invalid "the backing is already mapped"), v)
    else
      match offset.plus found.size with
      | none => (.error (invalid "the mapping does not fit the reservation at that offset"), v)
      | some stop =>
        if x.aligned offset = false ∨ place.size.value < stop.value then
          (.error (invalid "the mapping does not fit the reservation at that offset"), v)
        else if overlaps place offset.value stop.value then
          (.error (invalid "the mapping overlaps another"), v)
        else
          match d.doMap (wrapAdd place.base offset.value) found.size found.handle with
          | .error failure =>
            if failure.isUnknown then
              -- The hole may hold the mapping now.
              (.error failure, (v.setReservation r { place with undetermined := true }).setBacking b
                { found with undetermined := true })
            else (.error failure, v)
          | .ok () =>
            (.ok (), (v.setReservation r { place with
                mappings := place.mappings.insert offset.value ⟨b, found.size⟩ }).setBacking b
              { found with mapped := true })
  | _, _ => (.error (invalid "stale or unknown reservation or backing"), v)

/-- The loop of `Covered`, at `at_`, over the entries from its iterator on. -/
def coveredFrom (stop : Nat) : Nat → List (Nat × Mapping) → Except Failure (List Nat)
  | at_, [] =>
    if at_ < stop then .error (invalid "the range does not cover whole mappings")
    else if at_ ≠ stop then .error (invalid "the range splits a mapping")
    else .ok []
  | at_, (key, mapping) :: rest =>
    if at_ < stop then
      if key ≠ at_ then .error (invalid "the range does not cover whole mappings")
      else (at_ :: ·) <$> coveredFrom stop (wrapAdd at_ mapping.size.value) rest
    else if at_ ≠ stop then .error (invalid "the range splits a mapping")
    else .ok []

def covered (place : Reservation) (offset size : Bytes) : Except Failure (List Nat) :=
  match offset.plus size with
  | none => .error (invalid "the range runs outside the reservation")
  | some stop =>
    if size = Bytes.zero ∨ place.size.value < stop.value then
      .error (invalid "the range runs outside the reservation")
    else
      -- `find(at)`: the entry with that key and those after it, or the end.
      coveredFrom stop.value offset.value
        (place.mappings.entries.dropWhile (fun p => p.1 ≠ offset.value))

/-- The reservation undetermined, and then the backing of each covered mapping: the
    `quarantine` of `SetAccess`, and what `Unmap` does in its place. -/
def quarantine (v : VmmProvider) (r : ReservationId) (place : Reservation) (ats : List Nat) :
    VmmChecked VmmProvider :=
  ats.foldlM (fun v at_ => do
      let mapping ← match place.mappings.find? at_ with
        | some mapping => pure mapping
        | none => throw .noEntry
      match v.backings.find? mapping.backing with
      | some backing => pure (v.setBacking mapping.backing { backing with undetermined := true })
      | none => throw .missing)
    (v.setReservation r { place with undetermined := true })

/-- A run of mappings of one kind that `SetAccess` gathers. -/
structure Run where
  start : Nat
  stop : Nat
  host : Bool

/-- The loop of `SetAccess`: the last run, or the failure that ends it. -/
def accessRuns (v : VmmProvider) (d : Driver) (place : Reservation) (access : Access) :
    List Nat → Run → VmmChecked (Except Failure Run)
  | [], run => pure (.ok run)
  | at_ :: rest, run => do
    let mapping ← match place.mappings.find? at_ with
      | some mapping => pure mapping
      | none => throw .noEntry
    let backing ← match v.backings.find? mapping.backing with
      | some backing => pure backing
      | none => throw .releasedBacking
    let chosen ← match x.classes[backing.allocationClass]? with
      | some chosen => pure chosen
      | none => throw .noEntry
    let host : Bool := chosen.kind = .host
    let stop := wrapAdd at_ mapping.size.value
    if run.start < run.stop ∧ host ≠ run.host then
      match d.doSetAccess (wrapAdd place.base run.start)
          (wrapSub run.stop run.start) access run.host with
      | .error failure => pure (.error failure)
      | .ok () => accessRuns v d place access rest { start := run.stop, stop, host }
    else accessRuns v d place access rest { run with stop, host }

def setAccess (v : VmmProvider) (d : Driver) (r : ReservationId) (offset size : Bytes)
    (access : Access) : VmmChecked (Except Failure Unit × VmmProvider) :=
  match v.reservations.find? r with
  | none => pure (.error (invalid "stale or unknown reservation"), v)
  | some place =>
    if place.undetermined then pure (.error refuseUndetermined, v)
    else
      match covered place offset size with
      | .error failure => pure (.error failure, v)
      | .ok ats => do
        let ran ← accessRuns x v d place access ats
          { start := offset.value, stop := offset.value, host := false }
        let set : Except Failure Unit := match ran with
          | .error failure => .error failure
          | .ok run =>
            d.doSetAccess (wrapAdd place.base run.start)
              (wrapSub run.stop run.start) access run.host
        match set with
        | .ok () => pure (.ok (), v)
        | .error failure =>
          if failure.isUnknown then do
            let v ← quarantine v r place ats
            pure (.error failure, v)
          else pure (.error failure, v)

/-- One turn of the loop that ends `Unmap`: the backing's flag cleared and the mapping
    erased. -/
def unmapOne (r : ReservationId) (v : VmmProvider) (at_ : Nat) : VmmChecked VmmProvider := do
  let place ← match v.reservations.find? r with
    | some place => pure place
    | none => throw .missing
  let mapping ← match place.mappings.find? at_ with
    | some mapping => pure mapping
    | none => throw .noEntry
  match v.backings.find? mapping.backing with
  | none => throw .releasedBacking
  | some backing =>
    pure ((v.setBacking mapping.backing { backing with mapped := false }).setReservation r
      { place with mappings := place.mappings.erase at_ })

def unmap (v : VmmProvider) (d : Driver) (r : ReservationId) (offset size : Bytes) :
    VmmChecked (Except Failure Unit × VmmProvider) :=
  match v.reservations.find? r with
  | none => pure (.error (invalid "stale or unknown reservation"), v)
  | some place =>
    if place.undetermined then pure (.error refuseUndetermined, v)
    else
      match covered place offset size with
      | .error failure => pure (.error failure, v)
      | .ok ats =>
        match d.doUnmap (wrapAdd place.base offset.value) size with
        | .error failure =>
          if failure.isUnknown then do
            let v ← quarantine v r place ats
            pure (.error failure, v)
          else pure (.error failure, v)
        | .ok () => do
          let v ← ats.foldlM (unmapOne r) v
          pure (.ok (), v)

/-! ## Runs of calls -/

inductive Call
  | reserve (size : Bytes)
  | free (r : ReservationId)
  | create (allocationClass : Nat) (size : Bytes)
  | release (b : BackingId)
  | map (r : ReservationId) (offset : Bytes) (b : BackingId)
  | setAccess (r : ReservationId) (offset size : Bytes) (access : Access)
  | unmap (r : ReservationId) (offset size : Bytes)

def answer {α : Type} (result : Except Failure α × VmmProvider) :
    Except Failure Unit × VmmProvider :=
  (result.1.map (fun _ => ()), result.2)

def call (v : VmmProvider) (d : Driver) : Call → VmmChecked (Except Failure Unit × VmmProvider)
  | .reserve size => pure (answer (reserve x v d size))
  | .free r => pure (free v d r)
  | .create allocationClass size => pure (answer (create x v d allocationClass size))
  | .release b => pure (release v d b)
  | .map r offset b => pure (map x v d r offset b)
  | .setAccess r offset size access => setAccess x v d r offset size access
  | .unmap r offset size => unmap v d r offset size

/-- The calls of a run, each under its own driver answers, from `v`. -/
inductive Runs : VmmProvider → VmmProvider → Prop
  | refl (v : VmmProvider) : Runs v v
  | call {v v' v'' : VmmProvider} {d : Driver} {c : Call} {answer : Except Failure Unit} :
      Runs v v' → call x v' d c = .ok (answer, v'') → Runs v v''

end VmmProvider
end JitLlm.Providers
