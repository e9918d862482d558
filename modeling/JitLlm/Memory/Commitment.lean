import JitLlm.Catalog.Catalog
import Mathlib.Data.List.Sort

/-!
# `memory/commitment.h`, `memory/commitment.cc` — the commitment ledger

Promises, by memory domain: a budget `B`, fixed overhead `F`, background work `J`, each
guaranteed request's envelope (`R_i`, `E_i`) and the active cohort. A change that adds a
commitment is checked against

    F + R(G) + J + max(max(E_i for i in G), sum(E_i for i in C)) <= B

and, while a resumption is promised, against the same at the resumption.

Each operation answers its own `std::expected` beside the ledger; a refusal hands the ledger back
as it was. `ToString` and the queries nothing here reads (`EnvelopeOf`, `DomainOf`) are left out.
-/

namespace JitLlm.Memory

open Base Lib

abbrev DomainId := Catalog.DomainId
abbrev GrantId := Id .grant

/-- `Envelope`: a guaranteed request's promise in one domain. -/
structure Envelope where
  retained : Bytes := Bytes.zero
  phase : Bytes := Bytes.zero
deriving DecidableEq

inductive CommitmentError
  | doesNotFit | overflow | unknownDomain | unknownGrant | underflow | exhausted
  | breaksResumption
deriving DecidableEq

structure CommitmentTotals where
  budget : Bytes
  fixed : Bytes
  background : Bytes
  retained : Bytes := Bytes.zero
  maxPhase : Bytes := Bytes.zero
  cohortPhase : Bytes := Bytes.zero
  required : Bytes := Bytes.zero

/-- `Change`: a hypothetical one, checked without applying it. -/
structure Change where
  replace : Option GrantId := none
  replacement : Envelope := {}
  add : Option Envelope := none
  addToCohort : Bool := false
  cohort : Option (List GrantId) := none
  exclude : List GrantId := []
  fixed : Option Bytes := none
  background : Option Bytes := none
  budget : Option Bytes := none

structure Resumption where
  cohort : List GrantId
  substitute : GrantId
deriving DecidableEq

/-- The change at the resumption: its cohort running, the substitute gone. A newcomer is not in
    the promised resumption. -/
def Change.resumed (change : Change) (resumption : Resumption) : Change :=
  { change with
    cohort := some resumption.cohort
    addToCohort := false
    exclude := change.exclude ++ [resumption.substitute] }

structure Domain where
  budget : Bytes
  fixed : Bytes := Bytes.zero
  background : Bytes := Bytes.zero
  cohort : List GrantId := []
  resumption : Option Resumption := none

structure GrantRecord where
  domain : DomainId
  envelope : Envelope

structure CommitmentLedger where
  domains : OrdMap DomainId Domain := OrdMap.empty
  grants : SlotTable .grant GrantRecord := SlotTable.empty

abbrev Result := Except CommitmentError

namespace CommitmentLedger

/-! ## Evaluation -/

/-- What `Evaluate` adds up as it counts envelopes; a sum that overflowed stays so. -/
structure Tally where
  retained : Option Bytes := some Bytes.zero
  maxPhase : Bytes := Bytes.zero
  cohortPhase : Option Bytes := some Bytes.zero

/-- `Evaluate`'s `count`. -/
def Tally.count (t : Tally) (envelope : Envelope) (inCohort : Bool) : Tally where
  retained := t.retained.bind fun b => b.plus envelope.retained
  maxPhase := t.maxPhase.max envelope.phase
  cohortPhase :=
    if inCohort then t.cohortPhase.bind fun b => b.plus envelope.phase else t.cohortPhase

def tallyOf (items : List (Envelope × Bool)) : Tally :=
  items.foldl (fun (t : Tally) p => t.count p.1 p.2) {}

/-- The envelopes `Evaluate` counts, in order, each with whether it is in the cohort. -/
def counted (l : CommitmentLedger) (domain : DomainId) (cohort : List GrantId) (change : Change) :
    List (Envelope × Bool) :=
  (l.grants.entries.filter fun p => p.2.domain = domain ∧ p.1 ∉ change.exclude).map
      (fun p => (if change.replace = some p.1 then change.replacement else p.2.envelope,
        decide (p.1 ∈ cohort)))
    ++ change.add.toList.map fun envelope => (envelope, change.addToCohort)

/-- `F + J + R + max(max E, cohort)`, checked. -/
def required (fixed background retained maxPhase cohortPhase : Bytes) : Option Bytes := do
  let sum ← fixed.plus background
  let sum ← sum.plus retained
  sum.plus (maxPhase.max cohortPhase)

/-- `change.replace` names a live grant of the domain, if it names one. -/
def replaceable (l : CommitmentLedger) (domain : DomainId) (change : Change) : Bool :=
  match change.replace with
  | none => true
  | some grant =>
    match l.grants.find? grant with
    | none => false
    | some replaced => replaced.domain = domain

def evaluate (l : CommitmentLedger) (domain : DomainId) (change : Change) :
    Result CommitmentTotals :=
  match l.domains.find? domain with
  | none => .error .unknownDomain
  | some state =>
    if !l.replaceable domain change then .error .unknownGrant
    else
      let cohort := change.cohort.getD state.cohort
      let tally := tallyOf (l.counted domain cohort change)
      let budget := change.budget.getD state.budget
      let fixed := change.fixed.getD state.fixed
      let background := change.background.getD state.background
      match tally.retained, tally.cohortPhase with
      | some retained, some cohortPhase =>
        match required fixed background retained tally.maxPhase cohortPhase with
        | none => .error .overflow
        | some sum => .ok { budget, fixed, background, retained, maxPhase := tally.maxPhase,
                            cohortPhase, required := sum }
      | _, _ => .error .overflow

/-- `Check`: the change now, and at the promised resumption if there is one. -/
def check (l : CommitmentLedger) (domain : DomainId) (change : Change) : Result Unit :=
  match l.evaluate domain change with
  | .error e => .error e
  | .ok totals =>
    if totals.required.value > totals.budget.value then .error .doesNotFit
    else match (l.domains.find? domain).bind Domain.resumption with
      | none => .ok ()
      | some resumption =>
        match l.evaluate domain (change.resumed resumption) with
        | .error .overflow => .error .breaksResumption
        | .error e => .error e
        | .ok totals =>
          if totals.required.value > totals.budget.value then .error .breaksResumption
          else .ok ()

/-! ## Operations -/

def setDomain (l : CommitmentLedger) (domain : DomainId) (state : Domain) : CommitmentLedger :=
  { l with domains := l.domains.insert domain state }

def onDomain (l : CommitmentLedger) (domain : DomainId)
    (f : Domain → Result Unit × CommitmentLedger) : Result Unit × CommitmentLedger :=
  match l.domains.find? domain with
  | none => (.error .unknownDomain, l)
  | some state => f state

/-- The ledger `after`, if the change passes `Check`. -/
def checked (l : CommitmentLedger) (domain : DomainId) (change : Change)
    (after : CommitmentLedger) : Result Unit × CommitmentLedger :=
  match l.check domain change with
  | .error e => (.error e, l)
  | .ok () => (.ok (), after)

def addDomain (l : CommitmentLedger) (domain : DomainId) (budget : Bytes) :
    Result Unit × CommitmentLedger :=
  if !domain.valid ∨ l.domains.contains domain then (.error .unknownDomain, l)
  else (.ok (), l.setDomain domain { budget })

def setBudget (l : CommitmentLedger) (domain : DomainId) (budget : Bytes) :
    Result Unit × CommitmentLedger :=
  l.onDomain domain fun state =>
    l.checked domain { budget := some budget } (l.setDomain domain { state with budget })

def addFixed (l : CommitmentLedger) (domain : DomainId) (bytes : Bytes) :
    Result Unit × CommitmentLedger :=
  l.onDomain domain fun state =>
    match state.fixed.plus bytes with
    | none => (.error .overflow, l)
    | some fixed =>
      l.checked domain { fixed := some fixed } (l.setDomain domain { state with fixed })

def releaseFixed (l : CommitmentLedger) (domain : DomainId) (bytes : Bytes) :
    Result Unit × CommitmentLedger :=
  l.onDomain domain fun state =>
    match state.fixed.minus bytes with
    | none => (.error .underflow, l)
    | some fixed => (.ok (), l.setDomain domain { state with fixed })

def addBackground (l : CommitmentLedger) (domain : DomainId) (bytes : Bytes) :
    Result Unit × CommitmentLedger :=
  l.onDomain domain fun state =>
    match state.background.plus bytes with
    | none => (.error .overflow, l)
    | some background =>
      l.checked domain { background := some background }
        (l.setDomain domain { state with background })

def releaseBackground (l : CommitmentLedger) (domain : DomainId) (bytes : Bytes) :
    Result Unit × CommitmentLedger :=
  l.onDomain domain fun state =>
    match state.background.minus bytes with
    | none => (.error .underflow, l)
    | some background => (.ok (), l.setDomain domain { state with background })

def grant (l : CommitmentLedger) (domain : DomainId) (envelope : Envelope) :
    Result GrantId × CommitmentLedger :=
  match l.check domain { add := some envelope } with
  | .error e => (.error e, l)
  | .ok () =>
    match l.grants.insert { domain, envelope } with
    | none => (.error .exhausted, l)
    | some (id, grants) => (.ok id, { l with grants })

def replace (l : CommitmentLedger) (grant : GrantId) (envelope : Envelope) :
    Result Unit × CommitmentLedger :=
  match l.grants.find? grant with
  | none => (.error .unknownGrant, l)
  | some found =>
    l.checked found.domain { replace := some grant, replacement := envelope }
      { l with grants := l.grants.set grant { found with envelope } }

def Domain.without (state : Domain) (grant : GrantId) : Domain :=
  { state with
    cohort := state.cohort.filter (· ≠ grant)
    resumption := state.resumption.map fun resumption =>
      { resumption with cohort := resumption.cohort.filter (· ≠ grant) } }

/-- `Retire`. The source's `domains_.at` throws if the grant's domain is not there; it always is
    (`Sound.known`), and here nothing changes in that case. -/
def retire (l : CommitmentLedger) (grant : GrantId) : Result Unit × CommitmentLedger :=
  match l.grants.find? grant with
  | none => (.error .unknownGrant, l)
  | some found =>
    match l.domains.find? found.domain with
    | none => (.error .unknownDomain, l)
    | some state =>
      (.ok (), { domains := l.domains.insert found.domain (Domain.without state grant)
                 grants := l.grants.erase grant })

/-- `std::ranges::adjacent_find`: two equal neighbours. -/
def adjacentFind : List GrantId → Bool
  | a :: b :: rest => a = b || adjacentFind (b :: rest)
  | _ => false

def isGrantOf (l : CommitmentLedger) (domain : DomainId) (grant : GrantId) : Bool :=
  match l.grants.find? grant with
  | none => false
  | some found => found.domain = domain

/-- `Members`: the grants sorted, if every one is live in the domain and none repeats. -/
def members (l : CommitmentLedger) (domain : DomainId) (grants : List GrantId) :
    Option (List GrantId) :=
  let members := grants.insertionSort (· ≤ ·)
  if adjacentFind members then none
  else if members.all (l.isGrantOf domain) then some members
  else none

def setCohort (l : CommitmentLedger) (domain : DomainId) (cohort : List GrantId) :
    Result Unit × CommitmentLedger :=
  l.onDomain domain fun state =>
    match l.members domain cohort with
    | none => (.error .unknownGrant, l)
    | some members =>
      l.checked domain { cohort := some members }
        (l.setDomain domain { state with cohort := members })

/-- `SetResumption`: checked as a change with no pause open. -/
def setResumption (l : CommitmentLedger) (domain : DomainId) (cohort : List GrantId)
    (substitute : GrantId) : Result Unit × CommitmentLedger :=
  l.onDomain domain fun state =>
    match l.members domain cohort with
    | none => (.error .unknownGrant, l)
    | some members =>
      if !l.isGrantOf domain substitute ∨ substitute ∈ members then (.error .unknownGrant, l)
      else
        let unpaused := l.setDomain domain { state with resumption := none }
        match unpaused.check domain { cohort := some members, exclude := [substitute] } with
        | .error e => (.error e, l)
        | .ok () =>
          (.ok (), l.setDomain domain { state with
            resumption := some { cohort := members, substitute } })

def clearResumption (l : CommitmentLedger) (domain : DomainId) : Result Unit × CommitmentLedger :=
  l.onDomain domain fun state => (.ok (), l.setDomain domain { state with resumption := none })

def totals (l : CommitmentLedger) (domain : DomainId) : Option CommitmentTotals :=
  match l.evaluate domain {} with
  | .error _ => none
  | .ok totals => some totals

end CommitmentLedger
end JitLlm.Memory
