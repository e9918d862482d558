/-!
# `base/check.h` — the program's fatal checks

`base::Check(cond, text)` ends the process when its condition fails. A modelled function that
makes one answers `Except Fatal`: `error` is the process ended, and no state follows it.
One constructor a check, with the source's text beside it, so that a theorem can say *which*
check never fires.
-/

namespace JitLlm.Base

inductive Fatal
  -- catalog.cc
  | occupancyOverflow        -- "occupancy overflow"
  | occupancyUnderflow       -- "occupancy underflow"
  | generationExhausted      -- "generation exhausted"
  | operationCounter         -- "operation counter exhausted"
  | unknownDomain            -- "extent in an unknown domain"
  | missingExtent            -- "resource placed in a missing extent"
  | leaseOverflow            -- "lease count overflow"
  | leaseNotHeld             -- "a lease names an extent it does not hold"
  | registrationOverflow     -- "registration count overflow"
  | registrationNotHeld      -- "a registration names an extent it does not hold"
  -- completions.cc
  | newsOverflow             -- "completion news overflow"
  | unresolved               -- "acceptance must resolve the submission"
  | noMailboxes              -- "a completion board needs mailboxes and a valid first generation"
  -- tasks.cc
  | taskSlot                 -- "a task slot beyond the table's capacity"
  | operationCount           -- "operation count overflow"
  | retireNone               -- "retiring an operation the task does not have"
  | readyBounds              -- "a ready task outside the queue's bounds"
  | readyRetired             -- "a ready entry for a retired task"
  | readyOverflow            -- "ready queue overflow"
  -- scheduler.cc
  | viewNotLive              -- "a view of a task that is not live"
  | cancelNotLive            -- "cancelling a live task"
  | makeReady                -- "an unfinished task can be made ready"
  | notWaiting               -- "a task woken for a dependency it did not wait on"
  | finishNotLive            -- "finishing a live task"
  | freshUse                 -- "recording a fresh lease's use"
  | taskNotOpen              -- "an open task takes an operation"
  | heldNotCounted           -- "an operation under a request's lease that is not counted"
  | heldUse                  -- "recording a held lease's use"
  | heldRelease              -- "releasing a request's lease"
  | pastCapacity             -- "opening an operation past the board's capacity"
  | rollBackSeen             -- "rolling back an operation a lane may have seen"
  | leaseRelease             -- "releasing an operation's lease"
  | operationRetire          -- "retiring a task's operation"
  -- pagein.cc
  | loadingNoPageIn          -- "a loading extent without its page-in"
  | ownRefused               -- "a load refused the backing its own parked eviction kept"
  | proceedStage             -- "proceeding from a stage that waits for a completion"
  | mapUnmanaged             -- "mapping backing a source does not manage"
  | readNoSlot               -- "a landed read without a slot"
  | copyNoSlot               -- "a copy without a slot"
  | openWaiting              -- "opening an operation for a stage that has none"
  | lostLoad                 -- "a page-in stage lost its load"
  | pastReadNoSlot           -- "a landed load past its read without a slot"
  | stageWaits               -- "a completion for a stage that waits for none"
  | endNotInFlight           -- "ending a page-in that is not in flight"
  | endHolding               -- "a page-in ended holding a slot or kept backing, ..."
  | settleLoad               -- "settling a page-in's load"
  | quarantineLoad           -- "quarantining a page-in's load"
  | freeNotBusy              -- "freeing a slot that is not in use"
  | freshEvict               -- "completing a fresh eviction"
  | writeBackPast            -- "a write-back proceeding past its slot"
  | copyOutNoSlot            -- "a write-back's copy without a slot"
  | writeNoSlot              -- "a landed write-back without a slot"
  | unmapUnmanaged           -- "unmapping backing a source does not manage"
  | evictOpenWaiting         -- "opening an operation for an eviction that waits for none"
  | lostEviction             -- "an eviction stage lost its eviction"
  | evictStageWaits          -- "a completion for an eviction that waits for none"
  | notParked                -- "handing off backing an eviction does not keep"
  | evictNotInFlight         -- "ending an eviction that is not in flight"
  | evictHolding             -- "an eviction ended holding a slot"
  | settleEvict              -- "settling an eviction"
  | quarantineEvict          -- "quarantining an eviction"
  | noEntry                  -- an `at` of a map or vector that has no such entry
  -- admission.cc
  | unheldDomain             -- "admission for a domain the ledger does not hold"
  | noGrant                  -- "an admitted request has no grant"
  | lostDomain               -- "the ledger lost the domain"
  | runningUnfit             -- "the running set does not fit"
  | resumptionUnfit          -- "the promised resumption does not fit"
  | freshGrant               -- "a fresh grant is missing"
  | choiceChanged            -- "the choice changed between peeking and choosing"
  | grantMissing             -- "an admitted request's grant is missing"
  | nonePaused               -- "a substitute without a paused request"
  -- A null pointer followed: no text, the process ends all the same.
  | missing
  -- A loop of the source that did not end within the bound its model has.
  | endless
deriving DecidableEq

def Fatal.ofCatalog : Fatal → Bool
  | .occupancyOverflow | .occupancyUnderflow | .generationExhausted | .operationCounter
  | .unknownDomain | .missingExtent | .leaseOverflow | .leaseNotHeld | .registrationOverflow
  | .registrationNotHeld | .missing => true
  | _ => false

/-- Those of them that any change of a record may make: of the ledger's sums, and of the counters
    that only grow. -/
def Fatal.ofChange : Fatal → Bool
  | .occupancyOverflow | .occupancyUnderflow | .generationExhausted | .operationCounter
  | .unknownDomain => true
  | _ => false

abbrev Checked := Except Fatal

def check (condition : Bool) (fatal : Fatal) : Checked Unit :=
  if condition then .ok () else .error fatal

def require {α : Type} (fatal : Fatal) : Option α → Checked α
  | none => .error fatal
  | some a => .ok a

end JitLlm.Base
