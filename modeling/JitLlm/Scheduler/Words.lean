import JitLlm.Scheduler.Completions

/-!
# The completion board's words

`completions.cc` again, with the mailbox as the source has it: an acceptance, a terminal result, a
proof and a contradiction marker, each a word that carries the generation it was written for, and
`CompletionBoard` over them. What a publication does to the words is a function of the mailbox
alone (`accept`, `complete`), which answers with whether it must be announced; the board's calls
are that and then `Announce`, and the interleaved board of `Scheduler/Ring.lean` takes the two
apart.

A compare-exchange is an `if` on the whole word. `Complete`'s wait for a word that is being
written has nobody to wait for when calls are atomic, so it is `Fatal.endless` there.
-/

namespace JitLlm.Completions

open Base Lib
open Scheduler hiding Mailbox CompletionBoard

/-- A state word: the generation in its high bits, the rest in its low byte. -/
structure Word (V : Type) where
  generation : Nat
  value : V
deriving DecidableEq

/-- `kEmpty`, `kWriting`, or `kWritten` with the outcome. -/
inductive TerminalValue
  | empty | writing | written (outcome : Outcome)
deriving DecidableEq

/-- The contradiction word: 0, 1, or `kRetiredMark`. -/
inductive Marker
  | clean | contradicted | retired
deriving DecidableEq

structure Mailbox where
  acceptance : Word Acceptance
  terminal : Word TerminalValue
  bytes : Nat := 0
  proof : Word Bool
  contradictory : Word Marker
  queued : Bool := false
  generation : Nat
  isOpen : Bool := false
deriving DecidableEq

namespace Mailbox

variable (m : Mailbox) (generation : Nat)

def ofGeneration : Mailbox where
  acceptance := ⟨generation, .none⟩
  terminal := ⟨generation, .empty⟩
  proof := ⟨generation, false⟩
  contradictory := ⟨generation, .clean⟩
  generation := generation

def readTerminal : Option Terminal :=
  if m.terminal.generation ≠ generation then none
  else match m.terminal.value with
    | .written outcome =>
      some { outcome, bytes := m.bytes, noFurtherAccess := m.proof = ⟨generation, true⟩ }
    | _ => none

def isRetired : Bool := m.contradictory = ⟨generation, .retired⟩

/-- `Contradict`, up to its `Announce`. -/
def contradict : Published × Mailbox × Bool :=
  if m.contradictory = ⟨generation, .clean⟩ then
    (.contradiction, { m with contradictory := ⟨generation, .contradicted⟩ }, true)
  else if m.contradictory = ⟨generation, .contradicted⟩ then (.contradiction, m, false)
  else (.stale, m, false)

/-- `Prove`, up to its `Announce`: true if the proof is new. -/
def prove : Bool × Mailbox :=
  if m.proof = ⟨generation, false⟩ then (true, { m with proof := ⟨generation, true⟩ })
  else (false, m)

/-- `Accept` on the mailbox: its answer, the words after it, and whether it announces them. -/
def accept (acceptance : Acceptance) : Published × Mailbox × Bool :=
  if m.acceptance = ⟨generation, .none⟩ then
    (.recorded, { m with acceptance := ⟨generation, acceptance⟩ }, true)
  else if m.acceptance.generation ≠ generation ∨ m.isRetired generation then (.stale, m, false)
  else if m.acceptance.value = acceptance then (.duplicate, m, false)
  else m.contradict generation

/-- `Complete` on the mailbox, likewise. -/
def complete (terminal : Terminal) : Checked (Published × Mailbox × Bool) :=
  if m.terminal = ⟨generation, .empty⟩ then
    .ok (.recorded,
      { m with
        bytes := terminal.bytes
        proof := if terminal.noFurtherAccess ∧ m.proof = ⟨generation, false⟩
          then ⟨generation, true⟩ else m.proof
        terminal := ⟨generation, .written terminal.outcome⟩ }, true)
  else if m.terminal.generation ≠ generation then .ok (.stale, m, false)
  else if m.terminal.value = .writing then .error .endless
  else match m.readTerminal generation with
    | none => .ok (.stale, m, false)
    | some recorded =>
      if m.isRetired generation then .ok (.stale, m, false)
      else if recorded.outcome = terminal.outcome ∧ recorded.bytes = terminal.bytes then
        if terminal.noFurtherAccess then
          match m.prove generation with
          | (true, m) => .ok (.recorded, m, true)
          | (false, m) => .ok (.duplicate, m, false)
        else .ok (.duplicate, m, false)
      else .ok (m.contradict generation)

/-- `Close`'s condition: proven not started, or started with a proven result. -/
def reconciled : Bool :=
  let terminal := m.readTerminal m.generation
  if m.acceptance = ⟨m.generation, .notStarted⟩ then terminal.isNone
  else m.acceptance.generation = m.generation &&
    (m.acceptance.value = .accepted || m.acceptance.value = .unknown) &&
    terminal.any (·.noFurtherAccess)

/-- `Close` of an open mailbox, at its own generation. -/
def close : Bool × Mailbox :=
  let notStarted : Bool := m.acceptance = ⟨m.generation, .notStarted⟩
  if !m.reconciled then (false, m)
  else if notStarted ∧ m.terminal ≠ ⟨m.generation, .empty⟩ then (false, m)
  else
    -- The terminal word of an operation that never started is frozen while the gate is tried.
    let frozen := if notStarted then { m with terminal := ⟨m.generation, .writing⟩ } else m
    let retired : Bool := m.generation = uint32Max
    if frozen.contradictory ≠ ⟨m.generation, .clean⟩ then
      (false, if notStarted then { frozen with terminal := ⟨m.generation, .empty⟩ } else frozen)
    else if retired then
      (true, { frozen with
        contradictory := ⟨m.generation, .retired⟩
        isOpen := false
        terminal := if notStarted then ⟨m.generation, .written .succeeded⟩ else frozen.terminal })
    else
      (true, { frozen with
        contradictory := ⟨m.generation + 1, .clean⟩
        isOpen := false
        generation := m.generation + 1
        terminal := ⟨m.generation + 1, .empty⟩
        proof := ⟨m.generation + 1, false⟩
        acceptance := ⟨m.generation + 1, .none⟩ })

/-- What `Harvest` reads of an open mailbox. -/
def observation (index : Nat) : Observation :=
  let acceptance := if m.acceptance.generation = m.generation then m.acceptance.value else .none
  let terminal := m.readTerminal m.generation
  { operation := ⟨index, m.generation⟩
    acceptance
    terminal
    contradictory := m.contradictory = ⟨m.generation, .contradicted⟩ ||
      (acceptance = .notStarted && terminal.isSome) }

end Mailbox

structure CompletionBoard where
  mailboxes : List Mailbox
  free : List Nat
  openCount : Nat := 0
  retired : Nat := 0
  news : List Nat := []

namespace CompletionBoard

variable (b : CompletionBoard)

def create (mailboxes firstGeneration : Nat) : Checked CompletionBoard := do
  check (mailboxes > 0 ∧ mailboxes ≤ uint32Max ∧ firstGeneration > 0 ∧
    firstGeneration ≤ uint32Max) .noMailboxes
  return {
    mailboxes := List.replicate mailboxes (Mailbox.ofGeneration firstGeneration)
    free := List.range mailboxes }

def set (i : Nat) (m : Mailbox) : CompletionBoard := { b with mailboxes := b.mailboxes.set i m }

def mailbox? (operation : OperationId) : Option Mailbox :=
  if operation.valid then b.mailboxes[operation.index]? else none

/-- `Open`. -/
def «open» : Option (OperationId × CompletionBoard) :=
  match b.free with
  | [] => none
  | i :: rest =>
    match b.mailboxes[i]? with
    | none => none
    | some m =>
      some (⟨i, m.generation⟩,
        { b.set i { m with isOpen := true } with free := rest, openCount := b.openCount + 1 })

def close (operation : OperationId) : Bool × CompletionBoard :=
  match b.mailbox? operation with
  | none => (false, b)
  | some m =>
    if !m.isOpen ∨ m.generation ≠ operation.generation then (false, b)
    else match m.close with
      | (false, m) => (false, b.set operation.index m)
      | (true, m') =>
        let closed := { b.set operation.index m' with openCount := b.openCount - 1 }
        if m.generation = uint32Max then (true, { closed with retired := b.retired + 1 })
        else (true, { closed with free := b.free ++ [operation.index] })

def announce (i : Nat) : Checked CompletionBoard :=
  match b.mailboxes[i]? with
  | none => .error .missing
  | some m =>
    if m.queued then .ok b
    else if b.news.length < b.mailboxes.length then
      .ok { b.set i { m with queued := true } with news := b.news ++ [i] }
    else .error .newsOverflow

def publish (i : Nat) : Published × Mailbox × Bool → Checked (Published × CompletionBoard)
  | (published, m, true) => do return (published, ← (b.set i m).announce i)
  | (published, m, false) => .ok (published, b.set i m)

def accept (operation : OperationId) (acceptance : Acceptance) :
    Checked (Published × CompletionBoard) := do
  check (acceptance ≠ .none) .unresolved
  match b.mailbox? operation with
  | none => return (.stale, b)
  | some m => b.publish operation.index (m.accept operation.generation acceptance)

def complete (operation : OperationId) (terminal : Terminal) :
    Checked (Published × CompletionBoard) := do
  match b.mailbox? operation with
  | none => return (.stale, b)
  | some m => b.publish operation.index (← m.complete operation.generation terminal)

def report (seen : Observation) (observations : List Observation) : List Observation :=
  if observations.any fun earlier => earlier.operation = seen.operation then
    observations.map fun earlier => if earlier.operation = seen.operation then seen else earlier
  else observations ++ [seen]

/-- `Harvest`'s loop, over the news there is. -/
def harvestLoop (limit : Nat) :
    List Nat → List Observation → CompletionBoard → List Observation × CompletionBoard
  | [], observations, b => (observations, { b with news := [] })
  | i :: rest, observations, b =>
    if observations.length < limit then
      match b.mailboxes[i]? with
      | none => harvestLoop limit rest observations b
      | some m =>
        let b := b.set i { m with queued := false }
        if m.isOpen then harvestLoop limit rest (report (m.observation i) observations) b
        else harvestLoop limit rest observations b
    else (observations, { b with news := i :: rest })

def harvest (limit : Nat) : List Observation × CompletionBoard :=
  harvestLoop limit b.news [] b

end CompletionBoard

inductive Op
  | open
  | close (operation : OperationId)
  | accept (operation : OperationId) (acceptance : Acceptance)
  | complete (operation : OperationId) (terminal : Terminal)
  | harvest (limit : Nat)

def Op.run (b : CompletionBoard) : Op → Checked CompletionBoard
  | .open => .ok ((b.open.map Prod.snd).getD b)
  | .close operation => .ok (b.close operation).2
  | .accept operation acceptance => Prod.snd <$> b.accept operation acceptance
  | .complete operation terminal => Prod.snd <$> b.complete operation terminal
  | .harvest limit => .ok (b.harvest limit).2

def runs (b : CompletionBoard) (ops : List Op) : Checked CompletionBoard :=
  ops.foldlM (fun b op => op.run b) b

inductive Reachable : CompletionBoard → Prop
  | init {mailboxes firstGeneration : Nat} {b : CompletionBoard} :
      CompletionBoard.create mailboxes firstGeneration = .ok b → Reachable b
  | step {b b' : CompletionBoard} (op : Op) : Reachable b → op.run b = .ok b' → Reachable b'

end JitLlm.Completions
