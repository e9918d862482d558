import JitLlm.Base.Check
import JitLlm.Base.Ids

/-!
# `scheduler/completions.h`, `completions.cc` — the completion board

One mailbox an operation in flight: the lanes publish an acceptance and a terminal result in
either order, the owner opens, harvests and closes. Each call is one atomic step here. The
words of a mailbox carry its generation in their high bits; with atomic steps they always agree
with the mailbox's own, so a mailbox has the generation once and the words' low parts beside it.
The contradiction word's third value, the marker of a mailbox retired at its last generation, is
`retired`.
-/

namespace JitLlm.Scheduler

open Base Lib

abbrev OperationId := Id .operation

inductive Acceptance
  | none | notStarted | accepted | unknown
deriving DecidableEq

inductive Outcome
  | succeeded | failed | cancelled
deriving DecidableEq

structure Terminal where
  outcome : Outcome := .succeeded
  bytes : Nat := 0
  noFurtherAccess : Bool := false
deriving DecidableEq

structure Observation where
  operation : OperationId
  acceptance : Acceptance := .none
  terminal : Option Terminal := .none
  contradictory : Bool := false
deriving DecidableEq

inductive Published
  | recorded | duplicate | contradiction | stale
deriving DecidableEq

structure Mailbox where
  generation : Nat
  isOpen : Bool := false
  acceptance : Acceptance := .none
  -- The outcome and byte count recorded; the proof has a word of its own.
  terminal : Option (Outcome × Nat) := none
  proof : Bool := false
  contradictory : Bool := false
  retired : Bool := false
  queued : Bool := false
deriving DecidableEq

def Mailbox.readTerminal (m : Mailbox) : Option Terminal :=
  m.terminal.map fun t => { outcome := t.1, bytes := t.2, noFurtherAccess := m.proof }

/-- `Close`'s condition: proven not started, or started with a proven result. -/
def Mailbox.reconciled (m : Mailbox) : Bool :=
  match m.acceptance with
  | .none => false
  | .notStarted => m.terminal.isNone
  | .accepted | .unknown => m.terminal.isSome && m.proof

structure CompletionBoard where
  mailboxes : List Mailbox
  free : List Nat
  openCount : Nat := 0
  retired : Nat := 0
  news : List Nat := []

namespace CompletionBoard

def ofMailboxes (mailboxes : Nat) (firstGeneration : Nat := 1) : CompletionBoard where
  mailboxes := List.replicate mailboxes { generation := firstGeneration }
  free := List.range mailboxes

def available (b : CompletionBoard) : Nat := b.free.length

def exhausted (b : CompletionBoard) : Bool := b.retired = b.mailboxes.length

def set (b : CompletionBoard) (i : Nat) (m : Mailbox) : CompletionBoard :=
  { b with mailboxes := b.mailboxes.set i m }

/-- `Open`: the new operation's identity, or `none` when every mailbox is open or retired. -/
def «open» (b : CompletionBoard) : Option (OperationId × CompletionBoard) :=
  match b.free with
  | [] => none
  | i :: rest =>
    match b.mailboxes[i]? with
    | none => none
    | some m =>
      some (⟨i, m.generation⟩,
        { b.set i { m with isOpen := true } with free := rest, openCount := b.openCount + 1 })

/-- `Close`; `false` and the board as it was if the operation may still touch memory, its
    observations contradict each other, or the identity is stale. -/
def close (b : CompletionBoard) (operation : OperationId) : Bool × CompletionBoard :=
  match b.mailboxes[operation.index]? with
  | none => (false, b)
  | some m =>
    if !operation.valid || !m.isOpen || m.generation ≠ operation.generation then (false, b)
    else if !m.reconciled || m.contradictory then (false, b)
    else if m.generation = uint32Max then
      -- Retired: the words stay, and the marker makes every later publication stale.
      (true, { b.set operation.index
                { m with isOpen := false, retired := true
                         terminal := if m.acceptance = .notStarted then some (.succeeded, 0)
                           else m.terminal } with
        openCount := b.openCount - 1, retired := b.retired + 1 })
    else
      (true, { b.set operation.index
                { generation := m.generation + 1, queued := m.queued } with
        openCount := b.openCount - 1, free := b.free ++ [operation.index] })

/-- `Announce`: the mailbox joins the news, once. -/
def announce (b : CompletionBoard) (i : Nat) : Checked CompletionBoard :=
  match b.mailboxes[i]? with
  | none => .error .missing
  | some m =>
    if m.queued then .ok b
    else if b.news.length < b.mailboxes.length then
      .ok { b.set i { m with queued := true } with news := b.news ++ [i] }
    else .error .newsOverflow

def contradict (b : CompletionBoard) (i : Nat) (m : Mailbox) :
    Checked (Published × CompletionBoard) :=
  if m.contradictory then .ok (.contradiction, b)
  else do return (.contradiction, ← (b.set i { m with contradictory := true }).announce i)

def accept (b : CompletionBoard) (operation : OperationId) (acceptance : Acceptance) :
    Checked (Published × CompletionBoard) :=
  match b.mailboxes[operation.index]? with
  | none => .ok (.stale, b)
  | some m =>
    if !operation.valid || m.generation ≠ operation.generation then .ok (.stale, b)
    else if m.acceptance = .none then do
      return (.recorded, ← (b.set operation.index { m with acceptance }).announce operation.index)
    else if m.retired then .ok (.stale, b)
    else if m.acceptance = acceptance then .ok (.duplicate, b)
    else b.contradict operation.index m

def complete (b : CompletionBoard) (operation : OperationId) (terminal : Terminal) :
    Checked (Published × CompletionBoard) :=
  match b.mailboxes[operation.index]? with
  | none => .ok (.stale, b)
  | some m =>
    if !operation.valid || m.generation ≠ operation.generation then .ok (.stale, b)
    else match m.terminal with
      | none => do
        return (.recorded, ← (b.set operation.index
          { m with terminal := some (terminal.outcome, terminal.bytes)
                   proof := m.proof || terminal.noFurtherAccess }).announce operation.index)
      | some recorded =>
        if m.retired then .ok (.stale, b)
        else if recorded = (terminal.outcome, terminal.bytes) then
          -- The proof may follow the result; it is never withdrawn.
          if terminal.noFurtherAccess && !m.proof then do
            return (.recorded, ← (b.set operation.index { m with proof := true }).announce
              operation.index)
          else .ok (.duplicate, b)
        else b.contradict operation.index m

/-- What `Harvest` reads of an open mailbox. -/
def observation (i : Nat) (m : Mailbox) : Observation :=
  { operation := ⟨i, m.generation⟩
    acceptance := m.acceptance
    terminal := m.readTerminal
    contradictory := m.contradictory || (m.acceptance = .notStarted && m.terminal.isSome) }

/-- `Harvest`: up to `limit` observations, from the front of the news. With atomic steps no
    mailbox is queued again while the harvest runs. -/
def harvest (b : CompletionBoard) : Nat → List Observation × CompletionBoard
  | 0 => ([], b)
  | limit + 1 => go limit b.news b
where
  go (limit : Nat) : List Nat → CompletionBoard → List Observation × CompletionBoard
    | [], b => ([], { b with news := [] })
    | i :: rest, b =>
      match b.mailboxes[i]? with
      | none => go limit rest b
      | some m =>
        let b := b.set i { m with queued := false }
        if !m.isOpen then go limit rest b
        else match limit with
          | 0 => ([observation i m], { b with news := rest })
          | limit + 1 =>
            let (seen, b) := go limit rest b
            (observation i m :: seen, b)

end CompletionBoard
end JitLlm.Scheduler
