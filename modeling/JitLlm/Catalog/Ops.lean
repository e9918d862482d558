import JitLlm.Catalog.Catalog
import JitLlm.Lib.Sat

/-!
# The catalog as a state machine

`Op` is one call of the catalog that may change it, with its arguments; `Op.run` makes the call
and forgets its answer. A catalog is `Reachable` when some sequence of calls, with any arguments,
leads to it from the empty one — refused calls included, which change nothing.
-/

namespace JitLlm.Catalog

open Base Lib

inductive Op
  | addDomain (name : String)
  | addExtent (descriptor : ExtentDescriptor) (resident : Bool)
  | removeExtent (extent : ExtentId)
  | releasePinned (extent : ExtentId)
  | addResource (ranges : List Range)
  | removeResource (resource : ResourceId)
  | beginLoad (extent : ExtentId) (budget : Bytes)
  | completeLoad (ticket : Ticket)
  | failLoad (ticket : Ticket) (completionKnown : Bool)
  | acquireLease (closure : Closure)
  | releaseLease (lease : LeaseId)
  | recordUse (lease : LeaseId) (tick : Nat)
  | addRegistration (extent : ExtentId)
  | retireRegistration (registration : RegistrationId)
  | invalidateContents (extent : ExtentId)
  | replaceContents (extent : ExtentId)
  | beginEvict (extent : ExtentId) (writeBack : Bool)
  | completeEvict (ticket : Ticket)
  | cancelEvict (ticket : Ticket)
  | quarantineEviction (ticket : Ticket)

def forget {α : Type} (x : Checked (Result α × Catalog)) : Checked Catalog := do return (← x).2

def Op.run (c : Catalog) : Op → Checked Catalog
  | .addDomain name => .ok (c.addDomain name).2
  | .addExtent descriptor resident => forget (c.addExtent descriptor resident)
  | .removeExtent extent => forget (c.removeExtent extent)
  | .releasePinned extent => forget (c.releasePinned extent)
  | .addResource ranges => forget (c.addResource ranges)
  | .removeResource resource => forget (c.removeResource resource)
  | .beginLoad extent budget => forget (c.beginLoad extent budget)
  | .completeLoad ticket => forget (c.completeLoad ticket)
  | .failLoad ticket completionKnown => forget (c.failLoad ticket completionKnown)
  | .acquireLease closure => forget (c.acquireLease closure)
  | .releaseLease lease => forget (c.releaseLease lease)
  | .recordUse lease tick => forget (c.recordUse lease tick)
  | .addRegistration extent => forget (c.addRegistration extent)
  | .retireRegistration registration => forget (c.retireRegistration registration)
  | .invalidateContents extent => forget (c.invalidateContents extent)
  | .replaceContents extent => forget (c.replaceContents extent)
  | .beginEvict extent writeBack => forget (c.beginEvict extent writeBack)
  | .completeEvict ticket => forget (c.completeEvict ticket)
  | .cancelEvict ticket => forget (c.cancelEvict ticket)
  | .quarantineEviction ticket => forget (c.quarantineEviction ticket)

inductive Answer
  | refused (error : CatalogError)
  | done
  | domain (id : Option DomainId)
  | extent (id : ExtentId)
  | resource (id : ResourceId)
  | ticket (ticket : Ticket)
  | lease (id : LeaseId)
  | registration (id : RegistrationId)
deriving DecidableEq

def answering {α : Type} (wrap : α → Answer) (x : Checked (Result α × Catalog)) :
    Checked (Answer × Catalog) := do
  let y ← x
  match y.1 with
  | .ok a => return (wrap a, y.2)
  | .error e => return (.refused e, y.2)

def Op.call (c : Catalog) : Op → Checked (Answer × Catalog)
  | .addDomain name => .ok (.domain (c.addDomain name).1, (c.addDomain name).2)
  | .addExtent descriptor resident => answering .extent (c.addExtent descriptor resident)
  | .removeExtent extent => answering (fun _ => .done) (c.removeExtent extent)
  | .releasePinned extent => answering (fun _ => .done) (c.releasePinned extent)
  | .addResource ranges => answering .resource (c.addResource ranges)
  | .removeResource resource => answering (fun _ => .done) (c.removeResource resource)
  | .beginLoad extent budget => answering .ticket (c.beginLoad extent budget)
  | .completeLoad ticket => answering (fun _ => .done) (c.completeLoad ticket)
  | .failLoad ticket completionKnown =>
    answering (fun _ => .done) (c.failLoad ticket completionKnown)
  | .acquireLease closure => answering .lease (c.acquireLease closure)
  | .releaseLease lease => answering (fun _ => .done) (c.releaseLease lease)
  | .recordUse lease tick => answering (fun _ => .done) (c.recordUse lease tick)
  | .addRegistration extent => answering .registration (c.addRegistration extent)
  | .retireRegistration registration =>
    answering (fun _ => .done) (c.retireRegistration registration)
  | .invalidateContents extent => answering (fun _ => .done) (c.invalidateContents extent)
  | .replaceContents extent => answering (fun _ => .done) (c.replaceContents extent)
  | .beginEvict extent writeBack => answering .ticket (c.beginEvict extent writeBack)
  | .completeEvict ticket => answering (fun _ => .done) (c.completeEvict ticket)
  | .cancelEvict ticket => answering (fun _ => .done) (c.cancelEvict ticket)
  | .quarantineEviction ticket => answering (fun _ => .done) (c.quarantineEviction ticket)

inductive Reachable : Catalog → Prop
  | start : Reachable {}
  | step {c c' : Catalog} (op : Op) : Reachable c → op.run c = .ok c' → Reachable c'

def runAll (c : Catalog) (ops : List Op) : Checked Catalog := ops.foldlM Op.run c

variable {c c' : Catalog}

theorem Reachable.runAll (h : Reachable c) {ops : List Op}
    (hrun : c.runAll ops = .ok c') : Reachable c' := by
  induction ops generalizing c with
  | nil =>
    cases hrun
    exact h
  | cons op rest ih =>
    obtain ⟨c1, hop, hrest⟩ := bind_ok hrun
    exact ih (h.step op hop) hrest

theorem forget_answering {α : Type} (wrap : α → Answer) (x : Checked (Result α × Catalog)) :
    forget x = do return (← answering wrap x).2 := by
  cases x with
  | error => rfl
  | ok y =>
    obtain ⟨r, c⟩ := y
    cases r <;> rfl

theorem Op.run_eq_call (c : Catalog) (op : Op) : op.run c = do return (← op.call c).2 := by
  cases op with
  | addDomain => rfl
  | _ => exact forget_answering _ _

theorem Op.run_of_call {op : Op} {a : Answer} (h : op.call c = .ok (a, c')) :
    op.run c = .ok c' := by
  rw [Op.run_eq_call, h]
  rfl

theorem Op.call_of_run {op : Op} (h : op.run c = .ok c') : ∃ a, op.call c = .ok (a, c') := by
  rw [Op.run_eq_call] at h
  obtain ⟨y, hy, heq⟩ := bind_ok h
  cases heq
  exact ⟨y.1, hy⟩

theorem current_ok {ticket : Ticket} {operation : Operation} {state : ExtentState}
    {r : ExtentRecord} {c : Catalog} (h : c.current ticket operation state = .ok r) :
    c.extents.find? ticket.extent = some r ∧ ticket.operation = operation ∧
      r.operation = operation ∧ ticket.serial = r.operations ∧ r.view.state = state := by
  unfold current at h
  rcases hf : c.extents.find? ticket.extent with _ | record
  · simp [hf] at h
  simp only [hf] at h
  split at h
  · cases h
  rename_i hcur
  split at h
  · cases h
  rename_i hstate
  simp only [Except.ok.injEq] at h
  subst h
  simp only [ne_eq, not_or, not_not] at hcur hstate
  exact ⟨rfl, hcur.1, hcur.2.1 ▸ hcur.1, hcur.2.2, hstate⟩

theorem forget_sat {α : Type} {E : Fatal → Prop} {P : Catalog → Prop}
    {x : Checked (Result α × Catalog)} (h : Sat E (fun y => P y.2) x) : Sat E P (forget x) :=
  h.bind fun _ hy => hy

end JitLlm.Catalog
