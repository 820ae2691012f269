import ThanksComputer.Lib.Claims
import ThanksComputer.State.Order

/-! The dispatcher of the state personality (server/personality/state/state.go): nodes claim events,
and make one outcome call for each event they have claimed. -/

namespace ThanksComputer.State

open Lib.Claims Lib.Runs Lib.Table

section Dispatchers

/-- The outcomes of a claim. -/
inductive Outcome
  | done (rid : String)
  | skipped (reason : String)
  | retry (backoff : Int) (reason : String) (consumeAttempt : Bool) (maxAttempts : Int)

def Outcome.step (eventID : String) (now : Int) : Outcome → Step
  | .done rid => .markDone eventID rid now
  | .skipped reason => .markSkipped eventID reason now
  | .retry backoff reason consumeAttempt maxAttempts =>
    .retry eventID backoff reason consumeAttempt maxAttempts now

def Step.settles : Step → Bool
  | .markDone .. | .markSkipped .. | .retry .. => true
  | _ => false

def Store.won (db : Store) (limit : Int) (locked : Event → Bool) (now : Int) : List String :=
  (db.events.filter fun e =>
    e.status == .pending && (db.picks limit locked now).any fun p => p.id == e.id).map Event.id

/-- The tables, and the claims whose outcome is still to come. -/
structure Dispatch where
  sys : System
  desk : Desk String

inductive Act
  | step (step : Step)
  | outcome (t : Ticket String) (o : Outcome) (now : Int)
  /-- a node that stops between its claim and its outcome -/
  | abandon (t : Ticket String)

def Dispatch.tally (d : Dispatch) : Step → Desk String
  | .claimDue _ limit locked now => d.desk.claim (d.sys.store.won limit locked now) now
  | .reclaimStale staleAfter _ now => d.desk.reclaim (now - staleAfter)
  | _ => d.desk

def Dispatch.next (cfg : Config) (d : Dispatch) : Act → Option Dispatch
  | .step step =>
    if step.settles then none else (d.sys.next cfg step).map fun sys => ⟨sys, d.tally step⟩
  | .outcome t o now =>
    if t ∈ d.desk.tickets then
      (d.sys.next cfg (o.step t.row now)).map fun sys => ⟨sys, d.desk.settle t⟩
    else none
  | .abandon t => some { d with desk := d.desk.settle t }

def Dispatch.init : Dispatch :=
  ⟨.init, .empty⟩

/-- An outcome call leaves a row alone that a later claim holds. -/
def SparesLater (cfg : Config) (d : Dispatch) : Act → Prop
  | .outcome t o now => ∀ d', d.next cfg (.outcome t o now) = some d' →
      t.serial < d.desk.serial t.row → ∀ e ∈ d.sys.store.events, e.id = t.row →
        e.status = .claimed →
        e ∈ d'.sys.store.events
  | _ => True

/-- No outcome call is made once its claim has gone stale. -/
def Timely (_ : Dispatch) : Act → Prop
  | .outcome t _ _ => t.lapsed = false
  | _ => True

end Dispatchers

section Claims

variable {cfg : Config} {d d' : Dispatch}

abbrev Event.heldSince : Event → Option Int :=
  since (fun e => e.status == .claimed) Event.claimedAt

theorem claimed_of_heldSince {e : Event} (h : e.heldSince.isSome = true) : e.status = .claimed := by
  have hclaimed := claimed_of_since (fun e : Event => e.status == .claimed) h
  exact beq_iff_eq.mp hclaimed

abbrev FairOn (db : Store) (desk : Desk String) : Prop :=
  Fair (HeldIn Event.id Event.heldSince db.events) desk

theorem fairOn_claimDue {db : Store} {desk : Desk String} (h : FairOn db desk)
    (hids : (db.events.map Event.id).Nodup) (node : String) (limit : Int) (locked : Event → Bool)
    (now : Int) :
    FairOn (db.claimDue node limit locked now) (desk.claim (db.won limit locked now) now) := by
  apply h.claimRows hids
  · intro e hcond
    rw [Bool.and_eq_true, beq_iff_eq] at hcond
    apply since_of_not
    rw [hcond.1]
    rfl
  · exact fun e => rfl
  · exact fun e => rfl

theorem fairOn_reclaimStale {db : Store} {desk : Desk String} (h : FairOn db desk)
    (staleAfter maxAttempts now : Int) :
    FairOn (db.reclaimStale staleAfter maxAttempts now) (desk.reclaim (now - staleAfter)) :=
  Fair.reclaimStale h (now - staleAfter)

theorem fairOn_settle {db : Store} {desk : Desk String} (h : FairOn db desk) {t : Ticket String}
    (ht : t ∈ desk.tickets) (hlapsed : t.lapsed = false) (set : Event → Event) :
    FairOn (db.settle t.row set) (desk.settle t) := by
  apply h.settleRows ht hlapsed
  intro e hcond
  rw [Bool.and_eq_true, beq_iff_eq] at hcond
  exact hcond.1

theorem fairOn_transition {db : Store} {desk : Desk String} (h : FairOn db desk)
    (req : TransitionReq) (eventID : String) (now : Int) (fault : Option Stage) :
    FairOn (db.transition cfg req eventID now fault).2 desk := by
  rcases transition_cases cfg db req eventID now fault with ⟨e, heq⟩ | ⟨m, r, -, -, heq⟩
  · rw [heq]
    exact h
  · rw [heq]
    exact h.ofRows fun e he _ => List.mem_append_left _ he

theorem fairOn_purge {db : Store} {desk : Desk String} (h : FairOn db desk) (retention now : Int) :
    FairOn (db.purge retention now) desk := by
  apply h.ofRows
  intro e he hheld
  have hclaimed : e.status = .claimed := claimed_of_heldSince hheld
  refine List.mem_filter.mpr ⟨he, ?_⟩
  rw [Event.expired, hclaimed]
  rfl

theorem fairOn_step {step : Step} (h : FairOn d.sys.store d.desk) (hids : InOrder d.sys.store)
    (hkeep : step.settles = false) {sys' : System} (hnext : d.sys.next cfg step = some sys') :
    FairOn sys'.store (d.tally step) := by
  cases step with
  | create i req now fault =>
    rcases next_create hnext with rfl | ⟨r, -, rfl⟩
    · exact h
    · rw [FairOn, insert_events]
      exact h
  | readBack i fault =>
    obtain ⟨c, -, rfl⟩ := Option.map_eq_some_iff.mp hnext
    exact h
  | transition req eventID now fault =>
    cases hnext
    exact fairOn_transition h req eventID now fault
  | claimDue node limit locked now =>
    cases hnext
    exact fairOn_claimDue h hids.ids node limit locked now
  | markDone eventID rid now => cases hkeep
  | markSkipped eventID reason now => cases hkeep
  | retry eventID backoff reason consumeAttempt maxAttempts now => cases hkeep
  | reclaimStale staleAfter maxAttempts now =>
    cases hnext
    exact fairOn_reclaimStale h staleAfter maxAttempts now
  | purge retention now =>
    cases hnext
    exact fairOn_purge h retention now

/-- Where outcomes are timely, each finds its own claim. -/
structure Served (d : Dispatch) : Prop where
  inv : Inv d.sys
  inOrder : InOrder d.sys.store
  fair : FairOn d.sys.store d.desk

theorem fairOn_outcome {t : Ticket String} (h : FairOn d.sys.store d.desk) (ht : t ∈ d.desk.tickets)
    (hlapsed : t.lapsed = false) {o : Outcome} {now : Int} {sys' : System}
    (hnext : d.sys.next cfg (o.step t.row now) = some sys') :
    FairOn sys'.store (d.desk.settle t) := by
  cases o with
  | done rid =>
    cases hnext
    exact fairOn_settle h ht hlapsed _
  | skipped reason =>
    cases hnext
    exact fairOn_settle h ht hlapsed _
  | retry backoff reason consumeAttempt maxAttempts =>
    cases hnext
    exact fairOn_settle h ht hlapsed _

theorem served_next {act : Act} (h : Served d) (htimely : Timely d act)
    (hnext : d.next cfg act = some d') : Served d' := by
  cases act with
  | step step =>
    unfold Dispatch.next at hnext
    dsimp only at hnext
    split at hnext
    · cases hnext
    next hkeep =>
    obtain ⟨sys', hsys, rfl⟩ := Option.map_eq_some_iff.mp hnext
    exact ⟨inv_next h.inv hsys, inOrder_next h.inv h.inOrder hsys,
      fairOn_step h.fair h.inOrder ((Bool.not_eq_true _).mp hkeep) hsys⟩
  | outcome t o now =>
    unfold Dispatch.next at hnext
    dsimp only at hnext
    split at hnext
    · next ht =>
      obtain ⟨sys', hsys, rfl⟩ := Option.map_eq_some_iff.mp hnext
      exact ⟨inv_next h.inv hsys, inOrder_next h.inv h.inOrder hsys,
        fairOn_outcome h.fair ht htimely hsys⟩
    · cases hnext
  | abandon t =>
    cases hnext
    exact ⟨h.inv, h.inOrder, h.fair.abandon t⟩

def Act.ticket : Act → Option (Ticket String)
  | .outcome t _ _ => some t
  | _ => none

theorem served_init : Served .init :=
  ⟨inv_init, ⟨List.nodup_nil, fun _ he => absurd he List.not_mem_nil⟩, fair_empty _⟩

theorem sparesLater_along (cfg : Config) (acts : List Act)
    (h : Along (Dispatch.next cfg) Timely .init acts) :
    Along (Dispatch.next cfg) (SparesLater cfg) .init acts := by
  have hown :
      Along (Dispatch.next cfg) (OwnClaim (Dispatch.next cfg) Dispatch.desk Act.ticket) .init
        acts := by
    refine ownClaim_along ?_ (fun d hserved => hserved.fair) ?_ ?_ served_init h
    · exact fun d act d' hserved htimely hnext => served_next hserved htimely hnext
    · intro d act d' t hnext hticket
      cases act with
      | outcome t' o now =>
        cases hticket
        unfold Dispatch.next at hnext
        dsimp only at hnext
        split at hnext
        · next ht => exact ht
        · cases hnext
      | step | abandon => cases hticket
    · intro d act t htimely hticket
      cases act with
      | outcome t' o now =>
        cases hticket
        exact htimely
      | step | abandon => cases hticket
  refine hown.mono fun d act hown => ?_
  cases act with
  | outcome t o now =>
    exact fun d' hnext hlater => absurd hlater (hown t d' rfl hnext)
  | step | abandon => trivial

end Claims

end ThanksComputer.State
