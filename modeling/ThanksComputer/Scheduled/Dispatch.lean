import ThanksComputer.Scheduled.Store
import ThanksComputer.State.Tickets

/-! The dispatcher of the scheduled personality (server/personality/scheduled/scheduled.go), beside
that of the state personality: an outcome call finds its own claim, unless that has gone stale. -/

namespace ThanksComputer.Scheduled

open Lib.Checks Lib.Claims Lib.Runs Lib.Table

section Dispatchers

/-- The table, and the claims whose outcome is still to come. -/
structure Dispatch where
  table : Table
  desk : Desk String

inductive Act
  | enqueue (id tenant idempotencyKey : String) (scheduled : Int) (payload : Raw) (now : Int)
  | cancel (tenant idempotencyKey : String)
  | claimDue (node : String) (limit : Int) (locked : Event → Bool) (now : Int)
  | reclaimStale (staleAfter now : Int)
  | purge (retention now : Int)
  | markDone (t : Ticket String) (now : Int)
  | markFailed (t : Ticket String) (now : Int)
  /-- a node that stops between its claim and its outcome -/
  | abandon (t : Ticket String)

/-- An outcome call, by a node that has the ticket. -/
def Dispatch.settle (d : Dispatch) (t : Ticket String) (table : Table) : Option Dispatch :=
  if t ∈ d.desk.tickets then some ⟨table, d.desk.settle t⟩ else none

def Dispatch.next (cfg : Config) (d : Dispatch) : Act → Option Dispatch
  | .enqueue id tenant idempotencyKey scheduled payload now =>
    match enqueue cfg d.table id tenant idempotencyKey scheduled payload now with
    | .ok table => some { d with table := table }
    | .error _ => some d
  | .cancel tenant idempotencyKey => some { d with table := cancel d.table tenant idempotencyKey }
  | .claimDue node limit locked now =>
    some ⟨claimDue d.table node limit locked now,
      d.desk.claim ((d.table.filter (claims d.table limit locked now)).map Event.id) (seconds now)⟩
  | .reclaimStale staleAfter now =>
    some ⟨reclaimStale d.table staleAfter now, d.desk.reclaim (seconds (now - staleAfter))⟩
  | .purge retention now => some { d with table := purge d.table retention now }
  | .markDone t now => d.settle t (markDone d.table t.row now)
  | .markFailed t now => d.settle t (markFailed d.table t.row now)
  | .abandon t => some { d with desk := d.desk.settle t }

def Dispatch.init : Dispatch :=
  ⟨[], .empty⟩

def Act.ticket : Act → Option (Ticket String)
  | .markDone t _ => some t
  | .markFailed t _ => some t
  | _ => none

/-- An outcome call leaves a row alone that a later claim holds. -/
def SparesLater (cfg : Config) (d : Dispatch) (act : Act) : Prop :=
  ∀ t d', act.ticket = some t → d.next cfg act = some d' → t.serial < d.desk.serial t.row →
    ∀ e ∈ d.table, e.id = t.row → e.status = .claimed → e ∈ d'.table

/-- No outcome call is made once its claim has gone stale. -/
def Timely (_ : Dispatch) (act : Act) : Prop :=
  ∀ t, act.ticket = some t → t.lapsed = false

end Dispatchers

section Claims

variable {cfg : Config} {d d' : Dispatch}

abbrev Event.heldSince : Event → Option Int :=
  since (fun e => e.status == .claimed) Event.claimedAt

theorem claimed_of_heldSince {e : Event} (h : e.heldSince.isSome = true) : e.status = .claimed := by
  have hclaimed := claimed_of_since (fun e : Event => e.status == .claimed) h
  exact beq_iff_eq.mp hclaimed

/-- The rows have ids of their own, and the tickets are for the claims that hold them. -/
structure Served (d : Dispatch) : Prop where
  ids : (d.table.map Event.id).Nodup
  fair : Fair (HeldIn Event.id Event.heldSince d.table) d.desk

theorem Served.filter (h : Served d) {keep : Event → Bool}
    (hkeep : ∀ e, e.status = .claimed → keep e = true) :
    Served { d with table := d.table.filter keep } where
  ids := h.ids.sublist (List.filter_sublist.map _)
  fair := h.fair.ofRows fun e he hheld =>
    List.mem_filter.mpr ⟨he, hkeep e (claimed_of_heldSince hheld)⟩

theorem Served.enqueue (h : Served d) {id tenant idempotencyKey : String} {scheduled : Int}
    {payload : Raw} {now : Int} {table : Table}
    (henqueue : enqueue cfg d.table id tenant idempotencyKey scheduled payload now = .ok table) :
    Served { d with table := table } := by
  unfold Scheduled.enqueue at henqueue
  split at henqueue
  · cases henqueue
  dsimp only at henqueue
  split at henqueue
  · cases henqueue
    refine ⟨?_, h.fair.mono fun id s hheld => hheld.update ?_⟩
    · rw [map_update]
      · exact h.ids
      · exact fun e => rfl
    · intro e _ hview hcond
      rw [Bool.and_eq_true, beq_iff_eq] at hcond
      have hclaimed := claimed_of_heldSince (Option.isSome_iff_exists.mpr ⟨s, hview⟩)
      rw [hclaimed] at hcond
      cases hcond.2
  · rw [check_eq_ok] at henqueue
    obtain ⟨hnew, henqueue⟩ := henqueue
    cases henqueue
    refine ⟨?_, h.fair.ofRows fun e he _ => List.mem_append_left _ he⟩
    apply nodup_insert h.ids
    intro q hq hid
    exact hnew (List.any_eq_true.mpr ⟨q, hq, beq_iff_eq.mpr hid⟩)

theorem Served.claimDue (h : Served d) (node : String) (limit : Int) (locked : Event → Bool)
    (now : Int) :
    Served ⟨claimDue d.table node limit locked now,
      d.desk.claim ((d.table.filter (claims d.table limit locked now)).map Event.id)
        (seconds now)⟩ := by
  refine ⟨?_, h.fair.claimRows h.ids ?_ ?_ ?_⟩
  · rw [Scheduled.claimDue, map_update]
    · exact h.ids
    · exact fun e => rfl
  · intro e hcond
    rw [claims, Bool.and_eq_true, beq_iff_eq] at hcond
    apply since_of_not
    rw [hcond.1]
    rfl
  · exact fun e => rfl
  · exact fun e => rfl

theorem Served.reclaimStale (h : Served d) (staleAfter now : Int) :
    Served ⟨reclaimStale d.table staleAfter now, d.desk.reclaim (seconds (now - staleAfter))⟩ := by
  refine ⟨?_, h.fair.reclaimStale (seconds (now - staleAfter))⟩
  rw [Scheduled.reclaimStale, map_update]
  · exact h.ids
  · exact fun e => rfl

theorem Served.finish (h : Served d) {t : Ticket String} (ht : t ∈ d.desk.tickets)
    (hlapsed : t.lapsed = false) (status : Status) (now : Int) :
    Served ⟨finish status d.table t.row now, d.desk.settle t⟩ := by
  refine ⟨?_, h.fair.settleRows ht hlapsed ?_⟩
  · rw [Scheduled.finish, map_update]
    · exact h.ids
    · exact fun e => rfl
  · intro e hcond
    rw [Bool.and_eq_true, beq_iff_eq] at hcond
    exact hcond.1

theorem settle_some {t : Ticket String} {table : Table} (h : d.settle t table = some d') :
    t ∈ d.desk.tickets ∧ d' = ⟨table, d.desk.settle t⟩ := by
  unfold Dispatch.settle at h
  split at h
  · next ht =>
    cases h
    exact ⟨ht, rfl⟩
  · cases h

theorem served_next {act : Act} (h : Served d) (htimely : Timely d act)
    (hnext : d.next cfg act = some d') : Served d' := by
  cases act with
  | enqueue id tenant idempotencyKey scheduled payload now =>
    unfold Dispatch.next at hnext
    dsimp only at hnext
    split at hnext
    · next table henqueue =>
      cases hnext
      exact h.enqueue henqueue
    · cases hnext
      exact h
  | cancel tenant idempotencyKey =>
    cases hnext
    apply h.filter
    intro e hclaimed
    rw [hclaimed]
    simp
  | claimDue node limit locked now =>
    cases hnext
    exact h.claimDue node limit locked now
  | reclaimStale staleAfter now =>
    cases hnext
    exact h.reclaimStale staleAfter now
  | purge retention now =>
    cases hnext
    apply h.filter
    intro e hclaimed
    rw [hclaimed]
    rfl
  | markDone t now =>
    obtain ⟨ht, rfl⟩ := settle_some hnext
    exact h.finish ht (htimely t rfl) .done now
  | markFailed t now =>
    obtain ⟨ht, rfl⟩ := settle_some hnext
    exact h.finish ht (htimely t rfl) .failed now
  | abandon t =>
    cases hnext
    exact ⟨h.ids, h.fair.abandon t⟩

theorem served_init : Served .init :=
  ⟨List.nodup_nil, fair_empty _⟩

theorem sparesLater_along (cfg : Config) (acts : List Act)
    (h : Along (Dispatch.next cfg) Timely .init acts) :
    Along (Dispatch.next cfg) (SparesLater cfg) .init acts := by
  have hown :
      Along (Dispatch.next cfg) (OwnClaim (Dispatch.next cfg) Dispatch.desk Act.ticket) .init
        acts := by
    refine ownClaim_along ?_ (fun d hserved => hserved.fair) ?_ ?_ served_init h
    · exact fun d act d' hserved htimely hnext => served_next hserved htimely hnext
    · intro d act d' t hnext hticket
      cases act with
      | markDone t' now | markFailed t' now =>
        cases hticket
        exact (settle_some hnext).1
      | _ => cases hticket
    · exact fun d act t htimely hticket => htimely t hticket
  refine hown.mono fun d act hown t d' hticket hnext hlater => ?_
  exact absurd hlater (hown t d' hticket hnext)

end Claims

section Tables

/-- In both tables, over every run whose outcome calls are made before their claims have gone stale,
no outcome call changes a row that a later claim holds. -/
theorem outcomes_spare_later (stateCfg : State.Config) (cfg : Config) (stateActs : List State.Act)
    (acts : List Act) (hstate : Along (State.Dispatch.next stateCfg) State.Timely .init stateActs)
    (hsched : Along (Dispatch.next cfg) Timely .init acts) :
    Along (State.Dispatch.next stateCfg) (State.SparesLater stateCfg) .init stateActs ∧
      Along (Dispatch.next cfg) (SparesLater cfg) .init acts :=
  ⟨State.sparesLater_along stateCfg stateActs hstate, sparesLater_along cfg acts hsched⟩

/-- Node `a` claims, and at `reclaim` a stale reclaim makes way for node `b`. -/
def twoClaims (reclaim : Int) : List Act :=
  [.enqueue "sched_1" "acme" "drip" 0 (.text "\x7b\x7d") 0, .claimDue "a" 0 (fun _ => false) 0,
    .reclaimStale 600000000000 reclaim, .claimDue "b" 0 (fun _ => false) reclaim]

def twoStateClaims (reclaim : Int) : List State.Act :=
  [.step (.create 0 (State.task "working") 0 false), .step (.readBack 0 false),
    .step (.transition State.toWaiting "stev_1" 0 none), .step (.claimDue "a" 0 (fun _ => false) 0),
    .step (.reclaimStale 300000000000 5 reclaim), .step (.claimDue "b" 0 (fun _ => false) reclaim)]

def anyJSON : Config :=
  ⟨fun _ => true⟩

/-- The first claim is as old as a claim may get, and node `b` finds nothing to claim. -/
theorem outcomes_spare_later_twoClaims :
    Along (State.Dispatch.next State.capped) (State.SparesLater State.capped) .init
        (twoStateClaims 300000000000 ++
          [.outcome ⟨"stev_1", 1, 0, false⟩ (.done "r1") 300000000000]) ∧
      Along (Dispatch.next anyJSON) (SparesLater anyJSON) .init
        (twoClaims 600000000000 ++ [.markDone ⟨"sched_1", 1, 0, false⟩ 600000000000]) := by
  apply outcomes_spare_later
  · rw [along_iff]
    intro n act d hact _
    have hall : ∀ act ∈ twoStateClaims 300000000000 ++
        [.outcome ⟨"stev_1", 1, 0, false⟩ (.done "r1") 300000000000], State.Timely d act := by
      simp [twoStateClaims, State.Timely]
    exact hall act (List.mem_of_getElem? hact)
  · rw [along_iff]
    intro n act d hact _
    have hall : ∀ act ∈ twoClaims 600000000000 ++
        [.markDone ⟨"sched_1", 1, 0, false⟩ 600000000000], Timely d act := by
      simp [twoClaims, Timely, Act.ticket]
    exact hall act (List.mem_of_getElem? hact)

/-- One second later node `b` has the event, and the outcome of node `a` is recorded for its
claim. -/
theorem not_outcomes_spare_later :
    ¬Along (State.Dispatch.next State.capped) (State.SparesLater State.capped) .init
        (twoStateClaims 301000000000 ++
          [.outcome ⟨"stev_1", 1, 0, true⟩ (.done "r1") 301000000000]) ∧
      ¬Along (Dispatch.next anyJSON) (SparesLater anyJSON) .init
        (twoClaims 601000000000 ++ [.markDone ⟨"sched_1", 1, 0, true⟩ 601000000000]) := by
  refine ⟨fun h => ?_, fun h => ?_⟩
  · have hrun : ((twoStateClaims 301000000000).foldlM (State.Dispatch.next State.capped) .init).any
        (fun d => decide (1 < d.desk.serial "stev_1") &&
          (d.next State.capped (.outcome ⟨"stev_1", 1, 0, true⟩ (.done "r1") 301000000000)).any
            fun d' =>
            d.sys.store.events.any fun e => e.id == "stev_1" && e.status == .claimed &&
              decide (e ∉ d'.sys.store.events)) = true := by
      decide +kernel
    rw [Option.any_eq_true] at hrun
    obtain ⟨d, hd, hfails⟩ := hrun
    rw [Bool.and_eq_true, decide_eq_true_eq, Option.any_eq_true] at hfails
    obtain ⟨hlater, d', hd', hrow⟩ := hfails
    obtain ⟨e, he, hrow⟩ := List.any_eq_true.mp hrow
    rw [Bool.and_eq_true, Bool.and_eq_true, beq_iff_eq, beq_iff_eq, decide_eq_true_eq] at hrow
    exact hrow.2 (along_iff.mp h 6 _ d rfl hd d' hd' hlater e he hrow.1.1 hrow.1.2)
  · have hrun : ((twoClaims 601000000000).foldlM (Dispatch.next anyJSON) .init).any
        (fun d => decide (1 < d.desk.serial "sched_1") &&
          (d.next anyJSON (.markDone ⟨"sched_1", 1, 0, true⟩ 601000000000)).any fun d' =>
            d.table.any fun e => e.id == "sched_1" && e.status == .claimed &&
              decide (e ∉ d'.table)) = true := by
      decide +kernel
    rw [Option.any_eq_true] at hrun
    obtain ⟨d, hd, hfails⟩ := hrun
    rw [Bool.and_eq_true, decide_eq_true_eq, Option.any_eq_true] at hfails
    obtain ⟨hlater, d', hd', hrow⟩ := hfails
    obtain ⟨e, he, hrow⟩ := List.any_eq_true.mp hrow
    rw [Bool.and_eq_true, Bool.and_eq_true, beq_iff_eq, beq_iff_eq, decide_eq_true_eq] at hrow
    exact hrow.2 (along_iff.mp h 4 _ d rfl hd _ d' rfl hd' hlater e he hrow.1.1 hrow.1.2)

end Tables

end ThanksComputer.Scheduled
