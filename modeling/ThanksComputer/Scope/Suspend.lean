import Mathlib.Algebra.Ring.Int.Defs
import ThanksComputer.Lib.Checks
import ThanksComputer.Lib.Runs
import ThanksComputer.Scope.HopBound

/-! The meter of a run across its suspensions: what each kind of suspension stores, what a resumed
run counts on from, and the account of what was charged. -/

universe u

namespace ThanksComputer.Scope

open Lib (wrapInt)
open Lib.Checks (exists_of_isOk)
open Ops Lib.Runs

variable {F : Type u}

/-- A merge of sanitized op outputs, which leaves the chassis's counters alone. -/
structure BudgetEdit (F : Type u) where
  run : Envelope F → Envelope F
  keeps : ∀ e, ∀ k ∈ budgetKeys, (run e).read ["_txc", k] = e.read ["_txc", k]
  settable : ∀ e, e.Settable → (run e).Settable

/-- A suspension at a join scope: the fuel of the deferred ops found ready, which is charged to the
live budget, and that of the ones waited for. -/
structure Join (F : Type u) where
  ready : List Int
  readyMerge : BudgetEdit F
  waiting : List Int
  waitingMerge : BudgetEdit F

/-- How the ops of a scope end: in process, behind a barrier, or promoted to a continuation.  The
numbers are the fuel recorded on their terminals. -/
inductive Fate (F : Type u)
  | pass
  | barrier (merge : BudgetEdit F) (terminals : List Int)
  | continuable (merge : BudgetEdit F) (drawn : Int)

/-- A scope of a run with the suspensions that happen at it.  The ops of `scope` are the ones
charged to the live budget. -/
structure Visit (F : Type u) where
  scope : ScopeRun F
  joins : List (Join F)
  fate : Fate F
  settable : ∀ e outs, e.Settable → (scope.merge e outs).Settable

section Resume

variable (c : Codec F) (conf : BudgetConf)

def addDetached (e : Envelope F) (fuels : List Int) : Envelope F :=
  let detachedFuel := wrapInt fuels.sum
  if 0 < detachedFuel then
    e.setTxc "fuel_used" (.num (c.num (wrapInt (c.intAt e ["_txc", "fuel_used"] + detachedFuel))))
  else e

/-- A run resumed on a context of its own, with the budget of the stored envelope. -/
def resumed (stored : Envelope F) (fuels : List Int) (parent : StageText) : RunState F where
  budget := loadBudget c conf (addDetached c stored fuels)
  env := addDetached c stored fuels
  parent := parent
  int64 := by rw [loadBudget_countdown, loadBudget_ttl_int64]

/-- A join scope is entered and suspended there; what was charged on the way is not in the stored
envelope.  The resume runs the scope anew, on a context without a parent stage. -/
def runJoin (stage : StageText) (st : RunState F) (j : Join F) :
    Except BudgetError (RunState F) :=
  (enterFrame st.parent stage st.budget).1.map fun _ =>
    resumed c conf (j.waitingMerge.run (j.readyMerge.run st.env)) j.waiting []

/-- The stored envelope of a barrier, and of a promotion, is the one the scope was entered with. -/
def runVisit (st : RunState F) (v : Visit F) : Except BudgetError (RunState F) := do
  let st ← v.joins.foldlM (runJoin c conf v.scope.stage) st
  match v.fate with
  | .pass => runScope c st v.scope
  | .barrier merge terminals =>
    (enterFrame st.parent v.scope.stage st.budget).1.map fun _ =>
      resumed c conf (merge.run st.env) terminals v.scope.stage
  | .continuable merge drawn =>
    (enterFrame st.parent v.scope.stage st.budget).1.map fun _ =>
      resumed c conf (merge.run st.env) [drawn] v.scope.stage

end Resume

/-- What a run was charged, had it run without suspending: unbounded numbers, and the transitions
taken. -/
structure Account where
  fuel : Int
  ttl : Int
  seen : List Transition
  parent : StageText

def Join.fuel (j : Join F) : Int :=
  j.ready.sum + j.waiting.sum

def Fate.fuel : Fate F → Int
  | .pass => 0
  | .barrier _ terminals => terminals.sum
  | .continuable _ drawn => drawn

def Visit.fuel (v : Visit F) : Int :=
  (v.joins.map Join.fuel).sum + (v.scope.ops.map (·.cost)).sum + v.fate.fuel

local instance : LawfulBEq Transition :=
  inferInstance

def Account.repeatCost (a : Account) (stage : StageText) : Int :=
  if a.parent ≠ [] ∧ transition a.parent stage ∈ a.seen then fuelCostRepeatTransition else 0

def Account.visit (a : Account) (v : Visit F) : Account where
  fuel := a.fuel + fuelCostScopeEnter + a.repeatCost v.scope.stage + v.fuel
  ttl := a.ttl - 1
  seen := if a.parent = [] then a.seen else transition a.parent v.scope.stage :: a.seen
  parent := v.scope.stage

/-- The live meter shows no less fuel, no more hops left, and every transition taken. -/
def Accounts (st : RunState F) (a : Account) : Prop :=
  wrapInt a.fuel ≤ st.budget.fuel ∧ hopsLeft st.budget.ttl ≤ hopsLeft a.ttl ∧
    ∀ key ∈ a.seen, key ∈ st.budget.seen

/-- No barrier and no promotion; and a suspension at a join only where the scope was entered without
a parent stage, no fuel was joined before it, and the fuel waited for is not negative or over the
largest `int64`. -/
def Harmless (st : RunState F) (v : Visit F) : Prop :=
  v.fate = .pass ∧ (v.joins = [] ∨ st.parent = [] ∧
    ∀ j ∈ v.joins, j.ready.sum = 0 ∧ 0 ≤ j.waiting.sum ∧ wrapInt j.waiting.sum = j.waiting.sum)

/-- The run beside its account. -/
def nextVisit (c : Codec F) (conf : BudgetConf) (s : RunState F × Account) (v : Visit F) :
    Option (RunState F × Account) :=
  (runVisit c conf s.1 v).toOption.map fun st' => (st', s.2.visit v)

/-- What the run goes on with after a visit accounts for all that was charged. -/
def AccountsAfter (c : Codec F) (conf : BudgetConf) (s : RunState F × Account) (v : Visit F) :
    Prop :=
  ∀ st', runVisit c conf s.1 v = .ok st' → Accounts st' (s.2.visit v)

section Charges

variable (s : Budget) (parent stage : StageText)

theorem Budget.arrive_eq (h : s.call = none) :
    (s.arrive parent stage).fuel = wrapInt (s.fuel + fuelCostScopeEnter +
        if parent ≠ [] ∧ transition parent stage ∈ s.seen then fuelCostRepeatTransition else 0) ∧
      (s.arrive parent stage).ttl = wrapInt (s.ttl - 1) ∧ (s.arrive parent stage).call = none ∧
      (s.arrive parent stage).seen =
        if parent = [] then s.seen else s.seen.insert (transition parent stage) := by
  rw [Budget.arrive, Budget.setCountdown, h]
  cases parent with
  | nil => simp [Budget.burn, Budget.countdown, h]
  | cons p ps =>
    by_cases hseen : transition (p :: ps) stage ∈ s.seen
    · simp [Budget.transit, Budget.history, Budget.remember, Budget.burn, Budget.countdown, h,
        hseen,
        wrapInt_add]
    · simp [Budget.transit, Budget.history, Budget.remember, Budget.burn, Budget.countdown, h,
        hseen]

end Charges

theorem ScopeRun.charge_eq (sc : ScopeRun F) (s : Budget) (h : wrapInt s.fuel = s.fuel) :
    sc.charge s = { s with fuel := wrapInt (s.fuel + (sc.ops.map (·.cost)).sum) } := by
  rw [ScopeRun.charge]
  induction sc.ops generalizing s with
  | nil => simp [h]
  | cons op ops ih =>
    have hburn : wrapInt (s.burn op.cost).fuel = (s.burn op.cost).fuel := wrapInt_idem _
    rw [List.foldl_cons, addFuel_run, ih _ hburn, Budget.burn, List.map_cons, List.sum_cons]
    dsimp only
    rw [wrapInt_add, Int.add_assoc]

structure Stored (c : Codec F) (conf : BudgetConf) (e : Envelope F) (a : Account) : Prop where
  fuel : (loadBudget c conf e).fuel = wrapInt a.fuel
  ttl : (loadBudget c conf e).ttl = wrapInt a.ttl
  seen : ∀ key, key ∈ (loadBudget c conf e).seen ↔ key ∈ a.seen
  settable : e.Settable

/-- The live budget is the account's, and the envelope the scope was entered with holds the same. -/
structure Balanced (c : Codec F) (conf : BudgetConf) (st : RunState F) (a : Account) : Prop where
  root : st.budget.call = none
  fuel : st.budget.fuel = wrapInt a.fuel
  ttl : st.budget.ttl = wrapInt a.ttl
  seen : ∀ key, key ∈ st.budget.seen ↔ key ∈ a.seen
  parent : st.parent = a.parent
  stored : Stored c conf st.env a

variable {c : Codec F} {conf : BudgetConf}

theorem Stored.edit {e : Envelope F} {a : Account} (h : Stored c conf e a) (edit : BudgetEdit F) :
    Stored c conf (edit.run e) a := by
  have hread : ∀ k ∈ budgetKeys, (edit.run e).read ["_txc", k] = e.read ["_txc", k] := edit.keeps e
  refine ⟨?_, ?_, ?_, edit.settable e h.settable⟩
  · rw [← h.fuel, loadBudget_fuel, loadBudget_fuel, Codec.intAt, hread _ (by simp [budgetKeys]),
      Codec.intAt]
  · rw [← h.ttl, loadBudget_ttl, loadBudget_ttl, hread _ (by simp [budgetKeys])]
  · intro key
    rw [← h.seen, loadBudget_seen, loadBudget_seen, seenAt, hread _ (by simp [budgetKeys]), seenAt]

theorem Stored.sync {s : Budget} {seen : List Transition} {e : Envelope F} {a : Account}
    (he : e.Settable) (hfuel : s.fuel = wrapInt a.fuel) (httl : s.ttl = wrapInt a.ttl)
    (hseen : ∀ key, key ∈ seen ↔ key ∈ a.seen) :
    Stored c conf (syncBudgetToEnvelope c.num s seen e) a := by
  refine ⟨?_, ?_, ?_, sync_settable _ _ _ _⟩
  · rw [loadBudget_fuel, Codec.intAt, read_sync_fuel _ _ _ _ he, hfuel]
    exact c.int_num _ (wrapInt_idem _)
  · rw [loadBudget_ttl, read_sync_ttl, httl]
    exact c.int_num _ (wrapInt_idem _)
  · intro key
    rw [loadBudget_seen, mem_seenAt _ (read_sync_seen ..), hseen]

theorem Stored.addDetached {e : Envelope F} {a : Account} (h : Stored c conf e a) {fuels : List Int}
    (hpos : 0 ≤ fuels.sum) (h64 : wrapInt fuels.sum = fuels.sum) :
    Stored c conf (addDetached c e fuels) { a with fuel := a.fuel + fuels.sum } := by
  have hkey : ∀ k ∈ budgetKeys, (⟨k, false⟩ : PathSeg).indexLike = false := budgetKeys_not_index
  rw [Scope.addDetached, h64]
  split
  · have hread : ∀ k, k ≠ "fuel_used" → ∀ v, (e.setTxc "fuel_used" v).read ["_txc", k] =
        e.read ["_txc", k] := fun k hk v =>
      read_setTxc_of_ne (hkey _ (by simp [budgetKeys])) hk e v []
    refine ⟨?_, ?_, ?_, setTxc_settable (hkey _ (by simp [budgetKeys])) _ _⟩
    · have hfuel := h.fuel
      rw [loadBudget_fuel] at hfuel ⊢
      rw [hfuel, Codec.intAt, read_setTxc_self (hkey _ (by simp [budgetKeys])) h.settable]
      dsimp only
      rw [c.int_num _ (wrapInt_idem _), wrapInt_add]
    · rw [loadBudget_ttl, hread _ (by decide), ← loadBudget_ttl, h.ttl]
    · intro key
      rw [loadBudget_seen, seenAt, hread _ (by decide), ← seenAt, ← loadBudget_seen conf, h.seen]
  · have hzero : fuels.sum = 0 := by omega
    rw [hzero, Int.add_zero]
    exact h

theorem Stored.resumed {e : Envelope F} {a : Account} (h : Stored c conf e a) {fuels : List Int}
    (hpos : 0 ≤ fuels.sum) (h64 : wrapInt fuels.sum = fuels.sum) (parent : StageText) :
    Balanced c conf (resumed c conf e fuels parent)
      { a with fuel := a.fuel + fuels.sum, parent := parent } := by
  have hs := h.addDetached hpos h64
  exact ⟨loadBudget_call conf _, hs.fuel, hs.ttl, hs.seen, rfl,
    ⟨hs.fuel, hs.ttl, hs.seen, hs.settable⟩⟩

/-- The account of a scope that runs and is left in process. -/
def Account.pass (a : Account) (sc : ScopeRun F) : Account where
  fuel := a.fuel + fuelCostScopeEnter + a.repeatCost sc.stage + (sc.ops.map (·.cost)).sum
  ttl := a.ttl - 1
  seen := if a.parent = [] then a.seen else transition a.parent sc.stage :: a.seen
  parent := sc.stage

theorem Balanced.runScope {st st' : RunState F} {a : Account} (h : Balanced c conf st a)
    {sc : ScopeRun F} (hsc : ∀ e outs, e.Settable → (sc.merge e outs).Settable)
    (hrun : runScope c st sc = .ok st') : Balanced c conf st' (a.pass sc) := by
  obtain ⟨-, rfl, hb⟩ := runScope_ok hrun
  obtain ⟨hfuel, httl, hcall, hseen⟩ := st.budget.arrive_eq st.parent sc.stage h.root
  rw [sc.charge_eq _ (by rw [hfuel, wrapInt_idem])] at hb
  have hfuel' : (st.leave c sc).budget.fuel = wrapInt (a.pass sc).fuel := by
    rw [hb]
    dsimp only
    rw [hfuel, wrapInt_add, h.fuel, Int.add_assoc, Int.add_assoc, wrapInt_add, Account.pass,
      Account.repeatCost, h.parent]
    simp only [h.seen, Int.add_assoc]
  have httl' : (st.leave c sc).budget.ttl = wrapInt (a.pass sc).ttl := by
    rw [hb]
    dsimp only
    rw [httl, h.ttl, Int.sub_eq_add_neg, wrapInt_add]
    rfl
  have hseen' : ∀ key, key ∈ (st.leave c sc).budget.seen ↔ key ∈ (a.pass sc).seen := by
    intro key
    rw [hb]
    dsimp only
    rw [hseen, Account.pass, h.parent]
    split
    · exact h.seen key
    · simp [h.seen key]
  have hroot : (st.leave c sc).budget.call = none := by
    rw [hb]
    exact hcall
  exact ⟨hroot, hfuel', httl', hseen', rfl,
    .sync (hsc _ _ h.stored.settable) hfuel' httl' fun key =>
      (sc.order_mem _ key).trans (hseen' key)⟩

theorem Balanced.runJoin {st st' : RunState F} {a : Account} (h : Balanced c conf st a)
    (hparent : a.parent = []) {stage : StageText} {j : Join F} (hready : j.ready.sum = 0)
    (hpos : 0 ≤ j.waiting.sum) (h64 : wrapInt j.waiting.sum = j.waiting.sum)
    (hrun : runJoin c conf stage st j = .ok st') :
    Balanced c conf st' { a with fuel := a.fuel + j.fuel } := by
  rw [Scope.runJoin] at hrun
  cases henter : (enterFrame st.parent stage st.budget).1 with
  | error e =>
    rw [henter] at hrun
    cases hrun
  | ok penalty =>
    rw [henter, Except.map, Except.ok.injEq] at hrun
    have hres := ((h.stored.edit j.readyMerge).edit j.waitingMerge).resumed hpos h64 []
    rw [hrun] at hres
    rw [Join.fuel, hready, Int.zero_add]
    rwa [← hparent] at hres

theorem Balanced.runJoins {st st' : RunState F} {a : Account} (h : Balanced c conf st a)
    (hparent : a.parent = []) {stage : StageText} {js : List (Join F)}
    (hjs : ∀ j ∈ js, j.ready.sum = 0 ∧ 0 ≤ j.waiting.sum ∧ wrapInt j.waiting.sum = j.waiting.sum)
    (hrun : js.foldlM (Scope.runJoin c conf stage) st = .ok st') :
    Balanced c conf st' { a with fuel := a.fuel + (js.map Join.fuel).sum } := by
  induction js generalizing st a with
  | nil =>
    cases hrun
    simpa using h
  | cons j js ih =>
    rw [List.foldlM_cons] at hrun
    cases hj : Scope.runJoin c conf stage st j with
    | error e =>
      rw [hj] at hrun
      cases hrun
    | ok st₁ =>
      rw [hj] at hrun
      obtain ⟨hready, hpos, h64⟩ := hjs j List.mem_cons_self
      have hst₁ := h.runJoin hparent hready hpos h64 hj
      have hrest := ih hst₁ hparent (fun j' hj' => hjs j' (List.mem_cons_of_mem _ hj')) hrun
      rwa [List.map_cons, List.sum_cons, ← Int.add_assoc]

theorem Balanced.runVisit {st st' : RunState F} {a : Account} (h : Balanced c conf st a)
    {v : Visit F} (hv : Harmless st v) (hrun : runVisit c conf st v = .ok st') :
    Balanced c conf st' (a.visit v) := by
  obtain ⟨hfate, hjoins⟩ := hv
  rw [Scope.runVisit, hfate] at hrun
  cases hjs : v.joins.foldlM (Scope.runJoin c conf v.scope.stage) st with
  | error e =>
    rw [hjs] at hrun
    cases hrun
  | ok st₁ =>
    rw [hjs] at hrun
    have hst₁ : Balanced c conf st₁ { a with fuel := a.fuel + (v.joins.map Join.fuel).sum } := by
      rcases hjoins with hnone | ⟨hparent, hall⟩
      · rw [hnone] at hjs ⊢
        cases hjs
        simpa using h
      · exact h.runJoins (h.parent ▸ hparent) hall hjs
    have hst' := hst₁.runScope v.settable hrun
    have hacc : Account.pass { a with fuel := a.fuel + (v.joins.map Join.fuel).sum } v.scope =
        a.visit v := by
      rw [Account.pass, Account.visit, Visit.fuel, hfate]
      simp only [Account.repeatCost, Fate.fuel, Account.mk.injEq, and_true]
      omega
    exact hacc ▸ hst'

theorem Balanced.accounts {st : RunState F} {a : Account} (h : Balanced c conf st a) :
    Accounts st a := by
  have hhops : hopsLeft st.budget.ttl = hopsLeft a.ttl := by rw [h.ttl, hopsLeft_wrapInt]
  exact ⟨Int.le_of_eq h.fuel.symm, Int.le_of_eq hhops, fun key hkey => (h.seen key).mpr hkey⟩

/-- The envelope a request comes in with. -/
structure Arrival (F : Type u) where
  env : Envelope F
  settable : env.Settable

def Arrival.state (c : Codec F) (conf : BudgetConf) (i : Arrival F) : RunState F where
  budget := loadBudget c conf i.env
  env := i.env
  parent := []
  int64 := by rw [loadBudget_countdown, loadBudget_ttl_int64]

def Arrival.account (c : Codec F) (conf : BudgetConf) (i : Arrival F) : Account where
  fuel := (loadBudget c conf i.env).fuel
  ttl := (loadBudget c conf i.env).ttl
  seen := (loadBudget c conf i.env).seen
  parent := []

theorem Arrival.balanced (i : Arrival F) :
    Balanced c conf (i.state c conf) (i.account c conf) := by
  have hfuel : (loadBudget c conf i.env).fuel = wrapInt (loadBudget c conf i.env).fuel := by
    rw [loadBudget_fuel, intAt_int64]
  have httl := (loadBudget_ttl_int64 (c := c) conf i.env).symm
  exact ⟨loadBudget_call .., hfuel, httl, fun _ => Iff.rfl, rfl,
    ⟨hfuel, httl, fun _ => Iff.rfl, i.settable⟩⟩

def Arrival.start (c : Codec F) (conf : BudgetConf) (i : Arrival F) : RunState F × Account :=
  (i.state c conf, i.account c conf)

/-- In a run whose suspensions are all harmless, the meter accounts after every scope for all that
was charged. -/
theorem meter_accounts_of_harmless (c : Codec F) (conf : BudgetConf) (i : Arrival F)
    (vs : List (Visit F))
    (h : Along (nextVisit c conf) (fun s v => Harmless s.1 v) (i.start c conf) vs) :
    Along (nextVisit c conf) (AccountsAfter c conf) (i.start c conf) vs := by
  refine Along.of_invariant (I := fun s => Balanced c conf s.1 s.2) ?_ ?_ i.balanced h
  · rintro ⟨st, a⟩ v ⟨st', a'⟩ hb hv hnext
    rw [nextVisit, Option.map_eq_some_iff] at hnext
    obtain ⟨st₁, hrun, heq⟩ := hnext
    obtain ⟨rfl, rfl⟩ := Prod.mk.inj heq
    cases hres : runVisit c conf st v with
    | error e =>
      rw [hres] at hrun
      cases hrun
    | ok st₂ =>
      rw [hres] at hrun
      cases hrun
      exact hb.runVisit hv hres
  · exact fun s v hb hv st' hrun => (hb.runVisit hv hrun).accounts

def plainArrival : Arrival Int where
  env := some (.obj [("_txc", .obj [("tenant", .str "acme")])])
  settable j hj := by
    cases hj
    exact ⟨_, rfl⟩

def plainEdit : BudgetEdit Int where
  run := id
  keeps _ _ _ := rfl
  settable _ h := h

theorem mem_id_iff (seen : List Transition) (key : Transition) : key ∈ id seen ↔ key ∈ seen :=
  Iff.rfl

def plainVisit (stage : String) (cost : Int) (joins : List (Join Int)) (fate : Fate Int) :
    Visit Int where
  scope := ⟨stage.toList, [⟨cost, .obj [], []⟩], fun e _ => e, id, mem_id_iff⟩
  joins := joins
  fate := fate
  settable _ _ h := h

theorem meter_accounts_after_join :
    Along (nextVisit plainCodec defaultConf) (AccountsAfter plainCodec defaultConf)
      (plainArrival.start plainCodec defaultConf)
      [plainVisit "shop/100" 5 [⟨[], plainEdit, [7], plainEdit⟩] .pass] :=
  meter_accounts_of_harmless plainCodec defaultConf plainArrival _
    ⟨⟨rfl, .inr ⟨rfl, by decide⟩⟩, fun _ _ => trivial⟩

/-- Behind a barrier the scope's own hop and charges are lost. -/
theorem meter_lost_at_barrier :
    ¬ Along (nextVisit plainCodec defaultConf) (AccountsAfter plainCodec defaultConf)
      (plainArrival.start plainCodec defaultConf)
      [plainVisit "shop/100" 5 [] (.barrier plainEdit [0])] := by
  rintro ⟨h, -⟩
  have henter : (enterFrame (plainArrival.state plainCodec defaultConf).parent "shop/100".toList
      (plainArrival.state plainCodec defaultConf).budget).1 = .ok 0 := by decide
  have hrun : runVisit plainCodec defaultConf (plainArrival.state plainCodec defaultConf)
      (plainVisit "shop/100" 5 [] (.barrier plainEdit [0])) =
        .ok (resumed plainCodec defaultConf plainArrival.env [0] "shop/100".toList) := by
    simp only [runVisit, plainVisit, List.foldlM_nil, pure_bind, henter]
    rfl
  obtain ⟨hfuel, -⟩ := h _ hrun
  revert hfuel
  decide

section Hops

def runVisits (c : Codec F) (conf : BudgetConf) (st : RunState F) (vs : List (Visit F)) :
    Except BudgetError (RunState F) :=
  vs.foldlM (runVisit c conf) st

def nextState (c : Codec F) (conf : BudgetConf) (st : RunState F) (v : Visit F) :
    Option (RunState F) :=
  (runVisit c conf st v).toOption

/-- How often a run enters the scopes of its visits. -/
def entries (vs : List (Visit F)) : Nat :=
  (vs.map fun v => v.joins.length + 1).sum

/-- A run that goes on after the scope makes fewer hops than the countdown before it, and no more
than any value a rule of the scope emitted. -/
def HopsBounded (c : Codec F) (conf : BudgetConf) (st : RunState F) (v : Visit F)
    (post : List (Visit F)) : Prop :=
  ∀ st', runVisits c conf st (v :: post) = .ok st' →
    (0 < st.budget.countdown → (entries post : Int) ≤ st.budget.countdown - 1) ∧
      ∀ n ∈ v.scope.emitted, (entries post : Int) ≤ max n 0

/-- The scope is left in process, and no rule of it asks for fewer hops than the countdown
allows. -/
def Unlowered (st : RunState F) (v : Visit F) : Prop :=
  v.joins = [] ∧ v.fate = .pass ∧ NotLowering st v.scope

variable {st st' : RunState F} {v : Visit F} {vs : List (Visit F)}

theorem runVisit_of_unlowered (h : Unlowered st v) :
    runVisit c conf st v = runScope c st v.scope := by
  rw [runVisit, h.1, h.2.1]
  rfl

theorem runVisits_cons (hrun : runVisits c conf st (v :: vs) = .ok st') :
    ∃ st₁, runVisit c conf st v = .ok st₁ ∧ nextState c conf st v = some st₁ ∧
      runVisits c conf st₁ vs = .ok st' := by
  rw [runVisits, List.foldlM_cons] at hrun
  cases hv : runVisit c conf st v with
  | error e =>
    rw [hv] at hrun
    cases hrun
  | ok st₁ =>
    rw [hv] at hrun
    exact ⟨st₁, rfl, by rw [nextState, hv]; rfl, hrun⟩

theorem entries_cons (h : v.joins = []) : entries (v :: vs) = entries vs + 1 := by
  rw [entries, List.map_cons, List.sum_cons, h, List.length_nil]
  exact Nat.add_comm _ _

theorem entries_le_hopsLeft (h : Along (nextState c conf) Unlowered st vs)
    (hrun : runVisits c conf st vs = .ok st') :
    (entries vs : Int) ≤ hopsLeft st.budget.countdown := by
  induction vs generalizing st with
  | nil =>
    rw [hopsLeft, entries, List.map_nil, List.sum_nil]
    omega
  | cons v vs ih =>
    obtain ⟨hv, hrest⟩ := h
    obtain ⟨st₁, hvisit, hnext, hrun⟩ := runVisits_cons hrun
    rw [runVisit_of_unlowered hv] at hvisit
    have hle := ih (hrest st₁ hnext) hrun
    have hstep := (runScope_hopsLeft hvisit).1
    rw [entries_cons hv.1]
    omega

theorem hopsBounded_of_unlowered (h : Along (nextState c conf) Unlowered st (v :: vs)) :
    HopsBounded c conf st v vs := by
  intro st' hrun
  obtain ⟨hv, hrest⟩ := h
  obtain ⟨st₁, hvisit, hnext, hrun⟩ := runVisits_cons hrun
  rw [runVisit_of_unlowered hv] at hvisit
  have hle := entries_le_hopsLeft (hrest st₁ hnext) hrun
  obtain ⟨hstep, hleft⟩ := runScope_hopsLeft hvisit
  refine ⟨fun hpos => ?_, fun n hn => Int.le_trans hle (hleft ▸ hv.2.2 n hn)⟩
  have := hopsLeft_of_pos st.int64 hpos
  omega

/-- In a run that is nowhere suspended and whose rules emit no value below what the countdown
leaves, every scope bounds the hops after it. -/
theorem hops_bounded_of_unlowered (c : Codec F) (conf : BudgetConf) (st : RunState F)
    (vs : List (Visit F)) (h : Along (nextState c conf) Unlowered st vs) (pre post : List (Visit F))
    (v : Visit F) (hvs : vs = pre ++ v :: post) (st₁ : RunState F)
    (hpre : runVisits c conf st pre = .ok st₁) : HopsBounded c conf st₁ v post := by
  subst hvs
  induction pre generalizing st with
  | nil =>
    cases hpre
    exact hopsBounded_of_unlowered h
  | cons w pre ih =>
    obtain ⟨st₂, -, hnext, hpre⟩ := runVisits_cons hpre
    exact ih st₂ hpre (h.2 st₂ hnext)

/-- A request of `ttl` hops before its first scope. -/
def freshRun (ttl : Int) : RunState Int :=
  Arrival.state plainCodec defaultConf
    { env := some (.obj [("_txc", .obj [("ttl", .num ttl)])])
      settable := by
        intro j hj
        cases hj
        exact ⟨_, rfl⟩ }

/-- A scope of one rule without an EXEC. -/
def emitVisit (stage : String) (ttl : List Int) (fate : Fate Int) : Visit Int where
  scope :=
    { stage := stage.toList
      ops := [⟨0, .obj [], ttl⟩]
      merge := fun e _ => e
      order := id
      order_mem := mem_id_iff }
  joins := []
  fate := fate
  settable _ _ h := h

theorem hops_bounded_of_raise :
    HopsBounded plainCodec defaultConf (freshRun 500) (emitVisit "shop/100" [999999] .pass)
      [emitVisit "shop/200" [] .pass] := by
  refine hops_bounded_of_unlowered plainCodec defaultConf (freshRun 500)
    [emitVisit "shop/100" [999999] .pass, emitVisit "shop/200" [] .pass] ⟨⟨rfl, rfl, by decide⟩, ?_⟩
    [] _ _ rfl _ rfl
  exact fun st' _ => ⟨⟨rfl, rfl, fun n hn => by cases hn⟩, fun _ _ => trivial⟩

/-- A rule that emits one hop is followed by three; and behind a barrier the countdown is what it
was when the scope was entered. -/
theorem emitted_ttl_ignored :
    ¬ HopsBounded plainCodec defaultConf (freshRun 500) (emitVisit "shop/100" [1] .pass)
        [emitVisit "shop/200" [] .pass, emitVisit "shop/300" [] .pass,
          emitVisit "shop/400" [] .pass] ∧
      ¬ HopsBounded plainCodec defaultConf (freshRun 2)
        (emitVisit "shop/100" [] (.barrier plainEdit []))
        [emitVisit "shop/200" [] (.barrier plainEdit []),
          emitVisit "shop/300" [] (.barrier plainEdit [])] := by
  refine ⟨fun h => ?_, fun h => ?_⟩
  · obtain ⟨st', hrun⟩ := exists_of_isOk (show (runVisits plainCodec defaultConf (freshRun 500)
      [emitVisit "shop/100" [1] .pass, emitVisit "shop/200" [] .pass, emitVisit "shop/300" [] .pass,
        emitVisit "shop/400" [] .pass]).isOk = true by decide)
    have hle := (h st' hrun).2 1 (by decide)
    revert hle
    decide
  · obtain ⟨st', hrun⟩ := exists_of_isOk (show (runVisits plainCodec defaultConf (freshRun 2)
      [emitVisit "shop/100" [] (.barrier plainEdit []),
        emitVisit "shop/200" [] (.barrier plainEdit []),
        emitVisit "shop/300" [] (.barrier plainEdit [])]).isOk = true by decide)
    have hle := (h st' hrun).1 (by decide)
    revert hle
    decide

end Hops

end ThanksComputer.Scope
