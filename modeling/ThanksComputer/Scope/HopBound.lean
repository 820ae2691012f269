import Mathlib.Algebra.Ring.Int.Defs
import ThanksComputer.Scope.FastForward
import ThanksComputer.Scope.Reload

/-! A run of scopes under the hop countdown, with rules that emit `_txc.ttl`. -/

universe u

namespace ThanksComputer.Scope

open Lib (wrapInt)
open Ops

variable {F : Type u}

section Overlay

variable (c : Codec F)

def clampTTL (env : Envelope F) (requested : Int) : Int :=
  let current := c.intAt env ["_txc", "ttl"]
  if requested < current then requested else current

/-- What `overlayResponse` does for an override of `_txc.ttl`; a failed set keeps the output. -/
def overlayTTL (env : Envelope F) (output : Json F) (n : Int) : Json F :=
  (Envelope.setTxc (some output) "ttl" (.num (c.num (clampTTL c env n)))).getD output

end Overlay

/-- An op of a scope: the fuel charged for it, its output, and what its rule emits at `_txc.ttl`. -/
structure OpRun (F : Type u) where
  cost : Int
  output : Json F
  ttl : List Int

/-- A scope as it runs.  `merge` lays the outputs over the envelope; `order` is the order in which
the seen-set is ranged over when the scope is left. -/
structure ScopeRun (F : Type u) where
  stage : StageText
  ops : List (OpRun F)
  merge : Envelope F → List (Json F) → Envelope F
  order : List Transition → List Transition
  order_mem : ∀ seen key, key ∈ order seen ↔ key ∈ seen

/-- Between two scopes: `parent` is the stage left last, empty before the first. -/
structure RunState (F : Type u) where
  budget : Budget
  env : Envelope F
  parent : StageText
  int64 : wrapInt budget.countdown = budget.countdown

def ScopeRun.emitted (sc : ScopeRun F) : List Int :=
  sc.ops.flatMap (·.ttl)

def ScopeRun.outputs (c : Codec F) (sc : ScopeRun F) (env : Envelope F) : List (Json F) :=
  sc.ops.map fun op => op.ttl.foldl (overlayTTL c env) op.output

/-- The charges of the ops; running over the ceiling is noticed at the next scope entry. -/
def ScopeRun.charge (sc : ScopeRun F) (s : Budget) : Budget :=
  sc.ops.foldl (fun s op => (addFuel op.cost sc.stage s).2) s

theorem Charge.bind_run {α β : Type} (m : Charge α) (k : α → Charge β) (s : Budget) :
    (m >>= k) s =
      match m s with
      | (.ok a, s') => k a s'
      | (.error e, s') => (.error e, s') := by
  change (ExceptT.bindCont k (m s).1 : StateM Budget (Except BudgetError β)) (m s).2 = _
  rcases m s with ⟨_ | _, _⟩ <;> rfl

theorem decrementTTL_run (stage : StageText) (s : Budget) :
    decrementTTL stage s =
      (if 0 < wrapInt (wrapInt (s.countdown - 1) + 1) ∧ wrapInt (s.countdown - 1) ≤ 0 then
          .error (.ttl s.maxTTL s.maxTTL stage s.recent)
        else .ok (), s.setCountdown (wrapInt (s.countdown - 1))) := by
  change (ite _ _ _ : Charge Unit) (s.setCountdown (wrapInt (s.countdown - 1))) = _
  split <;> rfl

def Budget.burn (s : Budget) (cost : Int) : Budget :=
  { s with fuel := wrapInt (s.fuel + cost) }

theorem addFuel_run (cost : Int) (stage : StageText) (s : Budget) :
    addFuel cost stage s = (overBudget (s.burn cost) (s.burn cost).fuel stage, s.burn cost) :=
  rfl

/-- The budget after a transition was recorded and, when it was a repeat, paid for. -/
def Budget.transit (s : Budget) (fromStage toStage : StageText) : Budget :=
  let key := transition fromStage toStage
  let recent := s.recent ++ [key]
  let s' := { s.remember key with recent := recent.drop (recent.length - 3) }
  if s.history.contains key then s'.burn fuelCostRepeatTransition else s'

theorem chargeTransition_state (fromStage toStage : StageText) (s : Budget) :
    (chargeTransition fromStage toStage s).2 = s.transit fromStage toStage := by
  rw [Budget.transit]
  change ((ite _ _ _ : Charge Int) _).2 = _
  dsimp only
  split
  · rw [Charge.bind_run, addFuel_run]
    cases overBudget _ _ toStage <;> rfl
  · rfl

def Budget.arrive (s : Budget) (parent stage : StageText) : Budget :=
  let s := (s.setCountdown (wrapInt (s.countdown - 1))).burn fuelCostScopeEnter
  if parent.isEmpty then s else s.transit parent stage

theorem enterFrame_ok {parent stage : StageText} {s : Budget} {penalty : Int}
    (h : (enterFrame parent stage s).1 = .ok penalty) :
    ¬(0 < wrapInt (wrapInt (s.countdown - 1) + 1) ∧ wrapInt (s.countdown - 1) ≤ 0) ∧
      (enterFrame parent stage s).2 = s.arrive parent stage := by
  rw [enterFrame, Charge.bind_run, decrementTTL_run] at *
  by_cases hexh : 0 < wrapInt (wrapInt (s.countdown - 1) + 1) ∧ wrapInt (s.countdown - 1) ≤ 0
  · rw [if_pos hexh] at h
    cases h
  · refine ⟨hexh, ?_⟩
    rw [if_neg hexh] at h ⊢
    dsimp only at h ⊢
    rw [Charge.bind_run, addFuel_run] at *
    rw [Budget.arrive]
    cases hover : overBudget _ _ stage with
    | error e =>
      rw [hover] at h
      cases h
    | ok _ =>
      dsimp only
      split
      · rfl
      · rw [chargeTransition_state]

@[simp] theorem Budget.countdown_burn (s : Budget) (cost : Int) :
    (s.burn cost).countdown = s.countdown := rfl

@[simp] theorem Budget.countdown_transit (s : Budget) (fromStage toStage : StageText) :
    (s.transit fromStage toStage).countdown = s.countdown := by
  rw [Budget.transit]
  dsimp only
  split <;> cases hcall : s.call <;> simp [Budget.countdown, Budget.burn, Budget.remember, hcall]

@[simp] theorem Budget.countdown_setCountdown (s : Budget) (n : Int) :
    (s.setCountdown n).countdown = n := by
  cases hcall : s.call <;> simp [Budget.countdown, Budget.setCountdown, hcall]

theorem Budget.countdown_arrive (s : Budget) (parent stage : StageText) :
    (s.arrive parent stage).countdown = wrapInt (s.countdown - 1) := by
  rw [Budget.arrive]
  split <;> simp

theorem enterFrame_countdown (parent stage : StageText) (s : Budget) :
    (enterFrame parent stage s).2.countdown = wrapInt (s.countdown - 1) := by
  rw [enterFrame, Charge.bind_run, decrementTTL_run]
  split
  · next hrun =>
    obtain ⟨-, rfl⟩ := Prod.mk.inj hrun
    rw [Charge.bind_run, addFuel_run]
    split
    · next hrun =>
      obtain ⟨-, rfl⟩ := Prod.mk.inj hrun
      split
      · exact Budget.countdown_setCountdown s _
      · rw [chargeTransition_state]
        simp
    · next hrun =>
      obtain ⟨-, rfl⟩ := Prod.mk.inj hrun
      simp
  · next hrun =>
    obtain ⟨-, rfl⟩ := Prod.mk.inj hrun
    simp

theorem ScopeRun.charge_countdown (sc : ScopeRun F) (s : Budget) :
    (sc.charge s).countdown = s.countdown := by
  rw [ScopeRun.charge]
  induction sc.ops generalizing s with
  | nil => rfl
  | cons op ops ih =>
    rw [List.foldl_cons, addFuel_run, ih]
    simp

/-- The state in which a scope that was entered is left for the next one: its ops charged and
merged, and the budget copied to the envelope. -/
def RunState.leave (c : Codec F) (st : RunState F) (sc : ScopeRun F) : RunState F where
  budget := sc.charge (enterFrame st.parent sc.stage st.budget).2
  env := syncBudgetToEnvelope c.num (sc.charge (enterFrame st.parent sc.stage st.budget).2)
    (sc.order (sc.charge (enterFrame st.parent sc.stage st.budget).2).seen)
    (sc.merge st.env (sc.outputs c st.env))
  parent := sc.stage
  int64 := by rw [sc.charge_countdown, enterFrame_countdown, wrapInt_idem]

/-- A scope of `Run`. -/
def runScope (c : Codec F) (st : RunState F) (sc : ScopeRun F) : Except BudgetError (RunState F) :=
  (enterFrame st.parent sc.stage st.budget).1.map fun _ => st.leave c sc

/-- The hops a countdown allows.  One that is not above zero is disabled and first has to run below
the least `int64`. -/
def hopsLeft (ttl : Int) : Int :=
  (ttl - 1) % 2 ^ 64

/-- No rule of the scope asks for fewer hops than the countdown allows after it. -/
def NotLowering (st : RunState F) (sc : ScopeRun F) : Prop :=
  ∀ n ∈ sc.emitted, hopsLeft (st.budget.countdown - 1) ≤ max n 0

instance (st : RunState F) (sc : ScopeRun F) : Decidable (NotLowering st sc) :=
  inferInstanceAs (Decidable (∀ n ∈ sc.emitted, _))

theorem runScope_ok {c : Codec F} {st st' : RunState F} {sc : ScopeRun F}
    (h : runScope c st sc = .ok st') :
    ¬(0 < wrapInt (wrapInt (st.budget.countdown - 1) + 1) ∧ wrapInt (st.budget.countdown - 1) ≤ 0) ∧
      st' = st.leave c sc ∧ st'.budget = sc.charge (st.budget.arrive st.parent sc.stage) := by
  rw [runScope] at h
  cases hrun : (enterFrame st.parent sc.stage st.budget).1 with
  | error e =>
    rw [hrun] at h
    cases h
  | ok penalty =>
    obtain ⟨hpos, hs⟩ := enterFrame_ok hrun
    rw [hrun, Except.map, Except.ok.injEq] at h
    refine ⟨hpos, h.symm, ?_⟩
    rw [← h]
    exact congrArg sc.charge hs

private theorem wrapInt_eq (n : Int) :
    wrapInt n = if n % 18446744073709551616 < 9223372036854775808 then n % 18446744073709551616
      else n % 18446744073709551616 - 18446744073709551616 := by
  rw [wrapInt, Int.bmod]
  rfl

theorem hopsLeft_succ {t : Int}
    (h : ¬(0 < wrapInt (wrapInt (t - 1) + 1) ∧ wrapInt (t - 1) ≤ 0)) :
    hopsLeft (wrapInt (t - 1)) + 1 = hopsLeft t := by
  simp only [wrapInt_eq] at h
  rw [hopsLeft, hopsLeft, wrapInt_eq]
  omega

theorem hopsLeft_wrapInt (t : Int) : hopsLeft (wrapInt t) = hopsLeft t := by
  rw [hopsLeft, hopsLeft, wrapInt_eq]
  omega

theorem hopsLeft_of_pos {t : Int} (h64 : wrapInt t = t) (h : 0 < t) : hopsLeft t = t - 1 := by
  rw [wrapInt_eq] at h64
  rw [hopsLeft]
  omega

theorem runScope_hopsLeft {c : Codec F} {st st' : RunState F} {sc : ScopeRun F}
    (h : runScope c st sc = .ok st') :
    hopsLeft st'.budget.countdown + 1 = hopsLeft st.budget.countdown ∧
      hopsLeft st'.budget.countdown = hopsLeft (st.budget.countdown - 1) := by
  obtain ⟨hpos, -, hb⟩ := runScope_ok h
  rw [hb, sc.charge_countdown, Budget.countdown_arrive]
  exact ⟨hopsLeft_succ hpos, hopsLeft_wrapInt _⟩

end ThanksComputer.Scope
