import ThanksComputer.Json.Path
import ThanksComputer.Ops.Stage

/-! The budget of a request: hop countdown, fuel and the transitions taken, the charges of a frame,
and the copy of it that rides the envelope. -/

universe u

namespace ThanksComputer.Scope

open Lib (wrapInt)
open Ops Lib.Assoc

/-- A transition, `from->to`. -/
abbrev Transition := List Char

/-- `allowancePin`; `resetsAt` is the RFC 3339 text of the time, empty for the zero time. -/
structure AllowancePin where
  name : String
  limit : Int
  resetsAt : String
  cap : Int
  denied : Bool
  deriving DecidableEq

/-- The countdown and the history a call frame keeps for itself. -/
structure CallFrame where
  ttl : Int
  seen : List Transition
  deriving DecidableEq

/-- `budgetState`.  The numbers are `int64`; `call` is the frame of the context when it is a
call's. -/
structure Budget where
  fuel : Int
  ttl : Int
  maxFuel : Int
  maxTTL : Int
  penaltyMs : Int
  allowance : Option AllowancePin
  seen : List Transition
  recent : List Transition
  call : Option CallFrame
  deriving DecidableEq

inductive BudgetError
  | fuel (maxFuel fuelUsed : Int) (lastStage : StageText) (lastTransitions : List Transition)
  | ttl (maxTTL consumed : Int) (lastStage : StageText) (lastTransitions : List Transition)
  | allowance (name : String) (fuel : Int) (resetsAt : String) (fuelUsed : Int)
      (lastStage : StageText)
  deriving DecidableEq

abbrev Charge := ExceptT BudgetError (StateM Budget)

def fuelCostScopeEnter : Int := 10

def fuelCostRepeatTransition : Int := 50

def AllowancePin.exhausted (p : AllowancePin) (used : Int) (stage : StageText) : BudgetError :=
  .allowance p.name p.limit p.resetsAt used stage

/-- The ceiling in force is the one the allowance set. -/
def AllowancePin.capped (max : Int) (p : AllowancePin) : Bool :=
  decide (0 < p.cap) && p.cap == max

def overBudget (s : Budget) (used : Int) (stage : StageText) : Except BudgetError Unit :=
  match s.allowance.filter AllowancePin.denied with
  | some p => .error (p.exhausted used stage)
  | none =>
    if s.maxFuel ≤ 0 ∨ used ≤ s.maxFuel then .ok ()
    else
      match s.allowance.filter (AllowancePin.capped s.maxFuel) with
      | some p => .error (p.exhausted used stage)
      | none => .error (.fuel s.maxFuel used stage s.recent)

def addFuel (cost : Int) (stage : StageText) : Charge Unit := do
  let used := wrapInt ((← get).fuel + cost)
  modify fun s => { s with fuel := used }
  overBudget (← get) used stage

/-- The countdown a hop takes from: the call's own inside a call. -/
def Budget.countdown (s : Budget) : Int :=
  match s.call with
  | some fr => fr.ttl
  | none => s.ttl

def Budget.setCountdown (s : Budget) (n : Int) : Budget :=
  match s.call with
  | some fr => { s with call := some { fr with ttl := n } }
  | none => { s with ttl := n }

def decrementTTL (stage : StageText) : Charge Unit := do
  let s ← get
  let current := wrapInt (s.countdown - 1)
  set (s.setCountdown current)
  if 0 < wrapInt (current + 1) ∧ current ≤ 0 then
    throw (.ttl s.maxTTL s.maxTTL stage s.recent)

def transition (fromStage toStage : StageText) : Transition :=
  fromStage ++ "->".toList ++ toStage

/-- The history a transition is looked up in and added to: the call's own inside a call. -/
def Budget.history (s : Budget) : List Transition :=
  match s.call with
  | some fr => fr.seen
  | none => s.seen

def Budget.remember (s : Budget) (key : Transition) : Budget :=
  match s.call with
  | some fr => { s with call := some { fr with seen := fr.seen.insert key } }
  | none => { s with seen := s.seen.insert key }

def chargeTransition (fromStage toStage : StageText) : Charge Int := do
  let s ← get
  let key := transition fromStage toStage
  let again := s.history.contains key
  let recent := s.recent ++ [key]
  set { s.remember key with recent := recent.drop (recent.length - 3) }
  if again then
    addFuel fuelCostRepeatTransition toStage
    return if 0 < s.penaltyMs then wrapInt (s.penaltyMs * 1000000) else 0
  else
    return 0

section Envelope

variable {F : Type u}

/-- An envelope document; `none` is the empty text a failed set leaves. -/
abbrev Envelope (F : Type u) := Option (Json F)

def Envelope.read (e : Envelope F) (path : List String) : Option (Json F) :=
  match e with
  | some j => j.getPath path
  | none => none

/-- `sjson.Set` at `_txc.<key>`. -/
def Envelope.setTxc (e : Envelope F) (key : String) (v : Json F) : Envelope F :=
  match e with
  | some j => j.setNode [⟨"_txc", false⟩, ⟨key, false⟩] v
  | none => some (Json.createRoot ⟨"_txc", false⟩ [⟨key, false⟩] v)

/-- `allowancePin.envelope`, whose zero fields are left out. -/
def AllowancePin.envelope (num : Int → F) (p : AllowancePin) : Json F :=
  .obj ([("name", .str p.name)] ++ (if p.limit = 0 then [] else [("fuel", .num (num p.limit))]) ++
    (if p.resetsAt = "" then [] else [("resets_at", .str p.resetsAt)]) ++
    (if p.cap = 0 then [] else [("cap", .num (num p.cap))]))

/-- `syncBudgetToEnvelope`; `seen` is the seen-set in the order the map is ranged over. -/
def syncBudgetToEnvelope (num : Int → F) (s : Budget) (seen : List Transition) (e : Envelope F) :
    Envelope F :=
  let e := e.setTxc "fuel_used" (.num (num s.fuel))
  let e := e.setTxc "ttl" (.num (num s.ttl))
  let e := e.setTxc "_seen" (.arr (seen.map fun k => .str (String.ofList k)))
  match s.allowance with
  | some p => e.setTxc "allowance" (p.envelope num)
  | none => e

def budgetKeys : List String :=
  ["fuel_used", "ttl", "_seen", "allowance"]

theorem createValue_key {k : String} (hk : (⟨k, false⟩ : PathSeg).indexLike = false) (v : Json F) :
    Json.createValue [⟨k, false⟩] v = .obj [(k, v)] := by
  rw [PathSeg.indexLike, Bool.or_eq_false_iff, Option.isSome_eq_false_iff,
    Option.isNone_iff_eq_none]
    at hk
  simp [Json.createValue, hk.1, hk.2]

theorem getPath_singleton_of_ne {k k' : String} (hne : k' ≠ k) (v : Json F) (p : List String) :
    Json.getPath (.obj [(k, v)]) (k' :: p) = none := by
  simp [List.lookup_cons, beq_eq_false_iff_ne.mpr hne]

theorem arrayHit_key {k : String} (hk : (⟨k, false⟩ : PathSeg).atoui = none) (xs : List (Json F)) :
    Json.arrayHit xs ⟨k, false⟩ = none := by
  have hdigits : k.toList.all isDigit = false := by simpa [PathSeg.atoui] using hk
  simp [Json.arrayHit, gjsonArrayIndex, hdigits]

/-- A set of one key of an object leaves its other keys alone; where there was no object, there is
still none of them. -/
theorem getPath_setNode_of_ne {k k' : String} (hk : (⟨k, false⟩ : PathSeg).indexLike = false)
    (hne : k' ≠ k) (j v : Json F) (p : List String) :
    (j.setNode [⟨k, false⟩] v).bind (·.getPath (k' :: p)) = j.getPath (k' :: p) := by
  have hidx := hk
  rw [PathSeg.indexLike, Bool.or_eq_false_iff, Option.isSome_eq_false_iff,
    Option.isNone_iff_eq_none]
    at hidx
  cases j with
  | obj ms =>
    rw [Json.setNode]
    split
    · next w hw =>
      simp [Json.setNode, lookup_replaceFirst_of_ne hne]
    · next hw =>
      simp [List.lookup_cons, beq_eq_false_iff_ne.mpr hne]
  | arr xs =>
    rw [Json.setNode, arrayHit_key hidx.1, hidx.1]
    simp [hidx.2, Json.getPath]
  | null | bool b | num n | str s =>
    simp only [Json.setNode, Json.createRoot, hidx.1, Json.createValue, Option.bind_some]
    exact getPath_singleton_of_ne hne v p

theorem read_setTxc_of_ne {k k' : String} (hk : (⟨k, false⟩ : PathSeg).indexLike = false)
    (hne : k' ≠ k) (e : Envelope F) (v : Json F) (p : List String) :
    (e.setTxc k v).read ("_txc" :: k' :: p) = e.read ("_txc" :: k' :: p) := by
  have htxc : (⟨"_txc", false⟩ : PathSeg).atoui = none := by decide
  have happ : (⟨"_txc", false⟩ : PathSeg).isAppend = false := by decide
  have hroot : Envelope.read (some (Json.createRoot ⟨"_txc", false⟩ [⟨k, false⟩] v))
      ("_txc" :: k' :: p) = none := by
    rw [Json.createRoot, htxc, createValue_key hk]
    simpa [Envelope.read, List.lookup_cons] using getPath_singleton_of_ne hne v p
  cases e with
  | none => exact hroot
  | some j =>
    rw [Envelope.setTxc]
    cases j with
    | obj ms =>
      rw [Json.setNode]
      split
      · next w hw =>
        have hw' := getPath_setNode_of_ne hk hne w v p
        cases hset : w.setNode [⟨k, false⟩] v with
        | none =>
          rw [hset] at hw'
          simpa [Envelope.read, hw] using hw'
        | some w' =>
          rw [hset] at hw'
          have hmem : "_txc" ∈ keys ms := mem_keys_of_lookup hw
          simpa [Envelope.read, hw, lookup_replaceFirst_self hmem] using hw'
      · next hw =>
        rw [createValue_key hk]
        simpa [Envelope.read, hw, List.lookup_cons] using
          getPath_singleton_of_ne hne v p
    | arr xs =>
      rw [Json.setNode, arrayHit_key htxc, htxc]
      simp [happ, Envelope.read, Json.getPath]
    | null | bool b | num n | str s =>
      simp only [Json.setNode, hroot]
      rfl

theorem budgetKeys_not_index : ∀ k ∈ budgetKeys, (⟨k, false⟩ : PathSeg).indexLike = false := by
  decide

theorem read_syncBudgetToEnvelope (num : Int → F) (s : Budget) (seen : List Transition)
    (e : Envelope F) {k : String} (hk : k ∉ budgetKeys) (p : List String) :
    (syncBudgetToEnvelope num s seen e).read ("_txc" :: k :: p) = e.read ("_txc" :: k :: p) := by
  have hset : ∀ k' ∈ budgetKeys, ∀ (e : Envelope F) v,
      (e.setTxc k' v).read ("_txc" :: k :: p) = e.read ("_txc" :: k :: p) := fun k' hk' e v =>
    read_setTxc_of_ne (budgetKeys_not_index k' hk') (fun (h : k = k') => hk (h ▸ hk')) e v p
  rw [syncBudgetToEnvelope]
  cases s.allowance with
  | none =>
    dsimp only
    rw [hset _ (by simp [budgetKeys]), hset _ (by simp [budgetKeys]), hset _ (by simp [budgetKeys])]
  | some q =>
    dsimp only
    rw [hset _ (by simp [budgetKeys]), hset _ (by simp [budgetKeys]), hset _ (by simp [budgetKeys]),
      hset _ (by simp [budgetKeys])]

end Envelope

end ThanksComputer.Scope
