import ThanksComputer.Scope.Budget

/-! The budget read back from the envelope: what a run that starts on a context of its own counts
on from. -/

universe u

namespace ThanksComputer.Scope

open Lib (wrapInt)
open Ops Lib.Assoc

theorem wrapInt_idem (n : Int) : wrapInt (wrapInt n) = wrapInt n := by
  rw [wrapInt, wrapInt, Int.bmod_bmod]

theorem wrapInt_add (m n : Int) : wrapInt (wrapInt m + n) = wrapInt (m + n) := by
  rw [wrapInt, wrapInt, wrapInt, Int.bmod_add_bmod]

/-- What the budget uses of gjson, `encoding/json` and `time`.  `parseTime` gives the UTC text of
the time an RFC 3339 text stands for. -/
structure Codec (F : Type u) where
  num : Int → F
  int : Json F → Int
  str : Json F → String
  parseTime : String → Option String
  int_int64 : ∀ j, wrapInt (int j) = int j
  int_num : ∀ n, wrapInt n = n → int (.num (num n)) = n
  str_str : ∀ s, str (.str s) = s
  parseTime_empty : parseTime "" = none

def plainCodec : Codec Int where
  num := id
  int
    | .num n => wrapInt n
    | _ => 0
  str
    | .str s => s
    | _ => ""
  parseTime s := if s = "2026-02-01T00:00:00Z" then some s else none
  int_int64 j := by
    cases j with
    | num n => exact wrapInt_idem n
    | null | bool b | str s | arr xs | obj ms => rfl
  int_num _ h := h
  str_str _ := rfl
  parseTime_empty := by decide

/-- The settings of `config.Config` that a budget starts from. -/
structure BudgetConf where
  maxFuelPerRequest : Int
  opScopeTTLMax : Int
  opRepeatPenaltyMs : Int
  ttl_int64 : wrapInt opScopeTTLMax = opScopeTTLMax

/-- The defaults of the flags. -/
def defaultConf : BudgetConf where
  maxFuelPerRequest := 100000
  opScopeTTLMax := 500
  opRepeatPenaltyMs := 20
  ttl_int64 := by decide

section

variable {F : Type u} (c : Codec F)

/-- `gjson.Get(..).Int()`, zero where there is no value. -/
def Codec.intAt (e : Envelope F) (path : List String) : Int :=
  match e.read path with
  | some v => c.int v
  | none => 0

/-- `gjson.Get(..).String()`, empty where there is no value. -/
def Codec.strAt (e : Envelope F) (path : List String) : String :=
  match e.read path with
  | some v => c.str v
  | none => ""

def restoreAllowance (s : Budget) (e : Envelope F) : Budget :=
  match e.read ["_txc", "allowance"] with
  | none => s
  | some a =>
    let name := c.strAt (some a) ["name"]
    if a.isObject = false ∨ name = "" then s
    else
      let cap := c.intAt (some a) ["cap"]
      let capped := 0 < cap ∧ (s.maxFuel ≤ 0 ∨ cap ≤ s.maxFuel)
      { s with
        maxFuel := if capped then cap else s.maxFuel
        allowance := some
          { name := name
            limit := c.intAt (some a) ["fuel"]
            resetsAt := (c.parseTime (c.strAt (some a) ["resets_at"])).getD ""
            cap := if capped then cap else 0
            denied := false } }

/-- The seen-set of `_txc._seen`. -/
def seenAt (e : Envelope F) : List Transition :=
  match e.read ["_txc", "_seen"] with
  | some (.arr xs) => xs.foldl (fun seen x => seen.insert (c.str x).toList) []
  | _ => []

/-- `loadBudget` on a context that carries no budget yet. -/
def loadBudget (conf : BudgetConf) (e : Envelope F) : Budget :=
  let s := restoreAllowance c
    { fuel := c.intAt e ["_txc", "fuel_used"]
      ttl := 0
      maxFuel := conf.maxFuelPerRequest
      maxTTL := conf.opScopeTTLMax
      penaltyMs := conf.opRepeatPenaltyMs
      allowance := none
      seen := []
      recent := []
      call := none } e
  { s with
    ttl := match e.read ["_txc", "ttl"] with
      | some v => c.int v
      | none => conf.opScopeTTLMax
    seen := seenAt c e }

section Load

variable {c} (conf : BudgetConf) (e : Envelope F)

theorem restoreAllowance_fields (s : Budget) :
    (restoreAllowance c s e).fuel = s.fuel ∧ (restoreAllowance c s e).call = s.call := by
  rw [restoreAllowance]
  split
  · exact ⟨rfl, rfl⟩
  · dsimp only
    split <;> exact ⟨rfl, rfl⟩

@[simp] theorem loadBudget_fuel : (loadBudget c conf e).fuel = c.intAt e ["_txc", "fuel_used"] :=
  (restoreAllowance_fields e _).1

@[simp] theorem loadBudget_call : (loadBudget c conf e).call = none :=
  (restoreAllowance_fields e _).2

@[simp] theorem loadBudget_seen : (loadBudget c conf e).seen = seenAt c e := rfl

theorem loadBudget_ttl : (loadBudget c conf e).ttl =
    match e.read ["_txc", "ttl"] with
    | some v => c.int v
    | none => conf.opScopeTTLMax := rfl

@[simp] theorem loadBudget_countdown :
    (loadBudget c conf e).countdown = (loadBudget c conf e).ttl := by
  rw [Budget.countdown, loadBudget_call]

theorem loadBudget_ttl_int64 : wrapInt (loadBudget c conf e).ttl = (loadBudget c conf e).ttl := by
  rw [loadBudget_ttl]
  split
  · exact c.int_int64 _
  · exact conf.ttl_int64

theorem intAt_int64 (path : List String) : wrapInt (c.intAt e path) = c.intAt e path := by
  rw [Codec.intAt]
  split
  · exact c.int_int64 _
  · rfl

theorem mem_foldl_insert (xs : List (Json F)) (acc : List Transition) (key : Transition) :
    key ∈ xs.foldl (fun seen x => seen.insert (c.str x).toList) acc ↔
      key ∈ acc ∨ ∃ x ∈ xs, key = (c.str x).toList := by
  induction xs generalizing acc with
  | nil => simp
  | cons x xs ih =>
    rw [List.foldl_cons, ih, List.mem_insert_iff]
    simp only [List.mem_cons, exists_eq_or_imp]
    rw [or_comm (a := key = _), or_assoc]

theorem mem_seenAt {seen : List Transition}
    (h : e.read ["_txc", "_seen"] = some (.arr (seen.map fun k => .str (String.ofList k))))
    (key : Transition) : key ∈ seenAt c e ↔ key ∈ seen := by
  rw [seenAt, h]
  dsimp only
  rw [mem_foldl_insert]
  simp [c.str_str]

end Load

end

section ReadBack

variable {F : Type u}

/-- An envelope in which a member of `_txc` can be set: empty, or with an object there. -/
def Envelope.Settable (e : Envelope F) : Prop :=
  ∀ j, e = some j → ∃ ms, j.getPath ["_txc"] = some (.obj ms)

private theorem txc_not_index : (⟨"_txc", false⟩ : PathSeg).indexLike = false := by
  decide +kernel

theorem atoui_of_not_index {k : String} (hk : (⟨k, false⟩ : PathSeg).indexLike = false) :
    (⟨k, false⟩ : PathSeg).atoui = none ∧ (⟨k, false⟩ : PathSeg).isAppend = false := by
  rw [PathSeg.indexLike, Bool.or_eq_false_iff, Option.isSome_eq_false_iff,
    Option.isNone_iff_eq_none]
    at hk
  exact hk

theorem createRoot_txc {k : String} (hk : (⟨k, false⟩ : PathSeg).indexLike = false) (v : Json F) :
    Json.createRoot ⟨"_txc", false⟩ [⟨k, false⟩] v = .obj [("_txc", .obj [(k, v)])] := by
  rw [Json.createRoot, (atoui_of_not_index txc_not_index).1, createValue_key hk]

theorem setNode_key {k : String} (hk : (⟨k, false⟩ : PathSeg).indexLike = false) {j j' v : Json F}
    (h : j.setNode [⟨k, false⟩] v = some j') : ∃ ms, j' = .obj ms ∧ ms.lookup k = some v := by
  have hidx := atoui_of_not_index hk
  cases j with
  | obj ms =>
    rw [Json.setNode] at h
    split at h
    · next w hw =>
      rw [Json.setNode, Option.map_some, Option.some.injEq] at h
      exact ⟨_, h.symm, lookup_replaceFirst_self (mem_keys_of_lookup hw)⟩
    · next hw =>
      rw [Json.createValue, Option.some.injEq] at h
      exact ⟨_, h.symm, by simp⟩
  | arr xs =>
    rw [Json.setNode, arrayHit_key hidx.1, hidx.1] at h
    simp [hidx.2] at h
  | null | bool b | num n | str s =>
    simp only [Json.setNode, Json.createRoot, hidx.1, Json.createValue, Option.some.injEq] at h
    exact ⟨_, h.symm, by simp⟩

theorem setTxc_eq_some {k : String} (hk : (⟨k, false⟩ : PathSeg).indexLike = false)
    {e : Envelope F} {v j : Json F} (h : e.setTxc k v = some j) :
    ∃ ms, j.getPath ["_txc"] = some (.obj ms) ∧ ms.lookup k = some v := by
  have hidx := atoui_of_not_index txc_not_index
  have hroot : ∃ ms, (Json.createRoot ⟨"_txc", false⟩ [⟨k, false⟩] v).getPath ["_txc"] =
      some (.obj ms) ∧ ms.lookup k = some v := by
    rw [createRoot_txc hk]
    exact ⟨[(k, v)], by simp, by simp⟩
  cases e with
  | none =>
    rw [Envelope.setTxc, Option.some.injEq] at h
    exact h ▸ hroot
  | some d =>
    rw [Envelope.setTxc] at h
    cases d with
    | obj ms =>
      rw [Json.setNode] at h
      split at h
      · next w hw =>
        obtain ⟨w', hset, rfl⟩ := Option.map_eq_some_iff.mp h
        obtain ⟨ns, rfl, hns⟩ := setNode_key hk hset
        refine ⟨ns, ?_, hns⟩
        simp [lookup_replaceFirst_self (mem_keys_of_lookup hw)]
      · next hw =>
        rw [createValue_key hk, Option.some.injEq] at h
        exact ⟨[(k, v)], by simp [← h], by simp⟩
    | arr xs =>
      rw [Json.setNode, arrayHit_key hidx.1, hidx.1] at h
      simp [hidx.2] at h
    | null | bool b | num n | str s =>
      simp only [Json.setNode, Option.some.injEq] at h
      exact h ▸ hroot

theorem setTxc_settable {k : String} (hk : (⟨k, false⟩ : PathSeg).indexLike = false)
    (e : Envelope F) (v : Json F) : (e.setTxc k v).Settable := by
  intro j hj
  obtain ⟨ms, hms, -⟩ := setTxc_eq_some hk hj
  exact ⟨ms, hms⟩

theorem setTxc_of_settable {k : String} {e : Envelope F} (he : e.Settable) (v : Json F) :
    ∃ j, e.setTxc k v = some j := by
  cases e with
  | none => exact ⟨_, rfl⟩
  | some d =>
    obtain ⟨ns, hns⟩ := he d rfl
    cases d with
    | obj ms =>
      obtain ⟨w, hw, hval⟩ := Option.bind_eq_some_iff.mp (Json.getPath_obj_cons .. ▸ hns)
      rw [Json.getPath_nil, Option.some.injEq] at hval
      subst hval
      rw [Envelope.setTxc, Json.setNode, hw]
      dsimp only
      rw [Json.setNode]
      split <;> simp [Json.setNode]
    | arr xs | null | bool b | num n | str s => cases hns

theorem read_setTxc_self {k : String} (hk : (⟨k, false⟩ : PathSeg).indexLike = false)
    {e : Envelope F} (he : e.Settable) (v : Json F) :
    (e.setTxc k v).read ["_txc", k] = some v := by
  obtain ⟨j, hj⟩ := setTxc_of_settable (k := k) he v
  obtain ⟨ms, hms, hk'⟩ := setTxc_eq_some hk hj
  rw [hj]
  cases j with
  | obj ns =>
    obtain ⟨w, hw, hval⟩ := Option.bind_eq_some_iff.mp (Json.getPath_obj_cons .. ▸ hms)
    rw [Json.getPath_nil, Option.some.injEq] at hval
    subst hval
    simp [Envelope.read, hw, hk']
  | arr xs | null | bool b | num n | str s => cases hms

section Sync

variable (num : Int → F) (s : Budget) (seen : List Transition) (e : Envelope F)

private def counters : Envelope F :=
  ((e.setTxc "fuel_used" (.num (num s.fuel))).setTxc "ttl" (.num (num s.ttl))).setTxc "_seen"
    (.arr (seen.map fun k => .str (String.ofList k)))

private theorem sync_eq : syncBudgetToEnvelope num s seen e =
    match s.allowance with
    | some p => (counters num s seen e).setTxc "allowance" (p.envelope num)
    | none => counters num s seen e := by
  rw [syncBudgetToEnvelope]
  rfl

private theorem key_not_index {k : String} (hk : k ∈ budgetKeys) :
    (⟨k, false⟩ : PathSeg).indexLike = false :=
  budgetKeys_not_index k hk

private theorem read_sync_counter {k : String} (hk : k ≠ "allowance") :
    (syncBudgetToEnvelope num s seen e).read ["_txc", k] =
      (counters num s seen e).read ["_txc", k] := by
  rw [sync_eq]
  cases s.allowance with
  | none => rfl
  | some p => exact read_setTxc_of_ne (key_not_index (by simp [budgetKeys])) hk _ _ []

theorem read_sync_seen : (syncBudgetToEnvelope num s seen e).read ["_txc", "_seen"] =
    some (.arr (seen.map fun k => .str (String.ofList k))) := by
  rw [read_sync_counter num s seen e (by decide), counters,
    read_setTxc_self (key_not_index (by simp [budgetKeys]))
      (setTxc_settable (key_not_index (by simp [budgetKeys])) _ _)]

theorem read_sync_ttl : (syncBudgetToEnvelope num s seen e).read ["_txc", "ttl"] =
    some (.num (num s.ttl)) := by
  rw [read_sync_counter num s seen e (by decide), counters,
    read_setTxc_of_ne (key_not_index (by simp [budgetKeys])) (by decide),
    read_setTxc_self (key_not_index (by simp [budgetKeys]))
      (setTxc_settable (key_not_index (by simp [budgetKeys])) _ _)]

theorem read_sync_fuel (he : e.Settable) :
    (syncBudgetToEnvelope num s seen e).read ["_txc", "fuel_used"] = some (.num (num s.fuel)) := by
  rw [read_sync_counter num s seen e (by decide), counters,
    read_setTxc_of_ne (key_not_index (by simp [budgetKeys])) (by decide),
    read_setTxc_of_ne (key_not_index (by simp [budgetKeys])) (by decide),
    read_setTxc_self (key_not_index (by simp [budgetKeys])) he]

theorem read_sync_allowance : (syncBudgetToEnvelope num s seen e).read ["_txc", "allowance"] =
    match s.allowance with
    | some p => some (p.envelope num)
    | none => e.read ["_txc", "allowance"] := by
  rw [sync_eq]
  cases s.allowance with
  | none =>
    dsimp only
    rw [counters, read_setTxc_of_ne (key_not_index (by simp [budgetKeys])) (by decide),
      read_setTxc_of_ne (key_not_index (by simp [budgetKeys])) (by decide),
      read_setTxc_of_ne (key_not_index (by simp [budgetKeys])) (by decide)]
  | some p =>
    exact read_setTxc_self (key_not_index (by simp [budgetKeys]))
      (setTxc_settable (key_not_index (by simp [budgetKeys])) _ _) _

theorem sync_settable : (syncBudgetToEnvelope num s seen e).Settable := by
  rw [sync_eq]
  cases s.allowance with
  | none => exact setTxc_settable (key_not_index (by simp [budgetKeys])) _ _
  | some p => exact setTxc_settable (key_not_index (by simp [budgetKeys])) _ _

end Sync

end ReadBack

end ThanksComputer.Scope
