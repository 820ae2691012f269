import ThanksComputer.Lib.Runs
import ThanksComputer.Scope.Reload

/-! The allowance of a request: entering it, the fuel ceiling it sets, and what of it is there again
after a suspend. -/

universe u

namespace ThanksComputer.Scope

open Lib (wrapInt)
open Ops Lib.Runs

variable {F : Type u}

/-- The state of the allowance being entered, as the enter op passes it: of a valid name, with the
window's end as UTC text. -/
structure AllowanceCheck (c : Codec F) where
  name : String
  defined : Bool
  fuel : Int
  used : Int
  resetsAt : String
  named : name ≠ ""
  fuel_int64 : wrapInt fuel = fuel
  resetsAt_text : resetsAt = "" ∨ c.parseTime resetsAt = some resetsAt

inductive EnterError
  | allowanceEntered (name : String)
  deriving DecidableEq

variable {c : Codec F}

def AllowanceCheck.pin (a : AllowanceCheck c) (s : Budget) : AllowancePin :=
  if a.defined = false then
    { name := a.name, limit := 0, resetsAt := "", cap := 0, denied := false }
  else
    let left := wrapInt (a.fuel - a.used)
    let ceiling := wrapInt (s.fuel + left)
    { name := a.name
      limit := a.fuel
      resetsAt := a.resetsAt
      cap :=
        if left ≤ 0 then 0
        else if s.maxFuel ≤ 0 ∨ ceiling < s.maxFuel then ceiling
        else if s.allowance.any (·.cap == s.maxFuel) then s.maxFuel
        else 0
      denied := decide (left ≤ 0) }

def lowerMaxFuel (ceiling : Int) (s : Budget) : Budget :=
  if 0 < s.maxFuel ∧ s.maxFuel ≤ ceiling then s else { s with maxFuel := ceiling }

/-- `EnterAllowance` on a context with a budget. -/
def enterAllowance (a : AllowanceCheck c) (s : Budget) : Except EnterError Bool × Budget :=
  match s.allowance.filter (·.name != a.name) with
  | some cur => (.error (.allowanceEntered cur.name), s)
  | none =>
    let p := a.pin s
    let s := { s with allowance := some p }
    (.ok p.denied, if 0 < p.cap then lowerMaxFuel p.cap s else s)

/-- What a request's scopes make of its envelope; the pin's member is the chassis's alone. -/
structure ScopeEdit (F : Type u) where
  run : Envelope F → Envelope F
  reserved : ∀ e, (run e).read ["_txc", "allowance"] = e.read ["_txc", "allowance"]

/-- An inlet's envelope, in which nothing was entered yet. -/
structure Ingress (F : Type u) where
  doc : Envelope F
  unstamped : doc.read ["_txc", "allowance"] = none

/-- The live budget of a request and the envelope its scope was entered with, which a suspension
stores. -/
structure Metered (F : Type u) where
  live : Budget
  env : Envelope F

inductive AllowanceEvent (c : Codec F)
  | enter (a : AllowanceCheck c)
  | charge (cost : Int) (stage : StageText)
  | hop (edit : ScopeEdit F) (seen : List Transition)
  | suspend (edit : ScopeEdit F)

def Metered.start (c : Codec F) (conf : BudgetConf) (i : Ingress F) : Metered F :=
  ⟨loadBudget c conf i.doc, i.doc⟩

/-- A resumed run has a budget of its own, loaded from the stored envelope. -/
def Metered.step (conf : BudgetConf) (st : Metered F) : AllowanceEvent c → Metered F
  | .enter a => { st with live := (enterAllowance a st.live).2 }
  | .charge cost stage => { st with live := (addFuel cost stage st.live).2 }
  | .hop edit seen => { st with env := syncBudgetToEnvelope c.num st.live seen (edit.run st.env) }
  | .suspend edit => { live := loadBudget c conf (edit.run st.env), env := edit.run st.env }

/-- `m` is no higher a ceiling than `n`. -/
def NotAbove (m n : Int) : Prop :=
  n ≤ 0 ∨ (0 < m ∧ m ≤ n)

instance (m n : Int) : Decidable (NotAbove m n) :=
  inferInstanceAs (Decidable (_ ∨ _))

def AllowanceEvent.isSuspend : AllowanceEvent c → Bool
  | .suspend _ => true
  | _ => false

/-- The ceiling does not rise, the name stays, and a restored run has the pin of the suspended
one. -/
def Metered.Keeps (st : Metered F) (ev : AllowanceEvent c) (st' : Metered F) : Prop :=
  NotAbove st'.live.maxFuel st.live.maxFuel ∧
    (∀ p, st.live.allowance = some p → st'.live.allowance.map (·.name) = some p.name) ∧
    (ev.isSuspend = true → st'.live.allowance = st.live.allowance)

structure AllowancePin.Wf (c : Codec F) (p : AllowancePin) : Prop where
  named : p.name ≠ ""
  limit : wrapInt p.limit = p.limit
  cap : wrapInt p.cap = p.cap
  resetsAt : p.resetsAt = "" ∨ c.parseTime p.resetsAt = some p.resetsAt

/-- The pin in force is the one the stored envelope was stamped with, not denied, and the ceiling in
force is the one it sets or, where it sets none, the configured one. -/
def Metered.Carried (c : Codec F) (conf : BudgetConf) (st : Metered F) : Prop :=
  st.env.read ["_txc", "allowance"] = none ∧ st.live.allowance = none ∨
    ∃ q : AllowancePin, q.Wf c ∧ st.env.read ["_txc", "allowance"] = some (q.envelope c.num) ∧
      st.live.allowance = some { q with denied := false, cap := max q.cap 0 } ∧
      (q.cap ≤ 0 → NotAbove conf.maxFuelPerRequest st.live.maxFuel)

def Metered.next (conf : BudgetConf) (st : Metered F) (ev : AllowanceEvent c) :
    Option (Metered F) :=
  some (st.step conf ev)

theorem enterAllowance_cases (a : AllowanceCheck c) (s : Budget) :
    (enterAllowance a s).2 = s ∨
      (∀ cur, s.allowance = some cur → cur.name = a.name) ∧
        (enterAllowance a s).2 =
          if 0 < (a.pin s).cap then lowerMaxFuel (a.pin s).cap
            { s with allowance := some (a.pin s) }
          else { s with allowance := some (a.pin s) } := by
  rw [enterAllowance]
  split
  · exact .inl rfl
  · next h =>
    refine .inr ⟨fun cur hcur => ?_, rfl⟩
    rw [hcur, Option.filter_eq_none_iff] at h
    simpa using h

theorem lowerMaxFuel_allowance (n : Int) (s : Budget) :
    (lowerMaxFuel n s).allowance = s.allowance := by
  rw [lowerMaxFuel]
  split <;> rfl

theorem AllowanceCheck.pin_name (a : AllowanceCheck c) (s : Budget) : (a.pin s).name = a.name := by
  rw [AllowanceCheck.pin]
  split <;> rfl

/-- The ceiling of a new pin is none, a lower one than the ceiling in force, or that one, set by an
earlier entry. -/
theorem AllowanceCheck.pin_cap (a : AllowanceCheck c) (s : Budget) :
    (a.pin s).cap = 0 ∨
      ((s.maxFuel ≤ 0 ∨ (a.pin s).cap < s.maxFuel) ∧ wrapInt (a.pin s).cap = (a.pin s).cap) ∨
      ∃ cur, s.allowance = some cur ∧ cur.cap = s.maxFuel ∧ (a.pin s).cap = s.maxFuel := by
  rw [AllowanceCheck.pin]
  split
  · exact .inl rfl
  · dsimp only
    split
    · exact .inl rfl
    · split
      · next h => exact .inr (.inl ⟨h, wrapInt_idem _⟩)
      · split
        · next h =>
          obtain ⟨cur, hcur, hcap⟩ := (Option.any_eq_true ..).mp h
          exact .inr (.inr ⟨cur, hcur, beq_iff_eq.mp hcap, rfl⟩)
        · exact .inl rfl

theorem AllowanceCheck.pin_wf (a : AllowanceCheck c) {s : Budget}
    (hs : ∀ cur, s.allowance = some cur → wrapInt cur.cap = cur.cap) : (a.pin s).Wf c := by
  have hcap : wrapInt (a.pin s).cap = (a.pin s).cap := by
    rcases a.pin_cap s with h | ⟨-, h⟩ | ⟨cur, hcur, h, h'⟩
    · rw [h]
      rfl
    · exact h
    · rw [h', ← h]
      exact hs cur hcur
  refine ⟨a.pin_name s ▸ a.named, ?_, hcap, ?_⟩
  · rw [AllowanceCheck.pin]
    split
    · rfl
    · exact a.fuel_int64
  · rw [AllowanceCheck.pin]
    split
    · exact .inl rfl
    · exact a.resetsAt_text

section Restore

variable {q : AllowancePin}

theorem strAt_envelope_name (c : Codec F) (q : AllowancePin) :
    c.strAt (some (q.envelope c.num)) ["name"] = q.name := by
  simp [Codec.strAt, Envelope.read, AllowancePin.envelope, c.str_str]

theorem intAt_envelope_fuel (h : q.Wf c) :
    c.intAt (some (q.envelope c.num)) ["fuel"] = q.limit := by
  rw [Codec.intAt, Envelope.read, AllowancePin.envelope]
  by_cases h0 : q.limit = 0
  · by_cases h1 : q.resetsAt = "" <;> by_cases h2 : q.cap = 0 <;>
      simp [h0, h1, h2, List.lookup_cons]
  · simp [h0, List.lookup_cons, c.int_num _ h.limit]

theorem strAt_envelope_resetsAt (c : Codec F) (q : AllowancePin) :
    c.strAt (some (q.envelope c.num)) ["resets_at"] = q.resetsAt := by
  rw [Codec.strAt, Envelope.read, AllowancePin.envelope]
  by_cases h1 : q.resetsAt = ""
  · by_cases h0 : q.limit = 0 <;> by_cases h2 : q.cap = 0 <;>
      simp [h0, h1, h2, List.lookup_cons]
  · by_cases h0 : q.limit = 0 <;> simp [h0, h1, List.lookup_cons, c.str_str]

theorem intAt_envelope_cap (h : q.Wf c) :
    c.intAt (some (q.envelope c.num)) ["cap"] = q.cap := by
  rw [Codec.intAt, Envelope.read, AllowancePin.envelope]
  by_cases h0 : q.limit = 0 <;> by_cases h1 : q.resetsAt = "" <;> by_cases h2 : q.cap = 0 <;>
    simp [h0, h1, h2, List.lookup_cons, c.int_num _ h.cap]

theorem envelope_inj {q' : AllowancePin} (h : q.Wf c) (h' : q'.Wf c)
    (heq : q.envelope c.num = q'.envelope c.num) : ∃ denied, q' = { q with denied := denied } := by
  have hname := strAt_envelope_name c q
  have hfuel := intAt_envelope_fuel h
  have hresets := strAt_envelope_resetsAt c q
  have hcap := intAt_envelope_cap h
  rw [heq] at hname hfuel hresets hcap
  rw [strAt_envelope_name] at hname
  rw [intAt_envelope_fuel h'] at hfuel
  rw [strAt_envelope_resetsAt] at hresets
  rw [intAt_envelope_cap h'] at hcap
  exact ⟨q'.denied, by cases q'; simp_all⟩

theorem restoreAllowance_stamped (h : q.Wf c) {s : Budget} {e : Envelope F}
    (hcap : 0 < q.cap → NotAbove q.cap s.maxFuel)
    (he : e.read ["_txc", "allowance"] = some (q.envelope c.num)) :
    restoreAllowance c s e = { s with
      maxFuel := if 0 < q.cap then q.cap else s.maxFuel
      allowance := some { q with denied := false, cap := max q.cap 0 } } := by
  have hobj : (q.envelope c.num).isObject = true := rfl
  have htime : (c.parseTime q.resetsAt).getD "" = q.resetsAt := by
    rcases h.resetsAt with h | h
    · rw [h, c.parseTime_empty]
      rfl
    · rw [h]
      rfl
  rw [restoreAllowance, he]
  simp only [hobj, strAt_envelope_name, intAt_envelope_fuel h, strAt_envelope_resetsAt, htime,
    intAt_envelope_cap h, h.named, Bool.true_eq_false, or_self, if_false]
  by_cases hpos : 0 < q.cap
  · have hle : s.maxFuel ≤ 0 ∨ q.cap ≤ s.maxFuel := (hcap hpos).imp_right And.right
    have hmax : max q.cap 0 = q.cap := by omega
    rw [if_pos ⟨hpos, hle⟩, if_pos ⟨hpos, hle⟩, if_pos hpos, hmax]
  · have hmax : max q.cap 0 = 0 := by omega
    rw [if_neg (fun h => hpos h.1), if_neg (fun h => hpos h.1), if_neg hpos, hmax]

theorem loadBudget_stamped (h : q.Wf c) {conf : BudgetConf} {e : Envelope F}
    (hcap : 0 < q.cap → NotAbove q.cap conf.maxFuelPerRequest)
    (he : e.read ["_txc", "allowance"] = some (q.envelope c.num)) :
    (loadBudget c conf e).maxFuel = (if 0 < q.cap then q.cap else conf.maxFuelPerRequest) ∧
      (loadBudget c conf e).allowance = some { q with denied := false, cap := max q.cap 0 } := by
  rw [loadBudget, restoreAllowance_stamped h hcap he]
  exact ⟨rfl, rfl⟩

theorem loadBudget_unstamped {conf : BudgetConf} {e : Envelope F}
    (he : e.read ["_txc", "allowance"] = none) :
    (loadBudget c conf e).maxFuel = conf.maxFuelPerRequest ∧
      (loadBudget c conf e).allowance = none := by
  rw [loadBudget, restoreAllowance, he]
  exact ⟨rfl, rfl⟩

end Restore

theorem NotAbove.refl (n : Int) : NotAbove n n := by
  rw [NotAbove]
  omega

theorem NotAbove.trans {l m n : Int} (h : NotAbove l m) (h' : NotAbove m n) : NotAbove l n := by
  rw [NotAbove] at *
  omega

/-- The ceiling in force is never above the configured one; it is the pin's where the pin set one;
and the stamp of the envelope is that of a pin whose ceiling was in force. -/
structure Metered.Inv (c : Codec F) (conf : BudgetConf) (st : Metered F) : Prop where
  ceiling : NotAbove st.live.maxFuel conf.maxFuelPerRequest
  unpinned : st.live.allowance = none → st.live.maxFuel = conf.maxFuelPerRequest
  pinned : ∀ p, st.live.allowance = some p → p.Wf c ∧ (0 < p.cap → st.live.maxFuel = p.cap)
  stamp : st.env.read ["_txc", "allowance"] = none ∨
    ∃ q : AllowancePin, st.env.read ["_txc", "allowance"] = some (q.envelope c.num) ∧ q.Wf c ∧
      (0 < q.cap → NotAbove q.cap conf.maxFuelPerRequest)

namespace Metered

variable {conf : BudgetConf} {st : Metered F}

theorem Inv.load {e : Envelope F} (h : e.read ["_txc", "allowance"] = none ∨
      ∃ q : AllowancePin, e.read ["_txc", "allowance"] = some (q.envelope c.num) ∧ q.Wf c ∧
        (0 < q.cap → NotAbove q.cap conf.maxFuelPerRequest)) :
    Inv c conf ⟨loadBudget c conf e, e⟩ := by
  rcases h with he | ⟨q, he, hq, hcap⟩
  · have hload : (loadBudget c conf e).maxFuel = conf.maxFuelPerRequest ∧
        (loadBudget c conf e).allowance = none := loadBudget_unstamped he
    obtain ⟨hmax, hpin⟩ := hload
    refine ⟨?_, fun _ => hmax, ?_, .inl he⟩
    · rw [hmax]
      exact .refl _
    · intro p hp
      rw [hpin] at hp
      cases hp
  · obtain ⟨hmax, hpin⟩ := loadBudget_stamped hq hcap he
    refine ⟨?_, ?_, ?_, .inr ⟨q, he, hq, hcap⟩⟩
    · rw [hmax]
      split
      · next hpos => exact hcap hpos
      · exact .refl _
    · intro hp
      rw [hpin] at hp
      cases hp
    · intro p hp
      rw [hpin, Option.some.injEq] at hp
      subst hp
      refine ⟨⟨hq.named, hq.limit, ?_, hq.resetsAt⟩, ?_⟩
      · dsimp only
        rcases Int.le_total q.cap 0 with hle | hle
        · rw [show max q.cap 0 = 0 by omega]
          rfl
        · rw [show max q.cap 0 = q.cap by omega]
          exact hq.cap
      · intro hpos
        dsimp only at hpos ⊢
        rw [hmax, if_pos (by omega)]
        omega

/-- An entry of the allowance a request is in, or of its first: a ceiling it sets is the one in
force, and otherwise the ceiling stays. -/
theorem enterAllowance_effect (a : AllowanceCheck c) {s : Budget} :
    (enterAllowance a s).2 = s ∨
      (∀ cur, s.allowance = some cur → cur.name = a.name) ∧
        (enterAllowance a s).2.allowance = some (a.pin s) ∧
        (0 < (a.pin s).cap → (enterAllowance a s).2.maxFuel = (a.pin s).cap ∧
          NotAbove (a.pin s).cap s.maxFuel) ∧
        ((a.pin s).cap ≤ 0 → (enterAllowance a s).2.maxFuel = s.maxFuel) := by
  rcases enterAllowance_cases a s with h | ⟨hname, h⟩
  · exact .inl h
  · refine .inr ⟨hname, ?_, ?_, ?_⟩
    · rw [h]
      split
      · rw [lowerMaxFuel_allowance]
      · rfl
    · intro hpos
      have hle : NotAbove (a.pin s).cap s.maxFuel := by
        rw [NotAbove]
        rcases a.pin_cap s with hc | ⟨hc, -⟩ | ⟨-, -, -, hc⟩ <;> omega
      refine ⟨?_, hle⟩
      rw [h, if_pos hpos, lowerMaxFuel]
      split
      · next hlow =>
        rw [NotAbove] at hle
        dsimp only at hlow ⊢
        omega
      · rfl
    · intro hpos
      rw [h, if_neg (by omega)]

theorem Inv.enter (h : Inv c conf st) (a : AllowanceCheck c) :
    Inv c conf (st.step conf (.enter a)) := by
  rcases enterAllowance_effect a (s := st.live) with heq | ⟨-, hpin, hset, hkeep⟩
  · have hstep : st.step conf (.enter a) = st := by rw [Metered.step, heq]
    rw [hstep]
    exact h
  · have hwf : (a.pin st.live).Wf c := a.pin_wf fun cur hcur => (h.pinned cur hcur).1.cap
    refine ⟨?_, ?_, ?_, h.stamp⟩
    · rw [Metered.step]
      dsimp only
      by_cases hpos : 0 < (a.pin st.live).cap
      · rw [(hset hpos).1]
        exact (hset hpos).2.trans h.ceiling
      · rw [hkeep (by omega)]
        exact h.ceiling
    · intro hnone
      rw [Metered.step] at hnone
      dsimp only at hnone
      rw [hpin] at hnone
      cases hnone
    · intro p hp
      rw [Metered.step] at hp
      dsimp only at hp
      rw [hpin, Option.some.injEq] at hp
      subst hp
      exact ⟨hwf, fun hpos => (hset hpos).1⟩

theorem addFuel_live (cost : Int) (stage : StageText) (s : Budget) :
    (addFuel cost stage s).2 = { s with fuel := wrapInt (s.fuel + cost) } := by
  rfl

theorem Inv.step (h : Inv c conf st) (ev : AllowanceEvent c) : Inv c conf (st.step conf ev) := by
  cases ev with
  | enter a => exact h.enter a
  | charge cost stage =>
    rw [Metered.step, addFuel_live]
    exact ⟨h.ceiling, h.unpinned, h.pinned, h.stamp⟩
  | hop edit seen =>
    refine ⟨h.ceiling, h.unpinned, h.pinned, ?_⟩
    rw [Metered.step]
    dsimp only
    rw [read_sync_allowance]
    cases hpin : st.live.allowance with
    | none =>
      dsimp only
      rw [edit.reserved]
      exact h.stamp
    | some p =>
      obtain ⟨hwf, hmax⟩ := h.pinned p hpin
      exact .inr ⟨p, rfl, hwf, fun hpos => hmax hpos ▸ h.ceiling⟩
  | suspend edit =>
    apply Inv.load
    rw [edit.reserved]
    exact h.stamp

theorem keeps_of_not_suspend (st : Metered F) {ev : AllowanceEvent c}
    (hev : ev.isSuspend = false) : st.Keeps ev (st.step conf ev) := by
  refine ⟨?_, ?_, fun h => absurd h (by simp [hev])⟩
  · cases ev with
    | enter a =>
      rcases enterAllowance_effect a (s := st.live) with heq | ⟨-, -, hset, hkeep⟩
      · rw [Metered.step, heq]
        exact .refl _
      · rw [Metered.step]
        dsimp only
        by_cases hpos : 0 < (a.pin st.live).cap
        · rw [(hset hpos).1]
          exact (hset hpos).2
        · rw [hkeep (by omega)]
          exact .refl _
    | charge cost stage =>
      rw [Metered.step, addFuel_live]
      exact .refl _
    | hop edit seen => exact .refl _
    | suspend edit => cases hev
  · intro p hp
    cases ev with
    | enter a =>
      rcases enterAllowance_effect a (s := st.live) with heq | ⟨hname, hpin, -, -⟩
      · rw [Metered.step, heq, hp]
        rfl
      · rw [Metered.step]
        dsimp only
        rw [hpin, Option.map_some, a.pin_name, hname p hp]
    | charge cost stage =>
      rw [Metered.step, addFuel_live]
      simp [hp]
    | hop edit seen => simp [Metered.step, hp]
    | suspend edit => cases hev

theorem Inv.keeps_suspend_iff (h : Inv c conf st) (edit : ScopeEdit F) :
    st.Keeps (c := c) (.suspend edit) (st.step conf (.suspend edit : AllowanceEvent c)) ↔
      st.Carried c conf := by
  rw [Metered.step, Metered.Keeps, Metered.Carried]
  rcases h.stamp with he | ⟨q, he, hq, hcap⟩
  · have he' : (edit.run st.env).read ["_txc", "allowance"] = none := by rw [edit.reserved, he]
    have hload : (loadBudget c conf (edit.run st.env)).maxFuel = conf.maxFuelPerRequest ∧
        (loadBudget c conf (edit.run st.env)).allowance = none := loadBudget_unstamped he'
    obtain ⟨hmax, hpin⟩ := hload
    rw [hmax, hpin, he]
    constructor
    · rintro ⟨-, -, hlive⟩
      exact .inl ⟨rfl, (hlive rfl).symm⟩
    · rintro (⟨-, hlive⟩ | ⟨_, -, hstamp, -⟩)
      · refine ⟨?_, ?_, fun _ => hlive.symm⟩
        · rw [h.unpinned hlive]
          exact .refl _
        · intro p hp
          rw [hlive] at hp
          cases hp
      · cases hstamp
  · have he' : (edit.run st.env).read ["_txc", "allowance"] = some (q.envelope c.num) := by
      rw [edit.reserved, he]
    obtain ⟨hmax, hpin⟩ := loadBudget_stamped hq hcap he'
    rw [hmax, hpin, he]
    constructor
    · rintro ⟨hceil, -, hlive⟩
      refine .inr ⟨q, hq, rfl, (hlive rfl).symm, fun hle => ?_⟩
      rwa [if_neg (by omega)] at hceil
    · rintro (⟨hstamp, -⟩ | ⟨q', hq', hstamp, hlive, hceil⟩)
      · cases hstamp
      · obtain ⟨d, rfl⟩ := envelope_inj hq hq' (Option.some.inj hstamp)
        refine ⟨?_, ?_, fun _ => hlive.symm⟩
        · split
          · next hpos =>
            have hcap' := (h.pinned _ hlive).2 (by dsimp only; omega)
            rw [hcap']
            dsimp only
            rw [show max q.cap 0 = q.cap by omega]
            exact .refl _
          · next hpos => exact hceil (by dsimp only; omega)
        · intro p hp
          rw [hlive, Option.some.injEq] at hp
          subst hp
          rfl

theorem Inv.keeps_iff (h : Inv c conf st) (ev : AllowanceEvent c) :
    st.Keeps ev (st.step conf ev) ↔ (ev.isSuspend = true → st.Carried c conf) := by
  cases hev : ev.isSuspend with
  | false => simp [keeps_of_not_suspend st hev]
  | true =>
    cases ev with
    | suspend edit => simp [h.keeps_suspend_iff edit]
    | enter a | charge cost stage | hop edit seen => cases hev

end Metered

/-- Nothing of an allowance is lost along a run exactly when every suspension of it finds the pin in
force stamped on the envelope, not denied, and carrying the ceiling in force. -/
theorem allowance_kept_iff_carried (c : Codec F) (conf : BudgetConf) (i : Ingress F)
    (evs : List (AllowanceEvent c)) :
    Along (Metered.next conf) (fun st ev => st.Keeps ev (st.step conf ev)) (.start c conf i) evs ↔
      Along (Metered.next conf) (fun st ev => ev.isSuspend = true → st.Carried c conf)
        (.start c conf i) evs := by
  refine Along.congr_invariant ?_ ?_ (Metered.Inv.load (.inl i.unstamped)) evs
  · rintro st ev st' h hnext
    rw [Metered.next, Option.some.injEq] at hnext
    exact hnext ▸ h.step ev
  · exact fun st ev h => h.keeps_iff ev

def spentAllowance : AllowanceCheck plainCodec where
  name := "crawl"
  defined := true
  fuel := 100
  used := 100
  resetsAt := "2026-02-01T00:00:00Z"
  named := by decide
  fuel_int64 := by decide
  resetsAt_text := .inr (by decide)

/-- A request that entered a spent allowance is no longer refused once it was suspended. -/
theorem allowance_denial_lost :
    ¬ Along (Metered.next defaultConf) (fun st ev => st.Keeps ev (st.step defaultConf ev))
      (.start plainCodec defaultConf
        ⟨some (.obj [("_txc", .obj [("tenant", .str "acme")])]), by decide⟩)
      [.enter spentAllowance, .hop ⟨id, fun _ => rfl⟩ [], .suspend ⟨id, fun _ => rfl⟩] := by
  rintro ⟨-, h⟩
  obtain ⟨⟨-, -, hpin⟩, -⟩ := (h _ rfl).2 _ rfl
  revert hpin
  decide

end ThanksComputer.Scope
