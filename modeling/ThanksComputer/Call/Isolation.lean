import Mathlib.Algebra.BigOperators.Group.List.Basic
import Mathlib.Tactic.IntervalCases
import ThanksComputer.Call.Frames
import ThanksComputer.Lib.Runs

/-! What a call leaves of its caller, over every interleaving of the frames of a request. -/

universe u

namespace ThanksComputer.Call

open Lib (wrapInt)
open Ops Scope Guard Lib.Assoc Lib.Runs

variable {F D : Type u}

/-- The stacks of the table that `LIKE` finds under this name are spelled as it. -/
def Spelled (t : List Row) (stack : StageText) : Prop :=
  ∀ r ∈ t, like r.stack (segments stack) = true → r.stack = segments stack

instance (t : List Row) (stack : StageText) : Decidable (Spelled t stack) :=
  inferInstanceAs (Decidable (∀ r ∈ t, _))

def OfStack (stack stage : StageText) : Prop :=
  ∃ ds, stageParts stage = some (stack, ds)

def intoKeys (W : Site F D) (into : PathText) : List String :=
  (intoSegs W.G (callInto W.G into)).1.name :: segNames (intoSegs W.G (callInto W.G into)).2

/-- The frame an answer of a call is written to, and where. -/
def answered (W : Site F D) (st : State F) : Event F → Option (Nat × List String)
  | .call i op _ _ _ => some (i, intoKeys W op.into)
  | .callReturn i _ _ => (st.frames[i]?).map fun fr => (fr.caller, intoKeys W fr.into)
  | _ => none

/-- Up to its return, a call finds its caller's countdown and history as it left them; its charges
are on the request's meter; its stages are of the called stack, in the tenant of the call; its
answer changes the caller's envelope at `into` alone, and no frame's events change another's
envelope. -/
structure CallsKept (W : Site F D) (st : State F) (ev : Event F) (st' : State F) : Prop where
  counters : ∀ (k : Nat) (fr' : Frame F), st'.frames[k]? = some fr' → fr'.isCall = true →
    (∀ fr : Frame F, st.frames[k]? = some fr → fr.returned = false) →
      st'.counters fr'.caller = fr'.found
  meter : st'.budget.fuel = wrapInt (st'.opening + (st'.frames.map Frame.spent).sum)
  stages : ∀ fr' ∈ st'.frames, fr'.isCall = true →
    ∀ s ∈ fr'.stages, s.1 = fr'.home ∧ OfStack fr'.stack s.2
  answer : ∀ (j : Nat) path (fr fr' : Frame F), answered W st ev = some (j, path) →
    st.frames[j]? = some fr →
    st'.frames[j]? = some fr' → OnlyAt W.L path fr.env fr'.env
  others : ∀ (j : Nat) (fr fr' : Frame F), j ≠ ev.frame → (answered W st ev).map Prod.fst ≠ some j →
    st.frames[j]? = some fr → st'.frames[j]? = some fr' → fr'.env = fr.env

def CallsHold (W : Site F D) (st : State F) (ev : Event F) : Prop :=
  ∀ st', st.step W ev = some st' → CallsKept W st ev st'

/-- The result lands in the envelope of the frame, if its scope still runs. -/
def LandsIn (W : Site F D) (st : State F) (i : Nat) (into : PathText) : Prop :=
  ∀ (fr : Frame F) stage ops next, st.frames[i]? = some fr →
    fr.position = .running stage ops next →
      Lands W.L (intoSegs W.G (callInto W.G into)).1 (intoSegs W.G (callInto W.G into)).2 fr.env

/-- A called stack is spelled as its rows are, a callee is not handed to another tenant, what it
answers with has its numbers in range, and the result lands. -/
def CallMeets (W : Site F D) (st : State F) : Event F → Prop
  | .call i op _ _ _ =>
    ∀ stack scope, callTarget op.exec = some (stack, scope) →
      match calledStack op stack, op.refused with
      | .ok called, none =>
        ∀ fr : Frame F, st.frames[i]? = some fr → Spelled (W.table fr.tenant) called
      | _, _ => LandsIn W st i op.into
  | .advance i _ left _ _ =>
    ∀ fr : Frame F, st.frames[i]? = some fr → fr.isCall = true →
      fr.tenant ≠ systemTenantSlug ∨ tenantAt W.codec (envelopeOf left) ∈ ["", systemTenantSlug] ∨
        tenantAt W.codec (envelopeOf left) ∉ W.tenants
  | .callReturn i _ _ =>
    ∀ fr : Frame F, st.frames[i]? = some fr → LandsIn W st fr.caller fr.into ∧
      ∀ j, fr.answer = .envelope (some j) → j.finite W.L.fin = true
  | _ => True

section Stack

theorem mem_intercalate {α : Type u} {sep : List α} {ls : List (List α)} {a : α}
    (h : a ∈ sep.intercalate ls) : a ∈ sep ∨ ∃ l ∈ ls, a ∈ l := by
  rw [List.intercalate] at h
  induction ls with
  | nil => cases h
  | cons l ls ih =>
    cases ls with
    | nil => exact .inr ⟨l, List.mem_cons_self, by simpa using h⟩
    | cons l' ls =>
      rw [List.intersperse_cons_cons, List.flatten_cons, List.flatten_cons] at h
      rcases List.mem_append.mp h with h | h
      · exact .inr ⟨l, List.mem_cons_self, h⟩
      · rcases List.mem_append.mp h with h | h
        · exact .inl h
        · rcases ih h with h | ⟨l'', hl'', h⟩
          · exact .inl h
          · exact .inr ⟨l'', List.mem_cons_of_mem _ hl'', h⟩

theorem validStack_mem {stack : StageText} (h : validStack stack = true) {c : Char}
    (hc : c ∈ stack) : c = '/' ∨ segChar c = true := by
  rw [validStack, Bool.and_eq_true, List.all_eq_true] at h
  have hsplit : c ∈ ['/'].intercalate (stack.splitOn '/') := by
    rw [List.intercalate_splitOn]
    exact hc
  rcases mem_intercalate hsplit with hc | ⟨seg, hseg, hc⟩
  · exact .inl (List.mem_singleton.mp hc)
  · have hvalid := h.2 seg hseg
    rw [validSegment, Bool.and_eq_true, List.all_eq_true] at hvalid
    exact .inr (hvalid.2 c hc)

theorem validStack_line {stack : StageText} (h : validStack stack = true) : '\n' ∉ stack := by
  intro hc
  rcases validStack_mem h hc with hc | hc <;> revert hc <;> decide

theorem validStack_wildcard {stack : StageText} (h : validStack stack = true) :
    wildcard stack = false := by
  rw [wildcard, ← Bool.not_eq_true, List.contains_iff_mem]
  intro hc
  rcases validStack_mem h hc with hc | hc <;> revert hc <;> decide

theorem ofStack_stageAt {stack : StageText} (h : validStack stack = true) (n : Nat) :
    OfStack stack (stageAt stack n) :=
  ⟨_, stageParts_stageAt (validStack_line h) n⟩

theorem stageParse_of_ofStack {stack stage stack' : StageText} {n : Nat} (h : OfStack stack stage)
    (hparse : stageParse stage = some (stack', n)) : stack' = stack := by
  obtain ⟨ds, hds⟩ := h
  obtain ⟨ds', hds'⟩ := stageParts_of_stageParse hparse
  rw [hds, Option.some.injEq, Prod.mk.injEq] at hds'
  exact hds'.1.symm

theorem stack_of_lookup {t : List Row} {stack stage : StageText} (hvalid : validStack stack = true)
    (hspelled : Spelled t stack) (hstage : OfStack stack stage) {rows : List Row}
    (hrows : lookupStage t false stage = some rows) {r : Row} (hr : r ∈ rows) :
    r.stack = segments stack := by
  rw [lookupStage, Option.map_eq_some_iff] at hrows
  obtain ⟨⟨stack', n⟩, hparse, rfl⟩ := hrows
  obtain rfl := stageParse_of_ofStack hstage hparse
  rw [lookupStack, validStack_wildcard hvalid] at hr
  simp only [Bool.false_eq_true, if_false] at hr
  rw [lookupOpsExact_eq] at hr
  obtain ⟨hmem, hlike⟩ := mem_rowsOf.mp (mem_floorRows hr).2
  exact hspelled r hmem hlike

theorem opStage_eq {stack : StageText} {r : Row} (h : r.stack = segments stack) :
    opStage r = stageAt stack r.scope := by
  rw [opStage, h, stackText_segments]

end Stack

section Charges

/-- What a charge inside a call leaves of the request's own countdown and history. -/
def Inner (s s' : Budget) : Prop :=
  s.call.isSome = true → s'.ttl = s.ttl ∧ s'.seen = s.seen ∧ s'.call.isSome = true

theorem Inner.trans {s s' s'' : Budget} (h : Inner s s') (h' : Inner s' s'') : Inner s s'' := by
  intro hcall
  obtain ⟨httl, hseen, hcall'⟩ := h hcall
  obtain ⟨httl', hseen', hcall''⟩ := h' hcall'
  exact ⟨httl'.trans httl, hseen'.trans hseen, hcall''⟩

theorem inner_setCountdown (s : Budget) (n : Int) : Inner s (s.setCountdown n) := by
  cases hcall : s.call <;> simp [Inner, Budget.setCountdown, hcall]

theorem inner_burn (s : Budget) (cost : Int) : Inner s (s.burn cost) :=
  fun hcall => ⟨rfl, rfl, hcall⟩

theorem inner_transit (s : Budget) (fromStage toStage : StageText) :
    Inner s (s.transit fromStage toStage) := by
  rw [Budget.transit]
  dsimp only
  split <;> cases hcall : s.call <;> simp [Inner, Budget.remember, Budget.burn, hcall]

theorem enterFrame_state (parent stage : StageText) (s : Budget) :
    (enterFrame parent stage s).2 =
      if 0 < wrapInt (wrapInt (s.countdown - 1) + 1) ∧ wrapInt (s.countdown - 1) ≤ 0 then
        s.setCountdown (wrapInt (s.countdown - 1))
      else
        let s₁ := (s.setCountdown (wrapInt (s.countdown - 1))).burn fuelCostScopeEnter
        match overBudget s₁ s₁.fuel stage with
        | .error _ => s₁
        | .ok _ => s.arrive parent stage := by
  rw [enterFrame, Charge.bind_run, decrementTTL_run]
  by_cases hexh : 0 < wrapInt (wrapInt (s.countdown - 1) + 1) ∧ wrapInt (s.countdown - 1) ≤ 0
  · simp only [if_pos hexh]
  · simp only [if_neg hexh]
    rw [Charge.bind_run, addFuel_run]
    cases hover : overBudget _ _ stage with
    | error e => rfl
    | ok _ =>
      dsimp only
      rw [Budget.arrive]
      split
      · rfl
      · exact chargeTransition_state parent stage _

theorem enterFrame_inner (parent stage : StageText) (s : Budget) :
    Inner s (enterFrame parent stage s).2 := by
  have hset := inner_setCountdown s (wrapInt (s.countdown - 1))
  have hburn := hset.trans (inner_burn _ fuelCostScopeEnter)
  rw [enterFrame_state]
  split
  · exact hset
  · dsimp only
    split
    · exact hburn
    · rw [Budget.arrive]
      split
      · exact hburn
      · exact hburn.trans (inner_transit _ parent stage)

@[simp] theorem fuel_setCountdown (s : Budget) (n : Int) : (s.setCountdown n).fuel = s.fuel := by
  rw [Budget.setCountdown]
  split <;> rfl

@[simp] theorem fuel_burn (s : Budget) (cost : Int) :
    (s.burn cost).fuel = wrapInt (s.fuel + cost) := rfl

theorem fuel_transit (s : Budget) (fromStage toStage : StageText) :
    (s.transit fromStage toStage).fuel =
      if s.history.contains (transition fromStage toStage) then
        wrapInt (s.fuel + fuelCostRepeatTransition)
      else s.fuel := by
  have hremember : (s.remember (transition fromStage toStage)).fuel = s.fuel := by
    rw [Budget.remember]
    split <;> rfl
  rw [Budget.transit]
  dsimp only
  split
  · rw [fuel_burn]
    exact congrArg (fun n => wrapInt (n + fuelCostRepeatTransition)) hremember
  · exact hremember

theorem enterFrame_fuel (parent stage : StageText) {s : Budget} (h : wrapInt s.fuel = s.fuel) :
    (enterFrame parent stage s).2.fuel = wrapInt (s.fuel + enterCost parent stage s) := by
  rw [enterFrame_state, enterCost, Budget.arrive]
  split
  · rw [fuel_setCountdown, Int.add_zero, h]
  · have hpaid : ((s.setCountdown (wrapInt (s.countdown - 1))).burn fuelCostScopeEnter).fuel =
        wrapInt (s.fuel + fuelCostScopeEnter) := by rw [fuel_burn, fuel_setCountdown]
    generalize (s.setCountdown (wrapInt (s.countdown - 1))).burn fuelCostScopeEnter = s₁ at hpaid ⊢
    dsimp only
    cases overBudget s₁ s₁.fuel stage with
    | error e => exact hpaid
    | ok _ =>
      cases parent with
      | nil => exact hpaid
      | cons c cs =>
        simp only [List.isEmpty_cons, Bool.false_eq_true, if_false, fuel_transit, Bool.not_false,
          Bool.true_and, hpaid]
        split
        · rw [wrapInt_add, Int.add_assoc]
        · rfl

end Charges

section Frames

structure FrameOK (W : Site F D) (fr : Frame F) : Prop where
  valid : validStack fr.stack = true
  spelled : Spelled (W.table fr.home) fr.stack
  tenant : fr.tenant = fr.home
  stages : ∀ s ∈ fr.stages, s.1 = fr.home ∧ OfStack fr.stack s.2
  entering : ∀ parent stage, fr.position = .entering parent stage → OfStack fr.stack stage
  running : ∀ stage ops next, fr.position = .running stage ops next →
    ∃ n, stageParse stage = some (fr.stack, n)

/-- The callers of the calls that are out stand in a scope, with the counters the calls found. -/
structure Inv (W : Site F D) (st : State F) : Prop where
  root : ∀ (k : Nat) (fr : Frame F), st.frames[k]? = some fr → fr.isCall = false → k = 0
  meter : st.budget.fuel = wrapInt (st.opening + (st.frames.map Frame.spent).sum)
  frame : ∀ fr ∈ st.frames, fr.isCall = true → FrameOK W fr
  caller : ∀ fr ∈ st.frames, fr.isCall = true → fr.returned = false →
    (∃ c, st.frames[fr.caller]? = some c ∧ c.position.isEntering = false) ∧
      st.counters fr.caller = fr.found

/-- One frame has changed, and the meter and the request's counters with it as they may. -/
structure Moved (st st' : State F) (i : Nat) (fr fr' : Frame F) : Prop where
  there : st.frames[i]? = some fr
  frames : st'.frames = st.frames.set i fr'
  opening : st'.opening = st.opening
  fuel : st'.budget.fuel = wrapInt (st.budget.fuel + (fr'.spent - fr.spent))
  depth : fr'.depth = fr.depth
  caller : fr'.caller = fr.caller
  found : fr'.found = fr.found
  returned : fr'.returned = false → fr.returned = false
  outer : fr.isCall = true → st'.budget.ttl = st.budget.ttl ∧ st'.budget.seen = st.budget.seen
  still : fr.position.isEntering = false →
    st'.budget.ttl = st.budget.ttl ∧ st'.budget.seen = st.budget.seen ∧ fr'.own = fr.own
  waits : fr'.position.isEntering = true → fr.position.isEntering = true ∨ st.waits i = false

theorem counters_of_some {st : State F} {k : Nat} {fr : Frame F} (h : st.frames[k]? = some fr) :
    st.counters k =
      if fr.isCall then (fr.own.ttl, fr.own.seen) else (st.budget.ttl, st.budget.seen) := by
  rw [State.counters, h]
  cases hcall : fr.isCall <;>
    simp [State.budgetFor, Budget.countdown, Budget.history, hcall]

theorem isCall_congr {fr fr' : Frame F} (h : fr'.depth = fr.depth) : fr'.isCall = fr.isCall := by
  rw [Frame.isCall, Frame.isCall, h]

variable {W : Site F D} {st st' : State F} {i : Nat} {fr fr' : Frame F}

theorem Moved.get_self (h : Moved st st' i fr fr') : st'.frames[i]? = some fr' := by
  rw [h.frames, List.getElem?_set_self (List.getElem?_eq_some_iff.mp h.there).1]

theorem Moved.get_of_ne (h : Moved st st' i fr fr') {k : Nat} (hk : k ≠ i) :
    st'.frames[k]? = st.frames[k]? := by
  rw [h.frames, List.getElem?_set_ne (Ne.symm hk)]

theorem Moved.get_cases (h : Moved st st' i fr fr') {k : Nat} {g : Frame F}
    (hg : st'.frames[k]? = some g) : g = fr' ∨ st.frames[k]? = some g := by
  by_cases hk : k = i
  · subst hk
    rw [h.get_self, Option.some.injEq] at hg
    exact .inl hg.symm
  · rw [h.get_of_ne hk] at hg
    exact .inr hg

theorem Moved.counters (h : Moved st st' i fr fr') (hinv : Inv W st) {k : Nat} {c : Frame F}
    (hc : st.frames[k]? = some c) (hpos : c.position.isEntering = false) :
    st'.counters k = st.counters k := by
  by_cases hk : k = i
  · subst hk
    obtain rfl : fr = c := by
      have := h.there
      rw [hc, Option.some.injEq] at this
      exact this.symm
    obtain ⟨httl, hseen, hown⟩ := h.still hpos
    rw [counters_of_some h.get_self, counters_of_some hc, isCall_congr h.depth, httl, hseen, hown]
  · have hc' : st'.frames[k]? = some c := by rw [h.get_of_ne hk, hc]
    rw [counters_of_some hc', counters_of_some hc]
    split
    · rfl
    · next hroot =>
      have hk0 : k = 0 := hinv.root k c hc (by simpa using hroot)
      have hcall : fr.isCall = true := by
        by_contra hnot
        exact hk (hk0.trans (hinv.root i fr h.there (by simpa using hnot)).symm)
      rw [(h.outer hcall).1, (h.outer hcall).2]

theorem Moved.inv (h : Moved st st' i fr fr') (hinv : Inv W st)
    (hok : fr'.isCall = true → FrameOK W fr → FrameOK W fr') : Inv W st' where
  root k g hg hroot := by
    by_cases hk : k = i
    · subst hk
      rw [h.get_self, Option.some.injEq] at hg
      subst hg
      exact hinv.root k fr h.there (by rw [← isCall_congr h.depth, hroot])
    · rw [h.get_of_ne hk] at hg
      exact hinv.root k g hg hroot
  meter := by
    obtain ⟨hi, hfr⟩ := List.getElem?_eq_some_iff.mp h.there
    have hsum : (st'.frames.map Frame.spent).sum =
        (st.frames.map Frame.spent).sum + (fr'.spent - fr.spent) := by
      rw [h.frames, List.map_set, List.sum_set', dif_pos (by simpa using hi)]
      simp only [List.getElem_map, hfr]
      omega
    rw [h.fuel, h.opening, hinv.meter, wrapInt_add, hsum, Int.add_assoc]
  frame g hg hcall := by
    rw [h.frames] at hg
    rcases List.mem_or_eq_of_mem_set hg with hg | rfl
    · exact hinv.frame g hg hcall
    · exact hok hcall (hinv.frame fr (List.mem_of_getElem? h.there) (isCall_congr h.depth ▸ hcall))
  caller g hg hcall hret := by
    -- The frame that moved has the caller and the find it had, so one argument does for all.
    obtain ⟨g₀, hg₀, hcall₀, hret₀, hcaller, hfound⟩ : ∃ g₀ ∈ st.frames, g₀.isCall = true ∧
        g₀.returned = false ∧ g.caller = g₀.caller ∧ g.found = g₀.found := by
      rw [h.frames] at hg
      rcases List.mem_or_eq_of_mem_set hg with hg | rfl
      · exact ⟨g, hg, hcall, hret, rfl, rfl⟩
      · exact ⟨fr, List.mem_of_getElem? h.there, isCall_congr h.depth ▸ hcall, h.returned hret,
          h.caller, h.found⟩
    obtain ⟨⟨c, hc, hpos⟩, hcounters⟩ := hinv.caller g₀ hg₀ hcall₀ hret₀
    rw [hcaller, hfound, h.counters hinv hc hpos]
    refine ⟨?_, hcounters⟩
    by_cases hk : g₀.caller = i
    · refine ⟨fr', hk ▸ h.get_self, ?_⟩
      by_contra hent
      rcases h.waits (by simpa using hent) with hfr | hwaits
      · have hthere := h.there
        rw [← hk, hc, Option.some.injEq] at hthere
        rw [hthere, hfr] at hpos
        cases hpos
      · rw [State.waits, List.any_eq_false] at hwaits
        exact hwaits g₀ hg₀ (by simp [hcall₀, hret₀, hk])
    · exact ⟨c, by rw [h.get_of_ne hk, hc], hpos⟩

theorem Inv.int64 (hinv : Inv W st) : wrapInt st.budget.fuel = st.budget.fuel := by
  rw [hinv.meter, wrapInt_idem]

theorem Moved.refl (hinv : Inv W st) (h : st.frames[i]? = some fr) : Moved st st i fr fr where
  there := h
  frames := by
    obtain ⟨hi, rfl⟩ := List.getElem?_eq_some_iff.mp h
    rw [List.set_getElem_self]
  opening := rfl
  fuel := by rw [Int.sub_self, Int.add_zero, hinv.int64]
  depth := rfl
  caller := rfl
  found := rfl
  returned := id
  outer _ := ⟨rfl, rfl⟩
  still _ := ⟨rfl, rfl, rfl⟩
  waits := .inl

structure SameAccount (fr fr' : Frame F) : Prop where
  depth : fr'.depth = fr.depth
  caller : fr'.caller = fr.caller
  found : fr'.found = fr.found
  own : fr'.own = fr.own
  spent : fr'.spent = fr.spent
  returned : fr'.returned = false → fr.returned = false

theorem Moved.setFrame {st₁ : State F} {fr₁ : Frame F} (h : Moved st st₁ i fr fr₁)
    (hsame : SameAccount fr₁ fr')
    (hwaits : fr'.position.isEntering = true → fr.position.isEntering = true ∨ st.waits i = false) :
    Moved st (st₁.setFrame i fr') i fr fr' where
  there := h.there
  frames := by rw [State.setFrame, h.frames, List.set_set]
  opening := h.opening
  fuel := by rw [hsame.spent]; exact h.fuel
  depth := hsame.depth.trans h.depth
  caller := hsame.caller.trans h.caller
  found := hsame.found.trans h.found
  returned hret := h.returned (hsame.returned hret)
  outer := h.outer
  still hpos := by
    obtain ⟨httl, hseen, hown⟩ := h.still hpos
    exact ⟨httl, hseen, hsame.own.trans hown⟩
  waits := hwaits

theorem moved_charge {α : Type} {c : Charge α} {cost : Int} (h : st.frames[i]? = some fr)
    (hinner : Inner (st.budgetFor fr) (c (st.budgetFor fr)).2)
    (hfuel : (c (st.budgetFor fr)).2.fuel = wrapInt (st.budget.fuel + cost))
    (hstill : fr.position.isEntering = false →
      (c (st.budgetFor fr)).2 = (st.budgetFor fr).burn cost) :
    Moved st (st.charge i fr c cost).2.2 i fr (st.charge i fr c cost).2.1 where
  there := h
  frames := rfl
  opening := rfl
  fuel := by
    rw [State.charge]
    dsimp only [State.setFrame]
    rw [hfuel]
    congr 2
    omega
  depth := rfl
  caller := rfl
  found := rfl
  returned := id
  outer hcall := by
    obtain ⟨httl, hseen, -⟩ := hinner (by simp [State.budgetFor, hcall])
    exact ⟨httl, hseen⟩
  still hpos := by
    rw [State.charge]
    dsimp only [State.setFrame]
    rw [hstill hpos]
    refine ⟨rfl, rfl, ?_⟩
    cases hcall : fr.isCall <;> simp [State.budgetFor, Budget.burn, hcall]
  waits := .inl

theorem FrameOK.ended (h : FrameOK W fr) (hstack : fr'.stack = fr.stack)
    (hhome : fr'.home = fr.home) (htenant : fr'.tenant = fr.tenant)
    (hstages : fr'.stages = fr.stages) (hpos : fr'.position = .ended) : FrameOK W fr' where
  valid := by rw [hstack]; exact h.valid
  spelled := by rw [hstack, hhome]; exact h.spelled
  tenant := by rw [htenant, hhome]; exact h.tenant
  stages := by rw [hstages, hhome, hstack]; exact h.stages
  entering parent stage he := by rw [hpos] at he; cases he
  running stage ops next hr := by rw [hpos] at hr; cases hr

theorem failWith_eq (fr : Frame F) (v : Verdict) (message : String) :
    ∃ f, fr.failWith v message = { fr with fail := f } := by
  rw [Frame.failWith]
  split
  · exact ⟨_, rfl⟩
  · exact ⟨fr.fail, rfl⟩

def Steps (W : Site F D) (st st' : State F) (i : Nat) (fr : Frame F) : Prop :=
  ∃ fr', Moved st st' i fr fr' ∧ (fr'.isCall = true → FrameOK W fr → FrameOK W fr')

theorem FrameOK.run (h : FrameOK W fr) {parent stage : StageText}
    (hpos : fr.position = .entering parent stage) {rows next : List Row} {keep : Row → Bool}
    (hrows : lookupStage (W.table fr.tenant) false stage = some rows)
    (hstack : fr'.stack = fr.stack) (hhome : fr'.home = fr.home) (htenant : fr'.tenant = fr.tenant)
    (hran : fr'.position =
      .running (((rows.filter keep).getLast?.map opStage).getD stage) (rows.filter keep) next)
    (hstages : fr'.stages =
      fr.stages ++ (stage :: (rows.filter keep).map opStage).map (fr.tenant, ·)) :
    FrameOK W fr' := by
  have hof : OfStack fr.stack stage := h.entering parent stage hpos
  have hops : ∀ r ∈ rows.filter keep, stageParse (opStage r) = some (fr.stack, r.scope) := by
    intro r hr
    have hown : r.stack = segments fr.stack :=
      stack_of_lookup h.valid h.spelled hof (h.tenant ▸ hrows) (List.mem_of_mem_filter hr)
    rw [opStage_eq hown]
    exact stageParse_stageAt (validStack_line h.valid) r.scope_le
  refine ⟨?_, ?_, ?_, ?_, ?_, ?_⟩
  · rw [hstack]
    exact h.valid
  · rw [hstack, hhome]
    exact h.spelled
  · rw [htenant, hhome]
    exact h.tenant
  · intro s hs
    rw [hstages] at hs
    rw [hhome, hstack]
    rcases List.mem_append.mp hs with hs | hs
    · exact h.stages s hs
    · obtain ⟨t, ht, rfl⟩ := List.mem_map.mp hs
      refine ⟨h.tenant, ?_⟩
      rcases List.mem_cons.mp ht with rfl | ht
      · exact hof
      · obtain ⟨r, hr, rfl⟩ := List.mem_map.mp ht
        exact stageParts_of_stageParse (hops r hr)
  · intro parent' stage' he
    rw [hran] at he
    cases he
  · intro ran ops next' hr
    rw [hran, Position.running.injEq] at hr
    rw [← hr.1, hstack]
    cases hlast : (rows.filter keep).getLast? with
    | none =>
      rw [lookupStage, Option.map_eq_some_iff] at hrows
      obtain ⟨⟨stack, n⟩, hparse, -⟩ := hrows
      obtain rfl := stageParse_of_ofStack hof hparse
      exact ⟨n, hparse⟩
    | some r => exact ⟨r.scope, hops r (List.mem_of_getLast? hlast)⟩

theorem charge_frame {α : Type} (st : State F) (i : Nat) (fr : Frame F) (c : Charge α)
    (cost : Int) :
    ∃ own, (st.charge i fr c cost).2.1 = { fr with own := own, spent := fr.spent + cost } :=
  ⟨_, rfl⟩

theorem steps_enter (hinv : Inv W st) (h : st.frames[i]? = some fr) {parent stage : StageText}
    (hpos : fr.position = .entering parent stage) (resonates : Except String (Row → Bool))
    (suspends : Row → Option String) :
    Steps W st (stepEnter W st i fr parent stage resonates suspends) i fr := by
  have hent : fr.position.isEntering = true := by rw [hpos]; rfl
  have hfuel : (enterFrame parent stage (st.budgetFor fr)).2.fuel =
      wrapInt (st.budget.fuel + enterCost parent stage (st.budgetFor fr)) :=
    enterFrame_fuel parent stage (s := st.budgetFor fr) hinv.int64
  have hinner := enterFrame_inner parent stage (st.budgetFor fr)
  unfold stepEnter
  generalize enterCost parent stage (st.budgetFor fr) = cost at hfuel ⊢
  generalize enterFrame parent stage = c at hfuel hinner ⊢
  have hmoved := moved_charge h hinner hfuel fun hnot => absurd hent (by simp [hnot])
  obtain ⟨own, hfr⟩ := charge_frame st i fr c cost
  generalize st.charge i fr c cost = p at hmoved hfr ⊢
  obtain ⟨r, fr₁, st₁⟩ := p
  dsimp only at hfr hmoved
  subst hfr
  have hend : ∀ f answer, Steps W st (st₁.setFrame i
      { fr with
        own := own, spent := fr.spent + cost, fail := f, position := .ended, answer := answer })
      i fr := by
    intro f answer
    refine ⟨_, hmoved.setFrame ⟨rfl, rfl, rfl, rfl, rfl, id⟩ fun _ => .inl hent, fun _ hok => ?_⟩
    exact hok.ended rfl rfl rfl rfl rfl
  cases r with
  | error e => exact hend fr.fail fr.answer
  | ok penalty =>
    dsimp only
    split
    · exact hend fr.fail _
    · next rows hrows =>
      split
      · exact hend fr.fail _
      · next keep =>
        split
        · rw [Frame.failWith]
          split
          · exact hend _ fr.answer
          · exact hend fr.fail fr.answer
        · refine ⟨_, hmoved.setFrame ⟨rfl, rfl, rfl, rfl, rfl, id⟩ fun _ => .inl hent, ?_⟩
          intro hcall hok
          have hcall' : fr.isCall = true := hcall
          have hfound : lookupStage (W.table fr.tenant) (!fr.isCall) stage = some rows := hrows
          rw [hcall'] at hfound
          exact hok.run hpos hfound rfl rfl rfl rfl rfl

theorem steps_charge (h : st.frames[i]? = some fr) (cost : Int) :
    Steps W st (st.charge i fr (addFuel cost fr.stack) cost).2.2 i fr := by
  have hrun : (addFuel cost fr.stack (st.budgetFor fr)).2 = (st.budgetFor fr).burn cost := rfl
  refine ⟨_, moved_charge h ?_ ?_ fun _ => hrun, fun _ hok => ?_⟩
  · rw [hrun]
    exact inner_burn _ cost
  · rw [hrun]
    rfl
  · exact ⟨hok.valid, hok.spelled, hok.tenant, hok.stages, hok.entering, hok.running⟩

theorem steps_merge (hinv : Inv W st) (h : st.frames[i]? = some fr) (env : Text F) :
    Steps W st (st.setFrame i { fr with env := env }) i fr :=
  ⟨_, (Moved.refl hinv h).setFrame ⟨rfl, rfl, rfl, rfl, rfl, id⟩ .inl, fun _ hok =>
    ⟨hok.valid, hok.spelled, hok.tenant, hok.stages, hok.entering, hok.running⟩⟩

theorem steps_abort (hinv : Inv W st) (h : st.frames[i]? = some fr) (message : String) :
    Steps W st (st.setFrame i { fr with position := .ended, answer := .error message }) i fr :=
  ⟨_, (Moved.refl hinv h).setFrame ⟨rfl, rfl, rfl, rfl, rfl, id⟩ (fun he => by cases he),
    fun _ hok => hok.ended rfl rfl rfl rfl rfl⟩

theorem FrameOK.goOn (h : FrameOK W fr) {parent stage : StageText} (hof : OfStack fr.stack stage)
    (hstack : fr'.stack = fr.stack) (hhome : fr'.home = fr.home) (htenant : fr'.tenant = fr.tenant)
    (hstages : fr'.stages = fr.stages) (hpos : fr'.position = .entering parent stage) :
    FrameOK W fr' where
  valid := by rw [hstack]; exact h.valid
  spelled := by rw [hstack, hhome]; exact h.spelled
  tenant := by rw [htenant, hhome]; exact h.tenant
  stages := by rw [hstages, hhome, hstack]; exact h.stages
  entering parent' stage' he := by
    rw [hpos, Position.entering.injEq] at he
    rw [hstack, ← he.2]
    exact hof
  running stage' ops next hr := by rw [hpos] at hr; cases hr

theorem retenant_same {tenant : String} {resp : Envelope F}
    (h : tenant ≠ systemTenantSlug ∨ tenantAt W.codec resp ∈ ["", systemTenantSlug] ∨
      tenantAt W.codec resp ∉ W.tenants) :
    (maybeRetenant W.codec W.tenants ⟨some tenant, true⟩ resp).tenantScope = tenant := by
  rcases maybeRetenant_cases (c := W.codec) W.tenants ⟨some tenant, true⟩ resp with hsame |
    ⟨hsys, hne, hne', hmem, -⟩
  · rw [hsame]
    rfl
  · rcases h with h | h | h
    · exact absurd hsys h
    · simp [hne, hne'] at h
    · exact absurd hmem h

theorem steps_advance (hinv : Inv W st) (h : st.frames[i]? = some fr) {stage : StageText}
    {ops next : List Row} (hpos : fr.position = .running stage ops next)
    (hwaits : st.waits i = false) {left : Text F}
    (hmeets : fr.isCall = true →
      fr.tenant ≠ systemTenantSlug ∨ tenantAt W.codec (envelopeOf left) ∈ ["", systemTenantSlug] ∨
        tenantAt W.codec (envelopeOf left) ∉ W.tenants) (resp : Text F) (breaks denied : Bool) :
    Steps W st (stepAdvance W st i fr stage ops next resp left breaks denied) i fr := by
  have hend : ∀ f answer, Steps W st (st.setFrame i
      { fr with env := left, position := .ended, fail := f, answer := answer }) i fr := by
    intro f answer
    exact ⟨_, (Moved.refl hinv h).setFrame ⟨rfl, rfl, rfl, rfl, rfl, id⟩ (fun he => by cases he),
      fun _ hok => hok.ended rfl rfl rfl rfl rfl⟩
  have hfail : ∀ v message, Steps W st (st.setFrame i
      { ({ fr with env := left } : Frame F).failWith v message with position := .ended }) i fr := by
    intro v message
    obtain ⟨f, hf⟩ := failWith_eq ({ fr with env := left } : Frame F) v message
    rw [hf]
    exact hend f fr.answer
  have hgo : ∀ dest : StageText, (fr.isCall = true → FrameOK W fr → OfStack fr.stack dest) →
      Steps W st
        (if (maybeRetenant W.codec W.tenants ⟨some fr.tenant, true⟩
          (envelopeOf left)).tenantScope !=
            fr.tenant && denied then
          st.setFrame i
            { fr with env := left, position := .ended, answer := .envelope (envelopeOf left) }
        else st.setFrame i
          { fr with
            env := left,
            tenant := (maybeRetenant W.codec W.tenants ⟨some fr.tenant, true⟩
              (envelopeOf left)).tenantScope,
            position := .entering stage dest }) i fr := by
    intro dest hdest
    split
    · exact hend fr.fail _
    · refine ⟨_, (Moved.refl hinv h).setFrame ⟨rfl, rfl, rfl, rfl, rfl, id⟩ fun _ =>
        .inr hwaits, ?_⟩
      intro hcall hok
      have hcall' : fr.isCall = true := hcall
      exact hok.goOn (hdest hcall' hok) rfl rfl (retenant_same (hmeets hcall')) rfl rfl
  unfold stepAdvance
  extract_lets e next' halt goto fr₁ ended tenant onward
  split
  · exact hfail _ _
  · next hout =>
    split
    · exact hfail _ _
    · split
      · exact hend fr.fail _
      · next hhalt =>
        split
        · next hgoto =>
          refine hgo goto fun hcall _ => ?_
          have hconf : fr₁.confines goto = true := by
            by_contra hnot
            have hcall' : fr₁.isCall = true := hcall
            exact hout (by simp [hcall', hgoto, hhalt, hnot])
          rw [Frame.confines, show fr₁.isCall = true from hcall, Bool.not_true, Bool.false_or,
            Option.any_eq_true] at hconf
          obtain ⟨⟨stack, ds⟩, hparts, hstack⟩ := hconf
          obtain rfl : stack = fr.stack := beq_iff_eq.mp hstack
          exact ⟨ds, hparts⟩
        · clear_value next'
          cases next' with
          | nil => exact hend fr.fail _
          | cons r rs =>
            dsimp only
            split
            · next stack n hparse =>
              refine hgo _ fun hcall hok => ?_
              obtain ⟨m, hm⟩ := hok.running stage ops next hpos
              rw [hparse, Option.some.injEq, Prod.mk.injEq] at hm
              rw [hm.1]
              exact ofStack_stageAt hok.valid r.scope
            · next hnone =>
              refine hgo _ fun hcall hok => ?_
              obtain ⟨m, hm⟩ := hok.running stage ops next hpos
              rw [hnone] at hm
              cases hm

end Frames

section Answers

variable {W : Site F D} {st : State F} {i : Nat}

theorem finite_callError (fin : F → Bool) (e : CallError) :
    (e.json : Json F).finite fin = true := by
  have hrunning : ∀ xs : List String,
      Json.finiteElems fin (xs.map Json.str) = true := by
    intro xs
    rw [Json.finiteElems_iff]
    intro x hx
    obtain ⟨s, -, rfl⟩ := List.mem_map.mp hx
    rfl
  rw [CallError.json, Json.finite]
  cases e.stopped <;> by_cases hrun : e.running = [] <;>
    simp [Json.finiteMembers, Json.finite, hrun, hrunning]

theorem finite_result {r : CallResult F} (h : ∀ v, r.output = some v → v.finite W.L.fin = true) :
    (r.json W.codec.num).finite W.L.fin = true := by
  have hout : (r.output.getD (.obj [])).finite W.L.fin = true := by
    cases hr : r.output with
    | none => rfl
    | some v => exact h v hr
  have herr : ((r.error.map CallError.json).getD .null : Json F).finite W.L.fin = true := by
    cases r.error with
    | none => rfl
    | some e => exact finite_callError W.L.fin e
  simp [CallResult.json, CallResult.members, Json.finite, Json.finiteMembers, hout, herr,
    W.num_finite]

theorem finite_resultOf {fr : Frame F}
    (h : ∀ j, fr.answer = .envelope (some j) → j.finite W.L.fin = true) (cut : Option Cut)
    (ms : Int) : ((resultOf W st fr cut ms).json W.codec.num).finite W.L.fin = true := by
  apply finite_result
  intro v hv
  have hread : ∀ e : Envelope F, (∀ j, e = some j → j.finite W.L.fin = true) →
      channelAt e "output" = some v → v.finite W.L.fin = true := by
    intro e he hchannel
    obtain ⟨hget, -⟩ := Option.filter_eq_some_iff.mp hchannel
    cases e with
    | none => cases hget
    | some j => exact Json.finite_getPath (he j rfl) hget
  refine hread _ ?_ hv
  intro j hj
  split at hj
  · next e _ heq => exact h j (hj ▸ heq)
  · cases hj

theorem deliver_cases (st : State F) (i : Nat) (into : PathText) (r : CallResult F) :
    deliver W st i into r = st ∨ ∃ fr stage ops next, st.frames[i]? = some fr ∧
      fr.position = .running stage ops next ∧
      deliver W st i into r = st.setFrame i
        { fr with
          env := mergeAnswer W.L fr.env (callPayload W.L W.G (callInto W.G into)
            (W.marshal (r.json W.codec.num)) (r.json W.codec.num)) } := by
  rw [deliver]
  split
  · next fr hfr =>
    split
    · next stage ops next hpos => exact .inr ⟨fr, stage, ops, next, hfr, hpos, rfl⟩
    · exact .inl rfl
  · exact .inl rfl

/-- A delivery keeps the invariant and the counters, and writes at `into` alone. -/
structure Delivered (W : Site F D) (st st' : State F) (i : Nat) (into : PathText) : Prop where
  inv : Inv W st'
  length : st'.frames.length = st.frames.length
  frame : ∀ (k : Nat) (fr fr' : Frame F), st.frames[k]? = some fr → st'.frames[k]? = some fr' →
    fr'.isCall = fr.isCall ∧ fr'.caller = fr.caller ∧ fr'.found = fr.found
  counters : ∀ (k : Nat) (fr : Frame F), st.frames[k]? = some fr →
    fr.position.isEntering = false → st'.counters k = st.counters k
  others : ∀ (k : Nat) (fr fr' : Frame F), k ≠ i → st.frames[k]? = some fr →
    st'.frames[k]? = some fr' → fr'.env = fr.env
  answer : ∀ fr fr' : Frame F, st.frames[i]? = some fr → st'.frames[i]? = some fr' →
    OnlyAt W.L (intoKeys W into) fr.env fr'.env

theorem deliver_spec (hinv : Inv W st) {into : PathText} (hlands : LandsIn W st i into)
    {r : CallResult F} (hfin : (r.json W.codec.num).finite W.L.fin = true) :
    Delivered W st (deliver W st i into r) i into := by
  rcases deliver_cases (W := W) st i into r with heq | ⟨fr, stage, ops, next, hfr, hpos, heq⟩
  · rw [heq]
    refine ⟨hinv, rfl, fun k fr fr' h h' => ?_, fun _ _ _ _ => rfl, fun k fr fr' _ h h' => ?_,
      fun fr fr' h h' => ?_⟩
    · rw [h, Option.some.injEq] at h'
      subst h'
      exact ⟨rfl, rfl, rfl⟩
    · rw [h, Option.some.injEq] at h'
      rw [h']
    · rw [h, Option.some.injEq] at h'
      rw [h']
      exact OnlyAt.refl W.L _ _
  · rw [heq]
    obtain ⟨fr₁, hmoved, hok⟩ := steps_merge (W := W) hinv hfr (mergeAnswer W.L fr.env
      (callPayload W.L W.G (callInto W.G into) (W.marshal (r.json W.codec.num))
        (r.json W.codec.num)))
    have hself : ({ fr with
        env := mergeAnswer W.L fr.env (callPayload W.L W.G (callInto W.G into)
          (W.marshal (r.json W.codec.num)) (r.json W.codec.num)) } : Frame F) = fr₁ := by
      have hget := hmoved.get_self
      rw [State.setFrame, List.getElem?_set_self (List.getElem?_eq_some_iff.mp hfr).1,
        Option.some.injEq] at hget
      exact hget
    refine ⟨hmoved.inv hinv hok, by simp [State.setFrame], ?_, ?_, ?_, ?_⟩
    · intro k g g' hg hg'
      by_cases hk : k = i
      · subst hk
        rw [hmoved.get_self, Option.some.injEq] at hg'
        rw [hfr, Option.some.injEq] at hg
        rw [← hg', ← hg]
        exact ⟨isCall_congr hmoved.depth, hmoved.caller, hmoved.found⟩
      · rw [hmoved.get_of_ne hk, hg, Option.some.injEq] at hg'
        rw [hg']
        exact ⟨rfl, rfl, rfl⟩
    · exact fun k g hg hgpos => hmoved.counters hinv hg hgpos
    · intro k g g' hk hg hg'
      rw [hmoved.get_of_ne hk, hg, Option.some.injEq] at hg'
      rw [hg']
    · intro g g' hg hg'
      rw [hmoved.get_self, Option.some.injEq] at hg'
      rw [hfr, Option.some.injEq] at hg
      rw [← hg', ← hg, ← hself]
      exact onlyAt_mergeAnswer (keys_members W.codec.num r) hfin (hlands fr stage ops next hfr hpos)

end Answers

section Calls

variable {W : Site F D} {st st' : State F} {i : Nat} {fr : Frame F}

theorem Moved.found_counters {fr' : Frame F} (h : Moved st st' i fr fr') (hinv : Inv W st) {k : Nat}
    {g' : Frame F} (hg' : st'.frames[k]? = some g') (hcall : g'.isCall = true)
    (hopen : ∀ g : Frame F, st.frames[k]? = some g → g.returned = false) :
    st'.counters g'.caller = g'.found := by
  obtain ⟨g, hg, hcall₀, hcaller, hfound⟩ : ∃ g : Frame F, st.frames[k]? = some g ∧
      g.isCall = true ∧ g'.caller = g.caller ∧ g'.found = g.found := by
    by_cases hk : k = i
    · subst hk
      rw [h.get_self, Option.some.injEq] at hg'
      subst hg'
      exact ⟨fr, h.there, isCall_congr h.depth ▸ hcall, h.caller, h.found⟩
    · rw [h.get_of_ne hk] at hg'
      exact ⟨g', hg', hcall, rfl, rfl⟩
  obtain ⟨⟨c, hc, hpos⟩, hcounters⟩ :=
    hinv.caller g (List.mem_of_getElem? hg) hcall₀ (hopen g hg)
  rw [hcaller, hfound, h.counters hinv hc hpos, hcounters]

theorem kept_of_steps (hinv : Inv W st) (h : Steps W st st' i fr) {ev : Event F}
    (hframe : ev.frame = i) (hnone : answered W st ev = none) :
    Inv W st' ∧ CallsKept W st ev st' := by
  obtain ⟨fr', hmoved, hok⟩ := h
  have hinv' := hmoved.inv hinv hok
  refine ⟨hinv', ⟨?_, hinv'.meter, ?_, ?_, ?_⟩⟩
  · exact fun k g' hg' hcall hopen => hmoved.found_counters hinv hg' hcall hopen
  · exact fun g hg hcall => (hinv'.frame g hg hcall).stages
  · intro j path g g' hj
    rw [hnone] at hj
    cases hj
  · intro j g g' hj _ hg hg'
    rw [hmoved.get_of_ne (hframe ▸ hj), hg, Option.some.injEq] at hg'
    rw [hg']

theorem kept_of_delivered {st₁ : State F} {fr₁ : Frame F} {j : Nat} {into : PathText}
    (hinv : Inv W st) (hmoved : Moved st st₁ i fr fr₁) (hpos : fr₁.position = fr.position)
    (henv : fr₁.env = fr.env) (hd : Delivered W st₁ st' j into) {ev : Event F}
    (hans : answered W st ev = some (j, intoKeys W into)) : CallsKept W st ev st' := by
  have hstep : ∀ (k : Nat) (g : Frame F), st.frames[k]? = some g →
      ∃ g₁, st₁.frames[k]? = some g₁ ∧ g₁.position = g.position ∧ g₁.env = g.env := by
    intro k g hg
    by_cases hk : k = i
    · subst hk
      obtain rfl : fr = g := Option.some.inj (hmoved.there.symm.trans hg)
      exact ⟨fr₁, hmoved.get_self, hpos, henv⟩
    · exact ⟨g, (hmoved.get_of_ne hk).trans hg, rfl, rfl⟩
  refine ⟨?_, hd.inv.meter, fun g hg hcall => (hd.inv.frame g hg hcall).stages, ?_, ?_⟩
  · intro k g' hg' hcall hopen
    obtain ⟨hk', -⟩ := List.getElem?_eq_some_iff.mp hg'
    have hk₁ : k < st₁.frames.length := hd.length ▸ hk'
    have hk : k < st.frames.length := by
      rw [hmoved.frames, List.length_set] at hk₁
      exact hk₁
    obtain ⟨hcall', hcaller, hfound⟩ := hd.frame k _ g' (List.getElem?_eq_getElem hk₁) hg'
    have hcounters := hmoved.found_counters hinv (List.getElem?_eq_getElem hk₁) (hcall' ▸ hcall)
      hopen
    have hk₀ := List.getElem?_eq_getElem hk
    have hcall₀ : st.frames[k].isCall = true ∧ st₁.frames[k].caller = st.frames[k].caller := by
      by_cases hki : k = i
      · subst hki
        have h₁ : st₁.frames[k] = fr₁ :=
          Option.some.inj ((List.getElem?_eq_getElem hk₁).symm.trans hmoved.get_self)
        have h₀ : st.frames[k] = fr := Option.some.inj (hk₀.symm.trans hmoved.there)
        rw [h₀, h₁]
        rw [h₁] at hcall'
        exact ⟨by rw [← isCall_congr hmoved.depth, ← hcall', hcall], hmoved.caller⟩
      · have h₁ : st₁.frames[k] = st.frames[k] := Option.some.inj
          (((List.getElem?_eq_getElem hk₁).symm.trans (hmoved.get_of_ne hki)).trans hk₀)
        rw [h₁] at hcall' ⊢
        exact ⟨by rw [← hcall', hcall], rfl⟩
    obtain ⟨⟨c, hc, hcpos⟩, -⟩ := hinv.caller _ (List.getElem_mem hk) hcall₀.1 (hopen _ hk₀)
    obtain ⟨c₁, hc₁, hcpos₁, -⟩ := hstep _ c hc
    rw [hcaller, hfound, ← hcounters]
    exact hd.counters _ c₁ (hcall₀.2 ▸ hc₁) (by rw [hcpos₁, hcpos])
  · intro k path g g' hk hg hg'
    rw [hans, Option.some.injEq, Prod.mk.injEq] at hk
    obtain ⟨rfl, rfl⟩ := hk
    obtain ⟨g₁, hg₁, -, henv₁⟩ := hstep j g hg
    rw [← henv₁]
    exact hd.answer g₁ g' hg₁ hg'
  · intro k g g' _ hk hg hg'
    obtain ⟨g₁, hg₁, -, henv₁⟩ := hstep k g hg
    rw [← henv₁]
    refine hd.others k g₁ g' (fun hkj => hk ?_) hg₁ hg'
    rw [hans, hkj]
    rfl

theorem callTarget_valid {exec : List Char} {stack : StageText} {scope : Nat}
    (h : callTarget exec = some (stack, scope)) : validStack stack = true := by
  have hsome : ∀ p : StageText × Nat, (if validStack p.1 then some p else none) =
      some (stack, scope) → validStack stack = true := by
    intro p hp
    obtain ⟨hvalid, heq⟩ := Option.ite_none_right_eq_some.mp hp
    cases heq
    exact hvalid
  rw [callTarget] at h
  split at h
  · cases h
  · exact hsome _ h

theorem calledStack_valid {op : CallOp} {stack called : StageText}
    (hvalid : validStack stack = true) (h : calledStack op stack = .ok called) :
      validStack called = true := by
  rw [calledStack] at h
  split at h
  · cases h
    exact hvalid
  · split at h
    · next htrim =>
      cases h
      exact htrim
    · cases h

theorem kept_of_open (hinv : Inv W st) (h : st.frames[i]? = some fr)
    (hpos : fr.position.isEntering = false) {g : Frame F} (hcall : g.isCall = true)
    (hok : FrameOK W g) (hcaller : g.caller = i) (hfound : g.found = st.counters i)
    (hspent : g.spent = 0) {op : CallOp} {fresh : Text F} {version ms : Int} :
    Inv W { st with frames := st.frames ++ [g] } ∧
      CallsKept W st (.call i op fresh version ms) { st with frames := st.frames ++ [g] } := by
  have hold : ∀ (k : Nat) (c : Frame F), st.frames[k]? = some c →
      (st.frames ++ [g])[k]? = some c := by
    intro k c hc
    rw [List.getElem?_append_left (List.getElem?_eq_some_iff.mp hc).1, hc]
  have hcounters : ∀ (k : Nat) (c : Frame F), st.frames[k]? = some c →
      State.counters { st with frames := st.frames ++ [g] } k = st.counters k := by
    intro k c hc
    rw [counters_of_some (hold k c hc), counters_of_some hc]
  have hnew : ∀ (k : Nat) (c : Frame F), (st.frames ++ [g])[k]? = some c →
      st.frames[k]? = some c ∨ c = g := by
    intro k c hc
    rcases Nat.lt_or_ge k st.frames.length with hk | hk
    · rw [List.getElem?_append_left hk] at hc
      exact .inl hc
    · rw [List.getElem?_append_right hk] at hc
      exact .inr (List.mem_singleton.mp (List.mem_of_getElem? hc))
  have hinv' : Inv W { st with frames := st.frames ++ [g] } := by
    refine ⟨?_, ?_, ?_, ?_⟩
    · intro k c hc hroot
      rcases hnew k c hc with hc | rfl
      · exact hinv.root k c hc hroot
      · rw [hcall] at hroot
        cases hroot
    · rw [List.map_append, List.sum_append, List.map_singleton, List.sum_singleton, hspent,
        Int.add_zero]
      exact hinv.meter
    · intro c hc hccall
      rcases List.mem_append.mp hc with hc | hc
      · exact hinv.frame c hc hccall
      · exact List.mem_singleton.mp hc ▸ hok
    · intro c hc hccall hret
      rcases List.mem_append.mp hc with hc | hc
      · obtain ⟨⟨d, hd, hdpos⟩, hfind⟩ := hinv.caller c hc hccall hret
        exact ⟨⟨d, hold _ d hd, hdpos⟩, by rw [hcounters _ d hd, hfind]⟩
      · rw [List.mem_singleton.mp hc, hcaller, hfound]
        exact ⟨⟨fr, hold i fr h, hpos⟩, hcounters i fr h⟩
  refine ⟨hinv', ⟨?_, hinv'.meter, fun c hc hccall => (hinv'.frame c hc hccall).stages, ?_, ?_⟩⟩
  · intro k c hc hccall hopen
    rcases hnew k c hc with hc | rfl
    · obtain ⟨⟨d, hd, -⟩, hfind⟩ := hinv.caller c (List.mem_of_getElem? hc) hccall (hopen c hc)
      rw [hcounters _ d hd, hfind]
    · rw [hcaller, hfound, hcounters i fr h]
  · intro j path c c' _ hc hc'
    rw [hold j c hc, Option.some.injEq] at hc'
    rw [hc']
    exact OnlyAt.refl W.L _ _
  · intro j c c' _ _ hc hc'
    rw [hold j c hc, Option.some.injEq] at hc'
    rw [hc']

theorem position_openFrame (st : State F) (i : Nat) (fr : Frame F) (op : CallOp) (stack : StageText)
    (scope : Nat) (fresh : Text F) (version : Int) :
    (openFrame W st i fr op stack scope fresh version).position = .ended ∨
      ∃ n : Nat, (openFrame W st i fr op stack scope fresh version).position =
        .entering [] (stageAt stack n) := by
  have hif : ∀ (f : Option (Verdict × String)) (n : Nat),
      (if f.isSome then Position.ended else .entering [] (stageAt stack n)) = .ended ∨
        ∃ m : Nat, (if f.isSome then Position.ended else .entering [] (stageAt stack n)) =
          .entering [] (stageAt stack m) := by
    intro f n
    cases f with
    | none => exact .inr ⟨n, rfl⟩
    | some _ => exact .inl rfl
  exact hif _ _

theorem frameOK_openFrame {op : CallOp} {stack : StageText} (hvalid : validStack stack = true)
    (hspelled : Spelled (W.table fr.tenant) stack) (scope : Nat) (fresh : Text F) (version : Int) :
    FrameOK W (openFrame W st i fr op stack scope fresh version) where
  valid := hvalid
  spelled := hspelled
  tenant := rfl
  stages s hs := absurd hs List.not_mem_nil
  entering parent stage he := by
    rcases position_openFrame (W := W) st i fr op stack scope fresh version with hp | ⟨n, hp⟩
    · rw [hp] at he
      cases he
    · rw [hp, Position.entering.injEq] at he
      exact he.2 ▸ ofStack_stageAt hvalid n
  running stage ops next hr := by
    rcases position_openFrame (W := W) st i fr op stack scope fresh version with hp | ⟨n, hp⟩ <;>
    · rw [hp] at hr
      cases hr

theorem kept_call (hinv : Inv W st) (h : st.frames[i]? = some fr) {stage : StageText}
    {ops next : List Row} (hpos : fr.position = .running stage ops next) {op : CallOp}
    {fresh : Text F} {version ms : Int} (hmeets : CallMeets W st (.call i op fresh version ms)) :
    Inv W (stepCall W st i fr op fresh version ms) ∧
      CallsKept W st (.call i op fresh version ms) (stepCall W st i fr op fresh version ms) := by
  have hanswer : ∀ stack code message, LandsIn W st i op.into →
      Inv W (deliver W st i op.into (refusal stack code message ms)) ∧
        CallsKept W st (.call i op fresh version ms)
          (deliver W st i op.into (refusal stack code message ms)) := by
    intro stack code message hlands
    have hd := deliver_spec hinv hlands (r := refusal stack code message ms)
      (finite_result fun v hv => by cases hv)
    exact ⟨hd.inv, kept_of_delivered hinv (Moved.refl hinv h) rfl rfl hd rfl⟩
  rw [CallMeets] at hmeets
  unfold stepCall
  split
  · -- A malformed target drops the op: nothing has moved.
    refine ⟨hinv, ⟨fun k g' hg' hcall hopen => ?_, hinv.meter,
      fun g hg hcall => (hinv.frame g hg hcall).stages, fun j path g g' _ hg hg' => ?_,
      fun j g g' _ _ hg hg' => ?_⟩⟩
    · exact (Moved.refl hinv h).found_counters hinv hg' hcall hopen
    · rw [hg, Option.some.injEq] at hg'
      rw [hg']
      exact OnlyAt.refl W.L _ _
    · rw [hg, Option.some.injEq] at hg'
      rw [hg']
  · next stack scope htarget =>
    have hmeets := hmeets stack scope htarget
    split
    · next called hcalled =>
      rw [hcalled] at hmeets
      exact hanswer _ _ _ hmeets
    · next called hcalled =>
      rw [hcalled] at hmeets
      split
      · next code message hrefused =>
        rw [hrefused] at hmeets
        exact hanswer _ _ _ hmeets
      · next hrefused =>
        rw [hrefused] at hmeets
        have hvalid := calledStack_valid (callTarget_valid htarget) hcalled
        refine kept_of_open hinv h (by rw [hpos]; rfl) ?_
          (frameOK_openFrame hvalid (hmeets fr h) scope fresh version) rfl rfl rfl
        simp [Frame.isCall, openFrame]

theorem kept_return (hinv : Inv W st) (h : st.frames[i]? = some fr) (hpos : fr.position = .ended)
    {cut : Option Cut} {ms : Int} (hmeets : CallMeets W st (.callReturn i cut ms)) :
    Inv W (stepReturn W st i fr cut ms) ∧
      CallsKept W st (.callReturn i cut ms) (stepReturn W st i fr cut ms) := by
  obtain ⟨hlands, hfin⟩ := hmeets fr h
  have hmoved : Moved st (st.setFrame i { fr with returned := true }) i fr
      { fr with returned := true } :=
    (Moved.refl hinv h).setFrame ⟨rfl, rfl, rfl, rfl, rfl, fun hret => by cases hret⟩ .inl
  have hinv₁ := hmoved.inv hinv fun _ hok =>
    ⟨hok.valid, hok.spelled, hok.tenant, hok.stages, hok.entering, hok.running⟩
  have hlands₁ : LandsIn W (st.setFrame i { fr with returned := true }) fr.caller fr.into := by
    intro g stage ops next hg hgpos
    rcases hmoved.get_cases hg with rfl | hg
    · rw [hpos] at hgpos
      cases hgpos
    · exact hlands g stage ops next hg hgpos
  have hd := deliver_spec hinv₁ hlands₁ (r := resultOf W st fr cut ms)
    (finite_resultOf hfin cut ms)
  refine ⟨hd.inv, kept_of_delivered hinv hmoved rfl rfl hd ?_⟩
  rw [answered, h]
  rfl

theorem step_kept (hinv : Inv W st) {ev : Event F} (hmeets : CallMeets W st ev)
    (hstep : st.step W ev = some st') : Inv W st' ∧ CallsKept W st ev st' := by
  rw [State.step] at hstep
  split at hstep
  · cases hstep
  · next fr h =>
    split at hstep
    · next hpos =>
      cases hstep
      exact kept_of_steps hinv (steps_enter hinv h hpos _ _) rfl rfl
    · cases hstep
      exact kept_of_steps hinv (steps_charge h _) rfl rfl
    · cases hstep
      exact kept_of_steps hinv (steps_merge hinv h _) rfl rfl
    · next hpos =>
      cases hstep
      exact kept_call hinv h hpos hmeets
    · next hpos =>
      split at hstep
      · cases hstep
      · next hwaits =>
        cases hstep
        exact kept_of_steps hinv (steps_advance hinv h hpos
          (Bool.eq_false_of_not_eq_true hwaits) (hmeets fr h) _ _ _) rfl rfl
    · cases hstep
      exact kept_of_steps hinv (steps_abort hinv h _) rfl rfl
    · next hpos =>
      split at hstep
      · cases hstep
        exact kept_return hinv h hpos hmeets
      · cases hstep
    · cases hstep

end Calls

/-- The request before its first stage. -/
def State.start (W : Site F D) (tenant : String) (stage : StageText) (env : Text F) : State F where
  budget := loadBudget W.codec W.conf (envelopeOf env)
  opening := (loadBudget W.codec W.conf (envelopeOf env)).fuel
  frames :=
    [{ stack := [], entry := stage, depth := 0, caller := 0, home := tenant, tenant := tenant,
       own := ⟨0, []⟩, env := env, position := .entering [] stage, fail := none, answer := .silent,
       into := [], promised := [], version := 0, returned := false, found := (0, []), spent := 0,
       stages := [] }]

theorem inv_start (W : Site F D) (tenant : String) (stage : StageText) (env : Text F) :
    Inv W (State.start W tenant stage env) := by
  refine ⟨?_, ?_, ?_, ?_⟩
  · intro k fr hfr _
    have hlen : k < 1 := (List.getElem?_eq_some_iff.mp hfr).1
    omega
  · have hint : wrapInt (loadBudget W.codec W.conf (envelopeOf env)).fuel =
        (loadBudget W.codec W.conf (envelopeOf env)).fuel := by
      rw [loadBudget_fuel, Codec.intAt]
      split
      · exact W.codec.int_int64 _
      · rfl
    simp only [State.start, List.map_singleton, List.sum_singleton, Int.add_zero]
    exact hint.symm
  · intro fr hfr hcall
    rw [List.mem_singleton.mp hfr] at hcall
    cases hcall
  · intro fr hfr hcall
    rw [List.mem_singleton.mp hfr] at hcall
    cases hcall

/-- In every run of a request, however its frames interleave, whose calls meet their conditions,
each step keeps the callers of the calls that are out. -/
theorem calls_hold_along (W : Site F D) (tenant : String) (stage : StageText) (env : Text F)
    (evs : List (Event F))
    (h : Along (State.step W) (CallMeets W) (.start W tenant stage env) evs) :
    Along (State.step W) (CallsHold W) (.start W tenant stage env) evs :=
  Along.of_invariant (I := Inv W) (fun _ _ _ hinv hmeets hstep => (step_kept hinv hmeets hstep).1)
    (fun _ _ hinv hmeets _ hstep => (step_kept hinv hmeets hstep).2)
      (inv_start W tenant stage env) h

section Runs

def ruleRow (stack : String) (scope : Nat) (h : scope ≤ maxInt) : Row :=
  ⟨[stack.toList], scope, "rule", "", h⟩

theorem hundred_le_maxInt : 100 ≤ maxInt := by
  decide

/-- A tenant with a caller at `main/100` and the scopes 100 and 200 of one more stack. -/
def shopSite (stack : String) : Site Int Unit where
  L := intLib .first
  G := emptyGjson
  codec := plainCodec
  bool
    | .bool b => b
    | _ => false
  marshal := marshalInt
  quote t := "\"" ++ String.ofList t ++ "\""
  budgetText
    | .fuel max used stage _ =>
      "txco_fuel_exhausted: used " ++ toString used ++ " of " ++ toString max ++ " at " ++
        String.ofList stage
    | .ttl max consumed stage _ =>
      "txcl_scope_ttl_exhausted: consumed " ++ toString consumed ++ " of " ++ toString max ++
        " at " ++
        String.ofList stage
    | .allowance name _ resetsAt _ stage =>
      "txco_allowance_exhausted: allowance \"" ++ name ++ "\" spent until " ++ resetsAt ++
        " (stage " ++ String.ofList stage ++ ")"
  conf := defaultConf
  callDepthMax := 0
  table tenant :=
    if tenant = "acme" then
      [ruleRow "main" 100 hundred_le_maxInt, ruleRow stack 100 hundred_le_maxInt,
        ruleRow stack 200 (by decide)]
    else []
  tenants := ["acme"]
  num_finite _ := rfl

def shopText (ms : List (String × Json Int)) : Text Int :=
  ((intLib .first).ofEntries ms).render

def shopStart (stack : String) : State Int :=
  .start (shopSite stack) "acme" "main/0".toList
    (shopText [("_txc", .obj [("tenant", .str "acme")]), ("keep", .str "me")])

def enterAll (i : Nat) : Event Int :=
  .enter i (.ok fun _ => true) fun _ => none

def callShop (into : String) (stack : Option String) : Event Int :=
  .call 0 ⟨"call://app".toList, into.toList, stack.map String.toList, none, none⟩
    (shopText [("_txc", .obj [("src", .str "call")])]) 1 0

/-- The callee jumps to its scope 200 and answers from there. -/
def shopRun : List (Event Int) :=
  [enterAll 0, callShop "_orient" none, enterAll 1, .charge 1 7,
    .advance 1 (shopText [("_txc", .obj [("goto", .str "200")])]) (shopText []) false false,
    enterAll 1,
    .advance 1 (shopText [("_call", .obj [("output", .num 7)])])
      (shopText [("_call", .obj [("output", .num 7)])]) false false,
    .callReturn 1 none 3]

/-- What the run so far shows of a frame. -/
def shown {α : Type} (stack : String) (evs : List (Event Int)) (i : Nat) (f : Frame Int → α) :
    Option α :=
  ((evs.foldlM (State.step (shopSite stack)) (shopStart stack)).bind (·.frames[i]?)).map f

def Answer.finiteEnvelope : Answer Int → Bool
  | .envelope (some j) => j.finite (intLib .first).fin
  | _ => true

theorem eq_of_shown {α : Type} {stack : String} {evs : List (Event Int)} {i : Nat}
    {f : Frame Int → α} {st : State Int} {fr : Frame Int} {v : α} (h : shown stack evs i f = some v)
    (hst : evs.foldlM (State.step (shopSite stack)) (shopStart stack) = some st)
    (hfr : st.frames[i]? = some fr) : f fr = v := by
  rw [shown, hst, Option.bind_some, hfr] at h
  exact Option.some.inj h

theorem calls_hold_shopRun :
    Along (State.step (shopSite "app")) (CallsHold (shopSite "app")) (shopStart "app") shopRun ∧
      shown "app" shopRun 0 (fun fr =>
          (envRead (intLib .first) fr.env ["_orient", "output"]).map marshalInt) =
        some (some "7") := by
  refine ⟨calls_hold_along (shopSite "app") "acme" _ _ shopRun
    (along_iff.mpr ?_), by decide +kernel⟩
  have hadvance : ∀ n resp left st,
      shown "app" (shopRun.take n) 1 (fun fr => decide (fr.tenant ≠ systemTenantSlug)) = some true →
      (shopRun.take n).foldlM (State.step (shopSite "app")) (shopStart "app") = some st →
      CallMeets (shopSite "app") st (.advance 1 resp left false false) :=
    fun n resp left st hshown hst fr hfr _ => .inl (of_decide_eq_true (eq_of_shown hshown hst hfr))
  intro n ev st hev hst
  have hn : n < 8 := (List.getElem?_eq_some_iff.mp hev).1
  interval_cases n <;> cases hev
  · trivial
  · intro stack scope htarget fr hfr
    have htenant := eq_of_shown (f := Frame.tenant) (v := "acme") (by decide +kernel) hst hfr
    have hstack : stack = "app".toList := by
      have happ : callTarget "call://app".toList = some ("app".toList, 0) := by decide +kernel
      rw [happ] at htarget
      cases htarget
      rfl
    rw [hstack, htenant]
    decide +kernel
  · trivial
  · trivial
  · exact hadvance 4 _ _ st (by decide +kernel) hst
  · trivial
  · exact hadvance 6 _ _ st (by decide +kernel) hst
  · intro fr hfr
    have hcaller := eq_of_shown (f := Frame.caller) (v := 0) (by decide +kernel) hst hfr
    have hinto := eq_of_shown (f := Frame.into) (v := "_orient".toList) (by decide +kernel) hst hfr
    have hsegs : intoSegs emptyGjson (callInto emptyGjson "_orient".toList) =
        (⟨"_orient", false⟩, []) := by decide +kernel
    rw [hcaller, hinto]
    refine ⟨?_, ?_⟩
    · intro fr₀ stage ops next hfr₀ _
      have hfinite := eq_of_shown (f := fun fr => (parse fr.env).any (·.finite (intLib .first).fin))
        (v := true) (by decide +kernel) hst hfr₀
      change Lands (intLib .first) (intoSegs emptyGjson (callInto emptyGjson "_orient".toList)).1
        (intoSegs emptyGjson (callInto emptyGjson "_orient".toList)).2 fr₀.env
      rw [hsegs]
      exact lands_plain (by decide +kernel) hfinite
    · intro j hj
      have hfinite :=
        eq_of_shown (f := fun fr => fr.answer.finiteEnvelope) (v := true) (by decide +kernel) hst hfr
      rw [hj] at hfinite
      exact hfinite

def Position.isRunning : Position → Bool
  | running _ _ _ => true
  | _ => false

/-- The answer of a call that is refused is set at a key sjson refuses. -/
theorem refused_empties {st st' : State Int} {fr fr' : Frame Int} {v : Json Int}
    (hfr : st.frames[0]? = some fr) (hrunning : fr.position.isRunning = true)
    (hv : envRead (intLib .first) fr.env ["keep"] = some v)
    (hstep : State.step (shopSite "app") st (callShop "a\\*b" (some "no name")) = some st')
    (hfr' : st'.frames[0]? = some fr') : fr'.env = [] := by
  have htarget : callTarget "call://app".toList = some ("app".toList, 0) := by decide
  have hstack : calledStack ⟨"call://app".toList, "a\\*b".toList, some "no name".toList, none, none⟩
      "app".toList = .error "no name".toList := by
    decide +kernel
  have hsegs : intoSegs emptyGjson (callInto emptyGjson "a\\*b".toList) =
      (⟨"a*b", false⟩, []) := by
    decide +kernel
  obtain ⟨o, ho⟩ : ∃ o, parse fr.env = some o := by
    cases hp : parse fr.env with
    | none => simp [envRead, hp] at hv
    | some o => exact ⟨o, rfl⟩
  obtain ⟨stage, ops, next, hpos⟩ : ∃ stage ops next, fr.position = .running stage ops next := by
    cases hp : fr.position with
    | running stage ops next => exact ⟨stage, ops, next, rfl⟩
    | _ => simp [hp, Position.isRunning] at hrunning
  simp only [callShop, State.step, Event.frame, hfr, hpos, Option.some.injEq, stepCall, htarget,
    Option.map_some, hstack, deliver] at hstep
  subst hstep
  rw [State.setFrame, List.getElem?_set_self (List.getElem?_eq_some_iff.mp hfr).1] at hfr'
  cases hfr'
  rw [parse_eq_some_iff.mp ho]
  exact mergeAnswer_refused hsegs (by decide) (by decide) (by decide)
    (by rw [JsonLib.get, parse_render]; rfl)

/-- Where `LIKE` finds the stack in another spelling, the call runs stages its own check refuses;
where sjson cannot set the key of `into`, the answer takes the caller's envelope with it. -/
theorem call_leaves_stack_and_into :
    ¬ Along (State.step (shopSite "APP")) (CallsHold (shopSite "APP")) (shopStart "APP")
        ([enterAll 0, callShop "_orient" none] ++ [enterAll 1]) ∧
      ¬ Along (State.step (shopSite "app")) (CallsHold (shopSite "app")) (shopStart "app")
        ([enterAll 0] ++ [callShop "a\\*b" (some "no name")]) := by
  refine ⟨fun h => ?_, fun h => ?_⟩
  · have hshown : shown "APP" ([enterAll 0, callShop "_orient" none] ++ [enterAll 1]) 1
        (fun fr => (fr.isCall, fr.stack, fr.stages)) =
          some (true, "app".toList, [("acme", "app/0".toList), ("acme", "APP/100".toList)]) := by
      decide +kernel
    obtain ⟨fr, hfr, hframe⟩ := Option.map_eq_some_iff.mp hshown
    obtain ⟨st', hst', hfr⟩ := Option.bind_eq_some_iff.mp hfr
    obtain ⟨st, -, hstep, hkept⟩ := h.last hst'
    simp only [Prod.mk.injEq] at hframe
    obtain ⟨hcall, hstack, hstages⟩ := hframe
    obtain ⟨-, ds, hds⟩ := (hkept st' hstep).stages fr (List.mem_of_getElem? hfr) hcall
      ("acme", "APP/100".toList) (by rw [hstages]; exact List.mem_cons_of_mem _ List.mem_cons_self)
    have hparts : (stageParts "APP/100".toList).map Prod.fst = some "APP".toList := by decide +kernel
    rw [hds, Option.map_some, hstack, Option.some.injEq] at hparts
    exact absurd (show "app".toList = "APP".toList from hparts) (by decide +kernel)
  · have hafter : (shown "app" ([enterAll 0] ++ [callShop "a\\*b" (some "no name")]) 0
        fun fr => fr.returned) = some false := by
      decide +kernel
    obtain ⟨fr', hfr', -⟩ := Option.map_eq_some_iff.mp hafter
    obtain ⟨st', hst', hfr'⟩ := Option.bind_eq_some_iff.mp hfr'
    obtain ⟨st, hst, hstep, hkept⟩ := h.last hst'
    have hbefore : shown "app" [enterAll 0] 0
        (fun fr => fr.position.isRunning &&
          (envRead (intLib .first) fr.env ["keep"]).any fun v => !v.isObject) = some true := by
      decide +kernel
    obtain ⟨fr, hfr, hleaf⟩ := Option.map_eq_some_iff.mp hbefore
    rw [hst, Option.bind_some] at hfr
    obtain ⟨hrunning, hleaf⟩ := Bool.and_eq_true_iff.mp hleaf
    obtain ⟨v, hv, hobject⟩ := (Option.any_eq_true _ _).mp hleaf
    have hkeys : intoKeys (shopSite "app") "a\\*b".toList = ["a*b"] := by decide +kernel
    have hkeep := ((hkept st' hstep).answer 0 ["a*b"] fr fr' (congrArg (fun k => some (0, k)) hkeys)
      hfr hfr').leaf ["keep"] v (by decide +kernel) hv (by simpa using hobject)
    rw [refused_empties hfr hrunning hv hstep hfr'] at hkeep
    cases hkeep

end Runs

end ThanksComputer.Call
